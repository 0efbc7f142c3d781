/-
# `Hammer2.Directory.Entry` — directory entries and their keys

A directory is the list of its live entries in the order of their keys, which is the order in
which `hammer2_chain_lookup` and `hammer2_chain_next` return them.

    dirhash        the key a name hashes to (hammer2_dirhash); its low 15 bits are 0
    dirent_test    whether an entry carries a name (hammer2_chain_dirent_test)
    free_lhc       the key a new entry gets (the scan of hammer2_dirent_create, hammer2_rename)

Names that hash alike share the bucket `[dirhash, dirhash + 0x7FFF]` and get different keys in
it.  `WellFormed` is what every operation keeps: keys increase, an entry lies in the bucket of
its name, and no two entries have one name.
-/
import Mathlib.Data.List.Sort
import Mathlib.Data.Nat.Bitwise

namespace Hammer2.Dir

/-- A name as the system calls pass it: not empty, shorter than HAMMER2_INODE_MAXNAME. -/
structure Name where
  bytes : List UInt8
  nonempty : bytes ≠ []
  short : bytes.length < 256
deriving DecidableEq

inductive ObjType where
  | unknown | directory | regfile | fifo | cdev | bdev | softlink | socket
deriving DecidableEq, Repr

/-- What the media reports when a block cannot be read or allocated. -/
inductive MediaError where
  | eio | check | enospc
deriving DecidableEq, Repr

inductive Error where
  | enoent | eexist | enospc | enotempty | eisdir | enotdir | einval | eio | check
deriving DecidableEq, Repr

def MediaError.toError : MediaError → Error
  | .eio => .eio
  | .check => .check
  | .enospc => .enospc

def DIRHASH_VISIBLE : Nat := 0x8000000000000000
def DIRHASH_LOMASK : Nat := 0x7FFF
def KEY_MAX : Nat := 0xFFFFFFFFFFFFFFFF

/-- The bytes `hammer2_dirhash` splits a name at: `.`, `-`, `_` and `~`. -/
def isSeparator (c : UInt8) : Bool := c == 46 || c == 45 || c == 95 || c == 126

/-- `hammer2_dirhash`, over the checksum `hammer2_icrc32`. -/
def dirhash (icrc32 : List UInt8 → UInt32) (aname : List UInt8) : Nat :=
  let pieces := (aname.splitOnP isSeparator).filter (· ≠ [])
  let crcx := pieces.foldl (fun crcx piece => crcx + icrc32 piece) 0 ||| 0x80000000
  let whole := icrc32 aname ^^^ (icrc32 aname <<< 16)
  crcx.toNat <<< 32 ||| (whole.toNat &&& 0xFFFF0000 ||| 0x8000)

/-- A blockref of type DIRENT: `embed.dirent`, the 64 bytes of `check.buf` and the data block
of a longer name. -/
structure Dirent where
  key : Nat
  inum : Nat
  namlen : Nat
  type : ObjType
  check_buf : List UInt8
  data : Option (List UInt8)
deriving DecidableEq

/-- `bcopy` of a name into a zeroed buffer. -/
def copyName (size : Nat) (name : List UInt8) : List UInt8 :=
  name ++ List.replicate (size - name.length) 0

/-- `hammer2_chain_dirent_test`, for an entry of type DIRENT. -/
def dirent_test (e : Dirent) (name : List UInt8) : Bool :=
  e.namlen == name.length &&
    ((decide (64 < name.length) && (e.data.map (·.take name.length) == some name)) ||
      (decide (name.length ≤ 64) && (e.check_buf.take name.length == name)))

abbrev Directory := List Dirent

/-- The entries `hammer2_chain_lookup` and `hammer2_chain_next` return for a range of keys. -/
def lookup (dir : Directory) (key_beg key_end : Nat) : List Dirent :=
  dir.filter fun e => decide (key_beg ≤ e.key) && decide (e.key ≤ key_end)

/-- `hammer2_chain_create`: the entry becomes live. -/
def chain_create (dir : Directory) (e : Dirent) : Directory :=
  dir.orderedInsert (fun a b => a.key ≤ b.key) e

/-- `hammer2_chain_delete`. -/
def chain_delete (dir : Directory) (key : Nat) : Directory :=
  dir.filter fun e => decide (e.key ≠ key)

section Hash

variable (icrc32 : List UInt8 → UInt32)

/-- The entry that carries a name: the first one in the bucket that passes the test. -/
def find (dir : Directory) (name : List UInt8) : Option Dirent :=
  let lhc := dirhash icrc32 name
  (lookup dir lhc (lhc + DIRHASH_LOMASK)).find? (dirent_test · name)

/-- The loop over `hammer2_xop_scanlhc`: the keys it feeds, in order, and how the feed ends. -/
def scanlhc : Nat → List Nat → Option MediaError → Except Error Nat
  | lhc, [], none => .ok (lhc + 1)      -- ENOENT: the feed is over
  | _, [], some e => .error e.toError
  | lhc, key :: keys, e => if lhc ≠ key then .ok lhc else scanlhc (lhc + 1) keys e

/-- An unused key in the collision space of the name.  The masked test of the high bits is
written as a quotient. -/
def free_lhc (dir : Directory) (name : List UInt8) (scan : Option MediaError) : Except Error Nat :=
  let lhcbase := dirhash icrc32 name
  match scanlhc lhcbase ((lookup dir lhcbase (lhcbase + DIRHASH_LOMASK)).map (·.key)) scan with
  | .error e => .error e
  | .ok lhc =>
      if (lhcbase ^^^ lhc) / (DIRHASH_LOMASK + 1) ≠ 0 then .error .enospc else .ok lhc

end Hash

/-! ## The hash leaves 15 bits for the collisions -/

theorem dirhash_mod (icrc32 : List UInt8 → UInt32) (name : List UInt8) :
    dirhash icrc32 name % 2 ^ 15 = 0 := by
  have hhi : ∀ x : Nat, (x <<< 32) % 2 ^ 15 = 0 := fun x => by
    rw [Nat.shiftLeft_eq]
    omega
  simp only [dirhash]
  rw [Nat.or_mod_two_pow, hhi, Nat.or_mod_two_pow, Nat.and_mod_two_pow]
  simp

theorem dirhash_lt (icrc32 : List UInt8 → UInt32) (name : List UInt8) :
    dirhash icrc32 name < 2 ^ 64 := by
  simp only [dirhash]
  refine Nat.or_lt_two_pow ?_ (Nat.or_lt_two_pow ?_ (by decide))
  · rw [Nat.shiftLeft_eq]
    have := UInt32.toNat_lt ((List.foldl (fun crcx piece => crcx + icrc32 piece) 0
      ((name.splitOnP isSeparator).filter (· ≠ []))) ||| 0x80000000)
    omega
  · exact Nat.lt_of_le_of_lt Nat.and_le_right (by decide)

theorem visible_le_dirhash (icrc32 : List UInt8 → UInt32) (name : List UInt8) :
    DIRHASH_VISIBLE ≤ dirhash icrc32 name := by
  simp only [dirhash]
  refine Nat.le_trans ?_ Nat.left_le_or
  have htop : 0x80000000 ≤ ((List.foldl (fun crcx piece => crcx + icrc32 piece) 0
      ((name.splitOnP isSeparator).filter (· ≠ []))) ||| 0x80000000).toNat := by
    rw [UInt32.toNat_or]
    exact Nat.right_le_or
  rw [Nat.shiftLeft_eq, DIRHASH_VISIBLE]
  omega

/-- The highest key of a bucket is still a key. -/
theorem dirhash_add_le (icrc32 : List UInt8 → UInt32) (name : List UInt8) :
    dirhash icrc32 name + DIRHASH_LOMASK ≤ KEY_MAX := by
  have hmod := dirhash_mod icrc32 name
  have hlt := dirhash_lt icrc32 name
  simp only [DIRHASH_LOMASK, KEY_MAX]
  omega

/-! ## Well-formed directories -/

/-- The name an entry carries. -/
def Dirent.name (e : Dirent) : List UInt8 :=
  if 64 < e.namlen then (e.data.getD []).take e.namlen else e.check_buf.take e.namlen

/-- What every directory operation keeps. -/
structure WellFormed (icrc32 : List UInt8 → UInt32) (dir : Directory) : Prop where
  sorted : dir.Pairwise (fun a b => a.key < b.key)
  stored : ∀ e ∈ dir, e.name.length = e.namlen
  visible : ∀ e ∈ dir, DIRHASH_VISIBLE ≤ e.key ∧ e.key ≤ KEY_MAX
  placed : ∀ e ∈ dir, e.name ≠ [] →
    dirhash icrc32 e.name ≤ e.key ∧ e.key ≤ dirhash icrc32 e.name + DIRHASH_LOMASK
  distinct : ∀ e ∈ dir, ∀ e' ∈ dir, e.name ≠ [] → e.name = e'.name → e = e'

variable {icrc32 : List UInt8 → UInt32} {dir : Directory}

theorem wellFormed_nil : WellFormed icrc32 [] := by
  constructor <;> simp

/-- An entry passes the test of the name it carries, and of no other. -/
theorem dirent_test_iff {e : Dirent} {name : List UInt8} (hstored : e.name.length = e.namlen)
    (hne : name ≠ []) : dirent_test e name = true ↔ e.name = name := by
  have hpos := List.length_pos_of_ne_nil hne
  constructor
  · intro h
    simp only [dirent_test, Bool.and_eq_true, Bool.or_eq_true, decide_eq_true_eq, beq_iff_eq] at h
    obtain ⟨hlen, ⟨hlong, hdata⟩ | ⟨hshort, hbuf⟩⟩ := h
    · cases hd : e.data with
      | none => simp [hd] at hdata
      | some block =>
          rw [hd, Option.map_some, Option.some.injEq] at hdata
          rw [Dirent.name, if_pos (by omega), hd, Option.getD_some, hlen]
          exact hdata
    · rw [Dirent.name, if_neg (by omega), hlen]
      exact hbuf
  · rintro rfl
    simp only [dirent_test, Bool.and_eq_true, Bool.or_eq_true, decide_eq_true_eq, beq_iff_eq]
    refine ⟨hstored.symm, ?_⟩
    by_cases hlong : 64 < e.namlen
    · cases hd : e.data with
      | none =>
          have : e.name = [] := by simp [Dirent.name, hlong, hd]
          exact absurd this hne
      | some block =>
          refine .inl ⟨by omega, ?_⟩
          rw [hstored, Dirent.name, if_pos hlong, hd]
          rfl
    · refine .inr ⟨by omega, ?_⟩
      rw [hstored, Dirent.name, if_neg hlong]

theorem mem_lookup {e : Dirent} {key_beg key_end : Nat} :
    e ∈ lookup dir key_beg key_end ↔ e ∈ dir ∧ key_beg ≤ e.key ∧ e.key ≤ key_end := by
  simp [lookup]

@[simp] theorem mem_chain_create {e x : Dirent} : x ∈ chain_create dir e ↔ x = e ∨ x ∈ dir :=
  List.mem_orderedInsert _

@[simp] theorem mem_chain_delete {x : Dirent} {key : Nat} :
    x ∈ chain_delete dir key ↔ x ∈ dir ∧ x.key ≠ key := by
  simp [chain_delete]

namespace WellFormed

/-- Two entries with one key are one entry. -/
theorem key_inj (h : WellFormed icrc32 dir) {a b : Dirent} (ha : a ∈ dir) (hb : b ∈ dir)
    (hkey : a.key = b.key) : a = b := by
  by_contra hne
  have hpair := h.sorted
  rcases List.pairwise_iff_getElem.mp hpair with hlt
  obtain ⟨i, hi, rfl⟩ := List.getElem_of_mem ha
  obtain ⟨j, hj, rfl⟩ := List.getElem_of_mem hb
  rcases Nat.lt_trichotomy i j with hij | rfl | hij
  · exact absurd (hlt i j hi hj hij) (by omega)
  · exact hne rfl
  · exact absurd (hlt j i hj hi hij) (by omega)

theorem find_spec {name : List UInt8} {e : Dirent} (hf : find icrc32 dir name = some e) :
    e ∈ dir ∧ dirent_test e name = true :=
  ⟨(mem_lookup.mp (List.mem_of_find?_eq_some hf)).1, List.find?_some (p := (dirent_test · name)) hf⟩

/-- `find` returns the entry that carries the name, wherever it sits in the bucket. -/
theorem find_eq_some (h : WellFormed icrc32 dir) {name : List UInt8} (hne : name ≠ [])
    {e : Dirent} : find icrc32 dir name = some e ↔ e ∈ dir ∧ e.name = name := by
  constructor
  · intro hf
    obtain ⟨hmem, htest⟩ := find_spec hf
    exact ⟨hmem, (dirent_test_iff (h.stored e hmem) hne).mp htest⟩
  · rintro ⟨hmem, rfl⟩
    have hplaced := h.placed e hmem hne
    cases hf : find icrc32 dir e.name with
    | none =>
        have hnot := List.find?_eq_none.mp hf e (mem_lookup.mpr ⟨hmem, hplaced⟩)
        exact absurd ((dirent_test_iff (h.stored e hmem) hne).mpr rfl) hnot
    | some x =>
        obtain ⟨hx, htest⟩ := find_spec hf
        have hname := (dirent_test_iff (h.stored x hx) hne).mp htest
        exact congrArg some (h.distinct e hmem x hx hne hname.symm).symm

theorem find_eq_none (h : WellFormed icrc32 dir) {name : List UInt8} (hne : name ≠ []) :
    find icrc32 dir name = none ↔ ∀ e ∈ dir, e.name ≠ name := by
  constructor
  · intro hf e he hname
    have := (h.find_eq_some hne).mpr ⟨he, hname⟩
    simp [hf] at this
  · intro hno
    cases hf : find icrc32 dir name with
    | none => rfl
    | some e =>
        obtain ⟨he, hname⟩ := (h.find_eq_some hne).mp hf
        exact absurd hname (hno e he)

/-- An entry at an unused key of its bucket, under a name not present, keeps the directory
well formed. -/
theorem create (h : WellFormed icrc32 dir) {e : Dirent} (hstored : e.name.length = e.namlen)
    (hvisible : DIRHASH_VISIBLE ≤ e.key ∧ e.key ≤ KEY_MAX)
    (hplaced : e.name ≠ [] →
      dirhash icrc32 e.name ≤ e.key ∧ e.key ≤ dirhash icrc32 e.name + DIRHASH_LOMASK)
    (hfree : ∀ x ∈ dir, x.key ≠ e.key) (hnew : ∀ x ∈ dir, e.name ≠ [] → x.name ≠ e.name) :
    WellFormed icrc32 (chain_create dir e) := by
  constructor
  · have hle : (chain_create dir e).Pairwise (fun a b => a.key ≤ b.key) :=
      List.Pairwise.orderedInsert e dir (h.sorted.imp Nat.le_of_lt)
    have hnodup : (chain_create dir e).Pairwise (fun a b => a.key ≠ b.key) := by
      refine ((List.perm_orderedInsert _ e dir).pairwise_iff fun hab => Ne.symm hab).mpr ?_
      exact List.pairwise_cons.mpr ⟨fun x hx => (hfree x hx).symm, h.sorted.imp Nat.ne_of_lt⟩
    exact (hle.and hnodup).imp fun hab => Nat.lt_of_le_of_ne hab.1 hab.2
  · intro x hx
    rcases mem_chain_create.mp hx with rfl | hx
    · exact hstored
    · exact h.stored x hx
  · intro x hx
    rcases mem_chain_create.mp hx with rfl | hx
    · exact hvisible
    · exact h.visible x hx
  · intro x hx
    rcases mem_chain_create.mp hx with rfl | hx
    · exact hplaced
    · exact h.placed x hx
  · intro x hx y hy hne hname
    rcases mem_chain_create.mp hx with rfl | hx' <;> rcases mem_chain_create.mp hy with rfl | hy'
    · rfl
    · exact absurd hname.symm (hnew y hy' hne)
    · exact absurd hname (hnew x hx' (hname ▸ hne))
    · exact h.distinct x hx' y hy' hne hname

theorem delete (h : WellFormed icrc32 dir) (key : Nat) : WellFormed icrc32 (chain_delete dir key) :=
  ⟨h.sorted.filter _, fun e he => h.stored e (mem_chain_delete.mp he).1,
    fun e he => h.visible e (mem_chain_delete.mp he).1,
    fun e he => h.placed e (mem_chain_delete.mp he).1,
    fun e he x hx => h.distinct e (mem_chain_delete.mp he).1 x (mem_chain_delete.mp hx).1⟩

end WellFormed

/-! ## The scan for an unused key -/

/-- The scan stops at an unused key; all keys it passed, but perhaps the last one, are used. -/
theorem scanlhc_spec {scan : Option MediaError} {r : Nat} : ∀ {keys : List Nat} {lhc : Nat},
    keys.Pairwise (· < ·) → (∀ k ∈ keys, lhc ≤ k) → scanlhc lhc keys scan = .ok r →
      lhc ≤ r ∧ r ∉ keys ∧ ∀ k, lhc ≤ k → k + 1 < r → k ∈ keys
  | [], lhc, _, _, h => by
      cases scan with
      | some e => simp [scanlhc] at h
      | none =>
          obtain rfl : lhc + 1 = r := by simpa [scanlhc] using h
          exact ⟨by omega, by simp, fun k hk hlt => by omega⟩
  | key :: keys, lhc, hsorted, hge, h => by
      have hcons := List.pairwise_cons.mp hsorted
      rw [scanlhc] at h
      by_cases hgap : lhc ≠ key
      · rw [if_pos hgap] at h
        obtain rfl : lhc = r := by simpa using h
        refine ⟨Nat.le_refl _, fun hmem => ?_, fun k hk hlt => by omega⟩
        rcases List.mem_cons.mp hmem with heq | hmem
        · exact hgap heq
        · have hlow := hge key (by simp)
          have hhigh := hcons.1 lhc hmem
          omega
      · obtain rfl : lhc = key := by simpa using hgap
        rw [if_neg (by simp)] at h
        obtain ⟨hle, hno, hused⟩ := scanlhc_spec hcons.2 (fun k hk => hcons.1 k hk) h
        refine ⟨by omega, fun hmem => ?_, fun k hk hlt => ?_⟩
        · rcases List.mem_cons.mp hmem with heq | hmem
          · omega
          · exact hno hmem
        · rcases Nat.eq_or_lt_of_le hk with rfl | hgt
          · simp
          · exact List.mem_cons_of_mem _ (hused k hgt hlt)

/-- The scan itself only fails as the media does. -/
theorem scanlhc_error {scan : Option MediaError} {err : Error} : ∀ {keys : List Nat} {lhc : Nat},
    scanlhc lhc keys scan = .error err → ∃ e, scan = some e ∧ e.toError = err
  | [], lhc, h => by
      cases scan with
      | none => simp [scanlhc] at h
      | some e => exact ⟨e, rfl, by simpa [scanlhc] using h⟩
  | key :: keys, lhc, h => by
      rw [scanlhc] at h
      split at h
      · simp at h
      · exact scanlhc_error h

/-- The test of the high bits: the key left the bucket. -/
theorem sameBucket_iff {lhcbase lhc : Nat} (hmod : lhcbase % 2 ^ 15 = 0) (hle : lhcbase ≤ lhc) :
    (lhcbase ^^^ lhc) / (DIRHASH_LOMASK + 1) = 0 ↔ lhc ≤ lhcbase + DIRHASH_LOMASK := by
  have hdiv : (lhcbase ^^^ lhc) / 2 ^ 15 = lhcbase / 2 ^ 15 ^^^ lhc / 2 ^ 15 := by
    simp only [← Nat.shiftRight_eq_div_pow, Nat.shiftRight_xor_distrib]
  have hmask : DIRHASH_LOMASK + 1 = 2 ^ 15 := rfl
  rw [hmask, hdiv, Nat.xor_eq_zero_iff, DIRHASH_LOMASK]
  omega

namespace WellFormed

/-- The keys the scan of a bucket reads. -/
theorem bucket_keys (h : WellFormed icrc32 dir) (lo hi : Nat) :
    ((lookup dir lo hi).map (·.key)).Pairwise (· < ·) ∧
      ∀ k ∈ (lookup dir lo hi).map (·.key), lo ≤ k := by
  constructor
  · exact List.pairwise_map.mpr (h.sorted.filter _)
  · intro k hk
    obtain ⟨e, he, rfl⟩ := List.mem_map.mp hk
    exact (mem_lookup.mp he).2.1

/-- The key picked for a name is an unused key of its bucket. -/
theorem free_lhc_ok (h : WellFormed icrc32 dir) {name : List UInt8} {scan : Option MediaError}
    {lhc : Nat} (hfree : free_lhc icrc32 dir name scan = .ok lhc) :
    dirhash icrc32 name ≤ lhc ∧ lhc ≤ dirhash icrc32 name + DIRHASH_LOMASK ∧
      ∀ e ∈ dir, e.key ≠ lhc := by
  obtain ⟨hsorted, hge⟩ := h.bucket_keys (dirhash icrc32 name) (dirhash icrc32 name + DIRHASH_LOMASK)
  simp only [free_lhc] at hfree
  split at hfree
  · exact absurd hfree (by simp)
  · rename_i r hscan
    obtain ⟨hle, hno, _⟩ := scanlhc_spec hsorted hge hscan
    split at hfree
    · exact absurd hfree (by simp)
    · rename_i hsame
      obtain rfl : r = lhc := by simpa using hfree
      have hhi := (sameBucket_iff (dirhash_mod icrc32 name) hle).mp (by simpa using hsame)
      refine ⟨hle, hhi, fun e he hkey => hno ?_⟩
      exact List.mem_map.mpr ⟨e, mem_lookup.mpr ⟨he, by omega, by omega⟩, hkey⟩

/-- The scan gives up only when every key of the bucket but perhaps the last one is used. -/
theorem free_lhc_enospc (h : WellFormed icrc32 dir) {name : List UInt8} {scan : Option MediaError}
    (hfree : free_lhc icrc32 dir name scan = .error .enospc) (hscan : scan ≠ some .enospc) (k : Nat)
    (hlo : dirhash icrc32 name ≤ k) (hhi : k < dirhash icrc32 name + DIRHASH_LOMASK) :
    ∃ e ∈ dir, e.key = k := by
  obtain ⟨hsorted, hge⟩ := h.bucket_keys (dirhash icrc32 name) (dirhash icrc32 name + DIRHASH_LOMASK)
  simp only [free_lhc] at hfree
  split at hfree
  · rename_i err herr
    obtain ⟨e, rfl, he⟩ := scanlhc_error herr
    obtain rfl : err = .enospc := by simpa using hfree
    cases e <;> simp_all [MediaError.toError]
  · rename_i r hr
    obtain ⟨hle, _, hused⟩ := scanlhc_spec hsorted hge hr
    split at hfree
    · rename_i hleft
      have hout : ¬ r ≤ dirhash icrc32 name + DIRHASH_LOMASK := fun hin =>
        hleft ((sameBucket_iff (dirhash_mod icrc32 name) hle).mpr hin)
      obtain ⟨e, he, hkey⟩ := List.mem_map.mp (hused k hlo (by omega))
      exact ⟨e, (mem_lookup.mp he).1, hkey⟩
    · simp at hfree

end WellFormed

end Hammer2.Dir
