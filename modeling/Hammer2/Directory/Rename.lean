/-
# `Hammer2.Directory.Rename` — the steps of a rename

`hammer2_xop_nrename` takes the source entry out of its directory before it does anything that
can still fail, and nothing puts it back.  Here each of its steps can fail on its own; the
directories may hold an entry that cannot be read, and more than one entry of a name.

    walk             hammer2_chain_lookup and hammer2_chain_next over a range of keys
    search           the loop for the source entry
    removeAll        the loop that takes out the entries of the target name
    xop_nrename      hammer2_xop_nrename
    rename           hammer2_rename
    rename_whole     when the call is all or nothing
    rename_coarse    `Dir.rename` has the faults of five steps only

The backend ends its feed with an error code of 0 and no chain, which the frontend sees as
`ENOENT`; that is also what it sees when there is no source entry.
-/
import Hammer2.Directory.Linked

namespace Hammer2.Rename

open Dir

/-! ## What can fail -/

/-- The steps of a rename that can fail.  `scan`, `source` and `target` end the walks over the
buckets: after so many entries, with that error.  `read` is the error of an entry's own data
block, by directory and key; `remove` that of the deletion of a target entry, by key.  `ip1`,
`ip3` and `ip4` are false when there is no chain for the inode. -/
structure Faults where
  refused : Option Error
  scan : Option (Nat × MediaError)
  ip4 : Bool
  empty : Option MediaError
  ip1 : Bool
  source : Option (Nat × MediaError)
  read : Nat → Nat → Option MediaError
  delete : Option MediaError
  resize : Option MediaError
  modify : Option MediaError
  ip3 : Bool
  target : Option (Nat × MediaError)
  remove : Nat → Option MediaError
  relookup : Bool
  create : Option MediaError

/-- `chain->error` of an entry: only a name in a data block can be unreadable. -/
def Faults.error (f : Faults) (d : Nat) (e : Dirent) : Option MediaError :=
  if e.data.isSome then f.read d e.key else none

/-! ## The backend -/

/-- The entries a walk over a range of keys returns, and how it ends. -/
def walk (dir : Directory) (lo hi : Nat) : Option (Nat × MediaError) → List Dirent × Option MediaError
  | none => (lookup dir lo hi, none)
  | some (n, e) => ((lookup dir lo hi).take n, some e)

/-- `hammer2_chain_dirent_test` on a chain that may have an error; `none` is the access to the
data that are not there. -/
def test (error : Dirent → Option MediaError) (e : Dirent) (name : List UInt8) : Option Bool :=
  if e.namlen = name.length ∧ 64 < name.length ∧ error e = some .eio then none
  else some (dirent_test e name)

/-- The loop for the entry of a name. -/
def search (error : Dirent → Option MediaError) (name : List UInt8) : List Dirent → Option (Option Dirent)
  | [] => some none
  | e :: es =>
      match test error e name with
      | none => none
      | some true => some (some e)
      | some false => search error name es

/-- "Delete all matching directory entries."  `hammer2_chain_next` clears the error of a deletion
that failed. -/
def removeAll (error : Dirent → Option MediaError) (remove : Nat → Option MediaError)
    (name : List UInt8) : Directory → List Dirent → Option Directory
  | dir, [] => some dir
  | dir, e :: es =>
      match test error e name with
      | none => none
      | some false => removeAll error remove name dir es
      | some true =>
          removeAll error remove name (if remove e.key = none then chain_delete dir e.key else dir) es

/-- The change of the name, unless name and key are what they were. -/
def adjust (f : Faults) (chain : Dirent) (lhc : Nat) (name1 name2 : List UInt8) : Option MediaError :=
  if chain.key ≠ lhc ∨ name1 ≠ name2 then f.resize.or f.modify else none

/-- The chain with its new name and key. -/
def moved (chain : Dirent) (lhc : Nat) (name1 name2 : List UInt8) : Dirent :=
  { (if chain.key ≠ lhc ∨ name1 ≠ name2 then chain.setName name2 else chain) with key := lhc }

/-- The base of the bucket a key is in. -/
def bucket (lhc : Nat) : Nat := lhc / (DIRHASH_LOMASK + 1) * (DIRHASH_LOMASK + 1)

/-- What follows the deletion of the source entry; `none` is a failed assertion. -/
def reinsert (s : Pfs) (tdip lhc : Nat) (name1 name2 : Name) (f : Faults) (chain : Dirent) :
    Option (Pfs × Option Error) :=
  if f.ip3 = false then some (s, some .eio)
  else
    match adjust f chain lhc name1.bytes name2.bytes with
    | some e => some (s, some e.toError)
    | none =>
        let w := walk (s.dirs tdip) (bucket lhc) (bucket lhc + DIRHASH_LOMASK) f.target
        match removeAll (f.error tdip) f.remove name2.bytes (s.dirs tdip) w.1 with
        | none => none
        | some dir =>
            match w.2 with
            | some e => some (s.setDir tdip dir, some e.toError)
            | none =>
                -- the relookup must find nothing, and leave a parent without an error
                if f.relookup = true ∨ lookup dir lhc lhc ≠ [] then none
                else
                  match f.create with
                  | some e => some (s.setDir tdip dir, some e.toError)
                  | none =>
                      some (s.setDir tdip
                        (chain_create dir (moved chain lhc name1.bytes name2.bytes)), none)

/-- The check that a directory to be replaced is empty. -/
def checkTarget (s : Pfs) (ip4 : Option Nat) (f : Faults) : Option Error :=
  match ip4 with
  | none => none
  | some ip =>
      if f.ip4 = false then some .eio
      else
        match f.empty with
        | some e => some e.toError
        | none => if checkdirempty s ip then none else some .enotempty

section
variable (icrc32 : List UInt8 → UInt32)

/-- The walk over the bucket of a name. -/
def bucketWalk (dir : Directory) (name : List UInt8) (cut : Option (Nat × MediaError)) :
    List Dirent × Option MediaError :=
  walk dir (dirhash icrc32 name) (dirhash icrc32 name + DIRHASH_LOMASK) cut

/-- `hammer2_xop_nrename`, for an inode whose name is a directory entry: the error it ends its
feed with. -/
def xop_nrename (s : Pfs) (fdip tdip : Nat) (ip4 : Option Nat) (lhc : Nat) (name1 name2 : Name)
    (f : Faults) : Option (Pfs × Option Error) :=
  match checkTarget s ip4 f with
  | some e => some (s, some e)
  | none =>
      if f.ip1 = false then some (s, some .eio)
      else
        let w := bucketWalk icrc32 (s.dirs fdip) name1.bytes f.source
        match search (f.error fdip) name1.bytes w.1 with
        | none => none
        | some none =>
            match w.2 with
            | some e => some (s, some e.toError)
            | none => some (s, some .enoent)
        | some (some chain) =>
            match f.error fdip chain with
            | some e => some (s, some e.toError)
            | none =>
                match f.delete with
                | some e => some (s, some e.toError)
                | none =>
                    reinsert (s.setDir fdip (chain_delete (s.dirs fdip) chain.key)) tdip lhc name1 name2 f
                      chain

/-! ## The frontend -/

/-- The key for the target name, as `free_lhc` with a walk that can end early. -/
def freeLhc (dir : Directory) (name : List UInt8) (cut : Option (Nat × MediaError)) : Except Error Nat :=
  let lhcbase := dirhash icrc32 name
  let w := bucketWalk icrc32 dir name cut
  match scanlhc lhcbase (w.1.map (·.key)) w.2 with
  | .error e => .error e
  | .ok lhc => if (lhcbase ^^^ lhc) / (DIRHASH_LOMASK + 1) ≠ 0 then .error .enospc else .ok lhc

/-- A call: the inode of the source and of the target, if there is one, as they were resolved, and
the two directories and names. -/
structure Call where
  fip : Nat
  tip : Option Nat
  fdip : Nat
  tdip : Nat
  fname : Name
  tname : Name
deriving DecidableEq

/-- `hammer2_rename`; `none` is a panic. -/
def rename (s : Pfs) (c : Call) (f : Faults) : Option (Pfs × Except Error Unit) :=
  if c.tip = some c.fip then some (s, .ok ())
  else
    match f.refused with
    | some e => some (s, .error e)
    | none =>
        match freeLhc icrc32 (s.dirs c.tdip) c.tname.bytes f.scan with
        | .error e => some (s, .error e)
        | .ok tlhc =>
            match xop_nrename icrc32 s c.fdip c.tdip (c.tip.filter s.isDir) tlhc c.fname c.tname f with
            | none => none
            | some (s, error) =>
                -- the end of a feed without an error is ENOENT
                match error.getD .enoent with
                | .enoent => some (unlink_target s c.tip, .ok ())
                | e => some (s, .error e)

end

/-! ## Directories, with any number of entries of a name -/

/-- A well-formed directory, but for entries of one name. -/
structure Placed (icrc32 : List UInt8 → UInt32) (dir : Directory) : Prop where
  sorted : dir.Pairwise (fun a b => a.key < b.key)
  stored : ∀ e ∈ dir, e.name.length = e.namlen
  placed : ∀ e ∈ dir, e.name ≠ [] →
    dirhash icrc32 e.name ≤ e.key ∧ e.key ≤ dirhash icrc32 e.name + DIRHASH_LOMASK

variable {icrc32 : List UInt8 → UInt32} {dir : Directory}

theorem Placed.of_wellFormed (h : WellFormed icrc32 dir) : Placed icrc32 dir :=
  ⟨h.sorted, h.stored, h.placed⟩

theorem Placed.filter (h : Placed icrc32 dir) (p : Dirent → Bool) : Placed icrc32 (dir.filter p) :=
  ⟨h.sorted.filter _, fun e he => h.stored e (List.mem_of_mem_filter he),
    fun e he => h.placed e (List.mem_of_mem_filter he)⟩

/-- The first entry of the name, in the order of the keys. -/
def first (dir : Directory) (name : List UInt8) : Option Dirent :=
  dir.find? fun e => decide (e.name = name)

theorem Placed.test_eq (h : Placed icrc32 dir) {e : Dirent} (he : e ∈ dir) (name : Name) :
    dirent_test e name.bytes = decide (e.name = name.bytes) := by
  rw [Bool.eq_iff_iff, dirent_test_iff (h.stored e he) name.nonempty, decide_eq_true_eq]

/-- A lookup of the name returns its first entry. -/
theorem Placed.find_eq (h : Placed icrc32 dir) (name : Name) :
    find icrc32 dir name.bytes = first dir name.bytes := by
  unfold find first lookup
  rw [List.find?_filter, ← List.head?_filter, ← List.head?_filter]
  congr 1
  refine List.filter_congr fun e he => ?_
  rw [h.test_eq he]
  by_cases hname : e.name = name.bytes
  · have hin := h.placed e he (hname ▸ name.nonempty)
    rw [hname] at hin
    simp only [hname, hin.1, hin.2, decide_true, Bool.and_self, and_self]
  · simp only [hname, decide_false, Bool.false_eq_true, and_false]

theorem Placed.key_inj (h : Placed icrc32 dir) {a b : Dirent} (ha : a ∈ dir) (hb : b ∈ dir)
    (hkey : a.key = b.key) : a = b := by
  induction dir with
  | nil => cases ha
  | cons x xs ih =>
      have hcons := List.pairwise_cons.mp h.sorted
      have hrest : Placed icrc32 xs := ⟨hcons.2, fun e he => h.stored e (List.mem_cons_of_mem _ he),
        fun e he => h.placed e (List.mem_cons_of_mem _ he)⟩
      rcases List.mem_cons.mp ha with rfl | ha' <;> rcases List.mem_cons.mp hb with rfl | hb'
      · rfl
      · have hlt := hcons.1 b hb'
        omega
      · have hlt := hcons.1 a ha'
        omega
      · exact ih hrest ha' hb'

/-! ## The loops -/

section
variable {error : Dirent → Option MediaError} {remove : Nat → Option MediaError} {name : Name}

/-- The search returns the first entry of the name among those it is given. -/
theorem search_spec (h : Placed icrc32 dir) : ∀ {l : List Dirent} {r : Option Dirent}, (∀ e ∈ l, e ∈ dir) →
    search error name.bytes l = some r → r = first l name.bytes
  | [], r, _, hs => (Option.some.inj hs).symm
  | e :: es, r, hin, hs => by
      have htest := h.test_eq (hin e (List.mem_cons_self ..)) name
      unfold search test at hs
      split at hs
      · cases hs
      · next hyes =>
        obtain rfl := Option.some.inj hs
        split at hyes
        · cases hyes
        · rw [htest] at hyes
          rw [first, List.find?_cons_of_pos]
          exact Option.some.inj hyes
      · next hno =>
        split at hno
        · cases hno
        · rw [htest] at hno
          rw [search_spec h (fun x hx => hin x (List.mem_cons_of_mem _ hx)) hs]
          rw [first, first, List.find?_cons_of_neg]
          rw [Option.some.inj hno]
          exact Bool.false_ne_true

/-- The loop over the target takes out the entries of the name it is given, but for those whose
deletion fails. -/
theorem removeAll_spec (h : Placed icrc32 dir) : ∀ {l : List Dirent} {dir₁ dir₂ : Directory},
    (∀ e ∈ l, e ∈ dir) → removeAll error remove name.bytes dir₁ l = some dir₂ →
    dir₂ = dir₁.filter fun x => decide (∀ e ∈ l, e.name = name.bytes → remove e.key = none → x.key ≠ e.key)
  | [], dir₁, dir₂, _, hr => by
      obtain rfl := Option.some.inj hr
      exact (List.filter_eq_self.mpr fun x _ => by simp).symm
  | e :: es, dir₁, dir₂, hin, hr => by
      have htest := h.test_eq (hin e (List.mem_cons_self ..)) name
      have hes : ∀ x ∈ es, x ∈ dir := fun x hx => hin x (List.mem_cons_of_mem _ hx)
      unfold removeAll test at hr
      split at hr
      · cases hr
      · next hno =>
        split at hno
        · cases hno
        · rw [htest] at hno
          have hname := of_decide_eq_false (Option.some.inj hno)
          rw [removeAll_spec h hes hr]
          refine List.filter_congr fun x _ => ?_
          simp only [List.mem_cons, forall_eq_or_imp, hname, false_implies, true_and]
      · next hyes =>
        split at hyes
        · cases hyes
        · rw [htest] at hyes
          have hname := of_decide_eq_true (Option.some.inj hyes)
          rw [removeAll_spec h hes hr]
          by_cases hrem : remove e.key = none
          · rw [if_pos hrem, chain_delete, List.filter_filter]
            refine List.filter_congr fun x _ => ?_
            simp only [List.mem_cons, forall_eq_or_imp, hname, hrem, true_implies, Bool.decide_and,
              Bool.and_comm]
          · rw [if_neg hrem]
            refine List.filter_congr fun x _ => ?_
            simp only [List.mem_cons, forall_eq_or_imp, hrem, false_implies, implies_true, true_and]

theorem walk_mem {lo hi : Nat} {cut : Option (Nat × MediaError)} {e : Dirent}
    (he : e ∈ (walk dir lo hi cut).1) : e ∈ dir := by
  unfold walk at he
  cases cut with
  | none => exact (mem_lookup.mp he).1
  | some c => exact (mem_lookup.mp (List.mem_of_mem_take he)).1

end

/-! ## What the backend comes to -/

/-- A step fails after the source entry was taken out. -/
def FailsLate (f : Faults) (chain : Dirent) (lhc : Nat) (name1 name2 : Name) : Prop :=
  f.ip3 = false ∨ adjust f chain lhc name1.bytes name2.bytes ≠ none ∨ f.target ≠ none ∨ f.create ≠ none

theorem moved_name {chain : Dirent} {lhc : Nat} {name1 name2 : List UInt8} (h : chain.name = name1) :
    (moved chain lhc name1 name2).name = name2 ∧ (moved chain lhc name1 name2).inum = chain.inum := by
  unfold moved
  by_cases hne : chain.key ≠ lhc ∨ name1 ≠ name2
  · rw [if_pos hne]
    exact ⟨setName_name _ _, setName_inum _ _⟩
  · rw [if_neg hne]
    exact ⟨h.trans (not_not.mp (not_or.mp hne).2), rfl⟩

/-- The target directory once the entries of the name are taken out, as far as that can be done. -/
def cleared (f : Faults) (dir : Directory) (lhc : Nat) (name : Name) : Directory :=
  dir.filter fun x => decide (∀ e ∈ lookup dir (bucket lhc) (bucket lhc + DIRHASH_LOMASK),
    e.name = name.bytes → f.remove e.key = none → x.key ≠ e.key)

/-- Either the entry is not put back, or the entries of the target name are taken out as far as
that can be done, and the entry is there under its new name. -/
theorem reinsert_spec {s s' : Pfs} {tdip lhc : Nat} {name1 name2 : Name} {f : Faults} {chain : Dirent}
    {error : Option Error} (h : Placed icrc32 (s.dirs tdip))
    (hr : reinsert s tdip lhc name1 name2 f chain = some (s', error)) :
    (∃ e p, FailsLate f chain lhc name1 name2 ∧ error = some e ∧ e ≠ .enoent ∧
        s' = s.setDir tdip ((s.dirs tdip).filter p)) ∨
      ¬ FailsLate f chain lhc name1 name2 ∧ error = none ∧
        s' = s.setDir tdip (chain_create (cleared f (s.dirs tdip) lhc name2)
          (moved chain lhc name1.bytes name2.bytes)) := by
  have hself : s = s.setDir tdip ((s.dirs tdip).filter fun _ => true) := by
    rw [List.filter_true, Pfs.setDir, Function.update_eq_self]
  unfold reinsert at hr
  split at hr
  · next hip3 =>
    obtain ⟨rfl, rfl⟩ := Prod.mk.inj (Option.some.inj hr)
    exact .inl ⟨_, _, .inl hip3, rfl, by rintro ⟨⟩, hself⟩
  · next hip3 =>
    split at hr
    · next e hadj =>
      obtain ⟨rfl, rfl⟩ := Prod.mk.inj (Option.some.inj hr)
      exact .inl ⟨_, _, .inr (.inl (by rw [hadj]; exact Option.some_ne_none _)), rfl, e.toError_ne, hself⟩
    · next hadj =>
      dsimp only at hr
      split at hr
      · cases hr
      · next dir hrem =>
        have hdir := removeAll_spec h (fun e he => walk_mem he) hrem
        split at hr
        · next e hcut =>
          obtain ⟨rfl, rfl⟩ := Prod.mk.inj (Option.some.inj hr)
          refine .inl ⟨_, _, .inr (.inr (.inl ?_)), rfl, e.toError_ne, by rw [hdir]⟩
          intro hnone
          rw [hnone] at hcut
          cases hcut
        · next hcut =>
          have htarget : f.target = none := by
            cases ht : f.target with
            | none => rfl
            | some c =>
                rw [ht] at hcut
                cases hcut
          split at hr
          · cases hr
          · split at hr
            · next e hcreate =>
              obtain ⟨rfl, rfl⟩ := Prod.mk.inj (Option.some.inj hr)
              refine .inl ⟨_, _, .inr (.inr (.inr ?_)), rfl, e.toError_ne, by rw [hdir]⟩
              rw [hcreate]
              exact Option.some_ne_none _
            · next hcreate =>
              obtain ⟨rfl, rfl⟩ := Prod.mk.inj (Option.some.inj hr)
              refine .inr ⟨?_, rfl, by rw [hdir, htarget]; rfl⟩
              rintro (h1 | h2 | h3 | h4)
              · exact hip3 h1
              · exact h2 hadj
              · exact h3 htarget
              · exact h4 hcreate

section
variable (icrc32 : List UInt8 → UInt32)

/-- The backend fails before the source entry is taken out: the replaced directory is not empty or
cannot be checked, or the source entry cannot be reached, read or deleted. -/
def BackendEarly (s : Pfs) (c : Call) (f : Faults) : Prop :=
  checkTarget s (c.tip.filter s.isDir) f ≠ none ∨ f.ip1 = false ∨
    ((bucketWalk icrc32 (s.dirs c.fdip) c.fname.bytes f.source).2 ≠ none ∧
      first (bucketWalk icrc32 (s.dirs c.fdip) c.fname.bytes f.source).1 c.fname.bytes = none) ∨
    ∃ es, first (bucketWalk icrc32 (s.dirs c.fdip) c.fname.bytes f.source).1 c.fname.bytes = some es ∧
      (f.error c.fdip es ≠ none ∨ f.delete ≠ none)

/-- The call is refused, there is no key for the target, or the backend fails early. -/
def FailsEarly (s : Pfs) (c : Call) (f : Faults) : Prop :=
  f.refused ≠ none ∨ (∃ e, freeLhc icrc32 (s.dirs c.tdip) c.tname.bytes f.scan = .error e) ∨
    BackendEarly icrc32 s c f

/-- The source entry is taken out. -/
def sourceless (s : Pfs) (c : Call) (es : Dirent) : Pfs :=
  s.setDir c.fdip (chain_delete (s.dirs c.fdip) es.key)

/-- What a call can come to. -/
inductive Outcome (s : Pfs) (c : Call) (f : Faults) : Pfs → Except Error Unit → Prop
  | same : c.tip = some c.fip → Outcome s c f s (.ok ())
  | early (e : Error) : c.tip ≠ some c.fip → FailsEarly icrc32 s c f → Outcome s c f s (.error e)
  | missing : c.tip ≠ some c.fip → ¬ FailsEarly icrc32 s c f → first (s.dirs c.fdip) c.fname.bytes = none →
      Outcome s c f (unlink_target s c.tip) (.ok ())
  | moved (es : Dirent) (lhc : Nat) (s' : Pfs) (error : Option Error) : c.tip ≠ some c.fip →
      ¬ FailsEarly icrc32 s c f → first (s.dirs c.fdip) c.fname.bytes = some es →
      freeLhc icrc32 (s.dirs c.tdip) c.tname.bytes f.scan = .ok lhc →
      reinsert (sourceless s c es) c.tdip lhc c.fname c.tname f es =
        some (s', error) →
      Outcome s c f (if error = none then unlink_target s' c.tip else s')
        (match error with | none => .ok () | some e => .error e)

end

/-- The entry the walk meets first is the first of the directory. -/
theorem Placed.first_walk (h : Placed icrc32 dir) {name : Name} {cut : Option (Nat × MediaError)} :
    (∀ e, first (bucketWalk icrc32 dir name.bytes cut).1 name.bytes = some e →
      first dir name.bytes = some e) ∧
    (cut = none → first (bucketWalk icrc32 dir name.bytes cut).1 name.bytes = first dir name.bytes) := by
  have hall : first (lookup dir (dirhash icrc32 name.bytes) (dirhash icrc32 name.bytes + DIRHASH_LOMASK))
      name.bytes = first dir name.bytes := by
    rw [← h.find_eq, find, first, ← List.head?_filter, ← List.head?_filter]
    congr 1
    refine List.filter_congr fun e he => ?_
    rw [h.test_eq (mem_lookup.mp he).1]
  refine ⟨fun e he => ?_, ?_⟩
  · cases cut with
    | none => exact hall ▸ he
    | some c => exact hall ▸ (List.take_prefix c.1 _).find?_eq_some he
  · rintro rfl
    exact hall

theorem checkTarget_ne {s : Pfs} {ip4 : Option Nat} {f : Faults} {e : Error}
    (h : checkTarget s ip4 f = some e) : e ≠ .enoent := by
  unfold checkTarget at h
  split at h
  · cases h
  split at h
  · exact Option.some.inj h ▸ nofun
  split at h
  · next m _ => exact Option.some.inj h ▸ m.toError_ne
  split at h
  · cases h
  · exact Option.some.inj h ▸ nofun

/-- The backend fails early, finds no source entry, or goes on without it. -/
theorem xop_nrename_spec {s s₁ : Pfs} {c : Call} {f : Faults} {lhc : Nat} {error : Option Error}
    (h : Placed icrc32 (s.dirs c.fdip))
    (hx : xop_nrename icrc32 s c.fdip c.tdip (c.tip.filter s.isDir) lhc c.fname c.tname f = some (s₁, error)) :
    (BackendEarly icrc32 s c f ∧ s₁ = s ∧ ∃ e, error = some e ∧ e ≠ .enoent) ∨
      ¬ BackendEarly icrc32 s c f ∧
        (first (s.dirs c.fdip) c.fname.bytes = none ∧ s₁ = s ∧ error = some .enoent ∨
          ∃ es, first (s.dirs c.fdip) c.fname.bytes = some es ∧
            reinsert (sourceless s c es) c.tdip lhc c.fname c.tname f es =
              some (s₁, error)) := by
  unfold xop_nrename at hx
  split at hx
  · next e hcheck =>
    obtain ⟨rfl, rfl⟩ := Prod.mk.inj (Option.some.inj hx)
    exact .inl ⟨.inl (by rw [hcheck]; exact Option.some_ne_none _), rfl, e, rfl, checkTarget_ne hcheck⟩
  next hcheck =>
  split at hx
  · next hip1 =>
    obtain ⟨rfl, rfl⟩ := Prod.mk.inj (Option.some.inj hx)
    exact .inl ⟨.inr (.inl hip1), rfl, .eio, rfl, nofun⟩
  next hip1 =>
  obtain ⟨hwalk, hwhole⟩ := @Placed.first_walk icrc32 _ h c.fname f.source
  have hin : ∀ e ∈ (bucketWalk icrc32 (s.dirs c.fdip) c.fname.bytes f.source).1, e ∈ s.dirs c.fdip :=
    fun e he => walk_mem he
  dsimp only at hx
  split at hx
  · cases hx
  · next hsearch =>
    have hfirst := (search_spec h hin hsearch).symm
    split at hx
    · next e hcut =>
      obtain ⟨rfl, rfl⟩ := Prod.mk.inj (Option.some.inj hx)
      refine .inl ⟨.inr (.inr (.inl ⟨?_, hfirst⟩)), rfl, e.toError, rfl, e.toError_ne⟩
      rw [hcut]
      exact Option.some_ne_none _
    · next hcut =>
      obtain ⟨rfl, rfl⟩ := Prod.mk.inj (Option.some.inj hx)
      have hnone : f.source = none := by
        cases hs : f.source with
        | none => rfl
        | some n =>
            rw [hs] at hcut
            cases hcut
      refine .inr ⟨?_, .inl ⟨(hwhole hnone).symm.trans hfirst, rfl, rfl⟩⟩
      rintro (h1 | h2 | ⟨h3, -⟩ | ⟨es, h4, -⟩)
      · exact h1 hcheck
      · exact hip1 h2
      · exact h3 hcut
      · rw [hfirst] at h4
        cases h4
  · next chain hsearch =>
    have hfirst := (search_spec h hin hsearch).symm
    split at hx
    · next e herror =>
      obtain ⟨rfl, rfl⟩ := Prod.mk.inj (Option.some.inj hx)
      refine .inl ⟨.inr (.inr (.inr ⟨chain, hfirst, .inl ?_⟩)), rfl, e.toError, rfl, e.toError_ne⟩
      rw [herror]
      exact Option.some_ne_none _
    next herror =>
    split at hx
    · next e hdelete =>
      obtain ⟨rfl, rfl⟩ := Prod.mk.inj (Option.some.inj hx)
      refine .inl ⟨.inr (.inr (.inr ⟨chain, hfirst, .inr ?_⟩)), rfl, e.toError, rfl, e.toError_ne⟩
      rw [hdelete]
      exact Option.some_ne_none _
    · next hdelete =>
      refine .inr ⟨?_, .inr ⟨chain, hwalk chain hfirst, hx⟩⟩
      rintro (h1 | h2 | ⟨-, h3⟩ | ⟨es, h4, h5⟩)
      · exact h1 hcheck
      · exact hip1 h2
      · rw [hfirst] at h3
        cases h3
      · obtain rfl := Option.some.inj (hfirst.symm.trans h4)
        rcases h5 with h5 | h5
        · exact h5 herror
        · exact h5 hdelete

theorem Placed.sourceless {s : Pfs} {c : Call} {es : Dirent} (h : ∀ d, Placed icrc32 (s.dirs d)) (d : Nat) :
    Placed icrc32 ((sourceless s c es).dirs d) := by
  unfold Rename.sourceless
  by_cases hd : d = c.fdip
  · rw [hd, setDir_self]
    exact (h c.fdip).filter _
  · rw [setDir_ne _ _ hd]
    exact h d

theorem rename_outcome {s s' : Pfs} {c : Call} {f : Faults} {r : Except Error Unit}
    (h : ∀ d, Placed icrc32 (s.dirs d)) (hr : rename icrc32 s c f = some (s', r)) :
    Outcome icrc32 s c f s' r := by
  unfold rename at hr
  split at hr
  · next hsame =>
    obtain ⟨rfl, rfl⟩ := Prod.mk.inj (Option.some.inj hr)
    exact .same hsame
  next hsame =>
  split at hr
  · next e href =>
    obtain ⟨rfl, rfl⟩ := Prod.mk.inj (Option.some.inj hr)
    exact .early e hsame (.inl (by rw [href]; exact Option.some_ne_none _))
  next href =>
  split at hr
  · next e hfree =>
    obtain ⟨rfl, rfl⟩ := Prod.mk.inj (Option.some.inj hr)
    exact .early e hsame (.inr (.inl ⟨e, hfree⟩))
  next lhc hfree =>
  split at hr
  · cases hr
  next s₁ error hx =>
  rcases xop_nrename_spec (h c.fdip) hx with ⟨hearly, rfl, e, rfl, hne⟩ | ⟨hearly, hrest⟩
  · rw [Option.getD_some] at hr
    split at hr
    · exact absurd rfl hne
    · obtain ⟨rfl, rfl⟩ := Prod.mk.inj (Option.some.inj hr)
      exact .early _ hsame (.inr (.inr hearly))
  · have hlate : ¬ FailsEarly icrc32 s c f := by
      rintro (h1 | ⟨e, h2⟩ | h3)
      · exact h1 href
      · rw [hfree] at h2
        cases h2
      · exact hearly h3
    rcases hrest with ⟨hnone, rfl, rfl⟩ | ⟨es, hes, hre⟩
    · obtain ⟨rfl, rfl⟩ := Prod.mk.inj (Option.some.inj hr)
      exact .missing hsame hlate hnone
    · have hplaced : Placed icrc32 ((sourceless s c es).dirs c.tdip) := .sourceless h c.tdip
      have hout := Outcome.moved es lhc s₁ error hsame hlate hes hfree hre
      rcases reinsert_spec hplaced hre with ⟨e, p, -, rfl, hne, -⟩ | ⟨-, rfl, -⟩
      · rw [Option.getD_some] at hr
        split at hr
        · exact absurd rfl hne
        · obtain ⟨rfl, rfl⟩ := Prod.mk.inj (Option.some.inj hr)
          rw [if_neg (Option.some_ne_none _)] at hout
          exact hout
      · obtain ⟨rfl, rfl⟩ := Prod.mk.inj (Option.some.inj hr)
        rw [if_pos rfl] at hout
        exact hout

/-! ## All or nothing -/

/-- The inodes of the entries of a name: one, unless the directory has several entries of it. -/
def names (dir : Directory) (name : Name) : List Nat :=
  (dir.filter fun e => decide (e.name = name.bytes)).map (·.inum)

/-- On an error both names stand for what they stood for, and no link count has changed.  On success
the source name is gone, the target name stands for the inode of the source, and only the replaced
inode has lost a link; but two names of one inode are left alone. -/
def AllOrNothing (s : Pfs) (c : Call) (s' : Pfs) : Except Error Unit → Prop
  | .error _ => names (s'.dirs c.fdip) c.fname = names (s.dirs c.fdip) c.fname ∧
      names (s'.dirs c.tdip) c.tname = names (s.dirs c.tdip) c.tname ∧ s'.inodes = s.inodes
  | .ok () =>
      if c.tip = some c.fip then s' = s
      else names (s'.dirs c.fdip) c.fname = [] ∧ names (s'.dirs c.tdip) c.tname = [c.fip] ∧
        s'.inodes = (unlink_target s c.tip).inodes

/-- Every step of the backend succeeds: the source name has one entry, which is that of the inode; no
step fails after the deletion; and every entry of the target name can be deleted. -/
def Succeeds (icrc32 : List UInt8 → UInt32) (s : Pfs) (c : Call) (f : Faults) : Prop :=
  ∃ es ∈ s.dirs c.fdip, es.name = c.fname.bytes ∧ es.inum = c.fip ∧
    (∀ e ∈ s.dirs c.fdip, e.name = c.fname.bytes → e = es) ∧
    (∀ lhc, freeLhc icrc32 (s.dirs c.tdip) c.tname.bytes f.scan = .ok lhc →
      ¬ FailsLate f es lhc c.fname c.tname) ∧
    ∀ e ∈ s.dirs c.tdip, e.name = c.tname.bytes → f.remove e.key = none

theorem names_length (dir : Directory) (name : Name) :
    (names dir name).length = (dir.filter fun e => decide (e.name = name.bytes)).length :=
  List.length_map ..

theorem names_eq_nil {name : Name} : names dir name = [] ↔ ∀ e ∈ dir, e.name ≠ name.bytes := by
  unfold names
  rw [List.map_eq_nil_iff, List.filter_eq_nil_iff]
  simp only [decide_eq_true_eq]

theorem names_head (dir : Directory) (name : Name) :
    (names dir name).head? = (first dir name.bytes).map (·.inum) := by
  rw [names, List.head?_map, List.head?_filter, first]

/-- Without one of its entries the name is not what it was. -/
theorem names_delete {es : Dirent} {name : Name} (hes : es ∈ dir) (hname : es.name = name.bytes)
    (p : Dirent → Bool) : names ((chain_delete dir es.key).filter p) name ≠ names dir name := by
  intro heq
  have hlen := congrArg List.length heq
  rw [names_length, names_length] at hlen
  have hsub : ((chain_delete dir es.key).filter p).Sublist dir :=
    List.filter_sublist.trans List.filter_sublist
  have hsame := (hsub.filter fun e => decide (e.name = name.bytes)).eq_of_length hlen
  have hmem : es ∈ dir.filter fun e => decide (e.name = name.bytes) :=
    List.mem_filter.mpr ⟨hes, decide_eq_true hname⟩
  rw [← hsame] at hmem
  have hkept := List.mem_of_mem_filter (List.mem_of_mem_filter hmem)
  exact (mem_chain_delete.mp hkept).2 rfl

/-- A new entry is the only one of its name if there was none. -/
theorem names_create {m : Dirent} {name : Name} {i : Nat} (hname : m.name = name.bytes) :
    names (chain_create dir m) name = [i] ↔ (∀ e ∈ dir, e.name ≠ name.bytes) ∧ m.inum = i := by
  have hperm : (names (chain_create dir m) name).Perm (m.inum :: names dir name) := by
    have h := ((List.perm_orderedInsert (fun a b : Dirent => a.key ≤ b.key) m dir).filter
      fun e => decide (e.name = name.bytes)).map (·.inum)
    rwa [List.filter_cons, if_pos (decide_eq_true hname), List.map_cons] at h
  rw [← names_eq_nil]
  constructor
  · intro heq
    rw [heq] at hperm
    obtain ⟨hi, hnil⟩ := List.cons.inj (List.perm_singleton.mp hperm.symm)
    exact ⟨hnil, hi⟩
  · rintro ⟨hnil, rfl⟩
    rw [hnil] at hperm
    exact List.perm_singleton.mp hperm

@[simp] theorem unlink_target_dirs (s : Pfs) (tip : Option Nat) : (unlink_target s tip).dirs = s.dirs := by
  cases tip <;> rfl

theorem unlink_target_inodes {s t : Pfs} (h : t.inodes = s.inodes) (tip : Option Nat) :
    (unlink_target t tip).inodes = (unlink_target s tip).inodes := by
  cases tip with
  | none => exact h
  | some i => simp only [unlink_target, Pfs.mapInode, Pfs.setInode, h]

section
variable {s : Pfs} {c : Call} {f : Faults} {es : Dirent}

/-- The entries of another name, or of another directory, stay when the source entry goes. -/
theorem mem_sourceless (h : ∀ d, Placed icrc32 (s.dirs d)) (hes : es ∈ s.dirs c.fdip)
    (hname : es.name = c.fname.bytes) {d : Nat} {name : Name} (hne : ¬ (d = c.fdip ∧ name = c.fname))
    {x : Dirent} (hx : x.name = name.bytes) :
    x ∈ (sourceless s c es).dirs d ↔ x ∈ s.dirs d := by
  unfold sourceless
  by_cases hd : d = c.fdip
  · subst hd
    rw [setDir_self, mem_chain_delete]
    refine ⟨fun hm => hm.1, fun hm => ⟨hm, fun hkey => hne ⟨rfl, ?_⟩⟩⟩
    -- the key of the source entry is that of no other name
    obtain rfl := (h _).key_inj hm hes hkey
    have hbytes := hx.symm.trans hname
    cases name
    cases hc : c.fname
    rw [hc] at hbytes
    cases hbytes
    rfl
  · rw [setDir_ne _ _ hd]

/-- What stays of the target name is what cannot be deleted. -/
theorem kept_iff {lhc : Nat} {x : Dirent} (h : Placed icrc32 dir) {name : Name} (hx : x ∈ dir)
    (hname : x.name = name.bytes) (hbucket : bucket lhc = dirhash icrc32 name.bytes) :
    (∀ e ∈ lookup dir (bucket lhc) (bucket lhc + DIRHASH_LOMASK),
      e.name = name.bytes → f.remove e.key = none → x.key ≠ e.key) ↔ f.remove x.key ≠ none := by
  constructor
  · intro hall hnone
    have hplaced := h.placed x hx (hname ▸ name.nonempty)
    rw [hname, ← hbucket] at hplaced
    exact hall x (mem_lookup.mpr ⟨hx, hplaced⟩) hname hnone rfl
  · intro hsome e _ _ hnone hkey
    rw [← hkey] at hnone
    exact hsome hnone

/-- The key of the target is in the bucket of its name. -/
theorem bucket_freeLhc (h : Placed icrc32 dir) {name : Name} {cut : Option (Nat × MediaError)} {lhc : Nat}
    (hfree : freeLhc icrc32 dir name.bytes cut = .ok lhc) : bucket lhc = dirhash icrc32 name.bytes := by
  have hmod := dirhash_mod icrc32 name.bytes
  have hsub : (bucketWalk icrc32 dir name.bytes cut).1.Sublist
      (lookup dir (dirhash icrc32 name.bytes) (dirhash icrc32 name.bytes + DIRHASH_LOMASK)) := by
    cases cut with
    | none => exact List.Sublist.refl _
    | some c => exact List.take_sublist _ _
  have hsorted : ((bucketWalk icrc32 dir name.bytes cut).1.map (·.key)).Pairwise (· < ·) :=
    List.pairwise_map.mpr ((h.sorted.filter _).sublist hsub)
  have hge : ∀ k ∈ (bucketWalk icrc32 dir name.bytes cut).1.map (·.key), dirhash icrc32 name.bytes ≤ k := by
    intro k hk
    obtain ⟨e, he, rfl⟩ := List.mem_map.mp hk
    exact (mem_lookup.mp (hsub.subset he)).2.1
  unfold freeLhc at hfree
  dsimp only at hfree
  split at hfree
  · cases hfree
  · next r hscan =>
    obtain ⟨hle, -⟩ := scanlhc_spec hsorted hge hscan
    split at hfree
    · cases hfree
    · next hsame =>
      obtain rfl := Except.ok.inj hfree
      have hhi := (sameBucket_iff hmod hle).mp (not_not.mp hsame)
      unfold bucket
      simp only [DIRHASH_LOMASK] at *
      omega

/-- Once the entry is back, both names are right if the source entry was the only one of its name and
every entry of the target name could be deleted. -/
theorem moved_whole {lhc : Nat} (h : ∀ d, Placed icrc32 (s.dirs d)) (hes : es ∈ s.dirs c.fdip)
    (hname : es.name = c.fname.bytes) (hne : ¬ (c.tdip = c.fdip ∧ c.tname = c.fname))
    (hfree : freeLhc icrc32 (s.dirs c.tdip) c.tname.bytes f.scan = .ok lhc) {s' : Pfs}
    (hs' : s' = (sourceless s c es).setDir c.tdip (chain_create
      (cleared f ((sourceless s c es).dirs c.tdip) lhc c.tname) (moved es lhc c.fname.bytes c.tname.bytes))) :
    (names (s'.dirs c.fdip) c.fname = [] ↔ ∀ e ∈ s.dirs c.fdip, e.name = c.fname.bytes → e = es) ∧
      (names (s'.dirs c.tdip) c.tname = [c.fip] ↔
        (∀ e ∈ s.dirs c.tdip, e.name = c.tname.bytes → f.remove e.key = none) ∧ es.inum = c.fip) := by
  have hbucket := bucket_freeLhc (h c.tdip) hfree
  have hsource := fun {d : Nat} {name : Name} hne {x : Dirent} hx =>
    @mem_sourceless icrc32 s c es h hes hname d name hne x hx
  have hdel : (sourceless s c es).dirs c.fdip =
      chain_delete (s.dirs c.fdip) es.key := setDir_self ..
  have hplaced : ∀ d, Placed icrc32 ((sourceless s c es).dirs d) := .sourceless h
  obtain ⟨hmname, hminum⟩ := @moved_name es lhc c.fname.bytes c.tname.bytes hname
  generalize sourceless s c es = t at *
  generalize moved es lhc c.fname.bytes c.tname.bytes = m at *
  have hto : s'.dirs c.tdip = chain_create (cleared f (t.dirs c.tdip) lhc c.tname) m := by
    rw [hs']
    exact setDir_self ..
  have hother : c.tdip ≠ c.fdip → s'.dirs c.fdip = t.dirs c.fdip := fun hd => by
    rw [hs']
    exact setDir_ne _ _ (Ne.symm hd)
  clear hs'
  constructor
  · -- the entries of the source name are those that were there, without the one
    have hmem : ∀ x, x.name = c.fname.bytes → (x ∈ s'.dirs c.fdip ↔ x ∈ t.dirs c.fdip) := by
      intro x hx
      by_cases hd : c.tdip = c.fdip
      · have hnames : c.tname.bytes ≠ c.fname.bytes := by
          intro heq
          refine hne ⟨hd, ?_⟩
          cases h1 : c.tname
          cases h2 : c.fname
          rw [h1, h2] at heq
          cases heq
          rfl
        rw [← hd, hto, mem_chain_create, cleared, List.mem_filter]
        refine ⟨fun hm => ?_, fun hm => .inr ⟨hm, decide_eq_true fun e he hename _ hkey => ?_⟩⟩
        · rcases hm with rfl | hm
          · exact absurd (hmname.symm.trans hx) hnames
          · exact hm.1
        · obtain rfl := (hplaced _).key_inj hm (mem_lookup.mp he).1 hkey
          exact hnames (hename.symm.trans hx)
      · rw [hother hd]
    rw [names_eq_nil]
    constructor
    · intro hnone e he hename
      by_contra hesne
      refine hnone e ((hmem e hename).mpr ?_) hename
      rw [hdel, mem_chain_delete]
      exact ⟨he, fun hkey => hesne ((h _).key_inj he hes hkey)⟩
    · intro hone e he hename
      have hin := (hmem e hename).mp he
      rw [hdel, mem_chain_delete] at hin
      exact hin.2 (congrArg Dirent.key (hone e hin.1 hename))
  · rw [hto, names_create hmname, hminum]
    refine and_congr_left fun _ => ⟨fun hnone e he hename => ?_, fun hall e he hename => ?_⟩
    · by_contra hsome
      have hin := (hsource hne hename).mpr he
      exact hnone e (List.mem_filter.mpr
        ⟨hin, decide_eq_true ((kept_iff (hplaced _) hin hename hbucket).mpr hsome)⟩) hename
    · obtain ⟨hin, hkept⟩ := List.mem_filter.mp he
      exact (kept_iff (hplaced _) hin hename hbucket).mp (of_decide_eq_true hkept)
        (hall e ((hsource hne hename).mp hin) hename)

end

/-- **All or nothing.**  For every state of the directories, and whatever step fails: the call is all
or nothing if and only if the two names are of one inode, or it fails before the source entry is taken
out, or every step succeeds. -/
theorem rename_whole {s s' : Pfs} {c : Call} {f : Faults} {r : Except Error Unit}
    (h : ∀ d, Placed icrc32 (s.dirs d)) (htip : (names (s.dirs c.tdip) c.tname).head? = c.tip)
    (hr : rename icrc32 s c f = some (s', r)) :
    AllOrNothing s c s' r ↔
      c.tip = some c.fip ∨ FailsEarly icrc32 s c f ∨ Succeeds icrc32 s c f := by
  cases rename_outcome h hr with
  | same hsame =>
      refine ⟨fun _ => .inl hsame, fun _ => ?_⟩
      rw [AllOrNothing, if_pos hsame]
  | early e hsame hearly => exact ⟨fun _ => .inr (.inl hearly), fun _ => ⟨rfl, rfl, rfl⟩⟩
  | missing hsame hearly hnone =>
      constructor
      · intro hall
        rw [AllOrNothing, if_neg hsame, unlink_target_dirs] at hall
        rw [hall.2.1] at htip
        exact absurd htip.symm hsame
      · rintro (h1 | h2 | ⟨es, hes, hname, -⟩)
        · exact absurd h1 hsame
        · exact absurd h2 hearly
        · exact absurd (decide_eq_true hname) (List.find?_eq_none.mp hnone es hes)
  | moved es lhc s₁ error hsame hearly hfirst hfree hre =>
      have hes := List.mem_of_find?_eq_some hfirst
      have hname : es.name = c.fname.bytes := by
        have htest := List.find?_some hfirst
        exact of_decide_eq_true htest
      have hplaced : Placed icrc32 ((sourceless s c es).dirs c.tdip) := .sourceless h c.tdip
      -- what succeeds is about this entry
      have hsucceeds : Succeeds icrc32 s c f ↔ es.inum = c.fip ∧
          (∀ e ∈ s.dirs c.fdip, e.name = c.fname.bytes → e = es) ∧ ¬ FailsLate f es lhc c.fname c.tname ∧
          ∀ e ∈ s.dirs c.tdip, e.name = c.tname.bytes → f.remove e.key = none := by
        constructor
        · rintro ⟨x, hx, hxname, hinum, hone, hlate, hall⟩
          obtain rfl := hone es hes hname
          exact ⟨hinum, hone, hlate lhc hfree, hall⟩
        · rintro ⟨hinum, hone, hlate, hall⟩
          refine ⟨es, hes, hname, hinum, hone, fun k hk => ?_, hall⟩
          obtain rfl := Except.ok.inj (hfree.symm.trans hk)
          exact hlate
      rw [hsucceeds, or_iff_right hsame, or_iff_right hearly]
      rcases reinsert_spec hplaced hre with ⟨e, p, hlate, rfl, -, rfl⟩ | ⟨hlate, rfl, hs'⟩
      · refine ⟨fun hall => ?_, fun hall => absurd hlate hall.2.2.1⟩
        rw [if_neg (Option.some_ne_none _)] at hall
        obtain ⟨q, hq⟩ : ∃ q : Dirent → Bool,
            ((sourceless s c es).setDir c.tdip (((sourceless s c es).dirs c.tdip).filter p)).dirs c.fdip =
              (chain_delete (s.dirs c.fdip) es.key).filter q := by
          have hdel : (sourceless s c es).dirs c.fdip = chain_delete (s.dirs c.fdip) es.key :=
            setDir_self ..
          by_cases hd : c.tdip = c.fdip
          · refine ⟨p, ?_⟩
            rw [hd, ← hdel]
            exact setDir_self ..
          · refine ⟨fun _ => true, ?_⟩
            rw [List.filter_true, ← hdel]
            exact setDir_ne _ _ (Ne.symm hd)
        have hnames := hall.1
        rw [hq] at hnames
        exact absurd hnames (names_delete hes hname q)
      · rw [if_pos rfl, AllOrNothing, if_neg hsame, unlink_target_dirs]
        by_cases hne : c.tdip = c.fdip ∧ c.tname = c.fname
        · -- one name cannot be gone and be there; and the inode is the one that was replaced
          constructor
          · rintro ⟨h1, h2, -⟩
            rw [hne.1, hne.2, h1] at h2
            cases h2
          · rintro ⟨hinum, -⟩
            rw [hne.1, hne.2, names_head, hfirst, Option.map_some, hinum] at htip
            exact absurd htip.symm hsame
        · obtain ⟨hgone, hthere⟩ := moved_whole h hes hname hne hfree hs'
          have hinodes : s₁.inodes = s.inodes := by
            rw [hs']
            rfl
          rw [hgone, hthere]
          constructor
          · rintro ⟨hone, ⟨hall, hinum⟩, -⟩
            exact ⟨hinum, hone, hlate, hall⟩
          · rintro ⟨hinum, hone, -, hall⟩
            exact ⟨hone, ⟨hall, hinum⟩, unlink_target_inodes hinodes _⟩

theorem old_nonempty : ([97] : List UInt8) ≠ [] := by decide
theorem old_short : ([97] : List UInt8).length < 256 := by decide
theorem new_nonempty : ([98] : List UInt8) ≠ [] := by decide
theorem new_short : ([98] : List UInt8).length < 256 := by decide

/-- The names `a` and `b`, and a root directory with a file `a`. -/
def nameOld : Name := ⟨[97], old_nonempty, old_short⟩
def nameNew : Name := ⟨[98], new_nonempty, new_short⟩

def fileOld : Dirent :=
  ({ Dirent.zeroed (dirhash (fun _ => 0) nameOld.bytes) with inum := 17, type := .regfile }).setName nameOld.bytes

def oneFile : Pfs := newfs.setDir 1 [fileOld]

def oldToNew : Call := ⟨17, none, 1, 1, nameOld, nameNew⟩

/-- No faults, but for what the creation of the entry comes to. -/
def onlyCreate (create : Option MediaError) : Faults :=
  ⟨none, none, true, none, true, none, fun _ _ => none, none, none, none, true, none, fun _ => none, false, create⟩

theorem oneFile_placed (d : Nat) : Placed (fun _ => 0) (oneFile.dirs d) := by
  by_cases hd : d = 1
  · have hname : fileOld.name = nameOld.bytes := setName_name _ _
    rw [hd, oneFile, setDir_self]
    refine ⟨List.pairwise_singleton _ _, ?_, ?_⟩
    · rintro e he
      obtain rfl := List.mem_singleton.mp he
      rw [hname]
      rfl
    · rintro e he -
      obtain rfl := List.mem_singleton.mp he
      rw [hname]
      exact ⟨Nat.le_refl _, Nat.le_add_right _ _⟩
  · rw [oneFile, setDir_ne _ _ hd]
    exact .of_wellFormed wellFormed_nil

theorem rename_whole_file : ∃ s' r, rename (fun _ => 0) oneFile oldToNew (onlyCreate none) = some (s', r) ∧
    AllOrNothing oneFile oldToNew s' r := by
  refine ⟨_, _, rfl, (@rename_whole (fun _ => 0) oneFile _ oldToNew (onlyCreate none) _ oneFile_placed rfl rfl).mpr
    (.inr (.inr ⟨fileOld, List.mem_singleton_self _, setName_name _ _, rfl, ?_, ?_, fun _ _ _ => rfl⟩))⟩
  · intro e he _
    exact List.mem_singleton.mp he
  · rintro lhc - (h | h | h | h)
    · cases h
    · exact h (ite_self _)
    · exact h rfl
    · exact h rfl

/-- No space for the new entry: the file has no name any more. -/
theorem rename_loses_file : ¬ ∀ icrc32 s c f s' r, (∀ d, Placed icrc32 (s.dirs d)) →
    (names (s.dirs c.tdip) c.tname).head? = c.tip → rename icrc32 s c f = some (s', r) →
    AllOrNothing s c s' r := by
  intro h
  have hall := h (fun _ => 0) oneFile oldToNew (onlyCreate (some .enospc)) _ _ oneFile_placed rfl rfl
  exact absurd hall.1 (by decide)

/-! ## The coarse steps -/

/-- The faults of `Dir.rename`, step by step. -/
def Faults.coarse (s : Pfs) (c : Call) (f : RenameFaults) : Faults where
  refused := none
  scan := f.scan.map fun e => ((s.dirs c.tdip).length, e)
  ip4 := true
  empty := none
  ip1 := true
  source := none
  read := fun _ _ => none
  delete := f.delete
  resize := f.adjust
  modify := none
  ip3 := true
  target := f.target.map fun e => (0, e)
  remove := fun _ => none
  relookup := false
  create := f.create

section
variable {error : Dirent → Option MediaError} {name : Name}

/-- With no unreadable entry the search is a search. -/
theorem search_eq (h : Placed icrc32 dir) (herr : ∀ e, error e = none) : ∀ {l : List Dirent},
    (∀ e ∈ l, e ∈ dir) → search error name.bytes l = some (first l name.bytes)
  | [], _ => rfl
  | e :: es, hin => by
      have htest : test error e name.bytes = some (decide (e.name = name.bytes)) := by
        rw [test, if_neg (by rw [herr]; exact fun hp => nomatch hp.2.2), h.test_eq (hin e (List.mem_cons_self ..))]
      rw [search, htest, first]
      by_cases hname : e.name = name.bytes
      · rw [List.find?_cons, decide_eq_true hname]
      · rw [List.find?_cons, decide_eq_false hname]
        exact search_eq h herr fun x hx => hin x (List.mem_cons_of_mem _ hx)

theorem removeAll_isSome (herr : ∀ e, error e = none) {remove : Nat → Option MediaError} {name : List UInt8} :
    ∀ (l : List Dirent) (dir : Directory), ∃ dir', removeAll error remove name dir l = some dir'
  | [], dir => ⟨dir, rfl⟩
  | e :: es, dir => by
      have htest : test error e name = some (dirent_test e name) :=
        if_neg (by rw [herr]; exact fun hp => nomatch hp.2.2)
      rw [removeAll, htest]
      cases dirent_test e name with
      | true => exact removeAll_isSome herr es _
      | false => exact removeAll_isSome herr es _

end

/-- "Delete all matching directory entries" is the filter of the coarse model. -/
theorem cleared_eq (h : Placed icrc32 dir) {f : Faults} (hrem : ∀ k, f.remove k = none) {lhc : Nat}
    (name : Name) : cleared f dir lhc name = delete_matching dir lhc name.bytes := by
  refine List.filter_congr fun x hx => ?_
  rw [h.test_eq hx, Bool.eq_iff_iff, decide_eq_true_eq, Bool.not_eq_true']
  constructor
  · intro hall
    by_contra hin
    rw [Bool.not_eq_false, Bool.and_eq_true, Bool.and_eq_true, decide_eq_true_eq, decide_eq_true_eq,
      decide_eq_true_eq] at hin
    exact hall x (mem_lookup.mpr ⟨hx, hin.1⟩) hin.2 (hrem _) rfl
  · intro hout e he hname _ hkey
    obtain ⟨hmem, hlo, hhi⟩ := mem_lookup.mp he
    obtain rfl := h.key_inj hx hmem hkey
    rw [decide_eq_true hname, Bool.and_true, Bool.and_eq_false_iff, decide_eq_false_iff_not,
      decide_eq_false_iff_not] at hout
    rcases hout with hout | hout
    · exact hout hlo
    · exact hout hhi

/-- The end of a feed, as a result. -/
def fed (r : Pfs × Except Error Unit) : Pfs × Option Error :=
  match r with
  | (s, .error e) => (s, some e)
  | (s, .ok ()) => (s, none)

theorem renamed_adjust (f : Faults) (chain : Dirent) (lhc : Nat) (name1 name2 : List UInt8) :
    renamed chain lhc name1 name2 (f.resize.or f.modify) =
      match adjust f chain lhc name1 name2 with
      | some e => .error e.toError
      | none => .ok (if chain.key ≠ lhc ∨ name1 ≠ name2 then chain.setName name2 else chain) := by
  unfold renamed adjust
  split
  · cases f.resize.or f.modify <;> rfl
  · rfl

theorem reinsert_coarse {s : Pfs} {tdip lhc : Nat} {name1 name2 : Name} {f : Faults} {chain : Dirent}
    (h : Placed icrc32 (s.dirs tdip)) (hip3 : f.ip3 = true) (hread : ∀ d e, f.error d e = none)
    (hrem : ∀ k, f.remove k = none) (hlook : f.relookup = false) (hfree : ∀ e ∈ s.dirs tdip, e.key ≠ lhc)
    (ht : ∀ c ∈ f.target, c.1 = 0) :
    reinsert s tdip lhc name1 name2 f chain = some (fed (
      match renamed chain lhc name1.bytes name2.bytes (f.resize.or f.modify) with
      | .error e => (s, .error e)
      | .ok chain =>
          match f.target.map Prod.snd with
          | some e => (s, .error e.toError)
          | none =>
              match f.create with
              | some e => (s.setDir tdip (delete_matching (s.dirs tdip) lhc name2.bytes), .error e.toError)
              | none => (s.setDir tdip (chain_create (delete_matching (s.dirs tdip) lhc name2.bytes)
                  { chain with key := lhc }), .ok ()))) := by
  have hself : s.setDir tdip (s.dirs tdip) = s := by
    rw [Pfs.setDir, Function.update_eq_self]
  rw [reinsert, if_neg (by rw [hip3]; rintro ⟨⟩), renamed_adjust]
  cases adjust f chain lhc name1.bytes name2.bytes with
  | some e => rfl
  | none =>
      dsimp only
      cases hcut : f.target with
      | some c =>
          obtain ⟨n, e⟩ := c
          obtain rfl : n = 0 := ht (n, e) hcut
          show some (s.setDir tdip (s.dirs tdip), some e.toError) = _
          rw [hself]
          rfl
      | none =>
          obtain ⟨dir, hdir⟩ := @removeAll_isSome (f.error tdip) (hread tdip) f.remove name2.bytes
            (lookup (s.dirs tdip) (bucket lhc) (bucket lhc + DIRHASH_LOMASK)) (s.dirs tdip)
          have hclear : dir = delete_matching (s.dirs tdip) lhc name2.bytes := by
            rw [← cleared_eq h hrem]
            exact removeAll_spec h (fun e he => (mem_lookup.mp he).1) hdir
          have hnone : lookup dir lhc lhc = [] := lookup_free fun e he => by
            rw [hclear] at he
            exact hfree e (List.mem_of_mem_filter he)
          unfold walk
          dsimp only
          rw [hdir]
          dsimp only
          rw [if_neg (by rw [hlook, hnone]; exact fun hp => hp.elim Bool.false_ne_true (absurd rfl)), hclear]
          cases f.create <;> rfl

theorem setDir_setDir (s : Pfs) (d : Nat) (a b : Directory) : (s.setDir d a).setDir d b = s.setDir d b := by
  simp only [Pfs.setDir, Function.update_idem]

/-- **The coarse model.**  On well-formed directories `Dir.rename` is the rename whose faults are those
of its five steps. -/
theorem rename_coarse {s : Pfs} {c : Call} {f : RenameFaults} (h : ∀ d, WellFormed icrc32 (s.dirs d))
    (hsame : c.tip ≠ some c.fip) :
    rename icrc32 s c (Faults.coarse s c f) =
      some (Dir.rename icrc32 s c.fdip c.fname c.tdip c.tname c.tip f) := by
  have hplaced := fun d => Placed.of_wellFormed (h d)
  have hkey : freeLhc icrc32 (s.dirs c.tdip) c.tname.bytes (Faults.coarse s c f).scan =
      free_lhc icrc32 (s.dirs c.tdip) c.tname.bytes f.scan := by
    have hwalk : bucketWalk icrc32 (s.dirs c.tdip) c.tname.bytes (Faults.coarse s c f).scan =
        (lookup (s.dirs c.tdip) (dirhash icrc32 c.tname.bytes)
          (dirhash icrc32 c.tname.bytes + DIRHASH_LOMASK), f.scan) := by
      unfold Faults.coarse
      cases f.scan with
      | none => rfl
      | some e =>
          refine congrArg₂ Prod.mk (List.take_of_length_le ?_) rfl
          exact List.length_filter_le _ _
    rw [freeLhc, hwalk]
    rfl
  unfold rename Dir.rename
  rw [if_neg hsame, hkey]
  dsimp only [Faults.coarse]
  cases hlhc : free_lhc icrc32 (s.dirs c.tdip) c.tname.bytes f.scan with
  | error e => rfl
  | ok lhc =>
      have hback : xop_nrename icrc32 s c.fdip c.tdip (c.tip.filter s.isDir) lhc c.fname c.tname
          (Faults.coarse s c f) = some (fed (Dir.xop_nrename icrc32 s c.fdip c.tdip (c.tip.filter s.isDir) lhc
            c.fname c.tname f)) := by
        have hread : ∀ d e, (Faults.coarse s c f).error d e = none := fun d e => ite_self none
        have hcheck : checkTarget s (c.tip.filter s.isDir) (Faults.coarse s c f) =
            if (c.tip.filter s.isDir).any (fun ip => !checkdirempty s ip) then some .enotempty else none := by
          unfold checkTarget Faults.coarse
          cases c.tip.filter s.isDir with
          | none => rfl
          | some ip => cases hempty : checkdirempty s ip <;> simp [hempty]
        unfold xop_nrename Dir.xop_nrename
        by_cases hany : (c.tip.filter s.isDir).any (fun ip => !checkdirempty s ip) = true
        · rw [hcheck, if_pos hany, if_pos hany]
          rfl
        · rw [hcheck, if_neg hany, if_neg hany]
          have hsearch := @search_eq icrc32 _ _ c.fname (hplaced c.fdip) (hread c.fdip) _
            fun e (he : e ∈ (bucketWalk icrc32 (s.dirs c.fdip) c.fname.bytes none).1) => walk_mem he
          rw [(hplaced c.fdip).first_walk.2 rfl, ← (hplaced c.fdip).find_eq] at hsearch
          dsimp only
          rw [if_neg (show ¬ (Faults.coarse s c f).ip1 = false from nofun)]
          show (match search _ _ (bucketWalk icrc32 (s.dirs c.fdip) c.fname.bytes none).1 with
            | none => none
            | some none => _
            | some (some chain) => _) = _
          rw [hsearch]
          cases hfind : find icrc32 (s.dirs c.fdip) c.fname.bytes with
          | none => rfl
          | some es =>
              dsimp only
              rw [hread]
              show (match f.delete with | some e => _ | none => _) = _
              cases f.delete with
              | some e => rfl
              | none =>
                  have hfree : ∀ e ∈ (sourceless s c es).dirs c.tdip, e.key ≠ lhc := by
                    intro e he
                    refine ((h c.tdip).free_lhc_ok hlhc).2.2 e ?_
                    rw [sourceless] at he
                    by_cases hd : c.tdip = c.fdip
                    · rw [hd, setDir_self] at he
                      rw [hd]
                      exact (mem_chain_delete.mp he).1
                    · rwa [setDir_ne _ _ hd] at he
                  have hcut : ∀ x ∈ (Faults.coarse s c f).target, x.1 = 0 := by
                    intro x hx
                    obtain ⟨e, -, rfl⟩ := Option.map_eq_some_iff.mp hx
                    rfl
                  have htarget : (Faults.coarse s c f).target.map Prod.snd = f.target := by
                    unfold Faults.coarse
                    cases f.target <;> rfl
                  have hadjust : (Faults.coarse s c f).resize.or (Faults.coarse s c f).modify = f.adjust :=
                    Option.or_none
                  have hre := @reinsert_coarse icrc32 _ _ _ c.fname c.tname (Faults.coarse s c f) es
                    (Placed.sourceless hplaced c.tdip) rfl hread (fun _ => rfl) rfl hfree hcut
                  have hcreate : (Faults.coarse s c f).create = f.create := rfl
                  rw [htarget, hadjust, hcreate] at hre
                  refine hre.trans (congrArg (fun r => some (fed r)) ?_)
                  show _ = (match renamed es lhc c.fname.bytes c.tname.bytes f.adjust with
                    | .error e => (sourceless s c es, Except.error e)
                    | .ok chain => _)
                  cases renamed es lhc c.fname.bytes c.tname.bytes f.adjust with
                  | error e => rfl
                  | ok chain =>
                      dsimp only
                      cases f.target with
                      | some e => rfl
                      | none =>
                          cases f.create with
                          | some e => rfl
                          | none =>
                              dsimp only
                              rw [setDir_setDir, setDir_self]
                              rfl
      dsimp only [Faults.coarse] at hback ⊢
      rw [hback]
      cases Dir.xop_nrename icrc32 s c.fdip c.tdip (c.tip.filter s.isDir) lhc c.fname c.tname f with
      | mk s' r =>
          cases r with
          | error e => cases e <;> rfl
          | ok u => rfl

end Hammer2.Rename
