/-
# `Hammer2.Boot.Resolve` — from a path to an inode

    NameLookup   what the kernel's lookup of a name finds
    Resolves     the inode that a path leads to
    Image        a well-formed image
    open_spec    the reader finds that inode, or it fails; it says that there is none only
                 if there is none

The last holds unless a call inside a scan fails, or the name is too long for its blockref: the
reader takes both for a name that is not there.
-/
import Hammer2.Boot.Again
import Hammer2.Boot.Tree

namespace Hammer2.Boot

/-! ## The kernel's side -/

/-- The block at an offset of the device. -/
def block (d : Mem) (off : Nat) : Mem := fun i => d (off + i)

/-- `meta.inum` of an inode -/
def inoInum (ino : Mem) : Nat := le ino 0x58 8

/-- `hammer2_chain_dirent_test` -/
def direntTest (d : Mem) (br : Blockref) (name : List UInt8) : Bool :=
  if br.type = brefTypeInode then inoNamed (block d br.off) name
  else if br.type = brefTypeDirent then
    br.namlen == name.length &&
      (if name.length > 64 then bytesAt d br.off name.length == name
        else br.check.take name.length == name)
  else false

section Kernel

variable (icrc32 : List UInt8 → UInt32) (d : Mem) (n : Nat)

/-- The inode that `hammer2_xop_nresolve` finds for a name in the directory `dir`; the inodes
of the PFS are under `root`. -/
inductive NameLookup (root dir : Mem) (name : List UInt8) : Mem → Prop
  | inode {br : Blockref} (hbr : br ∈ leaves d n (inoBlockset dir))
      (hmeets : br.meets (Dir.dirhash icrc32 name) (Dir.dirhash icrc32 name + dirhashLomask) = true)
      (htest : direntTest d br name = true) (htype : br.type = brefTypeInode) :
      NameLookup root dir name (block d br.off)
  | dirent {br ib : Blockref} (hbr : br ∈ leaves d n (inoBlockset dir))
      (hmeets : br.meets (Dir.dirhash icrc32 name) (Dir.dirhash icrc32 name + dirhashLomask) = true)
      (htest : direntTest d br name = true) (htype : br.type = brefTypeDirent)
      (hib : ib ∈ leaves d n (inoBlockset root)) (hnum : ib.meets br.inum br.inum = true)
      (hino : ib.type = brefTypeInode) (hsame : inoInum (block d ib.off) = br.inum) :
      NameLookup root dir name (block d ib.off)

/-- From one inode to another along the components of a path. -/
def Walks (root : Mem) : List (List UInt8) → Mem → Mem → Prop
  | [], ino, out => out = ino
  | comp :: comps, ino, out => inoType ino = objtypeDirectory ∧
      ∃ next, NameLookup icrc32 d n root ino comp next ∧ Walks root comps next out

/-- The volume header that is mounted. -/
structure Best (i : Nat) : Prop where
  lt : i < 4
  magic : volMagic (block d (volOff i)) = volumeIdHbo
  most : ∀ j < 4, volMagic (block d (volOff j)) = volumeIdHbo →
    volMirror (block d (volOff j)) ≤ volMirror (block d (volOff i))
  first : ∀ j < i, volMagic (block d (volOff j)) = volumeIdHbo →
    volMirror (block d (volOff j)) < volMirror (block d (volOff i))

/-- The super-root of the volume header `i`. -/
def superRoot (i : Nat) : Blockref := volSroot (block d (volOff i))

/-- The components of a path. -/
def splitPath (path : List UInt8) : List (List UInt8) := (path.splitOnP (· == 47)).filter (· ≠ [])

/-- The inode of the PFS. -/
def RootInode (root : Mem) : Prop := ∃ i, Best d i ∧
  NameLookup icrc32 d n (block d (superRoot d i).off) (block d (superRoot d i).off) pfsLabel root

/-- **The inode that a path leads to.** -/
def Resolves (path : List UInt8) (out : Mem) : Prop := ∃ root, RootInode icrc32 d n root ∧
  Walks icrc32 d n root (splitPath path) root out

/-! ## Well-formed images -/

/-- A blockref of an inode, which can be read. -/
structure InodeRef (br : Blockref) : Prop where
  radix : br.radix = 10
  aligned : br.off % 512 = 0

/-- The table of an inode. -/
structure Tree (ino : Mem) : Prop where
  table : Table d n (inoBlockset ino)
  inode : ∀ br ∈ leaves d n (inoBlockset ino), br.type = brefTypeInode → InodeRef br
  names : ∀ br ∈ leaves d n (inoBlockset ino), ∀ br' ∈ leaves d n (inoBlockset ino), ∀ name,
    direntTest d br name = true → direntTest d br' name = true → br = br'

/-- An inode is under the super-root. -/
inductive Below : Mem → Prop
  | pfs {i : Nat} {br : Blockref} (hi : Best d i)
      (hbr : br ∈ leaves d n (inoBlockset (block d (superRoot d i).off)))
      (htype : br.type = brefTypeInode) : Below (block d br.off)
  | leaf {ino : Mem} {br : Blockref} (h : Below ino) (hdata : directdata ino = false)
      (hbr : br ∈ leaves d n (inoBlockset ino)) (htype : br.type = brefTypeInode) :
      Below (block d br.off)

/-- Inodes are found by their number, which is below the keys of names. -/
structure Numbered (ino : Mem) : Prop where
  visible : ∀ br ∈ leaves d n (inoBlockset ino), br.type = brefTypeInode →
    br.keybits = 0 ∧ br.key < 2 ^ 63 ∧ inoInum (block d br.off) = br.key

/-- Indirect blocks are at most `n` deep. -/
structure Image : Prop where
  best : ∃ i, Best d i
  sroot : ∀ i, Best d i → (superRoot d i).type = brefTypeInode ∧ InodeRef (superRoot d i) ∧
    Tree d n (block d (superRoot d i).off) ∧
    ∀ br ∈ leaves d n (inoBlockset (block d (superRoot d i).off)), br.type = brefTypeInode ∧
      inoType (block d br.off) = objtypeDirectory
  tree : ∀ ino, Below d n ino → directdata ino = false → Tree d n ino ∧ Numbered d n ino
  embedded : ∀ ino, Below d n ino → directdata ino = true →
    inoSize ino ≤ 512 ∧ inoType ino ≠ objtypeDirectory

end Kernel

section Path

theorem filter_piece (comp : List UInt8) (comps : List (List UInt8)) :
    (comp :: comps).filter (· ≠ []) = (if comp = [] then [] else [comp]) ++ comps.filter (· ≠ []) := by
  cases comp with
  | nil => rfl
  | cons b bs => rfl

/-- The components that the reader finds are those of the path. -/
theorem components_eq : ∀ (path comp : List UInt8),
    (∀ c ∈ ((path.splitOnP (· == 47)).modifyHead (comp ++ ·)), c.length ≤ 255) →
    components path comp = ((path.splitOnP (· == 47)).modifyHead (comp ++ ·)).filter (· ≠ [])
  | [], comp, _ => by
      rw [List.splitOnP_nil, List.modifyHead_cons, List.append_nil, components, filter_piece,
        List.filter_nil, List.append_nil]
  | c :: cs, comp, hlen => by
      rw [List.splitOnP_cons_eq_if_modifyHead] at hlen ⊢
      unfold components
      rcases eq_or_ne c 47 with rfl | hne
      · have hid : (cs.splitOnP (· == 47)).modifyHead ([] ++ ·) = cs.splitOnP (· == 47) := by
          cases cs.splitOnP (· == 47) with
          | nil => rfl
          | cons p ps => rfl
        have hsep : ((47 : UInt8) == 47) = true := rfl
        rw [hsep, if_pos rfl, List.modifyHead_cons, List.append_nil] at hlen
        rw [hsep, if_pos (Eq.refl true), List.modifyHead_cons, List.append_nil, filter_piece]
        have hrest := components_eq cs [] fun c hc => by
          rw [hid] at hc
          exact hlen c (List.mem_cons_of_mem _ hc)
        rw [hid] at hrest
        rw [if_pos rfl, hrest]
      · have hsep : (c == 47) = false := beq_eq_false_iff_ne.mpr hne
        have hmove : ((cs.splitOnP (· == 47)).modifyHead (List.cons c)).modifyHead (comp ++ ·) =
            (cs.splitOnP (· == 47)).modifyHead ((comp ++ [c]) ++ ·) := by
          cases cs.splitOnP (· == 47) with
          | nil => rfl
          | cons p ps =>
              rw [List.modifyHead_cons, List.modifyHead_cons, List.modifyHead_cons,
                List.append_assoc]
              rfl
        rw [hsep, if_neg Bool.false_ne_true, hmove] at hlen ⊢
        rw [if_neg hne]
        have hshort : ¬ comp.length ≥ 255 := by
          intro hge
          cases hsplit : cs.splitOnP (· == 47) with
          | nil => exact List.splitOnP_ne_nil _ _ hsplit
          | cons p ps =>
              rw [hsplit, List.modifyHead_cons] at hlen
              have hle := hlen _ List.mem_cons_self
              rw [List.length_append, List.length_append, List.length_singleton] at hle
              omega
        rw [if_neg hshort]
        exact components_eq cs (comp ++ [c]) hlen

theorem components_path {path : List UInt8} (h : ∀ c ∈ splitPath path, c.length ≤ 255) :
    components path [] = splitPath path := by
  have hid : (path.splitOnP (· == 47)).modifyHead ([] ++ ·) = path.splitOnP (· == 47) := by
    cases path.splitOnP (· == 47) with
    | nil => rfl
    | cons p ps => rfl
  have heq := components_eq path [] fun c hc => by
    rw [hid] at hc
    rcases eq_or_ne c [] with rfl | hne
    · exact Nat.zero_le _
    · exact h c (List.mem_filter.mpr ⟨hc, decide_eq_true hne⟩)
  rw [heq, hid]
  rfl

end Path

/-! ## Lookups -/

section Lookup

variable {icrc32 : List UInt8 → UInt32} {d : Mem} {env : Env} {n depth : Nat} {w : World}
  {root dir : Mem} {name : List UInt8}

theorem readphys_scan (h : Quiet env) {br : Blockref} (hbr : InodeRef br) (hw : w.base = 0) :
    ∃ w', readphys d env .scan br 1024 w = some (some (block d br.off, 1024), w') ∧
      Scanned w w' := by
  have hsize : 2 ^ br.radix = 1024 := by
    rw [hbr.radix]
    rfl
  have hradix : br.radix ≠ 0 := by
    rw [hbr.radix]
    decide
  obtain ⟨w', hw', hs⟩ := @pread_scan d env w h hw br.off (2 ^ br.radix)
  refine ⟨w', ?_, hs⟩
  have hdiv : br.off / 512 * 512 = br.off := Nat.div_mul_cancel (Nat.dvd_of_mod_eq_zero hbr.aligned)
  rw [readphys, if_neg hradix, if_neg (by omega)]
  show (pread d env .scan br.off (2 ^ br.radix) w).bind _ = _
  rw [hw', Option.bind_some, hdiv, hsize]
  rfl

/-- What `h2_namecb` finds. -/
def nameHit (d : Mem) (name : List UInt8) (br : Blockref) : Option Hit :=
  if br.type = brefTypeInode then
    if inoNamed (block d br.off) name then some (.inode (block d br.off)) else none
  else if br.type = brefTypeDirent then
    if br.namlen = name.length ∧ name.length ≤ 64 ∧ br.check.take name.length = name then
      some (.dirent br.inum) else none
  else none

theorem namecb_finds (h : Quiet env) {clobber : Bool} {br : Blockref}
    (hino : br.type = brefTypeInode → clobber = false ∧ InodeRef br) :
    Finds (namecb d env clobber name) (nameHit d name) br := by
  intro w hw
  unfold namecb nameHit
  rcases eq_or_ne br.type brefTypeInode with htype | hne
  · obtain ⟨rfl, hbr⟩ := hino htype
    rw [if_pos htype, if_pos htype, if_neg Bool.false_ne_true]
    obtain ⟨w', hw', hs⟩ := readphys_scan h hbr hw
    refine ⟨w', ?_, hs⟩
    show (readphys d env .scan br 1024 w).bind _ = _
    rw [hw', Option.bind_some]
    rfl
  · rw [if_neg hne, if_neg hne]
    split
    · exact ⟨w, rfl, Scanned.refl w⟩
    · exact ⟨w, rfl, Scanned.refl w⟩

/-- What `h2_inumcb` finds. -/
def inumHit (d : Mem) (inum : Nat) (br : Blockref) : Option Mem :=
  if br.type = brefTypeInode ∧ br.key = inum then some (block d br.off) else none

theorem inumcb_finds (h : Quiet env) {inum : Nat} {br : Blockref}
    (hino : br.type = brefTypeInode → InodeRef br) :
    Finds (inumcb d env inum) (inumHit d inum) br := by
  intro w hw
  unfold inumcb inumHit
  rcases eq_or_ne br.type brefTypeInode with htype | hne
  · rw [if_neg (not_not.mpr htype)]
    rcases eq_or_ne br.key inum with hkey | hne
    · obtain ⟨w', hw', hs⟩ := readphys_scan h (hino htype) hw
      refine ⟨w', ?_, hs⟩
      rw [if_neg (not_not.mpr hkey), if_pos ⟨htype, hkey⟩]
      show (readphys d env .scan br 1024 w).bind _ = _
      rw [hw', Option.bind_some]
      rfl
    · rw [if_pos hne, if_neg fun hand => hne hand.2]
      exact ⟨w, rfl, Scanned.refl w⟩
  · rw [if_pos hne, if_neg fun hand => hne hand.1]
    exact ⟨w, rfl, Scanned.refl w⟩

/-- The inode with a number. -/
theorem inodeByInum_spec (h : Quiet env) (hle : n ≤ depth) (hroot : Tree d n root)
    (hnum : Numbered d n root) (inum : Nat) (hw : w.base = 0) :
    ∃ w' res, inodeByInum d env depth root inum w = some (res, w') ∧ Scanned w w' ∧
      (∀ ino, res = .ok ino → ∃ ib ∈ leaves d n (inoBlockset root), ib.meets inum inum = true ∧
        ib.type = brefTypeInode ∧ inoInum (block d ib.off) = inum ∧ ino = block d ib.off) ∧
      ∀ e, res = .error e → ∀ ib ∈ leaves d n (inoBlockset root), ib.meets inum inum = true →
        ib.type ≠ brefTypeInode := by
  obtain ⟨w', hw', hs⟩ := @found_spec d env _ w (inumcb d env inum) inum inum (inumHit d inum) h n
    depth _ hle hroot.table (fun c hc _ => inumcb_finds h fun htype => hroot.inode c hc htype) hw
  have hrun : inodeByInum d env depth root inum w =
      (found d env (inumcb d env inum) inum inum depth (inoBlockset root) w).bind _ := rfl
  rw [hw', Option.bind_some] at hrun
  cases hsearch : search (inumHit d inum) inum inum (leaves d n (inoBlockset root)) with
  | some ino =>
      rw [hsearch] at hrun
      refine ⟨w', .ok ino, hrun, hs, ?_, nofun⟩
      rintro _ ⟨⟩
      obtain ⟨ib, hib, hmeets, hf⟩ := search_some hsearch
      unfold inumHit at hf
      split at hf
      · rename_i hand
        obtain ⟨htype, hkey⟩ := hand
        cases hf
        refine ⟨ib, hib, hmeets, htype, ?_, rfl⟩
        rw [(hnum.visible ib hib htype).2.2, hkey]
      · cases hf
  | none =>
      rw [hsearch] at hrun
      refine ⟨w', .error .enoent, hrun, hs, nofun, fun e _ ib hib hmeets htype => ?_⟩
      have hnone := search_none hsearch ib hib hmeets
      obtain ⟨hkeybits, _, _⟩ := hnum.visible ib hib htype
      have hfits := (hroot.table.leaf hib).2.2
      have hhi := hfits.hi_eq
      obtain ⟨hbeg, hend⟩ := meets_iff.mp hmeets
      have hkey : ib.key = inum := by
        have hlo : ib.lo = ib.key := rfl
        have hone : (2 : Nat) ^ (0 : UInt8).toNat = 1 := rfl
        rw [hkeybits, hone] at hhi
        omega
      rw [inumHit, if_pos ⟨htype, hkey⟩] at hnone
      cases hnone

/-- A name that a callback takes is one that the kernel takes. -/
theorem nameHit_some {br : Blockref} {hit : Hit} (h : nameHit d name br = some hit) :
    direntTest d br name = true ∧
      (br.type = brefTypeInode ∧ hit = .inode (block d br.off) ∨
        br.type = brefTypeDirent ∧ hit = .dirent br.inum) := by
  unfold nameHit at h
  unfold direntTest
  split at h
  · rename_i htype
    rw [if_pos htype]
    split at h
    · rename_i hnamed
      cases h
      exact ⟨hnamed, .inl ⟨htype, rfl⟩⟩
    · cases h
  · rename_i hne
    rw [if_neg hne]
    split at h
    · rename_i htype
      rw [if_pos htype]
      split at h
      · rename_i hname
        obtain ⟨hlen, hshort, htake⟩ := hname
        cases h
        rw [if_neg (Nat.not_lt.mpr hshort), hlen, htake]
        refine ⟨?_, .inr ⟨htype, rfl⟩⟩
        rw [Bool.and_eq_true, beq_iff_eq, beq_iff_eq]
        exact ⟨rfl, rfl⟩
      · cases h
    · cases h

/-- A short name that the kernel takes is one that a callback takes. -/
theorem nameHit_of_test {br : Blockref} (h : direntTest d br name = true)
    (hshort : name.length ≤ 64) : nameHit d name br ≠ none := by
  unfold direntTest at h
  unfold nameHit
  split at h
  · rename_i htype
    rw [if_pos htype, if_pos h]
    exact Option.some_ne_none _
  · rename_i hne
    rw [if_neg hne]
    split at h
    · rename_i htype
      rw [Bool.and_eq_true, if_neg (Nat.not_lt.mpr hshort), beq_iff_eq, beq_iff_eq] at h
      rw [if_pos htype, if_pos ⟨h.1, hshort, h.2⟩]
      exact Option.some_ne_none _
    · cases h

/-- One name, one inode. -/
theorem NameLookup.unique (hdir : Tree d n dir) (hroot : Tree d n root) {ino ino' : Mem}
    (h : NameLookup icrc32 d n root dir name ino) (h' : NameLookup icrc32 d n root dir name ino') :
    ino = ino' := by
  cases h with
  | @inode br hbr _ htest htype =>
      cases h' with
      | @inode br' hbr' _ htest' _ => rw [hdir.names br hbr br' hbr' name htest htest']
      | @dirent br' _ hbr' _ htest' htype' =>
          rw [hdir.names br hbr br' hbr' name htest htest', htype'] at htype
          cases htype
  | @dirent br ib hbr _ htest htype hib hnum _ _ =>
      cases h' with
      | @inode br' hbr' _ htest' htype' =>
          rw [hdir.names br hbr br' hbr' name htest htest', htype'] at htype
          cases htype
      | @dirent br' ib' hbr' _ htest' _ hib' hnum' _ _ =>
          rw [hdir.names br hbr br' hbr' name htest htest'] at hnum
          have hmeets := meets_iff.mp hnum
          have hmeets' := meets_iff.mp hnum'
          rw [hroot.table.unique hib hib' ⟨hmeets.2, hmeets.1⟩ ⟨hmeets'.2, hmeets'.1⟩]

/-- **A lookup** finds what the kernel finds, unless the name is too long. -/
theorem lookup_spec (hcrc : Castagnoli icrc32) (h : Quiet env) (hle : n ≤ depth) {clobber : Bool}
    {iroot : Mem} (hdir : Tree d n dir)
    (hclobber : clobber = true → Numbered d n dir)
    (hroot : (∀ br ∈ leaves d n (inoBlockset dir), br.type = brefTypeInode) ∨
      iroot = root ∧ Tree d n root ∧ Numbered d n root) (hw : w.base = 0) :
    ∃ w' res, lookup d env depth clobber iroot dir name w = some (res, w') ∧ Scanned w w' ∧
      (∀ ino, res = .ok ino → NameLookup icrc32 d n root dir name ino) ∧
      ∀ e, res = .error e → name.length ≤ 64 →
        ∀ ino, ¬ NameLookup icrc32 d n root dir name ino := by
  have hhash := h2Dirhash_eq hcrc name
  have hvisible : 2 ^ 63 ≤ Dir.dirhash icrc32 name := Dir.visible_le_dirhash icrc32 name
  have hcb : ∀ c ∈ leaves d n (inoBlockset dir),
      c.meets (Dir.dirhash icrc32 name) (Dir.dirhash icrc32 name + dirhashLomask) = true →
      Finds (namecb d env clobber name) (nameHit d name) c := by
    intro c hc hmeets
    refine namecb_finds h fun htype => ⟨?_, hdir.inode c hc htype⟩
    cases clobber with
    | false => rfl
    | true =>
        exfalso
        obtain ⟨hkeybits, hkey, _⟩ := (hclobber rfl).visible c hc htype
        have hhi := (hdir.table.leaf hc).2.2.hi_eq
        have hone : (2 : Nat) ^ (0 : UInt8).toNat = 1 := rfl
        obtain ⟨hbeg, _⟩ := meets_iff.mp hmeets
        rw [hkeybits, hone] at hhi
        omega
  obtain ⟨w', hw', hs⟩ := @found_spec d env _ w _ _ _ _ h n depth _ hle hdir.table hcb hw
  have hrun : lookup d env depth clobber iroot dir name w =
      (found d env (namecb d env clobber name) (h2Dirhash name) (h2Dirhash name + dirhashLomask) depth
        (inoBlockset dir) w).bind _ := rfl
  rw [hhash, hw', Option.bind_some] at hrun
  cases hsearch : search (nameHit d name) (Dir.dirhash icrc32 name)
      (Dir.dirhash icrc32 name + dirhashLomask) (leaves d n (inoBlockset dir)) with
  | none =>
      rw [hsearch] at hrun
      refine ⟨w', .error .enoent, hrun, hs, nofun, fun e _ hshort ino hino => ?_⟩
      cases hino with
      | inode hbr hmeets htest _ =>
          exact nameHit_of_test htest hshort (search_none hsearch _ hbr hmeets)
      | dirent hbr hmeets htest _ =>
          exact nameHit_of_test htest hshort (search_none hsearch _ hbr hmeets)
  | some hit =>
      obtain ⟨br, hbr, hmeets, hhit⟩ := search_some hsearch
      rw [hsearch] at hrun
      obtain ⟨htest, ⟨htype, rfl⟩ | ⟨htype, rfl⟩⟩ := nameHit_some hhit
      · refine ⟨w', .ok (block d br.off), hrun, hs, ?_, nofun⟩
        rintro _ ⟨⟩
        exact .inode hbr hmeets htest htype
      · rcases hroot with hall | ⟨rfl, hroot, hnum⟩
        · rw [hall br hbr] at htype
          cases htype
        · obtain ⟨v, res, hv, hs', hok, herr⟩ :=
            @inodeByInum_spec d env n depth w' iroot h hle hroot hnum br.inum (hs.base.trans hw)
          refine ⟨v, res, hrun.trans hv, hs.trans hs', fun ino hres => ?_, fun e hres _ ino hino => ?_⟩
          · obtain ⟨ib, hib, hmeets', htype', hnumber, rfl⟩ := hok ino hres
            exact .dirent hbr hmeets htest htype hib hmeets' htype' hnumber
          · cases hino with
            | @inode br' hbr' _ htest' htype' =>
                rw [hdir.names br hbr br' hbr' name htest htest', htype'] at htype
                cases htype
            | @dirent br' ib hbr' _ htest' _ hib hmeets' hino _ =>
                rw [← hdir.names br hbr br' hbr' name htest htest'] at hmeets'
                exact herr e hres ib hib hmeets' hino

end Lookup

/-! ## Mount -/

section Mount

variable {icrc32 : List UInt8 → UInt32} {d : Mem} {env : Env} {n depth : Nat} {w : World}

theorem Best.unique {i j : Nat} (hi : Best d i) (hj : Best d j) : i = j := by
  rcases Nat.lt_trichotomy i j with hlt | heq | hgt
  · exact absurd (hi.most j hj.lt hj.magic) (Nat.not_le.mpr (hj.first i hlt hi.magic))
  · exact heq
  · exact absurd (hj.most i hi.lt hi.magic) (Nat.not_le.mpr (hi.first j hgt hj.magic))

theorem pread_direct (hw : w.base = 0) {off bytes : Nat} (hbytes : (bytes + 8191) / 8192 = 1)
    (haligned : off % 512 = 0) : pread d env .direct off bytes w =
      some (if env.read w.reads then some (block d off) else none,
        { w with reads := w.reads + 1 }) := by
  have hdiv : off / 512 * 512 = off := Nat.div_mul_cancel (Nat.dvd_of_mod_eq_zero haligned)
  show (strategies env .direct ((bytes + 8191) / 8192) w).bind _ = _
  have hone : strategies env .direct 1 w =
      some (env.read w.reads, { w with reads := w.reads + 1 }) := by
    show (if env.read w.reads = true then strategies env .direct 0 else pure false)
      { w with reads := w.reads + 1 } = _
    cases env.read w.reads with
    | true => rfl
    | false => rfl
  rw [hbytes, hone, Option.bind_some, hw, Nat.zero_add, hdiv]
  cases env.read w.reads with
  | true => rfl
  | false => rfl

theorem volOff_mod (i : Nat) : volOff i % 512 = 0 := by
  unfold volOff
  omega

/-- The volume header so far, when `k` of them have been looked at: the best one once it has been
seen, and a lesser one before. -/
def Headed (d : Mem) (b k : Nat) (best : Option Mem) : Prop :=
  if b < k then best = some (block d (volOff b))
  else ∀ vh, best = some vh → volMirror vh < volMirror (block d (volOff b))

theorem Headed.skip {b k : Nat} {best : Option Mem} (h : Headed d b k best) (hne : k ≠ b) :
    Headed d b (k + 1) best := by
  unfold Headed at h ⊢
  rcases Nat.lt_or_gt_of_ne hne with hlt | hgt
  · rw [if_neg (Nat.lt_asymm hlt)] at h
    rwa [if_neg (Nat.not_lt.mpr hlt)]
  · rw [if_pos hgt] at h
    rwa [if_pos (Nat.lt_succ_of_lt hgt)]

theorem Headed.next {b k : Nat} {best : Option Mem} (hb : Best d b) (h : Headed d b k best)
    (hk : k < 4) : Headed d b (k + 1) (newest best (block d (volOff k))) := by
  unfold newest
  split
  · rename_i hne
    refine h.skip ?_
    rintro rfl
    exact hne hb.magic
  · rename_i hmagic
    have hmagic := not_not.mp hmagic
    split
    · rename_i hall
      unfold Headed at h ⊢
      rcases Nat.lt_trichotomy b k with hlt | heq | hgt
      · -- The best one has been seen, and this one is no better.
        rw [if_pos hlt] at h
        rw [h, Option.all_some, decide_eq_true_eq] at hall
        exact absurd hall (Nat.not_lt.mpr (hb.most k hk hmagic))
      · rw [if_pos (Nat.lt_succ_of_le (Nat.le_of_eq heq)), heq]
      · rw [if_neg (Nat.not_lt.mpr hgt)]
        rintro vh ⟨⟩
        exact hb.first k hgt hmagic
    · rename_i hall
      refine h.skip fun heq => hall ?_
      -- The best one is better than what is at hand.
      rw [Headed, heq, if_neg (Nat.lt_irrefl b)] at h
      cases best with
      | none => rfl
      | some vh =>
          rw [heq, Option.all_some, decide_eq_true_eq]
          exact h vh rfl

theorem headers_spec {b : Nat} (hb : Best d b) (hread : env.read b = true) : ∀ (m k : Nat)
    (best : Option Mem) (w : World), k + m = 4 → w.base = 0 → w.reads = k → Headed d b k best →
    ∃ w', headers d env (List.range' k m) best w = some (some (block d (volOff b)), w') ∧
      w'.base = 0
  | 0, k, best, w, hk, hw, _, hbest => by
      have hlt : b < k := Nat.lt_of_lt_of_le hb.lt (by omega)
      rw [Headed, if_pos hlt] at hbest
      exact ⟨w, by rw [hbest]; rfl, hw⟩
  | m + 1, k, best, w, hk, hw, hreads, hbest => by
      have hone : (1024 + 8191) / 8192 = 1 := rfl
      have haligned := volOff_mod k
      have hrun : headers d env (List.range' k (m + 1)) best w =
          (pread d env .direct (volOff k) 1024 w).bind _ := rfl
      rw [pread_direct hw hone haligned, Option.bind_some, hreads] at hrun
      cases hok : env.read k with
      | false =>
          have hne : k ≠ b := by
            rintro rfl
            rw [hread] at hok
            cases hok
          rw [hok] at hrun
          obtain ⟨w', hw', hbase⟩ := headers_spec hb hread m (k + 1) best
            { w with reads := w.reads + 1 } (by omega) hw (by rw [hreads]) (hbest.skip hne)
          rw [hreads] at hw'
          exact ⟨w', hrun.trans hw', hbase⟩
      | true =>
          rw [hok] at hrun
          obtain ⟨w', hw', hbase⟩ := headers_spec hb hread m (k + 1) _
            { w with reads := w.reads + 1 } (by omega) hw (by rw [hreads])
            (hbest.next hb (by omega))
          rw [hreads] at hw'
          exact ⟨w', hrun.trans hw', hbase⟩

theorem volume_spec {b : Nat} (hb : Best d b) (hread : env.read b = true) (hreads : w.reads = 0) :
    ∃ w', volume d env w = some (some (block d (volOff b)), w') ∧ w'.base = 0 := by
  have hstart : Headed d b 0 none := by
    rw [Headed, if_neg (Nat.not_lt_zero b)]
    exact nofun
  obtain ⟨w', hw', hbase⟩ := headers_spec hb hread 4 0 none { w with base := 0 } rfl rfl hreads hstart
  refine ⟨w', ?_, hbase⟩
  show (headers d env (List.range' 0 4) none { w with base := 0 }).bind _ = _
  rw [hw']
  rfl

theorem RootInode.unique (himg : Image d n) {root root' : Mem} (h : RootInode icrc32 d n root)
    (h' : RootInode icrc32 d n root') : root = root' := by
  obtain ⟨i, hi, hname⟩ := h
  obtain ⟨i', hi', hname'⟩ := h'
  obtain rfl := hi.unique hi'
  obtain ⟨_, _, htree, _⟩ := himg.sroot i hi
  exact hname.unique htree htree hname'

/-- The inode of the PFS is a directory with a tree. -/
theorem RootInode.below (himg : Image d n) {root : Mem} (h : RootInode icrc32 d n root) :
    Below d n root ∧ inoType root = objtypeDirectory := by
  obtain ⟨i, hi, hname⟩ := h
  obtain ⟨_, _, _, hall⟩ := himg.sroot i hi
  cases hname with
  | @inode br hbr _ _ htype => exact ⟨.pfs hi hbr htype, (hall br hbr).2⟩
  | @dirent br _ hbr _ _ htype =>
      rw [(hall br hbr).1] at htype
      cases htype

theorem readphys_direct {br : Blockref} (hbr : InodeRef br) (hw : w.base = 0) :
    readphys d env .direct br 1024 w =
      some (if env.read w.reads then some (block d br.off, 1024) else none,
        { w with reads := w.reads + 1 }) := by
  have hsize : 2 ^ br.radix = 1024 := by
    rw [hbr.radix]
    rfl
  have hradix : br.radix ≠ 0 := by
    rw [hbr.radix]
    decide
  rw [readphys, if_neg hradix, hsize, if_neg (Nat.lt_irrefl 1024)]
  show (pread d env .direct br.off 1024 w).bind _ = _
  rw [pread_direct hw rfl hbr.aligned, Option.bind_some]
  cases env.read w.reads with
  | true => rfl
  | false => rfl

/-- **A mount** finds the inode of the PFS. -/
theorem mount_spec (hcrc : Castagnoli icrc32) (himg : Image d n) (h : Quiet env) (hle : n ≤ depth)
    (hbest : ∀ b, Best d b → env.read b = true) (hw : w.base = 0) (hreads : w.reads = 0)
    (iroot : Mem) : ∃ w' res, mount d env depth iroot w = some (res, w') ∧ w'.base = 0 ∧
      (∀ root, res = .ok root → RootInode icrc32 d n root) ∧
      (res = .error .enoent → ∀ root, ¬ RootInode icrc32 d n root) := by
  obtain ⟨b, hb⟩ := himg.best
  obtain ⟨htype, href, htree, hall⟩ := himg.sroot b hb
  let w₁ : World := { w with allocs := w.allocs + 1 + 1 }
  let w₂ : World := { w with allocs := w.allocs + 1 + 1 + 1 }
  have hrun : mount d env depth iroot w =
      (if (env.alloc w.allocs).isNone ∨ (env.alloc (w.allocs + 1)).isNone then
        pure (.error .enomem) else _ : M (Except Errno Mem)) w₁ := rfl
  rw [hrun]
  split
  · exact ⟨w₁, _, rfl, hw, by rintro _ ⟨⟩, by rintro ⟨⟩⟩
  have halloc : alloc env w₁ = some (env.alloc (w.allocs + 1 + 1), w₂) := rfl
  rw [bind_run, halloc, Option.bind_some]
  cases env.alloc (w.allocs + 1 + 1) with
  | none => exact ⟨w₂, .error .enomem, rfl, hw, by rintro _ ⟨⟩, by rintro ⟨⟩⟩
  | some cur =>
      obtain ⟨w₃, hw₃, hbase⟩ := @volume_spec d env w₂ b hb (hbest b hb) hreads
      dsimp only
      rw [bind_run, hw₃, Option.bind_some]
      dsimp only
      have hsroot : volSroot (block d (volOff b)) = superRoot d b := rfl
      rw [hsroot, if_neg (not_not.mpr htype)]
      rw [bind_run, readphys_direct href hbase, Option.bind_some]
      cases env.read w₃.reads with
      | false => exact ⟨_, .error .eio, rfl, hbase, by rintro _ ⟨⟩, by rintro ⟨⟩⟩
      | true =>
          obtain ⟨v, res, hv, hs, hok, herr⟩ := @lookup_spec icrc32 d env n depth
            { w₃ with reads := w₃.reads + 1 } (block d (superRoot d b).off)
            (block d (superRoot d b).off) pfsLabel hcrc h hle false iroot htree (by rintro ⟨⟩)
            (.inl fun br hbr => (hall br hbr).1) hbase
          refine ⟨v, res, hv, hs.base.trans hbase, fun root hres => ⟨b, hb, hok root hres⟩, ?_⟩
          rintro hres root ⟨i, hi, hname⟩
          obtain rfl := hb.unique hi
          exact herr _ hres (by decide) root hname

end Mount

/-! ## Open -/

section Open

variable {icrc32 : List UInt8 → UInt32} {d : Mem} {env : Env} {n depth : Nat} {w : World}
  {root : Mem}

/-- No component of more than 64 bytes is the name of an entry of its directory. -/
def LongAbsent (icrc32 : List UInt8 → UInt32) (d : Mem) (n : Nat) (root : Mem) :
    List (List UInt8) → Mem → Prop
  | [], _ => True
  | comp :: comps, ino =>
      (64 < comp.length → ∀ next, ¬ NameLookup icrc32 d n root ino comp next) ∧
        ∀ next, NameLookup icrc32 d n root ino comp next → LongAbsent icrc32 d n root comps next

/-- A directory has a tree. -/
theorem Below.tree (himg : Image d n) {ino : Mem} (h : Below d n ino)
    (htype : inoType ino = objtypeDirectory) :
    directdata ino = false ∧ Tree d n ino ∧ Numbered d n ino := by
  have hdata : directdata ino = false := by
    cases hdata : directdata ino with
    | false => rfl
    | true => exact absurd htype (himg.embedded ino h hdata).2
  exact ⟨hdata, himg.tree ino h hdata⟩

/-- What a name leads to is under the super-root. -/
theorem NameLookup.below (himg : Image d n) (hroot : Below d n root)
    (hroottype : inoType root = objtypeDirectory) {dir next : Mem} {name : List UInt8}
    (hdir : Below d n dir) (htype : inoType dir = objtypeDirectory)
    (h : NameLookup icrc32 d n root dir name next) : Below d n next := by
  cases h with
  | inode hbr _ _ hino => exact hdir.leaf (hdir.tree himg htype).1 hbr hino
  | dirent _ _ _ _ hib _ hino _ => exact hroot.leaf (hroot.tree himg hroottype).1 hib hino

/-- **A walk** comes to the inode to which the components lead. -/
theorem walk_spec (hcrc : Castagnoli icrc32) (himg : Image d n) (h : Quiet env) (hle : n ≤ depth)
    (hroot : Below d n root) (hroottype : inoType root = objtypeDirectory) :
    ∀ (comps : List (List UInt8)) (ino : Mem) (w : World), Below d n ino →
    LongAbsent icrc32 d n root comps ino → w.base = 0 →
    ∃ w' res, walk d env depth root comps ino w = some (res, w') ∧ w'.base = 0 ∧
      (∀ out, res = .ok out → Walks icrc32 d n root comps ino out ∧ Below d n out) ∧
      (res = .error .enoent → ∀ out, ¬ Walks icrc32 d n root comps ino out)
  | [], ino, w, hino, _, hw => by
      refine ⟨w, .ok ino, rfl, hw, ?_, nofun⟩
      rintro _ ⟨⟩
      exact ⟨rfl, hino⟩
  | comp :: comps, ino, w, hino, hlong, hw => by
      rw [walk]
      split
      · exact ⟨w, .error .enotdir, rfl, hw, nofun, nofun⟩
      · rename_i htype
        have htype := not_not.mp htype
        obtain ⟨_, htree, hnum⟩ := hino.tree himg htype
        obtain ⟨_, hrtree, hrnum⟩ := hroot.tree himg hroottype
        obtain ⟨v, res, hv, hs, hok, herr⟩ := @lookup_spec icrc32 d env n depth w root ino comp hcrc h
          hle true root htree (fun _ => hnum) (.inr ⟨rfl, hrtree, hrnum⟩) hw
        show ∃ w' res, (lookup d env depth true root ino comp w).bind _ = _ ∧ _
        rw [hv, Option.bind_some]
        cases res with
        | error e =>
            refine ⟨v, .error e, rfl, hs.base.trans hw, nofun, ?_⟩
            rintro - out ⟨_, next, hnext, _⟩
            rcases Nat.lt_or_ge 64 comp.length with hlt | hge
            · exact hlong.1 hlt next hnext
            · exact herr e rfl hge next hnext
        | ok next =>
            have hname := hok next rfl
            obtain ⟨v', res', hv', hbase, hok', herr'⟩ := walk_spec hcrc himg h hle hroot hroottype
              comps next v (hname.below himg hroot hroottype hino htype) (hlong.2 next hname)
              (hs.base.trans hw)
            refine ⟨v', res', hv', hbase, fun out hout => ?_, ?_⟩
            · obtain ⟨hwalks, hbelow⟩ := hok' out hout
              exact ⟨⟨htype, next, hname, hwalks⟩, hbelow⟩
            · rintro hres out ⟨_, next', hnext', hwalks⟩
              cases hname.unique htree hrtree hnext'
              exact herr' hres out hwalks

theorem Walks.unique (himg : Image d n) (hroot : Below d n root)
    (hroottype : inoType root = objtypeDirectory) : ∀ {comps : List (List UInt8)}
    {ino out out' : Mem}, Below d n ino → Walks icrc32 d n root comps ino out →
    Walks icrc32 d n root comps ino out' → out = out'
  | [], _, _, _, _, h, h' => h.trans h'.symm
  | comp :: comps, ino, out, out', hino, ⟨htype, next, hnext, h⟩, ⟨_, next', hnext', h'⟩ => by
      obtain ⟨_, htree, _⟩ := hino.tree himg htype
      obtain ⟨_, hrtree, _⟩ := hroot.tree himg hroottype
      cases hnext.unique htree hrtree hnext'
      exact Walks.unique himg hroot hroottype
        (hnext.below himg hroot hroottype hino htype) h h'

/-- A path leads to one inode. -/
theorem Resolves.unique (himg : Image d n) {path : List UInt8} {out out' : Mem}
    (h : Resolves icrc32 d n path out) (h' : Resolves icrc32 d n path out') : out = out' := by
  obtain ⟨root, hroot, hwalks⟩ := h
  obtain ⟨root', hroot', hwalks'⟩ := h'
  cases hroot.unique himg hroot'
  obtain ⟨hbelow, htype⟩ := hroot.below himg
  exact hwalks.unique himg hbelow htype hbelow hwalks'

/-- **Opening a file.** -/
theorem open_spec (hcrc : Castagnoli icrc32) (himg : Image d n) (h : Quiet env) (hle : n ≤ depth)
    (hbest : ∀ b, Best d b → env.read b = true) {path : List UInt8}
    (hpath : ∀ c ∈ splitPath path, c.length ≤ 255)
    (hlong : ∀ root, RootInode icrc32 d n root → LongAbsent icrc32 d n root (splitPath path) root)
    (hw : w.base = 0) (hreads : w.reads = 0) :
    ∃ w' res, open_ d env depth path w = some (res, w') ∧ w'.base = 0 ∧
      (∀ f, res = .ok f → Resolves icrc32 d n path f.ino ∧ Below d n f.ino ∧ f.seek = 0) ∧
      (res = .error .enoent → ∀ out, ¬ Resolves icrc32 d n path out) := by
  let w₁ : World := { w with allocs := w.allocs + 1 }
  have halloc : alloc env w = some (env.alloc w.allocs, w₁) := rfl
  rw [open_, bind_run, halloc, Option.bind_some]
  cases env.alloc w.allocs with
  | none => exact ⟨w₁, .error .enomem, rfl, hw, nofun, nofun⟩
  | some fp =>
      obtain ⟨v, res, hv, hbase, hok, herr⟩ :=
        @mount_spec icrc32 d env n depth w₁ hcrc himg h hle hbest hw hreads fun _ => 0
      show ∃ w' res, (mount d env depth (fun _ => 0) w₁).bind _ = _ ∧ _
      rw [hv, Option.bind_some]
      cases res with
      | error e =>
          refine ⟨v, .error e, rfl, hbase, nofun, ?_⟩
          rintro ⟨⟩ out ⟨root, hroot, _⟩
          exact herr rfl root hroot
      | ok root =>
          have hroot := hok root rfl
          obtain ⟨hbelow, htype⟩ := hroot.below himg
          obtain ⟨u, res, hu, hbase', hok', herr'⟩ := walk_spec hcrc himg h hle hbelow htype
            (splitPath path) root v hbelow (hlong root hroot) hbase
          show ∃ w' res, (walk d env depth root (components path []) root v).bind _ = _ ∧ _
          rw [components_path hpath, hu, Option.bind_some]
          cases res with
          | error e =>
              refine ⟨u, .error e, rfl, hbase', nofun, ?_⟩
              rintro ⟨⟩ out ⟨root', hroot', hwalks⟩
              cases hroot.unique himg hroot'
              exact herr' rfl out hwalks
          | ok out =>
              obtain ⟨hwalks, hout⟩ := hok' out rfl
              refine ⟨u, _, rfl, hbase', ?_, nofun⟩
              rintro _ ⟨⟩
              exact ⟨⟨root, hroot, hwalks⟩, hout, rfl⟩

end Open

end Hammer2.Boot
