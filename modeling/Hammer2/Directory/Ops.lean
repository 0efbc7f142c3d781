/-
# `Hammer2.Directory.Ops` — the namespace operations of a PFS

The vnode operations that change directory entries and link counts, with their backends.  The
kernel resolves the names an operation is given before it calls it; `apply` does both.

    dirent_create       hammer2_dirent_create and hammer2_xop_inode_mkdirent
    xop_nresolve        the inode a name stands for
    xop_unlink          takes an entry out, returns its inode
    xop_nrename         moves an entry, replacing the entry of the target name
    unlink_finisher     the frontend's half of a removed entry

What the media refuses is an input of each operation (`DirentFaults`, `RenameFaults`).  An
inode is `none` once its deletion reached the media (`destroy`).  `nlinks` counts entries, of
which no volume holds 2^63, so its cast to a signed integer is left out.
-/
import Hammer2.Directory.Entry
import Hammer2.Lib.Machine
import Mathlib.Logic.Function.Basic

namespace Hammer2.Dir

/-- The vnode of an inode: not attached, in use, or attached and let go. -/
inductive Vnode where
  | none | active | inactive
deriving DecidableEq, Repr

structure Inode where
  type : ObjType
  mode : Nat
  nlinks : Nat
  isunlinked : Bool
  deleting : Bool
  vp : Vnode
deriving DecidableEq, Repr

/-- One PFS: the inode number counter, the inodes, the entries of each directory. -/
structure Pfs where
  inode_tid : Nat
  inodes : Nat → Option Inode
  dirs : Nat → Directory

namespace Pfs

def setDir (s : Pfs) (d : Nat) (dir : Directory) : Pfs :=
  { s with dirs := Function.update s.dirs d dir }

def setInode (s : Pfs) (i : Nat) (ip : Option Inode) : Pfs :=
  { s with inodes := Function.update s.inodes i ip }

def mapInode (s : Pfs) (i : Nat) (f : Inode → Inode) : Pfs :=
  s.setInode i ((s.inodes i).map f)

def isDir (s : Pfs) (d : Nat) : Bool :=
  (s.inodes d).any fun ip => ip.type == .directory

end Pfs

/-- How the creation of an entry fails: before the entry exists, or after a zeroed entry was
put into the directory. -/
inductive MkdirentFault where
  | none
  | before (e : MediaError)
  | after (e : MediaError)
deriving DecidableEq, Repr

structure DirentFaults where
  scan : Option MediaError
  mkdirent : MkdirentFault
deriving DecidableEq, Repr

/-- The steps of a rename the media can fail: the scan of the target's bucket, the deletion of
the source entry, the change of its name, the walk over the entries of the target name, the
creation. -/
structure RenameFaults where
  scan : Option MediaError
  delete : Option MediaError
  adjust : Option MediaError
  target : Option MediaError
  create : Option MediaError
deriving DecidableEq, Repr

/-! ## The backends -/

/-- The name goes into the blockref, or into a data block when it is too long for it. -/
def Dirent.setName (e : Dirent) (name : List UInt8) : Dirent :=
  if name.length ≤ 64 then
    { e with namlen := name.length, check_buf := copyName 64 name, data := none }
  else
    { e with namlen := name.length, data := some (copyName 1024 name) }

/-- A new chain of type DIRENT, before its fields are set. -/
def Dirent.zeroed (lhc : Nat) : Dirent :=
  { key := lhc, inum := 0, namlen := 0, type := .unknown, check_buf := List.replicate 64 0, data := none }

def xop_inode_mkdirent (dir : Directory) (lhc : Nat) (name : List UInt8) (inum : Nat) (type : ObjType)
    (fault : MkdirentFault) : Directory × Except Error Unit :=
  if lookup dir lhc lhc ≠ [] then
    (dir, .error .eexist)
  else
    match fault with
    | .before e => (dir, .error e.toError)
    | .after e => (chain_create dir (Dirent.zeroed lhc), .error e.toError)
    | .none =>
        (chain_create dir ({ Dirent.zeroed lhc with inum := inum, type := type }.setName name), .ok ())

section

variable (icrc32 : List UInt8 → UInt32)

/-- `hammer2_dirent_create`. -/
def dirent_create (dir : Directory) (name : Name) (inum : Nat) (type : ObjType) (f : DirentFaults) :
    Directory × Except Error Unit :=
  match free_lhc icrc32 dir name.bytes f.scan with
  | .error e => (dir, .error e)
  | .ok lhc => xop_inode_mkdirent dir lhc name.bytes inum type f.mkdirent

/-- `hammer2_xop_nresolve`: the entry, then its inode (`hammer2_chain_inode_find`). -/
def xop_nresolve (s : Pfs) (dip : Nat) (name : Name) : Option Nat :=
  match find icrc32 (s.dirs dip) name.bytes with
  | none => none
  | some chain => if (s.inodes chain.inum).isSome then some chain.inum else none

/-- No entry in the visible part of the directory's keys. -/
def checkdirempty (s : Pfs) (inum : Nat) : Bool :=
  lookup (s.dirs inum) DIRHASH_VISIBLE KEY_MAX == []

/-- `hammer2_xop_unlink`, as the vnode operations call it (`dopermanent` is 0). -/
def xop_unlink (s : Pfs) (dip : Nat) (name : Name) (isdir : Bool) (fault : Option MediaError) :
    Pfs × Except Error Nat :=
  match find icrc32 (s.dirs dip) name.bytes with
  | none => (s, .error .enoent)
  | some chain =>
      if chain.type = .directory ∧ isdir = false then
        (s, .error .eisdir)
      else if chain.type = .directory ∧ checkdirempty s chain.inum = false then
        (s, .error .enotempty)
      else if chain.type ≠ .directory ∧ isdir = true then
        (s, .error .enotdir)
      else
        match fault with
        | some e => (s, .error e.toError)
        | none =>
            let s' := s.setDir dip (chain_delete (s.dirs dip) chain.key)
            if (s'.inodes chain.inum).isSome then (s', .ok chain.inum) else (s', .error .enoent)

/-- The renamed chain: its name is written again unless key and name are what they were. -/
def renamed (chain : Dirent) (lhc : Nat) (name1 name2 : List UInt8) (adjust : Option MediaError) :
    Except Error Dirent :=
  if chain.key ≠ lhc ∨ name1 ≠ name2 then
    match adjust with
    | some e => .error e.toError
    | none => .ok (chain.setName name2)
  else
    .ok chain

/-- "Delete all matching directory entries", in the bucket the key lies in. -/
def delete_matching (dir : Directory) (lhc : Nat) (name : List UInt8) : Directory :=
  let base := lhc / (DIRHASH_LOMASK + 1) * (DIRHASH_LOMASK + 1)
  dir.filter fun e => !(decide (base ≤ e.key) && decide (e.key ≤ base + DIRHASH_LOMASK) && dirent_test e name)

/-- `hammer2_xop_nrename`, for an inode whose name is a directory entry.  After the source
entry is deleted every failure leaves it deleted. -/
def xop_nrename (s : Pfs) (fdip tdip : Nat) (ip4 : Option Nat) (lhc : Nat) (name1 name2 : Name)
    (f : RenameFaults) : Pfs × Except Error Unit :=
  if ip4.any (fun ip => !checkdirempty s ip) then
    (s, .error .enotempty)
  else
    match find icrc32 (s.dirs fdip) name1.bytes with
    | none => (s, .error .enoent)
    | some chain =>
        match f.delete with
        | some e => (s, .error e.toError)
        | none =>
            let s := s.setDir fdip (chain_delete (s.dirs fdip) chain.key)
            match renamed chain lhc name1.bytes name2.bytes f.adjust with
            | .error e => (s, .error e)
            | .ok chain =>
                match f.target with
                | some e => (s, .error e.toError)
                | none =>
                    let s := s.setDir tdip (delete_matching (s.dirs tdip) lhc name2.bytes)
                    match f.create with
                    | some e => (s, .error e.toError)
                    | none =>
                        (s.setDir tdip (chain_create (s.dirs tdip) { chain with key := lhc }), .ok ())

/-! ## The frontends -/

/-- `hammer2_inode_unlink_finisher`. -/
def unlink_finisher (ip : Inode) : Inode :=
  if 1 < ip.nlinks then
    { ip with nlinks := ip.nlinks - 1 }
  else
    match ip.vp with
    | .none => { ip with isunlinked := true, deleting := true }
    | _ => { ip with isunlinked := true, nlinks := 0 }

/-- `hammer2_igetv`. -/
def igetv (ip : Inode) : Inode := { ip with vp := .active }

/-- `hammer2_inactive`; an inode of mode 0 is only recycled. -/
def inactive (ip : Inode) : Inode :=
  if ip.mode = 0 then
    { ip with vp := .inactive }
  else
    { ip with vp := .inactive, deleting := ip.deleting || ip.isunlinked }

/-- `hammer2_reclaim`. -/
def reclaim (ip : Inode) : Inode :=
  { ip with vp := .none, deleting := ip.deleting || ip.isunlinked }

/-- `hammer2_inode_create_normal`. -/
def inode_create_normal (type : ObjType) (mode : Nat) : Inode :=
  { type := type, mode := mode, nlinks := 1, isunlinked := false, deleting := false, vp := .none }

/-- `hammer2_create`, `hammer2_mkdir`, `hammer2_mknod` and `hammer2_symlink`.  `det` is the
error of the inode's creation; `vget` is false when no vnode can be had for the new inode. -/
def create (s : Pfs) (dip : Nat) (name : Name) (type : ObjType) (mode : Nat) (det : Option MediaError)
    (f : DirentFaults) (vget : Bool) : Pfs × Except Error Unit :=
  let inum := s.inode_tid
  let s := { s with inode_tid := inum + 1 }
  let nip := inode_create_normal type mode
  match det with
  | some e => (s.setInode inum (some (unlink_finisher nip)), .error e.toError)
  | none =>
      match dirent_create icrc32 (s.dirs dip) name inum type f with
      | (dir, .error e) => ((s.setDir dip dir).setInode inum (some (unlink_finisher nip)), .error e)
      | (dir, .ok ()) =>
          ((s.setDir dip dir).setInode inum (some (if vget then igetv nip else nip)), .ok ())

/-- `hammer2_link`: `nlinks` is bumped whether or not the entry was created. -/
def link (s : Pfs) (ip tdip : Nat) (name : Name) (f : DirentFaults) : Pfs × Except Error Unit :=
  let type := ((s.inodes ip).map (·.type)).getD .unknown
  let (dir, r) := dirent_create icrc32 (s.dirs tdip) name ip type f
  ((s.setDir tdip dir).mapInode ip fun i => { i with nlinks := i.nlinks + 1 }, r)

/-- `hammer2_remove` (`isdir` false) and `hammer2_rmdir` (`isdir` true). -/
def unlink (s : Pfs) (dip : Nat) (name : Name) (isdir : Bool) (fault : Option MediaError) :
    Pfs × Except Error Unit :=
  match xop_unlink icrc32 s dip name isdir fault with
  | (s, .error e) => (s, .error e)
  | (s, .ok ip) => (s.mapInode ip unlink_finisher, .ok ())

/-- The end of a rename: the link of the replaced target is taken away. -/
def unlink_target (s : Pfs) (tip : Option Nat) : Pfs :=
  match tip with
  | some ip => s.mapInode ip unlink_finisher
  | none => s

/-- `hammer2_rename`, between two names of different inodes.  An entry the backend did not find
counts as renamed. -/
def rename (s : Pfs) (fdip : Nat) (fname : Name) (tdip : Nat) (tname : Name) (tip : Option Nat)
    (f : RenameFaults) : Pfs × Except Error Unit :=
  match free_lhc icrc32 (s.dirs tdip) tname.bytes f.scan with
  | .error e => (s, .error e)
  | .ok tlhc =>
      match xop_nrename icrc32 s fdip tdip (tip.filter s.isDir) tlhc fname tname f with
      | (s, .error e) => if e = .enoent then (unlink_target s tip, .ok ()) else (s, .error e)
      | (s, .ok ()) => (unlink_target s tip, .ok ())

/-! ## The machine -/

/-- The system calls, and what happens to vnodes and unlinked inodes in between. -/
inductive Op where
  | create (dip : Nat) (name : Name) (type : ObjType) (mode : Nat) (det : Option MediaError)
      (f : DirentFaults) (vget : Bool)
  | link (sdip : Nat) (sname : Name) (tdip : Nat) (tname : Name) (f : DirentFaults)
  | unlink (dip : Nat) (name : Name) (isdir : Bool) (fault : Option MediaError)
  | rename (fdip : Nat) (fname : Name) (tdip : Nat) (tname : Name) (f : RenameFaults)
  | lookup (dip : Nat) (name : Name)
  | inactive (inum : Nat)
  | reclaim (inum : Nat)
  | destroy (inum : Nat)
deriving DecidableEq

/-- An operation as the kernel issues it: names are resolved, and their inodes get vnodes,
before the vnode operation runs.  `none` when it cannot happen. -/
def apply (s : Pfs) : Op → Option (Pfs × Except Error Unit)
  | .create dip name type mode det f vget =>
      if s.isDir dip then
        match xop_nresolve icrc32 s dip name with
        | some _ => some (s, .error .eexist)
        | none => some (create icrc32 s dip name type mode det f vget)
      else none
  | .link sdip sname tdip tname f =>
      if s.isDir tdip then
        match xop_nresolve icrc32 s sdip sname with
        | none => some (s, .error .enoent)
        | some ip =>
            match xop_nresolve icrc32 s tdip tname with
            | some _ => some (s, .error .eexist)
            | none => some (link icrc32 (s.mapInode ip igetv) ip tdip tname f)
      else none
  | .unlink dip name isdir fault =>
      if s.isDir dip then
        match xop_nresolve icrc32 s dip name with
        | none => some (s, .error .enoent)
        | some ip =>
            if isdir = true ∧ ip = dip then some (s, .error .einval)
            else some (unlink icrc32 (s.mapInode ip igetv) dip name isdir fault)
      else none
  | .rename fdip fname tdip tname f =>
      if s.isDir fdip ∧ s.isDir tdip then
        match xop_nresolve icrc32 s fdip fname with
        | none => some (s, .error .enoent)
        | some fip =>
            match xop_nresolve icrc32 s tdip tname with
            | none => some (rename icrc32 (s.mapInode fip igetv) fdip fname tdip tname none f)
            | some tip =>
                if tip = fip then some (s, .ok ())
                else
                  some (rename icrc32 ((s.mapInode fip igetv).mapInode tip igetv) fdip fname tdip tname
                    (some tip) f)
      else none
  | .lookup dip name =>
      match xop_nresolve icrc32 s dip name with
      | none => some (s, .error .enoent)
      | some ip => some (s.mapInode ip igetv, .ok ())
  | .inactive inum =>
      if (s.inodes inum).any (fun ip => ip.vp == .active) then some (s.mapInode inum inactive, .ok ())
      else none
  | .reclaim inum =>
      if (s.inodes inum).any (fun ip => ip.vp != .none) then some (s.mapInode inum reclaim, .ok ())
      else none
  | .destroy inum =>
      if (s.inodes inum).any (fun ip => ip.deleting) then
        some ((s.setInode inum none).setDir inum [], .ok ())
      else none

def step (s : Pfs) (op : Op) : Option Pfs := (apply icrc32 s op).map (·.1)

end

/-- A new PFS: the root directory, whose own name is in the super-root. -/
def newfs : Pfs :=
  { inode_tid := 17
    inodes := Function.update (fun _ => none) 1 (some
      { type := .directory, mode := 0o755, nlinks := 1, isunlinked := false, deleting := false, vp := .active })
    dirs := fun _ => [] }

/-! ## What the backends do to a directory -/

@[simp] theorem setName_key (e : Dirent) (name : List UInt8) : (e.setName name).key = e.key := by
  by_cases h : name.length ≤ 64 <;> simp [Dirent.setName, h]

@[simp] theorem setName_inum (e : Dirent) (name : List UInt8) : (e.setName name).inum = e.inum := by
  by_cases h : name.length ≤ 64 <;> simp [Dirent.setName, h]

@[simp] theorem setName_type (e : Dirent) (name : List UInt8) : (e.setName name).type = e.type := by
  by_cases h : name.length ≤ 64 <;> simp [Dirent.setName, h]

@[simp] theorem setName_namlen (e : Dirent) (name : List UInt8) :
    (e.setName name).namlen = name.length := by
  by_cases h : name.length ≤ 64 <;> simp [Dirent.setName, h]

/-- Both forms of storage give the name back. -/
theorem setName_name (e : Dirent) (name : List UInt8) : (e.setName name).name = name := by
  by_cases h : name.length ≤ 64
  · simp only [Dirent.name, Dirent.setName, if_pos h, copyName]
    rw [if_neg (by omega), List.take_left]
  · simp only [Dirent.name, Dirent.setName, if_neg h, copyName, Option.getD_some]
    rw [if_pos (by omega), List.take_left]

@[simp] theorem zeroed_name (lhc : Nat) : (Dirent.zeroed lhc).name = [] := rfl

variable {icrc32 : List UInt8 → UInt32} {dir dir' : Directory}

/-- The keys of a bucket are visible keys. -/
theorem bucket_visible {name : List UInt8} {lhc : Nat} (hlo : dirhash icrc32 name ≤ lhc)
    (hhi : lhc ≤ dirhash icrc32 name + DIRHASH_LOMASK) : DIRHASH_VISIBLE ≤ lhc ∧ lhc ≤ KEY_MAX := by
  have hvisible := visible_le_dirhash icrc32 name
  have hmax := dirhash_add_le icrc32 name
  exact ⟨by omega, by omega⟩

/-- A zeroed entry at an unused key names nothing, and harms nothing. -/
theorem WellFormed.create_zeroed (h : WellFormed icrc32 dir) {lhc : Nat}
    (hvisible : DIRHASH_VISIBLE ≤ lhc ∧ lhc ≤ KEY_MAX) (hfree : ∀ e ∈ dir, e.key ≠ lhc) :
    WellFormed icrc32 (chain_create dir (Dirent.zeroed lhc)) :=
  h.create rfl hvisible (fun hne => absurd rfl hne) hfree fun _ _ hne => absurd rfl hne

/-- The key handed to `hammer2_xop_inode_mkdirent` is never in use. -/
theorem lookup_free {lhc : Nat} (hfree : ∀ e ∈ dir, e.key ≠ lhc) : lookup dir lhc lhc = [] := by
  refine List.filter_eq_nil_iff.mpr fun e he hk => hfree e he ?_
  simp only [Bool.and_eq_true, decide_eq_true_eq] at hk
  omega

/-- A created entry carries the name, the inode and the type, at the key the scan picked. -/
theorem dirent_create_ok (h : WellFormed icrc32 dir) {name : Name} {inum : Nat} {type : ObjType}
    {f : DirentFaults} (hnew : ∀ e ∈ dir, e.name ≠ name.bytes)
    (hrun : dirent_create icrc32 dir name inum type f = (dir', .ok ())) :
    ∃ e, dir' = chain_create dir e ∧ e.name = name.bytes ∧ e.inum = inum ∧ e.type = type ∧
      free_lhc icrc32 dir name.bytes f.scan = .ok e.key ∧ WellFormed icrc32 dir' := by
  simp only [dirent_create] at hrun
  split at hrun
  · simp at hrun
  · rename_i lhc hlhc
    obtain ⟨hlo, hhi, hfree⟩ := h.free_lhc_ok hlhc
    simp only [xop_inode_mkdirent, lookup_free hfree, ne_eq, not_true_eq_false, if_false] at hrun
    split at hrun
    · simp at hrun
    · simp at hrun
    · obtain rfl : chain_create dir
          (({ Dirent.zeroed lhc with inum := inum, type := type } : Dirent).setName name.bytes) = dir' := by
        simpa using hrun
      refine ⟨_, rfl, setName_name _ _, by simp, by simp, by simpa [Dirent.zeroed] using hlhc, ?_⟩
      refine h.create (by rw [setName_name, setName_namlen]) ?_ ?_ ?_ ?_
      · simpa [Dirent.zeroed] using bucket_visible hlo hhi
      · intro _
        rw [setName_name]
        simpa [Dirent.zeroed] using And.intro hlo hhi
      · simpa [Dirent.zeroed] using hfree
      · intro e he _
        rw [setName_name]
        exact hnew e he

/-- A failed creation leaves the directory alone, or leaves a zeroed entry behind. -/
theorem dirent_create_error (h : WellFormed icrc32 dir) {name : Name} {inum : Nat} {type : ObjType}
    {f : DirentFaults} {err : Error}
    (hrun : dirent_create icrc32 dir name inum type f = (dir', .error err)) :
    dir' = dir ∨ ∃ lhc, f.mkdirent ≠ .none ∧ dir' = chain_create dir (Dirent.zeroed lhc) ∧
      WellFormed icrc32 dir' := by
  simp only [dirent_create] at hrun
  split at hrun
  · exact .inl (by simpa using (Prod.mk.inj hrun).1.symm)
  · rename_i lhc hlhc
    obtain ⟨hlo, hhi, hfree⟩ := h.free_lhc_ok hlhc
    simp only [xop_inode_mkdirent, lookup_free hfree, ne_eq, not_true_eq_false, if_false] at hrun
    split at hrun
    · exact .inl (Prod.mk.inj hrun).1.symm
    · rename_i e hf
      refine .inr ⟨lhc, by simp [hf], (Prod.mk.inj hrun).1.symm, ?_⟩
      rw [← (Prod.mk.inj hrun).1]
      exact h.create_zeroed (bucket_visible hlo hhi) hfree
    · simp at hrun

/-- The creation never meets a used key. -/
theorem dirent_create_ne_eexist (h : WellFormed icrc32 dir) (name : Name) (inum : Nat) (type : ObjType)
    (f : DirentFaults) : (dirent_create icrc32 dir name inum type f).2 ≠ .error .eexist := by
  simp only [dirent_create]
  cases hlhc : free_lhc icrc32 dir name.bytes f.scan with
  | error e =>
      simp only [free_lhc] at hlhc
      split at hlhc
      · rename_i err herr
        obtain ⟨m, _, rfl⟩ := scanlhc_error herr
        obtain rfl : m.toError = e := by simpa using hlhc
        cases m <;> simp [MediaError.toError]
      · split at hlhc
        · obtain rfl : Error.enospc = e := by simpa using hlhc
          simp
        · simp at hlhc
  | ok lhc =>
      simp only [xop_inode_mkdirent, lookup_free (h.free_lhc_ok hlhc).2.2, ne_eq, not_true_eq_false, if_false]
      cases f.mkdirent with
      | none => simp
      | before e => cases e <;> simp [MediaError.toError]
      | after e => cases e <;> simp [MediaError.toError]

/-- With room on the media the creation fails with ENOSPC only when the scan finds no key. -/
theorem dirent_create_enospc (h : WellFormed icrc32 dir) {name : Name} {inum : Nat} {type : ObjType}
    {f : DirentFaults} (hrun : (dirent_create icrc32 dir name inum type f).2 = .error .enospc)
    (hbefore : f.mkdirent ≠ .before .enospc) (hafter : f.mkdirent ≠ .after .enospc) :
    free_lhc icrc32 dir name.bytes f.scan = .error .enospc := by
  simp only [dirent_create] at hrun
  cases hlhc : free_lhc icrc32 dir name.bytes f.scan with
  | error e => simpa [hlhc] using hrun
  | ok lhc =>
      simp only [hlhc, xop_inode_mkdirent, lookup_free (h.free_lhc_ok hlhc).2.2, ne_eq, not_true_eq_false,
        if_false] at hrun
      cases hm : f.mkdirent with
      | none => simp [hm] at hrun
      | before e => cases e <;> simp_all [MediaError.toError]
      | after e => cases e <;> simp_all [MediaError.toError]

/-- The chain of a rename carries the new name, of the same inode. -/
theorem renamed_ok {chain c : Dirent} {lhc : Nat} {name1 name2 : List UInt8} {adjust : Option MediaError}
    (hrun : renamed chain lhc name1 name2 adjust = .ok c) (hname : chain.name = name1)
    (hstored : chain.name.length = chain.namlen) :
    c.name = name2 ∧ c.inum = chain.inum ∧ c.type = chain.type ∧ c.name.length = c.namlen := by
  simp only [renamed] at hrun
  split at hrun
  · cases adjust with
    | some e => simp at hrun
    | none =>
        obtain rfl : chain.setName name2 = c := by simpa using hrun
        exact ⟨setName_name _ _, by simp, by simp, by rw [setName_name, setName_namlen]⟩
  · rename_i hsame
    obtain rfl : chain = c := by simpa using hrun
    obtain ⟨_, rfl⟩ : chain.key = lhc ∧ name1 = name2 := by simpa using hsame
    exact ⟨hname, rfl, rfl, hstored⟩

theorem MediaError.toError_ne (e : MediaError) : e.toError ≠ .enoent := by
  cases e <;> simp [MediaError.toError]

theorem renamed_error {chain : Dirent} {lhc : Nat} {name1 name2 : List UInt8} {adjust : Option MediaError}
    {err : Error} (hrun : renamed chain lhc name1 name2 adjust = .error err) :
    adjust ≠ none ∧ err ≠ .enoent := by
  simp only [renamed] at hrun
  split at hrun
  · cases adjust with
    | none => simp at hrun
    | some e =>
        obtain rfl : e.toError = err := by simpa using hrun
        exact ⟨by simp, e.toError_ne⟩
  · simp at hrun

/-- The target deletion takes out the entry of the name, and nothing else. -/
theorem delete_matching_eq (h : WellFormed icrc32 dir) {lhc : Nat} {name : Name}
    (hlo : dirhash icrc32 name.bytes ≤ lhc) (hhi : lhc ≤ dirhash icrc32 name.bytes + DIRHASH_LOMASK) :
    delete_matching dir lhc name.bytes = dir.filter fun e => decide (e.name ≠ name.bytes) := by
  have hmod := dirhash_mod icrc32 name.bytes
  have hbase : lhc / (DIRHASH_LOMASK + 1) * (DIRHASH_LOMASK + 1) = dirhash icrc32 name.bytes := by
    simp only [DIRHASH_LOMASK] at *
    omega
  simp only [delete_matching, hbase]
  refine List.filter_congr fun e he => ?_
  have htest := dirent_test_iff (h.stored e he) name.nonempty
  by_cases hname : e.name = name.bytes
  · have hplaced := h.placed e he (hname ▸ name.nonempty)
    rw [hname] at hplaced
    simp [hname, htest.mpr hname, hplaced]
  · have hno : dirent_test e name.bytes = false := by
      simpa using fun hyes => hname (htest.mp hyes)
    simp [hname, hno]

/-- An empty scan of the visible keys: no entry at all. -/
theorem dirs_of_checkdirempty {s : Pfs} {i : Nat} (h : WellFormed icrc32 (s.dirs i))
    (hempty : checkdirempty s i = true) : s.dirs i = [] := by
  have hnil : lookup (s.dirs i) DIRHASH_VISIBLE KEY_MAX = [] := by simpa [checkdirempty] using hempty
  refine List.eq_nil_iff_forall_not_mem.mpr fun e he => ?_
  have hmem := mem_lookup.mpr ⟨he, h.visible e he⟩
  simp [hnil] at hmem

end Hammer2.Dir
