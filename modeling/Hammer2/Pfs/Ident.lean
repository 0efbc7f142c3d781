/-
# `Hammer2.Pfs.Ident` — inode numbers and modify_tids of the PFSs of a device

Each PFS hands out inode numbers (`hammer2_trans_newinum`) and modify_tids
(`hammer2_trans_sub`) from two counters of its `hammer2_pfs`.  The counters live in memory
only: `hammer2_root` primes them from the root inode on the media, the flush of the root
writes `pfs_inum` and propagates `modify_tid` upwards, and the snapshot ioctl sets the new
PFS up by hand.

    Bref       a blockref with the block it points to
    Chain      an in-memory chain: its bref, its data, and the flush flags
    Dev        a mounted device: the chains, the PFSs, the super-root in memory, in
               `hmp->voldata` and on the media
    step       one operation, header write or crash

Blocks are never overwritten in place, so a blockref stands for the content it was flushed
with.  The flush is one event for each chain (the bottom half of `hammer2_flush_core`), in
any order and interleaved with anything.
-/
import Mathlib.Logic.Function.Basic
import Hammer2.Lib.Machine

namespace Hammer2.Ident

/-! ## Blockrefs -/

inductive BrefType
  | inode
  | pfsroot
  | other
deriving DecidableEq

/-- A blockref and what the block holds: `meta.pfs_inum` of a PFS root inode, and the
blockset (or the block table of an indirect block).  An inode's key is its number, a PFS
root's key the hash of its name. -/
structure Bref where
  type : BrefType
  key : Nat
  modifyTid : Nat
  pfsInum : Nat
  blockset : List Bref

/-- The entry of a block table with the given key. -/
def slot (base : List Bref) (key : Nat) : Option Bref := base.find? (fun e => e.key = key)

/-- `hammer2_base_delete`. -/
def baseDelete (base : List Bref) (key : Nat) : List Bref := base.filter (fun e => e.key ≠ key)

/-- `hammer2_base_insert`, over the old entry of the key when there is one. -/
def baseInsert (base : List Bref) (bref : Bref) : List Bref := bref :: baseDelete base bref.key

/-! ## Chains and PFSs -/

/-- The root inode's chain of a PFS (by the PFS's key in the super-root), or any other. -/
inductive ChainId
  | iroot (pfs : Nat)
  | node (n : Nat)
deriving DecidableEq

/-- An in-memory chain.  The parent of a PFS root is the super-root, which is not listed. -/
structure Chain where
  bref : Bref
  parent : Option ChainId
  modified : Bool
  update : Bool
  pmp : Option Nat

/-- The counters of a `hammer2_pfs`, whether it is mounted, `pfs_iroot_blocksets[0]`, and
the ids that operations under way hold. -/
structure Pmp where
  modifyTid : Nat
  inodeTid : Nat
  mounted : Bool
  irootBlockset : List Bref
  mtids : List Nat
  inums : List Nat

/-- `hammer2_trans_sub`: the id handed out, and the PFS after it. -/
def transSub (pmp : Pmp) : Nat × Pmp :=
  (pmp.modifyTid, { pmp with modifyTid := pmp.modifyTid + 1 })

/-- `hammer2_trans_newinum`. -/
def transNewinum (pmp : Pmp) : Nat × Pmp :=
  (pmp.inodeTid, { pmp with inodeTid := pmp.inodeTid + 1 })

/-- `HAMMER2_INODE_START` -/
def inodeStart : Nat := 1024

/-- The loop of `hammer2_root` once the collect succeeds; `focus` is the root inode's chain. -/
def root (pmp : Pmp) (focus : Bref) : Pmp :=
  if pmp.inodeTid = 0 then
    let inodeTid := focus.pfsInum + 1
    { pmp with
      inodeTid := if inodeTid < inodeStart then inodeStart else inodeTid
      modifyTid := focus.modifyTid + 1 }
  else
    pmp

/-- What `hammer2_chain_modify` does to the flags and to `bref.modify_tid`. -/
def chainModify (chain : Chain) (mtid : Nat) : Chain :=
  { chain with
    modified := true
    update := true
    bref := { chain.bref with modifyTid := if mtid ≠ 0 then mtid else chain.bref.modifyTid } }

def Chain.setBlockset (chain : Chain) (base : List Bref) : Chain :=
  { chain with bref := { chain.bref with blockset := base } }

/-! ## The device -/

structure Dev where
  chains : ChainId → Option Chain
  pmps : Nat → Pmp
  spmpTid : Nat
  sroot : Bref
  voldata : Bref
  media : Bref

def Dev.setChain (s : Dev) (id : ChainId) (chain : Chain) : Dev :=
  { s with chains := Function.update s.chains id (some chain) }

def Dev.setPmp (s : Dev) (pfs : Nat) (pmp : Pmp) : Dev :=
  { s with pmps := Function.update s.pmps pfs pmp }

/-- A zeroed `hammer2_pfs`. -/
def Pmp.zero : Pmp := ⟨0, 0, false, [], [], []⟩

/-- `hammer2_pfsalloc` for the chain of a PFS root. -/
def pfsalloc (chain : Bref) : Pmp := { Pmp.zero with irootBlockset := chain.blockset }

/-- The device mounted from its media, no PFS of it mounted yet. -/
def mountDevice (media : Bref) : Dev where
  chains
    | .iroot pfs => (slot media.blockset pfs).map fun bref =>
        { bref, parent := none, modified := false, update := false, pmp := some pfs }
    | .node _ => none
  pmps pfs :=
    match slot media.blockset pfs with
    | some bref => pfsalloc bref
    | none => Pmp.zero
  spmpTid := media.modifyTid + 1
  sroot := media
  voldata := media
  media := media

/-- The super-root `newfs_hammer2` writes, with an empty PFS for each label. -/
def newfs (labels : List Nat) : Bref :=
  ⟨.inode, 0, 0, 0, labels.map fun key => ⟨.pfsroot, key, 0, 16, []⟩⟩

/-! ## The flush of one chain -/

/-- `hammer2_flush_core` on a MODIFIED chain: the root of a PFS takes `pfs_inum` from its
`hammer2_pfs`, if it has one. -/
def disposeModified (s : Dev) (chain : Chain) : Chain :=
  if chain.modified then
    let pfsInum :=
      match chain.bref.type, chain.pmp with
      | .pfsroot, some pfs => (s.pmps pfs).inodeTid
      | _, _ => chain.bref.pfsInum
    { chain with modified := false, bref := { chain.bref with pfsInum } }
  else
    chain

/-- An inode of a mounted PFS that is flushed outside FLUSH_FSSYNC leaves its parent alone. -/
def skipUpdate (s : Dev) (chain : Chain) (fssync : Bool) : Bool :=
  match chain.bref.type, chain.pmp with
  | .other, _ => false
  | _, some pfs => !fssync && (s.pmps pfs).mounted
  | _, none => false

/-- The parent after `hammer2_chain_modify(parent, 0, 0, 0)` and the blockmap update. -/
def updateParent (parent : Chain) (bref : Bref) : Chain :=
  let parent := chainModify parent 0
  let parent := { parent with bref := { parent.bref with
    modifyTid := max parent.bref.modifyTid bref.modifyTid } }
  parent.setBlockset (baseInsert parent.bref.blockset bref)

/-- The bottom half of `hammer2_flush_core` on one chain; `err` is a failed modification of
the parent. -/
def flushCore (s : Dev) (id : ChainId) (fssync err : Bool) : Option Dev :=
  match s.chains id with
  | none => none
  | some chain =>
    let chain := disposeModified s chain
    if !chain.update || skipUpdate s chain fssync then
      some (s.setChain id chain)
    else
      match id, chain.parent with
      | .iroot _, _ =>
          if err then
            some (s.setChain id chain)
          else
            let sroot := { s.sroot with
              modifyTid := max s.sroot.modifyTid chain.bref.modifyTid
              blockset := baseInsert s.sroot.blockset chain.bref }
            some { s.setChain id { chain with update := false } with sroot }
      | .node _, none => some (s.setChain id { chain with update := false })
      | .node _, some pid =>
          match s.chains pid with
          | none => none
          | some parent =>
              if pid = id then none
              else if err then
                some (s.setChain id chain)
              else
                some ((s.setChain id { chain with update := false }).setChain pid
                  (updateParent parent chain.bref))

/-! ## The snapshot ioctl -/

/-- `hammer2_ioctl_pfs_snapshot` up to the flush of the new root: `create_pfs` takes two ids
of the super-root, and so does `hammer2_inode_chain_sync`, whose inode belongs to it. -/
def pfsSnapshot (s : Dev) (pfs new : Nat) : Option Dev :=
  if (s.pmps pfs).mounted ∧ s.chains (.iroot new) = none then
    let (mtid, pmp) := transSub (s.pmps pfs)
    let startingInum := pmp.inodeTid + 1
    let nchain : Chain :=
      { bref := ⟨.pfsroot, new, 0, 0, []⟩, parent := none, modified := false, update := false,
        pmp := none }
    let nchain := chainModify nchain (s.spmpTid + 1)
    let nchain := chainModify nchain mtid
    let nchain := { nchain with bref := { nchain.bref with
      pfsInum := startingInum, blockset := pmp.irootBlockset } }
    let nchain := chainModify nchain (s.spmpTid + 2)
    some { (s.setPmp pfs pmp).setChain (.iroot new) nchain with spmpTid := s.spmpTid + 3 }
  else
    none

/-- The end of `hammer2_ioctl_pfs_snapshot`: the new root gets its `hammer2_pfs`. -/
def pfsSnapshotAlloc (s : Dev) (new : Nat) : Option Dev :=
  match s.chains (.iroot new) with
  | some nchain =>
      if nchain.pmp = none then
        let startingInum := nchain.bref.pfsInum
        some ((s.setChain (.iroot new) { nchain with pmp := some new }).setPmp new
          { pfsalloc nchain.bref with inodeTid := startingInum })
      else
        none
  | none => none

/-! ## The machine -/

inductive Event
  /-- `hammer2_mount` of a PFS and its `hammer2_root` -/
  | mount (pfs : Nat)
  | unmount (pfs : Nat)
  | transSub (pfs : Nat)
  | newinum (pfs : Nat)
  /-- an id of the super-root is used elsewhere (freemap, PFS ioctls) -/
  | spmpSub
  /-- `hammer2_chain_get` of an entry of a chain's block table -/
  | load (pid : ChainId) (key n : Nat)
  /-- `hammer2_chain_create` -/
  | create (pid : ChainId) (n : Nat) (type : BrefType) (key mtid : Nat)
  /-- `hammer2_chain_modify` -/
  | modify (id : ChainId) (mtid : Nat)
  /-- `hammer2_chain_delete` -/
  | delete (n : Nat) (mtid : Nat)
  /-- `hammer2_chain_delete_obref` and `hammer2_chain_rename_obref`: a chain moves into or out
  of an indirect block -/
  | move (n : Nat) (dst : ChainId) (mtid : Nat)
  | flush (id : ChainId) (fssync err : Bool)
  /-- the end of the root's flush in `hammer2_xop_inode_flush` -/
  | setIrootBlockset (pfs : Nat)
  | snapshot (pfs new : Nat)
  | snapshotAlloc (new : Nat)
  /-- the flush of the super-root and of the volume chain -/
  | flushVolume
  | writeHeader
  /-- a crash, or an unmount of the device, and the next mount of it -/
  | reboot

/-- The chain and its PFS, when that is mounted. -/
def mountedChain (s : Dev) (id : ChainId) : Option (Chain × Nat) :=
  match s.chains id with
  | some chain =>
      match chain.pmp with
      | some pfs => if (s.pmps pfs).mounted then some (chain, pfs) else none
      | none => none
  | none => none

/-- Removes a chain's entry from the block table of its parent. -/
def unmap (parent : Chain) (key mtid : Nat) : Chain :=
  match slot parent.bref.blockset key with
  | some _ => (chainModify parent mtid).setBlockset (baseDelete parent.bref.blockset key)
  | none => parent

/-- Puts the entry a chain had in its old parent into the block table of its new one. -/
def remap (parent : Chain) (obref : Option Bref) (mtid : Nat) : Chain :=
  match obref with
  | some obref => (chainModify parent mtid).setBlockset (baseInsert parent.bref.blockset obref)
  | none => parent

/-- `_hammer2_chain_delete_helper`: the entry goes and the chain is detached. -/
def chainDelete (s : Dev) (n mtid : Nat) (chain : Chain) (pid : ChainId) (parent : Chain) : Dev :=
  (s.setChain (.node n) { chain with parent := none }).setChain pid
    (unmap parent chain.bref.key mtid)

def step (s : Dev) : Event → Option Dev
  | .mount pfs =>
      match s.chains (.iroot pfs) with
      | some chain =>
          if chain.pmp = some pfs then
            some (s.setPmp pfs { root (s.pmps pfs) chain.bref with mounted := true })
          else
            none
      | none => none
  | .unmount pfs => some (s.setPmp pfs { s.pmps pfs with mounted := false })
  | .transSub pfs =>
      if (s.pmps pfs).mounted then
        let (mtid, pmp) := transSub (s.pmps pfs)
        some (s.setPmp pfs { pmp with mtids := mtid :: pmp.mtids })
      else
        none
  | .newinum pfs =>
      if (s.pmps pfs).mounted then
        let (inum, pmp) := transNewinum (s.pmps pfs)
        some (s.setPmp pfs { pmp with inums := inum :: pmp.inums })
      else
        none
  | .spmpSub => some { s with spmpTid := s.spmpTid + 1 }
  | .load pid key n =>
      match mountedChain s pid, s.chains (.node n) with
      | some (parent, pfs), none =>
          match slot parent.bref.blockset key with
          | some bref => some (s.setChain (.node n)
              { bref, parent := some pid, modified := false, update := false, pmp := some pfs })
          | none => none
      | _, _ => none
  | .create pid n type key mtid =>
      match mountedChain s pid, s.chains (.node n) with
      | some (parent, pfs), none =>
          if mtid ∈ (s.pmps pfs).mtids ∧ slot parent.bref.blockset key = none ∧ type ≠ .pfsroot ∧
              (type = .inode → key ∈ (s.pmps pfs).inums) then
            some (s.setChain (.node n) (chainModify
              { bref := ⟨type, key, 0, 0, []⟩, parent := some pid, modified := false,
                update := false, pmp := some pfs } mtid))
          else
            none
      | _, _ => none
  | .modify id mtid =>
      match mountedChain s id with
      | some (chain, pfs) =>
          if mtid ∈ (s.pmps pfs).mtids ∨ mtid = chain.bref.modifyTid then
            some (s.setChain id (chainModify chain mtid))
          else
            none
      | none => none
  | .delete n mtid =>
      match mountedChain s (.node n) with
      | some (chain, pfs) =>
          match chain.parent with
          | some pid =>
              match s.chains pid with
              | some parent =>
                  if pid ≠ .node n ∧ (mtid ∈ (s.pmps pfs).mtids ∨ mtid = chain.bref.modifyTid) then
                    some (chainDelete s n mtid chain pid parent)
                  else
                    none
              | none => none
          | none => none
      | none => none
  | .move n dst mtid =>
      match mountedChain s (.node n), mountedChain s dst with
      | some (chain, pfs), some (target, pfs') =>
          match chain.parent with
          | some pid =>
              match s.chains pid with
              | some parent =>
                  if pid ≠ .node n ∧ dst ≠ .node n ∧ dst ≠ pid ∧ pfs = pfs' ∧
                      (mtid ∈ (s.pmps pfs).mtids ∨ mtid = chain.bref.modifyTid) then
                    let obref := slot parent.bref.blockset chain.bref.key
                    some ((((chainDelete s n mtid chain pid parent).setChain dst
                      (remap target obref mtid))).setChain (.node n)
                        { chain with parent := some dst, update := obref.isNone || chain.update })
                  else
                    none
              | none => none
          | none => none
      | _, _ => none
  | .flush id fssync err => flushCore s id fssync err
  | .setIrootBlockset pfs =>
      match s.chains (.iroot pfs) with
      | some chain =>
          if chain.pmp = some pfs then
            some (s.setPmp pfs { s.pmps pfs with irootBlockset := chain.bref.blockset })
          else
            none
      | none => none
  | .snapshot pfs new => pfsSnapshot s pfs new
  | .snapshotAlloc new => pfsSnapshotAlloc s new
  | .flushVolume => some { s with voldata := s.sroot }
  | .writeHeader => some { s with media := s.voldata }
  | .reboot => some (mountDevice s.media)

end Hammer2.Ident
