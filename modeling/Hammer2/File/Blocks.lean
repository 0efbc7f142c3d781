/-
# `Hammer2.File.Blocks` — blocks of files that share a device

The machine of this module runs block writes, reads, flushes, evictions and
snapshots over one device.  A block is a place in a file that a blockref names:
its chain when it is in memory, the entries of the block tables above it up to its
root (`path`, nearest first), and what the last flush of the root of its PFS left
on the media (`blockset`, `pfs_iroot_blocksets`).  A snapshot adds a PFS whose
blocks start from the blocksets.

`Ok` names the steps for which `Hammer2.File.Isolation` shows that no block changes
what another one refers to.
-/
import Hammer2.File.WriteFrame
import Hammer2.Lib.Machine

namespace Hammer2.File.Isolation

/-! ## States -/

/-- `hammer2_blockref_t` of a block of a file. -/
structure Bref where
  type : BrefType
  dataOff : DataOff
  comp : Nat
  check : Nat
  checkVal : Nat
  mirrorTid : Nat
  modifyTid : Nat
deriving DecidableEq

/-- The chain in memory of a blockref of a block table. -/
def Bref.load (e : Bref) : Chain where
  type := e.type
  dataOff := e.dataOff
  comp := e.comp
  check := e.check
  checkVal := e.checkVal
  mirrorTid := e.mirrorTid
  modifyTid := e.modifyTid
  modified := false
  update := false
  dedupable := false
  initial := false
  blkmapped := true
  blkmapupd := false
  emergMip := false
  notTested := false
  testedGood := false
  data := false
  error := 0

def brefOf (c : Chain) : Bref :=
  ⟨c.type, c.dataOff, c.comp, c.check, c.checkVal, c.mirrorTid, c.modifyTid⟩

/-- What a mounted PFS keeps: `snapping` while a snapshot of it is being made, `true`
for `HAMMER2_PFSFLAGS_NOSYNC`. -/
structure Pfs where
  lsnapTid : Nat
  modifyTid : Nat
  snapping : Option Bool

structure Block where
  pfs : Nat
  chain : Option Chain
  path : List (Option Bref)
  blockset : Option Bref

structure State where
  dev : Dev
  pfss : List Pfs
  blocks : List Block

/-- The entry of the block table the chain hangs under. -/
def Block.table (b : Block) : Option Bref := b.path.head?.join

/-- The chain a lookup finds. -/
def Block.cur (b : Block) : Option Chain :=
  match b.chain with
  | some c => some c
  | none => b.table.map Bref.load

def Block.entries (b : Block) : List Bref := (b.blockset :: b.path).filterMap id

/-- The storage a block refers to, in memory or flushed. -/
def Block.refs (b : Block) : List DataOff :=
  (b.chain.map Chain.dataOff).toList ++ b.entries.map Bref.dataOff

/-! ## Steps -/

def Apart (off r : DataOff) : Prop :=
  r.base = 0 ∨ Memory.Disjoint off.base off.bytes r.base r.bytes

instance (off r : DataOff) : Decidable (Apart off r) := inferInstanceAs (Decidable (_ ∨ _))

/-- None of the bits of the mask of a block are set in `bits`. -/
def unrecorded (off : DataOff) (bits : Nat → Bool) : Bool :=
  (List.range ((off.bytes + (dedupFrag - 1)) / dedupFrag)).all fun i =>
    !bits (off.base / dedupFrag + i)

/-- Storage the allocator may answer with: aligned, referred to by no block, and with
the dedup masks cleared, as `h2_bulkfree_sync_adjust` leaves it. -/
def State.Free (s : State) (off : DataOff) : Prop :=
  off.base % allocMin = 0 ∧ unrecorded off s.dev.dedupValid = true ∧
    ∀ b ∈ s.blocks, ∀ r ∈ b.refs, Apart off r

instance (s : State) (off : DataOff) : Decidable (s.Free off) := by
  delta State.Free
  infer_instance

/-- The sizes of logical blocks. -/
def blockSize (data : Bytes) : Prop :=
  data.length = 2 ^ Nat.clog 2 data.length ∧ radixMin ≤ Nat.clog 2 data.length ∧
    Nat.clog 2 data.length ≤ radixMax

instance (data : Bytes) : Decidable (blockSize data) := inferInstanceAs (Decidable (_ ∧ _))

/-- What happens to one block. -/
inductive BlockEvent where
  /-- `hammer2_write_file_core` with the answers of the allocator. -/
  | write (ip : Inode) (f : Faults) (answers : List (Option DataOff)) (data : Bytes) (mtid : Nat)
  /-- The chain of a new inode, which has the data of a small file embedded. -/
  | inode (check : Nat) (answers : List (Option DataOff)) (mtid : Nat)
  /-- `hammer2_strategy_read_completion`, which records the block for dedup. -/
  | read
  /-- `hammer2_flush_core` of the chain; with `stop` the block table of an inode is
  not updated. -/
  | flush (stop : Bool)
  /-- The chain is moved to another indirect block. -/
  | move (path : List (Option Bref))
  /-- The flush of the `k`-th block table above. -/
  | lift (k : Nat)
  /-- The last drop of the chain. -/
  | evict

inductive Event where
  | block (i : Nat) (e : BlockEvent)
  | mkPfs
  | mkBlock (p depth : Nat)
  /-- `hammer2_xop_inode_flush` of the root inode, with the blocks it reaches. -/
  | flushRoot (p : Nat) (sel : Nat → Bool)
  /-- `hammer2_trans_sub`. -/
  | transSub (p : Nat)
  /-- `hammer2_ioctl_pfs_snapshot`: the tid, and the copy of the blockset. -/
  | snapBegin (p : Nat) (nosync : Bool)
  | snapCopy (p : Nat)
  | snapEnd (p : Nat)
  /-- Device buffers and dedup bits that are given up. -/
  | drop (bufs bits : Nat → Bool)
  | tick (n : Nat)

/-- The block an event is about. -/
def Event.target : Event → Option Nat
  | .block i _ => some i
  | _ => none

/-- The block with the chain an operation leaves; a deletion clears the entry. -/
def Block.after (b : Block) (chain : Option Chain) : Block :=
  { b with chain := chain, path := if chain.isNone then b.path.set 0 none else b.path }

/-- Reading a block: its data is loaded, and recorded when it is in a device buffer. -/
def readBlock (p : Hashes) (h : Dev) (c : Chain) : Option (Chain × Dev) :=
  (chainLoadData p h c).map fun (c, h) =>
    if c.error = 0 ∧ c.type = .data ∧ c.data = true ∧ c.initial = false ∧ c.dataOff.base ≠ 0 then
      dedupRecord p h c (h.block c.dataOff)
    else (c, h)

/-- The device with the answers of the allocator to come. -/
def State.answering (s : State) (answers : List (Option DataOff)) : Dev :=
  { s.dev with freemap := answers }

def freshInode (check : Nat) : Chain := { Chain.fresh check radixMin with type := .inode }

def blockStep (t : Tools) (s : State) (P : Pfs) (b : Block) : BlockEvent → Option (Block × Dev)
  | .write ip f answers data mtid =>
      if mtid < P.modifyTid ∧ (∀ off ∈ answers.filterMap id, s.Free off) ∧
          (b.cur.isSome = true → f.lookupError = 0) ∧ blockSize data then
        (writeFileCore t { ip with lsnapTid := P.lsnapTid } f (s.answering answers) b.cur data
          mtid).map fun w => (b.after w.chain, w.dev)
      else none
  | .inode check answers mtid =>
      if mtid < P.modifyTid ∧ (∀ off ∈ answers.filterMap id, s.Free off) ∧ b.cur.isNone = true then
        (chainModify t.toHashes P.lsnapTid (s.answering answers) (freshInode check) mtid none
          false).map fun (_, c, h) => (b.after (some c), h)
      else none
  | .read => b.cur.bind fun c =>
      (readBlock t.toHashes (s.answering []) c).map fun (c, h) => (b.after (some c), h)
  | .flush stop =>
      match b.chain with
      | none => none
      | some c =>
          if c.error ≠ 0 ∨ b.path = [] ∨ (stop = true ∧ c.type ≠ .inode) then none
          else some ({ b with
            chain := some { c with modified := false, update := c.update && stop }
            path := if stop = true ∨ c.update = false then b.path
              else b.path.set 0 (some (brefOf c)) }, s.dev)
  | .move path =>
      match b.chain with
      | none => none
      | some c =>
          if ∀ x ∈ path, x = none ∨ x ∈ b.path then
            some ({ b with chain := some { c with update := true }, path := path }, s.dev)
          else none
  | .lift k => some ({ b with path := b.path.set (k + 1) (b.path[k]?.join) }, s.dev)
  | .evict =>
      match b.chain with
      | none => none
      | some c =>
          if c.modified = true ∨ c.update = true then none
          else some ({ b with chain := none }, s.dev)

def Block.copy (b : Block) (p : Nat) : Block :=
  ⟨p, none, b.path.map fun _ => b.blockset, b.blockset⟩

def step (t : Tools) (s : State) : Event → Option State
  | .block i e => s.blocks[i]?.bind fun b => s.pfss[b.pfs]?.bind fun P =>
      (blockStep t s P b e).map fun (b', h) => { s with dev := h, blocks := s.blocks.set i b' }
  | .mkPfs => some { s with pfss := s.pfss ++ [⟨0, 1, none⟩] }
  | .mkBlock p depth =>
      if p < s.pfss.length then
        some { s with blocks := s.blocks ++ [⟨p, none, List.replicate (depth + 1) none, none⟩] }
      else none
  | .flushRoot p sel => s.pfss[p]?.bind fun P =>
      -- A snapshot with a flush transaction keeps other flushes out.
      if P.snapping = some false then none
      else some { s with blocks := s.blocks.mapIdx fun i b =>
        if b.pfs = p ∧ sel i = true then { b with blockset := b.path.getLast?.join } else b }
  | .transSub p => s.pfss[p]?.map fun P =>
      { s with pfss := s.pfss.set p { P with modifyTid := P.modifyTid + 1 } }
  | .snapBegin p nosync => s.pfss[p]?.bind fun P =>
      if P.snapping ≠ none then none
      else some { s with pfss := s.pfss.set p ⟨P.modifyTid, P.modifyTid + 1, some nosync⟩ }
  | .snapCopy p => s.pfss[p]?.bind fun P =>
      if P.snapping = none then none
      else some { s with
        pfss := s.pfss.set p { P with snapping := none } ++ [⟨P.lsnapTid, P.lsnapTid + 1, none⟩]
        blocks := s.blocks ++
          (s.blocks.filter fun b => b.pfs = p).map fun b => b.copy s.pfss.length }
  | .snapEnd p => s.pfss[p]?.map fun P =>
      { s with pfss := s.pfss.set p { P with snapping := none } }
  | .drop bufs bits => some { s with
      dev := { s.dev with
        dio := fun p => s.dev.dio p && !bufs p
        dedupAlloc := fun u => s.dev.dedupAlloc u && !bits u
        dedupValid := fun u => s.dev.dedupValid u && !bits u } }
  | .tick n => some { s with dev := { s.dev with ticks := s.dev.ticks + n } }

/-- A device just mounted. -/
structure Mounted (dev : Dev) : Prop where
  emerg : dev.emerg = false
  valid : ∀ u, dev.dedupValid u = false
  heur : ∀ i, (dev.heurDedup i).dataOff = ⟨0, 0⟩

def init (dev : Dev) : State := ⟨dev, [], []⟩

/-! ## The condition -/

/-- The dedup hit of a write. -/
def writeHit (t : Tools) (ip : Inode) (h : Dev) (data : Bytes) : Option DataOff :=
  (stored t ip data).bind fun (_, bs) => (dedupLookup t.toHashes h bs).bind Prod.fst

/-- A write: without a check code it has no dedup hit, and when the allocator may be
out of space the chain is not `MODIFIED` and `DEDUPABLE` at once, nor is there a hit
for a chain without check code. -/
def WriteSafe (t : Tools) (s : State) (b : Block) (ip : Inode) (answers : List (Option DataOff))
    (data : Bytes) : Prop :=
  ((writeHit t ip (s.answering answers) data).isSome = true →
    ip.checkAlgo % 16 ≠ checkNone) ∧
  (none ∈ answers → ∀ c ∈ b.cur,
    (c.dedupable = true → c.modified = false) ∧
    ((writeHit t ip (s.answering answers) data).isSome = true → c.check ≠ checkNone))

instance (t : Tools) (s : State) (b : Block) (ip : Inode) (answers : List (Option DataOff))
    (data : Bytes) : Decidable (WriteSafe t s b ip answers data) := by
  delta WriteSafe
  infer_instance

/-- The start of a snapshot: a chain that is written as it stands whatever the snapshot
tid is does not have the storage the blockset has. -/
def SnapSafe (b : Block) : Prop :=
  ∀ c ∈ b.chain, c.initial = true ∨ (c.modified = true ∧ c.dedupable = false) →
    ∀ e ∈ b.blockset, e.dataOff.base = 0 ∨ Apart c.dataOff e.dataOff ∨ c.dataOff.base = 0

instance (b : Block) : Decidable (SnapSafe b) := by
  delta SnapSafe
  infer_instance

/-- The steps for which the code keeps blocks isolated. -/
def Ok (t : Tools) (s : State) : Event → Prop
  | .block i (.write ip _ answers data _) => ∀ b ∈ s.blocks[i]?, WriteSafe t s b ip answers data
  | .snapBegin p _ => ∀ b ∈ s.blocks, b.pfs = p → SnapSafe b
  | .flushRoot p _ => ∀ P ∈ s.pfss[p]?, P.snapping = none
  | _ => True

instance decOk (t : Tools) (s : State) : ∀ e, Decidable (Ok t s e)
  | .block i (.write ip _ answers data _) =>
      inferInstanceAs (Decidable (∀ b ∈ s.blocks[i]?, WriteSafe t s b ip answers data))
  | .snapBegin p _ => inferInstanceAs (Decidable (∀ b ∈ s.blocks, b.pfs = p → SnapSafe b))
  | .flushRoot p _ => inferInstanceAs (Decidable (∀ P ∈ s.pfss[p]?, P.snapping = none))
  | .block _ (.inode ..) | .block _ .read | .block _ (.flush _) | .block _ (.move _)
  | .block _ (.lift _) | .block _ .evict | .mkPfs | .mkBlock .. | .transSub _ | .snapCopy _
  | .snapEnd _ | .drop .. | .tick _ => .isTrue trivial

end Hammer2.File.Isolation
