/-
# `Hammer2.Volume.Header` — volume headers and the ring they are written in

A device holds up to four copies of the volume header, at the base of the first four
2GB zones.  A flush writes the next copy of the ring (`hammer2_xop_inode_flush`), a mount
takes the valid copy with the largest `mirror_tid` (`hammer2_read_volume_header`).  The
machine of this module runs flush cycles, whose header write may succeed, fail or be cut
by a crash, and mounts.

    headerSlot        the copy the next header write goes to
    flushRoots        a flush cycle up to the header write
    readVolumeHeader  the copy a mount takes
    Ok                the steps for which `Hammer2.Volume.Recovery` shows that a mount
                      sees the last completed flush

Transaction ids are unbounded here.
-/
import Hammer2.Disk
import Hammer2.Lib.Machine
import Mathlib.Data.List.Range

namespace Hammer2.Volume

abbrev zoneBytes : Nat := 2147483648
abbrev numVolhdrs : Nat := 4
abbrev volumeIdHbo : Nat := 0x48414d3205172011
abbrev volumeIdAbo : Nat := 0x11201705324d4148
abbrev volumeAlign : Nat := 8388608

variable {α : Type}

/-! ## Headers on the media -/

/-- `hammer2_volume_data_t`.  `roots` is everything in it that no code of the ring reads:
the blocksets of the super-root and of the freemap, the allocator's counters and so on. -/
structure VolumeData (α : Type) where
  voluSize : Nat
  mirrorTid : Nat
  freemapTid : Nat
  roots : α
deriving DecidableEq

/-- The 64KB at the place of a header: its magic, whether each of its three CRCs is the
one stored in it, and its content. -/
structure HeaderBlock (α : Type) where
  magic : Nat
  sect0 : Bool
  sect1 : Bool
  volheader : Bool
  data : VolumeData α
deriving DecidableEq

/-- What `hammer2_read_volume_header` accepts. -/
def HeaderBlock.Valid (b : HeaderBlock α) : Prop :=
  b.magic = volumeIdHbo ∧ b.sect0 = true ∧ b.sect1 = true ∧ b.volheader = true

instance (b : HeaderBlock α) : Decidable b.Valid :=
  inferInstanceAs (Decidable (_ ∧ _ ∧ _ ∧ _))

/-- The block written for a header: `hammer2_flush_core` has set its CRCs. -/
def headerOf (vd : VolumeData α) : HeaderBlock α := ⟨volumeIdHbo, true, true, true, vd⟩

/-- One round of the loop of `hammer2_read_volume_header`: `size` is the answer of
`DIOCGDINFO`, `none` when it fails, `b` that of `bread`. -/
def readRound (size : Option Nat) (b : Option (HeaderBlock α)) (i : Nat)
    (found : Option (Nat × VolumeData α)) : Option (Nat × VolumeData α) :=
  match size with
  | none => found
  | some mediaSize =>
      if mediaSize ≤ i * zoneBytes then found
      else match b with
        | none => found
        | some b =>
            if b.magic ≠ volumeIdHbo ∧ b.magic ≠ volumeIdAbo then found
            else if b.magic = volumeIdAbo then found
            else if b.sect0 = false then found
            else if b.sect1 = false then found
            else if b.volheader = false then found
            else match found with
              | none => some (i, b.data)
              | some (zone, vd) =>
                  if vd.mirrorTid < b.data.mirrorTid then some (i, b.data) else some (zone, vd)

/-- `hammer2_read_volume_header`: the zone of the header and the header, `none` for
`EINVAL`. -/
def readVolumeHeader (size : Nat → Option Nat) (bread : Nat → Option (HeaderBlock α)) :
    Option (Nat × VolumeData α) :=
  (List.range numVolhdrs).foldl (fun found i => readRound (size i) (bread i) i found) none

structure Media (α : Type) where
  mediaSize : Nat
  block : Nat → HeaderBlock α

def Media.put (m : Media α) (j : Nat) (b : HeaderBlock α) : Media α :=
  { m with block := fun i => if i = j then b else m.block i }

/-- The header a mount finds on media that can be read. -/
def Media.read (m : Media α) : Option (Nat × VolumeData α) :=
  readVolumeHeader (fun _ => some m.mediaSize) (fun i => some (m.block i))

/-- What `hammer2_verify_volumes` asks of the size of the volume. -/
def VolumeData.Verified (vd : VolumeData α) (mediaSize : Nat) : Prop :=
  vd.voluSize ≤ mediaSize ∧ vd.voluSize ≠ 0 ∧ vd.voluSize % volumeAlign = 0

instance (vd : VolumeData α) (n : Nat) : Decidable (vd.Verified n) :=
  inferInstanceAs (Decidable (_ ∧ _ ∧ _))

/-! ## The mounted device -/

/-- `hammer2_dev_t`: `modified` and `volumesync` are the flags of `vchain`, `vchainTid` is
its `bref.mirror_tid`. -/
structure Dev (α : Type) where
  voldata : VolumeData α
  volsync : VolumeData α
  volhdrno : Int
  vchainTid : Nat
  modified : Bool
  volumesync : Bool
deriving DecidableEq

def mountDev (zone : Nat) (vd : VolumeData α) : Dev α where
  voldata := vd
  volsync := vd
  volhdrno := zone
  vchainTid := vd.mirrorTid
  modified := false
  volumesync := false

def Dev.setRoots (d : Dev α) (roots : α) : Dev α :=
  { d with voldata := { d.voldata with roots := roots } }

/-- `hammer2_voldata_modify` -/
def Dev.voldataModify (d : Dev α) : Dev α :=
  if d.modified then d else { d with modified := true, vchainTid := d.voldata.mirrorTid + 1 }

/-- `hammer2_chain_modify` of the volume chain. -/
def Dev.chainModify (d : Dev α) : Dev α :=
  { d with modified := true, vchainTid := d.voldata.mirrorTid + 1 }

/-- `hammer2_flush_core` of the freemap chain, modified with the id `tid`. -/
def Dev.flushFreemap (d : Dev α) (tid : Nat) : Dev α :=
  { d with
    voldata := { d.voldata with freemapTid := tid, mirrorTid := d.voldata.mirrorTid + 1 } }

/-- `hammer2_flush_core` of the volume chain. -/
def Dev.flushVolume (d : Dev α) : Dev α :=
  if d.modified then
    let voldata := { d.voldata with
      mirrorTid := if d.voldata.mirrorTid < d.vchainTid then d.vchainTid else d.voldata.mirrorTid }
    { d with modified := false, voldata := voldata, volsync := voldata, volumesync := true }
  else d

/-- What happens in `hammer2_xop_inode_flush` before the header write: whether the flush of
the super-root changes the block table of the volume, whether the freemap chain is flagged
and, when it is modified, its id and what its flush changes; and the errors. -/
structure Cycle (α : Type) where
  sroot : Option α
  fchain : Option (Option (Nat × α))
  vchainError : Bool
  flushError : Bool
  fsyncError : Bool

def Dev.flushSroot (d : Dev α) : Option α → Dev α
  | none => d
  | some roots => d.chainModify.setRoots roots

def Dev.flushFchain (d : Dev α) : Option (Option (Nat × α)) → Dev α
  | none => d
  | some none => d.voldataModify
  | some (some (tid, roots)) => (d.voldataModify.flushFreemap tid).setRoots roots

/-- The flush of the super-root, of the freemap and of the volume. -/
def Dev.flushRoots (d : Dev α) (c : Cycle α) : Dev α :=
  let d := (d.flushSroot c.sroot).flushFchain c.fchain
  if c.vchainError then d else d.flushVolume

/-- The condition under which the header is written. -/
def headerDue (d : Dev α) (c : Cycle α) : Bool :=
  !c.fsyncError && !c.flushError && !c.vchainError && d.volumesync

/-- The copy the header is written to. -/
def headerSlot (volhdrno : Int) (voluSize : Nat) : Nat :=
  let j := volhdrno + 1
  let j := if j < 0 then 0 else j
  let j := if numVolhdrs ≤ j then 0 else j
  let j := if voluSize < j * zoneBytes + segSize then 0 else j
  j.toNat

/-! ## Runs -/

/-- What a header write leaves at its place. -/
inductive Left (α : Type) where
  | old
  | new
  | torn (b : HeaderBlock α)
deriving DecidableEq

def Left.isTorn : Left α → Bool
  | .torn _ => true
  | _ => false

/-- How a header write ends. -/
inductive Report where
  | ok
  | error
  | crash
deriving DecidableEq

inductive Event (α : Type) where
  | modify (roots : α)
  | flush (c : Cycle α) (left : Left α) (r : Report)
  | crash
  | mount

/-- `dev` is `none` after a crash.  `completed` are the header writes that left a complete
header, newest first, the last one being the header first mounted; `failed` counts the
header writes since then that left none. -/
structure State (α : Type) where
  media : Media α
  dev : Option (Dev α)
  completed : List (Nat × VolumeData α)
  failed : Nat

/-- A header write to the copy `j`. -/
def writeHeader (s : State α) (d : Dev α) (left : Left α) (r : Report) : Option (State α) :=
  let j := headerSlot d.volhdrno d.volsync.voluSize
  let dev := if r = .crash then none else some { d with volumesync := false, volhdrno := j }
  match left with
  | .new =>
      some ⟨s.media.put j (headerOf d.volsync), dev, (j, d.volsync) :: s.completed, 0⟩
  | .old => if r = .ok then none else some ⟨s.media, dev, s.completed, s.failed + 1⟩
  | .torn b =>
      if r = .ok ∨ b.Valid then none
      else some ⟨s.media.put j b, dev, s.completed, s.failed + 1⟩

def step (s : State α) : Event α → Option (State α)
  | .modify roots => s.dev.map fun d => { s with dev := some (d.voldataModify.setRoots roots) }
  | .flush c left r => s.dev.bind fun d =>
      let d := d.flushRoots c
      if headerDue d c then writeHeader s d left r else some { s with dev := some d }
  | .crash => some { s with dev := none }
  | .mount =>
      if s.dev.isSome then none
      else s.media.read.bind fun (zone, vd) =>
        if vd.Verified s.media.mediaSize then
          some { s with dev := some (mountDev zone vd), failed := 0 }
        else none

/-- The first mount. -/
def start (m : Media α) : Option (State α) :=
  m.read.bind fun (zone, vd) =>
    if vd.Verified m.mediaSize then some ⟨m, some (mountDev zone vd), [(zone, vd)], 0⟩ else none

/-! ## The condition -/

/-- The copies a header can be written to. -/
def Fits (voluSize j : Nat) : Prop :=
  j < numVolhdrs ∧ (j = 0 ∨ j * zoneBytes + segSize ≤ voluSize)

instance (n j : Nat) : Decidable (Fits n j) := inferInstanceAs (Decidable (_ ∧ _))

def fitCount (voluSize : Nat) : Nat := (List.range numVolhdrs).countP fun j => Fits voluSize j

/-- Of `n` copies that fit, at most `n - 2` header writes in a row have left no complete
header; and a write to the only copy tears nothing. -/
def WriteOk (s : State α) (voluSize : Nat) (left : Left α) : Prop :=
  if 2 ≤ fitCount voluSize then s.failed + 1 < fitCount voluSize else left.isTorn = false

instance (s : State α) (n : Nat) (left : Left α) : Decidable (WriteOk s n left) :=
  inferInstanceAs (Decidable (if 2 ≤ fitCount n then s.failed + 1 < fitCount n else left.isTorn = false))

/-- The header writes that start after too few failed ones to have come round. -/
def Ok (s : State α) : Event α → Prop
  | .flush c left _ => ∀ d ∈ s.dev, headerDue (d.flushRoots c) c = true →
      WriteOk s (d.flushRoots c).volsync.voluSize left
  | _ => True

instance decOk (s : State α) : ∀ e, Decidable (Ok s e)
  | .flush c left _ => inferInstanceAs (Decidable (∀ d ∈ s.dev, headerDue (d.flushRoots c) c = true →
      WriteOk s (d.flushRoots c).volsync.voluSize left))
  | .modify _ | .crash | .mount => inferInstanceAs (Decidable True)

end Hammer2.Volume
