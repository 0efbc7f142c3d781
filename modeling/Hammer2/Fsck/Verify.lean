/-
# `Hammer2.Fsck.Verify` — the walk of `fsck_hammer2`

    verify         `verify_blockref`, with its cache of deltas
    scanRoots      the roots of a run, each with statistics of its own; the cache is shared
    testBlockref   the zones of the volume headers

`none` is an assertion that fails, a byte outside of what was read, or a recursion that is deeper
than the stack goes.
-/
import Mathlib.Algebra.Group.Pi.Basic
import Mathlib.Data.BitVec
import Hammer2.Fsck.Media

namespace Hammer2.Fsck

def brefTypeEmpty : UInt8 := 0
def brefTypeInode : UInt8 := 1
def brefTypeIndirect : UInt8 := 2
def brefTypeData : UInt8 := 3
def brefTypeDirent : UInt8 := 4
def brefTypeFreemapNode : UInt8 := 5
def brefTypeFreemapLeaf : UInt8 := 6
def brefTypeFreemap : UInt8 := 254
def brefTypeVolume : UInt8 := 255

/-- The command line: `-f`, `-e` and `-c`. -/
structure Opts where
  forceOpt : Bool
  countEmpty : Bool
  blockrefCacheCount : Int

/-- The check functions. -/
structure Checks where
  icrc32 : List UInt8 → Nat
  xxh64 : List UInt8 → Nat
  sha256 : List UInt8 → List UInt8

/-! ## Statistics -/

/-- The fields of `delta_stats_t`. -/
inductive Field
  | totalBlockref
  | totalEmpty
  | totalBytes
  | totalInode
  | totalIndirect
  | totalData
  | totalDirent
  | totalFreemapNode
  | totalFreemapLeaf
deriving DecidableEq

abbrev Counts := Field → BitVec 64

def one (f : Field) : Counts := Pi.single f 1

/-- The words of `blockref_stats_t`; the last four are the union. -/
inductive Slot
  | totalBlockref
  | totalEmpty
  | totalBytes
  | u0
  | u1
  | u2
  | u3
deriving DecidableEq

abbrev Totals := Slot → BitVec 64

/-- `volume` and `freemap` share their words. -/
def Counts.inUnion (d : Counts) : Totals
  | .totalBlockref => d .totalBlockref
  | .totalEmpty => d .totalEmpty
  | .totalBytes => d .totalBytes
  | .u0 => d .totalInode + d .totalFreemapNode
  | .u1 => d .totalIndirect + d .totalFreemapLeaf
  | .u2 => d .totalData
  | .u3 => d .totalDirent

/-- Which tree is walked. -/
inductive Tree
  | volume
  | freemap
deriving DecidableEq

def Tree.type : Tree → UInt8
  | .volume => brefTypeVolume
  | .freemap => brefTypeFreemap

/-- `load_delta_stats`: only the fields of this kind of tree. -/
def Counts.ofTree (tree : Tree) (d : Counts) : Totals
  | .totalBlockref => d .totalBlockref
  | .totalEmpty => d .totalEmpty
  | .totalBytes => d .totalBytes
  | .u0 => match tree with
      | .volume => d .totalInode
      | .freemap => d .totalFreemapNode
  | .u1 => match tree with
      | .volume => d .totalIndirect
      | .freemap => d .totalFreemapLeaf
  | .u2 => match tree with
      | .volume => d .totalData
      | .freemap => 0
  | .u3 => match tree with
      | .volume => d .totalDirent
      | .freemap => 0

/-- `delta_stats_t`; `count` is a `long`. -/
structure DeltaStats where
  totals : Counts
  count : Int

def DeltaStats.zero : DeltaStats := ⟨0, 0⟩

/-- `accumulate_delta_stats` -/
def DeltaStats.accumulate (dst src : DeltaStats) : DeltaStats :=
  ⟨dst.totals + src.totals, (dst.count + src.count).bmod (2 ^ 64)⟩

/-- `struct blockref_entry` and its tree: messages about blockrefs, by `data_off`. -/
abbrev BlockrefTree (μ : Type) := List (Nat × List (Blockref × μ))

/-- `add_blockref_entry`; the `RB_INSERT` of an entry that is in the tree does nothing. -/
def addBlockrefEntry {μ : Type} (bref : Blockref) (msg : μ) : BlockrefTree μ → BlockrefTree μ
  | [] => [(bref.dataOff, [(bref, msg)])]
  | e :: t =>
      if e.1 = bref.dataOff then (e.1, e.2 ++ [(bref, msg)]) :: t
      else e :: addBlockrefEntry bref msg t

/-- The `RB_FIND` and the search of the list that is there. -/
def findBlockref {μ : Type} (t : BlockrefTree μ) (bref : Blockref) : Option (Blockref × μ) :=
  match t.find? fun e => decide (e.1 = bref.dataOff) with
  | some e => e.2.find? fun m => decide (m.1 = bref)
  | none => none

structure BlockrefStats where
  root : BlockrefTree String
  type : Tree
  totals : Totals

def BlockrefStats.init (tree : Tree) : BlockrefStats := ⟨[], tree, 0⟩

/-- What a call works on: `bstats`, `droot` and its own `dstats`. -/
structure St where
  bstats : BlockrefStats
  droot : BlockrefTree DeltaStats
  dstats : DeltaStats

namespace St

/-- The fields of both statistics go up together. -/
def add (s : St) (d : Counts) : St :=
  { s with
    bstats := { s.bstats with totals := s.bstats.totals + d.inUnion }
    dstats := { s.dstats with totals := s.dstats.totals + d } }

def report (s : St) (bref : Blockref) (msg : String) : St :=
  { s with bstats := { s.bstats with root := addBlockrefEntry bref msg s.bstats.root } }

/-- A cache hit. -/
def load (s : St) (ds : DeltaStats) : St :=
  { s with
    bstats := { s.bstats with totals := s.bstats.totals + ds.totals.ofTree s.bstats.type }
    dstats := s.dstats.accumulate ds }

end St

/-! ## One blockref -/

/-- What the `switch` over the types adds to `total_blockref++`. -/
def typeCounts (o : Opts) (type : UInt8) : Option Counts :=
  if type = brefTypeEmpty then some (if o.countEmpty then one .totalEmpty else -one .totalBlockref)
  else if type = brefTypeInode then some (one .totalInode)
  else if type = brefTypeIndirect then some (one .totalIndirect)
  else if type = brefTypeData then some (one .totalData)
  else if type = brefTypeDirent then some (one .totalDirent)
  else if type = brefTypeFreemapNode then some (one .totalFreemapNode)
  else if type = brefTypeFreemapLeaf then some (one .totalFreemapLeaf)
  else if type = brefTypeVolume then some (-one .totalBlockref)
  else if type = brefTypeFreemap then some (-one .totalBlockref)
  else none

/-- The block's size, in the totals. -/
def byteCounts (b : Blockref) : Counts :=
  if b.type = brefTypeVolume ∨ b.type = brefTypeFreemap then 0
  else Pi.single .totalBytes (BitVec.ofNat 64 b.bytes)

/-- `HAMMER2_DEC_CHECK(methods)` -/
def Blockref.decCheck (b : Blockref) : UInt8 := (b.methods >>> 4) &&& 15

/-- `u.digest64[2] ^= u.digest64[3]`, of which the first 24 bytes are compared. -/
def sha192 (digest : List UInt8) : List UInt8 :=
  digest.take 16 ++ List.zipWith (· ^^^ ·) ((digest.drop 16).take 8) (digest.drop 24)

/-- The check code of the block; the message if it is not the one of the blockref. -/
def checkBlock (c : Checks) (b : Blockref) (block : List UInt8) : Option String :=
  if b.decCheck = 2 then
    if Bytes.decode (b.check 4) = c.icrc32 block then none else some "Bad HAMMER2_CHECK_ISCSI32"
  else if b.decCheck = 3 then
    if Bytes.decode (b.check 8) = c.xxh64 block then none else some "Bad HAMMER2_CHECK_XXHASH64"
  else if b.decCheck = 4 then
    if sha192 (c.sha256 block) = b.check 24 then none else some "Bad HAMMER2_CHECK_SHA192"
  else if b.decCheck = 5 then
    if Bytes.decode (b.check 4) = c.icrc32 block then none else some "Bad HAMMER2_CHECK_FREEMAP"
  else none

/-- `HAMMER2_OPFLAG_DIRECTDATA` in the `op_flags` of an inode. -/
def directdata (buf : Buf) : Bool := buf.byte 0x51 &&& 1 != 0

/-- `bscan` and `bcount`. -/
def scan (b : Blockref) (buf : Buf) : Option (List Blockref) :=
  if b.type = brefTypeInode then
    if directdata buf then some [] else buf.blockrefs 0x200 4
  else if b.type = brefTypeIndirect then buf.blockrefs 0 (b.bytes / 128)
  else if b.type = brefTypeFreemapNode then buf.blockrefs 0 (b.bytes / 128)
  else if b.type = brefTypeVolume then buf.blockrefs 0x200 4
  else if b.type = brefTypeFreemap then buf.blockrefs 0x800 4
  else some []

def ReadErr.msg : ReadErr → String
  | .ioBytes => "Bad I/O bytes"
  | .read => "Failed to read media"

/-! ## `verify_blockref` -/

/-- The loop over `bscan`.  Each blockref has a delta of its own, which is added to that of the
block unless the block has failed. -/
def children (verify : Blockref → Bool → St → Option (Bool × St)) (failed : Bool) :
    List Blockref → St → Option (Bool × St)
  | [], s => some (true, s)
  | c :: cs, s =>
      match verify c failed { s with dstats := .zero } with
      | none => none
      | some (false, s') => some (false, { s' with dstats := s.dstats })
      | some (true, s') =>
          children verify failed cs
            { s' with dstats := if failed then s.dstats else s.dstats.accumulate s'.dstats }

/-- From the label `end` on. -/
def finish (o : Opts) (b : Blockref) (failed : Bool) (s : St) : Option (Bool × St) :=
  if failed then some (false, s)
  else
    let s := { s with dstats := { s.dstats with count := (s.dstats.count + 1).bmod (2 ^ 64) } }
    if b.dataOff ≠ 0 ∧ 0 < o.blockrefCacheCount ∧ o.blockrefCacheCount ≤ s.dstats.count then
      if b.bytes = 0 then none
      else some (true, { s with droot := addBlockrefEntry b s.dstats s.droot })
    else some (true, s)

/-- The entry of the cache. -/
def cached (s : St) (b : Blockref) : Option DeltaStats :=
  if b.dataOff = 0 then none else (findBlockref s.droot b).map (·.2)

section Code

variable (fso : Ondisk) (c : Checks) (o : Opts)

/-- The type is counted; an invalid one is reported. -/
def countType (b : Blockref) (s : St) : Bool × St :=
  match typeCounts o b.type with
  | some d => (false, s.add (one .totalBlockref + d))
  | none => (true, (s.add (one .totalBlockref)).report b ("Invalid blockref type " ++ toString b.type.toNat))

/-- The check code is compared; a bad one is reported. -/
def countCheck (b : Blockref) (buf : Buf) (failed : Bool) (s : St) : Bool × St :=
  match checkBlock c b (buf.bytes b.bytes) with
  | some msg => (true, s.report b msg)
  | none => (failed, s)

/-- A blockref that is not in the cache, up to the loop: whether it has failed, and `bscan`; or
the -1 of a block that cannot be read.  Without a block there is nothing to check. -/
def visit (b : Blockref) (s : St) : Option (Except St (Bool × List Blockref × St)) :=
  let (failed, s) := countType o b s
  match readMedia fso b with
  | none => none
  | some (.error e) => some (.error (s.report b e.msg))
  | some (.ok buf) =>
      let s := s.add (byteCounts b)
      -- `assert(bytes == 0)`
      if o.countEmpty = false ∧ b.type = brefTypeEmpty ∧ b.bytes ≠ 0 then none
      else match buf with
        | none => some (.ok (failed, [], s))
        | some buf =>
            let (failed, s) := countCheck c b buf failed s
            (scan b buf).map fun kids => .ok (failed, kids, s)

/-- `verify_blockref`: the flag says that it returns 0.  With `ForceOpt` there is always a
recursion. -/
def verify : Nat → Blockref → Bool → St → Option (Bool × St)
  | 0, _, _, _ => none
  | fuel + 1, b, norecurse, s =>
      match cached s b with
      | some ds => some (true, s.load ds)
      | none =>
          match visit fso c o b s with
          | none => none
          | some (.error s) => some (false, s)
          | some (.ok (failed, kids, s)) =>
              match children (verify fuel) failed (if norecurse && !o.forceOpt then [] else kids) s with
              | none => none
              | some (false, s) => some (false, s)
              | some (true, s) => finish o b failed s

/-- The scan of some roots, one after the other; every root is scanned. -/
def scanRoots (tree : Tree) (fuel : Nat) : List Blockref → BlockrefTree DeltaStats →
    Option (List (Bool × BlockrefStats))
  | [], _ => some []
  | root :: roots, droot => do
      let (ok, s) ← verify fso c o fuel root false ⟨.init tree, droot, .zero⟩
      let reports ← scanRoots tree fuel roots s.droot
      some ((ok, s.bstats) :: reports)

/-- `HAMMER2_ZONE_BYTES64` -/
def zoneBytes64 : Nat := 2 ^ 31

/-- `init_root_blockref` -/
def rootBlockref (tree : Tree) (i : Nat) : Blockref :=
  ⟨tree.type :: List.replicate 31 0 ++ Bytes.encode 8 (i * zoneBytes64 + 16) ++
    List.replicate 88 0⟩

/-- The zones that a run scans: all inside the root volume, or with `ScanBest` the best one. -/
def zones (best : Option Nat) : List Nat :=
  let inside := (List.range 4).takeWhile fun i =>
    decide (i * zoneBytes64 < match getVolume fso 0 with
      | some vol => vol.size
      | none => 2 ^ 64 - 1)
  match best with
  | none => inside
  | some z => inside.filter (· = z)

/-- `test_blockref`: the reports of the zones. -/
def testBlockref (fuel : Nat) (tree : Tree) (best : Option Nat) :
    Option (List (Bool × BlockrefStats)) :=
  scanRoots fso c o tree fuel ((zones fso best).map (rootBlockref tree)) []

end Code

end Hammer2.Fsck
