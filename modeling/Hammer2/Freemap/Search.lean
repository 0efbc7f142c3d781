/-
# `Hammer2.Freemap.Search` — the search for free space

`hammer2_freemap_alloc` goes over the leaves from a heuristic position on, wraps around, and
tries once more with relaxed classes before it gives up.

    leafScan         the two-sided scan of a leaf, from the entry of the position
    freemapIterate   hammer2_freemap_iterate, the next leaf or the end
    tryAlloc         hammer2_freemap_try_alloc, one leaf
    freemapAlloc     hammer2_freemap_alloc
    bigmaskGet,      bigmask_get, bigmask_good
    bigmaskGood
    step             allocations among recovery, mounts and passes of bulkfree

A leaf that was found not to satisfy a radix loses the radix's bit in its `bigmask` and is
skipped from then on.  The blockrefs above the leaves have the field too.
-/
import Hammer2.Freemap.Recover
import Hammer2.Freemap.Fit
import Hammer2.Freemap.Marks
import Hammer2.Lib.Loop

namespace Hammer2.Alloc

open Machine Loop
open Account (leafOf zoneBytes)
open Freemap (Pass passWindow bulkfreeSize bulkfreeBase)

/-! ## The hints -/

/-- `bigmask_get`: the radixes of the free fields of the entry, and all those below. -/
def bigmaskGet (bm : BmapData) : BitVec 32 :=
  (List.range bmapElements).foldl (fun bigmask i =>
    (List.range 6).foldl (fun bigmask t =>
      -- `iter` is 2, 4, .. 64
      let iter := 2 <<< t
      if ∃ k < bmapBitsPerElement / iter,
          BitField.fieldMask iter <<< (k * iter) &&& bm.elem i = 0#64 then
        bigmask ||| BitVec.ofNat 32 (2 ^ (freemapBlockRadix + 1 + t) - 1)
      else bigmask) bigmask) 0

/-- `bigmask_good` -/
def bigmaskGood (bm : BmapData) (liveBigmask : BitVec 32) : Bool :=
  liveBigmask &&& bigmaskGet bm = bigmaskGet bm

/-! ## The state -/

/-- A blockref of the freemap above the leaves. -/
structure FreemapNode where
  level : Nat
  index : Nat
  bigmask : BitVec 32
deriving DecidableEq

/-- The freemap with its hints, the heuristics of `hammer2_dev_t` and the running pass of
bulkfree.  `root` are the blockrefs at the top, by level and index. -/
structure State extends Account.State where
  bigmask : Nat → BitVec 32
  root : List (Nat × Nat)
  nodes : List FreemapNode
  freemapRelaxed : Bool
  heurFreemap : Nat → Nat
  pass : Option Pass

structure Fiterate where
  bpref : Nat
  bnext : Nat
  loops : Nat
  relaxed : Bool
deriving DecidableEq

/-! ## Leaves and the blockrefs above them -/

/-- The blockref `r` covers the leaf. -/
def covers (r : Nat × Nat) (leaf : Nat) : Bool := leaf / freemapCount ^ (r.1 - 1) = r.2

/-- `hammer2_chain_indkey_freemap`: the lowest of the blockrefs of the lowest level. -/
def indkeyFreemap (root : List (Nat × Nat)) : Nat × Nat :=
  let level := (root.map Prod.fst).min?.getD 1
  (level, (((root.filter (fun r => r.1 = level)).map Prod.snd).min?).getD 0)

/-- `hammer2_chain_create` of a leaf: as long as the four blockrefs at the top are taken, a
node of the next level is made for the lowest of them and for those it covers.  The blockref of
a new node is zeroed. -/
def insertLeaf (leaf : Nat) : Nat → List (Nat × Nat) → List FreemapNode →
    List (Nat × Nat) × List FreemapNode
  | 0, root, nodes => (root, nodes)
  | fuel + 1, root, nodes =>
      if root.any (fun r => 1 < r.1 ∧ covers r leaf) then (root, nodes)
      else if root.length < setCount then ((1, leaf) :: root, nodes)
      else
        let r := indkeyFreemap root
        let node := (r.1 + 1, r.2 / freemapCount)
        insertLeaf leaf fuel
          (node :: root.filter (fun x => ¬ (x.1 ≤ r.1 ∧ covers node (x.2 * freemapCount ^ (x.1 - 1)))))
          (⟨node.1, node.2, 0⟩ :: nodes)

/-- The leaf that is missing is created and initialised, with every bit of its hint set. -/
def createLeaf (dev : Dev) (s : State) (leaf : Nat) : State :=
  let topology := insertLeaf leaf 6 s.root s.nodes
  { s with
    toState := Account.initLeaf dev s.toState leaf
    bigmask := Function.update s.bigmask leaf (BitVec.allOnes 32)
    root := topology.1
    nodes := topology.2 }

/-! ## One leaf -/

/-- Whether it is worth to look at the entry. -/
def availchk (bm : BmapData) (radix : Nat) : Bool :=
  bm.avail ≠ 0 ∨ (radix < freemapBlockRadix ∧ bm.linear % freemapBlockSize ≠ 0)

/-- One entry: of the same class, of none yet, or of any class when relaxed. -/
def tryEntry (bm : BmapData) (cls subKey radix : Nat) (relaxed : Bool) : BmapAlloc :=
  if availchk bm radix = true ∧ (bm.cls = 0 ∨ bm.cls = cls ∨ relaxed = true) then
    bmapAlloc bm cls subKey radix
  else .enospc

/-- The loop over `count`, with `left` rounds to go: forwards, then backwards from `start`. -/
def leafScan (entry : Nat → BmapAlloc) (start : Nat) : Nat → Option (Nat × BmapAlloc)
  | 0 => none
  | left + 1 =>
      let count := freemapCount - (left + 1)
      if start + count ≥ freemapCount ∧ start < count then none
      else
        match (if start + count < freemapCount then entry (start + count) else .enospc) with
        | .enospc =>
            match (if count ≤ start then entry (start - count) else .enospc) with
            | .enospc => leafScan entry start left
            | r => some (start - count, r)
        | r => some (start + count, r)

/-- `hammer2_freemap_iterate`; `true` is `EAGAIN`. -/
def freemapIterate (dev : Dev) (iter : Fiterate) : Fiterate × Bool :=
  let bnext := iter.bnext / freemapLevel1Size * freemapLevel1Size + freemapLevel1Size
  if bnext ≥ dev.totalSize then
    let iter := { iter with bnext := 0, loops := iter.loops + 1 }
    if iter.loops ≥ 2 then
      if iter.relaxed = false then ({ iter with relaxed := true }, true) else (iter, false)
    else (iter, true)
  else ({ iter with bnext := bnext }, true)

/-- What comes of an allocation: the device offset, an error, or a failed assertion. -/
inductive Answer where
  | off (key : Nat)
  | enospc
  | eio
  | panic
deriving DecidableEq

/-- `ENOSPC` of one leaf. -/
def next (dev : Dev) (s : State) (iter : Fiterate) : Turn (State × Fiterate) (State × Fiterate × Answer) :=
  match freemapIterate dev iter with
  | (iter, true) => .again (s, iter)
  | (iter, false) => .stop (s, iter, .enospc)

/-- What the blockref and its chain bring to an allocation; `readable` says which of the leaves
come without an error. -/
structure Request where
  type : Nat
  key : Nat
  radix : Nat
  readable : Nat → Bool

/-- The class of the request. -/
def Request.cls (req : Request) : Nat := req.type <<< 8 ||| pbufRadix

/-- The leaf of the position, created if it is missing. -/
def withLeaf (dev : Dev) (s : State) (leaf : Nat) : State :=
  if s.created leaf = true then s else createLeaf dev s leaf

/-- The bit of the radix is cleared in the hint of the leaf. -/
def flagFull (s : State) (leaf radix : Nat) : State :=
  let bigmask := s.bigmask leaf &&& ~~~(1#32 <<< radix)
  { s with bigmask := Function.update s.bigmask leaf bigmask }

/-- The end of `hammer2_freemap_try_alloc`, by what the scan of the leaf came to. -/
def settle (dev : Dev) (req : Request) (s : State) (iter : Fiterate) (leaf start : Nat) :
    Option (Nat × BmapAlloc) → Turn (State × Fiterate) (State × Fiterate × Answer)
  | some (n, .ok bm off bgsize) =>
      let key := leaf * freemapLevel1Size + n * freemapLevel0Size + off
      if dev.allocatorBeg ≤ key ∧ key + 1 <<< req.radix ≤ dev.totalSize ∧ zoneSeg ≤ key % zoneBytes then
        .stop ({ s with
          freemap := Function.update s.freemap (leaf * freemapCount + n) bm
          allocatorFree := s.allocatorFree - BitVec.ofNat 64 bgsize }, iter, .off key)
      else .stop (s, iter, .panic)
  | some (_, .panic) => .stop (s, iter, .panic)
  | _ =>
      -- the whole leaf was looked at, in every class
      next dev (if start = 0 ∧ iter.relaxed = true then flagFull s leaf req.radix else s) iter

/-- `hammer2_freemap_try_alloc` -/
def tryAlloc (dev : Dev) (req : Request) (x : State × Fiterate) :
    Turn (State × Fiterate) (State × Fiterate × Answer) :=
  let (s, iter) := x
  let leaf := iter.bnext / freemapLevel1Size
  if s.created leaf = true ∧ req.readable leaf = false then .stop (s, iter, .eio)
  else if s.created leaf = true ∧ (s.bigmask leaf).getLsbD req.radix = false then
    -- already flagged as not having enough space
    next dev s iter
  else
    let s := withLeaf dev s leaf
    let start := (iter.bnext - leaf * freemapLevel1Size) / freemapLevel0Size
    let entry := fun n =>
      tryEntry (s.freemap (leaf * freemapCount + n)) req.cls req.key req.radix iter.relaxed
    settle dev req s iter leaf start (leafScan entry start freemapCount)

/-! ## The whole search -/

/-- The heuristic index of a blockref type. -/
def hindex (type : Nat) : Nat := (2 + type * 4) % 32

/-- The position the search begins at. -/
def bpref (dev : Dev) (s : State) (type : Nat) : Nat :=
  if s.heurFreemap (hindex type) > dev.totalSize then dev.totalSize - 1
  else s.heurFreemap (hindex type)

/-- `hammer2_freemap_alloc`, for `1 << radix` bytes of a blockref that is not one of the freemap
itself; `none` if `fuel` rounds of the loop are not enough. -/
def freemapAlloc (dev : Dev) (req : Request) (fuel : Nat) (s : State) : Option (State × Answer) :=
  if req.radix < radixMin ∨ req.radix > radixMax then some (s, .panic)
  else
    let position := bpref dev s req.type
    match loop (tryAlloc dev req) fuel (s, ⟨position, position, 0, s.freemapRelaxed⟩) with
    | some (t, iter, answer) =>
        some ({ t with
          freemapRelaxed := t.freemapRelaxed || iter.relaxed
          heurFreemap := Function.update t.heurFreemap (hindex req.type) iter.bnext }, answer)
    | none => none

/-- Rounds that are enough. -/
def rounds (dev : Dev) : Nat := 3 * (dev.totalSize / freemapLevel1Size + 1) + 1

/-! ## The machine -/

/-- The merge of the map into entry `e`, unless there is nothing to change; `p'` is the pass after
the round. -/
def mergeEntry (s : State) (p p' : Pass) (e : Nat) : State :=
  let live := s.freemap e
  let bmap := p.cb.bmap p.pos
  if live.bitmapq = bmap.bitmapq ∧ live.linear ≥ bmap.linear ∧
      bigmaskGood bmap (s.bigmask (leafOf e)) = true then { s with pass := some p' }
  else
    let r := syncAdjust live bmap p.adjFree
    { s with
      freemap := Function.update s.freemap e r.1
      bigmask := Function.update s.bigmask (leafOf e) (BitVec.allOnes 32)
      freemapRelaxed := false
      pass := some { p' with adjFree := r.2 } }

/-- One round of the loop of `h2_bulkfree_sync`, with the hint of the leaf; `usable` says that the
leaf comes without an error and can be modified. -/
def syncRound (dev : Dev) (s : State) (p : Pass) (usable : Bool) : State :=
  let dataOff := p.cb.sbase + p.pos * freemapLevel0Size
  let e := dataOff / freemapLevel0Size
  let p' := { p with pos := p.pos + 1 }
  if dataOff < dev.allocatorBeg ∨ dataOff ≥ dev.totalSize then { s with pass := some p' }
  else if s.created (leafOf e) = false ∨ usable = false then { s with pass := some p' }
  else mergeEntry s p p' e

/-- The end of a window: the free space it found is credited. -/
def credit (s : State) (p : Pass) : State :=
  { s with allocatorFree := s.allocatorFree + p.adjFree }

/-- What happens.  A mount begins with any positions of the search, which are but a heuristic. -/
inductive Event where
  | mount (heurFreemap : Nat → Nat)
  | alloc (req : Request)
  | adjust (readable : Bool) (bref : SnapRef)
  | begin (sbase size : Nat) (refs : List SnapRef)
  | sync (usable : Bool)
  | nextWindow (refs : List SnapRef)
  | finish

/-- One event; `none` when it cannot happen or fails an assertion. -/
def step (dev : Dev) (s : State) : Event → Option State
  | .mount heurFreemap =>
      some { s with freemapRelaxed := false, heurFreemap := heurFreemap, pass := none }
  | .alloc req =>
      match freemapAlloc dev req (rounds dev) s with
      | some (_, .panic) => none
      | some (t, _) => some t
      | none => none
  | .adjust readable bref =>
      match Account.freemapAdjust dev s.toState readable bref with
      | none => none
      | some t =>
          let e := bref.dataOff / 64 * 64 / segSize
          -- `modified`: a pair was set
          if t.freemap e = s.freemap e then some { s with toState := t }
          else some { s with
            toState := t
            bigmask := Function.update s.bigmask (leafOf e) (BitVec.allOnes 32)
            freemapRelaxed := false }
  | .begin sbase size refs =>
      match s.pass with
      | some _ => none
      | none =>
          if bulkfreeBase dev sbase < dev.totalSize then
            match passWindow dev refs (bulkfreeSize dev size) (bulkfreeBase dev sbase) with
            | some p => some { s with pass := some p }
            | none => none
          else none
  | .sync usable =>
      match s.pass with
      | none => none
      | some p =>
          if p.cb.sbase + p.pos * freemapLevel0Size < p.cb.sstop then some (syncRound dev s p usable)
          else none
  | .nextWindow refs =>
      match s.pass with
      | none => none
      | some p =>
          if p.cb.sstop ≤ p.cb.sbase + p.pos * freemapLevel0Size ∧ p.cb.sstop < dev.totalSize then
            match passWindow dev refs p.size p.cb.sstop with
            | some p' => some { credit s p with pass := some p' }
            | none => none
          else none
  | .finish =>
      match s.pass with
      | none => none
      | some p => some { credit s p with pass := none }

/-- A filesystem none of whose leaves exists. -/
def init (allocatorFree : BitVec 64) : State where
  created := fun _ => false
  freemap := fun _ => reservedBmap
  allocatorFree := allocatorFree
  bigmask := fun _ => 0
  root := []
  nodes := []
  freemapRelaxed := false
  heurFreemap := fun _ => 0
  pass := none

end Hammer2.Alloc
