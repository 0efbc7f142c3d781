/-
# `Hammer2.Io.Cache` — the cache of device buffers

A DIO is the 64KB device buffer of a block for as long as someone has a reference to it, and
stays in the hash for a while after that.

    alloc      `hammer2_io_alloc`, under `iohash_lock`
    fill       the rest of `hammer2_io_getblk`, under `dio->lock`
    put        `hammer2_io_putblk` up to the unlock of `dio->lock`
    putTail    the rest of it, with `hammer2_io_hash_cleanup`, under `iohash_lock`

A section under a lock is one step, and so is a use of a DIO without a lock.  `none` is a step
that cannot be taken now, or one that ends in a panic.
-/
import Hammer2.Dedup.Dio
import Hammer2.Lib.Tokens

namespace Hammer2.Io

attribute [local instance] Tokens.lawful_pair

/-- The bytes of a 64KB block. -/
abbrev Block := Nat → UInt8

def bzero (b : Block) (off len : Nat) : Block :=
  fun i => if off ≤ i ∧ i < off + len then 0 else b i

/-- `refs` is the low part of the word; `good`, `dirty` and `flush` are its flags.  `locked` is
that a thread keeps `lock` from one step to the next. -/
structure Dio where
  pbase : Nat
  refs : Nat
  good : Bool
  dirty : Bool
  flush : Bool
  bp : Option Block
  act : Int
  ticks : Int
  error : Bool
  dedupValid : BitVec 64
  dedupAlloc : BitVec 64
  locked : Bool

inductive Op
  | read
  | new
  | newnz
deriving DecidableEq

inductive DedupOp
  | set
  | delete
  | assert
deriving DecidableEq

/-- Where a thread is: outside, in `hammer2_io_getblk` with the lock, in a dedup function with
the lock, at the end of `hammer2_io_putblk` without it. -/
inductive Pc
  | idle
  | fill (d : Nat) (op : Op) (lbase lsize : Nat)
  | dedup (d : Nat) (op : DedupOp) (dataOff bytes : Nat)
  | putTail (d : Nat)
deriving DecidableEq

/-- `tokens` are the references, each with the thread that has it.  `media` is what a read of
the block returns, with all writes that are on their way.  `content` is what the block should
be, and `marked` that some of this has been marked dirty and not been written since. -/
structure State where
  dios : Nat → Option Dio
  nextDio : Nat
  iohash : Nat → List Nat
  iofreeCount : Int
  ioIterator : Nat
  pc : Nat → Pc
  tokens : List (Nat × Nat)
  media : Nat → Block
  content : Nat → Block
  marked : Nat → Bool

def init (media : Nat → Block) : State where
  dios := fun _ => none
  nextDio := 0
  iohash := fun _ => []
  iofreeCount := 0
  ioIterator := 0
  pc := fun _ => .idle
  tokens := []
  media := media
  content := media
  marked := fun _ => false

/-- `HAMMER2_IOHASH_SIZE` -/
abbrev iohashSize : Nat := 1024

/-- `hammer2_io_hashv` -/
def hashv (pbase : Nat) : Nat := (pbase + pbase / pbufSize) % iohashSize

namespace State

def setDio (s : State) (d : Nat) (x : Dio) : State :=
  { s with dios := Function.update s.dios d (some x) }

def setPc (s : State) (t : Nat) (pc : Pc) : State := { s with pc := Function.update s.pc t pc }

/-- The block gets new content. -/
def write (s : State) (p : Nat) (b : Block) : State :=
  { s with content := Function.update s.content p b }

def mark (s : State) (p : Nat) : State := { s with marked := Function.update s.marked p true }

end State

/-! ## `hammer2_io_alloc` -/

/-- `hammer2_io_hash_lookup`: the search of a hash chain. -/
def hashLookup (s : State) (pbase : Nat) : Option (Nat × Dio) :=
  (s.iohash (hashv pbase)).findSome? fun d =>
    match s.dios d with
    | some x => if x.pbase = pbase then some (d, x) else none
    | none => none

def Dio.touch (x : Dio) (now : Int) : Dio :=
  { x with ticks := now, act := if x.act < 10 then x.act + 1 else x.act, locked := true }

/-- A new DIO, zeroed but for these fields. -/
def Dio.create (pbase : Nat) : Dio where
  pbase := pbase
  refs := 1
  good := false
  dirty := false
  flush := false
  bp := none
  act := 5
  ticks := 0
  error := false
  dedupValid := 0
  dedupAlloc := 0
  locked := true

/-- `hammer2_io_alloc`: the DIO, locked and with a reference for the thread.  A thread that
holds the lock has to let it go first.  With `iohash_lock` held there is no collision in
`hammer2_io_hash_enter`. -/
def alloc (s : State) (t dataOff : Nat) (createit : Bool) (now : Int) :
    Option (Option Nat × State) := do
  let pbase ← Dedup.ioBase dataOff
  match hashLookup s pbase with
  | some (d, x) =>
      if x.locked then none
      else
        some (some d, { s.setDio d ({ x with refs := x.refs + 1 }.touch now) with
          iofreeCount := if x.refs = 0 then s.iofreeCount - 1 else s.iofreeCount
          tokens := (t, d) :: s.tokens })
  | none =>
      if createit then
        let h := hashv pbase
        some (some s.nextDio, { s.setDio s.nextDio ((Dio.create pbase).touch now) with
          nextDio := s.nextDio + 1
          iohash := Function.update s.iohash h (s.iohash h ++ [s.nextDio])
          tokens := (t, s.nextDio) :: s.tokens })
      else some (none, s)

/-! ## `hammer2_io_getblk` -/

/-- `HAMMER2_DOP_READQ` does not create a DIO. -/
def getblk (s : State) (t lbase lsize : Nat) (op : Op) (quick : Bool) (now : Int) :
    Option State := do
  if 2 ^ (lbase % 64) ≠ lsize then none
  else
    match ← alloc s t lbase (!quick) now with
    | (some d, s) => some (s.setPc t (.fill d (if quick then .read else op) lbase lsize))
    | (none, s) => some s

/-- The data of the range is zeroed for NEW, and is dirty for NEW and NEWNZ. -/
def Dio.applyOp (x : Dio) (op : Op) (b : Block) (lbase lsize : Nat) : Dio × Option Block :=
  match op with
  | .read => ({ x with bp := some b }, none)
  | .new =>
      let b := bzero b (lbase / 64 * 64 - x.pbase) lsize
      ({ x with bp := some b, dirty := true }, some b)
  | .newnz => ({ x with bp := some b, dirty := true }, some b)

/-- The state after the operation: what was marked is content of the block. -/
def State.applied (s : State) (d : Nat) : Dio × Option Block → State
  | (x, some b) => ((s.setDio d x).write x.pbase b).mark x.pbase
  | (x, none) => s.setDio d x

/-- The rest of `hammer2_io_getblk`.  `garbage` is what a buffer of `getblk()` holds, `err` that
`bread()` fails. -/
def fill (s : State) (d : Nat) (op : Op) (lbase lsize : Nat) (err : Bool) (garbage : Block) :
    Option State := do
  let x ← s.dios d
  if x.good then
    let b ← x.bp
    some (s.applied d ({ x with locked := false }.applyOp op b lbase lsize))
  else if x.bp.isSome then none
  else if x.pbase = lbase / 64 * 64 ∧ lsize = pbufSize ∧ op ≠ .read then
    some (s.applied d
      ({ x with locked := false, error := false, good := true }.applyOp op garbage lbase lsize))
  else if err then some (s.setDio d { x with locked := false, error := true })
  else
    some (s.applied d
      ({ x with locked := false, error := false, good := true }.applyOp op (s.media x.pbase)
        lbase lsize))

/-! ## Dedup masks -/

/-- The locked part of a dedup function. -/
def dedupApply (s : State) (d : Nat) (op : DedupOp) (dataOff bytes : Nat) : Option State := do
  let x ← s.dios d
  let mask := Dedup.dedupMask x.pbase dataOff bytes
  match op with
  | .set =>
      some (s.setDio d { x with
        locked := false
        dedupValid := x.dedupValid &&& ~~~mask
        dedupAlloc := x.dedupAlloc ||| mask })
  | .delete =>
      if dataOff < x.pbase ∨ x.pbase + pbufSize < dataOff / 64 * 64 + bytes then none
      else
        some (s.setDio d { x with
          locked := false
          dedupValid := x.dedupValid &&& ~~~mask
          dedupAlloc := x.dedupAlloc &&& ~~~mask })
  | .assert =>
      if x.dedupAlloc &&& mask = 0 then some (s.setDio d { x with locked := false }) else none

/-- The part under `iohash_lock` of `hammer2_io_dedup_set`, `_delete` and `_assert`. -/
def dedup (s : State) (t : Nat) (op : DedupOp) (btype dataOff bytes : Nat) (now : Int) :
    Option State := do
  if op = .delete ∧ (dataOff / 64 * 64 = 0 ∨ btype ≠ brefTypeData) then some s
  else
    match ← alloc s t dataOff (decide (op = .set)) now with
    | (some d, s) =>
        some (s.setPc t (.dedup d op dataOff (if op = .set then Dedup.offBytes dataOff else bytes)))
    | (none, s) => some s

/-! ## `hammer2_io_putblk` -/

/-- The last reference goes: a dirty buffer is written, a clean one that was changed without
being marked falls back to the media. -/
def dispose (s : State) (d : Nat) (x : Dio) : State :=
  let s := s.setDio d { x with refs := 0, good := false, dirty := false, bp := none }
  match x.bp with
  | some b =>
      if x.good then
        if x.dirty then
          -- `bawrite()` or `bdwrite()`
          { s with
            media := Function.update s.media x.pbase b
            marked := Function.update s.marked x.pbase false }
        else s.write x.pbase (s.media x.pbase)
      else s
  | none => s

def put (s : State) (t d : Nat) : Option State := do
  let x ← s.dios d
  if x.locked ∨ (t, d) ∉ s.tokens then none
  else if x.refs = 0 then some s
  else
    let tokens := s.tokens.erase (t, d)
    if x.refs = 1 then
      let s := { dispose s d x with tokens := tokens, iofreeCount := s.iofreeCount + 1 }
      some (s.setPc t (.putTail d))
    else some { s.setDio d { x with refs := x.refs - 1 } with tokens := tokens }

/-- The loop over a hash chain: what stays, and how many may still go. -/
def cleanChain (now hz : Int) : List Nat → State → Int → Option (List Nat × State × Int)
  | [], s, count => some ([], s, count)
  | d :: ds, s, count => do
      let x ← s.dios d
      if x.refs ≠ 0 then
        let (kept, s, count) ← cleanChain now hz ds s count
        some (d :: kept, s, count)
      else
        let act := if x.act > 0 then max 0 (x.act - (now - x.ticks).tdiv hz - 1) else x.act
        if act ≠ 0 then
          let (kept, s, count) ← cleanChain now hz ds (s.setDio d { x with act }) count
          some (d :: kept, s, count)
        else if x.bp.isSome then none
        else
          cleanChain now hz ds
            { s with dios := Function.update s.dios d none, iofreeCount := s.iofreeCount - 1 }
            (count - 1)

/-- `while (count > 0 && maxscan--)`, at the hash chain `i`. -/
def cleanLoop (now hz : Int) : Nat → Nat → State → Int → Option State
  | 0, _, s, _ => some s
  | maxscan + 1, i, s, count =>
      if count ≤ 0 then some s
      else do
        let h := i % iohashSize
        let (kept, s, count) ← cleanChain now hz (s.iohash h) s count
        cleanLoop now hz maxscan s.ioIterator
          { s with iohash := Function.update s.iohash h kept, ioIterator := s.ioIterator + 1 } count

/-- `hammer2_io_hash_cleanup` -/
def cleanup (s : State) (dioLimit now hz : Int) : Option State :=
  if s.iofreeCount - dioLimit + 32 ≤ 0 then some s
  else
    cleanLoop now hz iohashSize s.ioIterator { s with ioIterator := s.ioIterator + 1 }
      (s.iofreeCount - dioLimit + 32)

/-- The rest of `hammer2_io_putblk`, with the limit as it is set. -/
def putTail (s : State) (t : Nat) (limit now hz : Int) : Option State := do
  let dioLimit := min (max limit 256) (1024 * 1024)
  let s := s.setPc t .idle
  if s.iofreeCount > dioLimit then cleanup s dioLimit now hz else some s

/-! ## Steps -/

inductive Event
  | getblk (t lbase lsize : Nat) (op : Op) (quick : Bool) (now : Int)
  | fill (t : Nat) (err : Bool) (garbage : Block)
  | dedup (t : Nat) (op : DedupOp) (btype dataOff bytes : Nat) (now : Int)
  | dedupApply (t : Nat)
  | modify (t d : Nat) (f : Block → Block)
  | setdirty (t d : Nat) (flush : Bool)
  | give (t u d : Nat)
  | put (t d : Nat)
  | putTail (t : Nat) (limit now hz : Int)

/-- A thread that has a reference may change the data, mark it dirty, and leave the reference
to another thread (with the chain that keeps it).  `hammer2_io_bdwrite` and
`hammer2_io_bawrite` mark before `hammer2_io_putblk`. -/
def step (s : State) : Event → Option State
  | .getblk t lbase lsize op quick now =>
      match s.pc t with
      | .idle => getblk s t lbase lsize op quick now
      | _ => none
  | .fill t err garbage =>
      match s.pc t with
      | .fill d op lbase lsize => (fill s d op lbase lsize err garbage).map (·.setPc t .idle)
      | _ => none
  | .dedup t op btype dataOff bytes now =>
      match s.pc t with
      | .idle => dedup s t op btype dataOff bytes now
      | _ => none
  | .dedupApply t =>
      match s.pc t with
      | .dedup d op dataOff bytes => (dedupApply s d op dataOff bytes).map (·.setPc t .idle)
      | _ => none
  | .modify t d f =>
      if s.pc t ≠ .idle ∨ (t, d) ∉ s.tokens then none
      else do
        let x ← s.dios d
        let b ← x.bp
        some ((s.setDio d { x with bp := some (f b) }).write x.pbase (f b))
  | .setdirty t d flush =>
      if s.pc t ≠ .idle ∨ (t, d) ∉ s.tokens then none
      else do
        let x ← s.dios d
        let s := s.setDio d { x with dirty := true, flush := x.flush || flush }
        some (if x.good then s.mark x.pbase else s)
  | .give t u d =>
      if s.pc t ≠ .idle ∨ (t, d) ∉ s.tokens then none
      else some { s with tokens := (u, d) :: s.tokens.erase (t, d) }
  | .put t d =>
      match s.pc t with
      | .idle => put s t d
      | _ => none
  | .putTail t limit now hz =>
      match s.pc t with
      | .putTail _ => putTail s t limit now hz
      | _ => none

end Hammer2.Io
