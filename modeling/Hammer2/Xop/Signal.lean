/-
# `Hammer2.Xop.Signal` — requests to a worker thread

The flags of a `hammer2_thread_t` carry the requests to the thread, its answers, and one WAITING
bit for all who sleep on them.

    Pc        where a thread is in `hammer2_thr_signal`, `hammer2_thr_wait`, and their like, in
              the loop of `hammer2_primary_xops_thread` or `hammer2_primary_flush_thread`,
              or in a request; `k` is where it goes on afterwards
    run       one read, one compare-and-swap, one `wakeup()` or one section under `xop_spin`
    call      a thread begins a request
    timeout   a sleep with a timeout ends

`tsleep_interlock` does nothing, so a thread that has set WAITING is not asleep until a step
later.
-/
import Hammer2.Xop.Order

namespace Hammer2.Xop.Signal

open Hammer2.Xop.Order (Addr nextLoop)

structure Flags where
  waiting : Bool := false
  remaster : Bool := false
  stop : Bool := false
  freeze : Bool := false
  frozen : Bool := false
  xopq : Bool := false
  stopped : Bool := false
  unfreeze : Bool := false
deriving DecidableEq

namespace Flags

def zero : Flags := {}
def or (a b : Flags) : Flags :=
  ⟨a.waiting || b.waiting, a.remaster || b.remaster, a.stop || b.stop, a.freeze || b.freeze,
    a.frozen || b.frozen, a.xopq || b.xopq, a.stopped || b.stopped, a.unfreeze || b.unfreeze⟩

def and (a b : Flags) : Flags :=
  ⟨a.waiting && b.waiting, a.remaster && b.remaster, a.stop && b.stop, a.freeze && b.freeze,
    a.frozen && b.frozen, a.xopq && b.xopq, a.stopped && b.stopped, a.unfreeze && b.unfreeze⟩

/-- `a & ~b` -/
def clear (a b : Flags) : Flags :=
  ⟨a.waiting && !b.waiting, a.remaster && !b.remaster, a.stop && !b.stop, a.freeze && !b.freeze,
    a.frozen && !b.frozen, a.xopq && !b.xopq, a.stopped && !b.stopped, a.unfreeze && !b.unfreeze⟩

end Flags

/-- `HAMMER2_THREAD_WAITING` and so on. -/
def WAITING : Flags := { waiting := true }
def REMASTER : Flags := { remaster := true }
def STOP : Flags := { stop := true }
def FREEZE : Flags := { freeze := true }
def FROZEN : Flags := { frozen := true }
def XOPQ : Flags := { xopq := true }
def STOPPED : Flags := { stopped := true }
def UNFREEZE : Flags := { unfreeze := true }

/-- What `hammer2_thr_wait`, `hammer2_thr_wait_any` and `hammer2_thr_wait_neg` wait for. -/
inductive Wait
  | all (flags : Flags)
  | any (flags : Flags)
  | neg (flags : Flags)
deriving DecidableEq

def Wait.holds : Wait → Flags → Bool
  | .all flags, o => o.and flags = flags
  | .any flags, o => o.and flags ≠ .zero
  | .neg flags, o => o.and flags = .zero

inductive Pc
  /-- Outside. -/
  | idle
  /-- In `hammer2_thr_delete`, with the thread gone. -/
  | deleted
  /-- In `hammer2_thr_signal2`: before the read, before the compare-and-swap, before `wakeup()`. -/
  | signal (pos neg : Flags) (k : Pc)
  | cas (oflags pos neg : Flags) (k : Pc)
  | wakeup (k : Pc)
  /-- In one of the waits, the same. -/
  | wait (w : Wait) (timo : Nat) (k : Pc)
  | waitCas (oflags : Flags) (w : Wait) (timo : Nat) (k : Pc)
  /-- Before and in a `tsleep()`, with where it goes on from there. -/
  | tsleep (timo : Nat) (k expired : Pc)
  | asleep (timo : Nat) (k expired : Pc)
  /-- In the loop of a worker, which has read `flags`. -/
  | top
  | xopqCas (flags : Flags)
  | next (flags : Flags)
  | storage (flags : Flags) (x : Nat)
  | dequeue (flags : Flags) (x : Nat)
  | dequeued (flags : Flags)
  | retire (flags : Flags)
  | flush
  | idleCas (flags : Flags)
  | exit
  | gone
deriving DecidableEq

inductive Kind
  | xops
  | flush
deriving DecidableEq

/-- `ips` are the inodes of an XOP. -/
structure Config where
  kind : Kind
  sizeofInode : BitVec 64
  thr : Addr
  ips : Nat → List Addr

/-- Thread 0 is the worker.  `td` is that `thr->td` is set. -/
structure State where
  flags : Flags
  td : Bool
  xopq : List Nat
  fifoRun : Nat → Bool
  pc : Nat → Pc

def init : State where
  flags := .zero
  td := true
  xopq := []
  fifoRun := fun _ => false
  pc := fun t => if t = 0 then .top else .idle

abbrev hz : Nat := 100

def State.goto (s : State) (t : Nat) (pc : Pc) : State :=
  { s with pc := Function.update s.pc t pc }

/-- Where a sleeper goes on when it is woken. -/
def Pc.wake : Pc → Pc
  | .asleep _ k _ => k
  | pc => pc

/-- `wakeup(&thr->flags)` -/
def State.wakeAll (s : State) : State := { s with pc := fun t => (s.pc t).wake }

/-! ## The functions -/

/-- `hammer2_thr_signal` -/
def signal (flags : Flags) (k : Pc) : Pc := .signal flags .zero k

/-- What a wait goes on with when its `tsleep()` times out. -/
def expired (w : Wait) (timo : Nat) (k : Pc) : Pc :=
  match w with
  | .any _ => k
  | _ => .wait w timo k

def frozenWait : Wait := .any (UNFREEZE.or STOP)

/-- The branches of `hammer2_primary_xops_thread`, and those of `hammer2_primary_flush_thread`. -/
def dispatch (kind : Kind) (flags : Flags) : Pc :=
  match kind with
  | .xops =>
      if flags.stop then .exit
      else if flags.freeze then .signal FROZEN FREEZE .top
      else if flags.unfreeze then .signal .zero (FROZEN.or UNFREEZE) .top
      else if flags.frozen then .wait frozenWait 0 .top
      else if flags.remaster then .signal .zero REMASTER .top
      else if flags.xopq then .xopqCas flags
      else .next flags
  | .flush =>
      if flags.stop then .exit
      else if flags.xopq then .xopqCas flags
      else .idleCas flags

/-- What follows on the XOPQ flag is taken. -/
def work (kind : Kind) (flags : Flags) : Pc :=
  match kind with
  | .xops => .next flags
  | .flush => .flush

def idleTimo : Kind → Nat
  | .xops => hz * 30
  | .flush => hz

/-- `hammer2_xop_next` -/
def xopNext (c : Config) (s : State) : Option Nat :=
  nextLoop c.sizeofInode c.thr c.ips s.fifoRun s.xopq fun _ => 0#32

/-- The next step of thread `t`. -/
def run (c : Config) (s : State) (t : Nat) : Option State :=
  match s.pc t with
  | .idle => none
  | .deleted => if s.xopq = [] then some (s.goto t .idle) else none
  | .signal pos neg k => some (s.goto t (.cas s.flags pos neg k))
  | .cas o pos neg k =>
      if s.flags = o then
        some ({ s with flags := (o.or pos).clear (neg.or WAITING) }.goto t
          (if o.waiting then .wakeup k else k))
      else some (s.goto t (.signal pos neg k))
  | .wakeup k => some (s.wakeAll.goto t k)
  | .wait w timo k =>
      if w.holds s.flags then some (s.goto t k) else some (s.goto t (.waitCas s.flags w timo k))
  | .waitCas o w timo k =>
      if s.flags = o then
        some ({ s with flags := o.or WAITING }.goto t
          (.tsleep timo (.wait w timo k) (expired w timo k)))
      else some (s.goto t (.wait w timo k))
  | .tsleep timo k e => some (s.goto t (.asleep timo k e))
  | .asleep _ _ _ => none
  | .top => some (s.goto t (dispatch c.kind s.flags))
  | .xopqCas o =>
      if s.flags = o then
        some ({ s with flags := o.clear XOPQ }.goto t (work c.kind (o.clear XOPQ)))
      else some (s.goto t .top)
  | .next flags =>
      match xopNext c s with
      | some x =>
          some ({ s with fifoRun := Function.update s.fifoRun x true }.goto t (.storage flags x))
      | none => some (s.goto t (.idleCas flags))
  | .storage flags x => some (s.goto t (.dequeue flags x))
  | .dequeue flags x =>
      some ({ s with
        xopq := s.xopq.erase x
        fifoRun := Function.update s.fifoRun x false }.goto t (.dequeued flags))
  | .dequeued flags =>
      some (s.goto t (if s.xopq ≠ [] then signal XOPQ (.retire flags) else .retire flags))
  | .retire flags => some (s.goto t (.next flags))
  | .flush => some (s.goto t .top)
  | .idleCas o =>
      if s.flags = o then
        some ({ s with flags := o.or WAITING }.goto t (.tsleep (idleTimo c.kind) .top .top))
      else some (s.goto t .top)
  | .exit => some ({ s with td := false }.goto t (signal STOPPED .gone))
  | .gone => none

/-- `start` is `hammer2_xop_start_except` for this worker, with an XOP that is not queued;
`kick` is what wakes a worker without an XOP for it. -/
inductive Op
  | start (x : Nat)
  | kick
  | freezeAsync
  | freeze
  | unfreeze
  | remaster
  | delete
deriving DecidableEq

/-- A request of thread `t`. -/
def call (c : Config) (s : State) (t : Nat) : Op → Option State
  | .start x =>
      if c.kind = .xops ∧ x ∉ s.xopq then
        some ({ s with xopq := s.xopq ++ [x] }.goto t (signal XOPQ .idle))
      else none
  | .kick => some (s.goto t (signal XOPQ .idle))
  | .freezeAsync => some (s.goto t (signal FREEZE .idle))
  | .freeze =>
      if s.td then some (s.goto t (signal FREEZE (.wait (.all FROZEN) hz .idle))) else some s
  | .unfreeze =>
      if s.td then some (s.goto t (signal UNFREEZE (.wait (.neg FROZEN) hz .idle))) else some s
  | .remaster => if s.td then some (s.goto t (signal REMASTER .idle)) else some s
  | .delete =>
      if s.td then some (s.goto t (signal STOP (.wait (.all STOPPED) hz .deleted))) else some s

inductive Event
  | run (t : Nat)
  | call (t : Nat) (op : Op)
  | timeout (t : Nat)
deriving DecidableEq

def step (c : Config) (s : State) : Event → Option State
  | .run t => run c s t
  | .call t op => if t ≠ 0 ∧ s.pc t = .idle then call c s t op else none
  | .timeout t =>
      match s.pc t with
      | .asleep timo _ e => if timo ≠ 0 then some (s.goto t e) else none
      | _ => none

end Hammer2.Xop.Signal
