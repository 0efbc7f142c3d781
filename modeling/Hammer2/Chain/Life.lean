/-
# `Hammer2.Chain.Life` — references, locks and the end of a chain

    Chain      what `hammer2_chain_t` has of this: `refs`, `lockcnt`, the mutex, the children
    Pc         where a thread is in one of the functions, each compare-and-swap, mutex operation
               and spinlock section a step
    lastdrop   the section of `hammer2_chain_lastdrop` under the spinlocks
    call       a thread begins a function

A thread acts on chains that it has a reference to (`tokens`); `locks` are the
`hammer2_chain_lock`s that it has not undone, and `holds` are its holds on the mutex of a chain.
A step that is `none` cannot be taken now, or it panics.
-/
import Hammer2.Lib.Tokens
import Mathlib.Data.List.Basic
import Mathlib.Logic.Function.Basic

namespace Hammer2.Chain

attribute [local instance] Tokens.lawful_pair

/-- `writer` is who has the mutex exclusively, and how often; `children` is `core.rbtree`.
`static` is a volume root, and the last flags are those of `flags`. -/
structure Chain where
  parent : Option Nat
  refs : Nat
  lockcnt : Nat
  writer : Option (Nat × Nat)
  readers : Nat
  children : List Nat
  chainCount : Nat
  generation : Nat
  static : Bool
  onRbtree : Bool
  update : Bool
  modified : Bool
  deleted : Bool
  destroy : Bool

/-- `hammer2_chain_alloc`: one reference. -/
def Chain.alloc : Chain where
  parent := none
  refs := 1
  lockcnt := 0
  writer := none
  readers := 0
  children := []
  chainCount := 0
  generation := 0
  static := false
  onRbtree := false
  update := false
  modified := false
  deleted := false
  destroy := false

/-! ## The mutex -/

/-- `rrw_enter`, by a thread that may have it already.  `none` is that it is not free. -/
def Chain.enter (x : Chain) (t : Nat) (ex : Bool) : Option Chain :=
  match x.writer with
  | some (u, n) => if u = t then some { x with writer := some (u, n + 1) } else none
  | none =>
      if ex then if x.readers = 0 then some { x with writer := some (t, 1) } else none
      else some { x with readers := x.readers + 1 }

/-- `rrw_exit`.  It does not know the readers. -/
def Chain.exit (x : Chain) (t : Nat) : Option Chain :=
  match x.writer with
  | some (u, n) =>
      if u = t then some { x with writer := if n ≤ 1 then none else some (u, n - 1) } else none
  | none => if x.readers = 0 then none else some { x with readers := x.readers - 1 }

/-! ## Spinlocks -/

/-- A spinlock is that of a chain, or there is none at the address. -/
inductive SpinOp
  | ex (core : Option Nat)
  | unex (core : Option Nat)
deriving DecidableEq

/-- What is taken is released, and nothing else. -/
def balanced : List SpinOp → List Nat → Bool
  | [], held => held = []
  | .ex (some c) :: ops, held => balanced ops (c :: held)
  | .unex (some c) :: ops, held => held.contains c && balanced ops (held.erase c)
  | _, _ => false

/-! ## States -/

/-- `after` is that the chain is dropped when it is unlocked; `again` that the drop is tried
again. -/
inductive Pc
  | idle
  | drop (c : Nat)
  | dropTry (c : Nat)
  | dropCas (c refs : Nat)
  | lastdrop (c : Nat)
  | dropUnlock (c : Nat) (again : Bool)
  | flushing (c : Nat)
  | flushed (c : Nat)
  | freeing (c : Nat) (rdrop : Option Nat)
  | gone (c : Nat) (rdrop : Option Nat)
  | locking (c : Nat) (ex nonblock : Bool)
  | unlock (c : Nat) (after : Bool)
  | unlockCas (c lockcnt : Nat) (after : Bool)
  | upgrade (c : Nat) (after : Bool)
  | unlockLast (c : Nat) (after : Bool)
  | unlockMtx (c : Nat) (after : Bool)
  | unhold (c : Nat)
  | unholdCas (c lockcnt : Nat)
  | unholdTry (c : Nat)
  | refHold (c : Nat)
  | getInsert (parent generation c : Nat)
  | deleting (parent c : Nat)
deriving DecidableEq

/-- `fault` is that a section did not release the spinlocks it had taken. -/
structure State where
  chains : Nat → Option Chain
  next : Nat
  pc : Nat → Pc
  tokens : List (Nat × Nat)
  locks : List (Nat × Nat)
  holds : List (Nat × Nat)
  fault : Bool

/-- The two volume roots, which thread 0 has. -/
def init : State where
  chains := fun c => if c < 2 then some { Chain.alloc with static := true } else none
  next := 2
  pc := fun _ => .idle
  tokens := [(0, 0), (0, 1)]
  locks := []
  holds := []
  fault := false

namespace State

def set (s : State) (c : Nat) (x : Chain) : State :=
  { s with chains := Function.update s.chains c (some x) }

def goto (s : State) (t : Nat) (pc : Pc) : State := { s with pc := Function.update s.pc t pc }

def spin (s : State) (ops : List SpinOp) : State := { s with fault := s.fault || !balanced ops [] }

/-- The reference of `t` is dropped: the caller sets `refs`. -/
def unref (s : State) (t c : Nat) : State := { s with tokens := s.tokens.erase (t, c) }

def hold (s : State) (t c : Nat) : State := { s with holds := (t, c) :: s.holds }

def unhold (s : State) (t c : Nat) : State := { s with holds := s.holds.erase (t, c) }

end State

/-! ## `hammer2_chain_lastdrop` -/

/-- The chain stays: `refs` goes to 0, or the drop is tried again. -/
def stay (s : State) (t c : Nat) (x : Chain) : State :=
  if x.refs = 1 then
    ((s.set c { x with refs := 0 }).unref t c).goto t (.dropUnlock c false)
  else (s.set c x).goto t (.dropUnlock c true)

/-- The last reference is gone with the spinlock of the parent `p` held. -/
def detach (s : State) (t c p : Nat) (x y : Chain) : State :=
  let x' := if x.onRbtree then { x with refs := 0, onRbtree := false, parent := none }
    else { x with refs := 0 }
  let y' := if x.onRbtree then
    { y with children := y.children.erase c, chainCount := y.chainCount - 1 } else y
  let s := (s.set c x').unref t c
  if y'.chainCount = 0 then
    { s.set p { y' with refs := y'.refs + 1 } with tokens := (t, p) :: s.tokens }.goto t
      (.freeing c (some p))
  else (s.set p y').goto t (.freeing c none)

/-- What is done to the flags of a chain without a parent. -/
def Chain.orphan (x : Chain) : Chain :=
  if x.static then { x with update := false }
  else { x with
    destroy := true, update := false, modified := if x.chainCount = 0 then false else x.modified }

def lastdrop (s : State) (t c : Nat) : Option State := do
  let x ← s.chains c
  match x.parent with
  | some p =>
      if x.update ∨ x.modified then some ((stay s t c x).spin [.ex (some c), .unex (some c)])
      else if x.chainCount ≠ 0 then
        some ((stay s t c x).spin [.ex (some c), .unex (some c)])
      else if x.refs ≠ 1 then
        some ((s.goto t (.dropUnlock c true)).spin
          [.ex (some c), .ex (some p), .unex (some p), .unex (some c)])
      else do
        let y ← s.chains p
        some ((detach s t c p x y).spin
          [.ex (some c), .ex (some p), .unex (some p), .unex (some c)])
  | none =>
      let x := x.orphan
      if x.chainCount ≠ 0 then
        if x.static then some ((stay s t c x).spin [.ex (some c), .unex (some c)])
        else some (((s.set c x).goto t (.flushing c)).spin [.ex (some c), .unex (some c)])
      else if x.refs ≠ 1 then
        -- `hammer2_spin_unex(&parent->core.spin)`, with no parent
        some (((s.set c x).goto t (.dropUnlock c true)).spin
          [.ex (some c), .unex none, .unex (some c)])
      else if x.static then
        if x.modified then none
        else some ((stay s t c x).spin [.ex (some c), .unex (some c)])
      else
        some ((((s.set c { x with refs := 0 }).unref t c).goto t (.freeing c none)).spin
          [.ex (some c), .unex (some c)])

/-! ## Steps -/

/-- `hammer2_chain_insert`, in its section. -/
def insert (s : State) (p c : Nat) (x y : Chain) : State :=
  (s.set c { x with parent := some p, onRbtree := true, deleted := false }).set p
    { y with
      children := c :: y.children, chainCount := y.chainCount + 1, generation := y.generation + 1 }

def after (c : Nat) (again : Bool) : Pc := if again then .drop c else .idle

/-- The next step of thread `t`. -/
def run (s : State) (t : Nat) : Option State :=
  match s.pc t with
  | .idle => none
  | .drop c => do
      let x ← s.chains c
      if x.refs = 0 then none
      else some (s.goto t (if x.refs = 1 then .dropTry c else .dropCas c x.refs))
  | .dropTry c => do
      let x ← s.chains c
      match x.enter t true with
      | some x => some (((s.set c x).hold t c).goto t (.lastdrop c))
      | none => some (s.goto t (.drop c))
  | .dropCas c refs => do
      let x ← s.chains c
      if x.refs = refs then
        some (((s.set c { x with refs := refs - 1 }).unref t c).goto t .idle)
      else some (s.goto t (.drop c))
  | .lastdrop c => lastdrop s t c
  | .dropUnlock c again => do
      let x ← s.chains c
      let x ← x.exit t
      some (((s.set c x).unhold t c).goto t (after c again))
  | .flushing c => do
      let x ← s.chains c
      let x ← x.exit t
      some (((s.set c x).unhold t c).goto t (.flushed c))
  | .flushed c => do
      let x ← s.chains c
      let x ← x.enter t true
      some (((s.set c x).hold t c).goto t (.dropUnlock c true))
  | .freeing c rdrop => do
      let x ← s.chains c
      let x ← x.exit t
      some (((s.set c x).unhold t c).goto t (.gone c rdrop))
  | .gone c rdrop =>
      some ({ s with chains := Function.update s.chains c none }.goto t
        (match rdrop with
          | some p => .drop p
          | none => .idle))
  | .locking c ex nonblock => do
      let x ← s.chains c
      match x.enter t ex with
      | some x =>
          some ({ (s.set c x).hold t c with locks := (t, c) :: s.locks }.goto t .idle)
      | none => if nonblock then some (s.goto t (.unhold c)) else none
  | .unlock c a => do
      let x ← s.chains c
      if x.lockcnt = 0 then none
      else if 1 < x.lockcnt then some (s.goto t (.unlockCas c x.lockcnt a))
      else if (x.writer.map Prod.fst) = some t then some (s.goto t (.unlockLast c a))
      else do
        -- `hammer2_mtx_upgrade_try` gives up the shared lock first
        let x ← x.exit t
        some (((s.set c x).unhold t c).goto t (.upgrade c a))
  | .unlockCas c lockcnt a => do
      let x ← s.chains c
      if x.lockcnt = lockcnt then
        some ((s.set c { x with lockcnt := lockcnt - 1 }).goto t (.unlockMtx c a))
      else some (s.goto t (.unlock c a))
  | .upgrade c a => do
      let x ← s.chains c
      match x.enter t true with
      | some x => some (((s.set c x).hold t c).goto t (.unlockLast c a))
      | none => some (s.goto t (.unlock c a))
  | .unlockLast c a => do
      let x ← s.chains c
      if x.lockcnt = 1 then
        some ((s.set c { x with lockcnt := 0 }).goto t (.unlockMtx c a))
      else some (s.goto t (.unlock c a))
  | .unlockMtx c a => do
      let x ← s.chains c
      let x ← x.exit t
      some (((s.set c x).unhold t c).goto t (after c a))
  | .unhold c => do
      let x ← s.chains c
      if 1 < x.lockcnt then some (s.goto t (.unholdCas c x.lockcnt))
      else some (s.goto t (.unholdTry c))
  | .unholdCas c lockcnt => do
      let x ← s.chains c
      if x.lockcnt = lockcnt then
        some ((s.set c { x with lockcnt := lockcnt - 1 }).goto t .idle)
      else some (s.goto t (.unhold c))
  | .unholdTry c => do
      let x ← s.chains c
      match x.enter t true with
      | some x => some (((s.set c x).hold t c).goto t (.unlock c false))
      | none => some (s.goto t (.unhold c))
  | .refHold c => do
      let x ← s.chains c
      some ({ s.set c { x with refs := x.refs + 1 } with tokens := (t, c) :: s.tokens }.goto t
        .idle)
  | .getInsert p generation c => do
      let x ← s.chains c
      let y ← s.chains p
      if y.generation ≠ generation then some (s.goto t (.unlock c true))
      else some ({ insert s p c x y with locks := (t, c) :: s.locks }.goto t .idle)
  | .deleting p c => do
      let x ← s.chains c
      let y ← s.chains p
      some (((s.set c { x with parent := none, onRbtree := false, deleted := true }).set p
        { y with
          children := y.children.erase c
          chainCount := y.chainCount - 1
          generation := y.generation + 1 }).goto t .idle)

inductive Call
  | ref (c : Nat)
  | find (p c : Nat)
  | give (u c : Nat)
  | drop (c : Nat)
  | lock (c : Nat) (ex nonblock : Bool)
  | unlock (c : Nat)
  | refHold (c : Nat)
  | unhold (c : Nat)
  | get (p generation : Nat) (ex : Bool)
  | create
  | insert (p c : Nat)
  | delete (p c : Nat) (blkmapped error : Bool)
  | setflags (c : Nat) (update modified : Bool)

/-- A reference that no lock of the thread relies on. -/
def spare (s : State) (t c : Nat) : Prop :=
  (t, c) ∈ s.tokens ∧ ((t, c) ∈ s.locks → (t, c) ∈ s.tokens.erase (t, c))

instance (s : State) (t c : Nat) : Decidable (spare s t c) := by
  unfold spare
  infer_instance

def owner (x : Chain) (t : Nat) : Prop := x.writer.map Prod.fst = some t

instance (x : Chain) (t : Nat) : Decidable (owner x t) := by
  unfold owner
  infer_instance

/-- A chain of thread `t` alone, locked. -/
def fresh (t : Nat) (ex : Bool) : Chain :=
  if ex then { Chain.alloc with lockcnt := 1, writer := some (t, 1) }
  else { Chain.alloc with lockcnt := 1, readers := 1 }

/-- A thread that is not in a function begins one.  `find` is `hammer2_chain_lookup` where it
gets a child that is in memory; `give` leaves a reference to another thread; `create` and
`insert` are the allocation and the insertion of `hammer2_chain_create`; `setflags` is what
`hammer2_chain_modify` and the flush do to a chain that is locked. -/
def call (s : State) (t : Nat) : Call → Option State
  | .ref c => do
      let x ← s.chains c
      if (t, c) ∈ s.tokens then
        some { s.set c { x with refs := x.refs + 1 } with tokens := (t, c) :: s.tokens }
      else none
  | .find p c => do
      let x ← s.chains c
      let y ← s.chains p
      if (t, p) ∈ s.locks ∧ c ∈ y.children then
        some { s.set c { x with refs := x.refs + 1 } with tokens := (t, c) :: s.tokens }
      else none
  | .give u c =>
      if spare s t c then some { s with tokens := (u, c) :: s.tokens.erase (t, c) } else none
  | .drop c => if spare s t c then some (s.goto t (.drop c)) else none
  | .lock c ex nonblock => do
      let x ← s.chains c
      if (t, c) ∈ s.tokens then
        some ((s.set c { x with lockcnt := x.lockcnt + 1 }).goto t (.locking c ex nonblock))
      else none
  | .unlock c =>
      if (t, c) ∈ s.locks then
        some ({ s with locks := s.locks.erase (t, c) }.goto t (.unlock c false))
      else none
  | .refHold c => do
      let x ← s.chains c
      if (t, c) ∈ s.locks then
        some ((s.set c { x with lockcnt := x.lockcnt + 1 }).goto t (.refHold c))
      else none
  | .unhold c => if (t, c) ∈ s.tokens then some (s.goto t (.unhold c)) else none
  | .get p generation ex =>
      if (t, p) ∈ s.locks then
        some ({ s.set s.next (fresh t ex) with
          next := s.next + 1
          tokens := (t, s.next) :: s.tokens
          holds := (t, s.next) :: s.holds }.goto t (.getInsert p generation s.next))
      else none
  | .create =>
      some { s.set s.next (fresh t true) with
        next := s.next + 1
        tokens := (t, s.next) :: s.tokens
        holds := (t, s.next) :: s.holds
        locks := (t, s.next) :: s.locks }
  | .insert p c => do
      let x ← s.chains c
      let y ← s.chains p
      if (t, p) ∈ s.locks ∧ (t, c) ∈ s.locks ∧ p ≠ c ∧ x.parent = none ∧ x.static = false then
        some (insert s p c x y)
      else none
  | .delete p c blkmapped error => do
      let x ← s.chains c
      let y ← s.chains p
      if (t, p) ∈ s.locks ∧ (t, c) ∈ s.locks ∧ owner x t ∧ owner y t ∧ x.parent = some p then
        -- `hammer2_chain_modify(parent)`, which may fail
        if blkmapped ∧ error then some s
        else
          some ((s.set p { y with modified := y.modified || blkmapped }).goto t (.deleting p c))
      else none
  | .setflags c update modified => do
      let x ← s.chains c
      if (t, c) ∈ s.locks ∧ owner x t then
        some (s.set c { x with update := update, modified := modified })
      else none

/-- `flush t u` is the `hammer2_flush` of `hammer2_chain_lastdrop`, which takes a reference of
its own and acts as a thread of its own. -/
inductive Event
  | run (t : Nat)
  | call (t : Nat) (f : Call)
  | flush (t u : Nat)

def step (s : State) : Event → Option State
  | .run t => run s t
  | .call t f => if s.pc t = .idle then call s t f else none
  | .flush t u =>
      match s.pc t with
      | .flushing c => do
          let x ← s.chains c
          some { s.set c { x with refs := x.refs + 1 } with tokens := (u, c) :: s.tokens }
      | _ => none

end Hammer2.Chain
