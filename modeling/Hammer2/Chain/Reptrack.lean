/-
# `Hammer2.Chain.Reptrack` — walking upwards while indirect blocks are deleted

A thread that goes from a chain to its parent may have to let go of the chain before it gets the
lock of the parent.  It leaves a record (`reptrack`) on a list of the parent; the thread that
deletes an indirect block moves the records on its list to the list of the block's parent.

    Pc               where a thread is in one of the functions
    repparent        hammer2_chain_repparent, a step for each section
    maintenance      hammer2_chain_indirect_maintenance and hammer2_chain_repchange
    step             one step of one thread

A section under spinlocks is one step, and what ends a section of a chain lock is one step with
the `hammer2_chain_drop` after it.  Who has the lock of a chain is told by where the threads are.
A step that is `none` has to wait, or it panics.
-/
import Mathlib.Data.Fintype.Basic
import Mathlib.Logic.Function.Basic

namespace Hammer2.Reptrack

/-- How a chain is locked. -/
inductive Mode where
  | shared
  | ex
deriving DecidableEq

/-- Where a thread is.  `chain` is the chain it came from, `parent` the one it goes to, `mode` is
how the former is locked and `flags` how the latter is to be.  `origin` is the parent at the
beginning of the call: no code has it. -/
inductive Pc (C : Type) where
  | idle
  | walk (chain : C) (mode : Mode) (origin : Option C)
  | tryLock (chain parent : C) (mode flags : Mode)
  | entered (chain parent : C) (mode flags : Mode)
  | failed (chain parent : C) (mode flags : Mode)
  | inited (chain parent : C) (mode flags : Mode)
  | tracked (chain parent : C) (mode flags : Mode)
  | waiting (parent : C) (flags : Mode) (origin : C)
  | locked (parent : C) (flags : Mode) (origin : C)
  | mismatch (parent : C) (flags : Mode) (origin : C)
  | reload (flags : Mode) (origin : C)
  | matched (parent : C) (flags : Mode) (origin : C)
  | unlinked (parent : C) (flags : Mode) (origin : C)
  | parentHeld (parent : C)
  | flush (parent chain : C)
  | moving (parent chain : C)
  | movingSub (parent chain sub : C)
  | repchange (parent chain : C)
  | flushed (parent chain : C)
deriving DecidableEq

/-- The locks a thread has. -/
def held {C : Type} : Pc C → List (C × Mode)
  | .idle | .waiting .. | .reload .. => []
  | .walk c m _ | .tryLock c _ m _ | .failed c _ m _ | .inited c _ m _ | .tracked c _ m _ => [(c, m)]
  | .entered c p m f => [(c, m), (p, f)]
  | .locked p f _ | .mismatch p f _ | .matched p f _ | .unlinked p f _ => [(p, f)]
  | .parentHeld p => [(p, .ex)]
  | .flush p c | .moving p c | .repchange p c | .flushed p c => [(p, .ex), (c, .ex)]
  | .movingSub p c d => [(p, .ex), (c, .ex), (d, .ex)]

/-- The references a thread has, but for that of its record. -/
def owned {C : Type} : Pc C → List C
  | .idle | .reload .. => []
  | .walk c .. => [c]
  | .tryLock c p .. | .entered c p .. | .failed c p .. | .inited c p .. | .tracked c p .. => [c, p]
  | .waiting p .. | .locked p .. | .mismatch p .. | .matched p .. | .unlinked p .. | .parentHeld p => [p]
  | .flush p c | .moving p c | .repchange p c | .flushed p c => [p, c]
  | .movingSub p c d => [p, c, d]

/-- From the insertion of the record to its removal. -/
def listed {C : Type} : Pc C → Bool
  | .tracked .. | .waiting .. | .locked .. | .mismatch .. | .reload .. | .matched .. => true
  | _ => false

/-- `parent` and the flag DELETED of the chains.  `into` is the parent a chain had when it was
deleted: no code has it. -/
structure Topo (C : Type) where
  parent : C → Option C
  deleted : C → Bool
  into : C → Option C

/-- `list` is `core.reptrack` of a chain.  The record of a thread is on its stack: `track` is its
`chain` and `spin` whether its `spin` is held. -/
structure State (C T : Type) where
  topo : Topo C
  refs : C → Nat
  list : C → List T
  track : T → Option C
  spin : T → Bool
  pc : T → Pc C

inductive Act (C : Type) where
  | next
  | acquire (chain : C) (mode : Mode)
  | leave
  | call (flags : Mode)
  | tryLock (ok : Bool)
  | holdParent (parent : C)
  | holdChild (chain : C)
  | deleteEmpty (ok : Bool)
  | collapse
  | sub (chain : C)

section

variable {C T : Type} [DecidableEq C] [DecidableEq T] [Fintype C] [Fintype T]

/-- The lock of `c` can be taken. -/
def Avail (s : State C T) (c : C) (m : Mode) : Prop :=
  ∀ u, ∀ h ∈ held (s.pc u), h.1 = c → m = .shared ∧ h.2 = .shared

instance (s : State C T) (c : C) (m : Mode) : Decidable (Avail s c m) :=
  inferInstanceAs (Decidable (∀ u, ∀ h ∈ held (s.pc u), h.1 = c → m = .shared ∧ h.2 = .shared))

/-- `live_count` is zero and `rbtree` is empty. -/
def Childless (s : State C T) (c : C) : Prop := ∀ d, s.topo.parent d ≠ some c

instance (s : State C T) (c : C) : Decidable (Childless s c) :=
  inferInstanceAs (Decidable (∀ d, s.topo.parent d ≠ some c))

def State.goto (s : State C T) (t : T) (q : Pc C) : State C T :=
  { s with pc := Function.update s.pc t q }

/-- `hammer2_chain_ref` -/
def State.ref (s : State C T) (c : C) : State C T :=
  { s with refs := Function.update s.refs c (s.refs c + 1) }

/-- `hammer2_chain_drop` -/
def State.drop (s : State C T) (c : C) : State C T :=
  { s with refs := Function.update s.refs c (s.refs c - 1) }

/-- `hammer2_chain_delete` with `HAMMER2_DELETE_PERMANENT`, when it succeeds. -/
def State.delete (s : State C T) (c : C) : State C T :=
  { s with topo := {
      parent := Function.update s.topo.parent c none
      deleted := Function.update s.topo.deleted c true
      into := Function.update s.topo.into c (s.topo.parent c) } }

/-- `hammer2_chain_delete_obref` and `hammer2_chain_rename_obref` of a sub-chain. -/
def State.move (s : State C T) (d p : C) : State C T :=
  { s with topo := { s.topo with parent := Function.update s.topo.parent d (some p) } }

/-- The section of `hammer2_chain_repchange`: the record `u` goes from `c` to `p`.  Its spinlock is
taken and not released. -/
def State.migrate (s : State C T) (p c : C) (u : T) (rest : List T) : State C T :=
  { s with
    list := Function.update (Function.update s.list c rest) p (u :: s.list p)
    track := Function.update s.track u (some p)
    spin := Function.update s.spin u true }

/-- A walking thread.  `indirect` says which chains are indirect blocks: from others no walk goes
on. -/
def repparent (indirect : C → Bool) (s : State C T) (t : T) : Pc C → Act C → Option (State C T)
  | .idle, .acquire c m =>
      if s.topo.deleted c = false ∧ Avail s c m then some ((s.ref c).goto t (.walk c m none)) else none
  | .walk c _ _, .leave => some ((s.drop c).goto t .idle)
  | .walk c m _, .call f =>
      if indirect c then
        match s.topo.parent c with
        | none => none
        | some p => some ((s.ref p).goto t (.tryLock c p m f))
      else none
  | .tryLock c p m f, .tryLock ok =>
      if ok then if Avail s p f then some (s.goto t (.entered c p m f)) else none
      else some (s.goto t (.failed c p m f))
  | .entered c p _ f, .next => some ((s.drop c).goto t (.walk p f (some p)))
  | .failed c p m f, .next =>
      some { (s.ref p).goto t (.inited c p m f) with
        track := Function.update s.track t (some p)
        spin := Function.update s.spin t false }
  | .inited c p m f, .next =>
      some { s.goto t (.tracked c p m f) with list := Function.update s.list p (t :: s.list p) }
  | .tracked c p _ f, .next => some ((s.drop c).goto t (.waiting p f p))
  | .waiting p f o, .next => if Avail s p f then some (s.goto t (.locked p f o)) else none
  | .locked p f o, .next =>
      if s.track t = some p then some (s.goto t (.matched p f o)) else some (s.goto t (.mismatch p f o))
  | .mismatch p f o, .next => some ((s.drop p).goto t (.reload f o))
  | .reload f o, .next =>
      if s.spin t then none
      else
        match s.track t with
        | none => none
        | some p => some ((s.ref p).goto t (.waiting p f o))
  | .matched p f o, .next =>
      -- the loop runs off the list without the record on it
      if t ∈ s.list p then
        some { s.goto t (.unlinked p f o) with list := Function.update s.list p ((s.list p).erase t) }
      else none
  | .unlinked p f o, .next =>
      some { (s.drop p).goto t (.walk p f (some o)) with track := Function.update s.track t none }
  | _, _ => none

/-- A flushing thread: it has `parent` and `chain` locked when it calls
`hammer2_chain_indirect_maintenance`.  Whether there is room for the children is not modelled. -/
def maintenance (indirect : C → Bool) (s : State C T) (t : T) : Pc C → Act C → Option (State C T)
  | .idle, .holdParent p =>
      if s.topo.deleted p = false ∧ Avail s p .ex then some ((s.ref p).goto t (.parentHeld p)) else none
  | .parentHeld p, .leave => some ((s.drop p).goto t .idle)
  | .parentHeld p, .holdChild c =>
      if s.topo.parent c = some p ∧ s.topo.deleted c = false ∧ indirect c ∧ Avail s c .ex then
        some ((s.ref c).goto t (.flush p c))
      else none
  | .flush p c, .leave => some ((s.drop c).goto t (.parentHeld p))
  | .flush p c, .deleteEmpty ok =>
      -- an error of the deletion is ignored
      if Childless s c then some ((if ok then s.delete c else s).goto t (.repchange p c)) else none
  | .flush p c, .collapse => some ((s.delete c).goto t (.moving p c))
  | .moving p c, .sub d =>
      if s.topo.parent d = some c ∧ Avail s d .ex then some ((s.ref d).goto t (.movingSub p c d)) else none
  | .movingSub p c d, .next => some (((s.move d p).drop d).goto t (.moving p c))
  | .moving p c, .next => if Childless s c then some (s.goto t (.repchange p c)) else none
  | .repchange p c, .next =>
      match s.list c with
      | [] => some (s.goto t (.flushed p c))
      | u :: rest => if s.spin u then none else some (((s.migrate p c u rest).ref p).drop c)
  | .flushed p c, .leave => some ((s.drop c).goto t (.parentHeld p))
  | _, _ => none

/-- One step of one thread. -/
def step (indirect : C → Bool) (s : State C T) (e : T × Act C) : Option (State C T) :=
  (repparent indirect s e.1 (s.pc e.1) e.2).orElse fun _ => maintenance indirect s e.1 (s.pc e.1) e.2

end

end Hammer2.Reptrack
