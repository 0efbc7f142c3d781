/-
# `Hammer2.Xop.Stranded` — no thread is left asleep, and no request is lost

A worker that is frozen sleeps without a timeout.  It is woken as long as `wakeup()` finds it
asleep; the step between the compare-and-swap that sets WAITING and the `tsleep()` is the window
in which it does not (`Ok`).  And a worker that stops leaves its queue as it is.
-/
import Hammer2.Xop.Signal
import Hammer2.Lib.Machine

namespace Hammer2.Xop.Signal

open Hammer2.Xop.Order (nextLoop testhash)

/-! ## Where a thread can be -/

namespace Pc

def waking : Pc → Bool
  | .wakeup _ => true
  | _ => false

/-- In a sleep without a timeout, or about to. -/
def stuck : Pc → Bool
  | .tsleep 0 _ _ => true
  | .asleep 0 _ _ => true
  | _ => false

/-- The window before such a sleep. -/
def window : Pc → Bool
  | .tsleep 0 _ _ => true
  | _ => false

/-- On the way to set XOPQ. -/
def kicking : Pc → Bool
  | .signal pos _ _ => pos.xopq
  | .cas _ pos _ _ => pos.xopq
  | _ => false

/-- A worker that will still look at its queue. -/
def looking : Pc → Bool
  | .next _ | .storage _ _ | .dequeue _ _ | .dequeued _ | .retire _ => true
  | .signal _ _ (.retire _) | .cas _ _ _ (.retire _) | .wakeup (.retire _) => true
  | _ => false

/-- A worker out of its loop. -/
def exited : Pc → Bool
  | .exit | .signal _ _ .gone | .cas _ _ _ .gone | .wakeup .gone | .gone => true
  | _ => false

def ended : Pc → Bool
  | .wakeup .gone | .gone => true
  | _ => false

/-- The XOP that a worker has marked. -/
def holding : Pc → Option Nat
  | .storage _ x | .dequeue _ x => some x
  | _ => none

end Pc

/-- A worker that is not frozen: it takes XOPQ, works, or is idle. -/
inductive Working : Pc → Prop
  | xopqCas (o : Flags) : Working (.xopqCas o)
  | next (g : Flags) : Working (.next g)
  | storage (g : Flags) (x : Nat) : Working (.storage g x)
  | dequeue (g : Flags) (x : Nat) : Working (.dequeue g x)
  | dequeued (g : Flags) : Working (.dequeued g)
  | more (g : Flags) : Working (.signal XOPQ .zero (.retire g))
  | moreCas (o g : Flags) : Working (.cas o XOPQ .zero (.retire g))
  | woken (g : Flags) : Working (.wakeup (.retire g))
  | retire (g : Flags) : Working (.retire g)
  | flush : Working .flush
  | idleCas (o : Flags) : Working (.idleCas o)
  | sleep {timo : Nat} : timo ≠ 0 → Working (.tsleep timo .top .top)
  | asleep {timo : Nat} : timo ≠ 0 → Working (.asleep timo .top .top)

inductive Exiting : Pc → Prop
  | exit : Exiting .exit
  | signal : Exiting (.signal STOPPED .zero .gone)
  | cas (o : Flags) : Exiting (.cas o STOPPED .zero .gone)
  | wakeup : Exiting (.wakeup .gone)
  | gone : Exiting .gone

/-- Where a worker is, and what it may rely on of the flags. -/
inductive Worker (kind : Kind) (f : Flags) : Pc → Prop
  | top : Worker kind f .top
  | woken : Worker kind f (.wakeup .top)
  | freeze : kind = .xops → f.freeze = true → Worker kind f (.signal FROZEN FREEZE .top)
  | freezeCas (o : Flags) : kind = .xops → f.freeze = true →
      Worker kind f (.cas o FROZEN FREEZE .top)
  | thaw : f.unfreeze = true → Worker kind f (.signal .zero (FROZEN.or UNFREEZE) .top)
  | thawCas (o : Flags) : f.unfreeze = true →
      Worker kind f (.cas o .zero (FROZEN.or UNFREEZE) .top)
  | remaster : Worker kind f (.signal .zero REMASTER .top)
  | remasterCas (o : Flags) : Worker kind f (.cas o .zero REMASTER .top)
  | frozen : Worker kind f (.wait frozenWait 0 .top)
  | frozenCas {o : Flags} : frozenWait.holds o = false →
      Worker kind f (.waitCas o frozenWait 0 .top)
  | frozenSleep : Worker kind f (.tsleep 0 (.wait frozenWait 0 .top) .top)
  | frozenAsleep : Worker kind f (.asleep 0 (.wait frozenWait 0 .top) .top)
  | working {p : Pc} : f.frozen = false → Working p → Worker kind f p
  | exiting {p : Pc} : f.stop = true → Exiting p → Worker kind f p

/-- The flags that a client sets. -/
def Request (pos : Flags) : Prop :=
  pos = XOPQ ∨ pos = FREEZE ∨ pos = UNFREEZE ∨ pos = REMASTER ∨ pos = STOP

/-- The waits of clients, and what follows on them. -/
def Ends (w : Wait) (k : Pc) : Prop :=
  (w = .all FROZEN ∨ w = .neg FROZEN) ∧ k = .idle ∨ w = .all STOPPED ∧ k = .deleted

def Next (k : Pc) : Prop := k = .idle ∨ ∃ w k', k = .wait w hz k' ∧ Ends w k'

inductive Client (f : Flags) : Pc → Prop
  | idle : Client f .idle
  | deleted : f.stopped = true → Client f .deleted
  | signal {pos : Flags} {k : Pc} : Request pos → Next k → Client f (.signal pos .zero k)
  | cas (o : Flags) {pos : Flags} {k : Pc} : Request pos → Next k → Client f (.cas o pos .zero k)
  | wakeup {k : Pc} : Next k → Client f (.wakeup k)
  | wait {w : Wait} {k : Pc} : Ends w k → Client f (.wait w hz k)
  | waitCas (o : Flags) {w : Wait} {k : Pc} : Ends w k → Client f (.waitCas o w hz k)
  | sleep {w : Wait} {k : Pc} : Ends w k → Client f (.tsleep hz (.wait w hz k) (.wait w hz k))
  | asleep {w : Wait} {k : Pc} : Ends w k → Client f (.asleep hz (.wait w hz k) (.wait w hz k))

/-- Flags to which requests have been added. -/
structure Grows (f f' : Flags) : Prop where
  stop : f.stop = true → f'.stop = true
  freeze : f.freeze = true → f'.freeze = true
  unfreeze : f.unfreeze = true → f'.unfreeze = true
  remaster : f.remaster = true → f'.remaster = true
  xopq : f.xopq = true → f'.xopq = true
  frozen : f'.frozen = f.frozen
  stopped : f'.stopped = f.stopped

section
variable {kind : Kind} {f f' : Flags} {p k : Pc} {w : Wait}

theorem Grows.refl (f : Flags) : Grows f f := ⟨id, id, id, id, id, rfl, rfl⟩

theorem Grows.waiting (f : Flags) : Grows f (f.or WAITING) := by
  constructor <;> simp [Flags.or, WAITING]

theorem Grows.request {pos : Flags} (h : Request pos) :
    Grows f ((f.or pos).clear (Flags.zero.or WAITING)) := by
  obtain rfl | rfl | rfl | rfl | rfl := h <;> constructor <;>
    simp +contextual [Flags.or, Flags.clear, Flags.zero, WAITING, XOPQ, FREEZE, UNFREEZE, REMASTER, STOP]

theorem or_waiting : (f.or WAITING).waiting = true := by simp [Flags.or, WAITING]

theorem holds_waiting : frozenWait.holds (f.or WAITING) = frozenWait.holds f := by
  simp [frozenWait, Wait.holds, Flags.or, Flags.and, WAITING, UNFREEZE, STOP]

theorem Worker.mono (hf : Grows f f') (h : Worker kind f p) : Worker kind f' p := by
  cases h with
  | top => exact .top
  | woken => exact .woken
  | freeze hk h => exact .freeze hk (hf.freeze h)
  | freezeCas o hk h => exact .freezeCas o hk (hf.freeze h)
  | thaw h => exact .thaw (hf.unfreeze h)
  | thawCas o h => exact .thawCas o (hf.unfreeze h)
  | remaster => exact .remaster
  | remasterCas o => exact .remasterCas o
  | frozen => exact .frozen
  | frozenCas h => exact .frozenCas h
  | frozenSleep => exact .frozenSleep
  | frozenAsleep => exact .frozenAsleep
  | working h hp => exact .working (hf.frozen.trans h) hp
  | exiting h hp => exact .exiting (hf.stop h) hp

theorem Client.mono (hf : f.stopped = true → f'.stopped = true) (h : Client f p) :
    Client f' p := by
  cases h with
  | idle => exact .idle
  | deleted h => exact .deleted (hf h)
  | signal hpos hk => exact .signal hpos hk
  | cas o hpos hk => exact .cas o hpos hk
  | wakeup hk => exact .wakeup hk
  | wait hk => exact .wait hk
  | waitCas o hk => exact .waitCas o hk
  | sleep hk => exact .sleep hk
  | asleep hk => exact .asleep hk

theorem Client.next (h : Next k) : Client f k := by
  obtain rfl | ⟨w, k', rfl, hk⟩ := h
  · exact .idle
  · exact .wait hk

theorem Client.stuck (h : Client f p) : p.stuck = false := by cases h <;> rfl

theorem Ends.expired (h : Ends w k) : expired w hz k = .wait w hz k := by
  obtain ⟨rfl | rfl, -⟩ | ⟨rfl, -⟩ := h <;> rfl

theorem Exiting.exited (h : Exiting p) : p.exited = true := by cases h <;> rfl

theorem Worker.wake (h : Worker kind f p) : Worker kind f p.wake := by
  cases h with
  | frozenAsleep => exact .frozen
  | working hf hp =>
      cases hp with
      | asleep => exact .top
      | sleep h => exact .working hf (.sleep h)
      | _ => exact .working hf (by constructor)
  | exiting hf hp => cases hp <;> exact .exiting hf (by constructor)
  | _ => constructor <;> assumption

theorem Client.wake (h : Client f p) : Client f p.wake := by
  cases h with
  | asleep hk => exact .wait hk
  | _ => constructor <;> assumption

end

/-! ## The queue -/

/-- Without an XOP that is marked, `hammer2_xop_next` takes the first one. -/
theorem xopNext_eq {c : Config} {s : State} (h : ∀ x, s.fifoRun x = false) :
    xopNext c s = s.xopq.head? := by
  unfold xopNext
  cases s.xopq with
  | nil => rfl
  | cons x xs =>
      have hfree : (c.ips x).any (fun ip => testhash c.sizeofInode c.thr ip fun _ => 0#32) = false := by
        rw [List.any_eq_false]
        intro ip _
        rw [Order.testhash_zero]
        rintro ⟨⟩
      rw [nextLoop, if_neg (by rw [hfree]; rintro ⟨⟩)]
      dsimp only
      rw [if_neg (by rw [h x]; rintro ⟨⟩)]
      rfl

/-! ## The invariant -/

theorem State.goto_self (s : State) (t : Nat) (q : Pc) : (s.goto t q).pc t = q := by
  simp [State.goto]

/-- A frozen worker still waits, with WAITING set, or a `wakeup()` is still to come. -/
def Armed (f : Flags) (pc : Nat → Pc) : Prop :=
  (frozenWait.holds f = false ∧ f.waiting = true) ∨ ∃ i, (pc i).waking = true

/-- The worker will be told of its queue. -/
def Queued (f : Flags) (pc : Nat → Pc) : Prop := f.xopq = true ∨ ∃ i, (pc i).kicking = true

structure Inv (c : Config) (s : State) : Prop where
  worker : Worker c.kind s.flags (s.pc 0)
  client : ∀ t, t ≠ 0 → Client s.flags (s.pc t)
  armed : (s.pc 0).stuck = true → Armed s.flags s.pc
  stopped : s.flags.stopped = true → (s.pc 0).ended = true
  drained : (s.pc 0).exited = true → s.xopq = []
  marked : ∀ x, s.fifoRun x = true → (s.pc 0).holding = some x
  queued : s.xopq ≠ [] → (s.pc 0).looking = true ∨ Queued s.flags s.pc
  kind : c.kind = .flush → s.xopq = [] ∧ s.flags.frozen = false

/-- The steps that the code gets right.  No `wakeup()` falls between a frozen worker's
compare-and-swap and its `tsleep()` unless WAITING is set again, with the worker still to wait,
or another `wakeup()` is to come; the worker sees STOP with an empty queue only, and no XOP
starts on it after that. -/
def Ok (s : State) : Event → Prop
  | .run t =>
      ((s.pc t).waking = true → (s.pc 0).window = true →
        (frozenWait.holds s.flags = false ∧ s.flags.waiting = true) ∨
          ∃ i, i ≠ t ∧ (s.pc i).waking = true) ∧
      (t = 0 → s.pc 0 = .top → s.flags.stop = true → s.xopq = [])
  | .call _ (.start _) => (s.pc 0).exited = false
  | _ => True

/-- A request goes only when it has been acted on, and an answer comes only to a request. -/
structure Acted (s s' : State) : Prop where
  stop : s.flags.stop = true → s'.flags.stop = true
  freeze : s.flags.freeze = true → s'.flags.freeze = true ∨
    s'.flags.frozen = true ∧ ¬ Working (s'.pc 0)
  unfreeze : s.flags.unfreeze = true → s'.flags.unfreeze = true ∨ s'.flags.frozen = false
  remaster : s.flags.remaster = true → s'.flags.remaster = true ∨
    s'.pc 0 = .top ∨ s'.pc 0 = .wakeup .top
  xopq : s.flags.xopq = true → s'.flags.xopq = true ∨ (s'.pc 0).looking = true ∨ s'.pc 0 = .flush
  frozen : s'.flags.frozen = true → s.flags.frozen = true ∨ s.flags.freeze = true
  thawed : s.flags.frozen = true → s'.flags.frozen = true ∨ s.flags.unfreeze = true
  stopped : s'.flags.stopped = true → s.flags.stopped = true ∨
    s.flags.stop = true ∧ (s.pc 0).exited = true

theorem Acted.of_grows {s s' : State} (h : Grows s.flags s'.flags) : Acted s s' where
  stop := h.stop
  freeze hf := .inl (h.freeze hf)
  unfreeze hf := .inl (h.unfreeze hf)
  remaster hf := .inl (h.remaster hf)
  xopq hf := .inl (h.xopq hf)
  frozen hf := .inl (h.frozen ▸ hf)
  thawed hf := .inl (h.frozen.trans hf)
  stopped hf := .inl (h.stopped ▸ hf)

section
variable {c : Config} {s s' : State} {t : Nat} {f f' : Flags} {p q k : Pc} {pc : Nat → Pc}

theorem inv_init : Inv c init where
  worker := .top
  client t ht := by
    show Client _ (if t = 0 then _ else _)
    rw [if_neg ht]
    exact .idle
  armed := nofun
  stopped := nofun
  drained := nofun
  marked _ h := by cases h
  queued h := absurd rfl h
  kind _ := ⟨rfl, rfl⟩

/-- A thread that is not at a `wakeup()` goes on. -/
theorem Armed.goto (h : Armed f pc) (hp : (pc t).waking = false)
    (hf : frozenWait.holds f = false → f.waiting = true →
      frozenWait.holds f' = false ∧ f'.waiting = true ∨ q.waking = true) :
    Armed f' (Function.update pc t q) := by
  rcases h with ⟨hno, hw⟩ | ⟨i, hi⟩
  · rcases hf hno hw with hstill | hq
    · exact .inl hstill
    · exact .inr ⟨t, by rw [Function.update_self]; exact hq⟩
  · have hne : i ≠ t := by
      rintro rfl
      rw [hp] at hi
      cases hi
    exact .inr ⟨i, by rw [Function.update_of_ne hne]; exact hi⟩

theorem Queued.goto (h : Queued f pc) (hf : f.xopq = true → f'.xopq = true ∨ q.kicking = true)
    (hk : (pc t).kicking = true → f'.xopq = true ∨ q.kicking = true) :
    Queued f' (Function.update pc t q) := by
  have done : f'.xopq = true ∨ q.kicking = true → Queued f' (Function.update pc t q) := by
    rintro (h | h)
    · exact .inl h
    · exact .inr ⟨t, by rw [Function.update_self]; exact h⟩
  rcases h with h | ⟨i, hi⟩
  · exact done (hf h)
  · by_cases hit : i = t
    · subst hit
      exact done (hk hi)
    · exact .inr ⟨i, by rw [Function.update_of_ne hit]; exact hi⟩

/-- A step of a client. -/
theorem Inv.client_goto (hi : Inv c s) (ht : t ≠ 0) (hf : Grows s.flags f) (hq : Client f q)
    (harmed : (s.pc 0).stuck = true → Armed f (Function.update s.pc t q))
    (hkick : (s.pc t).kicking = true → f.xopq = true ∨ q.kicking = true) :
    Inv c ({ s with flags := f }.goto t q) := by
  have h0 : Function.update s.pc t q 0 = s.pc 0 := Function.update_of_ne ht.symm ..
  refine ⟨?_, ?_, ?_, ?_, ?_, ?_, ?_, fun hk => ⟨(hi.kind hk).1, hf.frozen.trans (hi.kind hk).2⟩⟩
  · show Worker c.kind f (Function.update s.pc t q 0)
    rw [h0]
    exact hi.worker.mono hf
  · intro u hu
    show Client f (Function.update s.pc t q u)
    by_cases hut : u = t
    · rw [hut, Function.update_self]
      exact hq
    · rw [Function.update_of_ne hut]
      exact (hi.client u hu).mono fun h => hf.stopped.trans h
  · intro h
    exact harmed (h0 ▸ h)
  · intro h
    show (Function.update s.pc t q 0).ended = true
    rw [h0]
    exact hi.stopped (hf.stopped.symm.trans h)
  · intro h
    exact hi.drained (h0 ▸ h)
  · intro x hx
    show (Function.update s.pc t q 0).holding = some x
    rw [h0]
    exact hi.marked x hx
  · intro hne
    show (Function.update s.pc t q 0).looking = true ∨ _
    rw [h0]
    exact (hi.queued hne).imp_right fun h => h.goto (fun hx => .inl (hf.xopq hx)) hkick

/-- The same, with the flags as they are. -/
theorem Inv.client_stay (hi : Inv c s) (ht : t ≠ 0) (hp : (s.pc t).waking = false)
    (hq : Client s.flags q) (hkick : (s.pc t).kicking = true → q.kicking = true) :
    Inv c (s.goto t q) :=
  hi.client_goto ht (.refl _) hq
    (fun h => (hi.armed h).goto hp fun hno hw => .inl ⟨hno, hw⟩) fun h => .inr (hkick h)

/-- A step of the worker. -/
theorem Inv.worker_move (hi : Inv c s) (hpc : s'.pc = Function.update s.pc 0 q)
    (hq : Worker c.kind s'.flags q) (hclient : s.flags.stopped = true → s'.flags.stopped = true)
    (harmed : q.stuck = true → Armed s'.flags s'.pc)
    (hstopped : s'.flags.stopped = true → q.ended = true)
    (hdrained : q.exited = true → s'.xopq = [])
    (hmarked : ∀ x, s'.fifoRun x = true → q.holding = some x)
    (hqueued : s'.xopq ≠ [] → q.looking = true ∨ Queued s'.flags s'.pc)
    (hkind : c.kind = .flush → s'.xopq = [] ∧ s'.flags.frozen = false) : Inv c s' := by
  have h0 : s'.pc 0 = q := by rw [hpc, Function.update_self]
  refine ⟨?_, ?_, ?_, ?_, ?_, ?_, ?_, hkind⟩
  · rw [h0]
    exact hq
  · intro u hu
    rw [hpc, Function.update_of_ne hu]
    exact (hi.client u hu).mono hclient
  · rw [h0]
    exact harmed
  · rw [h0]
    exact hstopped
  · rw [h0]
    exact hdrained
  · rw [h0]
    exact hmarked
  · rw [h0]
    exact hqueued

/-- A step of the worker with the flags and the queue as they are. -/
theorem Inv.worker_stay (hi : Inv c s) (hq : Worker c.kind s.flags q)
    (hstuck : q.stuck = true → Armed s.flags (Function.update s.pc 0 q))
    (hended : (s.pc 0).ended = true → q.ended = true)
    (hexited : q.exited = true → s.xopq = [])
    (hholding : ∀ x, (s.pc 0).holding = some x → q.holding = some x)
    (hlooking : (s.pc 0).looking = true → q.looking = true)
    (hkick : (s.pc 0).kicking = true → q.kicking = true ∨ q.looking = true) :
    Inv c (s.goto 0 q) := by
  refine hi.worker_move rfl hq id hstuck (fun h => hended (hi.stopped h)) hexited
    (fun x hx => hholding x (hi.marked x hx)) (fun hne => ?_) hi.kind
  rcases hi.queued hne with h | h
  · exact .inl (hlooking h)
  · cases hql : q.looking with
    | true => exact .inl rfl
    | false =>
        exact .inr (h.goto .inl fun hk => .inr ((hkick hk).resolve_right (by simp [hql])))

/-- What holds of threads that are not asleep is still so after a `wakeup()`. -/
theorem wake_keeps {g : Pc → Bool} (hg : ∀ timo k e, g (.asleep timo k e) = false)
    (hp : g p = true) : g p.wake = true := by
  cases p with
  | asleep timo k e =>
      rw [hg] at hp
      cases hp
  | _ => exact hp

theorem Worker.wake_cases {kind : Kind} (h : Worker kind f p) :
    p.wake = p ∧ (p.stuck = true → p.window = true) ∨ p.wake = .top ∨
      p.wake = .wait frozenWait 0 .top := by
  cases h with
  | frozenAsleep => exact .inr (.inr rfl)
  | working _ hp =>
      cases hp with
      | asleep => exact .inr (.inl rfl)
      | sleep h =>
          refine .inl ⟨rfl, fun hs => ?_⟩
          unfold Pc.stuck at hs
          split at hs <;> simp_all
      | _ => exact .inl ⟨rfl, nofun⟩
  | exiting _ hp => cases hp <;> exact .inl ⟨rfl, nofun⟩
  | frozenSleep => exact .inl ⟨rfl, fun _ => rfl⟩
  | _ => exact .inl ⟨rfl, nofun⟩

theorem Armed.wake (h : Armed f pc) : Armed f fun i => (pc i).wake :=
  h.imp_right fun ⟨i, hi⟩ => ⟨i, wake_keeps (fun _ _ _ => rfl) hi⟩

theorem Queued.wake (h : Queued f pc) : Queued f fun i => (pc i).wake :=
  h.imp_right fun ⟨i, hi⟩ => ⟨i, wake_keeps (fun _ _ _ => rfl) hi⟩

/-- `wakeup()` -/
theorem Inv.wakeAll (hi : Inv c s) : Inv c s.wakeAll := by
  have hcases := hi.worker.wake_cases
  refine ⟨hi.worker.wake, fun u hu => (hi.client u hu).wake, ?_, ?_, ?_, ?_, ?_, hi.kind⟩
  · intro h
    change (s.pc 0).wake.stuck = true at h
    obtain ⟨heq, -⟩ | heq | heq := hcases
    · rw [heq] at h
      exact (hi.armed h).wake
    · rw [heq] at h
      cases h
    · rw [heq] at h
      cases h
  · intro h
    exact wake_keeps (fun _ _ _ => rfl) (hi.stopped h)
  · intro h
    change (s.pc 0).wake.exited = true at h
    obtain ⟨heq, -⟩ | heq | heq := hcases
    · rw [heq] at h
      exact hi.drained h
    · rw [heq] at h
      cases h
    · rw [heq] at h
      cases h
  · intro x hx
    have hh := hi.marked x hx
    show (s.pc 0).wake.holding = some x
    cases hp : s.pc 0 with
    | asleep timo k e => rw [hp] at hh; cases hh
    | _ => rw [hp] at hh; exact hh
  · intro hne
    exact (hi.queued hne).imp (wake_keeps fun _ _ _ => rfl) Queued.wake

/-- After the `wakeup()` of thread `t`, in a step that `Ok` allows, a worker before its sleep is
armed by someone else. -/
theorem Inv.armed_others (hi : Inv c s) (hok : Ok s (.run t)) (hp : (s.pc t).waking = true)
    (h : (s.wakeAll.pc 0).stuck = true) :
    (frozenWait.holds s.flags = false ∧ s.flags.waiting = true) ∨
      ∃ i, i ≠ t ∧ (s.wakeAll.pc i).waking = true := by
  change (s.pc 0).wake.stuck = true at h
  obtain ⟨heq, hwin⟩ | heq | heq := hi.worker.wake_cases
  · rw [heq] at h
    exact (hok.1 hp (hwin h)).imp_right fun ⟨i, hne, hi⟩ =>
      ⟨i, hne, wake_keeps (fun _ _ _ => rfl) hi⟩
  · rw [heq] at h
    cases h
  · rw [heq] at h
    cases h

/-! ## Steps of a client -/

theorem client_run (hi : Inv c s) (ht : t ≠ 0) (hok : Ok s (.run t)) (h : run c s t = some s') :
    Inv c s' ∧ Grows s.flags s'.flags := by
  have hc := hi.client t ht
  generalize hp : s.pc t = p at hc
  unfold run at h
  rw [hp] at h
  cases hc with
  | idle => cases h
  | deleted _ =>
      dsimp only at h
      split at h
      · cases h
        exact ⟨hi.client_stay ht (by rw [hp]; rfl) .idle (by rw [hp]; nofun), .refl _⟩
      · cases h
  | @signal pos k hpos hk =>
      cases h
      exact ⟨hi.client_stay ht (by rw [hp]; rfl) (.cas _ hpos hk) (by rw [hp]; exact id), .refl _⟩
  | @cas o pos k hpos hk =>
      dsimp only at h
      split at h
      · next ho =>
        cases h
        subst ho
        have hgrows := Grows.request (f := s.flags) hpos
        refine ⟨hi.client_goto ht hgrows ?_ ?_ ?_, hgrows⟩
        · split
          · exact .wakeup hk
          · exact .next hk
        · intro hs
          refine (hi.armed hs).goto (by rw [hp]; rfl) fun _ hw => .inr ?_
          rw [if_pos hw]
          rfl
        · rw [hp]
          intro hx
          left
          change pos.xopq = true at hx
          simp [Flags.or, Flags.clear, Flags.zero, WAITING, hx]
      · cases h
        exact ⟨hi.client_stay ht (by rw [hp]; rfl) (.signal hpos hk) (by rw [hp]; exact id), .refl _⟩
  | @wakeup k hk =>
      cases h
      refine ⟨hi.wakeAll.client_goto ht (.refl _) (.next hk) (fun hs => ?_) ?_, .refl _⟩
      · rcases hi.armed_others hok (by rw [hp]; rfl) hs with h | ⟨i, hne, hw⟩
        · exact .inl h
        · exact .inr ⟨i, by rw [Function.update_of_ne hne]; exact hw⟩
      · show (s.pc t).wake.kicking = true → _
        rw [hp]
        nofun
  | @wait w k hk =>
      dsimp only at h
      split at h
      · next hholds =>
        cases h
        refine ⟨hi.client_stay ht (by rw [hp]; rfl) ?_ (by rw [hp]; nofun), .refl _⟩
        obtain ⟨-, rfl⟩ | ⟨rfl, rfl⟩ := hk
        · exact .idle
        · refine .deleted ?_
          have hall : s.flags.and STOPPED = STOPPED := by simpa [Wait.holds] using hholds
          have hst := congrArg Flags.stopped hall
          simpa [Flags.and, STOPPED] using hst
      · cases h
        exact ⟨hi.client_stay ht (by rw [hp]; rfl) (.waitCas _ hk) (by rw [hp]; nofun), .refl _⟩
  | @waitCas o w k hk =>
      dsimp only at h
      split at h
      · next ho =>
        cases h
        subst ho
        rw [hk.expired]
        refine ⟨hi.client_goto ht (.waiting _) (.sleep hk) ?_ (by rw [hp]; nofun), .waiting _⟩
        intro hs
        exact (hi.armed hs).goto (by rw [hp]; rfl) fun hno _ =>
          .inl ⟨holds_waiting.trans hno, or_waiting⟩
      · cases h
        exact ⟨hi.client_stay ht (by rw [hp]; rfl) (.wait hk) (by rw [hp]; nofun), .refl _⟩
  | @sleep w k hk =>
      cases h
      exact ⟨hi.client_stay ht (by rw [hp]; rfl) (.asleep hk) (by rw [hp]; nofun), .refl _⟩
  | @asleep w k hk => cases h

/-! ## Steps of the worker -/

theorem Inv.not_stopped (hi : Inv c s) (hp : (s.pc 0).ended = false) :
    s.flags.stopped = false := by
  cases h : s.flags.stopped with
  | false => rfl
  | true => exact absurd (hi.stopped h) (by simp [hp])

/-- The worker goes on to a place where it is out of its queue, and not asleep. -/
theorem Inv.worker_top (hi : Inv c s) (hp : (s.pc 0).looking = false)
    (hk : (s.pc 0).kicking = false) (hh : (s.pc 0).holding = none)
    (he : (s.pc 0).ended = false) (hq : Worker c.kind s.flags q)
    (hstuck : q.stuck = false) (hexited : q.exited = true → s.xopq = []) :
    Inv c (s.goto 0 q) :=
  hi.worker_stay hq (by rw [hstuck]; rintro ⟨⟩) (by rw [he]; rintro ⟨⟩) hexited (by rw [hh]; rintro _ ⟨⟩)
    (by rw [hp]; rintro ⟨⟩) (by rw [hk]; rintro ⟨⟩)

theorem worker_dispatch (hi : Inv c s) (hp : s.pc 0 = .top)
    (hstop : s.flags.stop = true → s.xopq = []) :
    Inv c (s.goto 0 (dispatch c.kind s.flags)) := by
  have go : ∀ {q : Pc}, Worker c.kind s.flags q → q.stuck = false →
      (q.exited = true → s.xopq = []) → Inv c (s.goto 0 q) := fun hq hs he =>
    hi.worker_top (by rw [hp]; rfl) (by rw [hp]; rfl) (by rw [hp]; rfl) (by rw [hp]; rfl) hq hs he
  unfold dispatch
  cases hkind : c.kind with
  | xops =>
      rw [hkind] at go
      dsimp only
      split
      · next h => exact go (.exiting h .exit) rfl fun _ => hstop h
      · split
        · next h => exact go (.freeze rfl h) rfl nofun
        · split
          · next h => exact go (.thaw h) rfl nofun
          · split
            · exact go .frozen rfl nofun
            · next hfrozen =>
              have hf : s.flags.frozen = false := by simpa using hfrozen
              split
              · exact go .remaster rfl nofun
              · split
                · exact go (.working hf (.xopqCas _)) rfl nofun
                · exact go (.working hf (.next _)) rfl nofun
  | flush =>
      have hf := (hi.kind hkind).2
      rw [hkind] at go
      dsimp only
      split
      · next h => exact go (.exiting h .exit) rfl fun _ => hstop h
      · split
        · exact go (.working hf (.xopqCas _)) rfl nofun
        · exact go (.working hf (.idleCas _)) rfl nofun

/-- The flags after the compare-and-swap of `hammer2_thr_signal2`. -/
def Flags.signalled (f pos neg : Flags) : Flags := (f.or pos).clear (neg.or WAITING)

/-- A worker has answered a request, and starts over. -/
theorem worker_answer {pos neg : Flags} (hi : Inv c s) (hp : s.pc 0 = .cas s.flags pos neg .top)
    (hq : q = .top ∨ q = .wakeup .top) (hx : pos.xopq = false ∧ neg.xopq = false)
    (hst : pos.stopped = false ∧ neg.stopped = false)
    (hkind : c.kind = .flush → (s.flags.signalled pos neg).frozen = false) :
    Inv c ({ s with flags := s.flags.signalled pos neg }.goto 0 q) := by
  have hxopq : (s.flags.signalled pos neg).xopq = s.flags.xopq := by
    simp [Flags.signalled, Flags.or, Flags.clear, WAITING, hx.1, hx.2]
  have hstopped : (s.flags.signalled pos neg).stopped = s.flags.stopped := by
    simp [Flags.signalled, Flags.or, Flags.clear, WAITING, hst.1, hst.2]
  have hno := hi.not_stopped (by rw [hp]; rfl)
  refine hi.worker_move rfl ?_ (fun h => hstopped.trans h) ?_ ?_ ?_ ?_ ?_ fun h =>
    ⟨(hi.kind h).1, hkind h⟩
  · rcases hq with rfl | rfl
    · exact .top
    · exact .woken
  · rcases hq with rfl | rfl <;> rintro ⟨⟩
  · intro h
    have h' := hstopped.symm.trans h
    rw [hno] at h'
    cases h'
  · rcases hq with rfl | rfl <;> rintro ⟨⟩
  · intro x hm
    have hh := hi.marked x hm
    rw [hp] at hh
    cases hh
  · intro hne
    rcases hi.queued hne with h | h
    · rw [hp] at h
      cases h
    · refine .inr (h.goto (fun hx' => .inl (hxopq.trans hx')) fun hk => ?_)
      rw [hp] at hk
      cases (hx.1.symm.trans hk)

/-- An answer says what has been done: FROZEN for FREEZE, no FROZEN for UNFREEZE. -/
theorem acted_answer {pos neg : Flags} (hq : q = .top ∨ q = .wakeup .top)
    (hstop : neg.stop = false) (hfreeze : neg.freeze = false ∨ pos.frozen = true ∧ neg.frozen = false)
    (hthaw : neg.unfreeze = false ∨ pos.frozen = false ∧ neg.frozen = true)
    (hx : neg.xopq = false) (hfrozen : pos.frozen = true → s.flags.freeze = true)
    (hthawed : neg.frozen = true → s.flags.unfreeze = true) (hst : pos.stopped = false) :
    Acted s ({ s with flags := s.flags.signalled pos neg }.goto 0 q) := by
  have hval : ({ s with flags := s.flags.signalled pos neg }.goto 0 q).flags =
      s.flags.signalled pos neg := rfl
  refine ⟨?_, ?_, ?_, ?_, ?_, ?_, ?_, ?_⟩ <;>
    rw [hval] <;> simp only [Flags.signalled, Flags.or, Flags.clear, WAITING, Bool.or_false]
  · intro h
    simp [h, hstop]
  · intro h
    rcases hfreeze with hf | ⟨hp, hn⟩
    · simp [h, hf]
    · refine .inr ⟨by simp [hp, hn], ?_⟩
      rw [State.goto_self]
      rcases hq with rfl | rfl <;> nofun
  · intro h
    rcases hthaw with hf | ⟨-, hn⟩
    · simp [h, hf]
    · simp [hn]
  · intro _
    rw [State.goto_self]
    exact .inr hq
  · intro h
    simp [h, hx]
  · intro h
    cases hp : pos.frozen with
    | true => exact .inr (hfrozen hp)
    | false => simp_all
  · intro h
    cases hn : neg.frozen with
    | true => exact .inr (hthawed hn)
    | false => simp [h]
  · intro h
    simp_all

/-- A worker comes back from `wakeup()`. -/
theorem worker_woken (hi : Inv c s) (hp : s.pc 0 = .wakeup k) (hq : Worker c.kind s.flags k)
    (hk : k = .top ∨ (∃ g, k = .retire g) ∨ k = .gone) : Inv c (s.wakeAll.goto 0 k) := by
  have hp' : s.wakeAll.pc 0 = .wakeup k := by
    show (s.pc 0).wake = _
    rw [hp]
    rfl
  refine hi.wakeAll.worker_stay hq ?_ ?_ ?_ ?_ ?_ ?_
  · obtain rfl | ⟨g, rfl⟩ | rfl := hk <;> nofun
  · rw [hp']
    obtain rfl | ⟨g, rfl⟩ | rfl := hk
    · nofun
    · nofun
    · exact fun _ => rfl
  · intro he
    refine hi.drained ?_
    rw [hp]
    obtain rfl | ⟨g, rfl⟩ | rfl := hk
    · cases he
    · cases he
    · rfl
  · rw [hp']
    nofun
  · rw [hp']
    obtain rfl | ⟨g, rfl⟩ | rfl := hk
    · nofun
    · exact fun _ => rfl
    · nofun
  · rw [hp']
    nofun

/-- A worker sets WAITING and goes to sleep. -/
theorem worker_sleeps {timo : Nat} {e : Pc} (hi : Inv c s) (hp : (s.pc 0).looking = false)
    (hk : (s.pc 0).kicking = false) (hh : (s.pc 0).holding = none)
    (he : (s.pc 0).ended = false) (hq : Worker c.kind s.flags (.tsleep timo k e))
    (hno : timo = 0 → frozenWait.holds s.flags = false) :
    Inv c ({ s with flags := s.flags.or WAITING }.goto 0 (.tsleep timo k e)) := by
  refine hi.worker_move rfl (hq.mono (.waiting _)) (fun h => (Grows.waiting _).stopped.trans h)
    ?_ ?_ (by rintro ⟨⟩) ?_ ?_ fun h => ⟨(hi.kind h).1, (Grows.waiting _).frozen.trans (hi.kind h).2⟩
  · intro hs
    cases timo with
    | zero => exact .inl ⟨holds_waiting.trans (hno rfl), or_waiting⟩
    | succ n => cases hs
  · intro h
    have h' := (Grows.waiting s.flags).stopped.symm.trans h
    rw [hi.not_stopped he] at h'
    cases h'
  · intro x hm
    have := hi.marked x hm
    rw [hh] at this
    cases this
  · intro hne
    rcases hi.queued hne with h | h
    · rw [hp] at h
      cases h
    · exact .inr (h.goto (fun hx => .inl ((Grows.waiting _).xopq hx)) (by rw [hk]; rintro ⟨⟩))

/-- A worker takes XOPQ, and goes to work. -/
theorem worker_takes (hi : Inv c s) (hp : s.pc 0 = .xopqCas s.flags) (hf : s.flags.frozen = false) :
    let s' := { s with flags := s.flags.clear XOPQ }.goto 0 (work c.kind (s.flags.clear XOPQ))
    Inv c s' ∧ Acted s s' := by
  have hother : s.flags.clear XOPQ = { s.flags with xopq := false } := by
    simp [Flags.clear, XOPQ]
  have hno := hi.not_stopped (by rw [hp]; rfl)
  rw [hother]
  have hq : Working (work c.kind { s.flags with xopq := false }) ∧
      ((work c.kind { s.flags with xopq := false }).looking = true ∨ c.kind = .flush ∧
        work c.kind { s.flags with xopq := false } = .flush) ∧
      (work c.kind { s.flags with xopq := false }).stuck = false ∧
      (work c.kind { s.flags with xopq := false }).exited = false := by
    cases c.kind with
    | xops => exact ⟨.next _, .inl rfl, rfl, rfl⟩
    | flush => exact ⟨.flush, .inr ⟨rfl, rfl⟩, rfl, rfl⟩
  obtain ⟨hwork, hlook, hstuck, hexit⟩ := hq
  constructor
  · refine hi.worker_move rfl (.working hf hwork) id (by rw [hstuck]; rintro ⟨⟩) ?_
      (by rw [hexit]; rintro ⟨⟩) ?_ ?_ hi.kind
    · intro h
      cases (hno.symm.trans h)
    · intro x hx
      have hh := hi.marked x hx
      rw [hp] at hh
      cases hh
    · intro hne
      rcases hlook with h | ⟨hk, -⟩
      · exact .inl h
      · exact absurd (hi.kind hk).1 hne
  · refine ⟨id, .inl, .inl, .inl, fun _ => .inr ?_, .inl, .inl, .inl⟩
    rw [State.goto_self]
    exact hlook.imp_right And.right

/-- A worker that has seen STOP has nothing to do but say so. -/
theorem worker_exits (hi : Inv c s) (hp : s.pc 0 = p) (hf : s.flags.stop = true)
    (hexiting : Exiting p) (h : run c s 0 = some s') : Inv c s' ∧ Acted s s' := by
  have hexited : (s.pc 0).exited = true := by
    rw [hp]
    exact hexiting.exited
  have hempty := hi.drained hexited
  unfold run at h
  rw [hp] at h
  have go : ∀ {s' : State} {q : Pc}, s'.pc = Function.update s.pc 0 q → s'.flags = s.flags →
      s'.xopq = s.xopq → s'.fifoRun = s.fifoRun → Exiting q → q.stuck = false → p.ended = false →
      p.holding = none → Inv c s' ∧ Acted s s' := by
    intro s' q hpc hflags hxopq hfifo hq hs he hh
    rw [← hp] at he hh
    have hno := hi.not_stopped he
    refine ⟨hi.worker_move hpc (by rw [hflags]; exact .exiting hf hq) (by rw [hflags]; exact id)
      (by rw [hs]; rintro ⟨⟩) ?_ (fun _ => hxopq.trans hempty) ?_ ?_ ?_, .of_grows ?_⟩
    · rw [hflags, hno]
      rintro ⟨⟩
    · rw [hfifo]
      intro x hx
      have hx' := hi.marked x hx
      rw [hh] at hx'
      cases hx'
    · intro hne
      exact absurd (hxopq.trans hempty) hne
    · rw [hxopq, hflags]
      exact hi.kind
    · rw [hflags]
      exact .refl _
  cases hexiting with
  | exit =>
      cases h
      exact go rfl rfl rfl rfl .signal rfl rfl rfl
  | signal =>
      cases h
      exact go rfl rfl rfl rfl (.cas _) rfl rfl rfl
  | cas o =>
      dsimp only at h
      split at h
      · next ho =>
        cases h
        subst ho
        have hval : s.flags.signalled STOPPED .zero =
            { s.flags with stopped := true, waiting := false } := by
          simp [Flags.signalled, Flags.or, Flags.clear, Flags.zero, STOPPED, WAITING]
        have hq : ∀ b : Bool, Exiting (if b = true then .wakeup .gone else .gone) ∧
            (if b = true then Pc.wakeup .gone else .gone).stuck = false ∧
            (if b = true then Pc.wakeup .gone else .gone).ended = true := by
          rintro (_ | _)
          · exact ⟨.gone, rfl, rfl⟩
          · exact ⟨.wakeup, rfl, rfl⟩
        obtain ⟨hexiting, hstuck, hended⟩ := hq s.flags.waiting
        change Inv c ({ s with flags := s.flags.signalled STOPPED .zero }.goto 0 _) ∧ Acted s
          ({ s with flags := s.flags.signalled STOPPED .zero }.goto 0 _)
        rw [hval]
        refine ⟨hi.worker_move rfl (.exiting hf hexiting) (fun _ => rfl) (by rw [hstuck]; rintro ⟨⟩)
          (fun _ => hended) (fun _ => hempty) ?_ (fun hne => absurd hempty hne) hi.kind,
          id, .inl, .inl, .inl, .inl, .inl, .inl, fun _ => .inr ⟨hf, hexited⟩⟩
        intro x hx
        have hh := hi.marked x hx
        rw [hp] at hh
        cases hh
      · cases h
        exact go rfl rfl rfl rfl .signal rfl rfl rfl
  | wakeup =>
      cases h
      exact ⟨worker_woken hi hp (.exiting hf .gone) (.inr (.inr rfl)), .of_grows (.refl _)⟩
  | gone => cases h

theorem worker_run (hi : Inv c s) (hok : Ok s (.run 0)) (h : run c s 0 = some s') :
    Inv c s' ∧ Acted s s' := by
  have hw := hi.worker
  have hrun := h
  generalize hp : s.pc 0 = p at hw
  unfold run at h
  rw [hp] at h
  have top : ∀ {q : Pc}, p.looking = false → p.kicking = false →
      p.holding = none → p.ended = false → Worker c.kind s.flags q →
      q.stuck = false → (q.exited = true → s.xopq = []) →
      Inv c (s.goto 0 q) ∧ Acted s (s.goto 0 q) := by
    rw [← hp]
    exact fun h₁ h₂ h₃ h₄ h₅ h₆ h₇ =>
      ⟨hi.worker_top h₁ h₂ h₃ h₄ h₅ h₆ h₇, .of_grows (.refl _)⟩
  have hend : ∀ b : Bool, (if b = true then Pc.wakeup .top else .top) = .top ∨
      (if b = true then Pc.wakeup .top else .top) = .wakeup .top := by
    rintro (_ | _)
    · exact .inl rfl
    · exact .inr rfl
  cases hw with
  | top =>
      cases h
      exact ⟨worker_dispatch hi hp (hok.2 rfl hp), .of_grows (.refl _)⟩
  | woken =>
      cases h
      exact ⟨worker_woken hi hp .top (.inl rfl), .of_grows (.refl _)⟩
  | freeze hk hf =>
      cases h
      exact top rfl rfl rfl rfl (.freezeCas _ hk hf) rfl (by rintro ⟨⟩)
  | freezeCas o hk hf =>
      dsimp only at h
      split at h
      · next ho =>
        cases h
        subst ho
        have hfl : c.kind = .flush → (s.flags.signalled FROZEN FREEZE).frozen = false :=
          fun h => by rw [hk] at h; cases h
        refine ⟨worker_answer hi hp (hend _) ⟨rfl, rfl⟩ ⟨rfl, rfl⟩ hfl, ?_⟩
        exact acted_answer (hend _) rfl (.inr ⟨rfl, rfl⟩) (.inl rfl) rfl (fun _ => hf) (by rintro ⟨⟩) rfl
      · cases h
        exact top rfl rfl rfl rfl (.freeze hk hf) rfl (by rintro ⟨⟩)
  | thaw hf =>
      cases h
      exact top rfl rfl rfl rfl (.thawCas _ hf) rfl (by rintro ⟨⟩)
  | thawCas o hf =>
      dsimp only at h
      split at h
      · next ho =>
        cases h
        subst ho
        refine ⟨worker_answer hi hp (hend _) ⟨rfl, rfl⟩ ⟨rfl, rfl⟩ fun _ => ?_, ?_⟩
        · simp [Flags.signalled, Flags.or, Flags.clear, FROZEN]
        · exact acted_answer (hend _) rfl (.inl rfl) (.inr ⟨rfl, rfl⟩) rfl (by rintro ⟨⟩) (fun _ => hf) rfl
      · cases h
        exact top rfl rfl rfl rfl (.thaw hf) rfl (by rintro ⟨⟩)
  | remaster =>
      cases h
      exact top rfl rfl rfl rfl (.remasterCas _) rfl (by rintro ⟨⟩)
  | remasterCas o =>
      dsimp only at h
      split at h
      · next ho =>
        cases h
        subst ho
        refine ⟨worker_answer hi hp (hend _) ⟨rfl, rfl⟩ ⟨rfl, rfl⟩ fun hk => ?_, ?_⟩
        · simp [Flags.signalled, Flags.or, Flags.clear, Flags.zero, WAITING, (hi.kind hk).2]
        · exact acted_answer (hend _) rfl (.inl rfl) (.inl rfl) rfl (by rintro ⟨⟩) (by rintro ⟨⟩) rfl
      · cases h
        exact top rfl rfl rfl rfl .remaster rfl (by rintro ⟨⟩)
  | frozen =>
      dsimp only at h
      split at h
      · cases h
        exact top rfl rfl rfl rfl .top rfl (by rintro ⟨⟩)
      · next hno =>
        cases h
        exact top rfl rfl rfl rfl (.frozenCas (by simpa using hno)) rfl (by rintro ⟨⟩)
  | @frozenCas o hno =>
      dsimp only at h
      split at h
      · next ho =>
        cases h
        subst ho
        exact ⟨worker_sleeps hi (by rw [hp]; rfl) (by rw [hp]; rfl) (by rw [hp]; rfl)
          (by rw [hp]; rfl) .frozenSleep fun _ => hno, .of_grows (.waiting _)⟩
      · cases h
        exact top rfl rfl rfl rfl .frozen rfl (by rintro ⟨⟩)
  | frozenSleep =>
      cases h
      refine ⟨hi.worker_stay .frozenAsleep (fun _ => ?_) (by rw [hp]; rintro ⟨⟩) (by rintro ⟨⟩)
        (by rw [hp]; rintro _ ⟨⟩) (by rw [hp]; rintro ⟨⟩) (by rw [hp]; rintro ⟨⟩), .of_grows (.refl _)⟩
      exact (hi.armed (by rw [hp]; rfl)).goto (by rw [hp]; rfl) fun hno hw => .inl ⟨hno, hw⟩
  | frozenAsleep => cases h
  | working hf hp' =>
      have stay : ∀ {q : Pc}, Working q → q.stuck = false → p.ended = false → q.exited = false →
          (∀ x, p.holding = some x → q.holding = some x) →
          (p.looking = true → q.looking = true) →
          (p.kicking = true → q.kicking = true ∨ q.looking = true) →
          Inv c (s.goto 0 q) ∧ Acted s (s.goto 0 q) := by
        intro q hq hs he hx hh hl hk
        rw [← hp] at he hh hl hk
        exact ⟨hi.worker_stay (.working hf hq) (by rw [hs]; rintro ⟨⟩) (by rw [he]; rintro ⟨⟩)
          (by rw [hx]; rintro ⟨⟩) hh hl hk, .of_grows (.refl _)⟩
      cases hp' with
      | xopqCas o =>
          dsimp only at h
          split at h
          · next ho =>
            cases h
            subst ho
            exact worker_takes hi hp hf
          · cases h
            exact top rfl rfl rfl rfl .top rfl (by rintro ⟨⟩)
      | next g =>
          have hfree : ∀ x, s.fifoRun x = false := by
            intro x
            cases hx : s.fifoRun x with
            | false => rfl
            | true =>
                have hh := hi.marked x hx
                rw [hp] at hh
                cases hh
          dsimp only at h
          rw [xopNext_eq hfree] at h
          cases hq : s.xopq.head? with
          | none =>
              rw [hq] at h
              cases h
              have hno := hi.not_stopped (by rw [hp]; rfl)
              refine ⟨hi.worker_move rfl (.working hf (.idleCas g)) id (by rintro ⟨⟩) ?_ (by rintro ⟨⟩) ?_ ?_ hi.kind,
                .of_grows (.refl _)⟩
              · intro h
                cases (hno.symm.trans h)
              · intro x hx
                cases ((hfree x).symm.trans hx)
              · intro hne
                exact absurd (List.head?_eq_none_iff.mp hq) hne
          | some x =>
              rw [hq] at h
              cases h
              have hno := hi.not_stopped (by rw [hp]; rfl)
              refine ⟨hi.worker_move rfl (.working hf (.storage g x)) id (by rintro ⟨⟩) ?_ (by rintro ⟨⟩) ?_
                (fun _ => .inl rfl) hi.kind, .of_grows (.refl _)⟩
              · intro h
                cases (hno.symm.trans h)
              · intro y hy
                change Function.update s.fifoRun x true y = true at hy
                by_cases hyx : y = x
                · rw [hyx]
                  rfl
                · rw [Function.update_of_ne hyx, hfree y] at hy
                  cases hy
      | storage g x =>
          cases h
          exact stay (.dequeue g x) rfl rfl rfl (fun _ => id) (fun _ => rfl) (by rintro ⟨⟩)
      | dequeue g x =>
          cases h
          have hno := hi.not_stopped (by rw [hp]; rfl)
          refine ⟨hi.worker_move rfl (.working hf (.dequeued g)) id (by rintro ⟨⟩) ?_ (by rintro ⟨⟩) ?_
            (fun _ => .inl rfl) ?_, .of_grows (.refl _)⟩
          · intro h
            cases (hno.symm.trans h)
          · intro y hy
            change Function.update s.fifoRun x false y = true at hy
            by_cases hyx : y = x
            · rw [hyx, Function.update_self] at hy
              cases hy
            · rw [Function.update_of_ne hyx] at hy
              have hh := hi.marked y hy
              rw [hp] at hh
              exact absurd (Option.some.inj hh).symm hyx
          · intro hk
            refine ⟨?_, (hi.kind hk).2⟩
            show s.xopq.erase x = []
            rw [(hi.kind hk).1]
            rfl
      | dequeued g =>
          cases h
          split
          · exact stay (.more g) rfl rfl rfl (by rintro _ ⟨⟩) (fun _ => rfl) (by rintro ⟨⟩)
          · exact stay (.retire g) rfl rfl rfl (by rintro _ ⟨⟩) (fun _ => rfl) (by rintro ⟨⟩)
      | more g =>
          cases h
          exact stay (.moreCas _ g) rfl rfl rfl (by rintro _ ⟨⟩) (fun _ => rfl) (fun _ => .inl rfl)
      | moreCas o g =>
          dsimp only at h
          split at h
          · next ho =>
            cases h
            subst ho
            have hgrows : Grows s.flags (s.flags.signalled XOPQ .zero) := .request (.inl rfl)
            have hno := hi.not_stopped (by rw [hp]; rfl)
            have hq : ∀ b : Bool, Working (if b = true then .wakeup (.retire g) else .retire g) ∧
                (if b = true then Pc.wakeup (.retire g) else .retire g).looking = true ∧
                (if b = true then Pc.wakeup (.retire g) else .retire g).stuck = false ∧
                (if b = true then Pc.wakeup (.retire g) else .retire g).exited = false := by
              rintro (_ | _)
              · exact ⟨.retire g, rfl, rfl, rfl⟩
              · exact ⟨.woken g, rfl, rfl, rfl⟩
            obtain ⟨hwork, hlook, hstuck, hexit⟩ := hq s.flags.waiting
            refine ⟨hi.worker_move rfl (.working (hgrows.frozen.trans hf) hwork)
              (fun h => hgrows.stopped.trans h) (by rw [hstuck]; rintro ⟨⟩) ?_ (by rw [hexit]; rintro ⟨⟩) ?_
              (fun _ => .inl hlook) fun hk => ⟨(hi.kind hk).1, hgrows.frozen.trans hf⟩,
              .of_grows hgrows⟩
            · intro h
              cases ((hgrows.stopped.trans hno).symm.trans h)
            · intro x hx
              have hh := hi.marked x hx
              rw [hp] at hh
              cases hh
          · cases h
            exact stay (.more g) rfl rfl rfl (by rintro _ ⟨⟩) (fun _ => rfl) (fun _ => .inl rfl)
      | woken g =>
          cases h
          exact ⟨worker_woken hi hp (.working hf (.retire g)) (.inr (.inl ⟨g, rfl⟩)),
            .of_grows (.refl _)⟩
      | retire g =>
          cases h
          exact stay (.next g) rfl rfl rfl (by rintro _ ⟨⟩) (fun _ => rfl) (by rintro ⟨⟩)
      | flush =>
          cases h
          exact top rfl rfl rfl rfl .top rfl (by rintro ⟨⟩)
      | idleCas o =>
          dsimp only at h
          split at h
          · next ho =>
            cases h
            subst ho
            have htimo : idleTimo c.kind ≠ 0 := by cases c.kind <;> decide
            exact ⟨worker_sleeps hi (by rw [hp]; rfl) (by rw [hp]; rfl) (by rw [hp]; rfl)
              (by rw [hp]; rfl) (.working hf (.sleep htimo)) (absurd · htimo),
              .of_grows (.waiting _)⟩
          · cases h
            exact top rfl rfl rfl rfl .top rfl (by rintro ⟨⟩)
      | @sleep timo htimo =>
          cases h
          cases timo with
          | zero => exact absurd rfl htimo
          | succ n => exact stay (.asleep htimo) rfl rfl rfl (by rintro _ ⟨⟩) (by rintro ⟨⟩) (by rintro ⟨⟩)
      | asleep => cases h
  | exiting hf hp' => exact worker_exits hi hp hf hp' hrun

/-! ## Runs -/

theorem call_inv {op : Op} (hi : Inv c s) (ht : t ≠ 0) (hp : s.pc t = .idle)
    (hok : Ok s (.call t op)) (h : call c s t op = some s') : Inv c s' ∧ Grows s.flags s'.flags := by
  have go : ∀ {pos : Flags} {k : Pc}, Request pos → Next k →
      Inv c (s.goto t (signal pos k)) ∧ Grows s.flags (s.goto t (signal pos k)).flags :=
    fun hpos hk =>
      ⟨hi.client_stay ht (by rw [hp]; rfl) (.signal hpos hk) (by rw [hp]; nofun), .refl _⟩
  cases op with
  | start x =>
      dsimp only [call] at h
      split at h
      · next hx =>
        cases h
        have hnot : (s.pc 0).exited = false := hok
        obtain ⟨hinv, hgrows⟩ := go (k := .idle) (.inl rfl) (.inl rfl)
        refine ⟨⟨hinv.worker, hinv.client, hinv.armed, hinv.stopped, ?_, hinv.marked, ?_, ?_⟩, .refl _⟩
        · intro he
          have h0 : (s.goto t (signal XOPQ .idle)).pc 0 = s.pc 0 := Function.update_of_ne ht.symm ..
          change ((s.goto t (signal XOPQ .idle)).pc 0).exited = true at he
          rw [h0, hnot] at he
          cases he
        · intro _
          exact .inr (.inr ⟨t, by
            show (Function.update s.pc t (signal XOPQ .idle) t).kicking = true
            rw [Function.update_self]
            rfl⟩)
        · intro hk
          rw [hx.1] at hk
          cases hk
      · cases h
  | kick =>
      cases h
      exact go (.inl rfl) (.inl rfl)
  | freezeAsync =>
      cases h
      exact go (.inr (.inl rfl)) (.inl rfl)
  | freeze =>
      dsimp only [call] at h
      split at h
      · cases h
        exact go (.inr (.inl rfl)) (.inr ⟨_, _, rfl, .inl ⟨.inl rfl, rfl⟩⟩)
      · cases h
        exact ⟨hi, .refl _⟩
  | unfreeze =>
      dsimp only [call] at h
      split at h
      · cases h
        exact go (.inr (.inr (.inl rfl))) (.inr ⟨_, _, rfl, .inl ⟨.inr rfl, rfl⟩⟩)
      · cases h
        exact ⟨hi, .refl _⟩
  | remaster =>
      dsimp only [call] at h
      split at h
      · cases h
        exact go (.inr (.inr (.inr (.inl rfl)))) (.inl rfl)
      · cases h
        exact ⟨hi, .refl _⟩
  | delete =>
      dsimp only [call] at h
      split at h
      · cases h
        exact go (.inr (.inr (.inr (.inr rfl)))) (.inr ⟨_, _, rfl, .inr ⟨rfl, rfl⟩⟩)
      · cases h
        exact ⟨hi, .refl _⟩

theorem timeout_inv (hi : Inv c s) (h : step c s (.timeout t) = some s') :
    Inv c s' ∧ s'.flags = s.flags := by
  dsimp only [step] at h
  split at h
  · next timo k e hp =>
    split at h
    · next htimo =>
      cases h
      refine ⟨?_, rfl⟩
      by_cases ht : t = 0
      · subst ht
        have hw := hi.worker
        rw [hp] at hw
        cases hw with
        | frozenAsleep => exact absurd rfl htimo
        | working hf hwork =>
            cases hwork
            exact hi.worker_top (by rw [hp]; rfl) (by rw [hp]; rfl) (by rw [hp]; rfl)
              (by rw [hp]; rfl) .top rfl nofun
        | exiting _ hex => cases hex
      · have hc := hi.client t ht
        rw [hp] at hc
        cases hc with
        | asleep hk =>
            exact hi.client_stay ht (by rw [hp]; rfl) (.wait hk) (by rw [hp]; nofun)
    · cases h
  · cases h

theorem step_inv {e : Event} (hi : Inv c s) (hok : Ok s e) (h : step c s e = some s') :
    Inv c s' ∧ Acted s s' := by
  cases e with
  | run t =>
      by_cases ht : t = 0
      · subst ht
        exact worker_run hi hok h
      · exact (client_run hi ht hok h).imp_right .of_grows
  | call t op =>
      dsimp only [step] at h
      split at h
      · next ht => exact (call_inv hi ht.1 ht.2 hok h).imp_right .of_grows
      · cases h
  | timeout t =>
      obtain ⟨hinv, hflags⟩ := timeout_inv hi h
      exact ⟨hinv, .of_grows (hflags ▸ .refl _)⟩

/-- What a reached state is like.  A sleep without a timeout ends when what it waits for is
there; a frozen worker does not work; an XOP in the queue is one that the worker will look for
or be told of; and where a worker has ended the queue is empty. -/
structure Sane (s : State) : Prop where
  wakes : ∀ {t w k e}, s.pc t = .asleep 0 (.wait w 0 k) e → w.holds s.flags = true →
    ∃ i, (s.pc i).waking = true
  frozen : s.flags.frozen = true → ¬ Working (s.pc 0)
  told : s.xopq ≠ [] → (s.pc 0).looking = true ∨ Queued s.flags s.pc
  drained : (s.pc 0).exited = true ∨ (∃ t, s.pc t = .deleted) → s.xopq = []

theorem ended_exited (h : p.ended = true) : p.exited = true := by
  unfold Pc.ended at h
  split at h
  · rfl
  · rfl
  · cases h

theorem Worker.not_frozen {kind : Kind} (h : Worker kind f p) (hp : Working p) :
    f.frozen = false := by
  cases h with
  | working hf _ => exact hf
  | exiting _ hex => cases hex <;> cases hp
  | _ => cases hp

theorem Inv.sane (hi : Inv c s) : Sane s where
  wakes := by
    intro t w k e hp hholds
    have ht : t = 0 := by
      by_contra ht
      have hstuck := (hi.client t ht).stuck
      rw [hp] at hstuck
      cases hstuck
    subst ht
    rcases hi.armed (by rw [hp]; rfl) with ⟨hno, -⟩ | hwake
    · have hw := hi.worker
      rw [hp] at hw
      cases hw with
      | frozenAsleep =>
          rw [hno] at hholds
          cases hholds
      | working _ hwork => cases hwork
      | exiting _ hex => cases hex
    · exact hwake
  frozen hf hwork := by
    rw [hi.worker.not_frozen hwork] at hf
    cases hf
  told := hi.queued
  drained := by
    rintro (h | ⟨t, hp⟩)
    · exact hi.drained h
    · have ht : t ≠ 0 := by
        rintro rfl
        have hw := hi.worker
        rw [hp] at hw
        cases hw with
        | working _ hwork => cases hwork
        | exiting _ hex => cases hex
      have hc := hi.client t ht
      rw [hp] at hc
      cases hc with
      | deleted hst => exact hi.drained (ended_exited (hi.stopped hst))

end

open Machine

/-- In a run of steps that are `Ok`. -/
theorem run_sane (c : Config) {es : List Event} {s : State} (hok : AllSteps (step c) Ok init es)
    (h : exec (step c) init es = some s) :
    Sane s ∧ ∀ e s', Ok s e → step c s e = some s' → Acted s s' := by
  have hi : Inv c s :=
    exec_invariant (fun _ _ _ hi hok hstep => (step_inv hi hok hstep).1) inv_init hok h
  exact ⟨hi.sane, fun e s' hok hstep => (step_inv hi hok hstep).2⟩

/-- `Ok` without its exceptions. -/
def okNow (s : State) : Event → Bool
  | .run t =>
      !((s.pc t).waking && (s.pc 0).window) &&
        !(t == 0 && s.pc 0 == .top && s.flags.stop && s.xopq != [])
  | .call _ (.start _) => !(s.pc 0).exited
  | _ => true

theorem okNow_ok {s : State} {e : Event} (h : okNow s e = true) : Ok s e := by
  cases e with
  | run t =>
      constructor
      · intro hw hwin
        simp [okNow, hw, hwin] at h
      · rintro rfl htop hstop
        have h' : (Pc.top.waking = false ∨ Pc.top.window = false) ∧ s.xopq = [] := by
          simpa [okNow, htop, hstop] using h
        exact h'.2
  | call t op =>
      cases op with
      | start x =>
          show (s.pc 0).exited = false
          simpa [okNow] using h
      | _ => trivial
  | timeout t => trivial

/-- A worker of the first node. -/
def worker0 : Config where
  kind := .xops
  sizeofInode := 1024
  thr := 4096
  ips := fun x => [BitVec.ofNat 64 (65536 * x)]

/-- Thread 1 freezes the worker. -/
def freezing : List Event := [.call 1 .freeze, .run 1, .run 1, .run 0, .run 0, .run 0, .run 1]

/-- The frozen worker has set WAITING and is about to sleep. -/
def dozing : List Event := freezing ++ [.run 0, .run 0, .run 0]

/-- Thread 2 wakes it and stops it, after an XOP has been started and run. -/
def orderly : List Event :=
  dozing ++ [.run 0, .call 2 .unfreeze, .run 2, .run 2, .run 2, .call 1 (.start 0), .run 1, .run 1] ++
    List.replicate 14 (.run 0) ++ [.run 2, .call 2 .delete, .run 2, .run 2, .run 2] ++
    List.replicate 4 (.run 0) ++ [.run 2, .run 2]

/-- A run in which the worker is frozen, works, and is stopped. -/
theorem run_sane_orderly : ∃ s, exec (step worker0) init orderly = some s ∧
    AllSteps (step worker0) Ok init orderly ∧
    Sane s ∧ ∀ e s', Ok s e → step worker0 s e = some s' → Acted s s' := by
  have hrun : (exec (step worker0) init orderly).isSome := by decide
  have hall : AllSteps (step worker0) (fun s e => okNow s e = true) init orderly := by
    decide
  obtain ⟨s, hs⟩ := Option.isSome_iff_exists.mp hrun
  have hok : AllSteps (step worker0) Ok init orderly := hall.mono fun _ _ => okNow_ok
  exact ⟨s, hs, hok, run_sane worker0 hok hs⟩

/-- The request to go on finds no one asleep. -/
def missed : List Event := dozing ++ [.call 2 .unfreeze, .run 2, .run 2, .run 2, .run 0]

/-- An XOP has been started when the worker is told to stop. -/
def left : List Event :=
  [.call 1 (.start 0), .call 2 .delete, .run 2, .run 2] ++ List.replicate 4 (.run 0) ++ [.run 2]

/-- The frozen worker sleeps on with UNFREEZE set, and thread 2 gets to the assertion with an XOP
in the queue. -/
theorem missed_left :
    (∃ s, exec (step worker0) init missed = some s ∧
      s.pc 0 = .asleep 0 (.wait frozenWait 0 .top) .top ∧ frozenWait.holds s.flags = true ∧
      ∀ i, (s.pc i).waking = false) ∧
    ∃ s, exec (step worker0) init left = some s ∧ s.pc 2 = .deleted ∧ s.xopq = [0] := by
  constructor
  · refine ⟨_, rfl, rfl, rfl, ?_⟩
    rintro (_ | _ | _ | i) <;> rfl
  · exact ⟨_, rfl, rfl, rfl⟩

end Hammer2.Xop.Signal
