/-
# `Hammer2.Lib.Machine` — runs of a deterministic machine

A machine is a partial step function `step : σ → α → Option σ`: `step s a` is
the state after the event `a`, or `none` when `a` cannot happen in `s`.  A
property of *every run* is proved here once and for all from a property of one
step:

    exec step s as = some t          the events `as` lead from `s` to `t`
    AllSteps step ok s as            every event of `as` meets `ok` in the
                                     state it happens in

`exec_invariant` is the induction rule: what one step meeting `ok` preserves,
a run whose steps all meet `ok` preserves.
-/
import Mathlib.Logic.Basic

namespace Machine

universe u v
variable {σ : Type u} {α : Type v}

/-- The state after a list of events, `none` when one of them cannot happen. -/
def exec (step : σ → α → Option σ) : σ → List α → Option σ
  | s, [] => some s
  | s, a :: as =>
      match step s a with
      | some t => exec step t as
      | none => none

/-- Every event of the run meets `ok` in the state it happens in. -/
def AllSteps (step : σ → α → Option σ) (ok : σ → α → Prop) : σ → List α → Prop
  | _, [] => True
  | s, a :: as => ok s a ∧
      match step s a with
      | some t => AllSteps step ok t as
      | none => True

instance decAllSteps (step : σ → α → Option σ) (ok : σ → α → Prop)
    [∀ s a, Decidable (ok s a)] : ∀ s as, Decidable (AllSteps step ok s as)
  | _, [] => .isTrue trivial
  | s, a :: as =>
      match h : step s a with
      | some t =>
          have := decAllSteps step ok t as
          decidable_of_iff (ok s a ∧ AllSteps step ok t as) (by simp [AllSteps, h])
      | none => decidable_of_iff (ok s a) (by simp [AllSteps, h])

variable {step : σ → α → Option σ} {ok : σ → α → Prop}

@[simp] theorem exec_nil (s : σ) : exec step s [] = some s := rfl

theorem exec_cons {s : σ} {a : α} {as : List α} :
    exec step s (a :: as) = (step s a).bind (fun t => exec step t as) := by
  cases h : step s a <;> simp [exec, h]

/-- A run of at least one event, split after that event. -/
theorem exec_cons_eq_some {s u : σ} {a : α} {as : List α} :
    exec step s (a :: as) = some u ↔ ∃ t, step s a = some t ∧ exec step t as = some u := by
  rw [exec_cons, Option.bind_eq_some_iff]

theorem exec_append {s : σ} {as bs : List α} :
    exec step s (as ++ bs) = (exec step s as).bind (fun t => exec step t bs) := by
  induction as generalizing s with
  | nil => rfl
  | cons a as ih =>
      cases h : step s a with
      | none => simp [exec, h]
      | some t => simp [exec, h, ih]

/-- The two parts of a run. -/
theorem AllSteps.of_append {bs : List α} :
    ∀ {as : List α} {s t : σ}, AllSteps step ok s (as ++ bs) → exec step s as = some t →
      AllSteps step ok s as ∧ AllSteps step ok t bs
  | [], s, t, h, he => by
      obtain rfl : s = t := by simpa using he
      exact ⟨trivial, h⟩
  | a :: as, s, t, h, he => by
      obtain ⟨u, hu, hrest⟩ := exec_cons_eq_some.mp he
      have hnext := h.2
      rw [hu] at hnext
      obtain ⟨hl, hr⟩ := AllSteps.of_append hnext hrest
      refine ⟨⟨h.1, ?_⟩, hr⟩
      rw [hu]
      exact hl

theorem AllSteps.append {bs : List α} : ∀ {as : List α} {s t : σ}, exec step s as = some t →
    AllSteps step ok s as → AllSteps step ok t bs → AllSteps step ok s (as ++ bs)
  | [], s, t, he, _, hbs => by
      obtain rfl : s = t := by simpa using he
      exact hbs
  | a :: as, s, t, he, has, hbs => by
      obtain ⟨u, hu, hrest⟩ := exec_cons_eq_some.mp he
      have hnext := has.2
      rw [hu] at hnext
      refine ⟨has.1, ?_⟩
      rw [hu]
      exact AllSteps.append hrest hnext hbs

theorem AllSteps.mono {ok' : σ → α → Prop} (h : ∀ s a, ok s a → ok' s a) :
    ∀ {s : σ} {as : List α}, AllSteps step ok s as → AllSteps step ok' s as
  | _, [], _ => trivial
  | s, a :: as, hs => by
      refine ⟨h s a hs.1, ?_⟩
      have hrest := hs.2
      cases hstep : step s a with
      | none => trivial
      | some t =>
          rw [hstep] at hrest
          exact AllSteps.mono h hrest

/-- Events that meet `ok` in every state. -/
theorem AllSteps.of_forall : ∀ {as : List α} (s : σ), (∀ a ∈ as, ∀ s, ok s a) →
    AllSteps step ok s as
  | [], _, _ => trivial
  | a :: as, s, h => by
      refine ⟨h a List.mem_cons_self s, ?_⟩
      cases step s a with
      | none => trivial
      | some t => exact AllSteps.of_forall t fun b hb => h b (List.mem_cons_of_mem a hb)

theorem allSteps_true (step : σ → α → Option σ) (s : σ) (as : List α) :
    AllSteps step (fun _ _ => True) s as := .of_forall s fun _ _ _ => trivial

/-- **The run rule.**  What every step meeting `ok` preserves, every run whose
steps all meet `ok` preserves. -/
theorem exec_invariant {I : σ → Prop}
    (hstep : ∀ s a t, I s → ok s a → step s a = some t → I t) :
    ∀ {as : List α} {s t : σ}, I s → AllSteps step ok s as → exec step s as = some t → I t
  | [], s, t, hI, _, he => by
      obtain rfl : s = t := by simpa using he
      exact hI
  | a :: as, s, t, hI, hok, he => by
      obtain ⟨u, hu, hrest⟩ := exec_cons_eq_some.mp he
      have hnext := hok.2
      rw [hu] at hnext
      exact exec_invariant hstep (hstep s a u hI hok.1 hu) hnext hrest

/-- The run rule for a machine that never stops: a step meeting `ok` can happen, and
preserves the invariant. -/
theorem exec_total {I : σ → Prop}
    (hstep : ∀ s a, I s → ok s a → ∃ t, step s a = some t ∧ I t) :
    ∀ {as : List α} {s : σ}, I s → AllSteps step ok s as → ∃ t, exec step s as = some t ∧ I t
  | [], s, hI, _ => ⟨s, rfl, hI⟩
  | a :: as, s, hI, hok => by
      obtain ⟨u, hu, hIu⟩ := hstep s a hI hok.1
      have hnext := hok.2
      rw [hu] at hnext
      obtain ⟨t, ht, hIt⟩ := exec_total hstep hIu hnext
      exact ⟨t, exec_cons_eq_some.mpr ⟨u, hu, ht⟩, hIt⟩

/-- The run rule for a machine whose every step preserves the invariant. -/
theorem exec_invariant' {I : σ → Prop} (hstep : ∀ s a t, I s → step s a = some t → I t)
    {as : List α} {s t : σ} (hI : I s) (he : exec step s as = some t) : I t := by
  induction as generalizing s with
  | nil =>
      obtain rfl : s = t := by simpa using he
      exact hI
  | cons a as ih =>
      obtain ⟨u, hu, hrest⟩ := exec_cons_eq_some.mp he
      exact ih (hstep s a u hI hu) hrest

end Machine
