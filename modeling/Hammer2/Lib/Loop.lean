/-
# `Hammer2.Lib.Loop` — a loop with a bound

A loop body takes a state and either goes `again` with another one or `stop`s with a result.
`loop body fuel s` runs it for at most `fuel` turns.

`loop_spec` is the rule of total correctness: with an invariant that every turn keeps and a
measure that every turn lowers, as many turns as the measure says and one are enough, and the
result is one that a turn from the invariant can give.  `Leads.loop_eq` follows the turns from
one state to another.
-/
import Mathlib.Logic.Relation
import Mathlib.Order.Basic

namespace Loop

universe u v
variable {σ : Type u} {ρ : Type v}

/-- What one turn of a loop comes to. -/
inductive Turn (σ : Type u) (ρ : Type v) where
  | again (s : σ)
  | stop (r : ρ)

def loop (body : σ → Turn σ ρ) : Nat → σ → Option ρ
  | 0, _ => none
  | fuel + 1, s =>
      match body s with
      | .again t => loop body fuel t
      | .stop r => some r

/-- One turn keeps `P` and lowers the measure, or stops with a result in `Q`. -/
structure Bounded (body : σ → Turn σ ρ) (P : σ → Prop) (Q : ρ → Prop) (measure : σ → Nat) : Prop where
  again : ∀ s t, P s → body s = .again t → P t ∧ measure t < measure s
  stop : ∀ s r, P s → body s = .stop r → Q r

/-- Total correctness. -/
theorem Bounded.loop_spec {body : σ → Turn σ ρ} {P : σ → Prop} {Q : ρ → Prop} {measure : σ → Nat}
    (h : Bounded body P Q measure) : ∀ {fuel : Nat} {s : σ}, P s → measure s < fuel →
      ∃ r, loop body fuel s = some r ∧ Q r
  | fuel + 1, s, hs, hlt => by
      unfold loop
      cases hb : body s with
      | again t =>
          obtain ⟨ht, hless⟩ := h.again s t hs hb
          exact h.loop_spec ht (by omega)
      | stop r => exact ⟨r, rfl, h.stop s r hs hb⟩

/-- Partial correctness needs no measure. -/
theorem loop_stop {body : σ → Turn σ ρ} {P : σ → Prop} {Q : ρ → Prop}
    (hagain : ∀ s t, P s → body s = .again t → P t) (hstop : ∀ s r, P s → body s = .stop r → Q r) :
    ∀ {fuel : Nat} {s : σ} {r : ρ}, P s → loop body fuel s = some r → Q r
  | fuel + 1, s, r, hs, hr => by
      unfold loop at hr
      cases hb : body s with
      | again t =>
          rw [hb] at hr
          exact loop_stop hagain hstop (hagain s t hs hb) hr
      | stop r' =>
          rw [hb] at hr
          obtain rfl := Option.some.inj hr
          exact hstop s _ hs hb

/-- More turns than enough change nothing. -/
theorem loop_mono {body : σ → Turn σ ρ} : ∀ {fuel more : Nat} {s : σ} {r : ρ}, fuel ≤ more →
    loop body fuel s = some r → loop body more s = some r
  | fuel + 1, more + 1, s, r, hle, hr => by
      unfold loop at hr ⊢
      cases hb : body s with
      | again t =>
          rw [hb] at hr
          exact loop_mono (Nat.le_of_succ_le_succ hle) hr
      | stop r' =>
          rw [hb] at hr
          exact hr

/-- Turns that lead from one state to another. -/
def Leads (body : σ → Turn σ ρ) : σ → σ → Prop :=
  Relation.ReflTransGen fun s t => body s = .again t

/-- A loop goes on as it does from a state it leads to. -/
theorem Leads.loop_eq {body : σ → Turn σ ρ} {s t : σ} (h : Leads body s t) {r : ρ}
    (hr : ∃ fuel, loop body fuel t = some r) : ∃ fuel, loop body fuel s = some r := by
  induction h using Relation.ReflTransGen.head_induction_on with
  | refl => exact hr
  | head hst _ ih =>
      obtain ⟨fuel, hfuel⟩ := ih
      refine ⟨fuel + 1, ?_⟩
      rw [loop, hst]
      exact hfuel

theorem loop_of_stop {body : σ → Turn σ ρ} {s : σ} {r : ρ} (h : body s = .stop r) :
    ∃ fuel, loop body fuel s = some r := ⟨1, by rw [loop, h]⟩

/-- Two runs that end end alike. -/
theorem loop_unique {body : σ → Turn σ ρ} {s : σ} {r r' : ρ} {fuel fuel' : Nat}
    (h : loop body fuel s = some r) (h' : loop body fuel' s = some r') : r = r' := by
  have hmax := loop_mono (Nat.le_max_left fuel fuel') h
  rw [loop_mono (Nat.le_max_right fuel fuel') h'] at hmax
  exact (Option.some.inj hmax).symm

end Loop
