/-
# `Hammer2.Lib.Tokens` — counting who has a reference

A counted object is shared by holders; a list of pairs `(holder, object)` says who has a
reference to what, a pair for each.  `count` is what a reference count should be.
-/
import Mathlib.Data.List.Count
import Mathlib.Order.Nat

namespace Tokens

theorem lawful_pair : LawfulBEq (Nat × Nat) := inferInstance

universe u v
variable {α : Type u} {β : Type v} [DecidableEq α] [DecidableEq β]

/-- How many references to `d` there are. -/
def count (tokens : List (α × β)) (d : β) : Nat := tokens.countP (·.2 = d)

variable {tokens : List (α × β)} {t u : α} {d e : β}

omit [DecidableEq α] in
@[simp] theorem count_nil : count ([] : List (α × β)) d = 0 := rfl

omit [DecidableEq α] in
@[simp] theorem count_cons_self : count ((t, d) :: tokens) d = count tokens d + 1 := by
  simp [count]

omit [DecidableEq α] in
theorem count_cons_of_ne (h : e ≠ d) : count ((t, d) :: tokens) e = count tokens e := by
  simp [count, Ne.symm h]

omit [DecidableEq α] in
theorem count_perm {l l' : List (α × β)} (h : l.Perm l') (d : β) : count l d = count l' d :=
  h.countP_eq _

omit [DecidableEq α] in
theorem count_eq_zero : count tokens d = 0 ↔ ∀ t, (t, d) ∉ tokens := by
  unfold count
  rw [List.countP_eq_zero]
  constructor
  · intro h t hm
    exact h _ hm (by simp)
  · rintro h ⟨t, e⟩ hm he
    obtain rfl : e = d := by simpa using he
    exact h t hm

omit [DecidableEq α] in
theorem count_pos (h : (t, d) ∈ tokens) : 0 < count tokens d := by
  rw [Nat.pos_iff_ne_zero, Ne, count_eq_zero]
  exact fun hno => hno t h

/-- One reference less. -/
theorem count_erase_self (h : (t, d) ∈ tokens) :
    count (tokens.erase (t, d)) d + 1 = count tokens d := by
  rw [count_perm (List.perm_cons_erase h), count_cons_self]

theorem count_erase_of_ne (h : e ≠ d) : count (tokens.erase (t, d)) e = count tokens e := by
  by_cases hm : (t, d) ∈ tokens
  · rw [count_perm (List.perm_cons_erase hm) e, count_cons_of_ne h]
  · rw [List.erase_of_not_mem hm]

/-- No holder has more references than there are. -/
theorem le_count : tokens.count (t, d) ≤ count tokens d := by
  refine List.countP_mono_left fun p _ hp => ?_
  obtain rfl : p = (t, d) := by simpa using hp
  simp

/-- Two holders have no more than there are. -/
theorem add_le_count (h : u ≠ t) :
    tokens.count (t, d) + tokens.count (u, d) ≤ count tokens d := by
  induction tokens with
  | nil => simp
  | cons p tokens ih =>
      obtain ⟨v, e⟩ := p
      by_cases he : e = d
      · subst he
        rw [count_cons_self]
        by_cases hv : v = t
        · subst hv
          have hne : ¬ (v, e) = (u, e) := fun heq => h (congrArg Prod.fst heq).symm
          simp only [List.count_cons, beq_self_eq_true, if_true, beq_iff_eq, hne, if_false]
          omega
        · by_cases hu : v = u
          · subst hu
            have hne : ¬ (v, e) = (t, e) := fun heq => hv (congrArg Prod.fst heq)
            simp only [List.count_cons, beq_self_eq_true, if_true, beq_iff_eq, hne, if_false]
            omega
          · have hne : ¬ (v, e) = (t, e) := fun heq => hv (congrArg Prod.fst heq)
            have hne' : ¬ (v, e) = (u, e) := fun heq => hu (congrArg Prod.fst heq)
            simp only [List.count_cons, beq_iff_eq, hne, hne', if_false]
            omega
      · have hne : ∀ w : α, ¬ (v, e) = (w, d) := fun w heq => he (congrArg Prod.snd heq)
        rw [count_cons_of_ne (Ne.symm he)]
        simp only [List.count_cons, beq_iff_eq, hne, if_false]
        exact ih

end Tokens
