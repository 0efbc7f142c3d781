/-
# `Hammer2.Lib.Pairs` — two lists element by element

A list of parties and the list of their states, related one by one: from a state to its party and
back, one state changed, and counts carried from one list to the other.
-/
import Mathlib.Data.List.Forall2

namespace Pairs

universe u v
variable {α : Type u} {β : Type v} {R : α → β → Prop} {l : List α} {m : List β}

theorem exists_left (h : List.Forall₂ R l m) {b : β} (hb : b ∈ m) : ∃ a ∈ l, R a b := by
  induction h with
  | nil => cases hb
  | cons hr _ ih =>
      rcases List.mem_cons.mp hb with rfl | hb
      · exact ⟨_, List.mem_cons_self .., hr⟩
      · obtain ⟨a, ha, hab⟩ := ih hb
        exact ⟨a, List.mem_cons_of_mem _ ha, hab⟩

theorem exists_right (h : List.Forall₂ R l m) {a : α} (ha : a ∈ l) : ∃ b ∈ m, R a b := by
  obtain ⟨b, hb, hab⟩ := exists_left h.flip ha
  exact ⟨b, hb, hab⟩

theorem get (h : List.Forall₂ R l m) : ∀ {i : Nat} {a : α} {b : β}, l[i]? = some a → m[i]? = some b → R a b := by
  induction h with
  | nil => exact fun ha => nomatch ha
  | cons hr _ ih =>
      intro i a b ha hb
      cases i with
      | zero =>
          cases ha
          cases hb
          exact hr
      | succ i => exact ih ha hb

/-- One of the states changes. -/
theorem set (h : List.Forall₂ R l m) : ∀ {i : Nat} {a : α} {b : β}, l[i]? = some a → R a b →
    List.Forall₂ R l (m.set i b) := by
  induction h with
  | nil => exact fun ha => nomatch ha
  | @cons x y l m hr hrest ih =>
      intro i a b ha hab
      cases i with
      | zero =>
          cases ha
          exact .cons hab hrest
      | succ i => exact .cons hr (ih ha hab)

theorem countP_le {p : α → Bool} {q : β → Bool} (h : List.Forall₂ R l m)
    (hpq : ∀ a b, R a b → q b = true → p a = true) : m.countP q ≤ l.countP p := by
  induction h with
  | nil => exact Nat.le_refl _
  | @cons a b l m hr _ ih =>
      rw [List.countP_cons, List.countP_cons]
      cases hq : q b with
      | false => exact Nat.le_trans ih (Nat.le_add_right _ _)
      | true =>
          rw [hpq a b hr hq]
          exact Nat.add_le_add_right ih _

end Pairs
