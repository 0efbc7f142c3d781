/-
# `Hammer2.Lib.Cursor` — positions in an ordered listing

A listing in the strictly increasing order of its cookies, read from a position on.  A position
stands for the rest of the listing behind an item exactly when it lies between the cookie of the
item and those that follow.

    since            the items from a position on
    since_cookie     the cookie of an item stands for the item and what follows
    since_eq_iff     the positions that stand for what follows an item
-/
import Mathlib.Data.List.Basic
import Mathlib.Order.Lattice

namespace Cursor

universe u v
variable {α : Type u} {κ : Type v} [LinearOrder κ] {cookie : α → κ}

/-- The cookies increase. -/
def Increasing (cookie : α → κ) (l : List α) : Prop := l.Pairwise fun a b => cookie a < cookie b

/-- The items from a position on. -/
def since (cookie : α → κ) (l : List α) (o : κ) : List α := l.filter fun x => decide (o ≤ cookie x)

variable {l pre post : List α} {x : α} {o : κ}

theorem mem_since : x ∈ since cookie l o ↔ x ∈ l ∧ o ≤ cookie x := by
  rw [since, List.mem_filter, decide_eq_true_eq]

theorem since_append : since cookie (pre ++ post) o = since cookie pre o ++ since cookie post o :=
  List.filter_append ..

/-- Nothing is behind the last cookie. -/
theorem since_eq_nil (h : ∀ y ∈ l, cookie y < o) : since cookie l o = [] := by
  rw [since, List.filter_eq_nil_iff]
  intro y hy
  rw [decide_eq_true_eq, not_le]
  exact h y hy

/-- Everything is at or behind a position before all cookies. -/
theorem since_eq_self (h : ∀ y ∈ l, o ≤ cookie y) : since cookie l o = l :=
  List.filter_eq_self.mpr fun y hy => decide_eq_true (h y hy)

theorem Increasing.split (h : Increasing cookie (pre ++ x :: post)) :
    (∀ y ∈ pre, cookie y < cookie x) ∧ ∀ y ∈ post, cookie x < cookie y := by
  obtain ⟨-, htail, hcross⟩ := List.pairwise_append.mp h
  exact ⟨fun y hy => hcross y hy x (List.mem_cons_self ..), (List.pairwise_cons.mp htail).1⟩

/-- The cookie of an item stands for the item and what follows. -/
theorem since_cookie (h : Increasing cookie (pre ++ x :: post)) :
    since cookie (pre ++ x :: post) (cookie x) = x :: post := by
  obtain ⟨hpre, hpost⟩ := h.split
  rw [since_append, since_eq_nil hpre, List.nil_append]
  refine since_eq_self fun y hy => ?_
  rcases List.mem_cons.mp hy with rfl | hy
  · exact le_refl _
  · exact le_of_lt (hpost y hy)

/-- **The positions behind an item**: past its cookie, and not past any that follows. -/
theorem since_eq_iff (h : Increasing cookie (pre ++ x :: post)) :
    since cookie (pre ++ x :: post) o = post ↔ cookie x < o ∧ ∀ y ∈ post, o ≤ cookie y := by
  obtain ⟨hpre, hpost⟩ := h.split
  constructor
  · intro heq
    refine ⟨?_, fun y hy => ?_⟩
    · by_contra hle
      have hx : x ∈ since cookie (pre ++ x :: post) o :=
        mem_since.mpr ⟨List.mem_append_right _ (List.mem_cons_self ..), not_lt.mp hle⟩
      rw [heq] at hx
      exact lt_irrefl _ (hpost x hx)
    · rw [← heq] at hy
      exact (mem_since.mp hy).2
  · rintro ⟨hx, hall⟩
    have hbefore : ∀ y ∈ pre ++ [x], cookie y < o := by
      intro y hy
      rcases List.mem_append.mp hy with hy | hy
      · exact lt_trans (hpre y hy) hx
      · rw [List.mem_singleton.mp hy]
        exact hx
    rw [List.append_cons, since_append, since_eq_nil hbefore, since_eq_self hall, List.nil_append]

/-- What is left from a position on is the end of the listing. -/
theorem Increasing.since_suffix (h : Increasing cookie l) (o : κ) : since cookie l o <:+ l := by
  induction l with
  | nil => exact List.suffix_refl _
  | cons a l ih =>
      obtain ⟨hhead, htail⟩ := List.pairwise_cons.mp h
      by_cases ha : o ≤ cookie a
      · have hself : since cookie (a :: l) o = a :: l := by
          refine since_eq_self fun y hy => ?_
          rcases List.mem_cons.mp hy with rfl | hy
          · exact ha
          · exact le_trans ha (le_of_lt (hhead y hy))
        exact hself.symm ▸ List.suffix_refl _
      · rw [since, List.filter_cons_of_neg (by rw [decide_eq_true_eq]; exact ha)]
        exact (ih htail).trans (List.suffix_cons ..)

/-- A position that is not past any of these leaves them. -/
theorem Increasing.since_suffix_since {o' : κ} (h : Increasing cookie l)
    (hall : ∀ y ∈ since cookie l o, o' ≤ cookie y) : since cookie l o <:+ since cookie l o' := by
  obtain ⟨front, hfront⟩ := h.since_suffix o
  refine ⟨since cookie front o', ?_⟩
  calc since cookie front o' ++ since cookie l o
      = since cookie front o' ++ since cookie (since cookie l o) o' := by rw [since_eq_self hall]
    _ = since cookie l o' := by rw [← since_append, hfront]

end Cursor
