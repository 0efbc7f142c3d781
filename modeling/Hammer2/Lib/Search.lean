/-
# `Hammer2.Lib.Search` — depth-first walks over a graph

    Reach    one node leads to another through good nodes
    Sound    every node that a node leads to is good
    walk     the nodes of all paths from a node, down to a depth
    Total    the sum of weights over all paths, where it is finite
-/
import Mathlib.Algebra.BigOperators.Group.List.Basic
import Mathlib.Logic.Relation

namespace Search

universe u v
variable {α : Type u} (kids : α → List α) (ok : α → Prop)

/-- From `x` to `y` through good nodes; `y` itself may be bad. -/
def Reach : α → α → Prop := Relation.ReflTransGen fun x y => ok x ∧ y ∈ kids x

/-- Every node reached is good. -/
def Sound (x : α) : Prop := ∀ y, Reach kids ok x y → ok y

/-- The nodes of all paths from `x` with less than `n` edges, a node as often as there are
paths to it. -/
def walk : Nat → α → List α
  | 0, _ => []
  | n + 1, x => x :: (kids x).flatMap (walk n)

variable {kids ok} {x y : α}

theorem Sound.self (h : Sound kids ok x) : ok x := h x .refl

theorem Sound.kid (h : Sound kids ok x) (hy : y ∈ kids x) : Sound kids ok y :=
  fun z hz => h z (.head ⟨h.self, hy⟩ hz)

/-- One node at a time. -/
theorem sound_iff : Sound kids ok x ↔ ok x ∧ ∀ y ∈ kids x, Sound kids ok y := by
  constructor
  · intro h
    exact ⟨h.self, fun y hy => h.kid hy⟩
  · rintro ⟨hx, hkids⟩ z hz
    rcases Relation.ReflTransGen.cases_head hz with rfl | ⟨y, ⟨-, hy⟩, hyz⟩
    · exact hx
    · exact hkids y hy z hyz

section Weight

variable {M : Type v} [AddMonoid M] (kids) (weight : α → M)

/-- The sum over all paths is `t`: deeper walks find nothing more. -/
def Total (x : α) (t : M) : Prop := ∃ n, ∀ m, n ≤ m → ((walk kids m x).map weight).sum = t

/-- The sums over all paths from the nodes of a list. -/
inductive Totals : List α → M → Prop
  | nil : Totals [] 0
  | cons {x xs t ts} : Total kids weight x t → Totals xs ts → Totals (x :: xs) (t + ts)

variable {kids weight} {t t' : M}

theorem Total.unique (h : Total kids weight x t) (h' : Total kids weight x t') : t = t' := by
  obtain ⟨n, hn⟩ := h
  obtain ⟨n', hn'⟩ := h'
  exact (hn _ (Nat.le_max_left n n')).symm.trans (hn' _ (Nat.le_max_right n n'))

theorem Totals.bound {xs : List α} (h : Totals kids weight xs t) :
    ∃ n, ∀ m, n ≤ m → ((xs.flatMap (walk kids m)).map weight).sum = t := by
  induction h with
  | nil => exact ⟨0, fun _ _ => rfl⟩
  | cons hx _ ih =>
      obtain ⟨n, hn⟩ := hx
      obtain ⟨n', hn'⟩ := ih
      refine ⟨max n n', fun m hm => ?_⟩
      rw [List.flatMap_cons, List.map_append, List.sum_append,
        hn m (Nat.le_trans (Nat.le_max_left n n') hm),
        hn' m (Nat.le_trans (Nat.le_max_right n n') hm)]

/-- A node and what is below it. -/
theorem Total.node (h : Totals kids weight (kids x) t) :
    Total kids weight x (weight x + t) := by
  obtain ⟨n, hn⟩ := h.bound
  refine ⟨n + 1, fun m hm => ?_⟩
  obtain ⟨m, rfl⟩ := Nat.exists_eq_add_of_le' hm
  rw [← Nat.add_assoc, walk, List.map_cons, List.sum_cons, hn _ (Nat.le_add_left n m)]

/-- The sum of images is the image of the sum. -/
theorem Total.hom {N : Type*} [AddMonoid N] (f : M →+ N) (h : Total kids weight x t) :
    Total kids (fun y => f (weight y)) x (f t) := by
  obtain ⟨n, hn⟩ := h
  refine ⟨n, fun m hm => ?_⟩
  rw [← hn m hm, map_list_sum, List.map_map]
  rfl

end Weight

end Search
