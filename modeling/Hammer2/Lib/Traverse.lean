/-
# `Hammer2.Lib.Traverse` — a traversal that puts off what it has found

A traversal of nodes that share what is below them.  It tells the nodes apart by a key only, and
it may open what it has found at once, later, or more than once.

    Below kids opens top   what there is below `top`, where only nodes that `opens` are opened
    Closed seen pend       a node that was found is opened, or one of its key is still to be opened
    weight                 how many calls a traversal takes that does not tell nodes apart

`Closed.push` finds a node, `Closed.pop` opens one, and `Closed.below` is what is left at the end.
-/
import Mathlib.Algebra.BigOperators.Group.List.Basic
import Mathlib.Algebra.GroupWithZero.Nat
import Mathlib.Algebra.Order.BigOperators.Group.List
import Mathlib.Algebra.Order.Group.Nat

namespace Traverse

variable {α κ : Type} (kids : α → List α) (opens : α → Prop) (key : α → κ)

/-- What there is below `top`. -/
inductive Below (top : List α) : α → Prop
  | top {c : α} : c ∈ top → Below top c
  | down {p c : α} : Below top p → opens p → c ∈ kids p → Below top c

/-- A node of this key was found. -/
def Found (seen : List α) (k : κ) : Prop := ∃ b ∈ seen, key b = k

/-- Every kid was found. -/
def Opened (seen : List α) (b : α) : Prop := ∀ c ∈ kids b, Found key seen (key c)

/-- What was found is opened, or it is still to be opened. -/
def Closed (seen pend : List α) : Prop :=
  ∀ b ∈ seen, opens b → Found key pend (key b) ∨ Opened kids key seen b

/-- Nodes of one key have the same below them. -/
def Agree (P : α → Prop) : Prop :=
  ∀ a b, P a → P b → key a = key b → opens a → opens b ∧ ∀ c, c ∈ kids a ↔ c ∈ kids b

section Traversal

variable {kids opens key} {seen pend top : List α} {P : α → Prop}

theorem Found.mono {seen' : List α} {k : κ} (hsub : ∀ b ∈ seen, b ∈ seen')
    (h : Found key seen k) : Found key seen' k := by
  obtain ⟨b, hb, hk⟩ := h
  exact ⟨b, hsub b hb, hk⟩

theorem Opened.mono {seen' : List α} {b : α} (hsub : ∀ b ∈ seen, b ∈ seen')
    (h : Opened kids key seen b) : Opened kids key seen' b :=
  fun c hc => (h c hc).mono hsub

theorem Closed.nil (pend : List α) : Closed kids opens key [] pend :=
  fun _ hb => absurd hb List.not_mem_nil

/-- More may be put off, and in any order. -/
theorem Closed.weaken {pend' : List α} (hsub : ∀ b ∈ pend, b ∈ pend')
    (h : Closed kids opens key seen pend) : Closed kids opens key seen pend' :=
  fun b hb ho => (h b hb ho).imp (Found.mono hsub) id

/-- A node is found. -/
theorem Closed.push (c : α) (h : Closed kids opens key seen pend) :
    Closed kids opens key (seen ++ [c]) (c :: pend) := by
  have hsub : ∀ b ∈ seen, b ∈ seen ++ [c] := fun b hb => List.mem_append_left _ hb
  intro b hb ho
  rcases List.mem_append.mp hb with hb | hb
  · exact (h b hb ho).imp (Found.mono fun b hb => List.mem_cons_of_mem c hb) (Opened.mono hsub)
  · obtain rfl := List.mem_singleton.mp hb
    exact .inl ⟨b, List.mem_cons_self, rfl⟩

/-- A node is opened, or it is one that is not. -/
theorem Closed.pop {p : α} (ha : Agree kids opens key P) (hp : P p) (hseen : ∀ b ∈ seen, P b)
    (hopen : opens p → Opened kids key seen p) (h : Closed kids opens key seen (p :: pend)) :
    Closed kids opens key seen pend := by
  intro b hb ho
  rcases h b hb ho with ⟨q, hq, hkey⟩ | hdone
  · rcases List.mem_cons.mp hq with rfl | hq
    · obtain ⟨hq, hkids⟩ := ha b q (hseen b hb) hp hkey.symm ho
      exact .inr fun c hc => hopen hq c ((hkids c).mp hc)
    · exact .inl ⟨q, hq, hkey⟩
  · exact .inr hdone

/-- **Nothing is missed**: with nothing left to be opened, all there is below was found. -/
theorem Closed.below (ha : Agree kids opens key P) (hseen : ∀ b ∈ seen, P b)
    (hall : ∀ b, Below kids opens top b → P b) (htop : ∀ c ∈ top, Found key seen (key c))
    (h : Closed kids opens key seen []) {b : α} (hb : Below kids opens top b) :
    Found key seen (key b) := by
  induction hb with
  | top hc => exact htop _ hc
  | @down p c hp ho hc ih =>
      obtain ⟨q, hq, hkey⟩ := ih
      obtain ⟨hopen, hkids⟩ := ha p q (hall p hp) (hseen q hq) hkey.symm ho
      rcases h q hq hopen with ⟨r, hr, -⟩ | hdone
      · exact absurd hr List.not_mem_nil
      · exact hdone c ((hkids c).mp hc)

end Traversal

/-! ## How long it takes -/

section Weight

variable {kids} {top : List α}

/-- What a traversal of so many levels takes. -/
def weightTo (kids : α → List α) : Nat → α → Nat
  | 0, _ => 2
  | n + 1, b => ((kids b).map (weightTo kids n)).sum + 2

theorem weightTo_mono : ∀ {n m : Nat} (b : α), n ≤ m → weightTo kids n b ≤ weightTo kids m b
  | 0, 0, _, _ => Nat.le_refl _
  | 0, _ + 1, _, _ => Nat.le_add_left _ _
  | n + 1, m + 1, b, hle =>
      Nat.add_le_add_right
        (List.sum_le_sum fun c _ => weightTo_mono c (Nat.le_of_succ_le_succ hle)) 2

/-- What a traversal from `b` takes, `b` being so deep. -/
def weight (kids : α → List α) (rank : α → Nat) (b : α) : Nat := weightTo kids (rank b) b

theorem two_le_weight (rank : α → Nat) (b : α) : 2 ≤ weight kids rank b :=
  weightTo_mono (n := 0) b (Nat.zero_le _)

/-- The kids take less than their parent. -/
theorem sum_weight_lt {rank : α → Nat} {b : α} (h : ∀ c ∈ kids b, rank c < rank b) :
    ((kids b).map (weight kids rank)).sum + 2 ≤ weight kids rank b := by
  unfold weight
  cases hr : rank b with
  | zero =>
      cases hk : kids b with
      | nil => exact Nat.le_refl _
      | cons c cs =>
          have hlt := h c (by rw [hk]; exact List.mem_cons_self)
          rw [hr] at hlt
          exact absurd hlt (Nat.not_lt_zero _)
  | succ n =>
      refine Nat.add_le_add_right (List.sum_le_sum fun c hc => weightTo_mono c ?_) 2
      have hlt := h c hc
      rw [hr] at hlt
      exact Nat.le_of_lt_succ hlt

end Weight

end Traverse
