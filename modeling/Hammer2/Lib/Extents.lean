/-
# `Hammer2.Lib.Extents` — pieces laid end to end

The pieces have sizes; `start sizes i` is where piece `i` begins when each begins where the one
before it ends.  They cover the sum of the sizes, and no two of them overlap.
-/
import Mathlib.Algebra.BigOperators.Ring.List
import Mathlib.Algebra.Ring.Nat

namespace Extents

/-- Where a piece begins. -/
def start (sizes : List Nat) (i : Nat) : Nat := (sizes.take i).sum

theorem start_zero (sizes : List Nat) : start sizes 0 = 0 := rfl

theorem start_succ {sizes : List Nat} {i n : Nat} (h : sizes[i]? = some n) :
    start sizes (i + 1) = start sizes i + n := by
  obtain ⟨hlt, rfl⟩ := List.getElem?_eq_some_iff.mp h
  rw [start, start, List.take_add_one, h, List.sum_append]
  rfl

theorem start_length (sizes : List Nat) : start sizes sizes.length = sizes.sum := by
  rw [start, List.take_length]

theorem start_le_succ (sizes : List Nat) (i : Nat) : start sizes i ≤ start sizes (i + 1) := by
  rw [start, start, List.take_add_one, List.sum_append]
  exact Nat.le_add_right _ _

theorem start_mono (sizes : List Nat) {i j : Nat} (h : i ≤ j) : start sizes i ≤ start sizes j := by
  induction h with
  | refl => exact Nat.le_refl _
  | step _ ih => exact Nat.le_trans ih (start_le_succ sizes _)

theorem start_le_sum (sizes : List Nat) (i : Nat) : start sizes i ≤ sizes.sum := by
  have hsplit := congrArg List.sum (List.take_append_drop i sizes)
  rw [List.sum_append] at hsplit
  exact Nat.le.intro hsplit

/-- A piece ends before a later one begins. -/
theorem end_le_start {sizes : List Nat} {i j n : Nat} (h : sizes[i]? = some n) (hij : i < j) :
    start sizes i + n ≤ start sizes j := by
  rw [← start_succ h]
  exact start_mono sizes hij

theorem end_le_sum {sizes : List Nat} {i n : Nat} (h : sizes[i]? = some n) :
    start sizes i + n ≤ sizes.sum := by
  rw [← start_succ h]
  exact start_le_sum sizes (i + 1)

/-- Every place below the sum is in a piece. -/
theorem exists_piece : ∀ {sizes : List Nat} {o : Nat}, o < sizes.sum →
    ∃ i n, sizes[i]? = some n ∧ start sizes i ≤ o ∧ o < start sizes i + n
  | n :: sizes, o, h => by
      rcases Nat.lt_or_ge o n with hlt | hge
      · exact ⟨0, n, rfl, Nat.zero_le o, by rwa [start_zero, Nat.zero_add]⟩
      · rw [List.sum_cons] at h
        obtain ⟨i, m, hm, hle, hlt⟩ := @exists_piece sizes (o - n) (by omega)
        have hstart : start (n :: sizes) (i + 1) = n + start sizes i := List.sum_cons
        exact ⟨i + 1, m, hm, by omega, by omega⟩

/-- The pieces that hold a place are the same. -/
theorem piece_unique {sizes : List Nat} {o i j n m : Nat} (hi : sizes[i]? = some n)
    (hj : sizes[j]? = some m) (hoi : start sizes i ≤ o ∧ o < start sizes i + n)
    (hoj : start sizes j ≤ o ∧ o < start sizes j + m) : i = j := by
  rcases Nat.lt_trichotomy i j with hlt | heq | hgt
  · have hle := end_le_start hi hlt
    omega
  · exact heq
  · have hle := end_le_start hj hgt
    omega

/-- Pieces whose sizes are multiples begin at multiples. -/
theorem dvd_start {d : Nat} {sizes : List Nat} (h : ∀ n ∈ sizes, d ∣ n) (i : Nat) :
    d ∣ start sizes i :=
  List.dvd_sum fun n hn => h n (List.mem_of_mem_take hn)

end Extents
