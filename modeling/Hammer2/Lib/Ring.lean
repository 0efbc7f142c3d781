/-
# `Hammer2.Lib.Ring` — a queue in a ring of cells

A producer appends to a sequence and a consumer reads it in order; the part in
flight, positions `lo ≤ k < hi`, is kept in an array of cells, position `k` in
cell `k % size`.  `Holds` is that representation.  It is kept by appending into
a free cell and by reading the oldest one, and under a change of `size` exactly
by the positions whose cell stays the same (`mod_double_iff` for a doubling).
-/
import Mathlib.Data.Nat.Bitwise

namespace Ring

universe u
variable {α : Type u} {cells seq : List α} {size lo hi : Nat}

/-- The cells hold the positions `lo ≤ k < hi` of the sequence, modulo `size`. -/
structure Holds (cells : List α) (size : Nat) (seq : List α) (lo hi : Nat) : Prop where
  le : lo ≤ hi
  room : hi ≤ lo + size
  hi_eq : hi = seq.length
  cell : ∀ k, lo ≤ k → k < hi → cells[k % size]? = seq[k]?

theorem holds_empty (cells : List α) (size : Nat) : Holds cells size [] 0 0 where
  le := Nat.le_refl _
  room := Nat.zero_le _
  hi_eq := rfl
  cell k _ hk := absurd hk (Nat.not_lt_zero k)

/-- Two positions less than `size` apart are in different cells. -/
theorem cell_ne {j k : Nat} (hj : j < k) (hk : k < j + size) : j % size ≠ k % size := by
  intro heq
  have hdvd : size ∣ k - j := Nat.dvd_of_mod_eq_zero (Nat.sub_mod_eq_zero_of_mod_eq heq.symm)
  have := Nat.le_of_dvd (by omega) hdvd
  omega

/-- Appending into a free cell. -/
theorem Holds.push (h : Holds cells size seq lo hi) (a : α) (hroom : hi < lo + size)
    (hidx : hi % size < cells.length) :
    Holds (cells.set (hi % size) a) size (seq ++ [a]) lo (hi + 1) where
  le := Nat.le_succ_of_le h.le
  room := hroom
  hi_eq := by rw [List.length_append, ← h.hi_eq]; rfl
  cell := by
    intro k hlo hk
    rcases Nat.lt_succ_iff_lt_or_eq.mp hk with hlt | rfl
    · have hne : hi % size ≠ k % size := (cell_ne hlt (by omega)).symm
      rw [List.getElem?_set_ne hne, h.cell k hlo hlt,
        List.getElem?_append_left (by rw [← h.hi_eq]; exact hlt)]
    · rw [List.getElem?_set_self hidx, h.hi_eq, List.getElem?_concat_length]

/-- Reading the oldest cell. -/
theorem Holds.pop (h : Holds cells size seq lo hi) (hlt : lo < hi) :
    cells[lo % size]? = seq[lo]? ∧ Holds cells size seq (lo + 1) hi where
  left := h.cell lo (Nat.le_refl _) hlt
  right := {
    le := hlt
    room := by have := h.room; omega
    hi_eq := h.hi_eq
    cell := fun k hk hlt => h.cell k (Nat.le_of_succ_le hk) hlt }

/-- A position in flight is in an allocated cell. -/
theorem Holds.cell_lt (h : Holds cells size seq lo hi) {k : Nat} (hk : lo ≤ k) (hlt : k < hi) :
    k % size < cells.length := by
  have hseq : k < seq.length := h.hi_eq ▸ hlt
  have hsome : cells[k % size]? = some seq[k] := by
    rw [h.cell k hk hlt, List.getElem?_eq_getElem hseq]
  exact (List.getElem?_eq_some_iff.mp hsome).1

/-- A full ring has all its cells allocated. -/
theorem Holds.full_length (h : Holds cells size seq lo hi) (hfull : lo + size = hi) :
    size ≤ cells.length := by
  rcases Nat.eq_zero_or_pos size with hz | hpos
  · omega
  · -- Some position of the window is in the last cell.
    have hin : ∃ k, lo ≤ k ∧ k < lo + size ∧ k % size = size - 1 := by
      refine ⟨lo + (size - 1 - lo % size), Nat.le_add_right _ _, ?_, ?_⟩
      · have := Nat.mod_lt lo hpos
        omega
      · have hlt := Nat.mod_lt lo hpos
        have hsum : lo + (size - 1 - lo % size) = size * (lo / size) + (size - 1) := by
          have := Nat.div_add_mod lo size
          omega
        rw [hsum, Nat.mul_add_mod, Nat.mod_eq_of_lt (by omega)]
    obtain ⟨k, hk, hlt, hmod⟩ := hin
    have := h.cell_lt hk (by omega)
    omega

/-- A change of the cells and of the size, seen from the positions in flight. -/
theorem Holds.resize {cells' : List α} {size' : Nat} (h : Holds cells size seq lo hi)
    (hroom : hi ≤ lo + size')
    (hcell : ∀ k, lo ≤ k → k < hi → cells'[k % size']? = cells[k % size]?) :
    Holds cells' size' seq lo hi :=
  { h with
    room := hroom
    cell := fun k hk hlt => by rw [hcell k hk hlt, h.cell k hk hlt] }

/-- Under a doubling a position stays in its cell iff it is in the lower half. -/
theorem mod_double_iff {k : Nat} (hpos : 0 < size) :
    k % (2 * size) = k % size ↔ k % (2 * size) < size := by
  have hsub : k % (2 * size) % size = k % size := Nat.mod_mul_left_mod k 2 size
  constructor
  · intro h
    rw [h]
    exact Nat.mod_lt k hpos
  · intro h
    rw [← hsub, Nat.mod_eq_of_lt h]

/-- A window that begins at a multiple of the doubled size is in the lower half. -/
theorem mod_double_of_aligned {k : Nat} (hpos : 0 < size) (hal : lo % (2 * size) = 0)
    (hk : lo ≤ k) (hlt : k < lo + size) : k % (2 * size) = k % size := by
  rw [mod_double_iff hpos]
  have hd := Nat.div_add_mod lo (2 * size)
  have hsum : k = 2 * size * (lo / (2 * size)) + (k - lo) := by omega
  rw [hsum, Nat.mul_add_mod, Nat.mod_eq_of_lt (by omega)]
  omega

/-- Masking with a power of two less one is the remainder. -/
theorem and_mask {size k : Nat} (hpow : ∃ n, size = 2 ^ n) : k &&& (size - 1) = k % size := by
  obtain ⟨n, rfl⟩ := hpow
  exact Nat.and_two_pow_sub_one_eq_mod k n

end Ring
