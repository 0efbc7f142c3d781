/-
# `Hammer2.Lib.BitField` — contiguous fields of a 64-bit word

`fieldMask m` is the word with the low `m` bits set, spelled the way C code
spells it (the all-ones word when `m` is the word width, `(1 << m) - 1`
otherwise).  A field is that mask shifted left by `j`; the lemmas say bit by
bit what or-ing a field in, masking it out and testing it for zero do.
-/
import Mathlib.Data.Nat.Bitwise
import Mathlib.Tactic.SplitIfs

namespace BitField

/-- The word whose low `m` bits are set. -/
def fieldMask (m : Nat) : BitVec 64 :=
  if m = 64 then BitVec.allOnes 64 else (1#64 <<< m) - 1#64

theorem toNat_shl_sub_one {m : Nat} (hm : m < 64) :
    ((1#64 <<< m) - 1#64).toNat = 2 ^ m - 1 := by
  have hlt : 2 ^ m < 2 ^ 64 := Nat.pow_lt_pow_right (by decide) hm
  have hpos : 0 < 2 ^ m := Nat.two_pow_pos m
  have hshl : (1#64 <<< m).toNat = 2 ^ m := by
    rw [BitVec.toNat_shiftLeft, Nat.shiftLeft_eq]
    simpa using Nat.mod_eq_of_lt hlt
  rw [BitVec.toNat_sub_of_le]
  · rw [hshl]; rfl
  · rw [BitVec.le_def, hshl]
    exact hpos

theorem getLsbD_fieldMask {m : Nat} (hm : m ≤ 64) (k : Nat) :
    (fieldMask m).getLsbD k = decide (k < m) := by
  unfold fieldMask
  split
  · rename_i h64
    rw [BitVec.getLsbD_allOnes, h64]
  · rw [BitVec.getLsbD, toNat_shl_sub_one (by omega), Nat.testBit_two_pow_sub_one]

theorem getLsbD_field {m j : Nat} (hm : j + m ≤ 64) (k : Nat) :
    (fieldMask m <<< j).getLsbD k = decide (j ≤ k ∧ k < j + m) := by
  rw [BitVec.getLsbD_shiftLeft, getLsbD_fieldMask (by omega)]
  by_cases hk : j ≤ k
  · have h1 : decide (k < 64) = true ∨ ¬ k < j + m := by
      by_cases h : k < 64
      · exact Or.inl (by simpa using h)
      · exact Or.inr (by omega)
    rcases h1 with h1 | h1
    · simp only [h1, Bool.true_and]
      have : ¬ k < j := by omega
      simp [this, hk]
      omega
    · have : ¬ k - j < m := by omega
      simp [this, h1]
  · have : k < j := by omega
    simp [this, hk]

/-- Or-ing a field in sets exactly its bits. -/
theorem getLsbD_or_field {w : BitVec 64} {m j : Nat} (hm : j + m ≤ 64) (k : Nat) :
    (w ||| fieldMask m <<< j).getLsbD k = (w.getLsbD k || decide (j ≤ k ∧ k < j + m)) := by
  rw [BitVec.getLsbD_or, getLsbD_field hm]

/-- A field tests as zero iff each of its bits is clear. -/
theorem and_field_eq_zero_iff {w : BitVec 64} {m j : Nat} (hm : j + m ≤ 64) :
    w &&& fieldMask m <<< j = 0#64 ↔ ∀ k, j ≤ k → k < j + m → w.getLsbD k = false := by
  constructor
  · intro h k hk1 hk2
    have hbit : (w &&& fieldMask m <<< j).getLsbD k = false := by simp [h]
    rw [BitVec.getLsbD_and, getLsbD_field hm] at hbit
    simpa [hk1, hk2] using hbit
  · intro h
    refine BitVec.eq_of_getLsbD_eq fun k _ => ?_
    rw [BitVec.getLsbD_and, getLsbD_field hm]
    by_cases hk : j ≤ k ∧ k < j + m
    · simp [h k hk.1 hk.2]
    · simp [hk]

/-- A field tests as full iff each of its bits is set. -/
theorem and_field_eq_field_iff {w : BitVec 64} {m j : Nat} (hm : j + m ≤ 64) :
    w &&& fieldMask m <<< j = fieldMask m <<< j ↔ ∀ k, j ≤ k → k < j + m → w.getLsbD k = true := by
  constructor
  · intro h k hk1 hk2
    have hbit := congrArg (BitVec.getLsbD · k) h
    rw [BitVec.getLsbD_and, getLsbD_field hm, decide_eq_true ⟨hk1, hk2⟩, Bool.and_true] at hbit
    exact hbit
  · intro h
    refine BitVec.eq_of_getLsbD_eq fun k _ => ?_
    rw [BitVec.getLsbD_and, getLsbD_field hm]
    by_cases hk : j ≤ k ∧ k < j + m
    · rw [h k hk.1 hk.2, Bool.true_and]
    · rw [decide_eq_false hk, Bool.and_false]

/-- Clearing one bit clears exactly that bit. -/
theorem getLsbD_and_not_bit {n : Nat} {w : BitVec n} {j : Nat} (hj : j < n) (k : Nat) :
    (w &&& ~~~(1#n <<< j)).getLsbD k = (w.getLsbD k && decide (k ≠ j)) := by
  rw [BitVec.getLsbD_and, BitVec.getLsbD_not, BitVec.getLsbD_shiftLeft, BitVec.getLsbD_one]
  by_cases hk : k < n
  · by_cases h : k = j
    · subst h
      simp [hk, Nat.zero_lt_of_lt hk]
    · by_cases hlt : k < j
      · simp [hk, hlt, h]
      · have : k - j ≠ 0 := by omega
        simp [hk, h, this]
  · simp [BitVec.getLsbD_of_ge w k (by omega)]

/-! ## Two-bit pairs -/

/-- The pair at position `k`, as the C code reads it: shift down, mask with 3. -/
def pairAt (w : BitVec 64) (k : Nat) : BitVec 64 := (w >>> (2 * k)) &&& 3#64

theorem pairAt_eq (w : BitVec 64) (k : Nat) :
    pairAt w k =
      if w.getLsbD (2 * k + 1) then (if w.getLsbD (2 * k) then 3#64 else 2#64)
      else (if w.getLsbD (2 * k) then 1#64 else 0#64) := by
  have hbits : ∀ i < 64, (pairAt w k).getLsbD i =
      if i = 0 then w.getLsbD (2 * k) else if i = 1 then w.getLsbD (2 * k + 1) else false := by
    intro i hi
    have h3 : (3#64).getLsbD i = decide (i < 2) := by
      have h := getLsbD_fieldMask (m := 2) (by decide) i
      rwa [show fieldMask 2 = 3#64 from by decide] at h
    unfold pairAt
    rw [BitVec.getLsbD_and, BitVec.getLsbD_ushiftRight, h3]
    by_cases h0 : i = 0
    · subst h0; simp
    · by_cases h1 : i = 1
      · subst h1; simp
      · have : ¬ i < 2 := by omega
        simp [h0, h1, this]
  refine BitVec.eq_of_getLsbD_eq fun i hi => ?_
  rw [hbits i hi]
  have hsmall : ∀ j : Fin 64, j.val ≠ 0 → j.val ≠ 1 →
      (3#64).getLsbD j = false ∧ (2#64).getLsbD j = false ∧ (1#64).getLsbD j = false := by decide
  by_cases h0 : i = 0
  · subst h0
    cases w.getLsbD (2 * k + 1) <;> cases w.getLsbD (2 * k) <;> decide
  · by_cases h1 : i = 1
    · subst h1
      cases w.getLsbD (2 * k + 1) <;> cases w.getLsbD (2 * k) <;> decide
    · obtain ⟨h3, h2, h1'⟩ := hsmall ⟨i, hi⟩ h0 h1
      simp only at h3 h2 h1'
      cases w.getLsbD (2 * k + 1) <;> cases w.getLsbD (2 * k) <;> simp [h0, h1, h3, h2, h1']

theorem three_eq_fieldMask : (3#64) = fieldMask 2 := by decide

theorem two_shl (j : Nat) : 2#64 <<< j = 1#64 <<< (j + 1) := by
  refine BitVec.eq_of_getLsbD_eq fun i hi => ?_
  have h2 : ∀ n, (2#64).getLsbD n = decide (n = 1) := by
    intro n
    by_cases hn : n < 64
    · have : ∀ m : Fin 64, (2#64).getLsbD m = decide (m.val = 1) := by decide
      exact this ⟨n, hn⟩
    · have : n ≠ 1 := by omega
      rw [BitVec.getLsbD_of_ge _ _ (by omega)]
      simp [this]
  rw [BitVec.getLsbD_shiftLeft, BitVec.getLsbD_shiftLeft, h2]
  by_cases hj : i < j
  · have : i < j + 1 := by omega
    simp [hj, this]
  · by_cases h1 : i = j
    · subst h1
      simp
    · have hlt : ¬ i < j + 1 := by omega
      simp only [hi, hj, hlt, decide_true, decide_false, Bool.not_false, Bool.true_and]
      rw [BitVec.getLsbD_one]
      simp only [show (0 : Nat) < 64 from by decide, decide_true, Bool.true_and, decide_eq_decide]
      omega

end BitField
