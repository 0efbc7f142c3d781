/-
# `Hammer2.Lib.KeyRange` — aligned ranges of powers of two

The keys are divided into ranges of 2 ^ k of them, for every k: two keys are in the same range
when they have the same quotient by 2 ^ k.  Two such ranges are nested or disjoint.

    Same           two keys are in the same range of 2 ^ k keys
    nested         a range in the range of its first key, or apart from it
    slots_le       how many smaller ranges there are in one
    same_pred      the two halves of a range
    bit, roundDown the masks of C code, and what they compute
-/
import Mathlib.Data.List.Basic
import Mathlib.Data.Nat.Bitwise
import Mathlib.Data.UInt

namespace KeyRange

/-- Keys with the same quotient by `2 ^ k`. -/
def Same (k a b : Nat) : Prop := a / 2 ^ k = b / 2 ^ k

instance (k a b : Nat) : Decidable (Same k a b) := inferInstanceAs (Decidable (_ = _))

variable {k l a b c : Nat}

@[refl] theorem Same.refl (k a : Nat) : Same k a a := rfl

theorem Same.symm (h : Same k a b) : Same k b a := Eq.symm h

theorem Same.trans (h : Same k a b) (h' : Same k b c) : Same k a c := Eq.trans h h'

theorem Same.mono (h : Same k a b) (hle : k ≤ l) : Same l a b := by
  have hsplit : 2 ^ l = 2 ^ k * 2 ^ (l - k) := by rw [← Nat.pow_add, Nat.add_sub_cancel' hle]
  unfold Same
  rw [hsplit, ← Nat.div_div_eq_div_mul, ← Nat.div_div_eq_div_mul, h]

/-- All keys are in one range. -/
theorem same_top (ha : a < 2 ^ k) (hb : b < 2 ^ k) : Same k a b := by
  unfold Same
  rw [Nat.div_eq_of_lt ha, Nat.div_eq_of_lt hb]

/-- The range of an aligned key. -/
theorem same_iff (ha : 2 ^ k ∣ a) : Same k a b ↔ a ≤ b ∧ b < a + 2 ^ k := by
  have hpos : 0 < 2 ^ k := Nat.two_pow_pos k
  obtain ⟨q, rfl⟩ := ha
  unfold Same
  rw [Nat.mul_div_cancel_left q hpos]
  constructor
  · rintro rfl
    have hmod := Nat.div_add_mod b (2 ^ k)
    have hlt := Nat.mod_lt b hpos
    omega
  · rintro ⟨hle, hlt⟩
    refine (Nat.div_eq_of_lt_le ?_ ?_).symm
    · rwa [Nat.mul_comm]
    · rwa [Nat.mul_comm, Nat.mul_succ]

/-- **A smaller range is in the larger one, or apart from it.** -/
theorem nested (ha : 2 ^ k ∣ a) (hb : 2 ^ l ∣ b) (hle : k ≤ l) :
    (Same l b a ∧ b ≤ a ∧ a + 2 ^ k ≤ b + 2 ^ l) ∨
      (¬ Same l b a ∧ (a + 2 ^ k ≤ b ∨ b + 2 ^ l ≤ a)) := by
  have hkl : 2 ^ k ∣ 2 ^ l := Nat.pow_dvd_pow 2 hle
  have hpos : 0 < 2 ^ k := Nat.two_pow_pos k
  obtain ⟨q, rfl⟩ := ha
  obtain ⟨r, hr⟩ := hkl.trans hb
  obtain ⟨s, hs⟩ := hkl
  -- the bounds are multiples of the smaller range
  have hgap : ∀ x y, 2 ^ k * x < 2 ^ k * y → 2 ^ k * x + 2 ^ k ≤ 2 ^ k * y := by
    intro x y hlt
    have hxy : x < y := Nat.lt_of_mul_lt_mul_left hlt
    rw [← Nat.mul_succ]
    exact Nat.mul_le_mul_left _ hxy
  by_cases hin : Same l b (2 ^ k * q)
  · have hmem := (same_iff hb).mp hin
    refine .inl ⟨hin, hmem.1, ?_⟩
    rw [hr, hs, ← Nat.mul_add] at hmem ⊢
    exact hgap _ _ hmem.2
  · refine .inr ⟨hin, ?_⟩
    rw [same_iff hb, not_and_or, Nat.not_le, Nat.not_lt] at hin
    rcases hin with hlt | hge
    · rw [hr] at hlt ⊢
      exact .inl (hgap _ _ hlt)
    · exact .inr hge

/-- The half of a range a key is in. -/
theorem same_pred (h : Same (k + 1) a b) : Same k a b ↔ a.testBit k = b.testBit k := by
  have hdiv : ∀ x, x / 2 ^ k = 2 * (x / 2 ^ (k + 1)) + (x.testBit k).toNat := by
    intro x
    rw [Nat.testBit_eq_decide_div_mod_eq, Nat.pow_succ, ← Nat.div_div_eq_div_mul]
    rcases Nat.mod_two_eq_zero_or_one (x / 2 ^ k) with hz | hz
    · rw [hz]
      have hmod := Nat.div_add_mod (x / 2 ^ k) 2
      simpa [hz] using hmod.symm
    · rw [hz]
      have hmod := Nat.div_add_mod (x / 2 ^ k) 2
      simpa [hz] using hmod.symm
  unfold Same at h ⊢
  rw [hdiv a, hdiv b, h, Nat.add_left_cancel_iff]
  cases a.testBit k <;> cases b.testBit k <;> decide

/-- A range has `2 ^ r` ranges that are smaller by `r` bits. -/
theorem slots_le {r : Nat} {l : List Nat} (happart : l.Pairwise fun a b => ¬ Same k a b)
    (hin : ∀ b ∈ l, Same (k + r) a b) : l.length ≤ 2 ^ r := by
  have hnodup : (l.map (· / 2 ^ k)).Nodup := List.pairwise_map.mpr happart
  have hsub : l.map (· / 2 ^ k) ⊆ List.range' (2 ^ r * (a / 2 ^ (k + r))) (2 ^ r) := by
    intro q hq
    obtain ⟨b, hb, rfl⟩ := List.mem_map.mp hq
    have hdiv : b / 2 ^ k / 2 ^ r = a / 2 ^ (k + r) := by
      rw [Nat.div_div_eq_div_mul, ← Nat.pow_add]
      exact (hin b hb).symm
    have hmod := Nat.div_add_mod (b / 2 ^ k) (2 ^ r)
    have hlt := Nat.mod_lt (b / 2 ^ k) (Nat.two_pow_pos r)
    rw [hdiv] at hmod
    exact List.mem_range'_1.mpr (by omega)
  have hlen := (List.subperm_of_subset hnodup hsub).length_le
  rwa [List.length_map, List.length_range'] at hlen

/-- Keys of one range have the same higher bits. -/
theorem Same.testBit (h : Same k a b) {i : Nat} (hi : k ≤ i) : a.testBit i = b.testBit i := by
  have hshift : ∀ x : Nat, x.testBit i = (x / 2 ^ k).testBit (i - k) := by
    intro x
    rw [Nat.testBit_div_two_pow, Nat.sub_add_cancel hi]
  rw [hshift a, hshift b, h]

/-- Keys with the same higher bits are in one range. -/
theorem same_of_testBit (h : ∀ i, k ≤ i → a.testBit i = b.testBit i) : Same k a b := by
  refine Nat.eq_of_testBit_eq fun i => ?_
  rw [Nat.testBit_div_two_pow, Nat.testBit_div_two_pow]
  exact h _ (Nat.le_add_left k i)

/-! ## Masks -/

/-- `(uint64_t)1 << k` -/
def bit (k : Nat) : UInt64 := 1 <<< UInt64.ofNat k

/-- `rounddown2`, for a power of two. -/
def roundDown (x y : UInt64) : UInt64 := x &&& ~~~(y - 1)

theorem toNat_bit (hk : k < 64) : (bit k).toNat = 2 ^ k := by
  have hpow : 2 ^ k < 2 ^ 64 := Nat.pow_lt_pow_right (by decide) hk
  have hmod : (UInt64.ofNat k).toNat % 64 = k := by
    rw [UInt64.toNat_ofNat']
    omega
  unfold bit
  rw [UInt64.toNat_shiftLeft, hmod, UInt64.toNat_one, Nat.shiftLeft_eq, Nat.one_mul,
    Nat.mod_eq_of_lt hpow]

theorem testBit_bit (hk : k < 64) (i : Nat) : (bit k).toNat.testBit i = decide (k = i) := by
  rw [toNat_bit hk, Nat.testBit_two_pow]

/-- Testing one bit. -/
theorem and_bit_eq_zero (hk : k < 64) (x : UInt64) :
    bit k &&& x = 0 ↔ x.toNat.testBit k = false := by
  rw [← UInt64.toNat_inj, UInt64.toNat_and, toNat_bit hk, UInt64.toNat_zero, Nat.and_comm,
    Nat.and_two_pow]
  cases x.toNat.testBit k with
  | false => simp
  | true => simp

theorem testBit_roundDown (hk : k < 64) (x : UInt64) (i : Nat) :
    (roundDown x (bit k)).toNat.testBit i = (x.toNat.testBit i && decide (k ≤ i)) := by
  have hpos : 0 < 2 ^ k := Nat.two_pow_pos k
  have hpow : 2 ^ k < 2 ^ 64 := Nat.pow_lt_pow_right (by decide) hk
  have hmask : (bit k - 1).toNat = 2 ^ k - 1 := by
    rw [UInt64.toNat_sub_of_le _ _ (by rw [UInt64.le_iff_toNat_le, toNat_bit hk]; exact hpos),
      toNat_bit hk]
    rfl
  unfold roundDown
  rw [UInt64.toNat_and, Nat.testBit_and, UInt64.toNat_not, hmask]
  rcases Nat.lt_or_ge i 64 with hi | hi
  · have hnot : 2 ^ 64 - 1 - (2 ^ k - 1) = 2 ^ 64 - (2 ^ k - 1 + 1) := by omega
    rw [show UInt64.size = 2 ^ 64 from rfl, hnot, Nat.testBit_two_pow_sub_succ (by omega),
      Nat.testBit_two_pow_sub_one]
    rcases Nat.lt_or_ge i k with hik | hik
    · simp [hi, hik]
    · simp [hi, hik]
  · have hzero : x.toNat.testBit i = false := by
      refine Nat.testBit_lt_two_pow (Nat.lt_of_lt_of_le x.toNat_lt ?_)
      exact Nat.pow_le_pow_right (by decide) hi
    rw [hzero, Bool.false_and, Bool.false_and]

theorem toNat_roundDown (hk : k < 64) (x : UInt64) :
    (roundDown x (bit k)).toNat = 2 ^ k * (x.toNat / 2 ^ k) := by
  refine Nat.eq_of_testBit_eq fun i => ?_
  rw [testBit_roundDown hk, Nat.testBit_two_pow_mul, Nat.testBit_div_two_pow]
  rcases Nat.lt_or_ge i k with hik | hik
  · simp [Nat.not_le.mpr hik]
  · rw [Nat.sub_add_cancel hik, Bool.and_comm]

/-- The aligned key of a range. -/
theorem roundDown_spec (hk : k < 64) (x : UInt64) :
    2 ^ k ∣ (roundDown x (bit k)).toNat ∧ Same k (roundDown x (bit k)).toNat x.toNat := by
  rw [toNat_roundDown hk]
  refine ⟨Nat.dvd_mul_right _ _, ?_⟩
  unfold Same
  rw [Nat.mul_div_cancel_left _ (Nat.two_pow_pos k)]

/-- `rounddown2(x ^ y, 1 << k)` tells the ranges of two keys apart. -/
theorem roundDown_xor (hk : k < 64) (x y : UInt64) :
    roundDown (x ^^^ y) (bit k) = 0 ↔ Same k x.toNat y.toNat := by
  rw [← UInt64.toNat_inj, toNat_roundDown hk, UInt64.toNat_zero, UInt64.toNat_xor,
    Nat.mul_eq_zero, ← Nat.shiftRight_eq_div_pow, Nat.shiftRight_xor_distrib,
    Nat.shiftRight_eq_div_pow, Nat.shiftRight_eq_div_pow, Nat.xor_eq_zero_iff]
  have hpos : 2 ^ k ≠ 0 := Nat.ne_of_gt (Nat.two_pow_pos k)
  exact ⟨fun h => h.resolve_left hpos, .inr⟩

/-- The key of the upper half. -/
theorem testBit_or_bit (hk : k < 64) (x : UInt64) (i : Nat) :
    (x ||| bit k).toNat.testBit i = (x.toNat.testBit i || decide (k = i)) := by
  rw [UInt64.toNat_or, Nat.testBit_or, testBit_bit hk]

/-- The key of the lower half. -/
theorem testBit_and_shift (hk : k < 64) (x : UInt64) {i : Nat} (hi : k ≤ i) :
    (x &&& (~~~1 <<< UInt64.ofNat k)).toNat.testBit i = (x.toNat.testBit i && decide (i ≠ k)) := by
  have hpow : 2 ^ (k + 1) ≤ 2 ^ 64 := Nat.pow_le_pow_right (by decide) hk
  have hpos : 0 < 2 ^ k := Nat.two_pow_pos k
  have hmask : (~~~1 <<< UInt64.ofNat k : UInt64).toNat = 2 ^ 64 - (2 ^ (k + 1) - 1 + 1) := by
    have hmod : (UInt64.ofNat k).toNat % 64 = k := by
      rw [UInt64.toNat_ofNat']
      omega
    have hsplit : (2 ^ 64 - 2) * 2 ^ k = 2 ^ 64 * (2 ^ k - 1) + (2 ^ 64 - 2 ^ (k + 1)) := by
      rw [Nat.pow_succ] at hpow ⊢
      rw [Nat.mul_sub, Nat.sub_mul]
      omega
    rw [UInt64.toNat_shiftLeft, hmod, Nat.shiftLeft_eq]
    show (2 ^ 64 - 2) * 2 ^ k % 2 ^ 64 = _
    rw [hsplit, Nat.mul_add_mod, Nat.mod_eq_of_lt (by omega)]
    omega
  rw [UInt64.toNat_and, Nat.testBit_and, hmask]
  rcases Nat.lt_or_ge i 64 with hlt | hge
  · rw [Nat.testBit_two_pow_sub_succ (by omega), Nat.testBit_two_pow_sub_one]
    rcases Nat.lt_or_eq_of_le hi with hki | rfl
    · have hne : i ≠ k := Nat.ne_of_gt hki
      simp [hlt, hne, Nat.not_lt.mpr hki]
    · simp
  · have hzero : x.toNat.testBit i = false := by
      refine Nat.testBit_lt_two_pow (Nat.lt_of_lt_of_le x.toNat_lt ?_)
      exact Nat.pow_le_pow_right (by decide) hge
    rw [hzero, Bool.false_and, Bool.false_and]

end KeyRange
