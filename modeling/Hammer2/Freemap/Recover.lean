/-
# `Hammer2.Freemap.Recover` — which blocks recovery marks

`hammer2_freemap_adjust` walks pairs of one 64-bit element, from the bit that `start` is.  An
element has 32 of them, but `start` is the number of the block modulo 16:

    Touched   the blocks that the blockref has bytes of
    Walked    the blocks that are marked
    adjust_exact_iff   what is marked is what is touched where the two agree, or where the
                       freemap has `11` already
-/
import Hammer2.Freemap.Account

namespace Hammer2.Account

open BitField

/-- The pair of block `b`, counted from the start of the media. -/
def pairOf (freemap : Nat → BmapData) (b : Nat) : Bool × Bool :=
  ((freemap (b / 256)).hi (b % 256), (freemap (b / 256)).lo (b % 256))

def Touched (bref : SnapRef) (b : Nat) : Prop :=
  bref.dataOff / 64 * 64 / freemapBlockSize ≤ b ∧
    b * freemapBlockSize < bref.dataOff / 64 * 64 + 1 <<< (bref.dataOff % 64)

instance (bref : SnapRef) (b : Nat) : Decidable (Touched bref b) :=
  inferInstanceAs (Decidable (_ ∧ _))

/-- How many pairs are walked. -/
def walkCount (radix : Nat) : Nat :=
  if radix < freemapBlockRadix then 1 else 1 <<< (radix - freemapBlockRadix)

/-- The first block that is walked. -/
def walkStart (bref : SnapRef) : Nat :=
  bref.dataOff / 64 * 64 / bmapIndexSize * 32 + bref.dataOff / 64 * 64 / freemapBlockSize % 16

def Walked (bref : SnapRef) (b : Nat) : Prop :=
  walkStart bref ≤ b ∧ b < walkStart bref + walkCount (bref.dataOff % 64)

instance (bref : SnapRef) (b : Nat) : Decidable (Walked bref b) :=
  inferInstanceAs (Decidable (_ ∧ _))

/-! ## The loop -/

section
variable {cls i : Nat} {s : Recover} {b : Nat}

theorem recoverPair_bits {bit : Nat} (hi : i < 8) (hb : b < 256) (hbit : bit % 2 = 0)
    (hlt : bit + 2 ≤ 64) :
    (recoverPair cls i s bit).bm.hi b = (s.bm.hi b || decide (b = 32 * i + bit / 2)) ∧
      (recoverPair cls i s bit).bm.lo b = (s.bm.lo b || decide (b = 32 * i + bit / 2)) := by
  have hone : ∀ b, decide (32 * i + bit / 2 ≤ b ∧ b < 32 * i + bit / 2 + 2 / 2) =
      decide (b = 32 * i + bit / 2) := by
    intro b
    rw [decide_eq_decide]
    omega
  -- the element with the pair set, whatever it was
  have hset : ∀ bm : BmapData,
      (bm.orElem i (3#64 <<< bit)).hi b = (bm.hi b || decide (b = 32 * i + bit / 2)) ∧
        (bm.orElem i (3#64 <<< bit)).lo b = (bm.lo b || decide (b = 32 * i + bit / 2)) := by
    intro bm
    rw [three_eq_fieldMask, hi_orElem_field hi hb hbit rfl hlt,
      lo_orElem_field hi hb hbit rfl hlt, hone]
    exact ⟨rfl, rfl⟩
  unfold recoverPair
  dsimp only
  split
  · next hall =>
    -- a pair that is `11` stays
    have hsame : s.bm.orElem i (3#64 <<< bit) = s.bm := by
      have he : s.bm.elem i ||| 3#64 <<< bit = s.bm.elem i := by
        rw [← hall]
        ext k
        simp only [BitVec.getElem_or, BitVec.getElem_and]
        cases (s.bm.elem i)[k] <;> simp
      unfold BmapData.orElem
      rw [he]
      unfold BmapData.elem
      rw [Function.update_eq_self]
    have h := hset s.bm
    rwa [hsame] at h
  · cases s.modified with
    | true => exact hset s.bm
    | false => exact hset { s.bm with linear := 0 }

theorem recoverLoop_bits (hi : i < 8) (hb : b < 256) : ∀ (count : Nat) {s : Recover} {start : Nat},
    start % 2 = 0 → start + 2 * count ≤ 64 →
    (recoverLoop cls i s start count).bm.hi b =
        (s.bm.hi b || decide (32 * i + start / 2 ≤ b ∧ b < 32 * i + start / 2 + count)) ∧
      (recoverLoop cls i s start count).bm.lo b =
        (s.bm.lo b || decide (32 * i + start / 2 ≤ b ∧ b < 32 * i + start / 2 + count))
  | 0, s, start, _, _ => by
      simp [recoverLoop]
  | count + 1, s, start, hstart, hlt => by
      obtain ⟨hhi, hlo⟩ := @recoverPair_bits cls i s b start hi hb hstart (by omega)
      obtain ⟨hhi', hlo'⟩ := @recoverLoop_bits hi hb count (recoverPair cls i s start) (start + 2)
        (by omega) (by omega)
      have hsplit : (decide (b = 32 * i + start / 2) ||
          decide (32 * i + (start + 2) / 2 ≤ b ∧ b < 32 * i + (start + 2) / 2 + count)) =
          decide (32 * i + start / 2 ≤ b ∧ b < 32 * i + start / 2 + (count + 1)) := by
        rw [← Bool.decide_or, decide_eq_decide]
        omega
      unfold recoverLoop
      rw [hhi', hlo', hhi, hlo, Bool.or_assoc, Bool.or_assoc, hsplit]
      exact ⟨rfl, rfl⟩

end

/-! ## What is marked -/

section
variable {dev : Dev} {s : State} {bref : SnapRef}

theorem adjust_bits (hr : bref.dataOff % 64 ≠ 0) (hhi : bref.dataOff % 64 ≤ radixMax)
    (hbeg : dev.allocatorBeg ≤ bref.dataOff / 64 * 64)
    (hseg : zoneSeg ≤ bref.dataOff / 64 * 64 % zoneBytes)
    (hleaf : s.created (leafOf (bref.dataOff / 64 * 64 / segSize)) = true) :
    ∃ t, freemapAdjust dev s true bref = some t ∧ ∀ b,
      pairOf t.freemap b =
        ((pairOf s.freemap b).1 || decide (Walked bref b),
          (pairOf s.freemap b).2 || decide (Walked bref b)) := by
  unfold freemapAdjust
  dsimp only
  rw [if_neg (not_or.mpr ⟨hr, Nat.not_lt.mpr hhi⟩), if_neg (Nat.not_lt.mpr hbeg),
    if_neg (Nat.not_lt.mpr hseg), if_neg (by rw [hleaf]; nofun), if_neg nofun]
  refine ⟨_, rfl, fun b => ?_⟩
  obtain ⟨hstart, hlt⟩ := @recover_range (bref.dataOff / 64 * 64) _ hhi
  have hcount : walkCount (bref.dataOff % 64) ≤ 4 := by
    unfold walkCount
    simp only [freemapBlockRadix, radixMax] at *
    split
    · omega
    · obtain h | h | h : bref.dataOff % 64 = 14 ∨ bref.dataOff % 64 = 15 ∨
        bref.dataOff % 64 = 16 := by omega
      all_goals
        rw [h]
        decide
  obtain ⟨hhi', hlo'⟩ := @recoverLoop_bits (bref.type <<< 8 ||| pbufRadix)
    (bref.dataOff / 64 * 64 / bmapIndexSize % 8) (b % 256) (by omega) (by omega) _
    ⟨s.freemap (bref.dataOff / 64 * 64 / segSize), false, 0⟩ _ hstart hlt
  have hwalk : b / 256 = bref.dataOff / 64 * 64 / segSize →
      (Walked bref b ↔ 32 * (bref.dataOff / 64 * 64 / bmapIndexSize % 8) +
          bref.dataOff / 64 * 64 / freemapBlockSize % 16 * 2 / 2 ≤ b % 256 ∧
        b % 256 < 32 * (bref.dataOff / 64 * 64 / bmapIndexSize % 8) +
          bref.dataOff / 64 * 64 / freemapBlockSize % 16 * 2 / 2 + walkCount (bref.dataOff % 64)) := by
    intro he
    unfold Walked walkStart
    simp only [segSize, bmapIndexSize, freemapBlockSize] at *
    omega
  unfold pairOf
  dsimp only
  by_cases he : b / 256 = bref.dataOff / 64 * 64 / segSize
  · rw [he, Function.update_self]
    unfold walkCount at hwalk
    rw [hhi', hlo', decide_eq_decide.mpr (hwalk he)]
  · -- the walk does not leave the entry
    have hno : ¬ Walked bref b := by
      unfold Walked walkStart
      simp only [segSize, bmapIndexSize, freemapBlockSize] at *
      omega
    rw [Function.update_of_ne he, decide_eq_false hno, Bool.or_false, Bool.or_false]

/-- The claim of `hammer2_freemap_adjust`: the leaf of the blockref has `11` for the blocks that
are touched, and is as before elsewhere. -/
def Exact (dev : Dev) (s : State) (bref : SnapRef) : Prop :=
  ∃ t, freemapAdjust dev s true bref = some t ∧
    ∀ b, leafOf (b / 256) = leafOf (bref.dataOff / 64 * 64 / segSize) →
      pairOf t.freemap b = if Touched bref b then (true, true) else pairOf s.freemap b

/-- Recovery is exact if and only if the blocks walked are those touched, but for such as are
`11` already. -/
theorem adjust_exact_iff (hlo : radixMin ≤ bref.dataOff % 64) (hhi : bref.dataOff % 64 ≤ radixMax)
    (hbeg : dev.allocatorBeg ≤ bref.dataOff / 64 * 64)
    (hseg : zoneSeg ≤ bref.dataOff / 64 * 64 % zoneBytes)
    (hleaf : s.created (leafOf (bref.dataOff / 64 * 64 / segSize)) = true) :
    Exact dev s bref ↔ ∀ b, leafOf (b / 256) = leafOf (bref.dataOff / 64 * 64 / segSize) →
      (Walked bref b ↔ Touched bref b) ∨ pairOf s.freemap b = (true, true) := by
  have hr : bref.dataOff % 64 ≠ 0 := by
    simp only [radixMin] at hlo
    omega
  obtain ⟨t, ht, hbits⟩ := adjust_bits hr hhi hbeg hseg hleaf
  constructor
  · rintro ⟨t', ht', hexact⟩ b hb
    obtain rfl : t = t' := Option.some.inj (ht.symm.trans ht')
    have he := hexact b hb
    rw [hbits b] at he
    by_cases hw : Walked bref b
    · by_cases htb : Touched bref b
      · exact .inl ⟨fun _ => htb, fun _ => hw⟩
      · rw [if_neg htb, decide_eq_true hw, Bool.or_true, Bool.or_true] at he
        exact .inr he.symm
    · by_cases htb : Touched bref b
      · rw [if_pos htb, decide_eq_false hw, Bool.or_false, Bool.or_false] at he
        exact .inr he
      · exact .inl ⟨fun h => absurd h hw, fun h => absurd h htb⟩
  · intro h
    refine ⟨t, ht, fun b hb => ?_⟩
    rw [hbits b]
    rcases h b hb with hiff | hall
    · by_cases hw : Walked bref b
      · rw [if_pos (hiff.mp hw), decide_eq_true hw, Bool.or_true, Bool.or_true]
      · rw [if_neg fun h => hw (hiff.mpr h), decide_eq_false hw, Bool.or_false, Bool.or_false]
    · rw [hall, ite_self]
      rfl

/-- A range that was allocated is walked as it is touched in the lower half of its element. -/
theorem walked_iff_touched (hlo : radixMin ≤ bref.dataOff % 64)
    (hp : bref.dataOff % 64 < freemapBlockRadix →
      bref.dataOff / 64 * 64 % freemapBlockSize + 1 <<< (bref.dataOff % 64) ≤ freemapBlockSize)
    (hw : freemapBlockRadix ≤ bref.dataOff % 64 → bref.dataOff / 64 * 64 % freemapBlockSize = 0)
    (hhalf : bref.dataOff / 64 * 64 / freemapBlockSize % 32 < 16) (b : Nat) :
    Walked bref b ↔ Touched bref b := by
  have hpos : 0 < 1 <<< (bref.dataOff % 64) := by
    rw [Nat.one_shiftLeft]
    exact Nat.two_pow_pos _
  have hcount : (freemapBlockRadix ≤ bref.dataOff % 64 → 1 <<< (bref.dataOff % 64) =
      freemapBlockSize * walkCount (bref.dataOff % 64)) ∧
      (bref.dataOff % 64 < freemapBlockRadix → walkCount (bref.dataOff % 64) = 1) := by
    unfold walkCount
    constructor
    · intro hge
      rw [if_neg (Nat.not_lt.mpr hge), Nat.one_shiftLeft, Nat.one_shiftLeft]
      show _ = 2 ^ 14 * _
      rw [← Nat.pow_add, Nat.add_sub_cancel' hge]
    · intro hlt
      rw [if_pos hlt]
  unfold Walked Touched walkStart
  generalize bref.dataOff / 64 * 64 = dataOff at *
  generalize bref.dataOff % 64 = radix at *
  generalize 1 <<< radix = size at *
  generalize walkCount radix = count at *
  simp only [freemapBlockSize, bmapIndexSize, freemapBlockRadix] at *
  by_cases hr : radix < 14
  · have h1 := hp hr
    have h2 := hcount.2 hr
    omega
  · have h1 := hw (Nat.not_lt.mp hr)
    have h2 := hcount.1 (Nat.not_lt.mp hr)
    omega

end

/-- A device of 1GB whose only leaf is free but for the first 12MB. -/
def oneLeaf : State where
  created := fun leaf => leaf = 0
  freemap := fun e => if e < 3 then reservedBmap else freeBmap
  allocatorFree := 0

/-- A 64KB block at 16MB. -/
theorem adjust_exact_lower : Exact ⟨8388608, 1073741824⟩ oneLeaf ⟨brefTypeData, 16777232⟩ := by
  refine (adjust_exact_iff (by decide) (by decide) (by decide) (by decide) (by decide)).mpr ?_
  intro b _
  exact .inl (walked_iff_touched (by decide) (by decide) (by decide) (by decide) b)

/-- A 16KB block at 16MB + 256KB: the block at 16MB is marked, and not this one. -/
theorem adjust_marks_other : ¬ Exact ⟨8388608, 1073741824⟩ oneLeaf ⟨brefTypeData, 17039374⟩ := by
  rw [adjust_exact_iff (by decide) (by decide) (by decide) (by decide) (by decide)]
  intro h
  rcases h 1040 (by decide) with hiff | hall
  · exact absurd (hiff.mpr (by decide)) (by decide)
  · exact absurd hall (by decide)

end Hammer2.Account
