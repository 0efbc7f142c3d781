/-
# `Hammer2.Freemap.Fit` — when an entry can satisfy an allocation

An entry satisfies a radix in one of two ways, those `hammer2_bmap_alloc` tries one after the
other:

    Room        the linear iterator is mid-block and the fragment fits in the rest of the block
    FreeField   an aligned field of the bitmap is all zero

`bmapAlloc_enospc_iff` is the exactness of its error, and `Satisfies.of_alloc` the fact that no
allocation makes an entry able to satisfy what it could not satisfy before.
-/
import Hammer2.Freemap.Entry

namespace Hammer2

open BitField

/-- An aligned field of `m` bits of the bitmap is zero. -/
def FreeField (bm : BmapData) (m : Nat) : Prop :=
  ∃ i < bmapElements, ∃ k < bmapBitsPerElement / m,
    bm.elem i &&& fieldMask m <<< (k * m) = 0#64

/-- The fragment fits behind the linear iterator. -/
def Room (bm : BmapData) (radix : Nat) : Prop :=
  bm.linear % freemapBlockSize + 1 <<< radix ≤ freemapBlockSize ∧
    bm.linear % freemapBlockSize ≠ 0 ∧ bm.linear < segSize

/-- The entry can satisfy the radix. -/
def Satisfies (bm : BmapData) (radix : Nat) : Prop :=
  Room bm radix ∨ FreeField bm (bmradixOf radix)

instance (bm : BmapData) (m : Nat) : Decidable (FreeField bm m) :=
  inferInstanceAs (Decidable (∃ i < bmapElements, ∃ k < bmapBitsPerElement / m, _))
instance (bm : BmapData) (radix : Nat) : Decidable (Room bm radix) :=
  inferInstanceAs (Decidable (_ ∧ _))
instance (bm : BmapData) (radix : Nat) : Decidable (Satisfies bm radix) :=
  inferInstanceAs (Decidable (_ ∨ _))

section
variable {bm bm' : BmapData} {cls subKey radix radix' off g b : Nat}

/-- The element scan fails exactly when no field is free. -/
theorem elementScan_none_iff {m : Nat} : elementScan bm m = none ↔ ¬ FreeField bm m := by
  unfold elementScan FreeField
  simp only [List.findSome?_eq_none_iff, List.mem_range]
  constructor
  · rintro h ⟨i, hi, k, hk, h0⟩
    have hcell := h i hi k hk
    rw [if_pos h0] at hcell
    cases hcell
  · intro h i hi k hk
    exact if_neg fun h0 => h ⟨i, hi, k, hk, h0⟩

/-- A block whose pair is `00` is a free field of two bits. -/
theorem freeField_of_block (hb : b < 256) (hhi : bm.hi b = false) (hlo : bm.lo b = false) :
    FreeField bm 2 := by
  refine ⟨b / 32, by simp only [bmapElements]; omega, b % 32, Nat.mod_lt _ (by decide), ?_⟩
  refine (and_field_eq_zero_iff (by omega)).mpr fun k hk1 hk2 => ?_
  by_cases hk : k = 2 * (b % 32)
  · rw [hk]
    exact hlo
  · rw [show k = 2 * (b % 32) + 1 from by omega]
    exact hhi

/-- A field that is zero was zero in an entry with fewer bits. -/
theorem FreeField.anti {m : Nat} (hm : m = 2 ∨ m = 4 ∨ m = 8)
    (hhi : ∀ b < 256, bm.hi b = true → bm'.hi b = true)
    (hlo : ∀ b < 256, bm.lo b = true → bm'.lo b = true) (h : FreeField bm' m) :
    FreeField bm m := by
  obtain ⟨i, hi, k, hk, h0⟩ := h
  refine ⟨i, hi, k, hk, ?_⟩
  have hkm : k * m + m ≤ 64 ∧ k * m % 2 = 0 ∧ m % 2 = 0 := by
    simp only [bmapBitsPerElement] at hk
    rcases hm with rfl | rfl | rfl <;> omega
  obtain ⟨hlt, hk2, hm2⟩ := hkm
  simp only [bmapElements] at hi
  refine (and_field_eq_zero_iff hlt).mpr fun x hx1 hx2 => ?_
  obtain ⟨hbhi, hblo⟩ := @free_of_field_zero bm' i (k * m) m (32 * i + x / 2) hk2 hm2 hlt h0
    (by omega) (by omega)
  -- the bit is one of the two of its block
  have hdiv : (32 * i + x / 2) / 32 = i := by omega
  have hmod : (32 * i + x / 2) % 32 = x / 2 := by omega
  rcases Nat.mod_two_eq_zero_or_one x with hpar | hpar
  · cases hbit : (bm.elem i).getLsbD x with
    | false => rfl
    | true =>
        have hset := hlo (32 * i + x / 2) (by omega) (by
          unfold BmapData.lo
          rw [hdiv, hmod, show 2 * (x / 2) = x from by omega]
          exact hbit)
        rw [hblo] at hset
        cases hset
  · cases hbit : (bm.elem i).getLsbD x with
    | false => rfl
    | true =>
        have hset := hhi (32 * i + x / 2) (by omega) (by
          unfold BmapData.hi
          rw [hdiv, hmod, show 2 * (x / 2) + 1 = x from by omega]
          exact hbit)
        rw [hbhi] at hset
        cases hset

theorem bmradix_cases (hlo : radixMin ≤ radix) (hhi : radix ≤ radixMax) :
    bmradixOf radix = 2 ∨ bmradixOf radix = 4 ∨ bmradixOf radix = 8 := by
  rcases (radix_cases hlo hhi).2.2 with ⟨-, -, h⟩ | ⟨-, -, h⟩
  · exact .inl h
  · exact h

/-- Room is for fragments only. -/
theorem Room.frag (h : Room bm radix) (hlo : radixMin ≤ radix) (hhi : radix ≤ radixMax) :
    radix < freemapBlockRadix := by
  obtain ⟨h1, h2, -⟩ := h
  simp only [freemapBlockSize, freemapBlockRadix] at *
  rcases (radix_cases hlo hhi).2.2 with ⟨hr, -⟩ | ⟨-, hs, hm⟩
  · exact hr
  · rcases hm with hm | hm | hm <;> omega

/-- The general scan gives up when there is no field. -/
theorem scan_enospc (h : (match elementScan bm (bmradixOf radix) with
    | some (i, j) => allocAt bm cls radix i j
    | none => .enospc) = BmapAlloc.enospc) : ¬ FreeField bm (bmradixOf radix) := by
  rw [← elementScan_none_iff]
  cases hs : elementScan bm (bmradixOf radix) with
  | none => rfl
  | some ij =>
      rw [hs] at h
      cases h

/-- `ENOSPC` of one entry is honest, whatever the key. -/
theorem bmapAlloc_enospc (h : bmapAlloc bm cls subKey radix = .enospc) : ¬ Satisfies bm radix := by
  unfold bmapAlloc at h
  dsimp only at h
  split at h
  · split at h
    · cases h
    · cases h
  · next hroom =>
    have hnone : ¬ Room bm radix := hroom
    rintro (hr | hf)
    · exact hnone hr
    · split at h
      · split at h
        · split at h
          · cases h
          · exact scan_enospc h hf
        · cases h
      · exact scan_enospc h hf

/-- The indexed field is one of those the scan looks at. -/
theorem subKeyStart_field {i j : Nat} (hlo : radixMin ≤ radix) (hhi : radix ≤ radixMax)
    (hkey : cls >>> 8 = brefTypeData → subKey % pbufSize = 0)
    (hstart : subKeyStart cls subKey radix = some (i, j)) :
    j + bmradixOf radix ≤ bmapBitsPerElement ∧
      (bm.elem i &&& fieldMask (bmradixOf radix) <<< j = 0#64 → FreeField bm (bmradixOf radix)) := by
  have hm := bmradix_cases hlo hhi
  unfold subKeyStart at hstart
  split at hstart
  · next hc =>
    obtain ⟨rfl, rfl⟩ := Prod.mk.inj (Option.some.inj hstart)
    have hal := hkey hc.1
    simp only [bmapBitsPerElement, bmapIndexSize, freemapBlockSize, pbufSize] at *
    refine ⟨?_, fun h0 => ⟨subKey % segSize / bmapIndexSize, ?_,
      subKey % bmapIndexSize / freemapBlockSize * 2 / bmradixOf radix, ?_, ?_⟩⟩
    · rcases hm with hm | hm | hm <;> omega
    · simp only [bmapElements, segSize, bmapIndexSize]
      omega
    · simp only [bmapBitsPerElement, bmapIndexSize, freemapBlockSize]
      rcases hm with hm | hm | hm <;> rw [hm] <;> omega
    · rw [Nat.div_mul_cancel]
      · exact h0
      · simp only [bmapIndexSize, freemapBlockSize]
        rcases hm with hm | hm | hm <;> rw [hm] <;> omega
  · cases hstart

/-- **`ENOSPC` of one entry is exact.** -/
theorem bmapAlloc_enospc_iff (hlo : radixMin ≤ radix) (hhi : radix ≤ radixMax)
    (hkey : cls >>> 8 = brefTypeData → subKey % pbufSize = 0) :
    bmapAlloc bm cls subKey radix = .enospc ↔ ¬ Satisfies bm radix := by
  refine ⟨bmapAlloc_enospc, fun h => ?_⟩
  obtain ⟨hroom, hfield⟩ := not_or.mp h
  have hscan := elementScan_none_iff.mpr hfield
  have hcond : ¬ (bm.linear % freemapBlockSize + 1 <<< radix ≤ freemapBlockSize ∧
      bm.linear % freemapBlockSize ≠ 0 ∧ bm.linear < segSize) := hroom
  unfold bmapAlloc
  dsimp only
  rw [if_neg hcond, hscan]
  cases hstart : subKeyStart cls subKey radix with
  | none => rfl
  | some ij =>
      obtain ⟨hjm, hfree⟩ := @subKeyStart_field bm cls subKey radix ij.1 ij.2 hlo hhi hkey hstart
      dsimp only
      rw [if_pos hjm, if_neg fun h0 => hfield (hfree h0)]

/-- What is handed out was there to be had. -/
theorem Satisfies.of_ok (hlo : radixMin ≤ radix) (hhi : radix ≤ radixMax)
    (hkey : cls >>> 8 = brefTypeData → subKey % pbufSize = 0)
    (h : bmapAlloc bm cls subKey radix = .ok bm' off g) : Satisfies bm radix := by
  by_contra hno
  rw [(bmapAlloc_enospc_iff hlo hhi hkey).mpr hno] at h
  cases h

/-- An allocation makes no room, and frees nothing: what an entry satisfies after it, it
satisfied before. -/
theorem Satisfies.of_alloc (hs : AllocSpec bm radix' bm' off) (hlo : radixMin ≤ radix)
    (hhi : radix ≤ radixMax) (h : Satisfies bm' radix) : Satisfies bm radix := by
  have hp : Placed (Range.mk 0 off radix').off (Range.mk 0 off radix').radix := hs.placed
  rcases h with hroom | hfield
  · have hfr := hroom.frag hlo hhi
    obtain ⟨h1, h2, h3⟩ := hroom
    have hm : bmradixOf radix = 2 := by
      unfold bmradixOf
      exact if_pos (Nat.le_of_lt hfr)
    rcases AllocSpec.source_cases (r := ⟨0, off, radix'⟩) hs with
      ⟨hmid, hfr', hoff, hlin, hblk⟩ | ⟨hfree, ⟨hfr', hlin⟩ | ⟨-, hlin⟩⟩
    · -- packed behind the iterator: there was more room before
      left
      have hpos := hp.stop_pos
      rw [hlin] at h1 h2 h3
      unfold Range.stop at *
      dsimp only at *
      refine ⟨?_, hmid, ?_⟩
      · simp only [freemapBlockSize] at *
        omega
      · omega
    · -- the first fragment of a block: the block was free
      right
      rw [hm]
      have hfirst := hfree _ (touches_first hp)
      exact freeField_of_block hp.block_lt hfirst.1 hfirst.2
    · left
      rw [hlin] at h1 h2 h3
      exact ⟨h1, h2, h3⟩
  · right
    refine hfield.anti (bmradix_cases hlo hhi) (fun b hb => ?_) (fun b hb => ?_)
    · exact AllocSpec.hi_mono (r := ⟨0, off, radix'⟩) hs hb
    · exact AllocSpec.lo_mono (r := ⟨0, off, radix'⟩) hs hb

end

end Hammer2
