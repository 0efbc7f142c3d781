/-
# `Hammer2.Freemap.FreeCount` — the unallocated pairs of an entry

`freeCount` is the number of `00` pairs of a bitmap entry, and an entry `Counts` when its
`avail` is 16KB for each of them.  The allocator and the merge of bulkfree keep this, and
the lemmas say by how much `avail` moves:

    bmapAlloc_counts      down by the bytes taken from `allocator_free`
    syncAdjust_counts     by what `adj_free` moves
-/
import Hammer2.Freemap.Bulkfree
import Mathlib.Algebra.BigOperators.Group.Finset.Basic
import Mathlib.Algebra.Order.BigOperators.Group.Finset
import Mathlib.Order.Interval.Finset.Nat

namespace Hammer2

open BitField
open Finset (range)

/-! ## Words -/

/-- The pair `k` of the word is `00`. -/
def pairFree (w : BitVec 64) (k : Nat) : Bool := !w.getLsbD (2 * k) && !w.getLsbD (2 * k + 1)

/-- The pairs of the word that are `00`. -/
def freePairs (w : BitVec 64) : Finset Nat :=
  (range bmapBlocksPerElement).filter fun k => pairFree w k = true

theorem mem_freePairs {w : BitVec 64} {k : Nat} :
    k ∈ freePairs w ↔ k < bmapBlocksPerElement ∧ pairFree w k = true := by
  rw [freePairs, Finset.mem_filter, Finset.mem_range]

theorem card_freePairs_le (w : BitVec 64) : (freePairs w).card ≤ bmapBlocksPerElement := by
  refine (Finset.card_filter_le _ _).trans ?_
  rw [Finset.card_range]

theorem card_freePairs_zero : (freePairs 0#64).card = bmapBlocksPerElement := by
  rw [freePairs, Finset.filter_true_of_mem, Finset.card_range]
  intro k _
  simp [pairFree]

/-- Words that agree outside one pair. -/
theorem card_freePairs_congr {w w' : BitVec 64} {k : Nat} (hk : k < bmapBlocksPerElement)
    (h : ∀ l, l ≠ k → pairFree w' l = pairFree w l) :
    (freePairs w').card + (pairFree w k).toNat = (freePairs w).card + (pairFree w' k).toNat := by
  have herase : (freePairs w').erase k = (freePairs w).erase k := by
    ext l
    simp only [Finset.mem_erase, mem_freePairs]
    constructor
    · rintro ⟨hl, hlt, hf⟩
      exact ⟨hl, hlt, by rw [← h l hl]; exact hf⟩
    · rintro ⟨hl, hlt, hf⟩
      exact ⟨hl, hlt, by rw [h l hl]; exact hf⟩
  have hcard : ∀ v : BitVec 64, (freePairs v).card = ((freePairs v).erase k).card + (pairFree v k).toNat := by
    intro v
    cases hv : pairFree v k with
    | false =>
        rw [Finset.erase_eq_of_notMem]
        · rfl
        · intro hmem
          have hfree := (mem_freePairs.mp hmem).2
          rw [hv] at hfree
          cases hfree
    | true => exact (Finset.card_erase_add_one (mem_freePairs.mpr ⟨hk, hv⟩)).symm
  rw [hcard w, hcard w', herase]
  omega

/-- A field of pairs or-ed in: the pairs it covers are no longer free. -/
theorem freePairs_or_field {w : BitVec 64} {m j : Nat} (hj : j % 2 = 0) (hm : m % 2 = 0)
    (hjm : j + m ≤ 64) :
    freePairs (w ||| fieldMask m <<< j) = freePairs w \ Finset.Ico (j / 2) (j / 2 + m / 2) := by
  ext k
  simp only [mem_freePairs, Finset.mem_sdiff, Finset.mem_Ico, pairFree, getLsbD_or_field hjm,
    Bool.and_eq_true, Bool.not_eq_true', Bool.or_eq_false_iff, decide_eq_false_iff_not]
  constructor
  · rintro ⟨hk, ⟨hlo, hout⟩, hhi, -⟩
    exact ⟨⟨hk, hlo, hhi⟩, by omega⟩
  · rintro ⟨⟨hk, hlo, hhi⟩, hout⟩
    exact ⟨hk, ⟨hlo, by omega⟩, hhi, by omega⟩

/-- A field that tests as zero is taken whole. -/
theorem card_freePairs_take {w : BitVec 64} {m j : Nat} (hj : j % 2 = 0) (hm : m % 2 = 0)
    (hjm : j + m ≤ 64) (h0 : w &&& fieldMask m <<< j = 0#64) :
    (freePairs (w ||| fieldMask m <<< j)).card + m / 2 = (freePairs w).card := by
  have hbit := (and_field_eq_zero_iff hjm).mp h0
  have hsub : Finset.Ico (j / 2) (j / 2 + m / 2) ⊆ freePairs w := by
    intro k hk
    obtain ⟨h1, h2⟩ := Finset.mem_Ico.mp hk
    refine mem_freePairs.mpr ⟨by simp only [bmapBlocksPerElement]; omega, ?_⟩
    simp only [pairFree, hbit (2 * k) (by omega) (by omega), hbit (2 * k + 1) (by omega) (by omega)]
    rfl
  rw [freePairs_or_field hj hm hjm, Finset.card_sdiff_of_subset hsub, Nat.card_Ico]
  have hle := Finset.card_le_card hsub
  rw [Nat.card_Ico] at hle
  omega

/-- A pair that does not test as zero was not free. -/
theorem card_freePairs_keep {w : BitVec 64} {j : Nat} (hj : j % 2 = 0) (hjm : j + 2 ≤ 64)
    (h0 : w &&& fieldMask 2 <<< j ≠ 0#64) :
    (freePairs (w ||| fieldMask 2 <<< j)).card = (freePairs w).card := by
  rw [freePairs_or_field hj rfl hjm, Finset.sdiff_eq_self_of_disjoint]
  rw [Finset.disjoint_left]
  intro k hk hin
  obtain ⟨h1, h2⟩ := Finset.mem_Ico.mp hin
  have hfree := (mem_freePairs.mp hk).2
  simp only [pairFree, Bool.and_eq_true, Bool.not_eq_true'] at hfree
  refine h0 ((and_field_eq_zero_iff hjm).mpr fun b hb1 hb2 => ?_)
  by_cases hb : b = 2 * k
  · rw [hb]; exact hfree.1
  · rw [show b = 2 * k + 1 from by omega]; exact hfree.2

/-! ## Entries -/

namespace BmapData

/-- The number of `00` pairs of the entry. -/
def freeCount (bm : BmapData) : Nat := ∑ i ∈ range bmapElements, (freePairs (bm.elem i)).card

/-- `avail` is 16KB for each `00` pair. -/
def Counts (bm : BmapData) : Prop := bm.avail.toNat = freemapBlockSize * bm.freeCount

instance (bm : BmapData) : Decidable bm.Counts := inferInstanceAs (Decidable (_ = _))

end BmapData

theorem freeCount_le (bm : BmapData) : bm.freeCount ≤ 256 :=
  Finset.sum_le_card_nsmul _ _ bmapBlocksPerElement fun i _ => card_freePairs_le (bm.elem i)

/-- Entries that agree outside one element. -/
theorem freeCount_congr {bm bm' : BmapData} {i : Nat} (hi : i < bmapElements)
    (h : ∀ k < bmapElements, k ≠ i → bm'.elem k = bm.elem k) :
    bm'.freeCount + (freePairs (bm.elem i)).card = bm.freeCount + (freePairs (bm'.elem i)).card := by
  have hmem : i ∈ range bmapElements := Finset.mem_range.mpr hi
  have hrest : ∑ k ∈ (range bmapElements).erase i, (freePairs (bm'.elem k)).card =
      ∑ k ∈ (range bmapElements).erase i, (freePairs (bm.elem k)).card := by
    refine Finset.sum_congr rfl fun k hk => ?_
    rw [Finset.mem_erase, Finset.mem_range] at hk
    rw [h k hk.2 hk.1]
  unfold BmapData.freeCount
  rw [← Finset.sum_erase_add _ _ hmem, ← Finset.sum_erase_add _ _ hmem, hrest]
  omega

theorem freeCount_pos (bm : BmapData) {i : Nat} (hi : i < bmapElements) :
    (freePairs (bm.elem i)).card ≤ bm.freeCount :=
  Finset.single_le_sum (f := fun k => (freePairs (bm.elem k)).card) (fun _ _ => Nat.zero_le _)
    (Finset.mem_range.mpr hi)

theorem reservedBmap_counts : reservedBmap.Counts := by decide
theorem freeBmap_counts : freeBmap.Counts := by decide

theorem freemapInit_counts (dev : Dev) (key n : Nat) : (freemapInit dev key n).Counts := by
  simp only [freemapInit]
  split_ifs
  · exact reservedBmap_counts
  · exact freeBmap_counts
  · exact reservedBmap_counts
  · exact freeBmap_counts

/-! ## The allocator -/

/-- `avail` after `g` of its bytes are taken. -/
theorem avail_sub {avail : BitVec 32} {g : Nat} (hg : g ≤ avail.toNat) :
    (avail - BitVec.ofNat 32 g).toNat + g = avail.toNat := by
  have hlt := avail.isLt
  have hof : (BitVec.ofNat 32 g).toNat = g := by
    rw [BitVec.toNat_ofNat, Nat.mod_eq_of_lt (by omega)]
  rw [BitVec.toNat_sub_of_le (by rw [BitVec.le_def, hof]; exact hg), hof]
  omega

theorem commitAlloc_counts {bm bm' : BmapData} {cls radix i j off o g : Nat}
    (h : commitAlloc bm cls radix i j off = .ok bm' o g)
    (hlo : radixMin ≤ radix) (hhi : radix ≤ radixMax) (hi : i < 8) (hj : j % 2 = 0)
    (hjm : j + bmradixOf radix ≤ 64)
    (h0 : freemapBlockRadix ≤ radix → bm.elem i &&& fieldMask (bmradixOf radix) <<< j = 0#64)
    (hc : bm.Counts) :
    bm'.Counts ∧ bm'.avail.toNat + g = bm.avail.toNat := by
  obtain ⟨_, _, h3⟩ := radix_cases hlo hhi
  have hm : bmradixOf radix % 2 = 0 := by
    rcases h3 with ⟨-, -, h⟩ | ⟨-, -, h | h | h⟩ <;> rw [h]
  have helem : ∀ k < 8, bm'.elem k =
      if k = i then bm.elem i ||| fieldMask (bmradixOf radix) <<< j else bm.elem k := by
    intro k hk
    simp only [commitAlloc, BmapAlloc.ok.injEq] at h
    rw [← h.1]
    exact BmapData.elem_orElem hi hk
  have hrest := @freeCount_congr bm bm' i hi fun k hk hne => by rw [helem k hk, if_neg hne]
  have hle := freeCount_pos bm hi
  rw [helem i hi, if_pos rfl] at hrest
  -- What the field costs, in free pairs and in bytes.
  have hcost : (freePairs (bm.elem i ||| fieldMask (bmradixOf radix) <<< j)).card * freemapBlockSize + g =
      (freePairs (bm.elem i)).card * freemapBlockSize := by
    simp only [commitAlloc, BmapAlloc.ok.injEq] at h
    rw [← h.2.2]
    simp only [freemapBlockRadix, freemapBlockSize] at *
    rcases h3 with ⟨hr, -, hmr⟩ | ⟨hr, hsize, -⟩
    · rw [if_pos (by omega)]
      rw [hmr] at hjm ⊢
      split
      · rename_i hz
        have htake := card_freePairs_take hj rfl hjm hz
        omega
      · rename_i hz
        have hkeep := card_freePairs_keep hj hjm hz
        omega
    · have htake := card_freePairs_take hj hm hjm (h0 hr)
      rw [if_neg (by omega), hsize]
      omega
  have havail : bm'.avail = bm.avail - BitVec.ofNat 32 g := by
    simp only [commitAlloc, BmapAlloc.ok.injEq] at h
    rw [← h.1, ← h.2.2]
  unfold BmapData.Counts at hc ⊢
  simp only [freemapBlockSize] at *
  have hsub := @avail_sub bm.avail g (by omega)
  rw [← havail] at hsub
  exact ⟨by omega, hsub⟩

theorem allocAt_counts {bm bm' : BmapData} {cls radix i j o g : Nat} (hc : bm.Counts)
    (hlo : radixMin ≤ radix) (hhi : radix ≤ radixMax) (hi : i < 8) (hj : j % 2 = 0)
    (hjm : j + bmradixOf radix ≤ 64)
    (h0 : bm.elem i &&& fieldMask (bmradixOf radix) <<< j = 0#64)
    (h : allocAt bm cls radix i j = .ok bm' o g) :
    bm'.Counts ∧ bm'.avail.toNat + g = bm.avail.toNat := by
  unfold allocAt at h
  have hcounts := commitAlloc_counts h hlo hhi hi hj hjm (fun _ => h0)
  exact hcounts hc

/-- The general scan. -/
theorem scan_counts {bm bm' : BmapData} {cls radix off g : Nat} (hc : bm.Counts)
    (hlo : radixMin ≤ radix) (hhi : radix ≤ radixMax)
    (h : (match elementScan bm (bmradixOf radix) with
      | some (i, j) => allocAt bm cls radix i j
      | none => .enospc) = .ok bm' off g) :
    bm'.Counts ∧ bm'.avail.toNat + g = bm.avail.toNat := by
  split at h
  · rename_i i j hs
    obtain ⟨hi, hj, hjm, h0⟩ := elementScan_spec hlo hhi hs
    exact allocAt_counts hc hlo hhi hi hj hjm h0 h
  · cases h

/-- **The allocator keeps the count**, and takes from `avail` what it takes from
`allocator_free`. -/
theorem bmapAlloc_counts {bm bm' : BmapData} {cls subKey radix off g : Nat} (hc : bm.Counts)
    (hlo : radixMin ≤ radix) (hhi : radix ≤ radixMax)
    (h : bmapAlloc bm cls subKey radix = .ok bm' off g) :
    bm'.Counts ∧ bm'.avail.toNat + g = bm.avail.toNat := by
  obtain ⟨h1, -, h3⟩ := radix_cases hlo hhi
  unfold bmapAlloc at h
  dsimp only at h
  split at h
  · rename_i hlin
    obtain ⟨hfit, hmid, hlt⟩ := hlin
    split at h
    · -- A fragment behind the iterator: the radix is below that of a block.
      have hr : radix < 14 := by
        simp only [freemapBlockSize] at hfit hmid
        rcases h3 with ⟨hr, -⟩ | ⟨-, hsize, hm⟩
        · exact hr
        · rcases hm with hm | hm | hm <;> omega
      have hm : bmradixOf radix = 2 := by
        rcases h3 with ⟨-, -, hm⟩ | ⟨hr', -⟩
        · exact hm
        · omega
      rw [and_62] at h
      have hi : bm.linear / bmapIndexSize < 8 := by
        simp only [bmapIndexSize, segSize] at *
        omega
      have hcounts := commitAlloc_counts h hlo hhi hi (by omega) (by rw [hm]; omega)
        (fun hr' => absurd hr' (by simp only [freemapBlockRadix]; omega))
      exact hcounts hc
    · cases h
  · split at h
    · rename_i i j hstart
      split at h
      · rename_i hjm
        split at h
        · rename_i h0
          have hij : i < 8 ∧ j % 2 = 0 := by
            unfold subKeyStart at hstart
            split at hstart
            · obtain ⟨rfl, rfl⟩ := Prod.mk.inj (Option.some.inj hstart)
              simp only [segSize, bmapIndexSize, freemapBlockSize]
              omega
            · cases hstart
          exact allocAt_counts hc hlo hhi hij.1 hij.2 hjm h0 h
        · exact scan_counts hc hlo hhi h
      · cases h
    · exact scan_counts hc hlo hhi h

/-! ## The merge of bulkfree -/

/-- What the pair loop keeps: `avail` counts the free pairs of the element and those of the
others, `rest` of them, and differs from `adj_free` by a constant. -/
structure Counted (rest : Nat) (c : BitVec 64) (s : AdjState) : Prop where
  avail : s.avail.toNat = freemapBlockSize * ((freePairs s.word).card + rest)
  adj : s.adjFree = c + BitVec.ofNat 64 s.avail.toNat

/-- The pair of the merged element. -/
theorem adjustPair_pairFree {lmask mmask : BitVec 64} {s : AdjState} {k : Nat} (hk : k < 32)
    (hs : ∀ i, i / 2 = k → s.word.getLsbD i = lmask.getLsbD i) (l : Nat) :
    pairFree (adjustPair lmask mmask s k).word l =
      if l = k then !mergeBit lmask mmask (2 * k) && !mergeBit lmask mmask (2 * k + 1)
      else pairFree s.word l := by
  unfold pairFree
  rw [adjustPair_getLsbD hk hs, adjustPair_getLsbD hk hs]
  by_cases hl : l = k
  · subst hl
    rw [if_pos rfl, if_pos (by omega), if_pos (by omega)]
  · rw [if_neg hl, if_neg (by omega), if_neg (by omega)]

/-- One more free pair: the 16KB are added, and the clamp to 4MB does nothing. -/
theorem Counted.up {rest : Nat} {c w : BitVec 64} {s : AdjState} (h : Counted rest c s)
    (hrest : rest ≤ 224) (hcard : (freePairs w).card = (freePairs s.word).card + 1) :
    Counted rest c ⟨w,
      if (s.avail + BitVec.ofNat 32 freemapBlockSize).toNat > freemapLevel0Size then
        BitVec.ofNat 32 freemapLevel0Size
      else s.avail + BitVec.ofNat 32 freemapBlockSize,
      s.adjFree + BitVec.ofNat 64 freemapBlockSize⟩ := by
  have hle := card_freePairs_le w
  have havail := h.avail
  simp only [freemapBlockSize, bmapBlocksPerElement] at *
  have hadd : (s.avail + BitVec.ofNat 32 16384).toNat = s.avail.toNat + 16384 := by
    rw [BitVec.toNat_add, BitVec.toNat_ofNat]
    omega
  have hclamp : ¬ (s.avail + BitVec.ofNat 32 16384).toNat > freemapLevel0Size := by
    rw [hadd]
    simp only [freemapLevel0Size]
    omega
  rw [if_neg hclamp]
  refine ⟨?_, ?_⟩
  · show (s.avail + BitVec.ofNat 32 16384).toNat = 16384 * ((freePairs w).card + rest)
    rw [hadd, hcard]
    omega
  · show s.adjFree + _ = c + BitVec.ofNat 64 (s.avail + BitVec.ofNat 32 16384).toNat
    rw [hadd, h.adj, BitVec.ofNat_add, BitVec.add_assoc]

/-- One free pair less: the 16KB are there to be taken, so `avail` is not clamped to 0. -/
theorem Counted.down {rest : Nat} {c w : BitVec 64} {s : AdjState} (h : Counted rest c s)
    (hrest : rest ≤ 224) (hcard : (freePairs w).card + 1 = (freePairs s.word).card) :
    Counted rest c ⟨w,
      if (s.avail - BitVec.ofNat 32 freemapBlockSize).msb then 0
      else s.avail - BitVec.ofNat 32 freemapBlockSize,
      s.adjFree - BitVec.ofNat 64 freemapBlockSize⟩ := by
  have hle := card_freePairs_le s.word
  have havail := h.avail
  simp only [freemapBlockSize, bmapBlocksPerElement] at *
  have hsub := @avail_sub s.avail 16384 (by omega)
  have hclamp : (s.avail - BitVec.ofNat 32 16384).msb = false := by
    rw [BitVec.msb_eq_false_iff_two_mul_lt]
    omega
  rw [hclamp]
  refine ⟨?_, ?_⟩
  · show (s.avail - BitVec.ofNat 32 16384).toNat = 16384 * ((freePairs w).card + rest)
    omega
  · show s.adjFree - _ = c + BitVec.ofNat 64 (s.avail - BitVec.ofNat 32 16384).toNat
    rw [h.adj, ← hsub, BitVec.ofNat_add, ← BitVec.add_assoc, BitVec.add_sub_cancel]

theorem Counted.same {rest : Nat} {c w : BitVec 64} {s : AdjState} (h : Counted rest c s)
    (hcard : (freePairs w).card = (freePairs s.word).card) :
    Counted rest c ⟨w, s.avail, s.adjFree⟩ :=
  ⟨by rw [hcard]; exact h.avail, h.adj⟩

/-- One round of the pair loop. -/
theorem adjustPair_counted {lmask mmask : BitVec 64} {s : AdjState} {k rest : Nat} {c : BitVec 64}
    (hk : k < 32) (hs : ∀ i, i / 2 = k → s.word.getLsbD i = lmask.getLsbD i) (hrest : rest ≤ 224)
    (h : Counted rest c s) : Counted rest c (adjustPair lmask mmask s k) := by
  have hcard := @card_freePairs_congr s.word (adjustPair lmask mmask s k).word k hk fun l hl => by
    rw [adjustPair_pairFree hk hs, if_neg hl]
  rw [adjustPair_pairFree hk hs, if_pos rfl] at hcard
  unfold pairFree at hcard
  rw [hs (2 * k) (by omega), hs (2 * k + 1) (by omega)] at hcard
  have hk0 : 2 * k / 2 = k := by omega
  have hk1 : (2 * k + 1) / 2 = k := by omega
  have hp0 : ¬ 2 * k % 2 = 1 := by omega
  have hp1 : (2 * k + 1) % 2 = 1 := by omega
  simp only [mergeBit, hk0, hk1, if_neg hp0, if_pos hp1] at hcard
  unfold adjustPair at hcard ⊢
  simp only [pairAt_eq] at hcard ⊢
  cases hmh : mmask.getLsbD (2 * k + 1) <;> cases hml : mmask.getLsbD (2 * k) <;>
    simp only [hmh, hml] at hcard ⊢
  · -- In memory `00`: `10` becomes free, `11` becomes `10`.
    cases hlh : lmask.getLsbD (2 * k + 1) <;> cases hll : lmask.getLsbD (2 * k) <;>
      simp [hlh, hll] at hcard ⊢
    · exact h
    · exact h
    · exact h.up hrest hcard
    · exact h.same hcard
  · exact h
  · exact h
  · -- In memory `11`: only `00` was free.
    cases hlh : lmask.getLsbD (2 * k + 1) <;> cases hll : lmask.getLsbD (2 * k) <;>
      simp [hlh, hll] at hcard ⊢
    · exact h.down hrest hcard
    · exact h.same hcard
    · exact h.same hcard
    · exact h.same hcard

/-- The pair loop after `n` rounds. -/
theorem foldl_adjustPair_counted {lmask mmask : BitVec 64} {s : AdjState} {rest : Nat} {c : BitVec 64}
    (hs : s.word = lmask) (hrest : rest ≤ 224) (h : Counted rest c s) : ∀ n, n ≤ 32 →
    Counted rest c ((List.range n).foldl (adjustPair lmask mmask) s)
  | 0, _ => h
  | n + 1, hn => by
      rw [List.range_succ, List.foldl_append, List.foldl_cons, List.foldl_nil]
      refine adjustPair_counted (by omega) (fun i hi => ?_) hrest
        (foldl_adjustPair_counted hs hrest h n (by omega))
      rw [foldl_adjustPair_getLsbD lmask mmask s hs n (by omega), if_neg (by omega)]

theorem adjustElem_counted {lmask mmask : BitVec 64} {avail : BitVec 32} {adjFree c : BitVec 64}
    {rest : Nat} (hrest : rest ≤ 224) (h : Counted rest c ⟨lmask, avail, adjFree⟩) :
    Counted rest c (adjustElem lmask mmask avail adjFree) := by
  unfold adjustElem
  split
  · exact h
  · exact foldl_adjustPair_counted rfl hrest h 32 (Nat.le_refl _)

/-- The free pairs of the other elements. -/
theorem freeCount_rest (bm : BmapData) {i : Nat} (hi : i < bmapElements) :
    ∃ rest ≤ 224, bm.freeCount = (freePairs (bm.elem i)).card + rest := by
  have hmem : i ∈ range bmapElements := Finset.mem_range.mpr hi
  refine ⟨∑ k ∈ (range bmapElements).erase i, (freePairs (bm.elem k)).card, ?_, ?_⟩
  · refine (Finset.sum_le_card_nsmul _ _ bmapBlocksPerElement fun k _ => card_freePairs_le _).trans ?_
    rw [Finset.card_erase_of_mem hmem, Finset.card_range]
    decide
  · unfold BmapData.freeCount
    rw [← Finset.sum_erase_add _ _ hmem, Nat.add_comm]

/-- The loop over the elements of the entry. -/
theorem adjustBitmap_counts {mem : BmapData} {c : BitVec 64} : ∀ (is : List Nat) {live : BmapData}
    {adjFree : BitVec 64}, (∀ i ∈ is, i < bmapElements) → live.Counts →
    adjFree = c + BitVec.ofNat 64 live.avail.toNat →
    (adjustBitmap mem is (live, adjFree)).1.Counts ∧
      (adjustBitmap mem is (live, adjFree)).2 =
        c + BitVec.ofNat 64 (adjustBitmap mem is (live, adjFree)).1.avail.toNat
  | [], live, adjFree, _, hc, hadj => ⟨hc, hadj⟩
  | i :: is, live, adjFree, hlt, hc, hadj => by
      have hi : i < bmapElements := hlt i (List.mem_cons_self ..)
      obtain ⟨rest, hrest, hsum⟩ := freeCount_rest live hi
      have hcount : Counted rest c ⟨live.elem i, live.avail, adjFree⟩ := ⟨by rw [← hsum]; exact hc, hadj⟩
      have helem := @adjustElem_counted _ (mem.elem i) _ _ _ _ hrest hcount
      refine adjustBitmap_counts is (fun j hj => hlt j (List.mem_cons_of_mem _ hj)) ?_ helem.adj
      have hcong := @freeCount_congr live { live with
          avail := (adjustElem (live.elem i) (mem.elem i) live.avail adjFree).avail
          bitmapq := Function.update live.bitmapq (Fin.ofNat 8 i)
            (adjustElem (live.elem i) (mem.elem i) live.avail adjFree).word } i hi fun k hk hne => by
        rw [elem_update hi hk, if_neg hne]
      rw [elem_update hi hi, if_pos rfl] at hcong
      have havail := helem.avail
      show (adjustElem (live.elem i) (mem.elem i) live.avail adjFree).avail.toNat = _
      rw [havail]
      congr 1
      omega

/-- **The merge keeps the count**, and moves `avail` by what it moves `adj_free`. -/
theorem syncAdjust_counts {live : BmapData} (mem : BmapData) {adjFree c : BitVec 64} (hc : live.Counts)
    (hadj : adjFree = c + BitVec.ofNat 64 live.avail.toNat) :
    (syncAdjust live mem adjFree).1.Counts ∧
      (syncAdjust live mem adjFree).2 =
        c + BitVec.ofNat 64 (syncAdjust live mem adjFree).1.avail.toNat := by
  obtain ⟨hcount, hfree⟩ := @adjustBitmap_counts mem c (List.range bmapElements) live adjFree
    (fun i hi => List.mem_range.mp hi) hc hadj
  unfold syncAdjust
  generalize adjustBitmap mem (List.range bmapElements) (live, adjFree) = r at hcount hfree ⊢
  obtain ⟨bm, adj⟩ := r
  dsimp only at hcount hfree ⊢
  split
  · rename_i hnone
    -- Every element is zero: `avail` was 4MB before it is set to 4MB.
    have hzero : ∀ i < bmapElements, bm.elem i = 0#64 := by
      intro i hi
      have hi' := List.find?_eq_none.mp hnone i (by simpa using hi)
      simpa using hi'
    have hall : bm.freeCount = 256 := by
      unfold BmapData.freeCount
      rw [Finset.sum_congr rfl fun i hi => by rw [hzero i (Finset.mem_range.mp hi)]]
      rw [card_freePairs_zero]
      rfl
    have havail : bm.avail.toNat = freemapLevel0Size := by
      rw [hcount, hall]
      rfl
    refine ⟨?_, ?_⟩
    · show (BitVec.ofNat 32 freemapLevel0Size).toNat = _ * BmapData.freeCount bm
      rw [hall]
      rfl
    · show adj = c + BitVec.ofNat 64 (BitVec.ofNat 32 freemapLevel0Size).toNat
      rw [hfree, havail]
      rfl
  · exact ⟨hcount, hfree⟩

end Hammer2
