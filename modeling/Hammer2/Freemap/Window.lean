/-
# `Hammer2.Freemap.Window` — what the in-memory map of a window records

The scan builds the in-memory map from a list of blockrefs.  `MemSpec` says
what an entry of the map holds once the blockrefs `refs` have been seen: a
block is `11` iff a blockref touches it, the iterator covers every fragment,
and where the iterator stands is explained by a blockref — the end of a
fragment when it is mid-block, a seen block behind it otherwise.

`bulkfreeScan_spec` proves it for every entry of the window the allocator can
use, by one lemma for each blockref (`recordRange_spec`).  The other entries
stay reserved, in the map as in a fresh leaf (`usable_iff_freemapInit`,
`usable_iff_cbinfoBmapInit`).
-/
import Hammer2.Freemap.Bulkfree

namespace Hammer2

open BitField

/-! ## The marking loop -/

/-- Rounds of the marking loop: blocks of 16KB, the last one possibly partial. -/
def blockCount (bytes : Nat) : Nat := (bytes + (freemapBlockSize - 1)) / freemapBlockSize

theorem orElem_pair {bm : BmapData} {x b : Nat} (hx : x < 256) (hb : b < 256) :
    (bm.orElem (x / 32) (3#64 <<< (x % 32 * 2))).hi b = (bm.hi b || decide (b = x)) ∧
    (bm.orElem (x / 32) (3#64 <<< (x % 32 * 2))).lo b = (bm.lo b || decide (b = x)) := by
  rw [three_eq_fieldMask]
  constructor
  · rw [hi_orElem_field (by omega) hb (by omega) (by omega) (by omega)]
    congr 1
    simp only [decide_eq_decide]
    omega
  · rw [lo_orElem_field (by omega) hb (by omega) (by omega) (by omega)]
    congr 1
    simp only [decide_eq_decide]
    omega

theorem markLoop_spec : ∀ (fuel : Nat) (bm : BmapData) (off bytes : Nat), bm.PairsEqual →
    off + bytes ≤ segSize → blockCount bytes ≤ fuel →
    (markLoop fuel bm off bytes).linear = bm.linear ∧
    (markLoop fuel bm off bytes).PairsEqual ∧
    ∀ b < 256, (markLoop fuel bm off bytes).hi b =
      (bm.hi b || decide (off / freemapBlockSize ≤ b ∧ b < off / freemapBlockSize + blockCount bytes))
  | 0, bm, off, bytes, hpe, _, hfuel => by
      have h0 : blockCount bytes = 0 := by omega
      refine ⟨rfl, hpe, fun b _ => ?_⟩
      have hno : ¬ (off / freemapBlockSize ≤ b ∧ b < off / freemapBlockSize + blockCount bytes) := by
        omega
      simp [markLoop, hno]
  | fuel + 1, bm, off, bytes, hpe, hin, hfuel => by
      by_cases hz : bytes = 0
      · subst hz
        refine ⟨rfl, hpe, fun b _ => ?_⟩
        have hno : ¬ (off / freemapBlockSize ≤ b ∧
            b < off / freemapBlockSize + blockCount 0) := by
          simp only [blockCount, freemapBlockSize]
          omega
        simp [markLoop, hno]
      · have hx : off / freemapBlockSize < 256 := by
          simp only [freemapBlockSize, segSize] at *
          omega
        have hidx : off / bmapIndexSize = off / freemapBlockSize / 32 := by
          simp only [bmapIndexSize, freemapBlockSize]
          omega
        have hsh : off % bmapIndexSize / freemapBlockSize * 2 =
            off / freemapBlockSize % 32 * 2 := by
          simp only [bmapIndexSize, freemapBlockSize]
          omega
        -- The entry after this round: block `off / 16384` is `11`, nothing else moved.
        obtain ⟨bm', hbm', hlin', hhi', hlo'⟩ : ∃ bm' : BmapData,
            bm' = (if bm.elem (off / bmapIndexSize) &&&
                3#64 <<< (off % bmapIndexSize / freemapBlockSize * 2) = 0#64 then
              { bm.orElem (off / bmapIndexSize)
                  (3#64 <<< (off % bmapIndexSize / freemapBlockSize * 2)) with
                avail := bm.avail - BitVec.ofNat 32
                  (if bytes < freemapBlockSize then freemapBlockSize else bytes) }
              else bm) ∧ bm'.linear = bm.linear ∧
            (∀ b < 256, bm'.hi b = (bm.hi b || decide (b = off / freemapBlockSize))) ∧
            (∀ b < 256, bm'.lo b = (bm.lo b || decide (b = off / freemapBlockSize))) := by
          refine ⟨_, rfl, ?_, fun b hb => ?_, fun b hb => ?_⟩
          · split <;> rfl
          all_goals
            rw [hidx, hsh]
            split
            · first
                | exact (orElem_pair hx hb).1
                | exact (orElem_pair hx hb).2
            · rename_i hne
              by_cases hbx : b = off / freemapBlockSize
              · -- The pair was not `00`, and the two bits of a pair agree.
                rw [three_eq_fieldMask, and_field_eq_zero_iff (by omega)] at hne
                have hpair := hpe _ hx
                subst hbx
                cases hbit : bm.hi (off / freemapBlockSize) with
                | true => simp_all
                | false =>
                    refine absurd (fun k hk1 hk2 => ?_) hne
                    have hlo0 : bm.lo (off / freemapBlockSize) = false := by rw [hpair, hbit]
                    unfold BmapData.hi at hbit
                    unfold BmapData.lo at hlo0
                    by_cases hk : k = off / freemapBlockSize % 32 * 2
                    · rw [hk, Nat.mul_comm]; exact hlo0
                    · rw [show k = 2 * (off / freemapBlockSize % 32) + 1 from by omega]
                      exact hbit
              · simp [hbx]
        have hpe' : bm'.PairsEqual := fun b hb => by rw [hhi' b hb, hlo' b hb, hpe b hb]
        have hstep : markLoop (fuel + 1) bm off bytes =
            markLoop fuel bm' (off + freemapBlockSize)
              (if bytes < freemapBlockSize then 0 else bytes - freemapBlockSize) := by
          rw [hbm']
          simp only [markLoop, if_neg hz]
        rw [hstep]
        by_cases hlast : bytes < freemapBlockSize
        · rw [if_pos hlast]
          have hend : markLoop fuel bm' (off + freemapBlockSize) 0 = bm' := by
            cases fuel <;> simp [markLoop]
          rw [hend]
          refine ⟨hlin', hpe', fun b hb => ?_⟩
          have hone : blockCount bytes = 1 := by
            simp only [blockCount, freemapBlockSize] at hlast ⊢
            omega
          rw [hhi' b hb, hone]
          congr 1
          rw [decide_eq_decide]
          generalize off / freemapBlockSize = x
          omega
        · rw [if_neg hlast]
          have hcnt : blockCount (bytes - freemapBlockSize) + 1 = blockCount bytes := by
            simp only [blockCount, freemapBlockSize] at *
            omega
          obtain ⟨h1, h2, h3⟩ := markLoop_spec fuel bm' (off + freemapBlockSize)
            (bytes - freemapBlockSize) hpe'
            (by simp only [freemapBlockSize, segSize] at *; omega) (by omega)
          refine ⟨h1.trans hlin', h2, fun b hb => ?_⟩
          rw [h3 b hb, hhi' b hb, Bool.or_assoc]
          congr 1
          rw [← Bool.decide_or, decide_eq_decide, ← hcnt,
            show (off + freemapBlockSize) / freemapBlockSize = off / freemapBlockSize + 1 from by
              simp only [freemapBlockSize]; omega]
          omega

/-! ## Ranges and blockrefs -/

/-- A byte range of the media: `2^radix` bytes at `off` of the 4MB entry `entry`. -/
structure Range where
  entry : Nat
  off : Nat
  radix : Nat
deriving DecidableEq

namespace Range

/-- The first byte after the range, relative to its entry. -/
def stop (r : Range) : Nat := r.off + 1 <<< r.radix

/-- Two ranges have a byte in common. -/
def Overlaps (r r' : Range) : Prop := r.entry = r'.entry ∧ r.off < r'.stop ∧ r'.off < r.stop

instance (r r' : Range) : Decidable (r.Overlaps r') := inferInstanceAs (Decidable (_ ∧ _))

end Range

/-- The range a blockref names, as the callback computes it. -/
def refRange (bref : SnapRef) : Range where
  entry := bref.dataOff / 64 * 64 / freemapLevel0Size
  off := bref.dataOff / 64 * 64 % freemapLevel0Size
  radix := bref.dataOff % 64

/-- The range is named by one of the blockrefs. -/
def Seen (refs : List SnapRef) (r : Range) : Prop := ∃ bref ∈ refs, refRange bref = r

theorem seen_cons {bref : SnapRef} {refs : List SnapRef} {r : Range} :
    Seen (bref :: refs) r ↔ refRange bref = r ∨ Seen refs r := by
  constructor
  · rintro ⟨b, hb, rfl⟩
    cases hb with
    | head => exact Or.inl rfl
    | tail _ hb => exact Or.inr ⟨b, hb, rfl⟩
  · rintro (rfl | ⟨b, hb, rfl⟩)
    · exact ⟨bref, List.mem_cons_self .., rfl⟩
    · exact ⟨b, List.mem_cons_of_mem _ hb, rfl⟩

/-! ## One entry of the map -/

/-- What entry `e` of the in-memory map holds when the ranges seen are `P`. -/
structure MemSpec (P : Range → Prop) (e : Nat) (bm : BmapData) : Prop where
  pairs : bm.PairsEqual
  hi_iff : ∀ b < 256, bm.hi b = true ↔ ∃ r, P r ∧ r.entry = e ∧ Touches r.off r.radix b
  covers : ∀ r, P r → r.entry = e → r.radix < freemapBlockRadix → r.stop ≤ bm.linear
  mid : bm.linear % freemapBlockSize ≠ 0 →
    ∃ r, P r ∧ r.entry = e ∧ r.radix < freemapBlockRadix ∧ r.stop = bm.linear
  behind : bm.linear % freemapBlockSize = 0 → bm.linear = 0 ∨
    bm.hi (bm.linear / freemapBlockSize - 1) = true
  linear_le : bm.linear ≤ segSize

theorem MemSpec.congr {P Q : Range → Prop} {e : Nat} {bm : BmapData}
    (h : MemSpec P e bm) (hPQ : ∀ r, r.entry = e → (P r ↔ Q r)) : MemSpec Q e bm := by
  refine ⟨h.pairs, fun b hb => ?_, fun r hr he => h.covers r ((hPQ r he).mpr hr) he, fun hm => ?_,
    h.behind, h.linear_le⟩
  · rw [h.hi_iff b hb]
    constructor
    · rintro ⟨r, hr, he, ht⟩
      exact ⟨r, (hPQ r he).mp hr, he, ht⟩
    · rintro ⟨r, hr, he, ht⟩
      exact ⟨r, (hPQ r he).mpr hr, he, ht⟩
  · obtain ⟨r, hr, he, ht⟩ := h.mid hm
    exact ⟨r, (hPQ r he).mp hr, he, ht⟩

theorem freeBmap_memSpec (e : Nat) : MemSpec (fun _ => False) e freeBmap := by
  have hbit : ∀ b, freeBmap.hi b = false ∧ freeBmap.lo b = false := by
    intro b
    simp [BmapData.hi, BmapData.lo, BmapData.elem, freeBmap]
  refine ⟨fun b _ => ?_, fun b _ => ?_, fun r hr => hr.elim, fun h => absurd rfl h,
    fun _ => Or.inl rfl, Nat.zero_le _⟩
  · rw [(hbit b).1, (hbit b).2]
  · rw [(hbit b).1]
    simp

/-- The blocks a placed range touches, counted from its first. -/
theorem touches_iff_blockCount {off radix b : Nat} (hp : Placed off radix) :
    Touches off radix b ↔
      off / freemapBlockSize ≤ b ∧ b < off / freemapBlockSize + blockCount (1 <<< radix) := by
  obtain ⟨h1, h2, h3⟩ := radix_cases hp.radix_lo hp.radix_hi
  have hfrag := hp.frag
  have hblock := hp.block
  unfold Touches blockCount
  simp only [freemapBlockRadix, freemapBlockSize] at *
  generalize 1 <<< radix = size at *
  generalize bmradixOf radix = m at *
  rcases h3 with ⟨hr, hsz, -⟩ | ⟨hr, rfl, hm⟩
  · have := hfrag hr
    omega
  · have := hblock hr
    rcases hm with rfl | rfl | rfl <;> omega

/-- The iterator after one more range has been recorded. -/
theorem recordLinear_spec {L off radix : Nat} (hp : Placed off radix) (hle : L ≤ segSize) :
    recordLinear L off (1 <<< radix) ≤ segSize ∧ L ≤ recordLinear L off (1 <<< radix) ∧
    (radix < freemapBlockRadix → off + 1 <<< radix ≤ recordLinear L off (1 <<< radix)) ∧
    (recordLinear L off (1 <<< radix) = L ∨
      (recordLinear L off (1 <<< radix) = off + 1 <<< radix ∧
        ((off + 1 <<< radix) % freemapBlockSize ≠ 0 → radix < freemapBlockRadix))) := by
  obtain ⟨h1, h2, h3⟩ := radix_cases hp.radix_lo hp.radix_hi
  have hin := hp.inside
  have hblock := hp.block
  unfold recordLinear
  simp only [freemapBlockRadix, freemapBlockSize, segSize] at *
  generalize 1 <<< radix = size at *
  generalize bmradixOf radix = m at *
  rcases h3 with ⟨hr, hsz, -⟩ | ⟨hr, rfl, hm⟩
  · rw [if_pos (by omega)]
    split
    · exact ⟨by omega, by omega, fun _ => by omega, Or.inr ⟨rfl, fun _ => hr⟩⟩
    · exact ⟨by omega, by omega, fun _ => by omega, Or.inl rfl⟩
  · have hal := hblock hr
    have hsz : 8192 * m % 16384 = 0 := by rcases hm with rfl | rfl | rfl <;> rfl
    rw [if_neg (by omega)]
    split
    · exact ⟨by omega, by omega, fun _ => by omega, Or.inr ⟨rfl, fun _ => by omega⟩⟩
    · exact ⟨by omega, by omega, fun _ => by omega, Or.inl rfl⟩

/-- **Recording one range** adds exactly that range to what the entry holds. -/
theorem recordRange_spec {P : Range → Prop} {bm : BmapData} {r : Range} (type : Nat)
    (h : MemSpec P r.entry bm) (hp : Placed r.off r.radix) :
    MemSpec (fun r' => r = r' ∨ P r') r.entry (recordRange bm type r.off (1 <<< r.radix)) := by
  obtain ⟨hle', hmono, hcov, hcase⟩ := recordLinear_spec hp h.linear_le
  -- The class and the free bytes play no part in the specification.
  obtain ⟨bm₀, hbm₀, hlin₀, hq⟩ : ∃ bm₀ : BmapData,
      recordRange bm type r.off (1 <<< r.radix) =
        markLoop (1 <<< r.radix / freemapBlockSize + 1) bm₀ r.off (1 <<< r.radix) ∧
      bm₀.linear = recordLinear bm.linear r.off (1 <<< r.radix) ∧
      bm₀.bitmapq = bm.bitmapq := by
    refine ⟨_, rfl, ?_, ?_⟩ <;> simp only <;> split <;> rfl
  have hhi₀ : ∀ b, bm₀.hi b = bm.hi b := fun b => by simp only [BmapData.hi, BmapData.elem, hq]
  have hlo₀ : ∀ b, bm₀.lo b = bm.lo b := fun b => by simp only [BmapData.lo, BmapData.elem, hq]
  have hfuel : blockCount (1 <<< r.radix) ≤ 1 <<< r.radix / freemapBlockSize + 1 := by
    simp only [blockCount, freemapBlockSize]
    omega
  obtain ⟨hlin, hpairs, hhi⟩ := markLoop_spec _ bm₀ _ _
    (fun b hb => by rw [hhi₀, hlo₀, h.pairs b hb]) hp.inside hfuel
  rw [← hbm₀] at hlin hpairs hhi
  rw [hlin₀] at hlin
  have hhi' : ∀ b < 256, (recordRange bm type r.off (1 <<< r.radix)).hi b = true ↔
      bm.hi b = true ∨ Touches r.off r.radix b := by
    intro b hb
    rw [hhi b hb, hhi₀, touches_iff_blockCount hp, Bool.or_eq_true, decide_eq_true_iff]
  refine ⟨hpairs, fun b hb => ?_, ?_, ?_, ?_, ?_⟩
  · rw [hhi' b hb, h.hi_iff b hb]
    constructor
    · rintro (⟨r', hr', he, ht⟩ | ht)
      · exact ⟨r', Or.inr hr', he, ht⟩
      · exact ⟨r, Or.inl rfl, rfl, ht⟩
    · rintro ⟨r', rfl | hr', he, ht⟩
      · exact Or.inr ht
      · exact Or.inl ⟨r', hr', he, ht⟩
  · rintro r' (rfl | hr') he hfr
    · rw [hlin]
      exact hcov hfr
    · rw [hlin]
      exact Nat.le_trans (h.covers r' hr' he hfr) hmono
  · intro hmid
    rw [hlin] at hmid
    rcases hcase with heq | ⟨heq, hfr⟩
    · rw [heq] at hmid
      obtain ⟨r', hr', he, hfr, hst⟩ := h.mid hmid
      exact ⟨r', Or.inr hr', he, hfr, by rw [hlin, heq, hst]⟩
    · rw [heq] at hmid
      exact ⟨r, Or.inl rfl, rfl, hfr hmid, by rw [hlin, heq]; rfl⟩
  · intro hal
    rw [hlin] at hal ⊢
    rcases hcase with heq | ⟨heq, -⟩
    · rw [heq] at hal ⊢
      rcases h.behind hal with h0 | hb
      · exact Or.inl h0
      · right
        rw [hhi' _ (by have := h.linear_le; simp only [segSize, freemapBlockSize] at *; omega)]
        exact Or.inl hb
    · -- The last block of the range is behind the iterator.
      right
      have h1 := (radix_cases hp.radix_lo hp.radix_hi).1
      have hin := hp.inside
      rw [heq] at hal ⊢
      rw [hhi' _ (by simp only [segSize, freemapBlockSize] at *; omega)]
      right
      unfold Touches
      simp only [freemapBlockSize] at *
      generalize 1 <<< r.radix = size at *
      omega
  · rw [hlin]
    exact hle'

/-! ## The allocatable area -/

/-- The entry is one the allocator hands out: not below `allocator_beg`, not
the reserved segment of its zone, and wholly below the end of the device. -/
def Usable (dev : Dev) (e : Nat) : Prop :=
  segUp dev.allocatorBeg ≤ e * segSize ∧ e % 256 ≠ 0 ∧ e * segSize < segDown dev.totalSize

instance (dev : Dev) (e : Nat) : Decidable (Usable dev e) := inferInstanceAs (Decidable (_ ∧ _))

theorem usable_iff_freemapInit (dev : Dev) (e : Nat) :
    freemapInit dev (e / 256 * freemapLevel1Size) (e % 256) =
      if Usable dev e then freeBmap else reservedBmap := by
  have hcond : (e / 256 * freemapLevel1Size + e % 256 * freemapLevel0Size <
        lokeyStep (segUp dev.allocatorBeg) (e / 256 * freemapLevel1Size) ∨
      e / 256 * freemapLevel1Size + e % 256 * freemapLevel0Size ≥
        (if e / 256 * freemapLevel1Size + freemapLevel1Size > dev.totalSize then
          segDown dev.totalSize else e / 256 * freemapLevel1Size + freemapLevel1Size)) ↔
      ¬ Usable dev e := by
    unfold Usable lokeyStep h2fmBase segDown
    generalize segUp dev.allocatorBeg = a
    simp only [freemapLevel1Size, freemapLevel0Size, zoneSeg, segSize]
    split_ifs <;> omega
  unfold freemapInit
  by_cases hu : Usable dev e
  · rw [if_pos hu]
    exact if_neg (fun h => (hcond.mp h) hu)
  · rw [if_neg hu]
    exact if_pos (hcond.mpr hu)

/-- The running `lokey` of the map is the one of its entry. -/
theorem cbinfoLokey_eq (dev : Dev) {base : Nat} : ∀ n,
    cbinfoLokey dev (base * segSize) n =
      max (segUp dev.allocatorBeg) (h2fmBase ((base + n) * segSize) + zoneSeg)
  | 0 => by
      unfold cbinfoLokey lokeyStep
      simp only [Nat.add_zero, zoneSeg]
      split_ifs <;> omega
  | n + 1 => by
      unfold cbinfoLokey
      rw [cbinfoLokey_eq dev n]
      unfold lokeyStep h2fmBase
      generalize segUp dev.allocatorBeg = a
      simp only [freemapLevel1Size, freemapLevel0Size, segSize, zoneSeg]
      split_ifs <;> omega

theorem usable_iff_cbinfoBmapInit (dev : Dev) (base sstop n : Nat) :
    (cbinfoBmapInit dev (base * segSize) sstop).bmap n =
      if Usable dev (base + n) then freeBmap else reservedBmap := by
  have hcond : (base * segSize + n * freemapLevel0Size < cbinfoLokey dev (base * segSize) n ∨
      base * segSize + n * freemapLevel0Size ≥ segDown dev.totalSize) ↔
      ¬ Usable dev (base + n) := by
    rw [cbinfoLokey_eq]
    unfold Usable h2fmBase segDown
    generalize segUp dev.allocatorBeg = a
    simp only [freemapLevel1Size, freemapLevel0Size, zoneSeg, segSize]
    omega
  unfold cbinfoBmapInit
  simp only
  by_cases hu : Usable dev (base + n)
  · rw [if_pos hu]
    exact if_neg (fun h => (hcond.mp h) hu)
  · rw [if_neg hu]
    exact if_pos (hcond.mpr hu)

/-! ## The scan of one window -/

/-- A blockref the scan can meet: reserved storage below `allocator_beg`, or a
placed range of a usable entry. -/
def RefOk (dev : Dev) (bref : SnapRef) : Prop :=
  bref.dataOff / 64 * 64 < dev.allocatorBeg ∨
    (Placed (refRange bref).off (refRange bref).radix ∧ Usable dev (refRange bref).entry)

/-- The map of the window from entry `base` on, once the ranges `P` have been seen. -/
structure WindowSpec (dev : Dev) (P : Range → Prop) (base sstop : Nat) (cb : Cbinfo) : Prop where
  sbase_eq : cb.sbase = base * segSize
  sstop_eq : cb.sstop = sstop
  usable : ∀ n, (base + n) * segSize < sstop → Usable dev (base + n) →
    MemSpec P (base + n) (cb.bmap n)
  reserved : ∀ n, ¬ Usable dev (base + n) → cb.bmap n = reservedBmap

theorem cbinfoBmapInit_spec (dev : Dev) (base sstop : Nat) :
    WindowSpec dev (fun _ => False) base sstop (cbinfoBmapInit dev (base * segSize) sstop) := by
  refine ⟨rfl, rfl, fun n _ hu => ?_, fun n hu => ?_⟩
  · rw [usable_iff_cbinfoBmapInit, if_pos hu]
    exact freeBmap_memSpec _
  · rw [usable_iff_cbinfoBmapInit, if_neg hu]

/-- The callback skips a blockref that is not in an entry of the window. -/
theorem WindowSpec.skip {dev : Dev} {P : Range → Prop} {base sstop : Nat} {cb : Cbinfo}
    {r : Range} (h : WindowSpec dev P base sstop cb)
    (hr : ∀ n, (base + n) * segSize < sstop → Usable dev (base + n) → r.entry ≠ base + n) :
    WindowSpec dev (fun r' => r = r' ∨ P r') base sstop cb := by
  refine ⟨h.sbase_eq, h.sstop_eq, fun n hn hu => ?_, h.reserved⟩
  refine (h.usable n hn hu).congr fun r' he => ?_
  constructor
  · exact Or.inr
  · rintro (rfl | hr')
    · exact absurd he (hr n hn hu)
    · exact hr'

/-- Where a blockref of the window goes: neither clipping test of the callback
fires for a placed range. -/
theorem bulkfreeCallback_eq {dev : Dev} {base sstop : Nat} {cb : Cbinfo} {bref : SnapRef}
    (hbase : cb.sbase = base * segSize) (hcs : cb.sstop = sstop)
    (hstop : sstop % segSize = 0 ∨ sstop = dev.totalSize)
    (hp : Placed (refRange bref).off (refRange bref).radix) (hu : Usable dev (refRange bref).entry)
    (hlo : base ≤ (refRange bref).entry) (hhi : (refRange bref).entry * segSize < sstop) :
    bulkfreeCallback dev cb bref = some { cb with
      bmap := Function.update cb.bmap ((refRange bref).entry - base)
        (recordRange (cb.bmap ((refRange bref).entry - base)) bref.type
          (refRange bref).off (1 <<< (refRange bref).radix)) } := by
  have hoff : bref.dataOff / 64 * 64 =
      (refRange bref).entry * segSize + (refRange bref).off := by
    simp only [refRange, freemapLevel0Size, segSize]
    omega
  have hrad : bref.dataOff % 64 = (refRange bref).radix := rfl
  obtain ⟨r1, r2⟩ := (⟨hp.radix_lo, hp.radix_hi⟩ : _ ∧ _)
  have hpos := (radix_cases r1 r2).1
  have hin := hp.inside
  obtain ⟨hu1, -, hu3⟩ := hu
  unfold bulkfreeCallback
  simp only
  rw [hbase, hcs, hoff, hrad]
  generalize (refRange bref).entry = e at *
  generalize (refRange bref).off = off at *
  generalize (refRange bref).radix = radix at *
  have hn : (e * segSize + off - base * segSize) / freemapLevel0Size = e - base := by
    simp only [freemapLevel0Size, segSize] at *
    omega
  have ho : (e * segSize + off - base * segSize) % freemapLevel0Size = off := by
    simp only [freemapLevel0Size, segSize] at *
    omega
  unfold segUp at hu1
  unfold segDown at hu1 hu3
  simp only [radixMin, segSize] at r1 hu1 hu3 hstop hhi hlo hin ⊢
  rw [hn, ho, if_neg (by omega), if_neg (by omega), if_neg (by omega), if_neg (by omega)]
  have hclip : ¬ e * 4194304 + off + 1 <<< radix > sstop := by
    rcases hstop with hs | hs <;> omega
  rw [if_neg hclip, if_neg (by simp only [freemapLevel0Size]; omega)]

/-- **One blockref**: the callback succeeds and the map holds one range more. -/
theorem bulkfreeCallback_spec {dev : Dev} {P : Range → Prop} {base sstop : Nat} {cb : Cbinfo}
    {bref : SnapRef} (h : WindowSpec dev P base sstop cb) (hok : RefOk dev bref)
    (hstop : sstop % segSize = 0 ∨ sstop = dev.totalSize) :
    ∃ cb', bulkfreeCallback dev cb bref = some cb' ∧
      WindowSpec dev (fun r => refRange bref = r ∨ P r) base sstop cb' := by
  have hoff : bref.dataOff / 64 * 64 =
      (refRange bref).entry * segSize + (refRange bref).off := by
    simp only [refRange, freemapLevel0Size, segSize]
    omega
  have hlt : (refRange bref).off < segSize := by
    simp only [refRange, freemapLevel0Size, segSize]
    omega
  by_cases hin : Usable dev (refRange bref).entry ∧ base ≤ (refRange bref).entry ∧
      (refRange bref).entry * segSize < sstop
  · obtain ⟨hu, hlo, hhi⟩ := hin
    have hp : Placed (refRange bref).off (refRange bref).radix := by
      rcases hok with hbeg | ⟨hp, -⟩
      · -- A usable entry is not below `allocator_beg`.
        have := hu.1
        rw [hoff] at hbeg
        unfold segUp segDown at this
        simp only [segSize] at *
        omega
      · exact hp
    refine ⟨_, bulkfreeCallback_eq h.sbase_eq h.sstop_eq hstop hp hu hlo hhi,
      h.sbase_eq, h.sstop_eq, fun n hn hun => ?_, fun n hun => ?_⟩
    · by_cases hne : n = (refRange bref).entry - base
      · have he : base + n = (refRange bref).entry := by omega
        show MemSpec _ _ (Function.update cb.bmap _ _ n)
        rw [hne, Function.update_self, ← hne, he]
        refine recordRange_spec _ ?_ hp
        rw [← he]
        exact h.usable n hn hun
      · show MemSpec _ _ (Function.update cb.bmap _ _ n)
        rw [Function.update_of_ne hne]
        refine (h.usable n hn hun).congr fun r' he => ?_
        constructor
        · exact Or.inr
        · rintro (rfl | hr')
          · omega
          · exact hr'
    · show Function.update cb.bmap _ _ n = _
      have hne : n ≠ (refRange bref).entry - base := by
        rintro rfl
        refine hun ?_
        rwa [Nat.add_sub_cancel' hlo]
      rw [Function.update_of_ne hne]
      exact h.reserved n hun
  · -- Every test that lets the callback through fails outside the window.
    have hskip : bulkfreeCallback dev cb bref = some cb := by
      have hbeg : bref.dataOff / 64 * 64 < dev.allocatorBeg ∨
          ¬ (base ≤ (refRange bref).entry ∧ (refRange bref).entry * segSize < sstop) := by
        rcases hok with hbeg | ⟨-, hu⟩
        · exact Or.inl hbeg
        · exact Or.inr fun hw => hin ⟨hu, hw⟩
      unfold bulkfreeCallback
      simp only
      rw [h.sbase_eq, h.sstop_eq]
      rcases hbeg with hbeg | hw
      · rw [if_pos hbeg]
        exact ite_self _
      · refine if_pos ?_
        rw [hoff]
        simp only [segSize] at *
        omega
    refine ⟨cb, hskip, h.skip fun n hn hu he => hin ⟨?_, by omega, ?_⟩⟩
    · rwa [he]
    · rwa [he]

/-- **The scan** succeeds and the map holds exactly the ranges of the snapshot. -/
theorem bulkfreeScan_spec {dev : Dev} {base sstop : Nat}
    (hstop : sstop % segSize = 0 ∨ sstop = dev.totalSize) :
    ∀ {refs : List SnapRef} {P : Range → Prop} {cb : Cbinfo}, (∀ bref ∈ refs, RefOk dev bref) →
      WindowSpec dev P base sstop cb →
      ∃ cb', bulkfreeScan dev cb refs = some cb' ∧
        WindowSpec dev (fun r => Seen refs r ∨ P r) base sstop cb'
  | [], P, cb, _, h => by
      refine ⟨cb, rfl, h.sbase_eq, h.sstop_eq, fun n hn hu => ?_, h.reserved⟩
      refine (h.usable n hn hu).congr fun r _ => ?_
      simp [Seen]
  | bref :: refs, P, cb, hok, h => by
      obtain ⟨cb₁, hstep, h₁⟩ := bulkfreeCallback_spec h (hok _ (List.mem_cons_self ..)) hstop
      obtain ⟨cb', hrest, h'⟩ := bulkfreeScan_spec hstop
        (fun b hb => hok b (List.mem_cons_of_mem _ hb)) h₁
      refine ⟨cb', ?_, h'.sbase_eq, h'.sstop_eq, fun n hn hu => ?_, h'.reserved⟩
      · simp only [bulkfreeScan, hstep, hrest]
      · refine (h'.usable n hn hu).congr fun r _ => ?_
        rw [seen_cons]
        constructor
        · rintro (hr | hr | hr)
          · exact Or.inl (Or.inr hr)
          · exact Or.inl (Or.inl hr)
          · exact Or.inr hr
        · rintro ((hr | hr) | hr)
          · exact Or.inr (Or.inl hr)
          · exact Or.inl hr
          · exact Or.inr (Or.inr hr)

end Hammer2
