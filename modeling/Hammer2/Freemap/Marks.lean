/-
# `Hammer2.Freemap.Marks` — the scan only adds marks

Whatever blockrefs the scan of a window meets, well formed or not, an entry of the in-memory
map only gains by it:

    Grows               pairs stay `00` or `11`, marks stay, the iterator does not go back
    bulkfreeScan_grows  the whole scan, over any list of blockrefs
    bulkfreeScan_marks  a fragment among them is marked, and the iterator is past it
-/
import Hammer2.Freemap.Entry

namespace Hammer2

/-- What the scan leaves of an in-memory entry that holds `00` and `11` pairs only. -/
structure Grows (bm bm' : BmapData) : Prop where
  pairs : bm'.PairsEqual
  hi : ∀ b < 256, bm.hi b = true → bm'.hi b = true
  linear : bm.linear ≤ bm'.linear

theorem Grows.refl {bm : BmapData} (h : bm.PairsEqual) : Grows bm bm :=
  ⟨h, fun _ _ hb => hb, Nat.le_refl _⟩

theorem Grows.trans {bm bm' bm'' : BmapData} (h : Grows bm bm') (h' : Grows bm' bm'') :
    Grows bm bm'' :=
  ⟨h'.pairs, fun b hb hm => h'.hi b hb (h.hi b hb hm), Nat.le_trans h.linear h'.linear⟩

/-- Recording a range, clipped to the entry as the callback clips it. -/
theorem recordRange_grows {bm : BmapData} {off bytes : Nat} (type : Nat) (h : bm.PairsEqual)
    (hin : off + bytes ≤ segSize) :
    Grows bm (recordRange bm type off bytes) ∧
      (0 < bytes → (recordRange bm type off bytes).hi (off / freemapBlockSize) = true) ∧
      (bytes % freemapBlockSize ≠ 0 → off + bytes ≤ (recordRange bm type off bytes).linear) := by
  -- the class and the free bytes play no part
  obtain ⟨bm₀, hbm₀, hlin₀, hq⟩ : ∃ bm₀ : BmapData,
      recordRange bm type off bytes = markLoop (bytes / freemapBlockSize + 1) bm₀ off bytes ∧
      bm₀.linear = recordLinear bm.linear off bytes ∧ bm₀.bitmapq = bm.bitmapq := by
    refine ⟨_, rfl, ?_, ?_⟩ <;> simp only <;> split <;> rfl
  have hhi₀ : ∀ b, bm₀.hi b = bm.hi b := fun b => by simp only [BmapData.hi, BmapData.elem, hq]
  have hlo₀ : ∀ b, bm₀.lo b = bm.lo b := fun b => by simp only [BmapData.lo, BmapData.elem, hq]
  have hfuel : blockCount bytes ≤ bytes / freemapBlockSize + 1 := by
    simp only [blockCount, freemapBlockSize]
    omega
  obtain ⟨hlin, hpairs, hhi⟩ := markLoop_spec _ bm₀ _ _
    (fun b hb => by rw [hhi₀, hlo₀, h b hb]) hin hfuel
  rw [hbm₀]
  refine ⟨⟨hpairs, fun b hb hm => ?_, ?_⟩, fun hpos => ?_, fun hfr => ?_⟩
  · rw [hhi b hb, hhi₀, hm, Bool.true_or]
  · rw [hlin, hlin₀]
    unfold recordLinear
    split_ifs <;> omega
  · have hblk : off / freemapBlockSize < 256 := by
      simp only [segSize, freemapBlockSize] at *
      omega
    rw [hhi _ hblk, Bool.or_eq_true, decide_eq_true_iff]
    right
    simp only [blockCount, freemapBlockSize]
    omega
  · rw [hlin, hlin₀]
    unfold recordLinear
    rw [if_pos hfr]
    split_ifs <;> omega

section
variable {dev : Dev} {cb cb' : Cbinfo}

/-- **One blockref**, whatever it is. -/
theorem bulkfreeCallback_grows {bref : SnapRef} (h : ∀ n, (cb.bmap n).PairsEqual)
    (hstep : bulkfreeCallback dev cb bref = some cb') :
    (cb'.sbase = cb.sbase ∧ cb'.sstop = cb.sstop) ∧ ∀ n, Grows (cb.bmap n) (cb'.bmap n) := by
  have hsame : (cb.sbase = cb.sbase ∧ cb.sstop = cb.sstop) ∧ ∀ n, Grows (cb.bmap n) (cb.bmap n) :=
    ⟨⟨rfl, rfl⟩, fun n => Grows.refl (h n)⟩
  unfold bulkfreeCallback at hstep
  dsimp only at hstep
  split at hstep
  · exact Option.some.inj hstep ▸ hsame
  · split at hstep
    · exact Option.some.inj hstep ▸ hsame
    · split at hstep
      · exact Option.some.inj hstep ▸ hsame
      · split at hstep
        · cases hstep
        · obtain rfl := Option.some.inj hstep
          refine ⟨⟨rfl, rfl⟩, fun n => ?_⟩
          dsimp only
          by_cases hn : n = (bref.dataOff / 64 * 64 - cb.sbase) / freemapLevel0Size
          · rw [hn, Function.update_self]
            refine (recordRange_grows bref.type (h _) ?_).1
            simp only [freemapLevel0Size, segSize]
            split_ifs <;> omega
          · rw [Function.update_of_ne hn]
            exact Grows.refl (h n)

/-- **The scan**, over any list of blockrefs. -/
theorem bulkfreeScan_grows : ∀ {refs : List SnapRef} {cb : Cbinfo}, (∀ n, (cb.bmap n).PairsEqual) →
    bulkfreeScan dev cb refs = some cb' →
    (cb'.sbase = cb.sbase ∧ cb'.sstop = cb.sstop) ∧ ∀ n, Grows (cb.bmap n) (cb'.bmap n)
  | [], cb, h, hscan => by
      obtain rfl := Option.some.inj hscan
      exact ⟨⟨rfl, rfl⟩, fun n => Grows.refl (h n)⟩
  | bref :: refs, cb, h, hscan => by
      unfold bulkfreeScan at hscan
      split at hscan
      · next cb₁ hstep =>
        obtain ⟨hwin, hgrow⟩ := bulkfreeCallback_grows h hstep
        obtain ⟨hwin', hgrow'⟩ := bulkfreeScan_grows (fun n => (hgrow n).pairs) hscan
        exact ⟨⟨hwin'.1.trans hwin.1, hwin'.2.trans hwin.2⟩, fun n => (hgrow n).trans (hgrow' n)⟩
      · cases hscan

theorem cbinfoBmapInit_pairs (dev : Dev) (sbase sstop n : Nat) :
    ((cbinfoBmapInit dev sbase sstop).bmap n).PairsEqual := by
  intro b _
  unfold cbinfoBmapInit
  dsimp only
  split
  · rw [(reservedBmap_bits b).1, (reservedBmap_bits b).2]
  · simp [BmapData.hi, BmapData.lo, BmapData.elem, freeBmap]

/-- A fragment that the callback lets through is marked. -/
theorem bulkfreeCallback_marks {base : Nat} {bref : SnapRef} (h : ∀ n, (cb.bmap n).PairsEqual)
    (hbase : cb.sbase = base * segSize) (hp : Placed (refRange bref).off (refRange bref).radix)
    (hfr : (refRange bref).radix < freemapBlockRadix) (hlo : base ≤ (refRange bref).entry)
    (hbeg : dev.allocatorBeg ≤ bref.dataOff / 64 * 64)
    (htotal : bref.dataOff / 64 * 64 < dev.totalSize)
    (hstop : bref.dataOff / 64 * 64 + 1 <<< (bref.dataOff % 64) ≤ cb.sstop)
    (hstep : bulkfreeCallback dev cb bref = some cb') :
    (cb'.bmap ((refRange bref).entry - base)).hi ((refRange bref).off / freemapBlockSize) = true ∧
      (refRange bref).stop ≤ (cb'.bmap ((refRange bref).entry - base)).linear := by
  have hoff : bref.dataOff / 64 * 64 = (refRange bref).entry * segSize + (refRange bref).off := by
    simp only [refRange, freemapLevel0Size, segSize]
    omega
  have hrad : bref.dataOff % 64 = (refRange bref).radix := rfl
  obtain ⟨hpos, -, hsize⟩ := radix_cases hp.radix_lo hp.radix_hi
  have hin := hp.inside
  have hr := hp.radix_lo
  unfold bulkfreeCallback at hstep
  unfold Range.stop
  rw [hoff] at hbeg htotal hstop
  rw [hrad] at hstop
  simp only [hoff, hrad, hbase] at hstep
  generalize (refRange bref).entry = e at *
  generalize (refRange bref).off = off at *
  generalize (refRange bref).radix = radix at *
  simp only [segSize, freemapBlockRadix, radixMin] at *
  have hn : (e * 4194304 + off - base * 4194304) / freemapLevel0Size = e - base := by
    simp only [freemapLevel0Size]
    omega
  have ho : (e * 4194304 + off - base * 4194304) % freemapLevel0Size = off := by
    simp only [freemapLevel0Size]
    omega
  have hclip : ¬ e * 4194304 + off + 1 <<< radix > cb.sstop := by omega
  rw [hn, ho, if_neg (by omega), if_neg (by omega), if_neg (by omega), if_neg (by omega),
    if_neg hclip, if_neg (by simp only [freemapLevel0Size]; omega)] at hstep
  obtain rfl := Option.some.inj hstep
  dsimp only
  rw [Function.update_self]
  obtain ⟨-, hmark, hlin⟩ := recordRange_grows bref.type (h (e - base)) (by
    simp only [segSize]; exact hin)
  refine ⟨hmark (by omega), hlin ?_⟩
  simp only [freemapBlockSize]
  rcases hsize with ⟨-, hs, -⟩ | ⟨hge, -⟩ <;> omega

/-- **A fragment the scan meets is marked**, whatever else it meets. -/
theorem bulkfreeScan_marks {base : Nat} {bref : SnapRef}
    (hp : Placed (refRange bref).off (refRange bref).radix)
    (hfr : (refRange bref).radix < freemapBlockRadix) (hlo : base ≤ (refRange bref).entry)
    (hbeg : dev.allocatorBeg ≤ bref.dataOff / 64 * 64)
    (htotal : bref.dataOff / 64 * 64 < dev.totalSize) : ∀ {refs : List SnapRef} {cb : Cbinfo},
    (∀ n, (cb.bmap n).PairsEqual) → cb.sbase = base * segSize →
    bref.dataOff / 64 * 64 + 1 <<< (bref.dataOff % 64) ≤ cb.sstop → bref ∈ refs →
    bulkfreeScan dev cb refs = some cb' →
    (cb'.bmap ((refRange bref).entry - base)).hi ((refRange bref).off / freemapBlockSize) = true ∧
      (refRange bref).stop ≤ (cb'.bmap ((refRange bref).entry - base)).linear
  | b :: refs, cb, h, hbase, hstop, hmem, hscan => by
      unfold bulkfreeScan at hscan
      split at hscan
      · next cb₁ hstep =>
        obtain ⟨⟨hb₁, hs₁⟩, hgrow⟩ := bulkfreeCallback_grows h hstep
        cases hmem with
        | head =>
            obtain ⟨hmark, hlin⟩ := bulkfreeCallback_marks h hbase hp hfr hlo hbeg htotal hstop hstep
            have hrest := (bulkfreeScan_grows (fun n => (hgrow n).pairs) hscan).2
              ((refRange bref).entry - base)
            exact ⟨hrest.hi _ hp.block_lt hmark, Nat.le_trans hlin hrest.linear⟩
        | tail _ hmem =>
            exact bulkfreeScan_marks hp hfr hlo hbeg htotal (fun n => (hgrow n).pairs)
              (hb₁.trans hbase) (by rw [hs₁]; exact hstop) hmem hscan
      · cases hscan

end

end Hammer2
