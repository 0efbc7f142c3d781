/-
# `Hammer2.Freemap.Fragment` — a recovered fragment and the linear iterator

Recovery makes the pair of a referenced fragment `11`.  The allocator hands out fragments of a
`11` block too, those from the linear iterator on, and so a fragment is safe in an entry that is

    Guarded     its block is not `00`, and the iterator is not in the block and before the
                end of the fragment, in a place from which it can go on (`Danger`)

`spared_iff` says that this is exactly what it takes, whatever is allocated and merged later.
`recovered_spared_iff` says for which entries `hammer2_freemap_adjust` gives it: the iterator is
reset only when a pair was changed, and the pair is looked for modulo 16.
-/
import Hammer2.Freemap.Recover
import Hammer2.Freemap.Fit
import Hammer2.Freemap.Marks

namespace Hammer2.Account

open BitField Machine Freemap

/-! ## What comes later -/

/-- What happens to the entry after the recovery: allocations, and merges of a window's map. -/
inductive Later where
  | alloc (cls subKey radix : Nat)
  | sync (base sstop : Nat) (refs : List SnapRef) (adjFree : BitVec 64)

def later (dev : Dev) (e : Nat) (bm : BmapData) : Later → Option BmapData
  | .alloc cls subKey radix =>
      match bmapAlloc bm cls subKey radix with
      | .panic => none
      | .enospc => some bm
      | .ok bm' _ _ => some bm'
  | .sync base sstop refs adjFree =>
      match bulkfreeScan dev (cbinfoBmapInit dev (base * segSize) sstop) refs with
      | some cb => some (syncAdjust bm (cb.bmap (e - base)) adjFree).1
      | none => none

/-- Allocations as the callers ask for them; windows over the fragment whose scan meets it, among
any other blockrefs. -/
def LaterOk (dev : Dev) (bref : SnapRef) : BmapData → Later → Prop
  | _, .alloc cls subKey radix => AllocArgs cls subKey radix
  | _, .sync base sstop refs _ =>
      bref ∈ refs ∧ base * segSize ≤ bref.dataOff / 64 * 64 ∧ bref.dataOff / 64 * 64 < sstop ∧
        (sstop % segSize = 0 ∨ sstop = dev.totalSize)

/-- Nothing allocated later has bytes of the fragment. -/
def Spared (dev : Dev) (bref : SnapRef) (bm : BmapData) : Prop :=
  ∀ evs mid, AllSteps (later dev (refRange bref).entry) (LaterOk dev bref) bm evs →
    exec (later dev (refRange bref).entry) bm evs = some mid →
    ∀ cls subKey radix bm' off g, AllocArgs cls subKey radix →
      bmapAlloc mid cls subKey radix = .ok bm' off g →
      ¬ (Range.mk (refRange bref).entry off radix).Overlaps (refRange bref)

/-! ## The invariant -/

/-- The iterator is where packing fragments leads into `f`. -/
def Danger (bm : BmapData) (f : Range) : Prop :=
  bm.linear % allocMin = 0 ∧ bm.linear % freemapBlockSize ≠ 0 ∧
    bm.linear / freemapBlockSize = f.off / freemapBlockSize ∧ bm.linear < f.stop

instance (bm : BmapData) (f : Range) : Decidable (Danger bm f) :=
  inferInstanceAs (Decidable (_ ∧ _))

structure Guarded (bm : BmapData) (f : Range) : Prop where
  marked : bm.hi (f.off / freemapBlockSize) = true ∨ bm.lo (f.off / freemapBlockSize) = true
  past : ¬ Danger bm f

section
variable {dev : Dev} {bm bm' mem : BmapData} {f r : Range}

/-- What is allocated from a guarded entry is apart from the fragment. -/
theorem Guarded.apart (h : Guarded bm f) (hp : Placed f.off f.radix)
    (hfr : f.radix < freemapBlockRadix) (hs : AllocSpec bm r.radix bm' r.off) : ¬ Meets r f := by
  intro hmeet
  have hblk := hp.frag_block hfr
  have hgrain := hs.placed.grain
  obtain ⟨h1, h2⟩ := hmeet
  rcases hs.source_cases with ⟨hmid, -, hoff, -, hend⟩ | ⟨hfree, -⟩
  · refine h.past ⟨by rw [← hoff]; exact hgrain, hmid, ?_, by rw [← hoff]; exact h1⟩
    rw [hoff] at h1
    simp only [freemapBlockSize] at *
    omega
  · have hfree' := hfree _ (touches_of_bytes (r := r) (b := f.off / freemapBlockSize)
      (Nat.lt_of_lt_of_le h1 hblk) (by simp only [freemapBlockSize]; omega))
    rcases h.marked with hm | hm
    · rw [hfree'.1] at hm
      cases hm
    · rw [hfree'.2] at hm
      cases hm

/-- An allocation leaves the entry guarded. -/
theorem Guarded.alloc (h : Guarded bm f) (hp : Placed f.off f.radix)
    (hs : AllocSpec bm r.radix bm' r.off) : Guarded bm' f := by
  have hpr := hs.placed
  refine ⟨hs.pair_mono hp.block_lt h.marked, ?_⟩
  rintro ⟨hgrain', hmid', hblk', hlt'⟩
  have hgrain := hpr.grain
  have hpos := hpr.stop_pos
  rcases hs.source_cases with ⟨hmid, -, hoff, hlin, hend⟩ | ⟨hfree, ⟨hfr, hlin⟩ | ⟨-, hlin⟩⟩
  · -- the iterator moved inside its block
    rw [hlin] at hmid' hblk' hlt'
    refine h.past ⟨by rw [← hoff]; exact hgrain, hmid, ?_, by omega⟩
    simp only [freemapBlockSize] at *
    omega
  · -- it moved into a block that was free, which is not the one of the fragment
    rw [hlin] at hmid' hblk' hlt'
    have hend := hpr.frag_block hfr
    have hsame : r.off / freemapBlockSize = f.off / freemapBlockSize := by
      simp only [freemapBlockSize] at *
      omega
    have hfree' := hfree _ (touches_first hpr)
    rw [hsame] at hfree'
    rcases h.marked with hm | hm
    · rw [hfree'.1] at hm
      cases hm
    · rw [hfree'.2] at hm
      cases hm
  · rw [hlin] at hgrain' hmid' hblk' hlt'
    exact h.past ⟨hgrain', hmid', hblk', hlt'⟩

/-- A merge that has seen the fragment guards it, whatever the entry was. -/
theorem guarded_sync (adjFree : BitVec 64) (hp : Placed f.off f.radix) (hpairs : mem.PairsEqual)
    (hmark : mem.hi (f.off / freemapBlockSize) = true) (hlin : f.stop ≤ mem.linear) :
    Guarded (syncAdjust bm mem adjFree).1 f := by
  have hs := syncAdjust_spec bm adjFree hpairs
  refine ⟨.inl ?_, ?_⟩
  · rw [hs.hi _ hp.block_lt, hmark, Bool.true_or]
  · rintro ⟨-, hmid, -, hlt⟩
    rcases hs.linear with ⟨h, -, -⟩ | h | h | h
    · omega
    all_goals
      rw [h] at hmid
      simp only [freemapBlockSize, segSize] at hmid
      omega

end

/-! ## Every run of a guarded entry -/

section
variable {dev : Dev} {bref : SnapRef} {bm : BmapData}

/-- A range of an entry is not clipped at the end of a window of whole entries. -/
theorem window_end {e off size sstop : Nat} (hs : sstop % segSize = 0) (hlt : e * segSize + off < sstop)
    (hin : off + size ≤ segSize) : e * segSize + off + size ≤ sstop := by
  simp only [segSize] at *
  omega

theorem later_guarded {t : BmapData} {ev : Later} (hp : Placed (refRange bref).off (refRange bref).radix)
    (hfr : (refRange bref).radix < freemapBlockRadix)
    (hbeg : dev.allocatorBeg ≤ bref.dataOff / 64 * 64)
    (hend : bref.dataOff / 64 * 64 + 1 <<< (bref.dataOff % 64) ≤ dev.totalSize)
    (h : Guarded bm (refRange bref)) (hok : LaterOk dev bref bm ev)
    (hstep : later dev (refRange bref).entry bm ev = some t) : Guarded t (refRange bref) := by
  cases ev with
  | alloc cls subKey radix =>
      unfold later at hstep
      dsimp only at hstep
      split at hstep
      · cases hstep
      · exact Option.some.inj hstep ▸ h
      · next bm' off g halloc =>
        obtain rfl := Option.some.inj hstep
        have hs : AllocSpec bm (Range.mk 0 off radix).radix bm' (Range.mk 0 off radix).off :=
          bmapAlloc_spec hok.1 hok.2.1 halloc
        exact h.alloc hp hs
  | sync base sstop refs adjFree =>
      unfold later at hstep
      dsimp only at hstep
      split at hstep
      · next cb hscan =>
        obtain rfl := Option.some.inj hstep
        obtain ⟨hmem, hlo, hlt, hstop⟩ := hok
        have hoff : bref.dataOff / 64 * 64 =
            (refRange bref).entry * segSize + (refRange bref).off := by
          simp only [refRange, freemapLevel0Size, segSize]
          omega
        have hinside : (refRange bref).off + 1 <<< (bref.dataOff % 64) ≤ segSize := hp.inside
        have hlt' : (refRange bref).off < (refRange bref).stop := hp.stop_pos
        unfold Range.stop at hlt'
        rw [show (refRange bref).radix = bref.dataOff % 64 from rfl] at hlt'
        have hbase : base ≤ (refRange bref).entry := by
          rw [hoff] at hlo
          simp only [segSize] at hlo hinside
          omega
        -- the fragment is not clipped at the end of the window
        have hin : bref.dataOff / 64 * 64 + 1 <<< (bref.dataOff % 64) ≤ sstop := by
          rcases hstop with hs | hs
          · rw [hoff] at hlt ⊢
            exact window_end hs hlt hinside
          · rw [hs]
            exact hend
        have hmap : bulkfreeScan dev (cbinfoBmapInit dev (base * segSize) sstop) refs = some cb := hscan
        have hpairs := (bulkfreeScan_grows (cbinfoBmapInit_pairs dev _ _) hmap).2
          ((refRange bref).entry - base)
        obtain ⟨hmark, hlin⟩ := bulkfreeScan_marks hp hfr hbase hbeg (by omega)
          (cbinfoBmapInit_pairs dev _ _) rfl hin hmem hmap
        exact guarded_sync adjFree hp hpairs.pairs hmark hlin
      · cases hstep

theorem Guarded.spared (hp : Placed (refRange bref).off (refRange bref).radix)
    (hfr : (refRange bref).radix < freemapBlockRadix)
    (hbeg : dev.allocatorBeg ≤ bref.dataOff / 64 * 64)
    (hend : bref.dataOff / 64 * 64 + 1 <<< (bref.dataOff % 64) ≤ dev.totalSize)
    (h : Guarded bm (refRange bref)) : Spared dev bref bm := by
  intro evs mid hok hrun cls subKey radix bm' off g hargs halloc hover
  have hmid : Guarded mid (refRange bref) :=
    exec_invariant (fun _ _ _ hg ho hs => later_guarded hp hfr hbeg hend hg ho hs) h hok hrun
  have hs : AllocSpec mid (Range.mk (refRange bref).entry off radix).radix bm'
      (Range.mk (refRange bref).entry off radix).off := bmapAlloc_spec hargs.1 hargs.2.1 halloc
  exact hmid.apart hp hfr hs hover.2

/-! ## A run that ends badly -/

/-- One allocation more in front of a run. -/
theorem Spared.after {bm' : BmapData} {cls subKey radix off g : Nat} (h : Spared dev bref bm)
    (hargs : AllocArgs cls subKey radix) (halloc : bmapAlloc bm cls subKey radix = .ok bm' off g) :
    Spared dev bref bm' := by
  intro evs mid hok hrun
  have hstep : later dev (refRange bref).entry bm (.alloc cls subKey radix) = some bm' := by
    unfold later
    dsimp only
    rw [halloc]
  refine h (.alloc cls subKey radix :: evs) mid ⟨hargs, ?_⟩ ?_
  · rw [hstep]
    exact hok
  · rw [exec_cons, hstep]
    exact hrun

/-- The class of an indirect block, which is not indexed by its key. -/
abbrev indirectClass : Nat := brefTypeIndirect <<< 8 ||| pbufRadix

/-- A block of 16KB is taken from the first free pair. -/
theorem bmapAlloc_block {b : Nat} (hb : b < 256) (hhi : bm.hi b = false) (hlo : bm.lo b = false) :
    ∃ bm' x g, bmapAlloc bm indirectClass 0 freemapBlockRadix = .ok bm' (x * freemapBlockSize) g ∧
      ∀ k < x, bm.hi k = true ∨ bm.lo k = true := by
  have hfield := freeField_of_block hb hhi hlo
  have hscan : elementScan bm (bmradixOf freemapBlockRadix) ≠ none := fun h =>
    elementScan_none_iff.mp h hfield
  obtain ⟨⟨i, j⟩, hij⟩ := Option.ne_none_iff_exists'.mp hscan
  have hfirst := elementScan_first (i := i) (j := j) hij
  obtain ⟨-, hj, -, -⟩ := elementScan_spec (by decide) (by decide) hij
  have halloc : bmapAlloc bm indirectClass 0 freemapBlockRadix =
      allocAt bm indirectClass freemapBlockRadix i j := by
    unfold bmapAlloc
    dsimp only
    rw [if_neg, show subKeyStart indirectClass 0 freemapBlockRadix = none from rfl, hij]
    rintro ⟨hfit, hmid, -⟩
    have hsize : 1 <<< freemapBlockRadix = freemapBlockSize := rfl
    rw [hsize] at hfit
    omega
  have hoff : i * bmapIndexSize + j * (freemapBlockSize / 2) =
      (32 * i + j / 2) * freemapBlockSize := by
    simp only [bmapIndexSize, freemapBlockSize]
    omega
  obtain ⟨bm', g, hcommit⟩ : ∃ bm' g, allocAt bm indirectClass freemapBlockRadix i j =
      .ok bm' (i * bmapIndexSize + j * (freemapBlockSize / 2)) g := ⟨_, _, rfl⟩
  exact ⟨bm', 32 * i + j / 2, g, by rw [halloc, hcommit, hoff], hfirst⟩

/-- If the block of the fragment is free, an allocation of 16KB takes a free block before it. -/
theorem Spared.take (h : Spared dev bref bm) (hp : Placed (refRange bref).off (refRange bref).radix)
    (hhi : bm.hi ((refRange bref).off / freemapBlockSize) = false)
    (hlo : bm.lo ((refRange bref).off / freemapBlockSize) = false) :
    ∃ bm' x, Spared dev bref bm' ∧ x < (refRange bref).off / freemapBlockSize ∧
      (∀ k < x, bm.hi k = true ∨ bm.lo k = true) ∧ (bm.hi x = false ∧ bm.lo x = false) ∧
      bm'.hi x = true ∧ ∀ k < 256, k ≠ x → bm'.hi k = bm.hi k ∧ bm'.lo k = bm.lo k := by
  obtain ⟨bm', x, g, halloc, hfirst⟩ := bmapAlloc_block hp.block_lt hhi hlo
  have hargs : AllocArgs indirectClass 0 freemapBlockRadix := by decide
  have hs : AllocSpec bm (Range.mk 0 (x * freemapBlockSize) freemapBlockRadix).radix bm'
      (Range.mk 0 (x * freemapBlockSize) freemapBlockRadix).off :=
    bmapAlloc_spec hargs.1 hargs.2.1 halloc
  have hsize : 1 <<< freemapBlockRadix = freemapBlockSize := rfl
  have htouch : ∀ k, Touches (x * freemapBlockSize) freemapBlockRadix k ↔ k = x := by
    intro k
    unfold Touches
    rw [hsize]
    simp only [freemapBlockSize]
    omega
  have hxlt : x * freemapBlockSize / freemapBlockSize < 256 := hs.placed.block_lt
  rw [Nat.mul_div_cancel _ (by decide)] at hxlt
  have hfree := (hs.source_cases.resolve_left fun hc => absurd hc.2.1 (Nat.lt_irrefl _)).1 x
    ((htouch x).mpr rfl)
  have hle : x ≤ (refRange bref).off / freemapBlockSize := by
    refine Nat.not_lt.mp fun hlt => ?_
    rcases hfirst _ hlt with hm | hm
    · rw [hhi] at hm
      cases hm
    · rw [hlo] at hm
      cases hm
  refine ⟨bm', x, h.after hargs halloc, Nat.lt_of_le_of_ne hle fun hx => ?_, hfirst, hfree,
    (hs.touched hxlt ((htouch x).mpr rfl)).1, fun k hk hkx => ?_⟩
  · -- the block of the fragment itself would be handed out
    have hpos := hp.stop_pos
    refine h [] bm trivial rfl _ _ _ _ _ _ hargs halloc ⟨rfl, ?_, ?_⟩
    · show x * freemapBlockSize < _
      rw [hx]
      simp only [freemapBlockSize] at *
      omega
    · show _ < x * freemapBlockSize + 1 <<< freemapBlockRadix
      rw [hx, hsize]
      simp only [freemapBlockSize]
      omega
  · rw [hs.hi k hk, hs.lo k hk]
    dsimp only
    rw [decide_eq_false (mt (htouch k).mp hkx), Bool.or_false, Bool.or_false]
    exact ⟨rfl, rfl⟩

/-- A block that is free is reached: `n` blocks at most are free before it. -/
theorem Spared.not_free (hp : Placed (refRange bref).off (refRange bref).radix) (n : Nat) :
    ∀ {bm : BmapData}, Spared dev bref bm →
    (∀ k, k + n < (refRange bref).off / freemapBlockSize → bm.hi k = true ∨ bm.lo k = true) →
    bm.hi ((refRange bref).off / freemapBlockSize) = true ∨
      bm.lo ((refRange bref).off / freemapBlockSize) = true := by
  induction n with
  | zero =>
      intro bm h hlow
      by_contra hno
      rw [not_or, Bool.not_eq_true, Bool.not_eq_true] at hno
      obtain ⟨bm', x, -, hlt, -, hfree, -⟩ := h.take hp hno.1 hno.2
      rcases hlow x hlt with hm | hm
      · rw [hfree.1] at hm
        cases hm
      · rw [hfree.2] at hm
        cases hm
  | succ n ih =>
      intro bm h hlow
      by_contra hno
      rw [not_or, Bool.not_eq_true, Bool.not_eq_true] at hno
      obtain ⟨bm', x, h', hlt, hfirst, hfree, hset, hkeep⟩ := h.take hp hno.1 hno.2
      have hblk := hp.block_lt
      have hge : (refRange bref).off / freemapBlockSize ≤ x + (n + 1) := by
        refine Nat.not_lt.mp fun hgt => ?_
        rcases hlow x hgt with hm | hm
        · rw [hfree.1] at hm
          cases hm
        · rw [hfree.2] at hm
          cases hm
      have hdone := ih h' fun k hk => by
        by_cases hkx : k = x
        · rw [hkx]
          exact .inl hset
        · rw [(hkeep k (by omega) hkx).1, (hkeep k (by omega) hkx).2]
          exact hfirst k (by omega)
      rw [(hkeep _ hblk (by omega)).1, (hkeep _ hblk (by omega)).2, hno.1, hno.2] at hdone
      rcases hdone with hm | hm <;> cases hm

/-- A fragment of 1KB is packed at an iterator in danger. -/
theorem Danger.pack {f : Range} (hp : Placed f.off f.radix) (hfr : f.radix < freemapBlockRadix)
    (h : Danger bm f) : ∃ bm' g, bmapAlloc bm indirectClass 0 radixMin = .ok bm' bm.linear g ∧
      bm'.linear = bm.linear + allocMin := by
  obtain ⟨hgrain, hmid, hblk, hlt⟩ := h
  have hend := hp.frag_block hfr
  have hlt' := hp.block_lt
  have hsize : 1 <<< radixMin = allocMin := rfl
  have hroom : bm.linear % freemapBlockSize + allocMin ≤ freemapBlockSize ∧
      bm.linear % freemapBlockSize ≠ 0 ∧ bm.linear < segSize := by
    simp only [freemapBlockSize, allocMin, segSize] at *
    omega
  have hkeep : bm.linear + allocMin ≤ segSize ∧ bm.linear % allocMin = 0 := by
    simp only [freemapBlockSize, allocMin, segSize] at *
    omega
  obtain ⟨bm', g, hcommit, hlin⟩ : ∃ bm' g,
      commitAlloc { bm with linear := bm.linear + allocMin } indirectClass radixMin
        (bm.linear / bmapIndexSize) ((bm.linear / (freemapBlockSize / 2)) &&& 62) bm.linear =
          .ok bm' bm.linear g ∧ bm'.linear = bm.linear + allocMin := ⟨_, _, rfl, rfl⟩
  refine ⟨bm', g, ?_, hlin⟩
  unfold bmapAlloc
  dsimp only
  rw [hsize, if_pos hroom, if_pos hkeep, hcommit]

/-- Fragments of 1KB reach the fragment from an iterator in danger. -/
theorem Spared.not_danger (hp : Placed (refRange bref).off (refRange bref).radix)
    (hfr : (refRange bref).radix < freemapBlockRadix) (n : Nat) :
    ∀ {bm : BmapData}, Spared dev bref bm → (refRange bref).off < bm.linear + n →
      ¬ Danger bm (refRange bref) := by
  induction n with
  | zero =>
      intro bm h hn hd
      obtain ⟨bm', g, halloc, -⟩ := hd.pack hp hfr
      refine h [] bm trivial rfl _ _ _ _ _ _ (by decide) halloc ⟨rfl, hd.2.2.2, ?_⟩
      exact Nat.lt_of_lt_of_le hn (Nat.le_add_right ..)
  | succ n ih =>
      intro bm h hn hd
      obtain ⟨bm', g, halloc, hlin⟩ := hd.pack hp hfr
      have hargs : AllocArgs indirectClass 0 radixMin := by decide
      have hsize : 1 <<< radixMin = allocMin := rfl
      by_cases hreach : (refRange bref).off < bm.linear + allocMin
      · refine h [] bm trivial rfl _ _ _ _ _ _ hargs halloc ⟨rfl, hd.2.2.2, ?_⟩
        show _ < bm.linear + 1 <<< radixMin
        rw [hsize]
        exact hreach
      · refine ih (h.after hargs halloc) (by rw [hlin]; simp only [allocMin]; omega) ?_
        obtain ⟨hgrain, hmid, hblk, hlt⟩ := hd
        have hgrain' := hp.grain
        have hpos := hp.stop_pos
        unfold Danger
        rw [hlin]
        simp only [freemapBlockSize, allocMin] at *
        omega

/-- **A fragment is spared by all that comes later if and only if it is guarded.** -/
theorem spared_iff (hp : Placed (refRange bref).off (refRange bref).radix)
    (hfr : (refRange bref).radix < freemapBlockRadix)
    (hbeg : dev.allocatorBeg ≤ bref.dataOff / 64 * 64)
    (hend : bref.dataOff / 64 * 64 + 1 <<< (bref.dataOff % 64) ≤ dev.totalSize) :
    Spared dev bref bm ↔ Guarded bm (refRange bref) := by
  constructor
  · intro h
    exact ⟨h.not_free hp ((refRange bref).off / freemapBlockSize) (fun k hk => by omega),
      h.not_danger hp hfr ((refRange bref).off + 1) (by omega)⟩
  · intro h
    exact h.spared hp hfr hbeg hend

end

/-! ## The entry that recovery leaves -/

section
variable {dev : Dev} {s : State} {bref : SnapRef}

/-- The claim: after the recovery of the fragment nothing that is allocated has bytes of it. -/
def Recovered (dev : Dev) (s : State) (bref : SnapRef) : Prop :=
  ∃ t, freemapAdjust dev s true bref = some t ∧
    Spared dev bref (t.freemap (refRange bref).entry)

/-- When the adjustment is enough: it marks the block of the fragment, or that was marked, and
it changes something, or the iterator was in no danger. -/
def Shielded (s : State) (bref : SnapRef) : Prop :=
  (bref.dataOff / 64 * 64 / freemapBlockSize % 32 < 16 ∨
      pairOf s.freemap (bref.dataOff / 64 * 64 / freemapBlockSize) ≠ (false, false)) ∧
    (pairOf s.freemap (walkStart bref) = (true, true) →
      ¬ Danger (s.freemap (refRange bref).entry) (refRange bref))

instance (s : State) (bref : SnapRef) : Decidable (Shielded s bref) :=
  inferInstanceAs (Decidable (_ ∧ _))

/-- The iterator is reset if the pair was not `11`. -/
theorem recoverPair_linear {cls i bit : Nat} {bm : BmapData} (hi : i < 8) (hbit : bit % 2 = 0)
    (hlt : bit + 2 ≤ 64) :
    (recoverPair cls i ⟨bm, false, 0⟩ bit).bm.linear =
      if bm.hi (32 * i + bit / 2) = true ∧ bm.lo (32 * i + bit / 2) = true then bm.linear else 0 := by
  have hdiv : (32 * i + bit / 2) / 32 = i := by omega
  have hmod : (32 * i + bit / 2) % 32 = bit / 2 := by omega
  have hpair : bm.elem i &&& 3#64 <<< bit = 3#64 <<< bit ↔
      bm.hi (32 * i + bit / 2) = true ∧ bm.lo (32 * i + bit / 2) = true := by
    unfold BmapData.hi BmapData.lo
    rw [hdiv, hmod, three_eq_fieldMask, and_field_eq_field_iff hlt]
    constructor
    · intro h
      exact ⟨h _ (by omega) (by omega), h _ (by omega) (by omega)⟩
    · rintro ⟨h1, h2⟩ k hk1 hk2
      by_cases hk : k = bit
      · rwa [hk, ← show 2 * (bit / 2) = bit from by omega]
      · rwa [show k = 2 * (bit / 2) + 1 from by omega]
  unfold recoverPair
  dsimp only
  by_cases hall : bm.elem i &&& 3#64 <<< bit = 3#64 <<< bit
  · rw [if_pos hall, if_pos (hpair.mp hall)]
  · rw [if_neg hall, if_neg (mt hpair.mpr hall)]
    rfl

/-- What the adjustment of a fragment makes of its entry. -/
theorem adjust_fragment (hp : Placed (refRange bref).off (refRange bref).radix)
    (hfr : (refRange bref).radix < freemapBlockRadix)
    (hbeg : dev.allocatorBeg ≤ bref.dataOff / 64 * 64)
    (hseg : zoneSeg ≤ bref.dataOff / 64 * 64 % zoneBytes)
    (hleaf : s.created (leafOf (bref.dataOff / 64 * 64 / segSize)) = true) :
    ∃ t, freemapAdjust dev s true bref = some t ∧
      (Guarded (t.freemap (refRange bref).entry) (refRange bref) ↔ Shielded s bref) := by
  have hradix : bref.dataOff % 64 ≠ 0 ∧ bref.dataOff % 64 ≤ radixMax := by
    have h1 : radixMin ≤ bref.dataOff % 64 := hp.radix_lo
    have h2 : bref.dataOff % 64 ≤ radixMax := hp.radix_hi
    simp only [radixMin] at h1
    exact ⟨by omega, h2⟩
  have hcount : (if bref.dataOff % 64 < freemapBlockRadix then 1
      else 1 <<< (bref.dataOff % 64 - freemapBlockRadix)) = 1 := if_pos hfr
  unfold freemapAdjust
  dsimp only
  rw [if_neg (not_or.mpr ⟨hradix.1, Nat.not_lt.mpr hradix.2⟩), if_neg (Nat.not_lt.mpr hbeg),
    if_neg (Nat.not_lt.mpr hseg), if_neg (by rw [hleaf]; nofun), if_neg nofun, hcount]
  refine ⟨_, rfl, ?_⟩
  -- the block, and the one that is looked at, by their numbers in the entry
  have hblk : (refRange bref).off / freemapBlockSize =
      32 * (bref.dataOff / 64 * 64 / bmapIndexSize % 8) +
        bref.dataOff / 64 * 64 / freemapBlockSize % 32 := by
    simp only [refRange, freemapLevel0Size, freemapBlockSize, bmapIndexSize]
    omega
  have hown : bref.dataOff / 64 * 64 / freemapBlockSize / 256 = (refRange bref).entry ∧
      bref.dataOff / 64 * 64 / freemapBlockSize % 256 = (refRange bref).off / freemapBlockSize := by
    simp only [refRange, freemapLevel0Size, freemapBlockSize]
    omega
  have hwalk : walkStart bref / 256 = (refRange bref).entry ∧
      walkStart bref % 256 = 32 * (bref.dataOff / 64 * 64 / bmapIndexSize % 8) +
        bref.dataOff / 64 * 64 / freemapBlockSize % 16 * 2 / 2 := by
    unfold walkStart
    simp only [refRange, freemapLevel0Size, freemapBlockSize, bmapIndexSize]
    omega
  unfold Shielded pairOf
  rw [hown.1, hown.2, hwalk.1, hwalk.2]
  have he : bref.dataOff / 64 * 64 / segSize = (refRange bref).entry := rfl
  dsimp only
  rw [he, Function.update_self]
  unfold recoverLoop recoverLoop
  generalize s.freemap (refRange bref).entry = bm
  have hi : bref.dataOff / 64 * 64 / bmapIndexSize % 8 < 8 := Nat.mod_lt _ (by decide)
  have hbits := @recoverPair_bits (bref.type <<< 8 ||| pbufRadix) _ ⟨bm, false, 0⟩
    ((refRange bref).off / freemapBlockSize) (bref.dataOff / 64 * 64 / freemapBlockSize % 16 * 2)
    hi hp.block_lt (by omega) (by omega)
  have hlin := @recoverPair_linear (bref.type <<< 8 ||| pbufRadix) _
    (bref.dataOff / 64 * 64 / freemapBlockSize % 16 * 2) bm hi (by omega) (by omega)
  have hhalf : (refRange bref).off / freemapBlockSize =
      32 * (bref.dataOff / 64 * 64 / bmapIndexSize % 8) +
        bref.dataOff / 64 * 64 / freemapBlockSize % 16 * 2 / 2 ↔
      bref.dataOff / 64 * 64 / freemapBlockSize % 32 < 16 := by
    rw [hblk]
    omega
  generalize recoverPair _ _ _ _ = r at hbits hlin
  have hdanger : ¬ Danger r.bm (refRange bref) ↔
      (bm.hi (32 * (bref.dataOff / 64 * 64 / bmapIndexSize % 8) +
          bref.dataOff / 64 * 64 / freemapBlockSize % 16 * 2 / 2) = true ∧
        bm.lo (32 * (bref.dataOff / 64 * 64 / bmapIndexSize % 8) +
          bref.dataOff / 64 * 64 / freemapBlockSize % 16 * 2 / 2) = true →
        ¬ Danger bm (refRange bref)) := by
    unfold Danger
    rw [hlin]
    split
    · next hall => exact ⟨fun h _ => h, fun h => h hall⟩
    · next hall => exact ⟨fun _ h => absurd h hall, fun _ h => h.2.1 rfl⟩
  have hmarked : (r.bm.hi ((refRange bref).off / freemapBlockSize) = true ∨
        r.bm.lo ((refRange bref).off / freemapBlockSize) = true) ↔
      bref.dataOff / 64 * 64 / freemapBlockSize % 32 < 16 ∨
        (bm.hi ((refRange bref).off / freemapBlockSize),
          bm.lo ((refRange bref).off / freemapBlockSize)) ≠ (false, false) := by
    rw [hbits.1, hbits.2, ← hhalf]
    cases bm.hi ((refRange bref).off / freemapBlockSize) <;>
      cases bm.lo ((refRange bref).off / freemapBlockSize) <;> simp
  constructor
  · intro h
    exact ⟨hmarked.mp h.marked, fun hall => hdanger.mp h.past (Prod.mk.inj hall)⟩
  · rintro ⟨h1, h2⟩
    exact ⟨hmarked.mpr h1, hdanger.mpr fun hall => h2 (Prod.ext hall.1 hall.2)⟩

/-- **Recovery of a fragment.**  It is never handed out again if and only if its block was marked
or is looked for in the right place, and the pair that was looked at was not `11` or the iterator
in no danger. -/
theorem recovered_iff (hp : Placed (refRange bref).off (refRange bref).radix)
    (hfr : (refRange bref).radix < freemapBlockRadix)
    (hbeg : dev.allocatorBeg ≤ bref.dataOff / 64 * 64)
    (hend : bref.dataOff / 64 * 64 + 1 <<< (bref.dataOff % 64) ≤ dev.totalSize)
    (hseg : zoneSeg ≤ bref.dataOff / 64 * 64 % zoneBytes)
    (hleaf : s.created (leafOf (bref.dataOff / 64 * 64 / segSize)) = true) :
    Recovered dev s bref ↔ Shielded s bref := by
  obtain ⟨t, ht, hiff⟩ := adjust_fragment hp hfr hbeg hseg hleaf
  rw [← hiff, ← spared_iff hp hfr hbeg hend]
  constructor
  · rintro ⟨t', ht', hspared⟩
    rw [ht] at ht'
    obtain rfl := Option.some.inj ht'
    exact hspared
  · exact fun h => ⟨t, ht, h⟩

end

/-- The second KB of the block at 16MB. -/
def secondKb : SnapRef := ⟨brefTypeDirent, 16778250⟩

theorem secondKb_placed : Placed (refRange secondKb).off (refRange secondKb).radix :=
  ⟨by decide, by decide, by decide, by decide, by decide, by decide⟩

/-- In a leaf that does not know of the block. -/
theorem recovered_free : Recovered ⟨8388608, 1073741824⟩ oneLeaf secondKb :=
  (recovered_iff secondKb_placed (by decide) (by decide) (by decide) (by decide) (by decide)).mpr
    (by decide)

/-- The leaf as it was between two fragments of the block: the first KB is handed out. -/
def staleLeaf : State :=
  { oneLeaf with
    freemap := Function.update oneLeaf.freemap 4
      { freeBmap.orElem 0 3#64 with
        linear := 1024
        cls := indirectClass
        avail := BitVec.ofNat 32 (freemapLevel0Size - freemapBlockSize) } }

/-- The block is `11` already, the iterator stays, and the second KB is handed out once more. -/
theorem recovered_stale : ¬ Recovered ⟨8388608, 1073741824⟩ staleLeaf secondKb := by
  rw [recovered_iff secondKb_placed (by decide) (by decide) (by decide) (by decide) (by decide)]
  decide

end Hammer2.Account
