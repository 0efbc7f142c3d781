/-
# `Hammer2.Freemap.Entry` — the invariant of one bitmap entry

An entry is looked at together with the ranges *held* in it: the ranges still
referenced and, while a bulkfree pass has not merged the entry yet, the ranges
its snapshot names.  `Held` is what protects them:

    marked    their blocks have the high bit
    packed    an iterator that is mid-block has no held byte between it and
              the end of its block
    behind,   what keeps first fit from coming back to the block before the
    below     iterator (a boundary iterator has `11` behind it, a mid-block
              one a nonzero pair)

`Recent` says more about the ranges handed out since the previous pass ended,
which the snapshot of the running pass may not name: their blocks are `11`, and
a fragment among them is never in the block a boundary iterator points at nor
in the block after a mid-block iterator.  This is the fact that makes raising
the iterator inside "its" block safe when it stands exactly at the start of
that block.
-/
import Hammer2.Freemap.Window

namespace Hammer2

/-! ## Ranges and blocks -/

/-- Two ranges of one entry that have a byte in common. -/
def Meets (r r' : Range) : Prop := r.off < r'.stop ∧ r'.off < r.stop

/-- Ranges that meet touch a common block. -/
theorem Meets.block {r r' : Range} (hp : Placed r.off r.radix) (hp' : Placed r'.off r'.radix)
    (h : Meets r r') : ∃ b < 256, Touches r.off r.radix b ∧ Touches r'.off r'.radix b := by
  obtain ⟨h1, h2⟩ := h
  have hi := hp.inside
  have hi' := hp'.inside
  have hpos := (radix_cases hp.radix_lo hp.radix_hi).1
  have hpos' := (radix_cases hp'.radix_lo hp'.radix_hi).1
  unfold Range.stop at h1 h2
  simp only [segSize] at hi hi'
  refine ⟨max r.off r'.off / freemapBlockSize, ?_, ⟨?_, ?_⟩, ?_, ?_⟩ <;>
    simp only [freemapBlockSize] <;> omega

/-- A fragment lies in one block. -/
theorem Placed.frag_block {r : Range} (hp : Placed r.off r.radix)
    (hfr : r.radix < freemapBlockRadix) :
    r.stop ≤ (r.off / freemapBlockSize + 1) * freemapBlockSize := by
  have := hp.frag hfr
  unfold Range.stop
  simp only [freemapBlockSize] at *
  omega

/-- A whole-block range begins and ends on block boundaries. -/
theorem Placed.whole {r : Range} (hp : Placed r.off r.radix)
    (hfr : ¬ r.radix < freemapBlockRadix) :
    r.off % freemapBlockSize = 0 ∧ r.stop % freemapBlockSize = 0 := by
  have hb := hp.block (Nat.not_lt.mp hfr)
  obtain ⟨h1, h2, h3⟩ := radix_cases hp.radix_lo hp.radix_hi
  unfold Range.stop
  simp only [freemapBlockSize, freemapBlockRadix] at *
  rcases h3 with ⟨hr, -⟩ | ⟨-, hs, hm⟩
  · exact absurd hr hfr
  · rw [hs]
    rcases hm with hm | hm | hm <;> rw [hm] <;> omega

theorem Placed.stop_pos {r : Range} (hp : Placed r.off r.radix) : r.off < r.stop := by
  have := (radix_cases hp.radix_lo hp.radix_hi).1
  unfold Range.stop
  omega

theorem Placed.stop_grain {r : Range} (hp : Placed r.off r.radix) : r.stop % allocMin = 0 := by
  have hg := hp.grain
  have hsz := (radix_cases hp.radix_lo hp.radix_hi).2.1
  unfold Range.stop
  simp only [allocMin] at *
  omega

/-- A range that has bytes in block `b` touches it. -/
theorem touches_of_bytes {r : Range} {b : Nat}
    (h1 : r.off < (b + 1) * freemapBlockSize) (h2 : b * freemapBlockSize < r.stop) :
    Touches r.off r.radix b := by
  unfold Touches
  unfold Range.stop at h2
  simp only [freemapBlockSize] at *
  omega

/-- A whole-block range with bytes in a block contains the block, and so meets
every fragment of it. -/
theorem Placed.whole_meets {r f : Range} {b : Nat} (hp : Placed r.off r.radix)
    (hfr : ¬ r.radix < freemapBlockRadix) (hpf : Placed f.off f.radix)
    (hf : f.radix < freemapBlockRadix) (hfb : f.off / freemapBlockSize = b)
    (h1 : r.off < (b + 1) * freemapBlockSize) (h2 : b * freemapBlockSize < r.stop) :
    Meets r f := by
  obtain ⟨ha, hs⟩ := hp.whole hfr
  have hblk := hpf.frag_block hf
  have hpos := hpf.stop_pos
  unfold Meets
  simp only [freemapBlockSize] at *
  omega

/-! ## The invariant -/

/-- What protects the ranges `H` held in the entry. -/
structure Held (bm : BmapData) (H : Range → Prop) : Prop where
  placed : ∀ r, H r → Placed r.off r.radix
  apart : ∀ r r', H r → H r' → r ≠ r' → ¬ Meets r r'
  marked : ∀ r, H r → ∀ b < 256, Touches r.off r.radix b → bm.hi b = true
  packed : bm.linear % freemapBlockSize ≠ 0 → ∀ r, H r →
    r.off < (bm.linear / freemapBlockSize + 1) * freemapBlockSize → r.stop ≤ bm.linear
  midMarked : bm.linear % freemapBlockSize ≠ 0 → bm.hi (bm.linear / freemapBlockSize) = true
  below : bm.linear % freemapBlockSize ≠ 0 → 0 < bm.linear / freemapBlockSize →
    bm.hi (bm.linear / freemapBlockSize - 1) = true ∨
      bm.lo (bm.linear / freemapBlockSize - 1) = true
  behind : bm.linear % freemapBlockSize = 0 → 0 < bm.linear → bm.linear < segSize →
    bm.hi (bm.linear / freemapBlockSize - 1) = true ∧
      bm.lo (bm.linear / freemapBlockSize - 1) = true
  linear_le : bm.linear ≤ segSize
  grain : bm.linear % allocMin = 0

/-- What holds besides of the ranges `R` handed out since the previous pass
ended, in an entry the running pass has not merged yet. -/
structure Recent (bm : BmapData) (R : Range → Prop) : Prop where
  marked : ∀ r, R r → ∀ b < 256, Touches r.off r.radix b → bm.lo b = true
  prev : ∀ r, R r → r.radix < freemapBlockRadix → 0 < r.off / freemapBlockSize →
    bm.hi (r.off / freemapBlockSize - 1) = true ∨ bm.lo (r.off / freemapBlockSize - 1) = true
  next : bm.linear % freemapBlockSize ≠ 0 → ∀ r, R r → r.radix < freemapBlockRadix →
    r.off / freemapBlockSize ≠ bm.linear / freemapBlockSize + 1
  boundary : bm.linear % freemapBlockSize = 0 → ∀ r, R r → r.radix < freemapBlockRadix →
    r.off / freemapBlockSize ≠ bm.linear / freemapBlockSize

theorem Held.mono {bm : BmapData} {H H' : Range → Prop} (h : Held bm H)
    (hsub : ∀ r, H' r → H r) : Held bm H' :=
  { h with
    placed := fun r hr => h.placed r (hsub r hr)
    apart := fun r r' hr hr' => h.apart r r' (hsub r hr) (hsub r' hr')
    marked := fun r hr => h.marked r (hsub r hr)
    packed := fun hm r hr => h.packed hm r (hsub r hr) }

theorem Recent.mono {bm : BmapData} {R R' : Range → Prop} (h : Recent bm R)
    (hsub : ∀ r, R' r → R r) : Recent bm R' where
  marked r hr := h.marked r (hsub r hr)
  prev r hr := h.prev r (hsub r hr)
  next hm r hr := h.next hm r (hsub r hr)
  boundary hm r hr := h.boundary hm r (hsub r hr)

theorem recent_none (bm : BmapData) : Recent bm (fun _ => False) where
  marked _ hr := hr.elim
  prev _ hr := hr.elim
  next _ _ hr := hr.elim
  boundary _ _ hr := hr.elim

theorem freeBmap_held : Held freeBmap (fun _ => False) where
  placed _ hr := hr.elim
  apart _ _ hr := hr.elim
  marked _ hr := hr.elim
  packed _ _ hr := hr.elim
  midMarked h := absurd rfl h
  below h := absurd rfl h
  behind _ h := absurd h (Nat.lt_irrefl 0)
  linear_le := Nat.zero_le _
  grain := rfl

/-! ## Allocation -/

section Alloc

variable {bm bm' : BmapData} {H R : Range → Prop} {r : Range}

/-- A packed fragment begins at the iterator and stays in its block. -/
theorem AllocSpec.source_cases (hs : AllocSpec bm r.radix bm' r.off) :
    (bm.linear % freemapBlockSize ≠ 0 ∧ r.radix < freemapBlockRadix ∧ r.off = bm.linear ∧
        bm'.linear = r.stop ∧
        r.stop ≤ (bm.linear / freemapBlockSize + 1) * freemapBlockSize) ∨
      ((∀ b, Touches r.off r.radix b → bm.hi b = false ∧ bm.lo b = false) ∧
        (r.radix < freemapBlockRadix ∧ bm'.linear = r.stop ∨
          ¬ r.radix < freemapBlockRadix ∧ bm'.linear = bm.linear)) := by
  have hp := hs.placed
  obtain ⟨h1, h2, h3⟩ := radix_cases hp.radix_lo hp.radix_hi
  rcases hs.source with ⟨hmid, hoff, hlin⟩ | ⟨hfree, hlin⟩
  · have hfr : r.radix < freemapBlockRadix := by
      refine Nat.not_le.mp fun hge => ?_
      have := hp.block hge
      rw [hoff] at this
      exact hmid this
    have hblk := hp.frag_block hfr
    rw [hoff] at hblk
    exact Or.inl ⟨hmid, hfr, hoff, hlin, hblk⟩
  · refine Or.inr ⟨hfree, ?_⟩
    simp only [freemapBlockRadix, freemapBlockSize] at *
    rcases h3 with ⟨hr, hsz, -⟩ | ⟨hr, hsz, hm⟩
    · left
      rw [if_pos (by omega)] at hlin
      exact ⟨hr, hlin⟩
    · right
      rw [if_neg (by rw [hsz]; rcases hm with hm | hm | hm <;> rw [hm] <;> decide)] at hlin
      exact ⟨by omega, hlin⟩

/-- The first block of a range is touched. -/
theorem touches_first (hp : Placed r.off r.radix) :
    Touches r.off r.radix (r.off / freemapBlockSize) := by
  have := hp.stop_pos
  refine touches_of_bytes ?_ ?_ <;> simp only [freemapBlockSize] <;> omega

theorem Placed.block_lt (hp : Placed r.off r.radix) : r.off / freemapBlockSize < 256 := by
  have h1 := hp.stop_pos
  have h2 := hp.inside
  unfold Range.stop at h1
  simp only [segSize, freemapBlockSize] at *
  omega

/-- **The allocator never hands out held bytes.** -/
theorem Held.alloc_apart (h : Held bm H) (hs : AllocSpec bm r.radix bm' r.off) :
    ∀ x, H x → ¬ Meets r x := by
  intro x hx hmeet
  have hp := hs.placed
  rcases hs.source_cases with ⟨hmid, -, hoff, -, hblk⟩ | ⟨hfree, -⟩
  · have := h.packed hmid x hx (by have := hmeet.2; omega)
    have := hmeet.1
    omega
  · obtain ⟨b, hb, ht, htx⟩ := hmeet.block hp (h.placed x hx)
    have hm := h.marked x hx b hb htx
    rw [(hfree b ht).1] at hm
    cases hm

/-- A block that was taken stays taken. -/
theorem AllocSpec.hi_mono (hs : AllocSpec bm r.radix bm' r.off) {b : Nat} (hb : b < 256)
    (h : bm.hi b = true) : bm'.hi b = true := by
  rw [hs.hi b hb, h, Bool.true_or]

theorem AllocSpec.lo_mono (hs : AllocSpec bm r.radix bm' r.off) {b : Nat} (hb : b < 256)
    (h : bm.lo b = true) : bm'.lo b = true := by
  rw [hs.lo b hb, h, Bool.true_or]

theorem AllocSpec.pair_mono (hs : AllocSpec bm r.radix bm' r.off) {b : Nat} (hb : b < 256)
    (h : bm.hi b = true ∨ bm.lo b = true) : bm'.hi b = true ∨ bm'.lo b = true :=
  h.imp (hs.hi_mono hb) (hs.lo_mono hb)

/-- A block the allocation touches is `11` afterwards. -/
theorem AllocSpec.touched (hs : AllocSpec bm r.radix bm' r.off) {b : Nat} (hb : b < 256)
    (ht : Touches r.off r.radix b) : bm'.hi b = true ∧ bm'.lo b = true := by
  rw [hs.hi b hb, hs.lo b hb, decide_eq_true ht, Bool.or_true, Bool.or_true]
  exact ⟨rfl, rfl⟩

/-- Where the iterator of the entry can be after an allocation, told by the
block the fragment is in. -/
theorem AllocSpec.frag_linear (hp : Placed r.off r.radix) (hfr : r.radix < freemapBlockRadix)
    (hlin : bm'.linear = r.stop) :
    (bm'.linear % freemapBlockSize ≠ 0 →
      bm'.linear / freemapBlockSize = r.off / freemapBlockSize) ∧
    (bm'.linear % freemapBlockSize = 0 →
      bm'.linear / freemapBlockSize = r.off / freemapBlockSize + 1) := by
  have hblk := hp.frag_block hfr
  have hpos := hp.stop_pos
  rw [hlin]
  simp only [freemapBlockSize] at *
  constructor <;> intro <;> omega

/-- **An allocation keeps the held ranges protected**, the new one among them. -/
theorem Held.alloc (h : Held bm H) (hs : AllocSpec bm r.radix bm' r.off)
    (hff : r.radix < freemapBlockRadix → (bm.linear % freemapBlockSize ≠ 0 ∧ r.off = bm.linear) ∨
      ∀ b < r.off / freemapBlockSize, bm.hi b = true ∨ bm.lo b = true) :
    Held bm' (fun x => x = r ∨ H x) := by
  have hp := hs.placed
  have hin := hp.inside
  have hblt := hp.block_lt
  have hle := h.linear_le
  have happart := h.alloc_apart hs
  have hfirst := touches_first hp
  constructor
  case placed =>
    rintro x (rfl | hx)
    · exact hp
    · exact h.placed x hx
  case apart =>
    rintro x y (rfl | hx) (rfl | hy) hne
    · exact absurd rfl hne
    · exact happart y hy
    · exact fun hm => happart x hx ⟨hm.2, hm.1⟩
    · exact h.apart x y hx hy hne
  case marked =>
    rintro x (rfl | hx) b hb ht
    · exact (hs.touched hb ht).1
    · exact hs.hi_mono hb (h.marked x hx b hb ht)
  case packed =>
    intro hmid'
    rcases hs.source_cases with ⟨hmid, hfr, hoff, hlin, hblk⟩ |
      ⟨hfree, ⟨hfr, hlin⟩ | ⟨hfr, hlin⟩⟩
    · have hdiv := (AllocSpec.frag_linear hp hfr hlin).1 hmid'
      rw [hdiv, hoff, hlin]
      rintro x (rfl | hx) hlt
      · exact Nat.le_refl _
      · have := h.packed hmid x hx hlt
        have := hp.stop_pos
        omega
    · have hdiv := (AllocSpec.frag_linear hp hfr hlin).1 hmid'
      rw [hdiv, hlin]
      rintro x (rfl | hx) hlt
      · exact Nat.le_refl _
      · -- The block was unallocated, so no held range has bytes in it.
        refine Nat.not_lt.mp fun hgt => ?_
        have hpos := hp.stop_pos
        have hm := h.marked x hx _ hblt (touches_of_bytes hlt (by
          simp only [freemapBlockSize]; omega))
        rw [(hfree _ hfirst).1] at hm
        cases hm
    · rw [hlin] at hmid' ⊢
      rintro x (rfl | hx) hlt
      · refine Nat.not_lt.mp fun hgt => ?_
        have hm := h.midMarked hmid'
        rw [(hfree _ (touches_of_bytes hlt (by simp only [freemapBlockSize] at *; omega))).1] at hm
        cases hm
      · exact h.packed hmid' x hx hlt
  case midMarked =>
    intro hmid'
    rcases hs.source_cases with ⟨hmid, hfr, hoff, hlin, hblk⟩ |
      ⟨hfree, ⟨hfr, hlin⟩ | ⟨hfr, hlin⟩⟩
    · rw [(AllocSpec.frag_linear hp hfr hlin).1 hmid']
      exact (hs.touched hblt hfirst).1
    · rw [(AllocSpec.frag_linear hp hfr hlin).1 hmid']
      exact (hs.touched hblt hfirst).1
    · rw [hlin] at hmid' ⊢
      refine hs.hi_mono ?_ (h.midMarked hmid')
      simp only [freemapBlockSize, segSize] at *
      omega
  case below =>
    intro hmid' hpos
    rcases hs.source_cases with ⟨hmid, hfr, hoff, hlin, hblk⟩ |
      ⟨hfree, ⟨hfr, hlin⟩ | ⟨hfr, hlin⟩⟩
    · rw [(AllocSpec.frag_linear hp hfr hlin).1 hmid'] at hpos ⊢
      rw [hoff] at hpos hblt ⊢
      exact hs.pair_mono (by omega) (h.below hmid hpos)
    · rw [(AllocSpec.frag_linear hp hfr hlin).1 hmid'] at hpos ⊢
      rcases hff hfr with ⟨hmid, hoff⟩ | hlow
      · have hm := h.midMarked hmid
        rw [← hoff, (hfree _ hfirst).1] at hm
        cases hm
      · exact hs.pair_mono (by omega) (hlow _ (by omega))
    · rw [hlin] at hmid' hpos ⊢
      refine hs.pair_mono ?_ (h.below hmid' hpos)
      simp only [freemapBlockSize, segSize] at *
      omega
  case behind =>
    intro hal hpos hlt
    rcases hs.source_cases with ⟨hmid, hfr, hoff, hlin, hblk⟩ |
      ⟨hfree, ⟨hfr, hlin⟩ | ⟨hfr, hlin⟩⟩
    · rw [(AllocSpec.frag_linear hp hfr hlin).2 hal]
      exact hs.touched hblt hfirst
    · rw [(AllocSpec.frag_linear hp hfr hlin).2 hal]
      exact hs.touched hblt hfirst
    · rw [hlin] at hal hpos hlt ⊢
      have hb : bm.linear / freemapBlockSize - 1 < 256 := by
        simp only [freemapBlockSize, segSize] at *
        omega
      obtain ⟨h1, h2⟩ := h.behind hal hpos hlt
      exact ⟨hs.hi_mono hb h1, hs.lo_mono hb h2⟩
  case linear_le =>
    rcases hs.source_cases with ⟨-, -, -, hlin, -⟩ | ⟨-, ⟨-, hlin⟩ | ⟨-, hlin⟩⟩
    · rw [hlin]; exact hin
    · rw [hlin]; exact hin
    · rw [hlin]; exact hle
  case grain =>
    rcases hs.source_cases with ⟨-, -, -, hlin, -⟩ | ⟨-, ⟨-, hlin⟩ | ⟨-, hlin⟩⟩
    · rw [hlin]; exact hp.stop_grain
    · rw [hlin]; exact hp.stop_grain
    · rw [hlin]; exact h.grain

/-- **An allocation keeps the recent ranges recent**, the new one among them. -/
theorem Recent.alloc (hr : Recent bm R) (h : Held bm H)
    (hs : AllocSpec bm r.radix bm' r.off)
    (hff : r.radix < freemapBlockRadix → (bm.linear % freemapBlockSize ≠ 0 ∧ r.off = bm.linear) ∨
      ∀ b < r.off / freemapBlockSize, bm.hi b = true ∨ bm.lo b = true)
    (hplaced : ∀ x, R x → Placed x.off x.radix) :
    Recent bm' (fun x => x = r ∨ R x) := by
  have hp := hs.placed
  have hblt := hp.block_lt
  have hfirst := touches_first hp
  -- A recent fragment right after a block that was unallocated is impossible.
  have hafter : (∀ b, Touches r.off r.radix b → bm.hi b = false ∧ bm.lo b = false) →
      ∀ x, R x → x.radix < freemapBlockRadix →
        x.off / freemapBlockSize ≠ r.off / freemapBlockSize + 1 := by
    intro hfree x hx hxf heq
    have hprev := hr.prev x hx hxf (by rw [heq]; exact Nat.succ_pos _)
    rw [heq, Nat.add_sub_cancel, (hfree _ hfirst).1, (hfree _ hfirst).2] at hprev
    rcases hprev with hprev | hprev <;> cases hprev
  constructor
  case marked =>
    rintro x (rfl | hx) b hb ht
    · exact (hs.touched hb ht).2
    · exact hs.lo_mono hb (hr.marked x hx b hb ht)
  case prev =>
    rintro x (rfl | hx) hxf hpos
    · rcases hff hxf with ⟨hmid, hoff⟩ | hlow
      · rw [hoff] at hpos hblt ⊢
        exact hs.pair_mono (by omega) (h.below hmid hpos)
      · exact hs.pair_mono (by omega) (hlow _ (by omega))
    · have := (hplaced x hx).block_lt
      exact hs.pair_mono (by omega) (hr.prev x hx hxf hpos)
  case next =>
    intro hmid'
    rcases hs.source_cases with ⟨hmid, hfr, hoff, hlin, hblk⟩ |
      ⟨hfree, ⟨hfr, hlin⟩ | ⟨hfr, hlin⟩⟩
    · rw [(AllocSpec.frag_linear hp hfr hlin).1 hmid']
      rintro x (rfl | hx) hxf
      · omega
      · rw [hoff]
        exact hr.next hmid x hx hxf
    · rw [(AllocSpec.frag_linear hp hfr hlin).1 hmid']
      rintro x (rfl | hx) hxf
      · omega
      · exact hafter hfree x hx hxf
    · rw [hlin] at hmid' ⊢
      rintro x (rfl | hx) hxf
      · exact absurd hxf hfr
      · exact hr.next hmid' x hx hxf
  case boundary =>
    intro hal
    rcases hs.source_cases with ⟨hmid, hfr, hoff, hlin, hblk⟩ |
      ⟨hfree, ⟨hfr, hlin⟩ | ⟨hfr, hlin⟩⟩
    · rw [(AllocSpec.frag_linear hp hfr hlin).2 hal]
      rintro x (rfl | hx) hxf
      · omega
      · rw [hoff]
        exact hr.next hmid x hx hxf
    · rw [(AllocSpec.frag_linear hp hfr hlin).2 hal]
      rintro x (rfl | hx) hxf
      · omega
      · exact hafter hfree x hx hxf
    · rw [hlin] at hal ⊢
      rintro x (rfl | hx) hxf
      · exact absurd hxf hfr
      · exact hr.boundary hal x hx hxf

end Alloc

/-! ## The merge -/

section Sync

variable {bm mem : BmapData} {H P R : Range → Prop} {e : Nat}

/-- An iterator that may be raised stands at the start of the block it is
raised in: inside the block it would already cover every fragment. -/
theorem Held.raise_boundary (h : Held bm H) (hm : MemSpec P e mem)
    (hP : ∀ r, P r → r.entry = e → H r)
    (hlt : bm.linear < mem.linear)
    (hblk : bm.linear / freemapBlockSize = mem.linear / freemapBlockSize) :
    mem.linear % freemapBlockSize ≠ 0 ∧ bm.linear % freemapBlockSize = 0 := by
  have hmid : mem.linear % freemapBlockSize ≠ 0 := by
    simp only [freemapBlockSize] at *
    omega
  refine ⟨hmid, Decidable.by_contra fun hbmid => ?_⟩
  obtain ⟨f, hf, hfe, hfr, hstop⟩ := hm.mid hmid
  have hp := h.placed f (hP f hf hfe)
  have hle := h.packed hbmid f (hP f hf hfe) (by
    have := hp.stop_pos
    simp only [freemapBlockSize] at *
    omega)
  omega

/-- **Raising the iterator is safe**: no held range has bytes between the end of
the last fragment the scan saw and the end of its block. -/
theorem Held.raise_packed (h : Held bm H) (hr : Recent bm R) (hm : MemSpec P e mem)
    (hP : ∀ r, P r → r.entry = e → H r) (hcover : ∀ r, H r → (P r ∧ r.entry = e) ∨ R r)
    (hlt : bm.linear < mem.linear)
    (hblk : bm.linear / freemapBlockSize = mem.linear / freemapBlockSize) :
    ∀ r, H r → r.off < (mem.linear / freemapBlockSize + 1) * freemapBlockSize →
      r.stop ≤ mem.linear := by
  intro r hrH hroff
  obtain ⟨hmid, hal⟩ := h.raise_boundary hm hP hlt hblk
  obtain ⟨f, hf, hfe, hfr, hstop⟩ := hm.mid hmid
  have hpf := h.placed f (hP f hf hfe)
  have hp := h.placed r hrH
  have hfb : f.off / freemapBlockSize = mem.linear / freemapBlockSize := by
    have h1 := hpf.stop_pos
    have h2 := hpf.frag_block hfr
    simp only [freemapBlockSize] at *
    omega
  refine Nat.not_lt.mp fun hgt => ?_
  by_cases hrf : r.radix < freemapBlockRadix
  · -- A fragment the scan saw is covered; one it did not see is recent.
    rcases hcover r hrH with ⟨hrP, hre⟩ | hrR
    · have := hm.covers r hrP hre hrf
      omega
    · refine hr.boundary hal r hrR hrf ?_
      have h2 := hp.frag_block hrf
      rw [hblk]
      simp only [freemapBlockSize] at *
      omega
  · -- A whole-block range would cover the fragment the scan saw.
    have hne : r ≠ f := by
      rintro rfl
      exact hrf hfr
    refine h.apart r f hrH (hP f hf hfe) hne (hp.whole_meets hrf hpf hfr hfb hroff ?_)
    simp only [freemapBlockSize] at *
    omega

/-- **The merge keeps the held ranges protected**, when every held range is in
the snapshot or recent. -/
theorem Held.sync (h : Held bm H) (hr : Recent bm R) (hm : MemSpec P e mem)
    (hP : ∀ r, P r → r.entry = e → H r) (hcover : ∀ r, H r → (P r ∧ r.entry = e) ∨ R r)
    (adjFree : BitVec 64) : Held (syncAdjust bm mem adjFree).1 H := by
  have hs := syncAdjust_spec bm adjFree hm.pairs
  generalize (syncAdjust bm mem adjFree).1 = bm' at hs
  have hseen : ∀ b < 256, mem.hi b = true → bm'.hi b = true ∧ bm'.lo b = true := by
    intro b hb hmb
    rw [hs.hi b hb, hs.lo b hb, hmb]
    exact ⟨rfl, rfl⟩
  have hmle := hm.linear_le
  -- The block the iterator of the scan is in, or ends at, was seen.
  have hmblock : mem.linear % freemapBlockSize ≠ 0 →
      mem.hi (mem.linear / freemapBlockSize) = true := by
    intro hmid
    obtain ⟨f, hf, hfe, hfr, hstop⟩ := hm.mid hmid
    have hpf := h.placed f (hP f hf hfe)
    have h1 := hpf.stop_pos
    have h2 := hpf.frag_block hfr
    have hlt := hpf.block_lt
    have hfb : f.off / freemapBlockSize = mem.linear / freemapBlockSize := by
      simp only [freemapBlockSize] at *
      omega
    rw [← hfb]
    exact (hm.hi_iff _ hlt).mpr ⟨f, hf, hfe, touches_first hpf⟩
  constructor
  case placed => exact h.placed
  case apart => exact h.apart
  case marked =>
    intro r hrH b hb ht
    rw [hs.hi b hb]
    rcases hcover r hrH with ⟨hrP, hre⟩ | hrR
    · rw [(hm.hi_iff b hb).mpr ⟨r, hrP, hre, ht⟩, Bool.true_or]
    · rw [h.marked r hrH b hb ht, hr.marked r hrR b hb ht, Bool.and_true, Bool.or_true]
  case packed =>
    intro hmid
    rcases hs.linear with ⟨hlin, hlt, hblk⟩ | hlin | hlin | hlin
    · rw [hlin]
      exact h.raise_packed hr hm hP hcover hlt hblk
    all_goals
      rw [hlin] at hmid
      simp only [segSize, freemapBlockSize] at hmid
      omega
  case midMarked =>
    intro hmid
    rcases hs.linear with ⟨hlin, hlt, hblk⟩ | hlin | hlin | hlin
    · rw [hlin] at hmid ⊢
      refine (hseen _ ?_ (hmblock hmid)).1
      simp only [segSize, freemapBlockSize] at *
      omega
    all_goals
      rw [hlin] at hmid
      simp only [segSize, freemapBlockSize] at hmid
      omega
  case below =>
    intro hmid hpos
    rcases hs.linear with ⟨hlin, hlt, hblk⟩ | hlin | hlin | hlin
    · -- The iterator was at the start of this block, with `11` behind it.
      obtain ⟨-, hal⟩ := h.raise_boundary hm hP hlt hblk
      rw [hlin, ← hblk] at hpos ⊢
      have hlt' : bm.linear < segSize := Nat.lt_of_lt_of_le hlt hmle
      obtain ⟨h1, h2⟩ := h.behind hal
        (by simp only [freemapBlockSize] at hpos; omega) hlt'
      left
      rw [hs.hi _ (by simp only [segSize, freemapBlockSize] at *; omega), h1, h2, Bool.and_true,
        Bool.or_true]
    all_goals
      rw [hlin] at hmid
      simp only [segSize, freemapBlockSize] at hmid
      omega
  case behind =>
    intro hal hpos hlt
    rcases hs.linear with ⟨hlin, hraise, hblk⟩ | hlin | hlin | hlin
    · rw [hlin] at hal
      exact absurd hal (h.raise_boundary hm hP hraise hblk).1
    · omega
    · omega
    · by_cases hmid : mem.linear % freemapBlockSize = 0
      · have heq : bm'.linear = mem.linear := by
          rw [hlin]
          simp only [freemapBlockSize] at *
          omega
        rw [heq] at hpos hlt ⊢
        rcases hm.behind hmid with h0 | hb
        · omega
        · exact hseen _ (by simp only [segSize, freemapBlockSize] at *; omega) hb
      · have heq : bm'.linear / freemapBlockSize - 1 = mem.linear / freemapBlockSize := by
          rw [hlin]
          simp only [freemapBlockSize] at *
          omega
        rw [heq]
        exact hseen _ (by simp only [segSize, freemapBlockSize] at *; omega) (hmblock hmid)
  case linear_le =>
    rcases hs.linear with ⟨hlin, -, -⟩ | hlin | hlin | hlin <;> rw [hlin]
    · exact hmle
    · exact Nat.zero_le _
    · simp only [segSize, freemapBlockSize] at *
      omega
  case grain =>
    rcases hs.linear with ⟨hlin, hlt, hblk⟩ | hlin | hlin | hlin
    · obtain ⟨hmid, -⟩ := h.raise_boundary hm hP hlt hblk
      obtain ⟨f, hf, hfe, -, hstop⟩ := hm.mid hmid
      rw [hlin, ← hstop]
      exact (h.placed f (hP f hf hfe)).stop_grain
    · rw [hlin]; rfl
    · rw [hlin]; rfl
    · rw [hlin]
      simp only [freemapBlockSize, allocMin]
      omega

end Sync

/-! ## Reserved entries -/

/-- An entry with every block taken and the iterator at the end. -/
structure Full (bm : BmapData) : Prop where
  hi : ∀ b < 256, bm.hi b = true
  linear : bm.linear = segSize

theorem reservedBmap_bits (b : Nat) :
    reservedBmap.hi b = true ∧ reservedBmap.lo b = true := by
  have h1 : 2 * (b % 32) + 1 < 64 := by omega
  have h2 : 2 * (b % 32) < 64 := by omega
  unfold BmapData.hi BmapData.lo BmapData.elem
  constructor
  · show (BitVec.allOnes 64).getLsbD _ = true
    rw [BitVec.getLsbD_allOnes, decide_eq_true h1]
  · show (BitVec.allOnes 64).getLsbD _ = true
    rw [BitVec.getLsbD_allOnes, decide_eq_true h2]

theorem reservedBmap_full : Full reservedBmap := ⟨fun b _ => (reservedBmap_bits b).1, rfl⟩

/-- Nothing can be allocated from a full entry. -/
theorem Full.no_alloc {bm bm' : BmapData} {radix off : Nat} (h : Full bm) :
    ¬ AllocSpec bm radix bm' off := by
  intro hs
  rcases hs.source with ⟨hmid, -⟩ | ⟨hfree, -⟩
  · rw [h.linear] at hmid
    exact hmid rfl
  · have hp : Placed (Range.mk 0 off radix).off (Range.mk 0 off radix).radix := hs.placed
    have hb := h.hi _ hp.block_lt
    rw [(hfree _ (touches_first hp)).1] at hb
    cases hb

/-- The merge leaves a full entry full. -/
theorem Full.sync {bm : BmapData} (adjFree : BitVec 64) :
    Full (syncAdjust bm reservedBmap adjFree).1 := by
  have hpairs : reservedBmap.PairsEqual := fun b _ => by
    rw [(reservedBmap_bits b).1, (reservedBmap_bits b).2]
  have hs := syncAdjust_spec bm adjFree hpairs
  refine ⟨fun b hb => ?_, hs.full reservedBmap_full.hi⟩
  rw [hs.hi b hb, reservedBmap_full.hi b hb, Bool.true_or]

end Hammer2
