/-
# `Hammer2.Freemap.Bmap` — one 4MB bitmap entry and its allocator

`BmapData` is `hammer2_bmap_data`: eight 64-bit elements of two-bit pairs, one
pair for each 16KB block (`00` unallocated, `10` possibly free, `11`
allocated), and the linear iterator that packs allocations smaller than a
block.  `bmapAlloc` is `hammer2_bmap_alloc`; a failing `KKASSERT` is the
outcome `panic`.

Bit facts about the entry are stated by block number `b < 256`: `lo b` and
`hi b` are the two bits of the block's pair, so `hi b = false` and
`lo b = false` say that the block is unallocated.
-/
import Hammer2.Disk
import Hammer2.Lib.BitField
import Mathlib.Data.Fintype.Pi
import Mathlib.Tactic.IntervalCases

namespace Hammer2

open BitField

/-- `hammer2_bmap_data`.  `cls` is its field `class`. -/
structure BmapData where
  linear : Nat
  cls : Nat
  avail : BitVec 32
  bitmapq : Fin 8 → BitVec 64
deriving DecidableEq

instance neZeroElements : NeZero 8 := ⟨by decide⟩

namespace BmapData

/-- `bitmapq[i]` for the C index `i`. -/
def elem (bm : BmapData) (i : Nat) : BitVec 64 := bm.bitmapq (Fin.ofNat 8 i)

/-- Low bit of the pair of block `b`. -/
def lo (bm : BmapData) (b : Nat) : Bool := (bm.elem (b / 32)).getLsbD (2 * (b % 32))

/-- High bit of the pair of block `b`. -/
def hi (bm : BmapData) (b : Nat) : Bool := (bm.elem (b / 32)).getLsbD (2 * (b % 32) + 1)

/-- `bitmapq[i] |= mask`. -/
def orElem (bm : BmapData) (i : Nat) (mask : BitVec 64) : BmapData :=
  { bm with bitmapq := Function.update bm.bitmapq (Fin.ofNat 8 i) (bm.elem i ||| mask) }

@[simp] theorem orElem_linear (bm : BmapData) (i : Nat) (mask : BitVec 64) :
    (bm.orElem i mask).linear = bm.linear := rfl

theorem elem_orElem {bm : BmapData} {i k : Nat} {mask : BitVec 64} (hi : i < 8) (hk : k < 8) :
    (bm.orElem i mask).elem k = if k = i then bm.elem i ||| mask else bm.elem k := by
  unfold orElem elem
  by_cases h : k = i
  · subst h; simp
  · have hne : Fin.ofNat 8 k ≠ Fin.ofNat 8 i := by
      intro heq
      have hv := congrArg Fin.val heq
      simp only [Fin.ofNat] at hv
      omega
    simp only [Function.update_of_ne hne, if_neg h]

end BmapData

/-! ## The allocator -/

/-- Bitmap bits an allocation of the given radix takes: two bits a block. -/
def bmradixOf (radix : Nat) : Nat :=
  if radix ≤ freemapBlockRadix then 2 else 2 <<< (radix - freemapBlockRadix)

/-- What `hammer2_bmap_alloc` can do: fail an assertion, find no room, or
return the updated entry with the offset added to `*basep` and the number of
bytes taken from `voldata.allocator_free`. -/
inductive BmapAlloc where
  | panic
  | enospc
  | ok (bm : BmapData) (offset bgsize : Nat)
deriving DecidableEq

/-- The general element scan: the first aligned field of `bmradix` bits that
is all zero, as the element index `i` and the bit index `j`. -/
def elementScan (bm : BmapData) (bmradix : Nat) : Option (Nat × Nat) :=
  (List.range bmapElements).findSome? fun i =>
    (List.range (bmapBitsPerElement / bmradix)).findSome? fun k =>
      if bm.elem i &&& fieldMask bmradix <<< (k * bmradix) = 0#64 then some (i, k * bmradix)
      else none

/-- The indexed starting point of a file block: `sub_key` selects the block of
the 4MB area, `none` for every other class and for fragments. -/
def subKeyStart (cls subKey radix : Nat) : Option (Nat × Nat) :=
  if cls >>> 8 = brefTypeData ∧ radix ≥ freemapBlockRadix then
    some (subKey % segSize / bmapIndexSize,
      subKey % bmapIndexSize / freemapBlockSize * 2)
  else none

/-- Update of the bitmap, the class and the available bytes once `(i, j)` has
been chosen.  `avail` and `allocator_free` change by whole blocks: a fragment
of a block that is already marked costs nothing. -/
def commitAlloc (bm : BmapData) (cls radix i j offset : Nat) : BmapAlloc :=
  let bmmask := fieldMask (bmradixOf radix) <<< j
  let bgsize :=
    if radix < freemapBlockRadix then
      if bm.elem i &&& bmmask = 0#64 then freemapBlockSize else 0
    else 1 <<< radix
  let bm' := bm.orElem i bmmask
  .ok { bm' with
        cls := if bm.cls = 0 then cls else bm.cls
        avail := bm.avail - BitVec.ofNat 32 bgsize } offset bgsize

/-- The `success` label: the block at `(i, j)` of the bitmap is free. -/
def allocAt (bm : BmapData) (cls radix i j : Nat) : BmapAlloc :=
  let size := 1 <<< radix
  let offset := i * bmapIndexSize + j * (freemapBlockSize / 2)
  let linear := if size % freemapBlockSize ≠ 0 then offset + size else bm.linear
  commitAlloc { bm with linear := linear } cls radix i j offset

/-- `hammer2_bmap_alloc`. -/
def bmapAlloc (bm : BmapData) (cls subKey radix : Nat) : BmapAlloc :=
  let size := 1 <<< radix
  if bm.linear % freemapBlockSize + size ≤ freemapBlockSize ∧
      bm.linear % freemapBlockSize ≠ 0 ∧ bm.linear < segSize then
    -- The iterator is mid-block: pack the fragment behind the previous one.
    if bm.linear + size ≤ segSize ∧ bm.linear % allocMin = 0 then
      let offset := bm.linear
      commitAlloc { bm with linear := offset + size } cls radix
        (offset / bmapIndexSize) ((offset / (freemapBlockSize / 2)) &&& 62) offset
    else .panic
  else
    match subKeyStart cls subKey radix with
    | some (i, j) =>
        if j + bmradixOf radix ≤ bmapBitsPerElement then
          if bm.elem i &&& fieldMask (bmradixOf radix) <<< j = 0#64 then
            allocAt bm cls radix i j
          else
            match elementScan bm (bmradixOf radix) with
            | some (i, j) => allocAt bm cls radix i j
            | none => .enospc
        else .panic
    | none =>
        match elementScan bm (bmradixOf radix) with
        | some (i, j) => allocAt bm cls radix i j
        | none => .enospc

/-! ## What an allocation can be

A placed range lies in the 4MB area, on the minimum grain, and either inside
one 16KB block (a fragment) or on block boundaries. -/

/-- The range `[off, off + 2^radix)` is one the allocator can hand out. -/
structure Placed (off radix : Nat) : Prop where
  radix_lo : radixMin ≤ radix
  radix_hi : radix ≤ radixMax
  grain : off % allocMin = 0
  inside : off + 1 <<< radix ≤ segSize
  frag : radix < freemapBlockRadix → off % freemapBlockSize + 1 <<< radix ≤ freemapBlockSize
  block : freemapBlockRadix ≤ radix → off % freemapBlockSize = 0

/-- The range `[off, off + 2^radix)` covers bytes of block `b`. -/
def Touches (off radix b : Nat) : Prop :=
  off / freemapBlockSize ≤ b ∧ b * freemapBlockSize < off + 1 <<< radix

instance (off radix b : Nat) : Decidable (Touches off radix b) :=
  inferInstanceAs (Decidable (_ ∧ _))

/-- The arithmetic of the radixes 10..16, once and for all. -/
theorem radix_cases {radix : Nat} (hlo : radixMin ≤ radix) (hhi : radix ≤ radixMax) :
    1024 ≤ 1 <<< radix ∧ (1 <<< radix) % 1024 = 0 ∧
      ((radix < 14 ∧ 1 <<< radix ≤ 8192 ∧ bmradixOf radix = 2) ∨
       (14 ≤ radix ∧ 1 <<< radix = 8192 * bmradixOf radix ∧
        (bmradixOf radix = 2 ∨ bmradixOf radix = 4 ∨ bmradixOf radix = 8))) := by
  simp only [radixMin, radixMax] at hlo hhi
  interval_cases radix <;> decide

/-- Fields of a pair position: the blocks from `32 i + j / 2` on. -/
theorem lo_orElem_field {bm : BmapData} {i j m b : Nat} (hi : i < 8) (hb : b < 256)
    (hj : j % 2 = 0) (hm : m % 2 = 0) (hjm : j + m ≤ 64) :
    (bm.orElem i (fieldMask m <<< j)).lo b =
      (bm.lo b || decide (32 * i + j / 2 ≤ b ∧ b < 32 * i + j / 2 + m / 2)) := by
  unfold BmapData.lo
  rw [BmapData.elem_orElem hi (by omega)]
  by_cases h : b / 32 = i
  · rw [if_pos h, getLsbD_or_field hjm, h]
    congr 1
    simp only [decide_eq_decide]
    omega
  · rw [if_neg h]
    have hout : ¬ (32 * i + j / 2 ≤ b ∧ b < 32 * i + j / 2 + m / 2) := by omega
    simp [hout]

theorem hi_orElem_field {bm : BmapData} {i j m b : Nat} (hi : i < 8) (hb : b < 256)
    (hj : j % 2 = 0) (hm : m % 2 = 0) (hjm : j + m ≤ 64) :
    (bm.orElem i (fieldMask m <<< j)).hi b =
      (bm.hi b || decide (32 * i + j / 2 ≤ b ∧ b < 32 * i + j / 2 + m / 2)) := by
  unfold BmapData.hi
  rw [BmapData.elem_orElem hi (by omega)]
  by_cases h : b / 32 = i
  · rw [if_pos h, getLsbD_or_field hjm, h]
    congr 1
    simp only [decide_eq_decide]
    omega
  · rw [if_neg h]
    have hout : ¬ (32 * i + j / 2 ≤ b ∧ b < 32 * i + j / 2 + m / 2) := by omega
    simp [hout]

/-- A field that tests as zero covers unallocated blocks only. -/
theorem free_of_field_zero {bm : BmapData} {i j m b : Nat}
    (hj : j % 2 = 0) (hm : m % 2 = 0) (hjm : j + m ≤ 64)
    (h0 : bm.elem i &&& fieldMask m <<< j = 0#64)
    (hb : 32 * i + j / 2 ≤ b) (hb' : b < 32 * i + j / 2 + m / 2) :
    bm.hi b = false ∧ bm.lo b = false := by
  have hbit := (and_field_eq_zero_iff hjm).mp h0
  have hi : b / 32 = i := by omega
  constructor
  · unfold BmapData.hi
    rw [hi]
    exact hbit _ (by omega) (by omega)
  · unfold BmapData.lo
    rw [hi]
    exact hbit _ (by omega) (by omega)

/-! ## The specification of the allocator -/

/-- What a successful allocation does: it packs a fragment behind the linear
iterator, or it takes blocks that were unallocated; in both cases exactly the
blocks it touches become `11`. -/
structure AllocSpec (bm : BmapData) (radix : Nat) (bm' : BmapData) (off : Nat) : Prop where
  placed : Placed off radix
  source :
    (bm.linear % freemapBlockSize ≠ 0 ∧ off = bm.linear ∧ bm'.linear = off + 1 <<< radix) ∨
    ((∀ b, Touches off radix b → bm.hi b = false ∧ bm.lo b = false) ∧
      bm'.linear = if 1 <<< radix % freemapBlockSize ≠ 0 then off + 1 <<< radix else bm.linear)
  hi : ∀ b < 256, bm'.hi b = (bm.hi b || decide (Touches off radix b))
  lo : ∀ b < 256, bm'.lo b = (bm.lo b || decide (Touches off radix b))

/-- Taking the field `(i, j)` of the bitmap touches exactly the blocks it covers. -/
theorem touches_iff_field {off radix i j b : Nat} (hlo : radixMin ≤ radix) (hhi : radix ≤ radixMax)
    (hoff : off / freemapBlockSize = 32 * i + j / 2) (hp : Placed off radix) :
    Touches off radix b ↔ 32 * i + j / 2 ≤ b ∧ b < 32 * i + j / 2 + bmradixOf radix / 2 := by
  obtain ⟨h1, _, h3⟩ := radix_cases hlo hhi
  have hfrag := hp.frag
  have hblock := hp.block
  unfold Touches
  simp only [freemapBlockRadix, freemapBlockSize] at *
  generalize 1 <<< radix = size at *
  generalize bmradixOf radix = m at *
  rcases h3 with ⟨hr, hsz, rfl⟩ | ⟨hr, rfl, hm⟩
  · have := hfrag hr
    omega
  · have := hblock hr
    rcases hm with rfl | rfl | rfl <;> omega

theorem commitAlloc_spec {bm bm' : BmapData} {cls radix i j off o g : Nat}
    (hi : i < 8) (hj : j % 2 = 0) (hjm : j + bmradixOf radix ≤ 64)
    (hoff : off / freemapBlockSize = 32 * i + j / 2) (hp : Placed off radix)
    (h : commitAlloc bm cls radix i j off = .ok bm' o g) :
    o = off ∧ bm'.linear = bm.linear ∧
      (∀ b < 256, bm'.hi b = (bm.hi b || decide (Touches off radix b))) ∧
      (∀ b < 256, bm'.lo b = (bm.lo b || decide (Touches off radix b))) := by
  obtain ⟨_, _, h3⟩ := radix_cases hp.radix_lo hp.radix_hi
  have hm : bmradixOf radix % 2 = 0 := by
    rcases h3 with ⟨-, -, h⟩ | ⟨-, -, h | h | h⟩ <;> rw [h]
  simp only [commitAlloc, BmapAlloc.ok.injEq] at h
  obtain ⟨rfl, rfl, -⟩ := h
  refine ⟨rfl, rfl, fun b hb => ?_, fun b hb => ?_⟩
  · show (bm.orElem i _).hi b = _
    rw [hi_orElem_field hi hb hj hm hjm]
    simp only [touches_iff_field hp.radix_lo hp.radix_hi hoff hp]
  · show (bm.orElem i _).lo b = _
    rw [lo_orElem_field hi hb hj hm hjm]
    simp only [touches_iff_field hp.radix_lo hp.radix_hi hoff hp]

theorem allocAt_spec {bm bm' : BmapData} {cls radix i j o g : Nat}
    (hlo : radixMin ≤ radix) (hhi : radix ≤ radixMax)
    (hi : i < 8) (hj : j % 2 = 0) (hjm : j + bmradixOf radix ≤ 64)
    (h0 : bm.elem i &&& fieldMask (bmradixOf radix) <<< j = 0#64)
    (h : allocAt bm cls radix i j = .ok bm' o g) : AllocSpec bm radix bm' o := by
  obtain ⟨h1, h2, h3⟩ := radix_cases hlo hhi
  have hm : bmradixOf radix % 2 = 0 := by
    rcases h3 with ⟨-, -, h⟩ | ⟨-, -, h | h | h⟩ <;> rw [h]
  have hoff : (i * bmapIndexSize + j * (freemapBlockSize / 2)) / freemapBlockSize
      = 32 * i + j / 2 := by
    simp only [bmapIndexSize, freemapBlockSize]
    omega
  have hp : Placed (i * bmapIndexSize + j * (freemapBlockSize / 2)) radix := by
    refine ⟨hlo, hhi, ?_, ?_, ?_, ?_⟩ <;>
      simp only [bmapIndexSize, freemapBlockSize, allocMin, segSize, freemapBlockRadix]
    · omega
    · rcases h3 with ⟨-, hs, hmr⟩ | ⟨-, hs, -⟩ <;> omega
    · intro hr
      rcases h3 with ⟨-, hs, -⟩ | ⟨hr', -⟩ <;> omega
    · intro _
      omega
  unfold allocAt at h
  obtain ⟨rfl, hlin, hhib, hlob⟩ := commitAlloc_spec hi hj hjm hoff hp h
  refine ⟨hp, Or.inr ⟨fun b hb => ?_, hlin⟩, hhib, hlob⟩
  obtain ⟨hb1, hb2⟩ := (touches_iff_field hlo hhi hoff hp).mp hb
  exact free_of_field_zero hj hm hjm h0 hb1 hb2

/-- The element scan finds a field inside one element that tests as zero. -/
theorem elementScan_spec {bm : BmapData} {radix i j : Nat}
    (hlo : radixMin ≤ radix) (hhi : radix ≤ radixMax)
    (h : elementScan bm (bmradixOf radix) = some (i, j)) :
    i < 8 ∧ j % 2 = 0 ∧ j + bmradixOf radix ≤ 64 ∧
      bm.elem i &&& fieldMask (bmradixOf radix) <<< j = 0#64 := by
  obtain ⟨_, _, h3⟩ := radix_cases hlo hhi
  have hm : bmradixOf radix = 2 ∨ bmradixOf radix = 4 ∨ bmradixOf radix = 8 := by
    rcases h3 with ⟨-, -, h⟩ | ⟨-, -, h⟩
    · exact Or.inl h
    · exact h
  obtain ⟨i', hi', hrow⟩ := List.exists_of_findSome?_eq_some h
  obtain ⟨k, hk, hcell⟩ := List.exists_of_findSome?_eq_some hrow
  rw [List.mem_range] at hi' hk
  split at hcell
  · rename_i hz
    simp only [Option.some.injEq, Prod.mk.injEq] at hcell
    obtain ⟨rfl, rfl⟩ := hcell
    refine ⟨hi', ?_, ?_, hz⟩ <;>
      rcases hm with hm | hm | hm <;> rw [hm] at hk ⊢ <;>
      simp only [bmapBitsPerElement] at hk <;> omega
  · cases hcell

/-- `(linear / 8192) & 62` is the bit index of the block of `linear`. -/
theorem and_62 (x : Nat) : x &&& 62 = 2 * (x / 2 % 32) := by
  have h64 : ∀ z : Fin 64, z.val &&& 62 = 2 * (z.val / 2) := by decide
  have hmod : x &&& 62 = x % 64 &&& 62 := by
    rw [← Nat.and_two_pow_sub_one_eq_mod x 6, Nat.and_assoc]
    rfl
  have hval : x % 64 &&& 62 = 2 * (x % 64 / 2) := h64 ⟨x % 64, Nat.mod_lt _ (by decide)⟩
  rw [hmod, hval]
  omega

/-- **The allocator meets its specification.** -/
theorem bmapAlloc_spec {bm bm' : BmapData} {cls subKey radix off g : Nat}
    (hlo : radixMin ≤ radix) (hhi : radix ≤ radixMax)
    (h : bmapAlloc bm cls subKey radix = .ok bm' off g) : AllocSpec bm radix bm' off := by
  obtain ⟨h1, h2, h3⟩ := radix_cases hlo hhi
  have hscan : ∀ {r : BmapAlloc}, (match elementScan bm (bmradixOf radix) with
      | some (i, j) => allocAt bm cls radix i j
      | none => .enospc) = r → r = .ok bm' off g → AllocSpec bm radix bm' off := by
    rintro r hr rfl
    split at hr
    · rename_i i j hs
      obtain ⟨hi, hj, hjm, h0⟩ := elementScan_spec hlo hhi hs
      exact allocAt_spec hlo hhi hi hj hjm h0 hr
    · cases hr
  unfold bmapAlloc at h
  simp only at h
  split at h
  · rename_i hlin
    obtain ⟨hfit, hmid, hlt⟩ := hlin
    split at h
    · rename_i hk
      obtain ⟨hend, hgrain⟩ := hk
      simp only [freemapBlockSize, segSize, allocMin, bmapIndexSize] at *
      have hr : radix < 14 := by
        rcases h3 with ⟨hr, -⟩ | ⟨-, hs, hm⟩
        · exact hr
        · rcases hm with hm | hm | hm <;> omega
      have hm : bmradixOf radix = 2 := by
        rcases h3 with ⟨-, -, hm⟩ | ⟨hr', -⟩
        · exact hm
        · omega
      have hp : Placed bm.linear radix :=
        ⟨hlo, hhi, hgrain, hend, fun _ => hfit, fun h14 => absurd hr (Nat.not_lt.mpr h14)⟩
      rw [and_62] at h
      have := commitAlloc_spec (by omega) (by omega) (by rw [hm]; omega) (by
        simp only [freemapBlockSize]; omega) hp h
      obtain ⟨rfl, hl, hhib, hlob⟩ := this
      exact ⟨hp, Or.inl ⟨hmid, rfl, hl⟩, hhib, hlob⟩
    · cases h
  · split at h
    · rename_i i j hstart
      split at h
      · rename_i hjm
        split at h
        · rename_i h0
          unfold subKeyStart at hstart
          split at hstart
          · simp only [Option.some.injEq, Prod.mk.injEq] at hstart
            obtain ⟨rfl, rfl⟩ := hstart
            simp only [segSize, bmapIndexSize, freemapBlockSize, bmapBitsPerElement] at *
            exact allocAt_spec hlo hhi (by omega) (by omega) hjm h0 h
          · cases hstart
        · exact hscan rfl h
      · cases h
    · exact hscan rfl h

/-- The assertions of the allocator hold when the iterator is on the grain and
inside the area, and file blocks are asked for with a 64KB-aligned key. -/
theorem bmapAlloc_ne_panic {bm : BmapData} {cls subKey radix : Nat}
    (hlo : radixMin ≤ radix) (hhi : radix ≤ radixMax) (hgrain : bm.linear % allocMin = 0)
    (hkey : cls >>> 8 = brefTypeData → subKey % pbufSize = 0) :
    bmapAlloc bm cls subKey radix ≠ .panic := by
  obtain ⟨h1, h2, h3⟩ := radix_cases hlo hhi
  have hscan : (match elementScan bm (bmradixOf radix) with
      | some (i, j) => allocAt bm cls radix i j
      | none => .enospc) ≠ BmapAlloc.panic := by
    split
    · simp [allocAt, commitAlloc]
    · simp
  intro h
  unfold bmapAlloc at h
  simp only at h
  split at h
  · rename_i hlin
    split at h
    · simp [commitAlloc] at h
    · rename_i hk
      refine hk ⟨?_, hgrain⟩
      simp only [freemapBlockSize, segSize] at *
      omega
  · split at h
    · rename_i i j hstart
      unfold subKeyStart at hstart
      split at hstart
      · rename_i hcls
        have hal := hkey hcls.1
        simp only [Option.some.injEq, Prod.mk.injEq] at hstart
        obtain ⟨rfl, rfl⟩ := hstart
        split at h
        · split at h
          · simp [allocAt, commitAlloc] at h
          · exact hscan h
        · rename_i hjm
          simp only [bmapIndexSize, freemapBlockSize, bmapBitsPerElement, pbufSize] at *
          rcases h3 with ⟨-, -, hm⟩ | ⟨-, -, hm | hm | hm⟩ <;> omega
      · cases hstart
    · exact hscan h

/-! ## First fit

A fragment that is not packed behind the iterator goes to the lowest
unallocated block: every block below it holds a nonzero pair. -/

theorem findSome?_range_first {β : Type} {f : Nat → Option β} {x : β} :
    ∀ {n : Nat}, (List.range n).findSome? f = some x →
      ∃ i < n, f i = some x ∧ ∀ j < i, f j = none
  | 0, h => by simp at h
  | n + 1, h => by
      rw [List.range_succ, List.findSome?_append] at h
      cases hpre : (List.range n).findSome? f with
      | some y =>
          rw [hpre] at h
          obtain ⟨i, hi, hfi, hlow⟩ := findSome?_range_first hpre
          obtain rfl : y = x := by simpa using h
          exact ⟨i, Nat.lt_succ_of_lt hi, hfi, hlow⟩
      | none =>
          rw [hpre] at h
          rw [List.findSome?_eq_none_iff] at hpre
          refine ⟨n, Nat.lt_succ_self n, by simpa using h, fun j hj => ?_⟩
          exact hpre j (List.mem_range.mpr hj)

/-- A two-bit field that does not test as zero is a nonzero pair. -/
theorem nonzero_of_field {bm : BmapData} {i k : Nat} (hk : k < 32)
    (h : bm.elem i &&& fieldMask 2 <<< (k * 2) ≠ 0#64) :
    bm.hi (32 * i + k) = true ∨ bm.lo (32 * i + k) = true := by
  by_contra hno
  rw [not_or, Bool.not_eq_true, Bool.not_eq_true] at hno
  obtain ⟨hhi, hlo⟩ := hno
  unfold BmapData.hi at hhi
  unfold BmapData.lo at hlo
  rw [show (32 * i + k) / 32 = i from by omega, show (32 * i + k) % 32 = k from by omega] at hhi hlo
  refine h ((and_field_eq_zero_iff (by omega)).mpr fun b hb1 hb2 => ?_)
  by_cases hb : b = 2 * k
  · rw [hb]; exact hlo
  · rw [show b = 2 * k + 1 from by omega]; exact hhi

theorem elementScan_first {bm : BmapData} {i j : Nat} (h : elementScan bm 2 = some (i, j)) :
    ∀ b < 32 * i + j / 2, bm.hi b = true ∨ bm.lo b = true := by
  obtain ⟨i₀, -, hrow, hrows⟩ := findSome?_range_first h
  obtain ⟨k₀, hk₀, hcell, hcells⟩ := findSome?_range_first hrow
  have hij : i₀ = i ∧ k₀ * 2 = j := by
    split at hcell
    · simpa using hcell
    · cases hcell
  obtain ⟨rfl, rfl⟩ := hij
  have hcellOf : ∀ i' k', k' < 32 → (if bm.elem i' &&& fieldMask 2 <<< (k' * 2) = 0#64 then
      some (i', k' * 2) else none) = none → bm.hi (32 * i' + k') = true ∨
        bm.lo (32 * i' + k') = true := by
    intro i' k' hk' hnone
    refine nonzero_of_field hk' fun h0 => ?_
    rw [if_pos h0] at hnone
    cases hnone
  intro b hb
  have hsplit : b = 32 * (b / 32) + b % 32 := by omega
  rw [hsplit]
  by_cases hrowb : b / 32 = i₀
  · refine hcellOf _ _ (by omega) ?_
    rw [hrowb]
    exact hcells _ (by omega)
  · have hrowNone := hrows (b / 32) (by simp only [bmapBitsPerElement] at hk₀; omega)
    rw [List.findSome?_eq_none_iff] at hrowNone
    refine hcellOf _ _ (by omega) (hrowNone _ (List.mem_range.mpr ?_))
    simp only [bmapBitsPerElement]
    omega

/-- **First fit** of fragments. -/
theorem bmapAlloc_firstFit {bm bm' : BmapData} {cls subKey radix off g : Nat}
    (hfrag : radix < freemapBlockRadix)
    (h : bmapAlloc bm cls subKey radix = .ok bm' off g) :
    (bm.linear % freemapBlockSize ≠ 0 ∧ off = bm.linear) ∨
      ∀ b < off / freemapBlockSize, bm.hi b = true ∨ bm.lo b = true := by
  simp only [freemapBlockRadix] at hfrag
  have hm : bmradixOf radix = 2 := by
    unfold bmradixOf
    rw [if_pos (by simp only [freemapBlockRadix]; omega)]
  have hstart : subKeyStart cls subKey radix = none := by
    unfold subKeyStart
    rw [if_neg (by simp only [freemapBlockRadix]; omega)]
  unfold bmapAlloc at h
  simp only [hstart] at h
  split at h
  · rename_i hlin
    split at h
    · simp only [commitAlloc, BmapAlloc.ok.injEq] at h
      exact Or.inl ⟨hlin.2.1, h.2.1.symm⟩
    · cases h
  · split at h
    · rename_i i j hscan
      rw [hm] at hscan
      have hj : j % 2 = 0 := by
        have hscan10 : elementScan bm (bmradixOf 10) = some (i, j) := hscan
        exact (elementScan_spec (by decide) (by decide) hscan10).2.1
      simp only [allocAt, commitAlloc, BmapAlloc.ok.injEq] at h
      right
      intro b hb
      refine elementScan_first hscan b ?_
      rw [← h.2.1] at hb
      simp only [bmapIndexSize, freemapBlockSize] at hb
      omega
    · cases h

end Hammer2
