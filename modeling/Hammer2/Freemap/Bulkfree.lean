/-
# `Hammer2.Freemap.Bulkfree` — leaf initialisation and the bulkfree merge

The three ways a bitmap entry comes into being or is rewritten besides the
allocator:

    freemapInit         hammer2_freemap_init      a fresh level-1 leaf
    cbinfoBmapInit,     cbinfo_bmap_init,         the in-memory map of one
    bulkfreeCallback    h2_bulkfree_callback      bulkfree window
    syncAdjust          h2_bulkfree_sync_adjust   the merge of the in-memory
                                                  entry into the live one

The pairs of an in-memory entry are `00` (not seen by the scan) or `11`
(seen).  The merge moves a pair that was not seen one step towards free
(`11 → 10 → 00`) and sets a pair that was seen to `11`; `syncAdjust_hi` and
`syncAdjust_lo` say so bit by bit.
-/
import Hammer2.Freemap.Bmap

namespace Hammer2

open BitField

/-- The fields of `hammer2_dev_t` and its volume header the freemap reads. -/
structure Dev where
  allocatorBeg : Nat
  totalSize : Nat

/-! ## Fresh entries -/

/-- An entry outside the allocatable area: every block `11`, iterator at the end. -/
def reservedBmap : BmapData where
  linear := segSize
  cls := 0
  avail := 0
  bitmapq := fun _ => BitVec.allOnes 64

/-- A zeroed entry with all of its 4MB available. -/
def freeBmap : BmapData where
  linear := 0
  cls := 0
  avail := BitVec.ofNat 32 freemapLevel0Size
  bitmapq := fun _ => 0#64

/-- `x & ~SEGMASK64`. -/
def segDown (x : Nat) : Nat := x / segSize * segSize

/-- `(x + SEGMASK64) & ~SEGMASK64`. -/
def segUp (x : Nat) : Nat := segDown (x + (segSize - 1))

/-- `H2FMBASE(key, LEVEL1_RADIX)`, which is also `H2FMZONEBASE(key)`. -/
def h2fmBase (key : Nat) : Nat := key / freemapLevel1Size * freemapLevel1Size

/-- One step of the `lokey` computation: the start of the area usable at `key`. -/
def lokeyStep (lokey key : Nat) : Nat :=
  let lokey := if lokey < h2fmBase key then h2fmBase key else lokey
  if lokey < h2fmBase key + zoneSeg then h2fmBase key + zoneSeg else lokey

/-- `hammer2_freemap_init`: entry `n` of the leaf at `key`. -/
def freemapInit (dev : Dev) (key n : Nat) : BmapData :=
  let lokey := lokeyStep (segUp dev.allocatorBeg) key
  let hikey :=
    if key + freemapLevel1Size > dev.totalSize then segDown dev.totalSize
    else key + freemapLevel1Size
  let k := key + n * freemapLevel0Size
  if k < lokey ∨ k ≥ hikey then reservedBmap else freeBmap

/-! ## The in-memory map of a bulkfree window -/

/-- The fields of `hammer2_bulkfree_info_t` that carry the window and its map. -/
structure Cbinfo where
  sbase : Nat
  sstop : Nat
  bmap : Nat → BmapData

/-- `lokey` after the loop of `cbinfo_bmap_init` has reached entry `n`; it only
ever grows. -/
def cbinfoLokey (dev : Dev) (sbase : Nat) : Nat → Nat
  | 0 => lokeyStep (segUp dev.allocatorBeg) sbase
  | n + 1 => lokeyStep (cbinfoLokey dev sbase n) (sbase + (n + 1) * freemapLevel0Size)

/-- `cbinfo_bmap_init`. -/
def cbinfoBmapInit (dev : Dev) (sbase sstop : Nat) : Cbinfo where
  sbase := sbase
  sstop := sstop
  bmap n :=
    let key := sbase + n * freemapLevel0Size
    if key < cbinfoLokey dev sbase n ∨ key ≥ segDown dev.totalSize then reservedBmap else freeBmap

/-- What the scan hands to the callback: the type and `data_off` of a blockref,
the low six bits of `data_off` being the radix. -/
structure SnapRef where
  type : Nat
  dataOff : Nat
deriving DecidableEq

/-- The marking loop of `h2_bulkfree_callback`.  `fuel` bounds the number of
16KB steps; `bytes / 16384 + 1` of them reach `bytes = 0`. -/
def markLoop : Nat → BmapData → Nat → Nat → BmapData
  | 0, bm, _, _ => bm
  | fuel + 1, bm, dataOff, bytes =>
      if bytes = 0 then bm
      else
        let bindex := dataOff / bmapIndexSize
        let bmask := 3#64 <<< (dataOff % bmapIndexSize / freemapBlockSize * 2)
        let bm :=
          if bm.elem bindex &&& bmask = 0#64 then
            { bm.orElem bindex bmask with
              avail := bm.avail - BitVec.ofNat 32
                (if bytes < freemapBlockSize then freemapBlockSize else bytes) }
          else bm
        markLoop fuel bm (dataOff + freemapBlockSize)
          (if bytes < freemapBlockSize then 0 else bytes - freemapBlockSize)

/-- The iterator an in-memory entry records: at least the end of every
fragment, and never inside a whole-block range. -/
def recordLinear (linear dataOff bytes : Nat) : Nat :=
  if bytes % freemapBlockSize ≠ 0 then
    if linear < dataOff + bytes then dataOff + bytes else linear
  else if linear ≥ dataOff ∧ linear < dataOff + bytes then dataOff + bytes
  else linear

/-- Recording `bytes` bytes at offset `off` of an in-memory entry. -/
def recordRange (bm : BmapData) (type off bytes : Nat) : BmapData :=
  let bm :=
    if bm.cls = 0 then
      { bm with cls := type <<< 8 ||| pbufRadix, avail := BitVec.ofNat 32 freemapLevel0Size }
    else bm
  markLoop (bytes / freemapBlockSize + 1)
    { bm with linear := recordLinear bm.linear off bytes } off bytes

/-- `h2_bulkfree_callback`, from the window test on.  `none` is the failing
`KKASSERT(radix != 0)`. -/
def bulkfreeCallback (dev : Dev) (cb : Cbinfo) (bref : SnapRef) : Option Cbinfo :=
  let dataOff := bref.dataOff / 64 * 64
  if dataOff < cb.sbase ∨ dataOff ≥ cb.sstop then some cb
  else if dataOff < dev.allocatorBeg then some cb
  else if dataOff ≥ dev.totalSize then some cb
  else
    let radix := bref.dataOff % 64
    if radix = 0 then none
    else
      let bytes := 1 <<< radix
      let bytes := if dataOff + bytes > cb.sstop then cb.sstop - dataOff else bytes
      let n := (dataOff - cb.sbase) / freemapLevel0Size
      let off := (dataOff - cb.sbase) % freemapLevel0Size
      let bytes := if off + bytes > freemapLevel0Size then freemapLevel0Size - off else bytes
      some { cb with
        bmap := Function.update cb.bmap n (recordRange (cb.bmap n) bref.type off bytes) }

/-- The scan calls the callback on every blockref it finds. -/
def bulkfreeScan (dev : Dev) : Cbinfo → List SnapRef → Option Cbinfo
  | cb, [] => some cb
  | cb, bref :: brefs =>
      match bulkfreeCallback dev cb bref with
      | some cb => bulkfreeScan dev cb brefs
      | none => none

/-! ## The merge -/

/-- The parts of the live entry and of `cbinfo` the pair loop changes. -/
structure AdjState where
  word : BitVec 64
  avail : BitVec 32
  adjFree : BitVec 64
deriving DecidableEq

/-- One round of the pair loop; `lmask` and `mmask` are the live and in-memory
elements as they were when the element was entered, `k = scount / 2`. -/
def adjustPair (lmask mmask : BitVec 64) (s : AdjState) (k : Nat) : AdjState :=
  let m := pairAt mmask k
  let l := pairAt lmask k
  if m = 0#64 then
    if l = 2#64 then
      -- 10 -> 00
      let avail := s.avail + BitVec.ofNat 32 freemapBlockSize
      { word := s.word &&& ~~~(2#64 <<< (2 * k))
        avail := if avail.toNat > freemapLevel0Size then BitVec.ofNat 32 freemapLevel0Size else avail
        adjFree := s.adjFree + BitVec.ofNat 64 freemapBlockSize }
    else if l = 3#64 then
      -- 11 -> 10
      { s with word := s.word &&& ~~~(1#64 <<< (2 * k)) }
    else s
  else if m = 3#64 then
    let s :=
      if l = 0#64 then
        -- 00 -> 11, the critical transition
        let avail := s.avail - BitVec.ofNat 32 freemapBlockSize
        { s with
          avail := if avail.msb then 0 else avail
          adjFree := s.adjFree - BitVec.ofNat 64 freemapBlockSize }
      else s
    { s with word := s.word ||| 3#64 <<< (2 * k) }
  else s

/-- The pair loop over one element, skipped when the elements agree. -/
def adjustElem (lmask mmask : BitVec 64) (avail : BitVec 32) (adjFree : BitVec 64) : AdjState :=
  if lmask = mmask then ⟨lmask, avail, adjFree⟩
  else (List.range bmapBlocksPerElement).foldl (adjustPair lmask mmask) ⟨lmask, avail, adjFree⟩

/-- The loop over the elements of the entry. -/
def adjustBitmap (mem : BmapData) : List Nat → BmapData × BitVec 64 → BmapData × BitVec 64
  | [], s => s
  | i :: is, (live, adjFree) =>
      let s := adjustElem (live.elem i) (mem.elem i) live.avail adjFree
      adjustBitmap mem is
        ({ live with
            avail := s.avail
            bitmapq := Function.update live.bitmapq (Fin.ofNat 8 i) s.word }, s.adjFree)

/-- The linear iterator after the merge, `top` being the highest nonzero element. -/
def adjustLinear (live mem : BmapData) (top : Nat) : Nat :=
  if top < 7 then
    if live.linear < mem.linear ∧
        live.linear / freemapBlockSize = mem.linear / freemapBlockSize then mem.linear
    else (mem.linear + (freemapBlockSize - 1)) / freemapBlockSize * freemapBlockSize
  else segSize

/-- `h2_bulkfree_sync_adjust`: the new live entry and the new `adj_free`. -/
def syncAdjust (live mem : BmapData) (adjFree : BitVec 64) : BmapData × BitVec 64 :=
  let (bm, adjFree) := adjustBitmap mem (List.range bmapElements) (live, adjFree)
  match (List.range bmapElements).reverse.find? (fun i => bm.elem i ≠ 0#64) with
  | none =>
      ({ bm with avail := BitVec.ofNat 32 freemapLevel0Size, cls := 0, linear := 0 }, adjFree)
  | some top => ({ bm with linear := adjustLinear bm mem top }, adjFree)

/-! ## The merge, bit by bit

`mergeBit` is what the pair loop leaves at bit `k` of an element: a pair seen
by the scan becomes `11`, an unseen pair goes one step towards free, and the
reserved patterns of the in-memory word (which the scan never leaves there)
change nothing. -/

/-- Bit `k` of the merged element. -/
def mergeBit (lmask mmask : BitVec 64) (k : Nat) : Bool :=
  let mlo := mmask.getLsbD (2 * (k / 2))
  let mhi := mmask.getLsbD (2 * (k / 2) + 1)
  let llo := lmask.getLsbD (2 * (k / 2))
  let lhi := lmask.getLsbD (2 * (k / 2) + 1)
  if mlo && mhi then true
  else if !mlo && !mhi then
    if k % 2 = 1 then lhi && llo else llo && !lhi
  else lmask.getLsbD k

/-- One round of the pair loop decides the two bits of its pair. -/
theorem adjustPair_getLsbD {lmask mmask : BitVec 64} {s : AdjState} {k : Nat} (hk : k < 32)
    (hs : ∀ i, i / 2 = k → s.word.getLsbD i = lmask.getLsbD i) (i : Nat) :
    (adjustPair lmask mmask s k).word.getLsbD i =
      if i / 2 = k then mergeBit lmask mmask i else s.word.getLsbD i := by
  have hor : (s.word ||| 3#64 <<< (2 * k)).getLsbD i =
      (s.word.getLsbD i || decide (i / 2 = k)) := by
    rw [three_eq_fieldMask, getLsbD_or_field (by omega)]
    congr 1
    simp only [decide_eq_decide]
    omega
  have hclr2 : (s.word &&& ~~~(2#64 <<< (2 * k))).getLsbD i =
      (s.word.getLsbD i && decide (i ≠ 2 * k + 1)) := by
    rw [two_shl, getLsbD_and_not_bit (by omega)]
  have hclr1 : (s.word &&& ~~~(1#64 <<< (2 * k))).getLsbD i =
      (s.word.getLsbD i && decide (i ≠ 2 * k)) :=
    getLsbD_and_not_bit (by omega) i
  unfold adjustPair
  simp only [pairAt_eq]
  by_cases hik : i / 2 = k
  · have hsi := hs i hik
    simp only [mergeBit, hik]
    rcases Nat.mod_two_eq_zero_or_one i with hpar | hpar
    · have hi : i = 2 * k := by omega
      subst hi
      cases hmh : mmask.getLsbD (2 * k + 1) <;> cases hml : mmask.getLsbD (2 * k) <;>
        cases hlh : lmask.getLsbD (2 * k + 1) <;> cases hll : lmask.getLsbD (2 * k) <;>
        simp [hor, hclr2, hclr1, hsi, hll]
    · have hi : i = 2 * k + 1 := by omega
      subst hi
      cases hmh : mmask.getLsbD (2 * k + 1) <;> cases hml : mmask.getLsbD (2 * k) <;>
        cases hlh : lmask.getLsbD (2 * k + 1) <;> cases hll : lmask.getLsbD (2 * k) <;>
        simp [hor, hclr2, hclr1, hsi, hlh, hik]
  · have h1 : i ≠ 2 * k := by omega
    have h2 : i ≠ 2 * k + 1 := by omega
    rw [if_neg hik]
    cases mmask.getLsbD (2 * k + 1) <;> cases mmask.getLsbD (2 * k) <;>
      cases lmask.getLsbD (2 * k + 1) <;> cases lmask.getLsbD (2 * k) <;>
      simp [hor, hclr2, hclr1, h1, h2, hik]

/-- The pair loop after `n` rounds: the first `n` pairs are merged, the others
are as they were. -/
theorem foldl_adjustPair_getLsbD (lmask mmask : BitVec 64) (s : AdjState)
    (hs : s.word = lmask) : ∀ n, n ≤ 32 → ∀ i,
    ((List.range n).foldl (adjustPair lmask mmask) s).word.getLsbD i =
      if i / 2 < n then mergeBit lmask mmask i else lmask.getLsbD i
  | 0, _, i => by simp [hs]
  | n + 1, hn, i => by
      have ih := foldl_adjustPair_getLsbD lmask mmask s hs n (by omega)
      rw [List.range_succ, List.foldl_append, List.foldl_cons, List.foldl_nil,
        adjustPair_getLsbD (by omega) (fun j hj => by rw [ih j, if_neg (by omega)]), ih i]
      by_cases h1 : i / 2 = n
      · rw [if_pos h1, if_pos (by omega)]
      · by_cases h2 : i / 2 < n
        · rw [if_neg h1, if_pos h2, if_pos (by omega)]
        · rw [if_neg h1, if_neg h2, if_neg (by omega)]

/-- An in-memory element holds only `00` and `11` pairs. -/
def PairsEqual (w : BitVec 64) : Prop := ∀ k, w.getLsbD (2 * k) = w.getLsbD (2 * k + 1)

theorem adjustElem_getLsbD {lmask mmask : BitVec 64} {avail : BitVec 32} {adjFree : BitVec 64}
    (hm : PairsEqual mmask) {i : Nat} (hi : i < 64) :
    (adjustElem lmask mmask avail adjFree).word.getLsbD i = mergeBit lmask mmask i := by
  unfold adjustElem
  split
  · rename_i heq
    -- Elements that agree are skipped; the merge would leave `00` and `11` alone.
    subst heq
    have hpair := hm (i / 2)
    show lmask.getLsbD i = _
    rcases Nat.mod_two_eq_zero_or_one i with hpar | hpar
    · have hi' : 2 * (i / 2) = i := by omega
      rw [hi'] at hpair
      simp only [mergeBit, hi', ← hpair]
      cases lmask.getLsbD i <;> simp
    · have hi' : 2 * (i / 2) + 1 = i := by omega
      rw [hi'] at hpair
      simp only [mergeBit, hi', hpair]
      cases lmask.getLsbD i <;> simp
  · have h := foldl_adjustPair_getLsbD lmask mmask ⟨lmask, avail, adjFree⟩ rfl 32 (Nat.le_refl _) i
    rwa [if_pos (by omega)] at h

/-! ## The merged entry -/

/-- The in-memory entry holds only `00` and `11` pairs. -/
def BmapData.PairsEqual (bm : BmapData) : Prop := ∀ b < 256, bm.lo b = bm.hi b

theorem pairsEqual_elem {bm : BmapData} (h : bm.PairsEqual) {i : Nat} (hi : i < 8) :
    Hammer2.PairsEqual (bm.elem i) := by
  intro k
  by_cases hk : k < 32
  · have hb := h (32 * i + k) (by omega)
    unfold BmapData.lo BmapData.hi at hb
    rwa [show (32 * i + k) / 32 = i from by omega, show (32 * i + k) % 32 = k from by omega] at hb
  · rw [BitVec.getLsbD_of_ge _ _ (by omega), BitVec.getLsbD_of_ge _ _ (by omega)]

theorem elem_update {bm : BmapData} {i k : Nat} {w : BitVec 64} {av : BitVec 32}
    (hi : i < 8) (hk : k < 8) :
    BmapData.elem { bm with
      avail := av, bitmapq := Function.update bm.bitmapq (Fin.ofNat 8 i) w } k =
      if k = i then w else bm.elem k := by
  unfold BmapData.elem
  by_cases h : k = i
  · subst h; simp
  · have hne : Fin.ofNat 8 k ≠ Fin.ofNat 8 i := by
      intro heq
      have hv := congrArg Fin.val heq
      simp only [Fin.ofNat] at hv
      omega
    simp only [Function.update_of_ne hne, if_neg h]

theorem adjustBitmap_elem {mem : BmapData} (hmem : mem.PairsEqual) :
    ∀ (is : List Nat) (live : BmapData) (adjFree : BitVec 64), is.Nodup → (∀ i ∈ is, i < 8) →
    (adjustBitmap mem is (live, adjFree)).1.linear = live.linear ∧
    ∀ k < 8, ∀ j < 64, ((adjustBitmap mem is (live, adjFree)).1.elem k).getLsbD j =
      if k ∈ is then mergeBit (live.elem k) (mem.elem k) j else (live.elem k).getLsbD j
  | [], live, adjFree, _, _ => ⟨rfl, fun k _ j _ => by simp [adjustBitmap]⟩
  | i :: is, live, adjFree, hnd, hlt => by
      have hi : i < 8 := hlt i (List.mem_cons_self ..)
      rw [List.nodup_cons] at hnd
      obtain ⟨hlin, helem⟩ := adjustBitmap_elem hmem is
        { live with
            avail := (adjustElem (live.elem i) (mem.elem i) live.avail adjFree).avail
            bitmapq := Function.update live.bitmapq (Fin.ofNat 8 i)
              (adjustElem (live.elem i) (mem.elem i) live.avail adjFree).word }
        (adjustElem (live.elem i) (mem.elem i) live.avail adjFree).adjFree
        hnd.2 (fun k hk => hlt k (List.mem_cons_of_mem _ hk))
      refine ⟨hlin, fun k hk j hj => ?_⟩
      have h := helem k hk j hj
      rw [elem_update hi hk] at h
      show ((adjustBitmap mem is _).1.elem k).getLsbD j = _
      rw [h]
      by_cases hki : k = i
      · subst hki
        simp only [if_neg hnd.1, if_true, List.mem_cons, true_or]
        exact adjustElem_getLsbD (pairsEqual_elem hmem hk) hj
      · simp only [List.mem_cons, hki, false_or, if_false]

theorem adjustBitmap_hi (live : BmapData) {mem : BmapData} (adjFree : BitVec 64) (hmem : mem.PairsEqual)
    {b : Nat} (hb : b < 256) :
    (adjustBitmap mem (List.range bmapElements) (live, adjFree)).1.hi b =
      (mem.hi b || (live.hi b && live.lo b)) := by
  have h := (adjustBitmap_elem hmem (List.range bmapElements) live adjFree List.nodup_range
    (fun i hi => List.mem_range.mp hi)).2 (b / 32) (by omega) (2 * (b % 32) + 1) (by omega)
  rw [if_pos (List.mem_range.mpr (by simp only [bmapElements]; omega))] at h
  have hpair := hmem b hb
  unfold BmapData.hi BmapData.lo at *
  rw [h]
  have h2 : (2 * (b % 32) + 1) / 2 = b % 32 := by omega
  have h3 : (2 * (b % 32) + 1) % 2 = 1 := by omega
  simp only [mergeBit, h2, h3, if_true]
  rw [hpair]
  cases (mem.elem (b / 32)).getLsbD (2 * (b % 32) + 1) <;> simp

theorem adjustBitmap_lo (live : BmapData) {mem : BmapData} (adjFree : BitVec 64) (hmem : mem.PairsEqual)
    {b : Nat} (hb : b < 256) :
    (adjustBitmap mem (List.range bmapElements) (live, adjFree)).1.lo b =
      (mem.hi b || (live.lo b && !live.hi b)) := by
  have h := (adjustBitmap_elem hmem (List.range bmapElements) live adjFree List.nodup_range
    (fun i hi => List.mem_range.mp hi)).2 (b / 32) (by omega) (2 * (b % 32)) (by omega)
  rw [if_pos (List.mem_range.mpr (by simp only [bmapElements]; omega))] at h
  have hpair := hmem b hb
  unfold BmapData.hi BmapData.lo at *
  rw [h]
  have h2 : 2 * (b % 32) / 2 = b % 32 := by omega
  have h3 : 2 * (b % 32) % 2 = 0 := by omega
  simp only [mergeBit, h2, h3]
  rw [hpair]
  cases (mem.elem (b / 32)).getLsbD (2 * (b % 32) + 1) <;> simp

/-! ## What the merge does to an entry -/

/-- What `syncAdjust` leaves: every pair the scan saw is `11`, every other pair
is one step closer to free, and the iterator is raised inside the block it was
in or at the start of, or it stands on a block boundary: the start, the end, or
the boundary after the iterator of the scan. -/
structure AdjustSpec (live mem bm : BmapData) : Prop where
  hi : ∀ b < 256, bm.hi b = (mem.hi b || (live.hi b && live.lo b))
  lo : ∀ b < 256, bm.lo b = (mem.hi b || (live.lo b && !live.hi b))
  linear : (bm.linear = mem.linear ∧ live.linear < mem.linear ∧
      live.linear / freemapBlockSize = mem.linear / freemapBlockSize) ∨
    bm.linear = 0 ∨ bm.linear = segSize ∨
    bm.linear = (mem.linear + (freemapBlockSize - 1)) / freemapBlockSize * freemapBlockSize
  full : (∀ b < 256, mem.hi b = true) → bm.linear = segSize

/-- The highest nonzero element is the last one when every block is taken. -/
theorem top_eq_seven {bm : BmapData} (h : ∀ b < 256, bm.hi b = true) :
    (List.range bmapElements).reverse.find? (fun i => bm.elem i ≠ 0#64) = some 7 := by
  have h7 : bm.elem 7 ≠ 0#64 := by
    intro h0
    have hb := h 224 (by omega)
    unfold BmapData.hi at hb
    rw [show (224 : Nat) / 32 = 7 from rfl, h0] at hb
    simp at hb
  show List.find? _ (7 :: (List.range 7).reverse) = some 7
  exact List.find?_cons_of_pos (by simpa using h7)

theorem syncAdjust_spec (live : BmapData) {mem : BmapData} (adjFree : BitVec 64) (hmem : mem.PairsEqual) :
    AdjustSpec live mem (syncAdjust live mem adjFree).1 := by
  have hhi := fun b (hb : b < 256) => adjustBitmap_hi live adjFree hmem hb
  have hlo := fun b (hb : b < 256) => adjustBitmap_lo live adjFree hmem hb
  have hlin := (adjustBitmap_elem hmem (List.range bmapElements) live adjFree List.nodup_range
    (fun i hi => List.mem_range.mp hi)).1
  have hfull : (∀ b < 256, mem.hi b = true) → ∀ b < 256,
      (adjustBitmap mem (List.range bmapElements) (live, adjFree)).1.hi b = true := by
    intro h b hb
    rw [hhi b hb, h b hb, Bool.true_or]
  unfold syncAdjust
  simp only
  split
  · rename_i hnone
    refine ⟨hhi, hlo, Or.inr (Or.inl rfl), fun h => ?_⟩
    rw [top_eq_seven (hfull h)] at hnone
    cases hnone
  · rename_i top hsome
    refine ⟨hhi, hlo, ?_, fun h => ?_⟩
    · show (adjustLinear _ mem top = mem.linear ∧ _) ∨ adjustLinear _ mem top = 0 ∨
        adjustLinear _ mem top = segSize ∨ adjustLinear _ mem top = _
      unfold adjustLinear
      rw [hlin]
      split
      · split
        · rename_i hraise
          exact Or.inl ⟨rfl, hraise⟩
        · exact Or.inr (Or.inr (Or.inr rfl))
      · exact Or.inr (Or.inr (Or.inl rfl))
    · rw [top_eq_seven (hfull h)] at hsome
      obtain rfl : 7 = top := by simpa using hsome
      rfl

end Hammer2
