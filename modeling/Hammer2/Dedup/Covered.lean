/-
# `Hammer2.Dedup.Covered` — a dedup candidate is allocated

The freemap and the device buffers as one machine.  The freemap changes by allocations, by
dedup hits (`hammer2_freemap_adjust`) and by the pairs bulkfree merges; the masks change by
the same allocations, by the merges that take a pair away, by flushes of destroyed chains and
by buffers that come and go.

    pairRound        one round of the pair loop of h2_bulkfree_sync_adjust
    rounds_merge     the 256 rounds of an entry are the merge of its bitmap
    run_covered      in every run the bits of `dedup_alloc` cover pairs that are `11`

A leaf stays locked while its pairs are merged, so a round reads the live pair it changes; the
change of the pair and the call on the buffer that belongs to it are one event.
-/
import Hammer2.Dedup.Dio
import Hammer2.Freemap.Account

namespace Hammer2.Dedup

open BitField Machine
open Account (leafOf)

/-! ## The merge, pair by pair -/

/-- One round of the pair loop, on block `b` of the entry. -/
def pairRound (live mem : BmapData) (b : Nat) : BmapData :=
  let r := adjustPair (live.elem (b / 32)) (mem.elem (b / 32)) ⟨live.elem (b / 32), live.avail, 0⟩ (b % 32)
  { live with
    avail := r.avail
    bitmapq := Function.update live.bitmapq (Fin.ofNat 8 (b / 32)) r.word }

theorem pairRound_elem {live mem : BmapData} {b : Nat} (hb : b < 256) {i : Nat} (hi : i < 8) (j : Nat) :
    ((pairRound live mem b).elem i).getLsbD j =
      if i = b / 32 ∧ j / 2 = b % 32 then mergeBit (live.elem i) (mem.elem i) j
      else (live.elem i).getLsbD j := by
  unfold pairRound
  rw [elem_update (by omega) hi]
  by_cases h : i = b / 32
  · subst h
    rw [if_pos rfl]
    have hpair := @adjustPair_getLsbD (live.elem (b / 32)) (mem.elem (b / 32))
      ⟨live.elem (b / 32), live.avail, 0⟩ (b % 32) (by omega) (fun _ _ => rfl) j
    simp only [true_and]
    exact hpair
  · rw [if_neg h, if_neg fun hc => h hc.1]

theorem pairRound_hi {live mem : BmapData} {b : Nat} (hb : b < 256) {c : Nat} (hc : c < 256) :
    (pairRound live mem b).hi c =
      if c = b then mergeBit (live.elem (b / 32)) (mem.elem (b / 32)) (2 * (b % 32) + 1) else live.hi c := by
  unfold BmapData.hi
  rw [pairRound_elem hb (by omega)]
  by_cases h : c = b
  · subst h
    rw [if_pos rfl, if_pos ⟨rfl, by omega⟩]
  · rw [if_neg h, if_neg (by omega)]

theorem pairRound_lo {live mem : BmapData} {b : Nat} (hb : b < 256) {c : Nat} (hc : c < 256) :
    (pairRound live mem b).lo c =
      if c = b then mergeBit (live.elem (b / 32)) (mem.elem (b / 32)) (2 * (b % 32)) else live.lo c := by
  unfold BmapData.lo
  rw [pairRound_elem hb (by omega)]
  by_cases h : c = b
  · subst h
    rw [if_pos rfl, if_pos ⟨rfl, by omega⟩]
  · rw [if_neg h, if_neg (by omega)]

/-- The pairs below `n` are merged, the others are as they were. -/
theorem rounds_below (live mem : BmapData) : ∀ n ≤ 256, ∀ i < 8, ∀ j < 64,
    ((((List.range n).foldl (fun bm b => pairRound bm mem b) live).elem i).getLsbD j) =
      if 32 * i + j / 2 < n then mergeBit (live.elem i) (mem.elem i) j else (live.elem i).getLsbD j
  | 0, _, i, _, j, _ => rfl
  | n + 1, hn, i, hi, j, hj => by
      have ih := rounds_below live mem n (by omega) i hi
      rw [List.range_succ, List.foldl_append, List.foldl_cons, List.foldl_nil, pairRound_elem (by omega) hi]
      by_cases hb : i = n / 32 ∧ j / 2 = n % 32
      · -- The pair of this round was not merged before.
        have hpair : ∀ k < 64, k / 2 = j / 2 →
            (((List.range n).foldl (fun bm b => pairRound bm mem b) live).elem i).getLsbD k =
              (live.elem i).getLsbD k := by
          intro k hk hkj
          rw [ih k hk, if_neg (by omega)]
        rw [if_pos hb, if_pos (by omega)]
        unfold mergeBit
        rw [hpair (2 * (j / 2)) (by omega) (by omega), hpair (2 * (j / 2) + 1) (by omega) (by omega),
          hpair j hj rfl]
      · rw [if_neg hb, ih j hj]
        by_cases hlt : 32 * i + j / 2 < n
        · rw [if_pos hlt, if_pos (by omega)]
        · rw [if_neg hlt, if_neg (by omega)]

/-- **The rounds are the merge**: all of them leave the bitmap `h2_bulkfree_sync_adjust` leaves. -/
theorem rounds_merge (live : BmapData) {mem : BmapData} (adjFree : BitVec 64) (hmem : mem.PairsEqual) {i : Nat}
    (hi : i < 8) : ((List.range 256).foldl (fun bm b => pairRound bm mem b) live).elem i =
      (adjustBitmap mem (List.range bmapElements) (live, adjFree)).1.elem i := by
  refine BitVec.eq_of_getLsbD_eq fun j hj => ?_
  have h := (adjustBitmap_elem hmem (List.range bmapElements) live adjFree List.nodup_range
    (fun i hi => List.mem_range.mp hi)).2 i hi j hj
  rw [if_pos (List.mem_range.mpr hi)] at h
  rw [rounds_below live mem 256 (Nat.le_refl _) i hi j hj, if_pos (by omega), h]

/-! ## The machine -/

structure State where
  map : Account.State
  dios : Dios
  heur : Heur

inductive Event where
  | init (leaf : Nat)
  | alloc (entry cls subKey radix : Nat)
  | hit (readable : Bool) (bref : SnapRef)
  | merge (entry : Nat) (mem : BmapData) (block : Nat)
  | destroy (btype dataOff bytes : Nat)
  | record (c : Recorded) (getticks : BitVec 32) (hz : Int)
  | clear (getticks : BitVec 32)
  | create (dataOff : Nat)
  | reclaim (pbase : Nat)

/-- The offset of a block as bulkfree passes it on, `tmp_off | HAMMER2_FREEMAP_BLOCK_RADIX`. -/
def blockOff (entry block : Nat) : Nat :=
  (entry * freemapLevel0Size + block * freemapBlockSize) ||| freemapBlockRadix

/-- The call on the buffers that belongs to one round of the merge: the assertion on `10 → 00`,
the delete on `11 → 10`. -/
def mergeDios (dios : Dios) (live mem : BmapData) (entry block : Nat) : Option Dios :=
  let m := pairAt (mem.elem (block / 32)) (block % 32)
  let l := pairAt (live.elem (block / 32)) (block % 32)
  if m = 0#64 ∧ l = 2#64 then
    match dedupAssert dios (blockOff entry block) freemapBlockSize with
    | some true => some dios
    | _ => none
  else if m = 0#64 ∧ l = 3#64 then
    dedupDelete dios brefTypeData (blockOff entry block) freemapBlockSize
  else some dios

/-- One event; `none` when it cannot happen, fails an assertion or panics. -/
def step (dev : Dev) (s : State) : Event → Option State
  | .init leaf => (Account.step dev s.map (.init leaf)).map fun map => { s with map := map }
  | .alloc entry cls subKey radix =>
      -- `hammer2_freemap_try_alloc`, the leaf locked from the bitmap to the masks.
      match Account.step dev s.map (.alloc entry cls subKey radix) with
      | none => none
      | some map =>
          match bmapAlloc (s.map.freemap entry) cls subKey radix with
          | .panic => none
          | .enospc => some s
          | .ok _ off _ =>
              if cls >>> 8 = brefTypeData then
                (dedupSet s.dios ((entry * freemapLevel0Size + off) ||| radix)).map fun dios =>
                  { s with map := map, dios := dios }
              else some { s with map := map }
  | .hit readable bref =>
      (Account.freemapAdjust dev s.map readable bref).map fun map => { s with map := map }
  | .merge entry mem block =>
      if s.map.created (leafOf entry) = true ∧ block < 256 then
        (mergeDios s.dios (s.map.freemap entry) mem entry block).map fun dios =>
          { s with
            map := { s.map with
              freemap := Function.update s.map.freemap entry (pairRound (s.map.freemap entry) mem block) }
            dios := dios }
      else none
  | .destroy btype dataOff bytes =>
      (dedupDelete s.dios btype dataOff bytes).map fun dios => { s with dios := dios }
  | .record c getticks hz =>
      -- The offset of a chain is one the allocator handed out.
      if c.dataOff / offRadix * offRadix % allocMin = 0 then
        let r := dedupRecord s.dios s.heur c getticks hz
        some { s with dios := r.1, heur := r.2 }
      else none
  | .clear getticks => some { s with heur := dedupClear s.heur getticks }
  | .create dataOff =>
      (ioBase dataOff).map fun pbase =>
        { s with dios := Function.update s.dios pbase (some ((s.dios pbase).getD ⟨0, 0⟩)) }
  | .reclaim pbase => some { s with dios := Function.update s.dios pbase none }

/-- A mounted device: whatever its freemap, no buffer is in memory and the table is empty. -/
structure Start (s : State) : Prop where
  dios : ∀ pbase, s.dios pbase = none
  heur : ∀ i, (s.heur i).dataOff = 0

/-! ## The invariant -/

/-- The pair of the byte at `off` is `11`. -/
structure Allocated (map : Account.State) (off : Nat) : Prop where
  created : map.created (leafOf (off / segSize)) = true
  hi : (map.freemap (off / segSize)).hi (off % segSize / freemapBlockSize) = true
  lo : (map.freemap (off / segSize)).lo (off % segSize / freemapBlockSize) = true

structure Inv (s : State) : Prop where
  base : ∀ pbase dio, s.dios pbase = some dio → pbase % pbufSize = 0 ∧ pbase ≠ 0
  covered : ∀ pbase f, Candidate s.dios pbase f → Allocated s.map (pbase + f * dedupFrag)
  grain : ∀ i, (s.heur i).dataOff / offRadix * offRadix % allocMin = 0

theorem Start.inv {s : State} (h : Start s) : Inv s where
  base pbase dio hd := by
    rw [h.dios] at hd
    cases hd
  covered pbase f hc := by
    obtain ⟨dio, hd, -⟩ := hc
    rw [h.dios] at hd
    cases hd
  grain i := by
    rw [h.heur]
    rfl

theorem Candidate.lt {dios : Dios} {pbase f : Nat} (h : Candidate dios pbase f) : f < 64 := by
  obtain ⟨dio, -, hbit⟩ := h
  by_contra hge
  rw [BitVec.getLsbD_of_ge _ _ (by omega)] at hbit
  cases hbit

/-- Fewer buffers and bits, a freemap in which no pair goes down, the same table. -/
theorem Inv.mono {s t : State} (h : Inv s)
    (hbase : ∀ pbase dio, t.dios pbase = some dio → ∃ dio', s.dios pbase = some dio')
    (hbits : ∀ pbase f, Candidate t.dios pbase f → Candidate s.dios pbase f)
    (hmap : ∀ off, Allocated s.map off → Allocated t.map off) (hheur : t.heur = s.heur) : Inv t where
  base pbase dio hd := by
    obtain ⟨dio', hd'⟩ := hbase pbase dio hd
    exact h.base pbase dio' hd'
  covered pbase f hc := hmap _ (h.covered pbase f (hbits pbase f hc))
  grain i := by
    rw [hheur]
    exact h.grain i

/-! ## One event of each kind -/

/-- Setting an entry: its allocated bytes, and those of the others. -/
theorem Allocated.set {map : Account.State} {e : Nat} {bm : BmapData} {free : BitVec 64}
    (h : ∀ b < 256, (map.freemap e).hi b = true → (map.freemap e).lo b = true →
      bm.hi b = true ∧ bm.lo b = true) {off : Nat} (ha : Allocated map off) :
    Allocated { map with freemap := Function.update map.freemap e bm, allocatorFree := free } off := by
  by_cases he : off / segSize = e
  · have hb : off % segSize / freemapBlockSize < 256 := by
      simp only [segSize, freemapBlockSize]
      omega
    obtain ⟨hhi, hlo⟩ := h _ hb (he ▸ ha.hi) (he ▸ ha.lo)
    refine ⟨ha.created, ?_, ?_⟩
    · show (Function.update map.freemap e bm (off / segSize)).hi _ = true
      rw [he, Function.update_self]
      exact hhi
    · show (Function.update map.freemap e bm (off / segSize)).lo _ = true
      rw [he, Function.update_self]
      exact hlo
  · refine ⟨ha.created, ?_, ?_⟩
    · show (Function.update map.freemap e bm (off / segSize)).hi _ = true
      rw [Function.update_of_ne he]
      exact ha.hi
    · show (Function.update map.freemap e bm (off / segSize)).lo _ = true
      rw [Function.update_of_ne he]
      exact ha.lo

theorem hi_orElem {bm : BmapData} {i : Nat} {mask : BitVec 64} (hi : i < 8) {b : Nat} (hb : b < 256)
    (h : bm.hi b = true) : (bm.orElem i mask).hi b = true := by
  unfold BmapData.hi at *
  rw [BmapData.elem_orElem hi (by omega)]
  split
  · rename_i heq
    rw [BitVec.getLsbD_or, ← heq, h, Bool.true_or]
  · exact h

theorem lo_orElem {bm : BmapData} {i : Nat} {mask : BitVec 64} (hi : i < 8) {b : Nat} (hb : b < 256)
    (h : bm.lo b = true) : (bm.orElem i mask).lo b = true := by
  unfold BmapData.lo at *
  rw [BmapData.elem_orElem hi (by omega)]
  split
  · rename_i heq
    rw [BitVec.getLsbD_or, ← heq, h, Bool.true_or]
  · exact h

/-- Recovery takes no pair down. -/
theorem recoverPair_mono {cls i bit : Nat} {s : Account.Recover} (hi : i < 8) {b : Nat} (hb : b < 256)
    (hhi : s.bm.hi b = true) (hlo : s.bm.lo b = true) :
    (Account.recoverPair cls i s bit).bm.hi b = true ∧ (Account.recoverPair cls i s bit).bm.lo b = true := by
  unfold Account.recoverPair
  dsimp only
  split
  · exact ⟨hhi, hlo⟩
  · cases s.modified with
    | true => exact ⟨hi_orElem hi hb hhi, lo_orElem hi hb hlo⟩
    | false =>
        exact ⟨@hi_orElem { s.bm with linear := 0 } _ _ hi _ hb hhi,
          @lo_orElem { s.bm with linear := 0 } _ _ hi _ hb hlo⟩

theorem recoverLoop_mono {cls i : Nat} (hi : i < 8) {b : Nat} (hb : b < 256) :
    ∀ (count : Nat) {s : Account.Recover} {start : Nat}, s.bm.hi b = true → s.bm.lo b = true →
    (Account.recoverLoop cls i s start count).bm.hi b = true ∧
      (Account.recoverLoop cls i s start count).bm.lo b = true
  | 0, s, start, hhi, hlo => ⟨hhi, hlo⟩
  | count + 1, s, start, hhi, hlo => by
      obtain ⟨hhi', hlo'⟩ := @recoverPair_mono cls i start s hi b hb hhi hlo
      exact recoverLoop_mono hi hb count hhi' hlo'

theorem freemapAdjust_mono {dev : Dev} {map map' : Account.State} {readable : Bool} {bref : SnapRef}
    (h : Account.freemapAdjust dev map readable bref = some map') {off : Nat} (ha : Allocated map off) :
    Allocated map' off := by
  unfold Account.freemapAdjust at h
  dsimp only at h
  split at h
  · cases h
  split at h
  · obtain rfl := Option.some.inj h
    exact ha
  split at h
  · cases h
  split at h
  · cases h
  split at h
  · obtain rfl := Option.some.inj h
    exact ha
  · obtain rfl := Option.some.inj h
    exact ha.set fun b hb hhi hlo => recoverLoop_mono (Nat.mod_lt _ (by decide)) hb _ hhi hlo

theorem init_mono {dev : Dev} {map map' : Account.State} {leaf : Nat}
    (h : Account.step dev map (.init leaf) = some map') {off : Nat} (ha : Allocated map off) :
    Allocated map' off := by
  dsimp only [Account.step] at h
  split at h
  · rename_i hc
    obtain rfl := Option.some.inj h
    -- The byte is in a leaf that exists, so not in the new one.
    have hne : leafOf (off / segSize) ≠ leaf := by
      intro heq
      have hcreated := ha.created
      rw [heq, hc.1] at hcreated
      cases hcreated
    refine ⟨?_, ?_, ?_⟩
    · show Function.update map.created leaf true (leafOf (off / segSize)) = true
      rw [Function.update_of_ne hne]
      exact ha.created
    · show BmapData.hi (if leafOf (off / segSize) = leaf then _ else map.freemap (off / segSize)) _ = true
      rw [if_neg hne]
      exact ha.hi
    · show BmapData.lo (if leafOf (off / segSize) = leaf then _ else map.freemap (off / segSize)) _ = true
      rw [if_neg hne]
      exact ha.lo
  · cases h

/-- The offset under its radix. -/
theorem or_radix {key radix : Nat} (hkey : key % offRadix = 0) (hr : radix < offRadix) :
    (key ||| radix) / offRadix * offRadix = key ∧ (key ||| radix) % offRadix = radix := by
  obtain ⟨q, rfl⟩ := Nat.dvd_of_mod_eq_zero hkey
  have hor : offRadix * q ||| radix = offRadix * q + radix :=
    (Nat.two_pow_add_eq_or_of_lt (i := 6) hr q).symm
  rw [hor]
  simp only [offRadix] at *
  omega

/-- What an allocation does to the freemap: no pair goes down, and the bytes handed out are
allocated. -/
theorem alloc_map {dev : Dev} {map map' : Account.State} {e cls subKey radix off g : Nat} {bm : BmapData}
    (h : Account.step dev map (.alloc e cls subKey radix) = some map')
    (hok : bmapAlloc (map.freemap e) cls subKey radix = .ok bm off g) :
    (∀ x, Allocated map x → Allocated map' x) ∧ Placed off radix ∧
      ∀ x, e * freemapLevel0Size + off ≤ x → x < e * freemapLevel0Size + off + 1 <<< radix →
        Allocated map' x := by
  dsimp only [Account.step] at h
  split at h
  · rename_i hargs
    rw [hok] at h
    dsimp only at h
    split at h
    · obtain rfl := Option.some.inj h
      have hspec := bmapAlloc_spec hargs.1 hargs.2.1 hok
      refine ⟨fun x hx => hx.set fun b hb hhi hlo => ?_, hspec.placed, fun x hx hx' => ?_⟩
      · rw [hspec.hi b hb, hspec.lo b hb, hhi, hlo]
        exact ⟨rfl, rfl⟩
      · have hin := hspec.placed.inside
        have he : x / segSize = e := by
          simp only [freemapLevel0Size, segSize] at *
          omega
        have hb : x % segSize / freemapBlockSize < 256 := by
          simp only [segSize, freemapBlockSize]
          omega
        have htouch : Touches off radix (x % segSize / freemapBlockSize) := by
          unfold Touches
          simp only [freemapLevel0Size, segSize, freemapBlockSize] at *
          omega
        refine ⟨he ▸ hargs.2.2, ?_, ?_⟩
        · show (Function.update map.freemap e bm (x / segSize)).hi _ = true
          rw [he, Function.update_self, hspec.hi _ hb, decide_eq_true htouch, Bool.or_true]
        · show (Function.update map.freemap e bm (x / segSize)).lo _ = true
          rw [he, Function.update_self, hspec.lo _ hb, decide_eq_true htouch, Bool.or_true]
    · cases h
  · cases h

/-- The offset of a block, its size and its buffer. -/
theorem blockOff_spec (e b : Nat) :
    blockOff e b / offRadix * offRadix = e * freemapLevel0Size + b * freemapBlockSize ∧
      offBytes (blockOff e b) = freemapBlockSize := by
  have hkey : (e * freemapLevel0Size + b * freemapBlockSize) % offRadix = 0 := by
    simp only [freemapLevel0Size, freemapBlockSize, offRadix]
    omega
  obtain ⟨hoff, hr⟩ := @or_radix _ freemapBlockRadix hkey (by decide)
  refine ⟨hoff, ?_⟩
  unfold offBytes blockOff
  rw [hr]
  rfl

/-- Sixteen fragments make a block, four blocks a buffer. -/
theorem block_buffer {y pbase f : Nat} (hp : pbase % 65536 = 0) (hf : f < 64) (hgrain : y % 16384 = 0)
    (hle : y ≤ pbase + f * 1024) (hlt : pbase + f * 1024 < y + 16384) :
    y / 65536 * 65536 = pbase ∧ (y + 16384 - 1) / 65536 * 65536 = pbase ∧
      (y - pbase) / 1024 ≤ f ∧ f < (y - pbase) / 1024 + (16384 + (1024 - 1)) / 1024 :=
  ⟨by omega, by omega, by omega, by omega⟩

/-- A fragment of a block is in the range bulkfree passes on for the block. -/
theorem blockOff_fragment {e b pbase f : Nat} (hp : pbase % pbufSize = 0) (hne : pbase ≠ 0) (hf : f < 64)
    (he : (pbase + f * dedupFrag) / segSize = e)
    (hb : (pbase + f * dedupFrag) % segSize / freemapBlockSize = b) :
    ioBase (blockOff e b) = some pbase ∧ dedupBeg pbase (blockOff e b) ≤ f ∧
      f < dedupBeg pbase (blockOff e b) + dedupBits freemapBlockSize := by
  obtain ⟨hoff, hbytes⟩ := blockOff_spec e b
  unfold ioBase dedupBeg dedupBits
  dsimp only
  rw [hoff, hbytes]
  clear hoff hbytes
  simp only [pbufSize, segSize, freemapLevel0Size, freemapBlockSize, dedupFrag] at *
  obtain ⟨hbase, hlast, hf1, hf2⟩ := @block_buffer (e * 4194304 + b * 16384) pbase f hp hf (by omega)
    (by omega) (by omega)
  rw [hbase, hlast, if_neg (not_or.mpr ⟨hne, not_not.mpr rfl⟩)]
  exact ⟨rfl, hf1, hf2⟩

/-- The bits of a pair, as the merge reads it. -/
theorem pairAt_three {bm : BmapData} {b : Nat} (hhi : bm.hi b = true) (hlo : bm.lo b = true) :
    pairAt (bm.elem (b / 32)) (b % 32) = 3#64 := by
  unfold BmapData.hi at hhi
  unfold BmapData.lo at hlo
  rw [pairAt_eq, hhi, hlo]
  rfl

/-- A pair that is `11` stays `11` in its round, unless the scan did not see it. -/
theorem pairRound_three {live mem : BmapData} {b : Nat} (hb : b < 256) (hhi : live.hi b = true)
    (hlo : live.lo b = true) (hm : pairAt (mem.elem (b / 32)) (b % 32) ≠ 0#64) :
    (pairRound live mem b).hi b = true ∧ (pairRound live mem b).lo b = true := by
  rw [pairRound_hi hb hb, pairRound_lo hb hb, if_pos rfl, if_pos rfl]
  unfold BmapData.hi at hhi
  unfold BmapData.lo at hlo
  have h0 : 2 * (b % 32) / 2 = b % 32 := by omega
  have h1 : (2 * (b % 32) + 1) / 2 = b % 32 := by omega
  have h2 : (2 * (b % 32) + 1) % 2 = 1 := by omega
  rw [pairAt_eq] at hm
  simp only [mergeBit, h0, h1, h2, hhi, hlo]
  cases hmh : (mem.elem (b / 32)).getLsbD (2 * (b % 32) + 1) <;>
    cases hml : (mem.elem (b / 32)).getLsbD (2 * (b % 32)) <;> simp [hmh, hml] at hm ⊢

/-- The buffers and bits after the call of a round are among those before it. -/
theorem mergeDios_sub {dios dios' : Dios} {live mem : BmapData} {e b : Nat}
    (h : mergeDios dios live mem e b = some dios') :
    (∀ pbase dio, dios' pbase = some dio → ∃ dio', dios pbase = some dio') ∧
      ∀ pbase f, Candidate dios' pbase f → Candidate dios pbase f := by
  unfold mergeDios at h
  dsimp only at h
  split at h
  · split at h
    · obtain rfl := Option.some.inj h
      exact ⟨fun _ dio hd => ⟨dio, hd⟩, fun _ _ hc => hc⟩
    · cases h
  split at h
  · exact ⟨fun _ _ hd => dedupDelete_base h hd, fun _ _ hc => (dedupDelete_candidate h hc).1⟩
  · obtain rfl := Option.some.inj h
    exact ⟨fun _ dio hd => ⟨dio, hd⟩, fun _ _ hc => hc⟩

theorem merge_inv {s : State} {e b : Nat} {mem : BmapData} {dios' : Dios} (h : Inv s) (hb : b < 256)
    (hd : mergeDios s.dios (s.map.freemap e) mem e b = some dios') :
    Inv { s with
      map := { s.map with freemap := Function.update s.map.freemap e (pairRound (s.map.freemap e) mem b) }
      dios := dios' } := by
  obtain ⟨hbase, hbits⟩ := mergeDios_sub hd
  refine ⟨fun pbase dio hdio => ?_, fun pbase f hc => ?_, h.grain⟩
  · obtain ⟨dio', hdio'⟩ := hbase pbase dio hdio
    exact h.base pbase dio' hdio'
  · have hold := hbits pbase f hc
    have ha := h.covered pbase f hold
    by_cases hblock : (pbase + f * dedupFrag) / segSize = e ∧
        (pbase + f * dedupFrag) % segSize / freemapBlockSize = b
    · -- The block of this round: it was `11`, so the scan saw it, or its bits are gone.
      obtain ⟨he, hb'⟩ := hblock
      have hhi : (s.map.freemap e).hi b = true := by
        have hhi := ha.hi
        rwa [he, hb'] at hhi
      have hlo : (s.map.freemap e).lo b = true := by
        have hlo := ha.lo
        rwa [he, hb'] at hlo
      have hm : pairAt (mem.elem (b / 32)) (b % 32) ≠ 0#64 := by
        intro hm
        obtain ⟨dio, hdio, -⟩ := hold
        obtain ⟨hp, hne⟩ := h.base pbase dio hdio
        obtain ⟨hio, hf, hf'⟩ := blockOff_fragment hp hne hc.lt he hb'
        unfold mergeDios at hd
        dsimp only at hd
        rw [pairAt_three hhi hlo, if_neg (by rw [hm]; decide), if_pos ⟨hm, rfl⟩] at hd
        have hclear := (dedupDelete_candidate hd hc).2 rfl
        refine hclear ?_ hio ⟨hf, hf'⟩
        rw [(blockOff_spec e b).1]
        simp only [pbufSize, segSize, freemapLevel0Size, freemapBlockSize, dedupFrag] at *
        omega
      obtain ⟨hhi', hlo'⟩ := pairRound_three hb hhi hlo hm
      refine ⟨ha.created, ?_, ?_⟩
      · show (Function.update s.map.freemap e _ _).hi _ = true
        rw [he, Function.update_self, hb']
        exact hhi'
      · show (Function.update s.map.freemap e _ _).lo _ = true
        rw [he, Function.update_self, hb']
        exact hlo'
    · -- Every other pair is as it was.
      have hblk : (pbase + f * dedupFrag) % segSize / freemapBlockSize < 256 := by
        simp only [segSize, freemapBlockSize]
        omega
      by_cases he : (pbase + f * dedupFrag) / segSize = e
      · have hne : (pbase + f * dedupFrag) % segSize / freemapBlockSize ≠ b := fun hb' => hblock ⟨he, hb'⟩
        refine ⟨ha.created, ?_, ?_⟩
        · show (Function.update s.map.freemap e _ _).hi _ = true
          rw [he, Function.update_self, pairRound_hi hb hblk, if_neg hne, ← he]
          exact ha.hi
        · show (Function.update s.map.freemap e _ _).lo _ = true
          rw [he, Function.update_self, pairRound_lo hb hblk, if_neg hne, ← he]
          exact ha.lo
      · refine ⟨ha.created, ?_, ?_⟩
        · show (Function.update s.map.freemap e _ _).hi _ = true
          rw [Function.update_of_ne he]
          exact ha.hi
        · show (Function.update s.map.freemap e _ _).lo _ = true
          rw [Function.update_of_ne he]
          exact ha.lo

/-- An allocation for file data: the bits it sets cover the range it took. -/
theorem alloc_inv {dev : Dev} {s : State} {map' : Account.State} {dios' : Dios}
    {e cls subKey radix off g : Nat} {bm : BmapData} (h : Inv s)
    (hmap : Account.step dev s.map (.alloc e cls subKey radix) = some map')
    (hok : bmapAlloc (s.map.freemap e) cls subKey radix = .ok bm off g)
    (hset : dedupSet s.dios ((e * freemapLevel0Size + off) ||| radix) = some dios') :
    Inv { s with map := map', dios := dios' } := by
  obtain ⟨hmono, hplaced, hrange⟩ := alloc_map hmap hok
  have hgrain := hplaced.grain
  have hlo := hplaced.radix_lo
  have hhi := hplaced.radix_hi
  have hkey : (e * freemapLevel0Size + off) % offRadix = 0 := by
    simp only [freemapLevel0Size, offRadix, allocMin] at *
    omega
  obtain ⟨hoff, hr⟩ := @or_radix _ radix hkey (by simp only [offRadix, radixMax] at *; omega)
  have hbytes : offBytes ((e * freemapLevel0Size + off) ||| radix) = 1 <<< radix := by
    unfold offBytes
    rw [hr, if_pos (by simp only [radixMin] at hlo; omega)]
  refine ⟨fun pbase dio hdio => ?_, fun pbase f hc => ?_, h.grain⟩
  · rcases dedupSet_base hset hdio with ⟨dio', hdio'⟩ | hio
    · exact h.base pbase dio' hdio'
    · exact ⟨(ioBase_spec hio).1, ioBase_ne hio⟩
  · rcases dedupSet_candidate hset hc with hold | ⟨hio, hf, hf'⟩
    · exact hmono _ (h.covered pbase f hold)
    · obtain ⟨hp, hin⟩ := ioBase_spec hio
      have hin' := hin.base
      obtain ⟨-, hsize, -⟩ := radix_cases hlo hhi
      unfold dedupBeg at hf hf'
      unfold dedupBits at hf'
      rw [hoff] at hf hf' hin'
      rw [hbytes] at hf'
      generalize 1 <<< radix = size at *
      refine hrange _ ?_ ?_ <;>
        simp only [freemapLevel0Size, pbufSize, allocMin, dedupFrag] at * <;> omega

theorem record_inv {s : State} {c : Recorded} (getticks : BitVec 32) (hz : Int) (h : Inv s)
    (hc : c.dataOff / offRadix * offRadix % allocMin = 0) :
    Inv { s with
      dios := (dedupRecord s.dios s.heur c getticks hz).1
      heur := (dedupRecord s.dios s.heur c getticks hz).2 } := by
  refine ⟨fun pbase dio hd => ?_, fun pbase f hcand => ?_, fun i => ?_⟩
  · obtain ⟨dio', hd', -⟩ := dedupRecord_dio hd
    exact h.base pbase dio' hd'
  · obtain ⟨dio, hd, hbit⟩ := hcand
    obtain ⟨dio', hd', heq⟩ := dedupRecord_dio hd
    exact h.covered pbase f ⟨dio', hd', heq ▸ hbit⟩
  · show ((dedupRecord s.dios s.heur c getticks hz).2 i).dataOff / offRadix * offRadix % allocMin = 0
    unfold dedupRecord
    dsimp only
    split
    · exact h.grain i
    · split
      · dsimp only
        by_cases hi : i = dedupIndex c.crc + dedupBest s.heur (dedupIndex c.crc) c.crc hz 4 0
        · subst hi
          rw [Function.update_self]
          exact hc
        · rw [Function.update_of_ne hi]
          exact h.grain i
      · exact h.grain i

theorem create_inv {s : State} {dataOff pbase : Nat} (h : Inv s) (hio : ioBase dataOff = some pbase) :
    Inv { s with dios := Function.update s.dios pbase (some ((s.dios pbase).getD ⟨0, 0⟩)) } := by
  have hne : pbase ≠ 0 := ioBase_ne hio
  refine ⟨fun p dio hd => ?_, fun p f hc => ?_, h.grain⟩
  · by_cases hp : p = pbase
    · exact hp ▸ ⟨(ioBase_spec hio).1, hne⟩
    · have hd' : Function.update s.dios pbase _ p = some dio := hd
      rw [Function.update_of_ne hp] at hd'
      exact h.base p dio hd'
  · refine h.covered p f ?_
    obtain ⟨dio, hd, hbit⟩ := hc
    have hd' : Function.update s.dios pbase (some ((s.dios pbase).getD ⟨0, 0⟩)) p = some dio := hd
    by_cases hp : p = pbase
    · subst hp
      rw [Function.update_self] at hd'
      obtain rfl := Option.some.inj hd'
      cases hold : s.dios p with
      | none =>
          rw [hold] at hbit
          exact absurd hbit (by simp)
      | some dio =>
          rw [hold] at hbit
          exact ⟨dio, hold, hbit⟩
    · rw [Function.update_of_ne hp] at hd'
      exact ⟨dio, hd', hbit⟩

theorem reclaim_inv {s : State} (pbase : Nat) (h : Inv s) :
    Inv { s with dios := Function.update s.dios pbase none } := by
  have hold : ∀ p dio, Function.update s.dios pbase none p = some dio → s.dios p = some dio := by
    intro p dio hd
    by_cases hp : p = pbase
    · subst hp
      rw [Function.update_self] at hd
      cases hd
    · rwa [Function.update_of_ne hp] at hd
  refine ⟨fun p dio hd => h.base p dio (hold p dio hd), fun p f hc => ?_, h.grain⟩
  obtain ⟨dio, hd, hbit⟩ := hc
  exact h.covered p f ⟨dio, hold p dio hd, hbit⟩

/-- **One event.** -/
theorem step_inv {dev : Dev} {s t : State} {a : Event} (h : Inv s) (hstep : step dev s a = some t) : Inv t := by
  cases a with
  | init leaf =>
      obtain ⟨map, hmap, rfl⟩ := Option.map_eq_some_iff.mp hstep
      exact h.mono (fun _ dio hd => ⟨dio, hd⟩) (fun _ _ hc => hc) (fun _ => init_mono hmap) rfl
  | alloc e cls subKey radix =>
      dsimp only [step] at hstep
      split at hstep
      · cases hstep
      rename_i map hmap
      split at hstep
      · cases hstep
      · obtain rfl := Option.some.inj hstep
        exact h
      rename_i bm off g hok
      split at hstep
      · obtain ⟨dios, hset, rfl⟩ := Option.map_eq_some_iff.mp hstep
        exact alloc_inv h hmap hok hset
      · obtain rfl := Option.some.inj hstep
        exact h.mono (fun _ dio hd => ⟨dio, hd⟩) (fun _ _ hc => hc) (alloc_map hmap hok).1 rfl
  | hit readable bref =>
      obtain ⟨map, hmap, rfl⟩ := Option.map_eq_some_iff.mp hstep
      exact h.mono (fun _ dio hd => ⟨dio, hd⟩) (fun _ _ hc => hc) (fun _ => freemapAdjust_mono hmap) rfl
  | merge e mem b =>
      dsimp only [step] at hstep
      split at hstep
      · rename_i hguard
        obtain ⟨dios, hd, rfl⟩ := Option.map_eq_some_iff.mp hstep
        exact merge_inv h hguard.2 hd
      · cases hstep
  | destroy btype dataOff bytes =>
      obtain ⟨dios, hd, rfl⟩ := Option.map_eq_some_iff.mp hstep
      exact h.mono (fun _ _ hdio => dedupDelete_base hd hdio)
        (fun _ _ hc => (dedupDelete_candidate hd hc).1) (fun _ ha => ha) rfl
  | record c getticks hz =>
      dsimp only [step] at hstep
      split at hstep
      · rename_i hc
        obtain rfl := Option.some.inj hstep
        exact record_inv getticks hz h hc
      · cases hstep
  | clear getticks =>
      obtain rfl := Option.some.inj hstep
      refine ⟨h.base, h.covered, fun i => ?_⟩
      show 0 / offRadix * offRadix % allocMin = 0
      rfl
  | create dataOff =>
      obtain ⟨pbase, hio, rfl⟩ := Option.map_eq_some_iff.mp hstep
      exact create_inv h hio
  | reclaim pbase =>
      obtain rfl := Option.some.inj hstep
      exact reclaim_inv pbase h

/-! ## What follows from the invariant -/

/-- The bytes of a fragment are in one block. -/
theorem Allocated.byte {map : Account.State} {x : Nat} (h : Allocated map (x / dedupFrag * dedupFrag)) :
    Allocated map x := by
  have hseg : x / dedupFrag * dedupFrag / segSize = x / segSize := by
    simp only [dedupFrag, segSize]
    omega
  have hblock : x / dedupFrag * dedupFrag % segSize / freemapBlockSize = x % segSize / freemapBlockSize := by
    simp only [dedupFrag, segSize, freemapBlockSize]
    omega
  obtain ⟨hc, hhi, hlo⟩ := h
  rw [hseg] at hc hhi hlo
  rw [hblock] at hhi hlo
  exact ⟨hc, hhi, hlo⟩

/-- A hit is on allocated storage. -/
theorem Inv.lookup {s : State} (h : Inv s) {pblksize off x : Nat} (hit : Hit s.dios s.heur pblksize off)
    (hle : off / offRadix * offRadix ≤ x) (hlt : x < off / offRadix * offRadix + pblksize) :
    Allocated s.map x := by
  obtain ⟨i, hi⟩ := hit.entry
  obtain ⟨pbase, hio, hmask⟩ := hit.mask
  have hgrain := h.grain i
  rw [hi] at hgrain
  obtain ⟨hp, hin⟩ := ioBase_spec hio
  have hdio : InDio pbase off pblksize := by
    refine ⟨hin.base, hin.lt, ?_⟩
    have hstop := hin.stop
    by_cases hr : off % offRadix = 0
    · -- Without a radix the size is 1.
      have hlt' := hin.lt
      have hsize := hit.size
      rw [hr] at hsize
      simp only [Nat.shiftLeft_zero] at hsize
      omega
    · rw [offBytes, if_pos hr, hit.size] at hstop
      exact hstop
  have hcov : (dedupMask pbase off pblksize).getLsbD ((x - pbase) / dedupFrag) = true := by
    refine dedupMask_covers hdio (Or.inr ?_)
    have hbase := hdio.base
    generalize off / offRadix * offRadix = y at *
    simp only [pbufSize, allocMin, dedupFrag] at *
    omega
  have halloc := h.covered _ _ (hmask _ hcov)
  refine Allocated.byte ?_
  have hx : pbase + (x - pbase) / dedupFrag * dedupFrag = x / dedupFrag * dedupFrag := by
    have hbase := hdio.base
    generalize off / offRadix * offRadix = y at *
    simp only [pbufSize, dedupFrag] at *
    omega
  rwa [hx] at halloc

/-- The assertion on `10 → 00` does not fire. -/
theorem Inv.assert {s : State} (h : Inv s) {e b : Nat} (hb : b < 256)
    (hpair : ¬ ((s.map.freemap e).hi b = true ∧ (s.map.freemap e).lo b = true)) :
    dedupAssert s.dios (blockOff e b) freemapBlockSize ≠ some false := by
  intro hfire
  obtain ⟨pbase, hio, -⟩ := Option.map_eq_some_iff.mp hfire
  obtain ⟨hp, hin⟩ := ioBase_spec hio
  obtain ⟨hoff, hbytes⟩ := blockOff_spec e b
  rw [hbytes] at hin
  have hpass := dedupAssert_of hio hin fun f hf hf' hc => by
    have halloc := h.covered pbase f hc
    have hbase := hin.base
    unfold dedupBeg at hf hf'
    unfold dedupBits at hf'
    rw [hoff] at hf hf' hbase
    have he : (pbase + f * dedupFrag) / segSize = e := by
      simp only [pbufSize, segSize, freemapLevel0Size, freemapBlockSize, dedupFrag] at *
      omega
    have hblk : (pbase + f * dedupFrag) % segSize / freemapBlockSize = b := by
      simp only [pbufSize, segSize, freemapLevel0Size, freemapBlockSize, dedupFrag] at *
      omega
    refine hpair ⟨?_, ?_⟩
    · have hhi := halloc.hi
      rwa [he, hblk] at hhi
    · have hlo := halloc.lo
      rwa [he, hblk] at hlo
  rw [hpass] at hfire
  cases hfire

/-- **Dedup candidacy implies allocation.**  In every state of every run since the mount: a bit
of `dedup_alloc` covers a fragment whose pair is `11`; every byte of the range a lookup returns
is in a pair that is `11`; and the assertion bulkfree makes when it frees a block that is staged
does not fire.  The mask of a range covers its fragments. -/
theorem run_covered {dev : Dev} {s₀ s : State} {events : List Event} (h₀ : Start s₀)
    (hrun : exec (step dev) s₀ events = some s) :
    (∀ pbase f, Candidate s.dios pbase f → Allocated s.map (pbase + f * dedupFrag)) ∧
    (∀ bcmp crc pblksize off, dedupLookup s.dios s.heur bcmp crc pblksize = .hit off →
      ∀ x, off / offRadix * offRadix ≤ x → x < off / offRadix * offRadix + pblksize →
        Allocated s.map x) ∧
    (∀ e b, b < 256 → (s.map.freemap e).hi b = true → (s.map.freemap e).lo b = false →
      dedupAssert s.dios (blockOff e b) freemapBlockSize ≠ some false) ∧
    (∀ pbase dataOff bytes f, InDio pbase dataOff bytes →
      (dataOff / offRadix * offRadix ≤ pbase + f * dedupFrag ∧
          pbase + (f + 1) * dedupFrag ≤ dataOff / offRadix * offRadix + bytes) ∨
        ((dataOff / offRadix * offRadix - pbase) % dedupFrag = 0 ∧
          dataOff / offRadix * offRadix < pbase + (f + 1) * dedupFrag ∧
          pbase + f * dedupFrag < dataOff / offRadix * offRadix + bytes) →
      (dedupMask pbase dataOff bytes).getLsbD f = true) := by
  have hinv : Inv s := exec_invariant' (fun _ _ _ hi hs => step_inv hi hs) h₀.inv hrun
  refine ⟨hinv.covered, ?_, ?_, ?_⟩
  · intro bcmp crc pblksize off hhit x hle hlt
    exact hinv.lookup (dedupLookup_hit hhit) hle hlt
  · intro e b hb _ hlo
    refine hinv.assert hb fun hpair => ?_
    rw [hpair.2] at hlo
    cases hlo
  · intro pbase dataOff bytes f hin hf
    exact dedupMask_covers hin hf

/-- A device just mounted, without a leaf. -/
def mounted : State := ⟨⟨fun _ => false, fun _ => reservedBmap, 0⟩, fun _ => none, fun _ => ⟨0, 0, 0⟩⟩

/-- A 64KB file block in entry 8 of a device of 1GB: sixty-four candidates. -/
theorem run_covered_block : ∃ s,
    exec (step ⟨20974592, 1073741824⟩) mounted [.init 0, .alloc 8 784 0 16] = some s ∧
    s.dios 33554432 = some ⟨BitVec.allOnes 64, 0⟩ ∧
    ∀ pbase f, Candidate s.dios pbase f → Allocated s.map (pbase + f * dedupFrag) := by
  refine ⟨_, rfl, by decide, ?_⟩
  exact (@run_covered ⟨20974592, 1073741824⟩ mounted _ [.init 0, .alloc 8 784 0 16]
    ⟨fun _ => rfl, fun _ => rfl⟩ rfl).1

end Hammer2.Dedup
