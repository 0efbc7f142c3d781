/-
# `Hammer2.Freemap.Account` — free space accounting

Three figures count free space: the `00` pairs of a bitmap entry, its `avail`, and
`voldata.allocator_free` for the whole filesystem.  Leaf initialisation, allocation, the
adjustment of recovery and bulkfree each update them in their own way; the pairs are what
an allocation can take.

    freemapAdjust      hammer2_freemap_adjust
    newfs              the accounts of a new filesystem
    freeBytes          the sum of `avail`, a leaf not created yet counting as
                       `freemapInit` would make it
    run_accounts       in every run `avail` is 16KB for each `00` pair, and
                       `allocator_free` moves with `freeBytes`

A pass of bulkfree runs the rounds of one window and then credits `adj_free`, as one event.
-/
import Hammer2.Freemap.Safety
import Hammer2.Freemap.FreeCount
import Mathlib.Algebra.BigOperators.Ring.Finset
import Mathlib.Data.BitVec
import Mathlib.Tactic.LinearCombination
import Mathlib.Tactic.Ring

namespace Hammer2.Account

open BitField Machine Freemap
open Finset (range)

abbrev zoneBytes : Nat := 2147483648
abbrev newfsAlign : Nat := 8388608
abbrev inodeBytes : Nat := 1024

/-! ## `hammer2_freemap_adjust` -/

/-- What the loop of `hammer2_freemap_adjust` carries. -/
structure Recover where
  bm : BmapData
  modified : Bool
  bgsize : Nat

/-- One round of the loop: the pair at bit `bit` of element `i`.  The first pair that is not
`11` makes the chain modified and, by `goto again`, resets the linear iterator. -/
def recoverPair (cls i : Nat) (s : Recover) (bit : Nat) : Recover :=
  let bmmask11 := 3#64 <<< bit
  if s.bm.elem i &&& bmmask11 = bmmask11 then s
  else
    let bm := if s.modified then s.bm else { s.bm with linear := 0 }
    let unallocated : Bool := bm.elem i &&& bmmask11 = 0#64
    { bm := { bm.orElem i bmmask11 with
        cls := if bm.cls = 0 then cls else bm.cls
        avail := if unallocated then bm.avail - BitVec.ofNat 32 freemapBlockSize else bm.avail }
      modified := true
      bgsize := if unallocated then s.bgsize + freemapBlockSize else s.bgsize }

/-- The loop: `count` pairs from bit `start` on.  `start` is below 32 and `count` at most 4,
so the mask is never shifted out. -/
def recoverLoop (cls i : Nat) (s : Recover) (start : Nat) : Nat → Recover
  | 0 => s
  | count + 1 => recoverLoop cls i (recoverPair cls i s start) (start + 2) count

/-- The filesystem's freemap: which leaves exist, the entries by number, and the free space
of the volume header. -/
structure State where
  created : Nat → Bool
  freemap : Nat → BmapData
  allocatorFree : BitVec 64

/-- The leaf an entry is in. -/
abbrev leafOf (e : Nat) : Nat := e / freemapCount

/-- `hammer2_freemap_adjust` with `HAMMER2_FREEMAP_DORECOVER`.  `none` is a failed assertion,
or the missing leaf whose error the code reads.  `readable` says that the leaf is without an
error. -/
def freemapAdjust (dev : Dev) (s : State) (readable : Bool) (bref : SnapRef) : Option State :=
  let radix := bref.dataOff % 64
  if radix = 0 ∨ radix > radixMax then none
  else
    let dataOff := bref.dataOff / 64 * 64
    if dataOff < dev.allocatorBeg then some s
    else if dataOff % zoneBytes < zoneSeg then none
    else
      let e := dataOff / segSize
      if s.created (leafOf e) = false then none
      else if readable = false then some s
      else
        let start := dataOff / freemapBlockSize % 16 * 2
        let count := if radix < freemapBlockRadix then 1 else 1 <<< (radix - freemapBlockRadix)
        let i := dataOff / bmapIndexSize % 8
        let r := recoverLoop (bref.type <<< 8 ||| pbufRadix) i ⟨s.freemap e, false, 0⟩ start count
        some { s with
          freemap := Function.update s.freemap e r.bm
          allocatorFree := s.allocatorFree - BitVec.ofNat 64 r.bgsize }

/-! ## A new filesystem -/

/-- The sizes `newfs_hammer2` works with; those of the areas before they are rounded. -/
structure MkfsOptions where
  totalSize : Nat
  bootAreaSize : Nat
  auxAreaSize : Nat
  nLabels : Nat
deriving DecidableEq

/-- `(size + HAMMER2_VOLUME_ALIGNMASK64) & ~HAMMER2_VOLUME_ALIGNMASK64` -/
def alignUp (size : Nat) : Nat := (size + (newfsAlign - 1)) / newfsAlign * newfsAlign

/-- The accounts of a new filesystem: `allocator_free` is the free size, no leaf exists.
`none` where `newfs_hammer2` gives up or fails an assertion. -/
def newfs (opt : MkfsOptions) : Option (Dev × State) :=
  let totalSize := opt.totalSize / newfsAlign * newfsAlign
  let boot := alignUp opt.bootAreaSize
  let aux := alignUp opt.auxAreaSize
  let reserved := (totalSize + (freemapLevel1Size - 1)) / freemapLevel1Size * zoneSeg
  let allocBase := zoneSeg + boot + aux
  let allocatorBeg := allocBase + inodeBytes * (1 + opt.nLabels)
  if totalSize < reserved + boot + aux then none
  else
    let freeSize := totalSize - reserved - boot - aux
    if 2 ^ 63 ≤ freeSize then none
    else if freemapLevel1Size ≤ allocBase then none
    else if (allocatorBeg - 1) / pbufSize ≠ allocBase / pbufSize then none
    else some (⟨allocatorBeg, totalSize⟩, {
      created := fun _ => false
      freemap := fun _ => reservedBmap
      allocatorFree := BitVec.ofNat 64 freeSize })

/-! ## The machine -/

/-- The rounds of `h2_bulkfree_sync` over the window of `p`.  A leaf that does not exist is
passed over, and a lookup error breaks off: the list is then shorter than the window. -/
def syncRounds (dev : Dev) (created : Nat → Bool) : (Nat → BmapData) → Pass → List SyncEnv →
    (Nat → BmapData) × Pass
  | freemap, p, [] => (freemap, p)
  | freemap, p, env :: envs =>
      let dataOff := p.cb.sbase + p.pos * freemapLevel0Size
      if dataOff < p.cb.sstop then
        let env := if created (leafOf (dataOff / freemapLevel0Size)) then env else .unavailable
        let r := syncRound dev freemap p env
        syncRounds dev created r.1 r.2 envs
      else (freemap, p)

inductive Event where
  | init (leaf : Nat)
  | alloc (entry cls subKey radix : Nat)
  | adjust (readable : Bool) (bref : SnapRef)
  | bulkfree (cb : Cbinfo) (envs : List SyncEnv)

/-- `hammer2_freemap_init` on a new leaf. -/
def initLeaf (dev : Dev) (s : State) (leaf : Nat) : State :=
  { s with
    created := Function.update s.created leaf true
    freemap := fun e =>
      if leafOf e = leaf then freemapInit dev (leaf * freemapLevel1Size) (e % freemapCount)
      else s.freemap e }

/-- One event; `none` when it cannot happen or fails an assertion. -/
def step (dev : Dev) (s : State) : Event → Option State
  | .init leaf =>
      -- `bnext` is at most the total size.
      if s.created leaf = false ∧ leaf * freemapLevel1Size ≤ dev.totalSize then
        some (initLeaf dev s leaf)
      else none
  | .alloc entry cls subKey radix =>
      if radixMin ≤ radix ∧ radix ≤ radixMax ∧ s.created (leafOf entry) = true then
        match bmapAlloc (s.freemap entry) cls subKey radix with
        | .panic => none
        | .enospc => some s
        | .ok bm off bgsize =>
            let key := entry * freemapLevel0Size + off
            if dev.allocatorBeg ≤ key ∧ key + 1 <<< radix ≤ dev.totalSize ∧
                zoneSeg ≤ key % zoneBytes then
              some { s with
                freemap := Function.update s.freemap entry bm
                allocatorFree := s.allocatorFree - BitVec.ofNat 64 bgsize }
            else none
      else none
  | .adjust readable bref => freemapAdjust dev s readable bref
  | .bulkfree cb envs =>
      let r := syncRounds dev s.created s.freemap ⟨[], 0, cb, 0, 0⟩ envs
      some { s with
        freemap := r.1
        allocatorFree := s.allocatorFree + r.2.adjFree }

/-! ## The figures -/

/-- Entry `e` as the allocator finds it; a leaf not created yet is as it will be. -/
def entry (dev : Dev) (s : State) (e : Nat) : BmapData :=
  if s.created (leafOf e) then s.freemap e
  else freemapInit dev (leafOf e * freemapLevel1Size) (e % freemapCount)

/-- Entries of the leaves that can exist. -/
def entryCount (dev : Dev) : Nat := (dev.totalSize / freemapLevel1Size + 1) * freemapCount

/-- The sum of `avail` over all leaves. -/
def freeBytes (dev : Dev) (s : State) : Nat :=
  ∑ e ∈ range (entryCount dev), (entry dev s e).avail.toNat

/-- The `00` pairs of all leaves. -/
def freeBlocks (dev : Dev) (s : State) : Nat := ∑ e ∈ range (entryCount dev), (entry dev s e).freeCount

def Inv (dev : Dev) (s : State) : Prop := ∀ e, (entry dev s e).Counts

theorem Inv.freeBytes_eq {dev : Dev} {s : State} (h : Inv dev s) :
    freeBytes dev s = freemapBlockSize * freeBlocks dev s := by
  unfold freeBytes freeBlocks
  rw [Finset.mul_sum]
  exact Finset.sum_congr rfl fun e _ => h e

theorem freeBytes_le {dev : Dev} {s : State} (h : Inv dev s) :
    freeBytes dev s ≤ dev.totalSize + freemapLevel1Size := by
  have hsum : freeBlocks dev s ≤ (entryCount dev) * 256 := by
    have hle := Finset.sum_le_card_nsmul (range (entryCount dev)) (fun e => (entry dev s e).freeCount) 256
      fun e _ => freeCount_le _
    rwa [Finset.card_range] at hle
  rw [h.freeBytes_eq]
  unfold entryCount at hsum
  simp only [freemapBlockSize, freemapLevel1Size, freemapCount] at *
  omega

/-- Another value for one entry moves the sum by what it moves `avail`. -/
theorem freeBytes_update {dev : Dev} {s t : State} {e : Nat} (he : e < entryCount dev)
    (h : ∀ k, k ≠ e → entry dev t k = entry dev s k) :
    freeBytes dev t + (entry dev s e).avail.toNat = freeBytes dev s + (entry dev t e).avail.toNat := by
  have hmem : e ∈ range (entryCount dev) := Finset.mem_range.mpr he
  have hrest : ∑ k ∈ (range (entryCount dev)).erase e, (entry dev t k).avail.toNat =
      ∑ k ∈ (range (entryCount dev)).erase e, (entry dev s k).avail.toNat := by
    refine Finset.sum_congr rfl fun k hk => ?_
    rw [h k (Finset.mem_erase.mp hk).1]
  unfold freeBytes
  rw [← Finset.sum_erase_add _ _ hmem, ← Finset.sum_erase_add _ _ hmem, hrest]
  omega

/-- `allocator_free` and the sum of `avail` move together. -/
def Moves (dev : Dev) (s t : State) : Prop :=
  t.allocatorFree + BitVec.ofNat 64 (freeBytes dev s) = s.allocatorFree + BitVec.ofNat 64 (freeBytes dev t)

theorem Moves.refl (dev : Dev) (s : State) : Moves dev s s := rfl

/-! ## One event of each kind -/

theorem entry_set {dev : Dev} {s : State} {e : Nat} {bm : BmapData} {free : BitVec 64}
    (hc : s.created (leafOf e) = true) (k : Nat) :
    entry dev { s with freemap := Function.update s.freemap e bm, allocatorFree := free } k =
      if k = e then bm else entry dev s k := by
  unfold entry
  by_cases hk : k = e
  · subst hk
    simp only [hc, if_true, Function.update_self]
  · simp only [Function.update_of_ne hk, if_neg hk]

/-- An entry gives up `g` bytes, and so does `allocator_free`. -/
theorem take_moves {dev : Dev} {s : State} {e g : Nat} {bm : BmapData} (hinv : Inv dev s)
    (hc : s.created (leafOf e) = true) (he : e < entryCount dev) (hbm : bm.Counts)
    (hg : bm.avail.toNat + g = (s.freemap e).avail.toNat) {t : State}
    (ht : t = { s with
      freemap := Function.update s.freemap e bm
      allocatorFree := s.allocatorFree - BitVec.ofNat 64 g }) : Inv dev t ∧ Moves dev s t := by
  subst ht
  have hold : entry dev s e = s.freemap e := if_pos hc
  have hnew := fun k => @entry_set dev s e bm (s.allocatorFree - BitVec.ofNat 64 g) hc k
  refine ⟨fun k => ?_, ?_⟩
  · rw [hnew]
    split
    · exact hbm
    · exact hinv k
  · have hsum := @freeBytes_update dev s { s with
      freemap := Function.update s.freemap e bm
      allocatorFree := s.allocatorFree - BitVec.ofNat 64 g } e he fun k hk => by rw [hnew, if_neg hk]
    rw [hnew, if_pos rfl, hold] at hsum
    have hsplit : freeBytes dev s = freeBytes dev { s with
      freemap := Function.update s.freemap e bm
      allocatorFree := s.allocatorFree - BitVec.ofNat 64 g } + g := by omega
    unfold Moves
    rw [hsplit, BitVec.ofNat_add, BitVec.add_comm (BitVec.ofNat 64 _) (BitVec.ofNat 64 g), ← BitVec.add_assoc]
    congr 1
    exact BitVec.sub_add_cancel ..

/-- One round of recovery keeps the count; what leaves `avail` is added to `bgsize`. -/
theorem recoverPair_counts {cls i bit : Nat} {s : Recover} (hi : i < 8) (hbit : bit % 2 = 0)
    (hlt : bit + 2 ≤ 64) (hc : s.bm.Counts) : (recoverPair cls i s bit).bm.Counts ∧
      (recoverPair cls i s bit).bm.avail.toNat + (recoverPair cls i s bit).bgsize =
        s.bm.avail.toNat + s.bgsize := by
  unfold recoverPair
  dsimp only
  split
  · exact ⟨hc, rfl⟩
  · -- The iterator does not count.
    have hreset : ∃ bm : BmapData, (if s.modified then s.bm else { s.bm with linear := 0 }) = bm ∧
        bm.Counts ∧ bm.avail = s.bm.avail := by
      cases s.modified with
      | true => exact ⟨s.bm, rfl, hc, rfl⟩
      | false => exact ⟨{ s.bm with linear := 0 }, rfl, hc, rfl⟩
    obtain ⟨bm, hbm, hcb, havail⟩ := hreset
    rw [hbm, ← havail]
    have hrest := @freeCount_congr bm (bm.orElem i (3#64 <<< bit)) i hi fun k hk hne => by
      rw [BmapData.elem_orElem hi hk, if_neg hne]
    rw [BmapData.elem_orElem hi hi, if_pos rfl] at hrest
    have hle := freeCount_pos bm hi
    unfold BmapData.Counts at hcb ⊢
    simp only [freemapBlockSize] at *
    rw [three_eq_fieldMask] at hrest ⊢
    by_cases h0 : bm.elem i &&& fieldMask 2 <<< bit = 0#64
    · have htake := card_freePairs_take hbit rfl hlt h0
      have hsub := @avail_sub bm.avail 16384 (by omega)
      simp only [h0, decide_true, if_true]
      constructor
      · show (bm.avail - BitVec.ofNat 32 16384).toNat =
          16384 * (bm.orElem i (fieldMask 2 <<< bit)).freeCount
        omega
      · rw [Nat.add_comm s.bgsize, ← Nat.add_assoc, hsub]
    · have hkeep := card_freePairs_keep hbit hlt h0
      rw [decide_eq_false h0]
      refine ⟨?_, rfl⟩
      show bm.avail.toNat = 16384 * (bm.orElem i (fieldMask 2 <<< bit)).freeCount
      omega

theorem recoverLoop_counts {cls i : Nat} (hi : i < 8) : ∀ (count : Nat) {s : Recover} {start : Nat},
    start % 2 = 0 → start + 2 * count ≤ 64 → s.bm.Counts →
    (recoverLoop cls i s start count).bm.Counts ∧
      (recoverLoop cls i s start count).bm.avail.toNat + (recoverLoop cls i s start count).bgsize =
        s.bm.avail.toNat + s.bgsize
  | 0, s, start, _, _, hc => ⟨hc, rfl⟩
  | count + 1, s, start, hstart, hlt, hc => by
      obtain ⟨hc', hsum⟩ := @recoverPair_counts cls i start s hi hstart (by omega) hc
      obtain ⟨hc'', hsum'⟩ := @recoverLoop_counts cls i hi count _ (start + 2) (by omega) (by omega) hc'
      exact ⟨hc'', hsum'.trans hsum⟩

/-- The pairs `hammer2_freemap_adjust` marks are inside the element, whatever the block. -/
theorem recover_range {dataOff radix : Nat} (hr : radix ≤ radixMax) :
    dataOff / freemapBlockSize % 16 * 2 % 2 = 0 ∧
      dataOff / freemapBlockSize % 16 * 2 +
        2 * (if radix < freemapBlockRadix then 1 else 1 <<< (radix - freemapBlockRadix)) ≤ 64 := by
  refine ⟨by omega, ?_⟩
  simp only [freemapBlockRadix, radixMax, freemapBlockSize] at *
  split
  · omega
  · obtain h | h | h : radix = 14 ∨ radix = 15 ∨ radix = 16 := by omega
    all_goals
      subst h
      simp only [Nat.reduceSub, Nat.reduceShiftLeft]
      omega

/-- Existing leaves are those of the device. -/
structure Leaves (dev : Dev) (s : State) : Prop where
  inside : ∀ leaf, s.created leaf = true → leaf * freemapLevel1Size ≤ dev.totalSize

theorem Leaves.lt {dev : Dev} {s : State} (h : Leaves dev s) {e : Nat} (hc : s.created (leafOf e) = true) :
    e < entryCount dev := by
  have hle := h.inside _ hc
  simp only [leafOf, entryCount, freemapCount, freemapLevel1Size] at *
  omega

theorem freemapAdjust_moves {dev : Dev} {s t : State} {readable : Bool} {bref : SnapRef} (hinv : Inv dev s)
    (hl : Leaves dev s) (h : freemapAdjust dev s readable bref = some t) :
    (Inv dev t ∧ Moves dev s t) ∧ t.created = s.created := by
  unfold freemapAdjust at h
  dsimp only at h
  split at h
  · cases h
  · rename_i hradix
    split at h
    · obtain rfl := Option.some.inj h
      exact ⟨⟨hinv, Moves.refl dev s⟩, rfl⟩
    · split at h
      · cases h
      · split at h
        · cases h
        · rename_i hcreated
          split at h
          · obtain rfl := Option.some.inj h
            exact ⟨⟨hinv, Moves.refl dev s⟩, rfl⟩
          · obtain rfl := Option.some.inj h
            have hc : s.created (leafOf (bref.dataOff / 64 * 64 / segSize)) = true := by simpa using hcreated
            have hentry := hinv (bref.dataOff / 64 * 64 / segSize)
            rw [entry, if_pos hc] at hentry
            rw [not_or, Nat.not_lt] at hradix
            obtain ⟨hstart, hlt⟩ := @recover_range (bref.dataOff / 64 * 64) _ hradix.2
            obtain ⟨hcounts, hsum⟩ := @recoverLoop_counts (bref.type <<< 8 ||| pbufRadix)
              (bref.dataOff / 64 * 64 / bmapIndexSize % 8) (by omega) _
              ⟨s.freemap (bref.dataOff / 64 * 64 / segSize), false, 0⟩ _ hstart hlt hentry
            exact ⟨take_moves hinv hc (hl.lt hc) hcounts hsum rfl, rfl⟩

/-- The freemap `fm` in the place of that of `s`, part of a window merged: every entry counts,
and `adj_free` differs from the sum of `avail` by a constant. -/
structure Merged (dev : Dev) (s : State) (c : BitVec 64) (fm : Nat → BmapData) (adjFree : BitVec 64) :
    Prop where
  inv : Inv dev { s with freemap := fm }
  adj : adjFree = c + BitVec.ofNat 64 (freeBytes dev { s with freemap := fm })

section

variable {dev : Dev} {s : State} {c : BitVec 64} {fm : Nat → BmapData}

/-- The merge of one entry. -/
theorem Merged.entry {e : Nat} {adjFree : BitVec 64} (h : Merged dev s c fm adjFree) (mem : BmapData)
    (hl : Leaves dev s) (hc : s.created (leafOf e) = true) :
    Merged dev s c (Function.update fm e (syncAdjust (fm e) mem adjFree).1)
      (syncAdjust (fm e) mem adjFree).2 := by
  have hold : Account.entry dev { s with freemap := fm } e = fm e := if_pos hc
  have hcounts := h.inv e
  rw [hold] at hcounts
  -- `adj_free` differs from the `avail` of the entry by a constant, too.
  obtain ⟨hbm, hfree⟩ := @syncAdjust_counts (fm e) mem adjFree
    (adjFree - BitVec.ofNat 64 (fm e).avail.toNat) hcounts (by ring)
  generalize syncAdjust (fm e) mem adjFree = r at hbm hfree ⊢
  have hnew := fun k => @entry_set dev { s with freemap := fm } e r.1 s.allocatorFree hc k
  refine ⟨fun k => ?_, ?_⟩
  · rw [hnew]
    split
    · exact hbm
    · exact h.inv k
  · have hsum := @freeBytes_update dev { s with freemap := fm }
      { s with freemap := Function.update fm e r.1 } e (hl.lt hc) fun k hk => by rw [hnew, if_neg hk]
    rw [hnew, if_pos rfl, hold] at hsum
    have hword := congrArg (BitVec.ofNat 64) hsum
    rw [BitVec.ofNat_add, BitVec.ofNat_add] at hword
    have hadj := h.adj
    linear_combination hfree + hadj - hword

/-- One round of the sync loop. -/
theorem Merged.round {p : Pass} {env : SyncEnv} (h : Merged dev s c fm p.adjFree) (hl : Leaves dev s)
    (henv : env ≠ .unavailable →
      s.created (leafOf ((p.cb.sbase + p.pos * freemapLevel0Size) / freemapLevel0Size)) = true) :
    Merged dev s c (syncRound dev fm p env).1 (syncRound dev fm p env).2.adjFree := by
  unfold syncRound
  simp only
  split
  · exact h
  · cases env with
    | unavailable => exact h
    | leaf bigmaskGood =>
        simp only
        split
        · exact h
        · exact h.entry _ hl (henv SyncEnv.noConfusion)

theorem Merged.rounds {p : Pass} {envs : List SyncEnv} (h : Merged dev s c fm p.adjFree)
    (hl : Leaves dev s) : Merged dev s c (syncRounds dev s.created fm p envs).1
      (syncRounds dev s.created fm p envs).2.adjFree := by
  induction envs generalizing fm p with
  | nil => exact h
  | cons env envs ih =>
      unfold syncRounds
      simp only
      split
      · refine ih (h.round hl fun hne => ?_)
        split at hne
        · assumption
        · exact absurd rfl hne
      · exact h

end

/-- A window of bulkfree. -/
theorem bulkfree_moves {dev : Dev} {s : State} {fm : Nat → BmapData} {adjFree : BitVec 64}
    (h : Merged dev s (- BitVec.ofNat 64 (freeBytes dev s)) fm adjFree) :
    Inv dev { s with freemap := fm, allocatorFree := s.allocatorFree + adjFree } ∧
      Moves dev s { s with freemap := fm, allocatorFree := s.allocatorFree + adjFree } := by
  refine ⟨h.inv, ?_⟩
  have hadj := h.adj
  unfold Moves
  show s.allocatorFree + adjFree + _ = s.allocatorFree + BitVec.ofNat 64 (freeBytes dev { s with freemap := fm })
  linear_combination hadj

/-- A new leaf is as it was counted. -/
theorem init_entry {dev : Dev} {s : State} {leaf : Nat} (hc : s.created leaf = false) (e : Nat) :
    entry dev (initLeaf dev s leaf) e = entry dev s e := by
  unfold entry initLeaf
  dsimp only
  by_cases he : leafOf e = leaf
  · simp only [he, Function.update_self, if_true, hc, Bool.false_eq_true, if_false]
  · simp only [Function.update_of_ne he, if_neg he]

theorem init_moves {dev : Dev} {s : State} {leaf : Nat} (hc : s.created leaf = false) (hinv : Inv dev s) :
    Inv dev (initLeaf dev s leaf) ∧ Moves dev s (initLeaf dev s leaf) := by
  have hbytes : freeBytes dev (initLeaf dev s leaf) = freeBytes dev s :=
    Finset.sum_congr rfl fun e _ => by rw [init_entry hc]
  refine ⟨fun e => ?_, ?_⟩
  · rw [init_entry hc]
    exact hinv e
  · unfold Moves
    rw [hbytes]
    rfl

/-- **One event**: every entry counts, and `allocator_free` moves with the sum of `avail`. -/
theorem step_moves {dev : Dev} {s t : State} {a : Event} (hinv : Inv dev s) (hl : Leaves dev s)
    (h : step dev s a = some t) : (Inv dev t ∧ Moves dev s t) ∧ Leaves dev t := by
  cases a with
  | init leaf =>
      dsimp only [step] at h
      split at h
      · rename_i hc
        obtain rfl := Option.some.inj h
        refine ⟨init_moves hc.1 hinv, ⟨fun k hk => ?_⟩⟩
        have hk' : Function.update s.created leaf true k = true := hk
        by_cases hkl : k = leaf
        · exact hkl ▸ hc.2
        · rw [Function.update_of_ne hkl] at hk'
          exact hl.inside k hk'
      · cases h
  | alloc e cls subKey radix =>
      dsimp only [step] at h
      split at h
      · rename_i hargs
        split at h
        · cases h
        · obtain rfl := Option.some.inj h
          exact ⟨⟨hinv, Moves.refl dev s⟩, hl⟩
        · rename_i bm off g halloc
          split at h
          · obtain rfl := Option.some.inj h
            have hcounts := hinv e
            rw [entry, if_pos hargs.2.2] at hcounts
            obtain ⟨hbm, hg⟩ := bmapAlloc_counts hcounts hargs.1 hargs.2.1 halloc
            exact ⟨take_moves hinv hargs.2.2 (hl.lt hargs.2.2) hbm hg rfl, ⟨hl.inside⟩⟩
          · cases h
      · cases h
  | adjust readable bref =>
      obtain ⟨hmoves, hcreated⟩ := freemapAdjust_moves hinv hl h
      exact ⟨hmoves, ⟨by rw [hcreated]; exact hl.inside⟩⟩
  | bulkfree cb envs =>
      obtain rfl := Option.some.inj h
      have hstart : Merged dev s (- BitVec.ofNat 64 (freeBytes dev s)) s.freemap 0 :=
        ⟨hinv, (neg_add_cancel _).symm⟩
      exact ⟨bulkfree_moves (@Merged.rounds dev s _ _ ⟨[], 0, cb, 0, 0⟩ envs hstart hl), ⟨hl.inside⟩⟩

/-! ## A new filesystem -/

/-- The usable entries below `m`: all from the first one, `a`, on, but for one in each zone. -/
theorem sum_usable {a n : Nat} (ha : 1 ≤ a) (ha' : a ≤ 256) (m : Nat) :
    (min m n ≤ a → (∑ e ∈ range m, if a ≤ e ∧ e % 256 ≠ 0 ∧ e < n then 1 else 0) = 0) ∧
    (a ≤ min m n → (∑ e ∈ range m, if a ≤ e ∧ e % 256 ≠ 0 ∧ e < n then 1 else 0) + (a - 1) +
      (min m n + 255) / 256 = min m n) := by
  induction m with
  | zero => exact ⟨fun _ => rfl, fun h => by omega⟩
  | succ m ih =>
      rw [Finset.sum_range_succ]
      generalize (∑ e ∈ range m, if a ≤ e ∧ e % 256 ≠ 0 ∧ e < n then 1 else 0) = g at ih ⊢
      obtain ⟨hbelow, habove⟩ := ih
      by_cases hn : m < n
      · rw [Nat.min_eq_left (by omega)] at *
        by_cases hu : a ≤ m ∧ m % 256 ≠ 0 ∧ m < n
        · have hg := habove hu.1
          rw [if_pos hu]
          exact ⟨fun h => by omega, fun _ => by omega⟩
        · rw [if_neg hu]
          refine ⟨fun h => hbelow (by omega), fun h => ?_⟩
          by_cases hm : a ≤ m
          · have hg := habove hm
            omega
          · have hg := hbelow (by omega)
            omega
      · rw [if_neg (by omega), Nat.min_eq_right (by omega)]
        rw [Nat.min_eq_right (by omega)] at hbelow habove
        exact ⟨hbelow, habove⟩

/-- What a new filesystem has: nothing but the free size, which is the free space of its leaves
and at most 1GB more. -/
structure Fresh (dev : Dev) (s : State) : Prop where
  inv : Inv dev s
  leaves : Leaves dev s
  free : freeBytes dev s ≤ s.allocatorFree.toNat
  slack : s.allocatorFree.toNat ≤ freeBytes dev s + freemapLevel1Size
  total : dev.totalSize < 2 ^ 63 + 2 ^ 60

/-- A new filesystem in numbers: `n` and `d` count 8MB in the whole and in the boot and aux
areas, and the first usable segment begins 4MB after these. -/
theorem newfs_spec {opt : MkfsOptions} {dev : Dev} {s : State} (h : newfs opt = some (dev, s)) :
    ∃ n d f, dev.totalSize = n * newfsAlign ∧ segUp dev.allocatorBeg = (d + 1) * newfsAlign ∧ d < 128 ∧
      f + (n * newfsAlign + (freemapLevel1Size - 1)) / freemapLevel1Size * zoneSeg + d * newfsAlign =
        n * newfsAlign ∧
      f < 2 ^ 63 ∧ s.allocatorFree = BitVec.ofNat 64 f ∧ ∀ leaf, s.created leaf = false := by
  unfold newfs alignUp at h
  dsimp only at h
  generalize opt.totalSize / newfsAlign = n at h
  generalize (opt.bootAreaSize + (newfsAlign - 1)) / newfsAlign = b at h
  generalize (opt.auxAreaSize + (newfsAlign - 1)) / newfsAlign = x at h
  split at h
  · cases h
  split at h
  · cases h
  split at h
  · cases h
  split at h
  · cases h
  rename_i hroom hfree hbase hbuf
  rw [not_not] at hbuf
  obtain ⟨rfl, rfl⟩ := Prod.mk.inj (Option.some.inj h)
  refine ⟨n, b + x, _, rfl, ?_, ?_, ?_, ?_, rfl, fun _ => rfl⟩
  all_goals
    simp only [segUp, segDown, newfsAlign, zoneSeg, inodeBytes, pbufSize, segSize, freemapLevel1Size] at *
    omega

/-- The free size is the free space of the leaves and the 4MB segment of the first inodes; only
without any space are both zero. -/
theorem newfs_free {opt : MkfsOptions} {dev : Dev} {s : State} (h : newfs opt = some (dev, s)) :
    s.allocatorFree.toNat = freeBytes dev s + zoneSeg ∨
      (dev.totalSize = 0 ∧ s.allocatorFree.toNat = 0 ∧ freeBytes dev s = 0) := by
  obtain ⟨n, d, f, htotal, hbeg, hd, hf, hlt, hfree, hnone⟩ := newfs_spec h
  have hentry : ∀ e, entry dev s e = freemapInit dev (leafOf e * freemapLevel1Size) (e % freemapCount) := by
    intro e
    rw [entry, hnone]
    exact if_neg Bool.false_ne_true
  -- The sum of `avail` is 4MB for each usable entry.
  have hbytes : freeBytes dev s = segSize * ∑ e ∈ range (entryCount dev),
      if 2 * (d + 1) ≤ e ∧ e % 256 ≠ 0 ∧ e < 2 * n then 1 else 0 := by
    rw [freeBytes, Finset.mul_sum]
    refine Finset.sum_congr rfl fun e _ => ?_
    have husable : Usable dev e ↔ 2 * (d + 1) ≤ e ∧ e % 256 ≠ 0 ∧ e < 2 * n := by
      unfold Usable
      rw [hbeg, htotal]
      simp only [segDown, newfsAlign, segSize]
      omega
    rw [hentry, usable_iff_freemapInit]
    by_cases hu : Usable dev e
    · rw [if_pos hu, if_pos (husable.mp hu)]
      rfl
    · rw [if_neg hu, if_neg fun h => hu (husable.mpr h)]
      rfl
  obtain ⟨hbelow, habove⟩ := @sum_usable (2 * (d + 1)) (2 * n) (by omega) (by omega) (entryCount dev)
  generalize (∑ e ∈ range (entryCount dev),
    if 2 * (d + 1) ≤ e ∧ e % 256 ≠ 0 ∧ e < 2 * n then 1 else 0) = g at hbytes hbelow habove
  have hcount : 2 * n ≤ entryCount dev := by
    rw [entryCount, htotal]
    simp only [freemapLevel1Size, freemapCount, newfsAlign]
    omega
  rw [Nat.min_eq_right hcount] at hbelow habove
  have hword : s.allocatorFree.toNat = f := by
    rw [hfree, BitVec.toNat_ofNat, Nat.mod_eq_of_lt (by omega)]
  rw [hword, hbytes, htotal]
  simp only [segSize, zoneSeg, newfsAlign, freemapLevel1Size] at *
  rcases Nat.lt_or_ge (2 * n) (2 * (d + 1)) with hn | hn
  · -- The areas do not fit below a total size that is not zero.
    right
    omega
  · left
    have hg := habove hn
    omega

theorem newfs_fresh {opt : MkfsOptions} {dev : Dev} {s : State} (h : newfs opt = some (dev, s)) :
    Fresh dev s := by
  obtain ⟨n, d, f, htotal, hbeg, hd, hf, hlt, hfree, hnone⟩ := newfs_spec h
  have hinv : Inv dev s := fun e => by
    rw [entry, hnone, if_neg Bool.false_ne_true]
    exact freemapInit_counts ..
  have hslack := newfs_free h
  refine ⟨hinv, ⟨fun leaf hl => ?_⟩, ?_, ?_, ?_⟩
  · rw [hnone] at hl
    cases hl
  · rcases hslack with hslack | ⟨-, -, hzero⟩
    · exact hslack ▸ Nat.le_add_right ..
    · exact hzero ▸ Nat.zero_le _
  · rcases hslack with hslack | ⟨-, hzero, -⟩
    · exact hslack ▸ Nat.add_le_add_left (by decide) _
    · exact hzero ▸ Nat.zero_le _
  · rw [htotal]
    simp only [zoneSeg, newfsAlign, freemapLevel1Size] at *
    omega

/-! ## Runs -/

/-- The state of a run of a filesystem whose `allocator_free` is `slack` above the sum of `avail`. -/
structure Balanced (dev : Dev) (slack : Nat) (s : State) : Prop where
  inv : Inv dev s
  leaves : Leaves dev s
  free : s.allocatorFree.toNat = slack + freeBytes dev s

theorem Balanced.step {dev : Dev} {slack : Nat} {s t : State} {a : Event} (h : Balanced dev slack s)
    (hslack : slack ≤ freemapLevel1Size) (htotal : dev.totalSize < 2 ^ 63 + 2 ^ 60)
    (hstep : Account.step dev s a = some t) : Balanced dev slack t := by
  obtain ⟨⟨hinv, hmoves⟩, hl⟩ := step_moves h.inv h.leaves hstep
  have hle := freeBytes_le hinv
  have hword : t.allocatorFree = BitVec.ofNat 64 (slack + freeBytes dev t) := by
    have hs : s.allocatorFree = BitVec.ofNat 64 (slack + freeBytes dev s) := by
      rw [← h.free, BitVec.ofNat_toNat, BitVec.setWidth_eq]
    unfold Moves at hmoves
    rw [hs, BitVec.ofNat_add] at hmoves
    rw [BitVec.ofNat_add]
    linear_combination hmoves
  refine ⟨hinv, hl, ?_⟩
  simp only [freemapLevel1Size] at *
  rw [hword, BitVec.toNat_ofNat, Nat.mod_eq_of_lt (by omega)]

/-- A whole run keeps the distance a new filesystem starts with. -/
theorem Fresh.run {dev : Dev} {slack : Nat} {s₀ s : State} {events : List Event} (hfresh : Fresh dev s₀)
    (hslack : s₀.allocatorFree.toNat = slack + freeBytes dev s₀)
    (hrun : exec (Account.step dev) s₀ events = some s) :
    Balanced dev slack s ∧ slack ≤ freemapLevel1Size := by
  have hle : slack ≤ freemapLevel1Size := by
    have hmax := hfresh.slack
    omega
  have hstart : Balanced dev slack s₀ := ⟨hfresh.inv, hfresh.leaves, hslack⟩
  exact ⟨exec_invariant' (fun s a t hb hs => hb.step hle hfresh.total hs) hstart hrun, hle⟩

/-- The change of `avail` over all leaves. -/
def availChange (dev : Dev) (s t : State) : Int :=
  ∑ e ∈ range (entryCount dev), (((entry dev t e).avail.toNat : Int) - (entry dev s e).avail.toNat)

theorem availChange_eq (dev : Dev) (s t : State) :
    availChange dev s t = (freeBytes dev t : Int) - freeBytes dev s := by
  unfold availChange freeBytes
  rw [Finset.sum_sub_distrib]
  push_cast
  rfl

/-- **Free space accounting.**  In every run of a new filesystem `avail` of every entry is 16KB
for each of its `00` pairs, and `allocator_free` is the free space, all `00` pairs of the device,
and a constant.  Every event moves `allocator_free` by what it moves `avail` over all leaves,
without a wrap; for a window of bulkfree that is its `adj_free`. -/
theorem run_accounts {opt : MkfsOptions} {dev : Dev} {s₀ : State} (h₀ : newfs opt = some (dev, s₀)) :
    ∃ slack, ∀ events s, exec (step dev) s₀ events = some s →
      (∀ e, (entry dev s e).avail.toNat = freemapBlockSize * (entry dev s e).freeCount) ∧
      s.allocatorFree.toNat = slack + freemapBlockSize * freeBlocks dev s ∧
      ∀ a t, step dev s a = some t →
        (t.allocatorFree.toNat : Int) = s.allocatorFree.toNat + availChange dev s t ∧
        ∀ cb envs, a = .bulkfree cb envs →
          (syncRounds dev s.created s.freemap ⟨[], 0, cb, 0, 0⟩ envs).2.adjFree =
            BitVec.ofInt 64 (availChange dev s t) := by
  have hfresh := newfs_fresh h₀
  obtain ⟨slack, hslack⟩ := Nat.exists_eq_add_of_le hfresh.free
  refine ⟨slack, fun events s hrun => ?_⟩
  obtain ⟨hbal, hle⟩ := hfresh.run (hslack.trans (Nat.add_comm ..)) hrun
  refine ⟨hbal.inv, by rw [hbal.free, hbal.inv.freeBytes_eq], fun a t hstep => ⟨?_, ?_⟩⟩
  · have hfree := hbal.free
    have hfree' := (hbal.step hle hfresh.total hstep).free
    rw [availChange_eq]
    omega
  · rintro cb envs rfl
    have hstart : Merged dev s (- BitVec.ofNat 64 (freeBytes dev s)) s.freemap 0 :=
      ⟨hbal.inv, (neg_add_cancel _).symm⟩
    have hadj := (@Merged.rounds dev s _ _ ⟨[], 0, cb, 0, 0⟩ envs hstart hbal.leaves).adj
    obtain rfl := Option.some.inj hstep
    rw [hadj, availChange_eq, Int.sub_eq_add_neg, BitVec.ofInt_add, BitVec.ofInt_neg, BitVec.ofInt_natCast,
      BitVec.ofInt_natCast, BitVec.add_comm]
    rfl

/-- A filesystem of 1GB with areas of 8MB, after its first leaf and a fragment. -/
theorem run_accounts_fragment : ∃ dev s₀ s slack,
    newfs ⟨1073741824, 8388608, 8388608, 2⟩ = some (dev, s₀) ∧
    exec (step dev) s₀ [.init 0, .alloc 8 784 0 10] = some s ∧
    s.allocatorFree.toNat = slack + freemapBlockSize * freeBlocks dev s := by
  obtain ⟨slack, h⟩ := @run_accounts ⟨1073741824, 8388608, 8388608, 2⟩ _ _ rfl
  exact ⟨_, _, _, slack, rfl, rfl, (h [.init 0, .alloc 8 784 0 10] _ rfl).2.1⟩

end Hammer2.Account
