/-
# `Hammer2.Freemap.Safety` — no byte is handed out twice

The freemap as a machine.  Its events are allocations on any entry, the last
reference to a range going away, and the steps of bulkfree passes: a pass
begins with a snapshot of blockrefs, builds its in-memory map window by window,
merges one entry at a time and finishes, or is given up, at any point.
Allocations and dereferences may come between any two of these.

    alloc       hammer2_bmap_alloc
    begin       hammer2_bulkfree_pass, up to the scan of the first window
    sync        one round of the loop of h2_bulkfree_sync
    nextWindow  the next round of the loop of hammer2_bulkfree_pass
    finish      its end, on success or on error

`Ok since` is what the code relies on: radixes and keys the callers pass, and a
snapshot that names only referenced ranges and misses none that was allocated
before the time `since`.  With `since` the *end* of the previous pass (the full
flush comes after it) every reachable state is `Safe` (`run_safe`); with the
time of the previous *snapshot* it is not (`previous_snapshot_too_early`).
-/
import Hammer2.Freemap.Entry
import Hammer2.Lib.Machine

namespace Hammer2.Freemap

open Machine

/-! ## The machine -/

/-- A referenced range and the time it was handed out. -/
structure LiveRange where
  range : Range
  born : Nat
deriving DecidableEq

/-- A bulkfree pass: its snapshot, the buffer size, the window and its map, and
the number of entries of the window already merged. -/
structure Pass where
  refs : List SnapRef
  size : Nat
  cb : Cbinfo
  pos : Nat
  adjFree : BitVec 64

structure State where
  freemap : Nat → BmapData
  live : List LiveRange
  clock : Nat
  lastSnap : Nat
  lastDone : Nat
  pass : Option Pass

/-- What one round of the sync loop meets: a leaf that cannot be read or
modified, or a leaf whose big mask is good for the entry or not. -/
inductive SyncEnv where
  | unavailable
  | leaf (bigmaskGood : Bool)
deriving DecidableEq

inductive Event where
  | alloc (entry cls subKey radix : Nat)
  | deref (range : Range)
  | begin (sbase size : Nat) (refs : List SnapRef)
  | sync (env : SyncEnv)
  | nextWindow
  | finish
deriving DecidableEq

/-- Freshly initialised leaves, nothing referenced. -/
def init (dev : Dev) : State where
  freemap e := freemapInit dev (e / 256 * freemapLevel1Size) (e % 256)
  live := []
  clock := 0
  lastSnap := 0
  lastDone := 0
  pass := none

/-- `(size + 32767) & ~32767`. -/
def levelNRound (size : Nat) : Nat :=
  (size + freemapLevelNPsize - 1) / freemapLevelNPsize * freemapLevelNPsize

/-- The buffer size a pass settles on, from the size asked for. -/
def bulkfreeSize (dev : Dev) (size : Nat) : Nat :=
  let sizediv := freemapLevel1Size / freemapLevelNPsize
  let size := levelNRound size
  let size :=
    if size > dev.totalSize / sizediv then (dev.totalSize + (sizediv - 1)) / sizediv else size
  let size := if size < 1048576 then 1048576 else size
  levelNRound size

/-- The normalised start of a pass. -/
def bulkfreeBase (dev : Dev) (sbase : Nat) : Nat :=
  h2fmBase (if sbase > dev.totalSize then dev.totalSize else sbase)

/-- Map and scan of the window that begins at `sbase`. -/
def passWindow (dev : Dev) (refs : List SnapRef) (size sbase : Nat) : Option Pass :=
  let incr := size / freemapLevelNPsize * freemapLevel1Size
  let sstop := if dev.totalSize - sbase ≤ incr then dev.totalSize else sbase + incr
  match bulkfreeScan dev (cbinfoBmapInit dev sbase sstop) refs with
  | some cb => some ⟨refs, size, cb, 0, 0⟩
  | none => none

/-- One round of the loop of `h2_bulkfree_sync`. -/
def syncRound (dev : Dev) (freemap : Nat → BmapData) (p : Pass) (env : SyncEnv) :
    (Nat → BmapData) × Pass :=
  let dataOff := p.cb.sbase + p.pos * freemapLevel0Size
  let e := dataOff / freemapLevel0Size
  let next := { p with pos := p.pos + 1 }
  if dataOff < dev.allocatorBeg ∨ dataOff ≥ dev.totalSize then (freemap, next)
  else
    match env with
    | .unavailable => (freemap, next)
    | .leaf bigmaskGood =>
        let live := freemap e
        let bmap := p.cb.bmap p.pos
        if live.bitmapq = bmap.bitmapq ∧ live.linear ≥ bmap.linear ∧ bigmaskGood = true then
          (freemap, next)
        else
          let r := syncAdjust live bmap p.adjFree
          (Function.update freemap e r.1, { next with adjFree := r.2 })

/-- One event.  An allocation that fails an assertion cannot happen. -/
def step (dev : Dev) (s : State) : Event → Option State
  | .alloc entry cls subKey radix =>
      match bmapAlloc (s.freemap entry) cls subKey radix with
      | .panic => none
      | .enospc => some { s with clock := s.clock + 1 }
      | .ok bm off _ =>
          some { s with
            freemap := Function.update s.freemap entry bm
            live := ⟨⟨entry, off, radix⟩, s.clock⟩ :: s.live
            clock := s.clock + 1 }
  | .deref range =>
      some { s with
        live := s.live.filter (fun x => x.range ≠ range)
        clock := s.clock + 1 }
  | .begin sbase size refs =>
      match s.pass with
      | some _ => none
      | none =>
          if bulkfreeBase dev sbase < dev.totalSize then
            match passWindow dev refs (bulkfreeSize dev size) (bulkfreeBase dev sbase) with
            | some p => some { s with
                pass := some p, lastSnap := s.clock, clock := s.clock + 1 }
            | none => none
          else none
  | .sync env =>
      match s.pass with
      | none => none
      | some p =>
          if p.cb.sbase + p.pos * freemapLevel0Size < p.cb.sstop then
            some { s with
              freemap := (syncRound dev s.freemap p env).1
              pass := some (syncRound dev s.freemap p env).2
              clock := s.clock + 1 }
          else none
  | .nextWindow =>
      match s.pass with
      | none => none
      | some p =>
          if p.cb.sstop ≤ p.cb.sbase + p.pos * freemapLevel0Size ∧
              p.cb.sstop < dev.totalSize then
            match passWindow dev p.refs p.size p.cb.sstop with
            | some p' => some { s with pass := some p', clock := s.clock + 1 }
            | none => none
          else none
  | .finish =>
      match s.pass with
      | none => none
      | some _ => some { s with pass := none, lastDone := s.clock, clock := s.clock + 1 }

/-- The arguments the callers of the allocator pass. -/
def AllocArgs (cls subKey radix : Nat) : Prop :=
  radixMin ≤ radix ∧ radix ≤ radixMax ∧ (cls >>> 8 = brefTypeData → subKey % pbufSize = 0)

instance (cls subKey radix : Nat) : Decidable (AllocArgs cls subKey radix) :=
  inferInstanceAs (Decidable (_ ∧ _))

/-- What a pass relies on about its snapshot: it names only referenced ranges
(besides the reserved storage below `allocator_beg`), and every range still
referenced that was allocated before `since`. -/
def SnapshotOk (dev : Dev) (since : Nat) (live : List LiveRange) (refs : List SnapRef) : Prop :=
  (∀ x ∈ live, x.born < since → ∃ bref ∈ refs, refRange bref = x.range) ∧
  (∀ bref ∈ refs, bref.dataOff / 64 * 64 < dev.allocatorBeg ∨
    ∃ x ∈ live, refRange bref = x.range)

instance (dev : Dev) (since : Nat) (live : List LiveRange) (refs : List SnapRef) :
    Decidable (SnapshotOk dev since live refs) := inferInstanceAs (Decidable (_ ∧ _))

/-- What the code relies on, `since` being the time before which a referenced
range is in the snapshot. -/
def Ok (dev : Dev) (since : State → Nat) (s : State) : Event → Prop
  | .alloc _ cls subKey radix => AllocArgs cls subKey radix
  | .begin _ _ refs => SnapshotOk dev (since s) s.live refs
  | _ => True

instance decOk (dev : Dev) (since : State → Nat) (s : State) :
    ∀ ev, Decidable (Ok dev since s ev)
  | .alloc _ cls subKey radix => inferInstanceAs (Decidable (AllocArgs cls subKey radix))
  | .begin _ _ refs => inferInstanceAs (Decidable (SnapshotOk dev (since s) s.live refs))
  | .deref _ => .isTrue trivial
  | .sync _ => .isTrue trivial
  | .nextWindow => .isTrue trivial
  | .finish => .isTrue trivial

/-! ## What is to be shown -/

/-- No referenced byte can be handed out again: an allocation on any entry
passes its assertions and returns a range that overlaps no referenced range,
and no referenced range has bytes between a mid-block iterator and the end of
its 16KB block. -/
structure Safe (s : State) : Prop where
  noPanic : ∀ e cls subKey radix, AllocArgs cls subKey radix →
    bmapAlloc (s.freemap e) cls subKey radix ≠ .panic
  fresh : ∀ e cls subKey radix bm off g, AllocArgs cls subKey radix →
    bmapAlloc (s.freemap e) cls subKey radix = .ok bm off g →
    ∀ x ∈ s.live, ¬ (Range.mk e off radix).Overlaps x.range
  iterator : ∀ e, (s.freemap e).linear % freemapBlockSize ≠ 0 → ∀ x ∈ s.live,
    x.range.entry = e →
    x.range.off < ((s.freemap e).linear / freemapBlockSize + 1) * freemapBlockSize →
    x.range.stop ≤ (s.freemap e).linear
  apart : s.live.Pairwise (fun x y => ¬ x.range.Overlaps y.range)

/-! ## The invariant -/

/-- The running pass, if any, has still to merge entry `e`. -/
def Unsynced : Option Pass → Nat → Prop
  | none, _ => True
  | some p, e => p.cb.sbase / segSize + p.pos ≤ e

/-- The running pass pins what its snapshot names in an entry still to be merged. -/
def Pinned : Option Pass → Range → Prop
  | none, _ => False
  | some p, r => Seen p.refs r ∧ Unsynced (some p) r.entry

/-- The ranges held in entry `e`. -/
def HeldAt (s : State) (e : Nat) (r : Range) : Prop :=
  r.entry = e ∧ ((∃ x ∈ s.live, x.range = r) ∨ Pinned s.pass r)

/-- The ranges of entry `e` handed out since the previous pass ended. -/
def RecentAt (s : State) (e : Nat) (r : Range) : Prop :=
  r.entry = e ∧ ∃ x ∈ s.live, x.range = r ∧ s.lastDone ≤ x.born

/-- What holds of a running pass: its map is the one of its snapshot, and the
snapshot names every older range of the entries still to be merged. -/
structure PassInv (dev : Dev) (lastDone : Nat) (live : List LiveRange) (p : Pass) : Prop where
  window : WindowSpec dev (Seen p.refs) (p.cb.sbase / segSize) p.cb.sstop p.cb
  stop_eq : p.cb.sstop % segSize = 0 ∨ p.cb.sstop = dev.totalSize
  pos_le : (p.cb.sbase / segSize + p.pos) * segSize < p.cb.sstop + segSize
  refs : ∀ bref ∈ p.refs, RefOk dev bref
  covers : ∀ x ∈ live, Unsynced (some p) x.range.entry → x.born < lastDone → Seen p.refs x.range

structure Inv (dev : Dev) (s : State) : Prop where
  held : ∀ e, Usable dev e → Held (s.freemap e) (HeldAt s e)
  recent : ∀ e, Usable dev e → Unsynced s.pass e → Recent (s.freemap e) (RecentAt s e)
  full : ∀ e, ¬ Usable dev e → Full (s.freemap e)
  usable : ∀ x ∈ s.live, Usable dev x.range.entry
  born : ∀ x ∈ s.live, x.born < s.clock
  done_le : s.lastDone ≤ s.clock
  nodup : (s.live.map LiveRange.range).Nodup
  pass : ∀ p, s.pass = some p → PassInv dev s.lastDone s.live p

theorem live_held {s : State} {x : LiveRange} (hx : x ∈ s.live) :
    HeldAt s x.range.entry x.range := ⟨rfl, Or.inl ⟨x, hx, rfl⟩⟩

theorem Inv.placed {dev : Dev} {s : State} (h : Inv dev s) {x : LiveRange} (hx : x ∈ s.live) :
    Placed x.range.off x.range.radix :=
  (h.held _ (h.usable x hx)).placed _ (live_held hx)

theorem init_inv (dev : Dev) : Inv dev (init dev) where
  held e hu := by
    show Held (freemapInit dev (e / 256 * freemapLevel1Size) (e % 256)) _
    rw [usable_iff_freemapInit, if_pos hu]
    refine freeBmap_held.mono ?_
    rintro r ⟨-, ⟨x, hx, -⟩ | hp⟩
    · cases hx
    · exact hp
  recent e hu _ := by
    refine (recent_none _).mono ?_
    rintro r ⟨-, x, hx, -⟩
    cases hx
  full e hu := by
    show Full (freemapInit dev (e / 256 * freemapLevel1Size) (e % 256))
    rw [usable_iff_freemapInit, if_neg hu]
    exact reservedBmap_full
  usable x hx := by cases hx
  born x hx := by cases hx
  done_le := Nat.le_refl _
  nodup := List.nodup_nil
  pass p hp := by cases hp

/-- Nothing is lost when references go away, entries are merged without a
change, or a pass ends: fewer ranges are held and fewer are recent. -/
theorem Inv.shrink {dev : Dev} {s s' : State} (h : Inv dev s) (hfm : s'.freemap = s.freemap)
    (hlive : s'.live.Sublist s.live) (hclock : s.clock ≤ s'.clock) (hdone : s'.lastDone ≤ s.clock)
    (hheld : ∀ e r, Usable dev e → HeldAt s' e r → HeldAt s e r)
    (hrecent : ∀ e, Usable dev e → Unsynced s'.pass e →
      (∀ r, ¬ RecentAt s' e r) ∨ (Unsynced s.pass e ∧ s'.lastDone = s.lastDone))
    (hpass : ∀ p, s'.pass = some p → PassInv dev s'.lastDone s'.live p) : Inv dev s' where
  held e hu := by
    rw [hfm]
    exact (h.held e hu).mono fun r hr => hheld e r hu hr
  recent e hu hun := by
    rw [hfm]
    rcases hrecent e hu hun with hnone | ⟨hun', hd⟩
    · exact (recent_none _).mono fun r hr => hnone r hr
    · refine (h.recent e hu hun').mono ?_
      rintro r ⟨he, x, hx, hxr, hxb⟩
      exact ⟨he, x, hlive.subset hx, hxr, hd ▸ hxb⟩
  full e hu := by
    rw [hfm]
    exact h.full e hu
  usable x hx := h.usable x (hlive.subset hx)
  born x hx := Nat.lt_of_lt_of_le (h.born x (hlive.subset hx)) hclock
  done_le := Nat.le_trans hdone hclock
  nodup := h.nodup.sublist (hlive.map _)
  pass := hpass

theorem HeldAt.of_sublist {s s' : State} {e : Nat} {r : Range} (h : HeldAt s' e r)
    (hlive : s'.live.Sublist s.live) (hpin : ∀ r, Pinned s'.pass r → Pinned s.pass r) :
    HeldAt s e r := by
  obtain ⟨he, ⟨x, hx, hxr⟩ | hp⟩ := h
  · exact ⟨he, Or.inl ⟨x, hlive.subset hx, hxr⟩⟩
  · exact ⟨he, Or.inr (hpin r hp)⟩

/-! ## One step of each kind -/

theorem alloc_inv {dev : Dev} {s : State} {e cls subKey radix off g : Nat} {bm : BmapData}
    (h : Inv dev s) (hargs : AllocArgs cls subKey radix)
    (halloc : bmapAlloc (s.freemap e) cls subKey radix = .ok bm off g) :
    Inv dev { s with
      freemap := Function.update s.freemap e bm
      live := ⟨⟨e, off, radix⟩, s.clock⟩ :: s.live
      clock := s.clock + 1 } := by
  obtain ⟨hlo, hhi, -⟩ := hargs
  have hspec : AllocSpec (s.freemap e) (Range.mk e off radix).radix bm (Range.mk e off radix).off :=
    bmapAlloc_spec hlo hhi halloc
  have hff := fun hfr : radix < freemapBlockRadix => bmapAlloc_firstFit hfr halloc
  have hu : Usable dev e := by
    by_contra hu
    exact (h.full e hu).no_alloc hspec
  have hheld := h.held e hu
  constructor
  case held =>
    intro e' hu'
    by_cases he : e' = e
    · subst he
      show Held (Function.update s.freemap e' bm e') _
      rw [Function.update_self]
      refine (hheld.alloc hspec hff).mono ?_
      rintro r ⟨he, ⟨x, hx, hxr⟩ | hp⟩
      · cases hx with
        | head => exact Or.inl hxr.symm
        | tail _ hx => exact Or.inr ⟨he, Or.inl ⟨x, hx, hxr⟩⟩
      · exact Or.inr ⟨he, Or.inr hp⟩
    · show Held (Function.update s.freemap e bm e') _
      rw [Function.update_of_ne he]
      refine (h.held e' hu').mono ?_
      rintro r ⟨he', ⟨x, hx, hxr⟩ | hp⟩
      · cases hx with
        | head => exact absurd (by rw [← he', ← hxr]) he
        | tail _ hx => exact ⟨he', Or.inl ⟨x, hx, hxr⟩⟩
      · exact ⟨he', Or.inr hp⟩
  case recent =>
    intro e' hu' hun
    by_cases he : e' = e
    · subst he
      show Recent (Function.update s.freemap e' bm e') _
      rw [Function.update_self]
      refine ((h.recent e' hu' hun).alloc hheld hspec hff ?_).mono ?_
      · rintro x ⟨he, y, hy, hyx, -⟩
        exact hheld.placed x ⟨he, Or.inl ⟨y, hy, hyx⟩⟩
      · rintro r ⟨he, x, hx, hxr, hb⟩
        cases hx with
        | head => exact Or.inl hxr.symm
        | tail _ hx => exact Or.inr ⟨he, x, hx, hxr, hb⟩
    · show Recent (Function.update s.freemap e bm e') _
      rw [Function.update_of_ne he]
      refine (h.recent e' hu' hun).mono ?_
      rintro r ⟨he', x, hx, hxr, hb⟩
      cases hx with
      | head => exact absurd (by rw [← he', ← hxr]) he
      | tail _ hx => exact ⟨he', x, hx, hxr, hb⟩
  case full =>
    intro e' hu'
    have he : e' ≠ e := fun he => hu' (he ▸ hu)
    show Full (Function.update s.freemap e bm e')
    rw [Function.update_of_ne he]
    exact h.full e' hu'
  case usable =>
    intro x hx
    cases hx with
    | head => exact hu
    | tail _ hx => exact h.usable x hx
  case born =>
    intro x hx
    cases hx with
    | head => exact Nat.lt_succ_self _
    | tail _ hx => exact Nat.lt_succ_of_lt (h.born x hx)
  case done_le => exact Nat.le_succ_of_le h.done_le
  case nodup =>
    refine List.nodup_cons.mpr ⟨fun hmem => ?_, h.nodup⟩
    obtain ⟨x, hx, hxr⟩ := List.mem_map.mp hmem
    have hxe : HeldAt s e x.range := ⟨by rw [hxr], Or.inl ⟨x, hx, rfl⟩⟩
    have hpos := hspec.placed.stop_pos
    refine hheld.alloc_apart hspec x.range hxe ?_
    rw [hxr]
    exact ⟨hpos, hpos⟩
  case pass =>
    intro p hp
    have hpi := h.pass p hp
    refine { hpi with covers := fun x hx hun hb => ?_ }
    cases hx with
    | head => exact absurd hb (Nat.not_lt.mpr h.done_le)
    | tail _ hx => exact hpi.covers x hx hun hb

theorem deref_inv {dev : Dev} {s : State} (h : Inv dev s) (range : Range) :
    Inv dev { s with
      live := s.live.filter (fun x => x.range ≠ range), clock := s.clock + 1 } := by
  have hsub : (s.live.filter (fun x => x.range ≠ range)).Sublist s.live := List.filter_sublist
  refine h.shrink rfl hsub (Nat.le_succ _) h.done_le
    (fun e r _ hr => hr.of_sublist hsub (fun _ hp => hp))
    (fun e _ hun => Or.inr ⟨hun, rfl⟩) (fun p hp => ?_)
  have hpi := h.pass p hp
  exact { hpi with covers := fun x hx => hpi.covers x (hsub.subset hx) }

theorem finish_inv {dev : Dev} {s : State} (h : Inv dev s) :
    Inv dev { s with pass := none, lastDone := s.clock, clock := s.clock + 1 } := by
  refine h.shrink rfl (List.Sublist.refl _) (Nat.le_succ _) (Nat.le_refl _)
    (fun e r _ hr => hr.of_sublist (List.Sublist.refl _) (fun _ hp => False.elim hp))
    (fun e _ _ => Or.inl ?_) (fun p hp => by cases hp)
  rintro r ⟨-, x, hx, -, hb⟩
  exact absurd (h.born x hx) (Nat.not_lt.mpr hb)

/-- A blockref that names a referenced range names a placed one. -/
theorem Inv.refOk {dev : Dev} {s : State} (h : Inv dev s) {bref : SnapRef}
    (hb : bref.dataOff / 64 * 64 < dev.allocatorBeg ∨ ∃ x ∈ s.live, refRange bref = x.range) :
    RefOk dev bref := by
  rcases hb with hb | ⟨x, hx, hxr⟩
  · exact Or.inl hb
  · refine Or.inr ?_
    rw [hxr]
    exact ⟨h.placed hx, h.usable x hx⟩

/-- A window on a 1GB boundary: where it begins and ends, and its map. -/
theorem passWindow_spec {dev : Dev} {refs : List SnapRef} {size sbase : Nat} {p : Pass}
    (hbase : sbase % segSize = 0) (hlt : sbase < dev.totalSize)
    (hrefs : ∀ bref ∈ refs, RefOk dev bref) (h : passWindow dev refs size sbase = some p) :
    p.refs = refs ∧ p.cb.sbase = sbase ∧ p.pos = 0 ∧ (p.cb.sstop % segSize = 0 ∨
      p.cb.sstop = dev.totalSize) ∧ sbase < p.cb.sstop + segSize ∧
      WindowSpec dev (Seen p.refs) (p.cb.sbase / segSize) p.cb.sstop p.cb := by
  unfold passWindow at h
  simp only at h
  have hsb : sbase = sbase / segSize * segSize := by
    simp only [segSize] at *
    omega
  have hstop : ∀ incr, incr % segSize = 0 →
      (if dev.totalSize - sbase ≤ incr then dev.totalSize else sbase + incr) % segSize = 0 ∨
      (if dev.totalSize - sbase ≤ incr then dev.totalSize else sbase + incr) = dev.totalSize := by
    intro incr hincr
    split
    · exact Or.inr rfl
    · left
      simp only [segSize] at *
      omega
  have hstop := hstop (size / freemapLevelNPsize * freemapLevel1Size) (by
    simp only [freemapLevel1Size, segSize]; omega)
  have hge : sbase < (if dev.totalSize - sbase ≤ size / freemapLevelNPsize * freemapLevel1Size
      then dev.totalSize else sbase + size / freemapLevelNPsize * freemapLevel1Size) + segSize := by
    split <;> simp only [segSize] <;> omega
  generalize (if dev.totalSize - sbase ≤ size / freemapLevelNPsize * freemapLevel1Size
      then dev.totalSize else sbase + size / freemapLevelNPsize * freemapLevel1Size)
    = sstop at h hstop hge
  have hinit := cbinfoBmapInit_spec dev (sbase / segSize) sstop
  rw [← hsb] at hinit
  obtain ⟨cb, hscan, hw⟩ := bulkfreeScan_spec hstop hrefs hinit
  rw [hscan] at h
  obtain rfl : (⟨refs, size, cb, 0, 0⟩ : Pass) = p := by simpa using h
  have hcb : cb.sbase = sbase := hw.sbase_eq.trans hsb.symm
  have hcs : cb.sstop = sstop := hw.sstop_eq
  refine ⟨rfl, hcb, rfl, ?_, ?_, ?_⟩
  · rw [hcs]; exact hstop
  · rw [hcs]; exact hge
  · rw [hcb, hcs]
    refine ⟨hw.sbase_eq, hw.sstop_eq, fun n hn hu => ?_, hw.reserved⟩
    refine (hw.usable n hn hu).congr fun r _ => ?_
    constructor
    · rintro (hr | hr)
      · exact hr
      · exact hr.elim
    · exact Or.inl

theorem begin_inv {dev : Dev} {s : State} {sbase size : Nat} {refs : List SnapRef} {p : Pass}
    (h : Inv dev s) (hidle : s.pass = none) (hlt : bulkfreeBase dev sbase < dev.totalSize)
    (hsnap : SnapshotOk dev s.lastDone s.live refs)
    (hp : passWindow dev refs size (bulkfreeBase dev sbase) = some p) :
    Inv dev { s with pass := some p, lastSnap := s.clock, clock := s.clock + 1 } := by
  obtain ⟨hcover, hnamed⟩ := hsnap
  have hbase : bulkfreeBase dev sbase % segSize = 0 := by
    unfold bulkfreeBase h2fmBase
    simp only [freemapLevel1Size, segSize]
    omega
  have hrefs : ∀ bref ∈ refs, RefOk dev bref := fun bref hb => h.refOk (hnamed bref hb)
  obtain ⟨hpr, hpb, hpp, hstop, hge, hw⟩ := passWindow_spec hbase hlt hrefs hp
  refine h.shrink rfl (List.Sublist.refl _) (Nat.le_succ _) h.done_le ?_
    (fun e _ _ => Or.inr ⟨by rw [hidle]; trivial, rfl⟩) ?_
  · -- What the snapshot pins is referenced when the snapshot is taken.
    rintro e r hu ⟨he, ⟨x, hx, hxr⟩ | ⟨⟨bref, hb, hbr⟩, -⟩⟩
    · exact ⟨he, Or.inl ⟨x, hx, hxr⟩⟩
    · rw [hpr] at hb
      rcases hnamed bref hb with hlow | ⟨x, hx, hxr⟩
      · exfalso
        have hge := hu.1
        have hent : (refRange bref).entry = e := by rw [hbr, he]
        simp only [refRange, freemapLevel0Size] at hent
        unfold segUp segDown at hge
        simp only [segSize] at *
        omega
      · exact ⟨he, Or.inl ⟨x, hx, by rw [← hxr, hbr]⟩⟩
  · rintro p' hp'
    obtain rfl : p = p' := by simpa using hp'
    refine ⟨hw, hstop, ?_, by rw [hpr]; exact hrefs, fun x hx _ hb => ?_⟩
    · rw [hpp, hpb]
      simp only [segSize] at *
      omega
    · rw [hpr]
      exact hcover x hx hb

theorem nextWindow_inv {dev : Dev} {s : State} {p p' : Pass} (h : Inv dev s)
    (hpass : s.pass = some p) (hend : p.cb.sstop ≤ p.cb.sbase + p.pos * freemapLevel0Size)
    (hlt : p.cb.sstop < dev.totalSize)
    (hp' : passWindow dev p.refs p.size p.cb.sstop = some p') :
    Inv dev { s with pass := some p', clock := s.clock + 1 } := by
  have hpi := h.pass p hpass
  have hbase : p.cb.sstop % segSize = 0 := hpi.stop_eq.resolve_right (by omega)
  have hsb := hpi.window.sbase_eq
  have hpos := hpi.pos_le
  obtain ⟨hpr, hpb, hpp, hstop, hge, hw⟩ := passWindow_spec hbase hlt hpi.refs hp'
  -- The new window begins where the last one ended.
  have hun : ∀ e, Unsynced (some p') e → Unsynced (some p) e := by
    intro e he
    have he' : p'.cb.sbase / segSize + p'.pos ≤ e := he
    show p.cb.sbase / segSize + p.pos ≤ e
    rw [hpb, hpp] at he'
    clear he hw hstop hge
    simp only [segSize, freemapLevel0Size] at *
    omega
  refine h.shrink rfl (List.Sublist.refl _) (Nat.le_succ _) h.done_le ?_
    (fun e _ he => Or.inr ⟨by rw [hpass]; exact hun e he, rfl⟩) ?_
  · refine fun e r _ hr => hr.of_sublist (List.Sublist.refl _) (fun r hr => ?_)
    obtain ⟨hseen, hur⟩ : Seen p'.refs r ∧ Unsynced (some p') r.entry := hr
    rw [hpr] at hseen
    show Pinned s.pass r
    rw [hpass]
    exact ⟨hseen, hun _ hur⟩
  · rintro p'' hp''
    obtain rfl : p' = p'' := by simpa using hp''
    refine ⟨hw, hstop, ?_, by rw [hpr]; exact hpi.refs, fun x hx hux hb => ?_⟩
    · rw [hpp, hpb]
      clear hun hw hstop hpos hend
      simp only [segSize] at *
      omega
    · rw [hpr]
      exact hpi.covers x hx (hun _ hux) hb

/-- The pass after one more round of the sync loop. -/
theorem PassInv.advance {dev : Dev} {lastDone : Nat} {live : List LiveRange} {p p' : Pass}
    (h : PassInv dev lastDone live p) (hrefs : p'.refs = p.refs) (hcb : p'.cb = p.cb)
    (hpos : p'.pos = p.pos + 1) (hin : p.cb.sbase + p.pos * freemapLevel0Size < p.cb.sstop) :
    (∀ e, Unsynced (some p') e → Unsynced (some p) e ∧ p.cb.sbase / segSize + p.pos ≠ e) ∧
      PassInv dev lastDone live p' := by
  have hun : ∀ e, Unsynced (some p') e →
      Unsynced (some p) e ∧ p.cb.sbase / segSize + p.pos ≠ e := by
    intro e he
    have he' : p'.cb.sbase / segSize + p'.pos ≤ e := he
    rw [hcb, hpos] at he'
    refine ⟨?_, by omega⟩
    show p.cb.sbase / segSize + p.pos ≤ e
    omega
  refine ⟨hun, ?_⟩
  constructor
  case window => rw [hrefs, hcb]; exact h.window
  case stop_eq => rw [hcb]; exact h.stop_eq
  case pos_le =>
    have hsb := h.window.sbase_eq
    rw [hcb, hpos]
    simp only [segSize, freemapLevel0Size] at *
    omega
  case refs => rw [hrefs]; exact h.refs
  case covers =>
    intro x hx hux hb
    rw [hrefs]
    exact h.covers x hx (hun _ hux).1 hb

/-- A round that leaves the leaf alone. -/
theorem skipRound_inv {dev : Dev} {s : State} {p p' : Pass} (h : Inv dev s)
    (hpass : s.pass = some p) (hrefs : p'.refs = p.refs) (hcb : p'.cb = p.cb)
    (hpos : p'.pos = p.pos + 1) (hin : p.cb.sbase + p.pos * freemapLevel0Size < p.cb.sstop) :
    Inv dev { s with pass := some p', clock := s.clock + 1 } := by
  obtain ⟨hun, hpi'⟩ := (h.pass p hpass).advance hrefs hcb hpos hin
  refine h.shrink rfl (List.Sublist.refl _) (Nat.le_succ _) h.done_le ?_
    (fun e _ he => Or.inr ⟨by rw [hpass]; exact (hun e he).1, rfl⟩) ?_
  · refine fun e r _ hr => hr.of_sublist (List.Sublist.refl _) (fun r hr => ?_)
    obtain ⟨hseen, hur⟩ : Seen p'.refs r ∧ Unsynced (some p') r.entry := hr
    rw [hrefs] at hseen
    rw [hpass]
    exact ⟨hseen, (hun _ hur).1⟩
  · rintro p'' hp''
    obtain rfl : p' = p'' := by simpa using hp''
    exact hpi'

/-- **A round that merges an entry.** -/
theorem mergeRound_inv {dev : Dev} {s : State} {p p' : Pass} {adjFree : BitVec 64}
    (h : Inv dev s) (hpass : s.pass = some p) (hrefs : p'.refs = p.refs) (hcb : p'.cb = p.cb)
    (hpos : p'.pos = p.pos + 1) (hin : p.cb.sbase + p.pos * freemapLevel0Size < p.cb.sstop) :
    Inv dev { s with
      freemap := Function.update s.freemap (p.cb.sbase / segSize + p.pos)
        (syncAdjust (s.freemap (p.cb.sbase / segSize + p.pos)) (p.cb.bmap p.pos) adjFree).1
      pass := some p', clock := s.clock + 1 } := by
  have hpi := h.pass p hpass
  obtain ⟨hun, hpi'⟩ := hpi.advance hrefs hcb hpos hin
  have hskip := skipRound_inv h hpass hrefs hcb hpos hin
  have hself : Unsynced s.pass (p.cb.sbase / segSize + p.pos) := by
    rw [hpass]
    exact Nat.le_refl _
  have hwin : (p.cb.sbase / segSize + p.pos) * segSize < p.cb.sstop := by
    have hsb := hpi.window.sbase_eq
    clear hun hskip hself hpi'
    simp only [segSize, freemapLevel0Size] at *
    omega
  refine { hskip with held := fun e hu => ?_, recent := fun e hu hue => ?_, full := fun e hu => ?_ }
  · have hmono := (hskip.held e hu)
    by_cases he : e = p.cb.sbase / segSize + p.pos
    · subst he
      show Held (Function.update s.freemap _ _ _) _
      rw [Function.update_self]
      have hheld := h.held _ hu
      have hsync := hheld.sync (h.recent _ hu hself) (hpi.window.usable p.pos hwin hu)
        (fun r hr he => ⟨he, Or.inr (by rw [hpass]; exact ⟨hr, by rw [he]; exact Nat.le_refl _⟩)⟩)
        ?_ adjFree
      · refine hsync.mono fun r hr => hr.of_sublist (List.Sublist.refl _) (fun r hr => ?_)
        obtain ⟨hseen, hur⟩ : Seen p'.refs r ∧ Unsynced (some p') r.entry := hr
        rw [hrefs] at hseen
        rw [hpass]
        exact ⟨hseen, (hun _ hur).1⟩
      · -- A held range is in the snapshot or was handed out since the last pass.
        rintro r ⟨he, ⟨x, hx, rfl⟩ | hp⟩
        · rcases Nat.lt_or_ge x.born s.lastDone with hb | hb
          · exact Or.inl ⟨hpi.covers x hx (by rw [he, ← hpass]; exact hself) hb, he⟩
          · exact Or.inr ⟨he, x, hx, rfl, hb⟩
        · rw [hpass] at hp
          exact Or.inl ⟨hp.1, he⟩
    · show Held (Function.update s.freemap _ _ e) _
      rw [Function.update_of_ne he]
      exact hmono
  · have he : e ≠ p.cb.sbase / segSize + p.pos := fun he => (hun e hue).2 he.symm
    show Recent (Function.update s.freemap _ _ e) _
    rw [Function.update_of_ne he]
    exact hskip.recent e hu hue
  · by_cases he : e = p.cb.sbase / segSize + p.pos
    · subst he
      show Full (Function.update s.freemap _ _ _)
      rw [Function.update_self, hpi.window.reserved p.pos hu]
      exact Full.sync adjFree
    · show Full (Function.update s.freemap _ _ e)
      rw [Function.update_of_ne he]
      exact h.full e hu

theorem sync_inv {dev : Dev} {s : State} {p : Pass} (h : Inv dev s) (hpass : s.pass = some p)
    (hin : p.cb.sbase + p.pos * freemapLevel0Size < p.cb.sstop) (env : SyncEnv) :
    Inv dev { s with
      freemap := (syncRound dev s.freemap p env).1
      pass := some (syncRound dev s.freemap p env).2
      clock := s.clock + 1 } := by
  have hent : (p.cb.sbase + p.pos * freemapLevel0Size) / freemapLevel0Size =
      p.cb.sbase / segSize + p.pos := by
    simp only [segSize, freemapLevel0Size]
    omega
  unfold syncRound
  simp only
  split
  · exact skipRound_inv h hpass rfl rfl rfl hin
  · cases env with
    | unavailable => exact skipRound_inv h hpass rfl rfl rfl hin
    | leaf bigmaskGood =>
        simp only
        split
        · exact skipRound_inv h hpass rfl rfl rfl hin
        · rw [hent]
          exact mergeRound_inv h hpass rfl rfl rfl hin

/-! ## The whole run -/

/-- **The step lemma**: an event that meets what the code relies on keeps the invariant. -/
theorem step_inv {dev : Dev} {s t : State} {ev : Event} (h : Inv dev s)
    (hok : Ok dev State.lastDone s ev) (hstep : step dev s ev = some t) : Inv dev t := by
  cases ev with
  | alloc entry cls subKey radix =>
      simp only [step] at hstep
      split at hstep
      · cases hstep
      · obtain rfl : _ = t := Option.some.inj hstep
        exact h.shrink rfl (List.Sublist.refl _) (Nat.le_succ _) h.done_le (fun _ _ _ hr => hr)
          (fun e _ hun => Or.inr ⟨hun, rfl⟩) h.pass
      · rename_i bm off g halloc
        obtain rfl : _ = t := Option.some.inj hstep
        exact alloc_inv h hok halloc
  | deref range =>
      obtain rfl : _ = t := Option.some.inj hstep
      exact deref_inv h range
  | begin sbase size refs =>
      simp only [step] at hstep
      split at hstep
      · cases hstep
      · rename_i hidle
        split at hstep
        · rename_i hlt
          split at hstep
          · rename_i p hp
            obtain rfl : _ = t := Option.some.inj hstep
            exact begin_inv h hidle hlt hok hp
          · cases hstep
        · cases hstep
  | sync env =>
      simp only [step] at hstep
      split at hstep
      · cases hstep
      · rename_i p hpass
        split at hstep
        · rename_i hin
          obtain rfl : _ = t := Option.some.inj hstep
          exact sync_inv h hpass hin env
        · cases hstep
  | nextWindow =>
      simp only [step] at hstep
      split at hstep
      · cases hstep
      · rename_i p hpass
        split at hstep
        · rename_i hend
          split at hstep
          · rename_i p' hp'
            obtain rfl : _ = t := Option.some.inj hstep
            exact nextWindow_inv h hpass hend.1 hend.2 hp'
          · cases hstep
        · cases hstep
  | finish =>
      simp only [step] at hstep
      split at hstep
      · cases hstep
      · obtain rfl : _ = t := Option.some.inj hstep
        exact finish_inv h

/-- Pairwise distinct held ranges of a list are pairwise apart. -/
theorem Inv.pairwise {dev : Dev} {s : State} (h : Inv dev s) :
    s.live.Pairwise (fun x y => ¬ x.range.Overlaps y.range) := by
  refine List.Pairwise.imp_of_mem ?_ (List.pairwise_map.mp h.nodup)
  rintro x y hx hy hne ⟨he, hm⟩
  refine (h.held _ (h.usable x hx)).apart _ _ (live_held hx) ⟨he.symm, Or.inl ⟨y, hy, rfl⟩⟩ hne hm

theorem Inv.safe {dev : Dev} {s : State} (h : Inv dev s) : Safe s := by
  constructor
  case noPanic =>
    rintro e cls subKey radix ⟨hlo, hhi, hkey⟩
    refine bmapAlloc_ne_panic hlo hhi ?_ hkey
    by_cases hu : Usable dev e
    · exact (h.held e hu).grain
    · rw [(h.full e hu).linear]; rfl
  case fresh =>
    rintro e cls subKey radix bm off g ⟨hlo, hhi, -⟩ halloc x hx ⟨he, hm⟩
    have hspec : AllocSpec (s.freemap e) (Range.mk e off radix).radix bm
      (Range.mk e off radix).off := bmapAlloc_spec hlo hhi halloc
    have hu : Usable dev e := by
      have := h.usable x hx
      rwa [← he] at this
    exact (h.held e hu).alloc_apart hspec x.range ⟨he.symm, Or.inl ⟨x, hx, rfl⟩⟩ hm
  case iterator =>
    rintro e hmid x hx rfl hoff
    exact (h.held _ (h.usable x hx)).packed hmid x.range (live_held hx) hoff
  case apart => exact h.pairwise

/-- **No referenced byte is ever handed out again**, in any interleaving of
allocations, dereferences and bulkfree passes whose snapshots miss no range
allocated before the previous pass ended. -/
theorem run_safe {dev : Dev} {evs : List Event} {s : State}
    (hok : AllSteps (step dev) (Ok dev State.lastDone) (init dev) evs)
    (hrun : exec (step dev) (init dev) evs = some s) : Safe s :=
  (exec_invariant (fun _ _ _ h ho hs => step_inv h ho hs) (init_inv dev) hok hrun).safe

/-- A device of three 4MB entries: the reserved segment and two usable ones. -/
def smallDev : Dev := ⟨4194304, 12582912⟩

/-- A fragment is handed out while the first pass runs, survives a second pass
whose snapshot names it, and its neighbour is handed out behind it. -/
def raceRun : List Event :=
  [.begin 0 0 [], .alloc 1 0 0 10, .sync (.leaf false), .sync (.leaf false), .finish,
    .begin 0 0 [⟨3, 4194304 ||| 10⟩], .alloc 1 0 0 10, .sync (.leaf false), .sync (.leaf false),
    .finish]

theorem run_safe_raceRun :
    ∃ s, exec (step smallDev) (init smallDev) raceRun = some s ∧ s.live.length = 2 ∧ Safe s := by
  have hok : AllSteps (step smallDev) (Ok smallDev State.lastDone) (init smallDev) raceRun := by
    decide
  have hlen : (exec (step smallDev) (init smallDev) raceRun).map (fun s => s.live.length) =
      some 2 := by decide
  obtain ⟨s, hs, hl⟩ := Option.map_eq_some_iff.mp hlen
  exact ⟨s, hs, hl, run_safe hok hs⟩

/-- **The previous snapshot is too early a bound.**  A fragment handed out
after the snapshot of the first pass and before its merge is staged (`10`) by
that merge; when the snapshot of the second pass may miss it too, the second
merge frees its block (`00`) and the allocator returns the same bytes again. -/
theorem previous_snapshot_too_early :
    ¬ ∀ (dev : Dev) (evs : List Event) (s : State),
      AllSteps (step dev) (Ok dev State.lastSnap) (init dev) evs →
      exec (step dev) (init dev) evs = some s → Safe s := by
  intro hall
  let evs : List Event :=
    [.begin 0 0 [], .alloc 1 0 0 10, .sync (.leaf false), .sync (.leaf false), .finish,
      .begin 0 0 [], .sync (.leaf false), .sync (.leaf false), .finish]
  have hok : AllSteps (step smallDev) (Ok smallDev State.lastSnap) (init smallDev) evs := by
    decide
  have hend : (exec (step smallDev) (init smallDev) evs).map
      (fun s => (s.live.map LiveRange.range, match bmapAlloc (s.freemap 1) 0 0 10 with
        | .ok _ off _ => some off
        | _ => none)) = some ([⟨1, 0, 10⟩], some 0) := by decide
  obtain ⟨s, hs, hl⟩ := Option.map_eq_some_iff.mp hend
  obtain ⟨hlive, hal⟩ := Prod.mk.inj hl
  have hsafe := hall smallDev evs s hok hs
  obtain ⟨x, hx⟩ : ∃ x, s.live = [x] := List.length_eq_one_iff.mp (by
    simpa using congrArg List.length hlive)
  have hxr : x.range = ⟨1, 0, 10⟩ := by simpa [hx] using hlive
  split at hal
  · rename_i bm off g halloc
    obtain rfl : off = 0 := by simpa using hal
    refine hsafe.fresh 1 0 0 10 bm 0 g (by decide) halloc x (by simp [hx]) ?_
    rw [hxr]
    decide
  · cases hal

end Hammer2.Freemap
