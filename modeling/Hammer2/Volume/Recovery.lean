/-
# `Hammer2.Volume.Recovery` — a mount sees the last completed flush

The header writes go round the copies that fit, and each leaves a header with a larger
`mirror_tid` than any on the media.  As long as no header write starts after so many failed
ones that the ring has come round (`Ok`), the newest complete header is never the one
written over, so a mount finds it:

    read_eq_some_iff   a mount takes the valid header with the largest `mirror_tid`
    step_inv           what one event that meets the condition keeps
    run_recovers       so in every run the last completed flush is what a mount sees

`volhdrno` moves on even when the header write fails: `headerSlot_newest` is the slip, and
`header_ring_comes_round` a run that loses every header to it.
-/
import Hammer2.Volume.Header

namespace Hammer2.Volume

open Machine

variable {α : Type}

/-! ## The header a mount takes -/

/-- The header at the place `i` when it can be read and is valid. -/
def headerAt (size : Option Nat) (b : Option (HeaderBlock α)) (i : Nat) : Option (VolumeData α) :=
  match size, b with
  | some mediaSize, some b =>
      if i * zoneBytes < mediaSize ∧ b.Valid then some b.data else none
  | _, _ => none

/-- A round of the loop keeps the first of the headers with the largest `mirror_tid`. -/
def better (i : Nat) (vd : VolumeData α) : Option (Nat × VolumeData α) → Nat × VolumeData α
  | none => (i, vd)
  | some (zone, old) => if old.mirrorTid < vd.mirrorTid then (i, vd) else (zone, old)

theorem readRound_none {size : Option Nat} {b : Option (HeaderBlock α)} {i : Nat}
    {found : Option (Nat × VolumeData α)} (h : headerAt size b i = none) :
    readRound size b i found = found := by
  cases size with
  | none => rfl
  | some mediaSize =>
      cases b with
      | none => exact ite_self _
      | some b =>
          simp only [headerAt, ite_eq_right_iff, reduceCtorEq, imp_false, not_and] at h
          simp only [readRound]
          split
          · rfl
          · have hv := h (Nat.lt_of_not_le ‹_›)
            unfold HeaderBlock.Valid at hv
            split
            · rfl
            · split
              · rfl
              · simp_all

theorem readRound_some {size : Option Nat} {b : Option (HeaderBlock α)} {i : Nat}
    {found : Option (Nat × VolumeData α)} {vd : VolumeData α} (h : headerAt size b i = some vd) :
    readRound size b i found = some (better i vd found) := by
  cases size with
  | none => cases h
  | some mediaSize =>
      cases b with
      | none => cases h
      | some b =>
          simp only [headerAt, Option.ite_none_right_eq_some, Option.some.injEq] at h
          obtain ⟨⟨hsize, hmagic, h0, h1, hvh⟩, rfl⟩ := h
          have habo : volumeIdHbo ≠ volumeIdAbo := by decide
          simp only [readRound, if_neg (Nat.not_le.mpr hsize), hmagic, ne_eq, not_true_eq_false,
            false_and, if_false, if_neg habo, h0, h1, hvh, Bool.true_eq_false]
          cases found with
          | none => rfl
          | some x => exact (apply_ite some _ _ _).symm

/-- `found` is the first of the headers with the largest `mirror_tid` among the first
`n` places. -/
def Best (u : Nat → Option (VolumeData α)) (n : Nat) : Option (Nat × VolumeData α) → Prop
  | none => ∀ i < n, u i = none
  | some (zone, vd) => zone < n ∧ u zone = some vd ∧
      ∀ i < n, ∀ v, u i = some v → v.mirrorTid < vd.mirrorTid ∨ v.mirrorTid = vd.mirrorTid ∧ zone ≤ i

variable {u : Nat → Option (VolumeData α)} {n : Nat} {found : Option (Nat × VolumeData α)}

theorem Best.skip (h : Best u n found) (hn : u n = none) : Best u (n + 1) found := by
  cases found with
  | none =>
      intro i hi
      rcases Nat.lt_succ_iff_lt_or_eq.mp hi with hlt | rfl
      · exact h i hlt
      · exact hn
  | some x =>
      obtain ⟨hz, hu, hmax⟩ := h
      refine ⟨Nat.lt_succ_of_lt hz, hu, fun i hi v hv => ?_⟩
      rcases Nat.lt_succ_iff_lt_or_eq.mp hi with hlt | rfl
      · exact hmax i hlt v hv
      · cases hn.symm.trans hv

theorem Best.take {vd : VolumeData α} (h : Best u n found) (hn : u n = some vd) :
    Best u (n + 1) (some (better n vd found)) := by
  cases found with
  | none =>
      refine ⟨Nat.lt_succ_self n, hn, fun i hi v hv => ?_⟩
      rcases Nat.lt_succ_iff_lt_or_eq.mp hi with hlt | rfl
      · cases (h i hlt).symm.trans hv
      · obtain rfl := Option.some.inj (hn.symm.trans hv)
        exact Or.inr ⟨rfl, Nat.le_refl _⟩
  | some x =>
      obtain ⟨hz, hu, hmax⟩ := h
      simp only [better]
      split
      · rename_i hlt
        refine ⟨Nat.lt_succ_self n, hn, fun i hi v hv => ?_⟩
        rcases Nat.lt_succ_iff_lt_or_eq.mp hi with hi | rfl
        · rcases hmax i hi v hv with hv | ⟨hv, -⟩
          · exact Or.inl (hv.trans hlt)
          · exact Or.inl (hv.trans_lt hlt)
        · obtain rfl := Option.some.inj (hn.symm.trans hv)
          exact Or.inr ⟨rfl, Nat.le_refl _⟩
      · rename_i hge
        refine ⟨Nat.lt_succ_of_lt hz, hu, fun i hi v hv => ?_⟩
        rcases Nat.lt_succ_iff_lt_or_eq.mp hi with hi | rfl
        · exact hmax i hi v hv
        · obtain rfl := Option.some.inj (hn.symm.trans hv)
          exact (Nat.lt_or_eq_of_le (Nat.le_of_not_lt hge)).imp id fun h => ⟨h, hz.le⟩

theorem Best.unique {x y : Option (Nat × VolumeData α)} (hx : Best u n x) (hy : Best u n y) : x = y := by
  cases x with
  | none =>
      cases y with
      | none => rfl
      | some y => cases (hx y.1 hy.1).symm.trans hy.2.1
  | some x =>
      cases y with
      | none => cases (hy x.1 hx.1).symm.trans hx.2.1
      | some y =>
          obtain ⟨i, v⟩ := x
          obtain ⟨j, w⟩ := y
          obtain ⟨hi, hv, hmaxx⟩ := hx
          obtain ⟨hj, hw, hmaxy⟩ := hy
          have h1 := hmaxx j hj w hw
          have h2 := hmaxy i hi v hv
          obtain rfl : i = j := by omega
          rw [Option.some.inj (hv.symm.trans hw)]

theorem readLoop_best (size : Nat → Option Nat) (bread : Nat → Option (HeaderBlock α)) :
    ∀ n, Best (fun i => headerAt (size i) (bread i) i) n
      ((List.range n).foldl (fun found i => readRound (size i) (bread i) i found) none) := by
  intro n
  induction n with
  | zero => exact fun i hi => absurd hi (Nat.not_lt_zero i)
  | succ n ih =>
      rw [List.range_succ, List.foldl_append, List.foldl_cons, List.foldl_nil]
      cases h : headerAt (size n) (bread n) n with
      | none =>
          rw [readRound_none h]
          exact ih.skip h
      | some vd =>
          rw [readRound_some h]
          exact ih.take h

/-- `zone` holds the valid header with the largest `mirror_tid`, the first one of these. -/
def Newest (m : Media α) (zone : Nat) (vd : VolumeData α) : Prop :=
  Best (fun i => headerAt (some m.mediaSize) (some (m.block i)) i) numVolhdrs (some (zone, vd))

/-- **A mount takes the valid header with the largest `mirror_tid`.** -/
theorem read_eq_some_iff {m : Media α} {zone : Nat} {vd : VolumeData α} :
    m.read = some (zone, vd) ↔ Newest m zone vd := by
  have h : Best (fun i => headerAt (some m.mediaSize) (some (m.block i)) i) numVolhdrs m.read :=
    readLoop_best _ _ numVolhdrs
  constructor
  · intro hread
    rw [hread] at h
    exact h
  · intro hbest
    exact h.unique hbest

theorem headerAt_eq_some {m : Media α} {i : Nat} {vd : VolumeData α} :
    headerAt (some m.mediaSize) (some (m.block i)) i = some vd ↔
      i * zoneBytes < m.mediaSize ∧ (m.block i).Valid ∧ (m.block i).data = vd := by
  simp only [headerAt, Option.ite_none_right_eq_some, Option.some.injEq, and_assoc]

/-- Losing another copy than the newest one. -/
theorem Newest.put_torn {m : Media α} {zone j : Nat} {vd : VolumeData α} {b : HeaderBlock α}
    (h : Newest m zone vd) (hj : j ≠ zone) (hb : ¬ b.Valid) : Newest (m.put j b) zone vd := by
  obtain ⟨hz, hu, hmax⟩ := h
  refine ⟨hz, ?_, fun i hi v hv => hmax i hi v ?_⟩
  · rw [← hu]
    simp only [Media.put, if_neg (Ne.symm hj)]
  · obtain ⟨hsize, hvalid, hdata⟩ := headerAt_eq_some.mp hv
    by_cases hij : i = j
    · simp only [Media.put, hij, if_true] at hvalid
      exact absurd hvalid hb
    · simp only [Media.put, if_neg hij] at hvalid hdata hsize
      exact headerAt_eq_some.mpr ⟨hsize, hvalid, hdata⟩

/-- A complete header with a larger `mirror_tid`. -/
theorem Newest.put_header {m : Media α} {zone j : Nat} {vd new : VolumeData α}
    (h : Newest m zone vd) (hj : j < numVolhdrs) (hsize : j * zoneBytes < m.mediaSize)
    (htid : vd.mirrorTid < new.mirrorTid) : Newest (m.put j (headerOf new)) j new := by
  obtain ⟨hz, hu, hmax⟩ := h
  refine ⟨hj, headerAt_eq_some.mpr ⟨hsize, ?_⟩, fun i hi v hv => ?_⟩
  · simp only [Media.put, if_true]
    exact ⟨⟨rfl, rfl, rfl, rfl⟩, rfl⟩
  · obtain ⟨hsize, hvalid, hdata⟩ := headerAt_eq_some.mp hv
    by_cases hij : i = j
    · simp only [Media.put, hij, if_true] at hdata
      exact Or.inr ⟨by rw [← hdata]; rfl, hij.ge⟩
    · simp only [Media.put, if_neg hij] at hvalid hdata hsize
      have := hmax i hi v (headerAt_eq_some.mpr ⟨hsize, hvalid, hdata⟩)
      omega

/-! ## The ring -/

theorem fits_iff {size j : Nat} : Fits size j ↔ j < fitCount size := by
  have hrange : List.range numVolhdrs = [0, 1, 2, 3] := rfl
  have hfirst : Fits size 0 := ⟨by decide, Or.inl rfl⟩
  simp only [fitCount, hrange, List.countP_cons, List.countP_nil, decide_eq_true_eq, hfirst, if_true]
  split_ifs <;> simp only [Fits, numVolhdrs, zoneBytes, segSize] at * <;> omega

/-- The copy after `v` of `n` copies. -/
def after (n v : Nat) : Nat := if v + 1 < n then v + 1 else 0

theorem headerSlot_eq (v size : Nat) : headerSlot v size = after (fitCount size) v := by
  have hfit := @fits_iff size (v + 1)
  simp only [Fits, numVolhdrs, zoneBytes, segSize] at hfit
  simp only [headerSlot, after, numVolhdrs, zoneBytes, segSize]
  rw [if_neg (by omega : ¬ (v : Int) + 1 < 0)]
  by_cases hv : v + 1 < fitCount size
  · obtain ⟨h4, hsize⟩ := hfit.mpr hv
    rw [if_pos hv, if_neg (by omega), if_neg (by omega)]
    omega
  · rw [if_neg hv]
    by_cases h4 : ((4 : Nat) : Int) ≤ v + 1
    · rw [if_pos h4]
      split <;> rfl
    · have hsize : size < (v + 1) * 2147483648 + 4194304 := by
        by_contra hge
        exact hv (hfit.mp ⟨by omega, Or.inr (Nat.le_of_not_lt hge)⟩)
      rw [if_neg h4, if_pos (by omega)]
      rfl

theorem after_iterate_lt {n z : Nat} (hz : z < n) (k : Nat) : (after n)^[k] z = (z + k) % n := by
  induction k with
  | zero => exact (Nat.mod_eq_of_lt hz).symm
  | succ k ih =>
      have hlt := Nat.mod_lt (z + k) (Nat.zero_lt_of_lt hz)
      rw [Function.iterate_succ_apply', ih, ← Nat.add_assoc, ← Nat.mod_add_mod (z + k), after]
      split
      · rename_i h
        exact (Nat.mod_eq_of_lt h).symm
      · rw [show (z + k) % n + 1 = n by omega, Nat.mod_self]

theorem after_iterate_ge {n z : Nat} (hn : 0 < n) (hz : n ≤ z) (k : Nat) :
    (after n)^[k + 1] z = k % n := by
  have h0 : after n z = 0 := if_neg (by omega)
  rw [Function.iterate_succ_apply, h0, after_iterate_lt hn, Nat.zero_add]

/-- Fewer than `n` steps do not come round. -/
theorem after_iterate_ne {n z k : Nat} (hk : k + 1 < n) : (after n)^[k + 1] z ≠ z := by
  rcases Nat.lt_or_ge z n with hz | hz
  · rw [after_iterate_lt hz]
    rcases Nat.lt_or_ge (z + (k + 1)) n with h | h
    · rw [Nat.mod_eq_of_lt h]
      omega
    · rw [Nat.mod_eq_sub_mod h, Nat.mod_eq_of_lt (by omega)]
      omega
  · rw [after_iterate_ge (by omega) hz]
    exact Nat.ne_of_lt ((Nat.mod_lt k (by omega)).trans_le hz)

/-- As many steps as there are copies do. -/
theorem after_iterate_self {n z k : Nat} (hz : z < n) (hk : k + 1 = n) : (after n)^[k + 1] z = z := by
  rw [after_iterate_lt hz, hk, Nat.add_mod_right, Nat.mod_eq_of_lt hz]

theorem after_lt {n v : Nat} (hn : 0 < n) : after n v < n := by
  unfold after
  split
  · assumption
  · exact hn

theorem fitCount_pos (size : Nat) : 0 < fitCount size := fits_iff.mp ⟨by decide, Or.inl rfl⟩

/-! ## The invariant -/

/-- The mounted device, `zone` and `vd` being the newest complete header and `size` the
size of the volume. -/
structure DevInv (size zone : Nat) (vd : VolumeData α) (failed : Nat) (d : Dev α) : Prop where
  volu : d.voldata.voluSize = size
  sync : d.volsync.voluSize = size
  newest : vd.mirrorTid ≤ d.volsync.mirrorTid
  ahead : d.volsync.mirrorTid ≤ d.voldata.mirrorTid
  due : d.volumesync = true → vd.mirrorTid < d.volsync.mirrorTid
  modified : d.modified = true → d.volsync.mirrorTid < d.voldata.mirrorTid ∨ d.volsync.mirrorTid < d.vchainTid
  slot : d.volhdrno = ((after (fitCount size))^[failed] zone : Nat)

structure Inv (size : Nat) (s : State α) : Prop where
  verified : size ≤ s.media.mediaSize ∧ size ≠ 0 ∧ size % volumeAlign = 0
  newest : ∃ zone vd rest, s.completed = (zone, vd) :: rest ∧ vd.voluSize = size ∧
    Newest s.media zone vd ∧ ∀ d, s.dev = some d → DevInv size zone vd s.failed d

section
variable {size zone failed : Nat} {vd : VolumeData α} {d : Dev α}

theorem mountDev_inv (hvd : vd.voluSize = size) : DevInv size zone vd 0 (mountDev zone vd) where
  volu := hvd
  sync := hvd
  newest := Nat.le_refl _
  ahead := Nat.le_refl _
  due h := nomatch h
  modified h := nomatch h
  slot := rfl

theorem DevInv.setRoots (h : DevInv size zone vd failed d) (roots : α) :
    DevInv size zone vd failed (d.setRoots roots) :=
  ⟨h.volu, h.sync, h.newest, h.ahead, h.due, h.modified, h.slot⟩

theorem DevInv.chainModify (h : DevInv size zone vd failed d) :
    DevInv size zone vd failed d.chainModify where
  volu := h.volu
  sync := h.sync
  newest := h.newest
  ahead := h.ahead
  due := h.due
  modified _ := Or.inr (Nat.lt_succ_of_le h.ahead)
  slot := h.slot

theorem DevInv.voldataModify (h : DevInv size zone vd failed d) :
    DevInv size zone vd failed d.voldataModify := by
  unfold Dev.voldataModify
  split
  · exact h
  · exact h.chainModify

theorem DevInv.flushFreemap (h : DevInv size zone vd failed d) (tid : Nat) :
    DevInv size zone vd failed (d.flushFreemap tid) where
  volu := h.volu
  sync := h.sync
  newest := h.newest
  ahead := Nat.le_succ_of_le h.ahead
  due := h.due
  modified _ := Or.inl (Nat.lt_succ_of_le h.ahead)
  slot := h.slot

theorem DevInv.flushVolume (h : DevInv size zone vd failed d) :
    DevInv size zone vd failed d.flushVolume := by
  unfold Dev.flushVolume
  split
  · rename_i hmod
    have hlt : d.volsync.mirrorTid <
        if d.voldata.mirrorTid < d.vchainTid then d.vchainTid else d.voldata.mirrorTid := by
      have := h.modified hmod
      split <;> omega
    exact {
      volu := h.volu
      sync := h.volu
      newest := h.newest.trans hlt.le
      ahead := Nat.le_refl _
      due := fun _ => h.newest.trans_lt hlt
      modified := fun hn => nomatch hn
      slot := h.slot }
  · exact h

theorem DevInv.flushRoots (h : DevInv size zone vd failed d) (c : Cycle α) :
    DevInv size zone vd failed (d.flushRoots c) := by
  have hsroot : DevInv size zone vd failed (d.flushSroot c.sroot) := by
    cases c.sroot with
    | none => exact h
    | some roots => exact h.chainModify.setRoots roots
  have hfchain : DevInv size zone vd failed ((d.flushSroot c.sroot).flushFchain c.fchain) := by
    cases c.fchain with
    | none => exact hsroot
    | some f =>
        cases f with
        | none => exact hsroot.voldataModify
        | some x => exact (hsroot.voldataModify.flushFreemap x.1).setRoots x.2
  unfold Dev.flushRoots
  split
  · exact hfchain
  · exact hfchain.flushVolume

/-- The next copy of the ring. -/
theorem DevInv.next_slot (h : DevInv size zone vd failed d) :
    headerSlot d.volhdrno d.volsync.voluSize = (after (fitCount size))^[failed + 1] zone := by
  rw [h.sync, h.slot, headerSlot_eq, Function.iterate_succ_apply']

/-- A device whose header has been written: `volhdrno` has moved on. -/
theorem DevInv.written (h : DevInv size zone vd failed d) :
    DevInv size zone vd (failed + 1)
      { d with volumesync := false, volhdrno := headerSlot d.volhdrno d.volsync.voluSize } where
  volu := h.volu
  sync := h.sync
  newest := h.newest
  ahead := h.ahead
  due hn := nomatch hn
  modified := h.modified
  slot := congrArg Int.ofNat h.next_slot

theorem DevInv.completed (h : DevInv size zone vd failed d) :
    DevInv size (headerSlot d.volhdrno d.volsync.voluSize) d.volsync 0
      { d with volumesync := false, volhdrno := headerSlot d.volhdrno d.volsync.voluSize } where
  volu := h.volu
  sync := h.sync
  newest := Nat.le_refl _
  ahead := h.ahead
  due hn := nomatch hn
  modified := h.modified
  slot := rfl

end

/-! ## Steps and runs -/

section
variable {size : Nat} {s s' : State α} {e : Event α}

/-- Another device over the same media. -/
theorem Inv.setDev (hs : Inv size s) {dev : Option (Dev α)}
    (hdev : ∀ zone vd rest, s.completed = (zone, vd) :: rest → vd.voluSize = size →
      (∀ d, s.dev = some d → DevInv size zone vd s.failed d) →
      ∀ d, dev = some d → DevInv size zone vd s.failed d) :
    Inv size { s with dev := dev } := by
  obtain ⟨zone, vd, rest, hcompleted, hvolu, hnewest, hd⟩ := hs.newest
  exact ⟨hs.verified, zone, vd, rest, hcompleted, hvolu, hnewest,
    hdev zone vd rest hcompleted hvolu hd⟩

/-- The place of a copy that fits is on the media. -/
theorem Inv.slot_lt (hs : Inv size s) {j : Nat} (hj : Fits size j) :
    j < numVolhdrs ∧ j * zoneBytes < s.media.mediaSize := by
  obtain ⟨hle, hpos, -⟩ := hs.verified
  simp only [Fits, numVolhdrs, zoneBytes, segSize] at hj ⊢
  omega

/-- A header write that meets the condition misses the newest complete header. -/
theorem DevInv.headerSlot_ne {zone : Nat} {vd : VolumeData α} {d : Dev α} {left : Left α}
    (hd : DevInv size zone vd s.failed d) (hok : WriteOk s d.volsync.voluSize left)
    (hfit : 2 ≤ fitCount size) : headerSlot d.volhdrno d.volsync.voluSize ≠ zone := by
  rw [hd.sync] at hok
  rw [hd.next_slot]
  exact after_iterate_ne (by simpa only [WriteOk, if_pos hfit] using hok)

theorem writeHeader_inv {d : Dev α} {left : Left α} {r : Report} (hs : Inv size s)
    (hd : ∀ zone vd rest, s.completed = (zone, vd) :: rest → DevInv size zone vd s.failed d)
    (hdue : d.volumesync = true) (hok : WriteOk s d.volsync.voluSize left)
    (hwrite : writeHeader s d left r = some s') : Inv size s' := by
  obtain ⟨zone, vd, rest, hcompleted, hvolu, hnewest, -⟩ := hs.newest
  have hdev := hd zone vd rest hcompleted
  have hslot : Fits size (headerSlot d.volhdrno d.volsync.voluSize) := by
    rw [hdev.next_slot, Function.iterate_succ_apply']
    exact fits_iff.mpr (after_lt (fitCount_pos size))
  -- The device afterwards, none after a crash.
  have hsome : ∀ {zone' vd' k}, (DevInv size zone' vd' k
      { d with volumesync := false, volhdrno := headerSlot d.volhdrno d.volsync.voluSize }) →
      ∀ d', (if r = .crash then none else some
        { d with volumesync := false, volhdrno := headerSlot d.volhdrno d.volsync.voluSize }) = some d' →
      DevInv size zone' vd' k d' := by
    intro zone' vd' k h d' hd'
    split at hd'
    · cases hd'
    · obtain rfl := Option.some.inj hd'
      exact h
  cases left with
  | new =>
      obtain rfl := Option.some.inj hwrite
      obtain ⟨hlt, hmedia⟩ := hs.slot_lt hslot
      exact ⟨hs.verified, _, _, _, rfl, hdev.sync, hnewest.put_header hlt hmedia (hdev.due hdue),
        hsome hdev.completed⟩
  | old =>
      simp only [writeHeader] at hwrite
      split at hwrite
      · cases hwrite
      · obtain rfl := Option.some.inj hwrite
        exact ⟨hs.verified, zone, vd, rest, hcompleted, hvolu, hnewest, hsome hdev.written⟩
  | torn b =>
      simp only [writeHeader] at hwrite
      split at hwrite
      · cases hwrite
      · rename_i hb
        obtain rfl := Option.some.inj hwrite
        have hfit : 2 ≤ fitCount size := by
          by_contra hfit
          rw [hdev.sync, WriteOk, if_neg hfit] at hok
          cases hok
        exact ⟨hs.verified, zone, vd, rest, hcompleted, hvolu,
          hnewest.put_torn (hdev.headerSlot_ne hok hfit) fun hv => hb (Or.inr hv), hsome hdev.written⟩

/-- **Every step** that meets the condition keeps the invariant. -/
theorem step_inv (hs : Inv size s) (hok : Ok s e) (hstep : step s e = some s') : Inv size s' := by
  cases e with
  | modify roots =>
      obtain ⟨d, hd, rfl⟩ := Option.map_eq_some_iff.mp hstep
      refine hs.setDev fun zone vd rest _ _ h d' hd' => ?_
      obtain rfl := Option.some.inj hd'
      exact (h d hd).voldataModify.setRoots roots
  | flush c left r =>
      obtain ⟨d, hd, hstep⟩ := Option.bind_eq_some_iff.mp hstep
      obtain ⟨zone, vd, rest, hcompleted, -, -, hdev⟩ := hs.newest
      have hflush : ∀ zone vd rest, s.completed = (zone, vd) :: rest →
          DevInv size zone vd s.failed (d.flushRoots c) := by
        intro zone' vd' rest' h
        cases hcompleted.symm.trans h
        exact (hdev d hd).flushRoots c
      dsimp only at hstep
      split at hstep
      · rename_i hdue
        refine writeHeader_inv hs hflush ?_ (hok d hd hdue) hstep
        simp only [headerDue, Bool.and_eq_true] at hdue
        exact hdue.2
      · obtain rfl := Option.some.inj hstep
        refine hs.setDev fun zone vd rest hc _ _ d' hd' => ?_
        obtain rfl := Option.some.inj hd'
        exact hflush zone vd rest hc
  | crash =>
      obtain rfl := Option.some.inj hstep
      exact hs.setDev fun _ _ _ _ _ _ d' hd' => nomatch hd'
  | mount =>
      simp only [step] at hstep
      split at hstep
      · cases hstep
      · obtain ⟨⟨zone, vd⟩, hread, hstep⟩ := Option.bind_eq_some_iff.mp hstep
        simp only [Option.ite_none_right_eq_some, Option.some.injEq] at hstep
        obtain ⟨-, rfl⟩ := hstep
        obtain ⟨z, v, rest, hcompleted, hvolu, hnewest, -⟩ := hs.newest
        cases hread.symm.trans (read_eq_some_iff.mpr hnewest)
        refine ⟨hs.verified, zone, vd, rest, hcompleted, hvolu, hnewest, fun d hd => ?_⟩
        obtain rfl := Option.some.inj hd
        exact mountDev_inv hvolu

theorem start_inv {m : Media α} (h : start m = some s) :
    ∃ size, Inv size s := by
  obtain ⟨⟨zone, vd⟩, hread, h⟩ := Option.bind_eq_some_iff.mp h
  simp only [Option.ite_none_right_eq_some, Option.some.injEq] at h
  obtain ⟨hverified, rfl⟩ := h
  refine ⟨vd.voluSize, hverified, zone, vd, [], rfl, rfl, read_eq_some_iff.mp hread, fun d hd => ?_⟩
  obtain rfl := Option.some.inj hd
  exact mountDev_inv rfl

/-- **Crash consistency of the header ring.**  In every state of a run whose steps meet
the condition, the header of the last completed flush is on the media, has the largest
`mirror_tid` of the valid ones and is the one a mount takes; and a header write that meets
the condition goes to another copy if one fits. -/
theorem run_recovers {m : Media α} {s₀ : State α} {es : List (Event α)} (hstart : start m = some s₀)
    (hok : AllSteps step Ok s₀ es) (hrun : exec step s₀ es = some s) :
    ∃ zone vd rest, s.completed = (zone, vd) :: rest ∧
      (s.media.block zone).Valid ∧ (s.media.block zone).data = vd ∧
      (∀ i < numVolhdrs, i * zoneBytes < s.media.mediaSize → (s.media.block i).Valid →
        (s.media.block i).data.mirrorTid ≤ vd.mirrorTid) ∧
      s.media.read = some (zone, vd) ∧
      (∃ s', exec step s [.crash, .mount] = some s' ∧ s'.dev = some (mountDev zone vd)) ∧
      ∀ (c : Cycle α) (left : Left α) (r : Report) (d : Dev α), Ok s (.flush c left r) →
        s.dev = some d → headerDue (d.flushRoots c) c = true →
        (∃ j, j ≠ zone ∧ Fits (d.flushRoots c).volsync.voluSize j) →
        headerSlot (d.flushRoots c).volhdrno (d.flushRoots c).volsync.voluSize ≠ zone := by
  obtain ⟨size, hinit⟩ := start_inv hstart
  have hinv : Inv size s := exec_invariant (fun _ _ _ hs ho => step_inv hs ho) hinit hok hrun
  obtain ⟨zone, vd, rest, hcompleted, hvolu, hnewest, hdev⟩ := hinv.newest
  have hread := read_eq_some_iff.mpr hnewest
  obtain ⟨hz, hat, hmax⟩ := hnewest
  obtain ⟨-, hvalid, hdata⟩ := headerAt_eq_some.mp hat
  refine ⟨zone, vd, rest, hcompleted, hvalid, hdata, fun i hi hsize hv => ?_, hread, ?_,
    fun c left r d hok hd hdue hother => ?_⟩
  · have := hmax i hi _ (headerAt_eq_some.mpr ⟨hsize, hv, rfl⟩)
    omega
  · have hverified : vd.Verified s.media.mediaSize := by
      unfold VolumeData.Verified
      rw [hvolu]
      exact hinv.verified
    refine ⟨{ s with dev := some (mountDev zone vd), failed := 0 }, ?_, rfl⟩
    simp only [exec, step, Option.isSome_none, Bool.false_eq_true, if_false, hread,
      Option.bind_some, if_pos hverified]
  · have hflush := (hdev d hd).flushRoots c
    obtain ⟨j, hj, hfits⟩ := hother
    rw [hflush.sync] at hfits
    rcases Nat.lt_or_ge (fitCount size) 2 with hone | htwo
    · -- The other copy is the only one, and so the next one.
      have hlt := fits_iff.mp hfits
      have hnext := hflush.next_slot ▸ Function.iterate_succ_apply' (after (fitCount size)) s.failed zone
      rw [hnext]
      have := @after_lt (fitCount size) ((after (fitCount size))^[s.failed] zone) (fitCount_pos size)
      omega
    · exact hflush.headerSlot_ne (hok d hd hdue) htwo

/-- The condition is exact: a header write that starts when all the other copies have
failed goes to the newest complete header. -/
theorem headerSlot_newest {zone failed : Nat} {vd : VolumeData α} {d : Dev α}
    (hd : DevInv size zone vd failed d) (hzone : Fits size zone)
    (hfailed : failed + 1 = fitCount size) : headerSlot d.volhdrno d.volsync.voluSize = zone := by
  rw [hd.next_slot]
  exact after_iterate_self (fits_iff.mp hzone) hfailed

end

/-! ## A volume of two copies -/

/-- A volume of 4GB, formatted: `roots` counts the changes. -/
def formatted : Media Nat where
  mediaSize := 4294967296
  block i := if i < 2 then headerOf ⟨4294967296, 16, 16, 0⟩ else ⟨0, false, false, false, ⟨0, 0, 0, 0⟩⟩

/-- A flush after a change. -/
def changed (left : Left Nat) (r : Report) (roots : Nat) : List (Event Nat) :=
  [.modify roots, .flush ⟨none, none, false, false, false⟩ left r]

def tornBlock : HeaderBlock Nat := ⟨volumeIdHbo, true, true, false, ⟨4294967296, 18, 16, 2⟩⟩

/-- One flush succeeds, the next is cut. -/
def cutRun : List (Event Nat) :=
  changed .new .ok 1 ++ changed (.torn tornBlock) .crash 2 ++ [.mount]

theorem run_recovers_cut : ∃ s₀ s, start formatted = some s₀ ∧ exec step s₀ cutRun = some s ∧
    s.media.read = some (1, ⟨4294967296, 17, 16, 1⟩) := by
  obtain ⟨s₀, hstart⟩ : ∃ s₀, start formatted = some s₀ := ⟨_, rfl⟩
  obtain ⟨s, hrun⟩ : ∃ s, exec step s₀ cutRun = some s := by
    obtain rfl := Option.some.inj hstart
    exact ⟨_, rfl⟩
  have hok : AllSteps step Ok s₀ cutRun := by
    obtain rfl := Option.some.inj hstart
    decide
  obtain ⟨zone, vd, rest, hcompleted, -, -, -, hread, -, -⟩ := run_recovers hstart hok hrun
  refine ⟨s₀, s, hstart, hrun, ?_⟩
  obtain rfl := Option.some.inj hstart
  obtain rfl := Option.some.inj hrun
  cases hcompleted
  exact hread

/-- One flush succeeds, the header write of the next one fails. -/
def failedRun : List (Event Nat) := changed .new .ok 1 ++ changed (.torn tornBlock) .error 2 ++ [.modify 3]

/-- **Every header is lost**: after one failed header write the next one goes to the only
complete header although the other copy fits, and a crash leaves none. -/
theorem header_ring_comes_round : ∃ s₀ s d, start formatted = some s₀ ∧
    exec step s₀ failedRun = some s ∧ s.dev = some d ∧
    s.completed.head? = some (1, ⟨4294967296, 17, 16, 1⟩) ∧
    s.media.read = some (1, ⟨4294967296, 17, 16, 1⟩) ∧
    Fits (d.flushRoots ⟨none, none, false, false, false⟩).volsync.voluSize 0 ∧
    headerSlot d.volhdrno (d.flushRoots ⟨none, none, false, false, false⟩).volsync.voluSize = 1 ∧
    ∃ s', step s (.flush ⟨none, none, false, false, false⟩ (.torn tornBlock) .crash) = some s' ∧
      s'.media.read = none :=
  ⟨_, _, _, rfl, rfl, rfl, rfl, by decide, by decide, by decide, _, rfl, by decide⟩

end Hammer2.Volume
