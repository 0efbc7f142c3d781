/-
# `Hammer2.Xop.Retire` — the end of a cluster operation

The frontend and the backend nodes of an XOP leave it in any order; each clears its bit of
`run_mask`, and the one that finds no other bit frees it.  While it waits for results the
frontend sleeps, with the WAIT bit set for the feeds and the last node to see.

    mask*        the bits of `run_mask`, one 64-bit word
    FrontPc      where the frontend is in `hammer2_xop_collect` or `hammer2_xop_retire`
    NodePc       where a node is in `hammer2_xop_feed` or `hammer2_xop_retire`
    run_retires  the XOP is freed once, after everybody left, and nobody uses it afterwards

`tsleep_interlock` does nothing on this system: a wakeup between the compare-and-swap that
sets WAIT and the `tsleep` finds nobody asleep (`wakeup_lost`).  The frontend then sleeps
until its timeout.
-/
import Mathlib.Logic.Function.Basic
import Mathlib.Order.Basic
import Mathlib.Order.Nat
import Hammer2.Lib.Machine

namespace Hammer2.Xop.Retire

open Machine

/-! ## The word -/

/-- `HAMMER2_MAXCLUSTER` -/
abbrev maxCluster : Nat := 8

/-- The position of `HAMMER2_XOPMASK_VOP`. -/
abbrev vopBit : Nat := 31

abbrev maskVop : BitVec 64 := 0x80000000#64
abbrev maskFifow : BitVec 64 := 0x40000000#64
abbrev maskWait : BitVec 64 := 0x20000000#64
abbrev maskFeed : BitVec 64 := 0x100000000#64
abbrev maskCluster : BitVec 64 := 0xFF#64
abbrev maskAllDone : BitVec 64 := maskVop ||| maskCluster

/-- The bit of a node, or of the frontend. -/
abbrev maskOf (bit : Nat) : BitVec 64 := BitVec.twoPow 64 bit

/-! ## Where everybody is -/

inductive FrontPc
  | idle
  | read
  | scan (mask : BitVec 64)
  | interlock (mask : BitVec 64)
  | window (mask : BitVec 64)
  | asleep (mask : BitVec 64)
  | fifoWake
  | cleanup
  | gone
deriving DecidableEq

inductive NodePc
  | running
  | store
  | signal
  | clear
  | wake
  | retWake
  | cleanup
  | gone
deriving DecidableEq

/-- An XOP.  `wi` and `ri` are the positions of the fifos; `freed` counts the final
cleanups; `lost` says that a wakeup found the frontend about to sleep. -/
structure Head where
  runMask : BitVec 64
  front : FrontPc
  node : Nat → NodePc
  wi : Nat → Nat
  ri : Nat → Nat
  freed : Nat
  lost : Bool

def Head.setNode (s : Head) (i : Nat) (pc : NodePc) : Head :=
  { s with node := Function.update s.node i pc }

/-- `hammer2_xop_active` -/
def Head.active (s : Head) : Bool := s.runMask &&& maskVop ≠ 0#64

/-- `hammer2_xop_start`: the nodes that get the XOP are queued under one lock. -/
def start (queued : Nat → Bool) : Head where
  runMask := (List.range maxCluster).foldl (fun w i => if queued i then w ||| maskOf i else w) maskVop
  front := .idle
  node i := if i < maxCluster ∧ queued i then .running else .gone
  wi _ := 0
  ri _ := 0
  freed := 0
  lost := false

/-- `wakeup(xop)` -/
def wakeup (s : Head) : Head :=
  match s.front with
  | .asleep _ => { s with front := .read }
  | .window _ => { s with lost := true }
  | _ => s

/-- The last one out drains the fifos, drops what the XOP holds and frees it. -/
def cleanup (s : Head) : Head := { s with ri := s.wi, freed := s.freed + 1 }

/-! ## The steps -/

inductive Event
  /-- the frontend calls `hammer2_xop_collect` -/
  | collect
  | readMask
  /-- the scan takes one element of a fifo -/
  | take (i : Nat)
  /-- `hammer2_cluster_check` has answered EINPROGRESS or not; `again` is the loop on ESRCH
  and EDEADLK -/
  | verdict (inProgress waitAll nowait again : Bool)
  | cmpset
  | sleep
  | timeout
  /-- the frontend calls `hammer2_xop_retire` -/
  | retireVop
  /-- the frontend goes on in `hammer2_xop_retire` -/
  | frontNext
  /-- a node calls `hammer2_xop_feed` -/
  | feed (i : Nat)
  /-- a feed of a full fifo finds the frontend gone -/
  | feedAbort (i : Nat)
  /-- a node has done its work and calls `hammer2_xop_retire` -/
  | retire (i : Nat)
  /-- a node goes on in `hammer2_xop_feed` or `hammer2_xop_retire` -/
  | next (i : Nat)

/-- Where the frontend goes after its scan. -/
def afterVerdict (mask : BitVec 64) (inProgress waitAll nowait again : Bool) : FrontPc :=
  if (waitAll && mask &&& maskAllDone ≠ maskVop) || inProgress then
    if nowait then .idle else .interlock mask
  else if again then .read
  else .idle

/-- `hammer2_xop_retire` of a node, after the fetch-and-add that returned `nmask`. -/
def afterRetire (nmask mask : BitVec 64) : NodePc :=
  if nmask &&& maskAllDone ≠ mask then
    let nmask := nmask - mask
    if nmask &&& maskAllDone = maskVop ∧ nmask &&& maskWait ≠ 0#64 then .retWake else .gone
  else
    .cleanup

/-- `hammer2_xop_retire` of the frontend, after the fetch-and-add that returned `nmask`. -/
def afterRetireVop (nmask : BitVec 64) : FrontPc :=
  if nmask &&& maskAllDone ≠ maskVop then
    if nmask &&& maskFifow ≠ 0#64 then .fifoWake else .gone
  else
    .cleanup

def step (s : Head) : Event → Option Head
  | .collect => if s.front = .idle then some { s with front := .read } else none
  | .readMask => if s.front = .read then some { s with front := .scan s.runMask } else none
  | .take i =>
      match s.front with
      | .scan _ =>
          if s.ri i < s.wi i then some { s with ri := Function.update s.ri i (s.ri i + 1) } else none
      | _ => none
  | .verdict inProgress waitAll nowait again =>
      match s.front with
      | .scan mask => some { s with front := afterVerdict mask inProgress waitAll nowait again }
      | _ => none
  | .cmpset =>
      match s.front with
      | .interlock mask =>
          if s.runMask = mask then
            some { s with runMask := mask ||| maskWait, front := .window mask, lost := false }
          else
            some { s with front := .read }
      | _ => none
  | .sleep =>
      match s.front with
      | .window mask => some { s with front := .asleep mask }
      | _ => none
  | .timeout =>
      match s.front with
      | .asleep _ => some { s with front := .read }
      | _ => none
  | .retireVop =>
      if s.front = .idle then
        some { s with
          runMask := s.runMask - maskVop + maskFeed
          front := afterRetireVop s.runMask }
      else
        none
  | .frontNext =>
      match s.front with
      | .fifoWake => some { s with front := .gone }
      | .cleanup => some { cleanup s with front := .gone }
      | _ => none
  | .feed i =>
      if s.node i = .running then
        if s.active then some (s.setNode i .store) else some s
      else
        none
  | .feedAbort i =>
      if s.node i = .store ∧ s.active = false then some (s.setNode i .running) else none
  | .retire i =>
      if s.node i = .running then
        some { s.setNode i (afterRetire s.runMask (maskOf i)) with
          runMask := s.runMask - maskOf i + maskFeed }
      else
        none
  | .next i =>
      match s.node i with
      | .store => some { s.setNode i .signal with wi := Function.update s.wi i (s.wi i + 1) }
      | .signal => some { s.setNode i (if s.runMask &&& maskWait ≠ 0#64 then .clear else .running) with
          runMask := s.runMask + maskFeed }
      | .clear => some { s.setNode i .wake with runMask := s.runMask &&& ~~~maskWait }
      | .wake => some (wakeup (s.setNode i .running))
      | .retWake => some (wakeup (s.setNode i .gone))
      | .cleanup => some (cleanup (s.setNode i .gone))
      | .running => none
      | .gone => none

/-! ## Bits of the word

The FEED counter is above the bits, so adding to it leaves them alone; taking away a bit that
is set clears it. -/

theorem getLsbD_addFeed {w : BitVec 64} {j : Nat} (hj : j < 32) :
    (w + maskFeed).getLsbD j = w.getLsbD j := by
  have h : (w + maskFeed).setWidth 32 = w.setWidth 32 := by
    rw [BitVec.setWidth_add _ _ (by decide)]
    exact BitVec.add_zero _
  have hbit := congrArg (fun v => v.getLsbD j) h
  simpa only [BitVec.getLsbD_setWidth, hj, decide_true, Bool.true_and] using hbit

theorem getLsbD_maskOf {i j : Nat} (hj : j < 64) : (maskOf i).getLsbD j = decide (i = j) := by
  rw [BitVec.getLsbD_twoPow]
  rcases eq_or_ne i j with rfl | hne
  · simp [hj]
  · simp [hne]

theorem sub_maskOf {w : BitVec 64} {i : Nat} (h : w.getLsbD i = true) :
    w - maskOf i = w &&& ~~~maskOf i := by
  have hdisjoint : (w &&& ~~~maskOf i) &&& maskOf i = 0#64 := by
    ext j hj
    simp
  have hsum : (w &&& ~~~maskOf i) + maskOf i = w := by
    rw [BitVec.add_eq_or_of_and_eq_zero _ _ hdisjoint]
    refine BitVec.eq_of_getLsbD_eq fun j hj => ?_
    rw [BitVec.getLsbD_or, BitVec.getLsbD_and, BitVec.getLsbD_not, getLsbD_maskOf hj]
    rcases eq_or_ne i j with rfl | hne
    · simp [h]
    · simp [hj, hne]
  calc w - maskOf i = (w &&& ~~~maskOf i) + maskOf i - maskOf i := by rw [hsum]
    _ = w &&& ~~~maskOf i := BitVec.add_sub_cancel _ _

/-- The word after a fetch-and-add of `-mask + FEED`. -/
theorem getLsbD_retire {w : BitVec 64} {i j : Nat} (h : w.getLsbD i = true) (hj : j < 32) :
    (w - maskOf i + maskFeed).getLsbD j = (w.getLsbD j && decide (i ≠ j)) := by
  have hj' : j < 64 := Nat.lt_trans hj (by decide)
  rw [getLsbD_addFeed hj, sub_maskOf h, BitVec.getLsbD_and, BitVec.getLsbD_not, getLsbD_maskOf hj']
  simp only [hj', decide_true, Bool.true_and, ne_eq, decide_not]

theorem maskVop_eq : maskVop = maskOf vopBit := by decide

theorem maskWait_eq : maskWait = maskOf 29 := by decide

theorem and_maskOf_ne_zero {w : BitVec 64} {i : Nat} (hi : i < 64) :
    w &&& maskOf i ≠ 0#64 ↔ w.getLsbD i = true := by
  constructor
  · intro h
    cases hb : w.getLsbD i with
    | true => rfl
    | false =>
        refine absurd (BitVec.eq_of_getLsbD_eq fun j hj => ?_) h
        rw [BitVec.getLsbD_and, getLsbD_maskOf hj, BitVec.getLsbD_zero]
        rcases eq_or_ne i j with rfl | hne
        · rw [hb, Bool.false_and]
        · rw [decide_eq_false hne, Bool.and_false]
  · intro h hz
    have hbit := congrArg (fun v => v.getLsbD i) hz
    simp [h, getLsbD_maskOf hi] at hbit

theorem getLsbD_allDone {j : Nat} (hj : j < 64) :
    maskAllDone.getLsbD j = decide (j < maxCluster ∨ j = vopBit) := by
  revert j
  decide

/-- Only the bit `i` is left. -/
theorem and_allDone_eq {w : BitVec 64} {i : Nat} (hi : i < maxCluster ∨ i = vopBit) :
    w &&& maskAllDone = maskOf i ↔
      ∀ j, j < maxCluster ∨ j = vopBit → w.getLsbD j = decide (i = j) := by
  have hlt : ∀ j, j < maxCluster ∨ j = vopBit → j < 64 := by
    rintro j (hj | rfl)
    · exact Nat.lt_trans hj (by decide)
    · decide
  constructor
  · intro h j hj
    have hbit := congrArg (fun v => v.getLsbD j) h
    simpa only [BitVec.getLsbD_and, getLsbD_allDone (hlt j hj), hj, decide_true, Bool.and_true,
      getLsbD_maskOf (hlt j hj)] using hbit
  · intro h
    refine BitVec.eq_of_getLsbD_eq fun j hj => ?_
    rw [BitVec.getLsbD_and, getLsbD_allDone hj, getLsbD_maskOf hj]
    by_cases hin : j < maxCluster ∨ j = vopBit
    · simp only [h j hin, hin, decide_true, Bool.and_true]
    · have hne : i ≠ j := fun hij => hin (hij ▸ hi)
      simp only [hin, decide_false, Bool.and_false, hne]

/-! ## The invariant -/

/-- The node has its bit. -/
def NodePc.counted : NodePc → Bool
  | .retWake | .cleanup | .gone => false
  | _ => true

/-- The frontend has its bit. -/
def FrontPc.counted : FrontPc → Bool
  | .fifoWake | .cleanup | .gone => false
  | _ => true

/-- The node is about to wake the frontend. -/
def NodePc.waking : NodePc → Bool
  | .clear | .wake | .retWake => true
  | _ => false

/-- The bits of `ALLDONE`. -/
abbrev IsParty (j : Nat) : Prop := j < maxCluster ∨ j = vopBit

/-- Nobody has a bit left. -/
def Left (s : Head) : Prop := ∀ j, IsParty j → s.runMask.getLsbD j = false

/-- The frontend (`none`) or a node is in the final cleanup. -/
def AtCleanup (s : Head) : Option Nat → Prop
  | none => s.front = .cleanup
  | some i => s.node i = .cleanup

structure Core (s : Head) : Prop where
  node : ∀ i < maxCluster, s.runMask.getLsbD i = (s.node i).counted
  vop : s.runMask.getLsbD vopBit = s.front.counted
  out : ∀ i, maxCluster ≤ i → s.node i = .gone
  before : ¬ Left s → s.freed = 0 ∧ ∀ k, ¬ AtCleanup s k
  after : Left s → s.freed = 1 ∧ (∀ k, ¬ AtCleanup s k) ∨
    s.freed = 0 ∧ ∃ k, ∀ j, AtCleanup s j ↔ j = k

/-- The frontend will be woken: a node is on its way to it, or the WAIT bit is there for the
next feed and the last node to see, and when no node is left none was left when the frontend
read `mask`, before its scan. -/
def Armed (s : Head) (mask : BitVec 64) : Prop :=
  s.lost = true ∨ (∃ i, (s.node i).waking = true) ∨
    s.runMask.getLsbD 29 = true ∧
      ((∀ i < maxCluster, s.runMask.getLsbD i = false) → ∀ i < maxCluster, mask.getLsbD i = false)

structure Inv (s : Head) : Prop extends Core s where
  sleep : ∀ mask, s.front = .window mask ∨ s.front = .asleep mask → Armed s mask

section Frame

variable {s t : Head}

theorem Core.lt (h : Core s) {i : Nat} (hi : s.node i ≠ .gone) : i < maxCluster :=
  Nat.lt_of_not_le fun hge => hi (h.out i hge)

/-- From `s` to `t` nobody left and nobody went through the cleanup. -/
structure Quiet (s t : Head) : Prop where
  bits : ∀ j, IsParty j → t.runMask.getLsbD j = s.runMask.getLsbD j
  node : ∀ i, (t.node i).counted = (s.node i).counted ∧ (t.node i = .cleanup ↔ s.node i = .cleanup)
  gone : ∀ i, s.node i = .gone → t.node i = .gone
  front : t.front.counted = s.front.counted ∧ (t.front = .cleanup ↔ s.front = .cleanup)
  freed : t.freed = s.freed

theorem Core.quiet (h : Core s) (hq : Quiet s t) : Core t := by
  have hleft : Left t ↔ Left s := by
    constructor
    · intro hl j hj
      exact (hq.bits j hj).symm.trans (hl j hj)
    · intro hl j hj
      exact (hq.bits j hj).trans (hl j hj)
  have hat : ∀ k, AtCleanup t k ↔ AtCleanup s k := by
    intro k
    cases k with
    | none => exact hq.front.2
    | some i => exact (hq.node i).2
  refine ⟨fun i hi => ?_, ?_, fun i hi => hq.gone i (h.out i hi), fun hl => ?_, fun hl => ?_⟩
  · exact (hq.bits i (.inl hi)).trans ((h.node i hi).trans (hq.node i).1.symm)
  · exact (hq.bits vopBit (.inr rfl)).trans (h.vop.trans hq.front.1.symm)
  · obtain ⟨hf, hk⟩ := h.before fun hs => hl (hleft.mpr hs)
    exact ⟨hq.freed.trans hf, fun k hkt => hk k ((hat k).mp hkt)⟩
  · rcases h.after (hleft.mp hl) with ⟨hf, hk⟩ | ⟨hf, k, hk⟩
    · exact .inl ⟨hq.freed.trans hf, fun k hkt => hk k ((hat k).mp hkt)⟩
    · exact .inr ⟨hq.freed.trans hf, k, fun j => (hat j).trans (hk j)⟩

theorem setNode_node {i j : Nat} {pc : NodePc} :
    (s.setNode i pc).node j = if j = i then pc else s.node j := by
  simp only [Head.setNode, Function.update_apply]

/-- A node goes on inside the XOP. -/
theorem quiet_setNode {i : Nat} {p : NodePc} (hq : Quiet { s with node := (s.setNode i p).node } t)
    (hfrom : (s.node i).counted = true) (hto : p.counted = true) : Quiet s t := by
  have hpc : p ≠ .cleanup := fun h => by rw [h] at hto; cases hto
  have hs : s.node i ≠ .cleanup := fun h => by rw [h] at hfrom; cases hfrom
  refine ⟨hq.bits, fun j => ?_, fun j hj => hq.gone j ?_, hq.front, hq.freed⟩
  · have hj := hq.node j
    simp only [setNode_node] at hj
    rcases eq_or_ne j i with rfl | hne
    · rw [if_pos rfl] at hj
      exact ⟨hj.1.trans (hto.trans hfrom.symm), fun h => absurd (hj.2.mp h) hpc, fun h => absurd h hs⟩
    · rwa [if_neg hne] at hj
  · rcases eq_or_ne j i with rfl | hne
    · rw [hj] at hfrom
      cases hfrom
    · simpa only [setNode_node, if_neg hne] using hj

theorem Quiet.refl : Quiet s s :=
  ⟨fun _ _ => rfl, fun _ => ⟨rfl, .rfl⟩, fun _ h => h, ⟨rfl, .rfl⟩, rfl⟩

/-- The frontend goes on inside the XOP. -/
theorem quiet_front {pc : FrontPc} (hq : Quiet { s with front := pc } t)
    (hfrom : s.front.counted = true) (hto : pc.counted = true) : Quiet s t := by
  have hpc : pc ≠ .cleanup := fun h => by rw [h] at hto; cases hto
  have hs : s.front ≠ .cleanup := fun h => by rw [h] at hfrom; cases hfrom
  exact ⟨hq.bits, hq.node, hq.gone, ⟨hq.front.1.trans (hto.trans hfrom.symm),
    fun h => absurd (hq.front.2.mp h) hpc, fun h => absurd h hs⟩, hq.freed⟩

theorem Armed.mono {mask : BitVec 64} (h : Armed s mask) (hlost : t.lost = s.lost)
    (hnode : ∀ i, (s.node i).waking = true → (t.node i).waking = true)
    (hwait : t.runMask.getLsbD 29 = s.runMask.getLsbD 29)
    (hclear : (∀ i < maxCluster, t.runMask.getLsbD i = false) →
      ∀ i < maxCluster, s.runMask.getLsbD i = false) : Armed t mask := by
  rcases h with hl | ⟨i, hi⟩ | ⟨hw, hm⟩
  · exact .inl (hlost.trans hl)
  · exact .inr (.inl ⟨i, hnode i hi⟩)
  · exact .inr (.inr ⟨hwait.trans hw, fun hc => hm (hclear hc)⟩)

theorem waking_setNode {i : Nat} {pc : NodePc} (hi : (s.node i).waking = false) :
    ∀ j, (s.node j).waking = true → ((s.setNode i pc).node j).waking = true := by
  intro j hj
  rw [setNode_node, if_neg]
  · exact hj
  · rintro rfl
    cases hi.symm.trans hj

/-- Somebody is still in the XOP. -/
theorem not_left_of_front (h : Core s) (hf : s.front.counted = true) : ¬ Left s := by
  intro hl
  cases (hl vopBit (.inr rfl)).symm.trans (h.vop.trans hf)

theorem Core.front_of_node (h : Core s) {i : Nat} (hi : s.node i = .cleanup) :
    s.front.counted = false := by
  cases hf : s.front.counted with
  | false => rfl
  | true => exact absurd hi ((h.before (not_left_of_front h hf)).2 (some i))

end Frame

/-! ## Leaving -/

section Leave

variable {s t : Head} {k : Option Nat} {bit : Nat}

/-- The party `k` clears its bit; it is in the cleanup if that was the last one. -/
theorem leave_cleanup (h : Core s) (hbit : IsParty bit) (hset : s.runMask.getLsbD bit = true)
    (hbits : ∀ j, IsParty j → t.runMask.getLsbD j = (s.runMask.getLsbD j && decide (bit ≠ j)))
    (hfreed : t.freed = s.freed)
    (hk : AtCleanup t k ↔ ∀ j, IsParty j → s.runMask.getLsbD j = decide (bit = j))
    (hothers : ∀ j, j ≠ k → (AtCleanup t j ↔ AtCleanup s j)) :
    (¬ Left t → t.freed = 0 ∧ ∀ k, ¬ AtCleanup t k) ∧
      (Left t → t.freed = 1 ∧ (∀ k, ¬ AtCleanup t k) ∨
        t.freed = 0 ∧ ∃ k, ∀ j, AtCleanup t j ↔ j = k) := by
  have hnot : ¬ Left s := by
    intro hl
    cases (hl bit hbit).symm.trans hset
  obtain ⟨hf, hat⟩ := h.before hnot
  have hleft : Left t ↔ AtCleanup t k := by
    rw [hk]
    constructor
    · intro hl j hj
      rcases eq_or_ne bit j with rfl | hne
      · rw [hset, decide_eq_true rfl]
      · have hbitj := (hbits j hj).symm.trans (hl j hj)
        rw [decide_eq_true hne, Bool.and_true] at hbitj
        rw [hbitj, decide_eq_false hne]
    · intro hl j hj
      rw [hbits j hj, hl j hj]
      rcases eq_or_ne bit j with rfl | hne
      · simp
      · simp [hne]
  constructor
  · intro hl
    refine ⟨hfreed.trans hf, fun j hj => ?_⟩
    rcases eq_or_ne j k with rfl | hne
    · exact hl (hleft.mpr hj)
    · exact hat j ((hothers j hne).mp hj)
  · intro hl
    refine .inr ⟨hfreed.trans hf, k, fun j => ⟨fun hj => ?_, fun hj => hj ▸ hleft.mp hl⟩⟩
    rcases eq_or_ne j k with hjk | hne
    · exact hjk
    · exact absurd ((hothers j hne).mp hj) (hat j)

/-- The party `k` has cleaned up. -/
theorem done_cleanup (h : Core s) (hk : AtCleanup s k) (hk' : ¬ AtCleanup t k)
    (hbits : t.runMask = s.runMask) (hfreed : t.freed = s.freed + 1)
    (hothers : ∀ j, j ≠ k → (AtCleanup t j ↔ AtCleanup s j)) :
    (¬ Left t → t.freed = 0 ∧ ∀ k, ¬ AtCleanup t k) ∧
      (Left t → t.freed = 1 ∧ (∀ k, ¬ AtCleanup t k) ∨
        t.freed = 0 ∧ ∃ k, ∀ j, AtCleanup t j ↔ j = k) := by
  have hleft : Left s := by
    by_contra hl
    exact (h.before hl).2 k hk
  have hleft' : Left t := by
    intro j hj
    rw [hbits]
    exact hleft j hj
  refine ⟨fun hl => absurd hleft' hl, fun _ => .inl ?_⟩
  rcases h.after hleft with ⟨-, hnone⟩ | ⟨hf, k', huniq⟩
  · exact absurd hk (hnone k)
  · refine ⟨by rw [hfreed, hf], fun j hj => ?_⟩
    rcases eq_or_ne j k with rfl | hne
    · exact hk' hj
    · exact hne (((huniq j).mp ((hothers j hne).mp hj)).trans ((huniq k).mp hk).symm)

end Leave

theorem afterRetire_counted (nmask mask : BitVec 64) : (afterRetire nmask mask).counted = false := by
  simp only [afterRetire]
  split
  · split <;> rfl
  · rfl

theorem afterRetire_eq_cleanup {nmask mask : BitVec 64} :
    afterRetire nmask mask = .cleanup ↔ nmask &&& maskAllDone = mask := by
  simp only [afterRetire]
  split
  · rename_i hne
    refine ⟨fun h => ?_, fun h => absurd h hne⟩
    split at h <;> cases h
  · rename_i heq
    exact ⟨fun _ => not_not.mp heq, fun _ => rfl⟩

theorem afterRetireVop_counted (nmask : BitVec 64) : (afterRetireVop nmask).counted = false := by
  simp only [afterRetireVop]
  split
  · split <;> rfl
  · rfl

theorem afterRetireVop_eq_cleanup {nmask : BitVec 64} :
    afterRetireVop nmask = .cleanup ↔ nmask &&& maskAllDone = maskVop := by
  simp only [afterRetireVop]
  split
  · rename_i hne
    refine ⟨fun h => ?_, fun h => absurd h hne⟩
    split at h <;> cases h
  · rename_i heq
    exact ⟨fun _ => not_not.mp heq, fun _ => rfl⟩

theorem party_lt {j : Nat} (hj : IsParty j) : j < 32 := by
  rcases hj with hj | rfl
  · exact Nat.lt_trans hj (by decide)
  · decide

theorem wait_ne {j : Nat} (hj : IsParty j) : 29 ≠ j := by
  rcases hj with hj | rfl
  · exact Nat.ne_of_gt (Nat.lt_trans hj (by decide))
  · decide

section Steps

variable {s : Head}

theorem core_retire {i : Nat} (h : Core s) (hi : s.node i = .running) :
    Core { s.setNode i (afterRetire s.runMask (maskOf i)) with
      runMask := s.runMask - maskOf i + maskFeed } := by
  have hlt : i < maxCluster := h.lt (by rw [hi]; exact nofun)
  have hset : s.runMask.getLsbD i = true := by
    rw [h.node i hlt, hi]
    rfl
  have hbits := fun j (hj : IsParty j) => getLsbD_retire hset (party_lt hj)
  obtain ⟨hbefore, hafter⟩ := leave_cleanup (k := some i)
    (t := { s.setNode i (afterRetire s.runMask (maskOf i)) with
      runMask := s.runMask - maskOf i + maskFeed }) h (.inl hlt) hset hbits rfl
    (by
      rw [AtCleanup, setNode_node, if_pos rfl, afterRetire_eq_cleanup]
      exact and_allDone_eq (.inl hlt))
    (by
      intro j hj
      cases j with
      | none => simp only [AtCleanup, Head.setNode]
      | some j =>
          rw [AtCleanup, setNode_node, if_neg fun hji => hj (congrArg some hji)]
          exact .rfl)
  refine ⟨fun j hj => ?_, ?_, fun j hj => ?_, hbefore, hafter⟩
  · rw [hbits j (.inl hj), setNode_node]
    rcases eq_or_ne j i with rfl | hne
    · rw [if_pos rfl, afterRetire_counted]
      simp
    · rw [if_neg hne, h.node j hj, decide_eq_true hne.symm, Bool.and_true]
  · rw [hbits vopBit (.inr rfl), h.vop, decide_eq_true (Nat.ne_of_lt (Nat.lt_trans hlt (by decide))),
      Bool.and_true]
    rfl
  · rw [setNode_node, if_neg (Nat.ne_of_gt (Nat.lt_of_lt_of_le hlt hj))]
    exact h.out j hj

theorem core_retireVop (h : Core s) (hf : s.front = .idle) :
    Core { s with runMask := s.runMask - maskVop + maskFeed, front := afterRetireVop s.runMask } := by
  have hset : s.runMask.getLsbD vopBit = true := by
    rw [h.vop, hf]
    rfl
  have hbits : ∀ j, IsParty j → (s.runMask - maskVop + maskFeed).getLsbD j =
      (s.runMask.getLsbD j && decide (vopBit ≠ j)) := fun j hj => by
    rw [maskVop_eq]
    exact getLsbD_retire hset (party_lt hj)
  obtain ⟨hbefore, hafter⟩ := leave_cleanup (k := none)
    (t := { s with
      runMask := s.runMask - maskVop + maskFeed, front := afterRetireVop s.runMask })
    h (.inr rfl) hset hbits rfl
    (by
      rw [AtCleanup, afterRetireVop_eq_cleanup, maskVop_eq]
      exact and_allDone_eq (.inr rfl))
    (by
      intro j hj
      cases j with
      | none => exact absurd rfl hj
      | some j => simp only [AtCleanup])
  refine ⟨fun j hj => ?_, ?_, h.out, hbefore, hafter⟩
  · have hne : vopBit ≠ j := Nat.ne_of_gt (Nat.lt_trans hj (by decide))
    rw [hbits j (.inl hj), decide_eq_true hne, Bool.and_true]
    exact h.node j hj
  · rw [hbits vopBit (.inr rfl), afterRetireVop_counted]
    simp

theorem core_cleanup {i : Nat} (h : Core s) (hi : s.node i = .cleanup) :
    Core (cleanup (s.setNode i .gone)) := by
  obtain ⟨hbefore, hafter⟩ := done_cleanup (k := some i) (t := cleanup (s.setNode i .gone)) h hi
    (by
      rw [AtCleanup, cleanup, setNode_node, if_pos rfl]
      exact nofun)
    rfl rfl
    (by
      intro j hj
      cases j with
      | none => exact .rfl
      | some j =>
          rw [AtCleanup, cleanup, setNode_node, if_neg fun hji => hj (congrArg some hji)]
          exact .rfl)
  refine ⟨fun j hj => ?_, h.vop, fun j hj => ?_, hbefore, hafter⟩
  · simp only [cleanup, setNode_node]
    rcases eq_or_ne j i with rfl | hne
    · rw [if_pos rfl]
      exact (h.node j hj).trans (by rw [hi]; rfl)
    · rw [if_neg hne]
      exact h.node j hj
  · simp only [cleanup, setNode_node]
    split
    · rfl
    · exact h.out j hj

theorem core_cleanupVop (h : Core s) (hf : s.front = .cleanup) :
    Core { cleanup s with front := .gone } := by
  obtain ⟨hbefore, hafter⟩ := done_cleanup (k := none) (t := { cleanup s with front := .gone }) h hf
    nofun rfl rfl
    (by
      intro j hj
      cases j with
      | none => exact absurd rfl hj
      | some j => exact .rfl)
  exact ⟨h.node, h.vop.trans (by rw [hf]; rfl), h.out, hbefore, hafter⟩

/-- A wakeup moves the frontend only inside `hammer2_xop_collect`. -/
theorem quiet_wakeup : Quiet s (wakeup s) := by
  simp only [wakeup]
  split
  · rename_i hf
    exact quiet_front .refl (by rw [hf]; rfl) rfl
  · exact ⟨fun _ _ => rfl, fun _ => ⟨rfl, .rfl⟩, fun _ h => h, ⟨rfl, .rfl⟩, rfl⟩
  · exact .refl

theorem wakeup_sleep {mask : BitVec 64}
    (h : (wakeup s).front = .window mask ∨ (wakeup s).front = .asleep mask) :
    (wakeup s).lost = true := by
  simp only [wakeup] at h ⊢
  split at h
  · rcases h with h | h <;> cases h
  · rfl
  · rename_i hw ha
    rcases h with h | h
    · exact absurd h (ha mask)
    · exact absurd h (hw mask)

end Steps

/-! ## One step -/

theorem getLsbD_startMask (queued : Nat → Bool) {j : Nat} (hj : j < 64) :
    ∀ (is : List Nat) (w : BitVec 64),
      (is.foldl (fun w i => if queued i then w ||| maskOf i else w) w).getLsbD j =
        (w.getLsbD j || (is.contains j && queued j)) := by
  intro is
  induction is with
  | nil =>
      intro w
      simp
  | cons i is ih =>
      intro w
      rw [List.foldl_cons, ih, List.contains_cons]
      cases hq : queued i with
      | false =>
          rcases eq_or_ne j i with rfl | hne
          · simp [hq]
          · simp [beq_false_of_ne hne]
      | true =>
          rw [if_pos rfl, BitVec.getLsbD_or, getLsbD_maskOf hj]
          rcases eq_or_ne i j with rfl | hne
          · simp [hq]
          · simp [hne, beq_false_of_ne hne.symm]

theorem inv_start (queued : Nat → Bool) : Inv (start queued) := by
  have hvop : (start queued).runMask.getLsbD vopBit = true := by
    rw [start, getLsbD_startMask queued (by decide)]
    rfl
  refine ⟨⟨fun i hi => ?_, hvop, fun i hi => ?_, fun _ => ⟨rfl, fun k => ?_⟩, fun hl => ?_⟩, ?_⟩
  · have hw : maskVop.getLsbD i = false := by
      rw [maskVop_eq, getLsbD_maskOf (Nat.lt_trans hi (by decide))]
      exact decide_eq_false (Nat.ne_of_gt (Nat.lt_trans hi (by decide)))
    have hin : (List.range maxCluster).contains i = true := by
      simpa using hi
    simp only [start, getLsbD_startMask queued (Nat.lt_trans hi (by decide) : i < 64), hw, hin,
      Bool.false_or, Bool.true_and, hi, true_and]
    cases queued i <;> rfl
  · exact if_neg fun h => Nat.not_lt_of_le hi h.1
  · cases k with
    | none => exact nofun
    | some i =>
        simp only [AtCleanup, start]
        split <;> exact nofun
  · cases (hl vopBit (.inr rfl)).symm.trans hvop
  · rintro mask (h | h) <;> cases h

theorem Inv.front {s : Head} {pc : FrontPc} (h : Inv s) (hfrom : s.front.counted = true)
    (hto : pc.counted = true) (hsleep : ∀ mask, pc = .window mask ∨ pc = .asleep mask → Armed s mask) :
    Inv { s with front := pc } :=
  ⟨h.toCore.quiet (quiet_front .refl hfrom hto), hsleep⟩

/-- A node goes on; the WAIT bit is left alone. -/
theorem inv_node {s t : Head} {i : Nat} {p : NodePc} (h : Inv s)
    (hq : Quiet { s with node := (s.setNode i p).node } t) (hnode : t.node = (s.setNode i p).node)
    (hfront : t.front = s.front) (hlost : t.lost = s.lost)
    (hwait : t.runMask.getLsbD 29 = s.runMask.getLsbD 29) (hfrom : (s.node i).counted = true)
    (hto : p.counted = true) (hwake : (s.node i).waking = false) : Inv t := by
  refine ⟨h.toCore.quiet (quiet_setNode hq hfrom hto), fun mask hm => ?_⟩
  rw [hfront] at hm
  refine (h.sleep mask hm).mono hlost ?_ hwait fun hc j hj => ?_
  · rw [hnode]
    exact waking_setNode hwake
  · exact (hq.bits j (.inl hj)).symm.trans (hc j hj)

theorem inv_retire {s : Head} {i : Nat} (h : Inv s) (hi : s.node i = .running) :
    Inv { s.setNode i (afterRetire s.runMask (maskOf i)) with
      runMask := s.runMask - maskOf i + maskFeed } := by
  have hlt : i < maxCluster := h.lt (by rw [hi]; exact nofun)
  have hset : s.runMask.getLsbD i = true := by
    rw [h.node i hlt, hi]
    rfl
  refine ⟨core_retire h.toCore hi, fun mask hm => ?_⟩
  have hcounted : s.front.counted = true := by
    rcases hm with hm | hm
    · rw [show s.front = .window mask from hm]; rfl
    · rw [show s.front = .asleep mask from hm]; rfl
  rcases h.sleep mask hm with hl | ⟨j, hj⟩ | ⟨hw, hm'⟩
  · exact .inl hl
  · have hj' : ((s.setNode i (afterRetire s.runMask (maskOf i))).node j).waking = true :=
      waking_setNode (by rw [hi]; rfl) j hj
    exact .inr (.inl ⟨j, hj'⟩)
  · cases hret : (afterRetire s.runMask (maskOf i)).waking with
    | true => exact .inr (.inl ⟨i, by rw [setNode_node, if_pos rfl]; exact hret⟩)
    | false =>
        refine .inr (.inr ⟨(getLsbD_retire hset (by decide)).trans ?_, fun hc => ?_⟩)
        · rw [hw, decide_eq_true (Nat.ne_of_lt (Nat.lt_trans hlt (by decide)))]
          rfl
        · -- The last node sees the WAIT bit and does not go quietly.
          have hsub : ∀ j, IsParty j ∨ j = 29 →
              (s.runMask - maskOf i).getLsbD j = (s.runMask - maskOf i + maskFeed).getLsbD j := by
            rintro j (hj | rfl)
            · exact (getLsbD_addFeed (party_lt hj)).symm
            · exact (getLsbD_addFeed (by decide)).symm
          have hvop : (s.runMask - maskOf i + maskFeed).getLsbD vopBit = true := by
            rw [getLsbD_retire hset (by decide), h.vop, hcounted,
              decide_eq_true (Nat.ne_of_lt (Nat.lt_trans hlt (by decide)))]
            rfl
          have hnotlast : s.runMask &&& maskAllDone ≠ maskOf i := by
            intro hlast
            have hbit := (and_allDone_eq (.inl hlt)).mp hlast vopBit (.inr rfl)
            rw [h.vop, hcounted, decide_eq_false (Nat.ne_of_lt (Nat.lt_trans hlt (by decide)))] at hbit
            cases hbit
          have honly : (s.runMask - maskOf i) &&& maskAllDone = maskVop := by
            rw [maskVop_eq, and_allDone_eq (.inr rfl)]
            intro j hj
            rw [hsub j (.inl hj)]
            rcases hj with hj | rfl
            · rw [hc j hj, decide_eq_false (Nat.ne_of_gt (Nat.lt_trans hj (by decide)))]
            · rw [hvop]
              rfl
          have hwait : (s.runMask - maskOf i) &&& maskWait ≠ 0#64 := by
            rw [maskWait_eq, and_maskOf_ne_zero (by decide), hsub 29 (.inr rfl),
              getLsbD_retire hset (by decide), hw,
              decide_eq_true (Nat.ne_of_lt (Nat.lt_trans hlt (by decide)))]
            rfl
          simp only [afterRetire, if_pos hnotlast, if_pos (And.intro honly hwait)] at hret
          cases hret

/-- A node wakes the frontend and goes on. -/
theorem inv_wakeup {s : Head} (h : Core s) : Inv (wakeup s) :=
  ⟨h.quiet quiet_wakeup, fun _ hm => .inl (wakeup_sleep hm)⟩

/-- **The step lemma.** -/
theorem step_inv (s : Head) (e : Event) (t : Head) (h : Inv s) (hstep : step s e = some t) : Inv t := by
  cases e with
  | collect =>
      simp only [step] at hstep
      split at hstep
      · rename_i hf
        cases hstep
        exact h.front (by rw [hf]; rfl) rfl (by rintro _ (hm | hm) <;> cases hm)
      · cases hstep
  | readMask =>
      simp only [step] at hstep
      split at hstep
      · rename_i hf
        cases hstep
        exact h.front (by rw [hf]; rfl) rfl (by rintro _ (hm | hm) <;> cases hm)
      · cases hstep
  | take i =>
      simp only [step] at hstep
      split at hstep
      · rename_i mask hf
        split at hstep
        · cases hstep
          refine ⟨h.toCore.quiet ⟨fun _ _ => rfl, fun _ => ⟨rfl, .rfl⟩, fun _ h => h, ⟨rfl, .rfl⟩,
            rfl⟩, fun m hm => ?_⟩
          rcases hm with hm | hm <;> cases hf.symm.trans hm
        · cases hstep
      · cases hstep
  | verdict inProgress waitAll nowait again =>
      simp only [step] at hstep
      split at hstep
      · rename_i mask hf
        cases hstep
        refine h.front (by rw [hf]; rfl) ?_ ?_
        · simp only [afterVerdict]
          split
          · split <;> rfl
          · split <;> rfl
        · intro m hm
          simp only [afterVerdict] at hm
          split at hm
          · split at hm <;> rcases hm with hm | hm <;> cases hm
          · split at hm <;> rcases hm with hm | hm <;> cases hm
      · cases hstep
  | cmpset =>
      simp only [step] at hstep
      split at hstep
      · rename_i mask hf
        split at hstep
        · rename_i heq
          cases hstep
          have hbits : ∀ j, j < 64 → (mask ||| maskWait).getLsbD j = (s.runMask.getLsbD j || decide (29 = j)) := by
            intro j hj
            rw [BitVec.getLsbD_or, heq, maskWait_eq, getLsbD_maskOf hj]
          have hparty : ∀ j, IsParty j → (mask ||| maskWait).getLsbD j = s.runMask.getLsbD j := by
            intro j hj
            rw [hbits j (Nat.lt_trans (party_lt hj) (by decide)), decide_eq_false (wait_ne hj),
              Bool.or_false]
          refine ⟨h.toCore.quiet ⟨hparty, fun _ => ⟨rfl, .rfl⟩, fun _ h => h, ?_, rfl⟩, fun m hm => ?_⟩
          · exact ⟨by rw [hf]; rfl, ⟨nofun, fun h => nomatch hf.symm.trans h⟩⟩
          · obtain rfl : mask = m := by
              rcases hm with hm | hm <;> cases hm
              rfl
            refine .inr (.inr ⟨?_, fun hc i hi => ?_⟩)
            · rw [hbits 29 (by decide)]
              simp
            · rw [← heq, ← hparty i (.inl hi)]
              exact hc i hi
        · cases hstep
          exact h.front (by rw [hf]; rfl) rfl (by rintro _ (hm | hm) <;> cases hm)
      · cases hstep
  | sleep =>
      simp only [step] at hstep
      split at hstep
      · rename_i mask hf
        cases hstep
        refine h.front (by rw [hf]; rfl) rfl fun m hm => h.sleep m (.inl ?_)
        rcases hm with hm | hm <;> cases hm
        exact hf
      · cases hstep
  | timeout =>
      simp only [step] at hstep
      split at hstep
      · rename_i mask hf
        cases hstep
        exact h.front (by rw [hf]; rfl) rfl (by rintro _ (hm | hm) <;> cases hm)
      · cases hstep
  | retireVop =>
      simp only [step] at hstep
      split at hstep
      · rename_i hf
        obtain rfl := Option.some.inj hstep
        refine ⟨core_retireVop h.toCore hf, fun m hm => ?_⟩
        have hc := afterRetireVop_counted s.runMask
        rcases hm with hm | hm
        · rw [show afterRetireVop s.runMask = .window m from hm] at hc
          cases hc
        · rw [show afterRetireVop s.runMask = .asleep m from hm] at hc
          cases hc
      · cases hstep
  | frontNext =>
      simp only [step] at hstep
      split at hstep
      · rename_i hf
        cases hstep
        refine ⟨h.toCore.quiet ⟨fun _ _ => rfl, fun _ => ⟨rfl, .rfl⟩, fun _ h => h, ?_, rfl⟩, ?_⟩
        · exact ⟨by rw [hf]; rfl, ⟨nofun, fun h => nomatch hf.symm.trans h⟩⟩
        · rintro _ (hm | hm) <;> cases hm
      · rename_i hf
        cases hstep
        exact ⟨core_cleanupVop h.toCore hf, by rintro _ (hm | hm) <;> cases hm⟩
      · cases hstep
  | feed i =>
      simp only [step] at hstep
      split at hstep
      · rename_i hi
        split at hstep
        · cases hstep
          exact inv_node h .refl rfl rfl rfl rfl (by rw [hi]; rfl) rfl (by rw [hi]; rfl)
        · cases hstep
          exact h
      · cases hstep
  | feedAbort i =>
      simp only [step] at hstep
      split at hstep
      · rename_i hi
        cases hstep
        exact inv_node h .refl rfl rfl rfl rfl (by rw [hi.1]; rfl) rfl (by rw [hi.1]; rfl)
      · cases hstep
  | retire i =>
      simp only [step] at hstep
      split at hstep
      · obtain rfl := Option.some.inj hstep
        exact inv_retire h ‹_›
      · cases hstep
  | next i =>
      simp only [step] at hstep
      split at hstep
      · rename_i hi
        cases hstep
        exact inv_node h ⟨fun _ _ => rfl, fun _ => ⟨rfl, .rfl⟩, fun _ h => h, ⟨rfl, .rfl⟩, rfl⟩ rfl rfl rfl
          rfl (by rw [hi]; rfl) rfl (by rw [hi]; rfl)
      · rename_i hi
        obtain rfl := Option.some.inj hstep
        have hfeed : ∀ j, IsParty j → (s.runMask + maskFeed).getLsbD j = s.runMask.getLsbD j :=
          fun j hj => getLsbD_addFeed (party_lt hj)
        split
        · refine ⟨h.toCore.quiet (quiet_setNode (i := i) (p := .clear) ⟨hfeed, fun _ => ⟨rfl, .rfl⟩,
            fun _ h => h, ⟨rfl, .rfl⟩, rfl⟩ (by rw [hi]; rfl) rfl), fun m _ => .inr (.inl ⟨i, ?_⟩)⟩
          rw [setNode_node, if_pos rfl]
          rfl
        · have hwait : (s.runMask + maskFeed).getLsbD 29 = s.runMask.getLsbD 29 :=
            getLsbD_addFeed (by decide)
          exact inv_node (i := i) (p := .running) h ⟨hfeed, fun _ => ⟨rfl, .rfl⟩, fun _ h => h,
            ⟨rfl, .rfl⟩, rfl⟩ rfl rfl rfl hwait (by rw [hi]; rfl) rfl (by rw [hi]; rfl)
      · rename_i hi
        obtain rfl := Option.some.inj hstep
        have hclear : ∀ j, IsParty j → (s.runMask &&& ~~~maskWait).getLsbD j = s.runMask.getLsbD j := by
          intro j hj
          have hj64 : j < 64 := Nat.lt_trans (party_lt hj) (by decide)
          rw [BitVec.getLsbD_and, BitVec.getLsbD_not, maskWait_eq, getLsbD_maskOf hj64,
            decide_eq_false (wait_ne hj), decide_eq_true hj64]
          simp
        refine ⟨h.toCore.quiet (quiet_setNode (i := i) (p := .wake) ⟨hclear, fun _ => ⟨rfl, .rfl⟩,
          fun _ h => h, ⟨rfl, .rfl⟩, rfl⟩ (by rw [hi]; rfl) rfl), fun m _ => .inr (.inl ⟨i, ?_⟩)⟩
        rw [setNode_node, if_pos rfl]
        rfl
      · rename_i hi
        cases hstep
        exact inv_wakeup (h.toCore.quiet (quiet_setNode .refl (by rw [hi]; rfl) rfl))
      · rename_i hi
        cases hstep
        refine inv_wakeup (h.toCore.quiet ⟨fun _ _ => rfl, fun j => ?_, fun j hj => ?_, ⟨rfl, .rfl⟩, rfl⟩)
        · rw [setNode_node]
          rcases eq_or_ne j i with rfl | hne
          · rw [if_pos rfl, hi]
            exact ⟨rfl, nofun, nofun⟩
          · rw [if_neg hne]
            exact ⟨rfl, .rfl⟩
        · rw [setNode_node]
          split
          · rfl
          · exact hj
      · rename_i hi
        cases hstep
        refine ⟨core_cleanup h.toCore hi, fun m hm => ?_⟩
        have hc := h.toCore.front_of_node hi
        rcases hm with hm | hm
        · rw [show s.front = .window m from hm] at hc
          cases hc
        · rw [show s.front = .asleep m from hm] at hc
          cases hc
      · cases hstep
      · cases hstep

/-! ## Every run -/

/-- What holds of an XOP at any time. -/
structure Retired (s : Head) : Prop where
  /-- the final cleanup runs at most once -/
  once : s.freed ≤ 1
  /-- and has run when everybody is gone -/
  all : s.front = .gone → (∀ i, s.node i = .gone) → s.freed = 1
  /-- only after everybody left, so that nobody uses the XOP after it -/
  left : s.freed = 1 → (s.front = .fifoWake ∨ s.front = .gone) ∧
    ∀ i, s.node i = .retWake ∨ s.node i = .gone
  /-- the assertion of `hammer2_xop_retire` -/
  assert : (s.front = .idle → s.runMask &&& maskVop ≠ 0#64) ∧
    ∀ i, s.node i = .running → s.runMask &&& maskOf i ≠ 0#64
  /-- a sleeping frontend gets back to its scan by the timeout -/
  timeout : ∀ mask, s.front = .asleep mask → ∃ t, step s .timeout = some t ∧ t.front = .read
  /-- before that, a wakeup is under way, WAIT is set for the feeds and the last node, or the
  wakeup was lost; if no node is left, none was left before the scan -/
  wake : ∀ mask, s.front = .asleep mask → s.lost = true ∨ (∃ i, (s.node i).waking = true) ∨
    s.runMask &&& maskWait ≠ 0#64 ∧
      ((∀ i, s.node i = .gone) → ∀ i < maxCluster, mask &&& maskOf i = 0#64)

theorem Core.freed_le (h : Core s) : s.freed ≤ 1 := by
  by_cases hl : Left s
  · rcases h.after hl with ⟨hf, -⟩ | ⟨hf, -⟩
    · exact hf.le
    · exact hf.le.trans (Nat.zero_le _)
  · exact (h.before hl).1.le.trans (Nat.zero_le _)

theorem Core.freed_left (h : Core s) (hf : s.freed = 1) : Left s ∧ ∀ k, ¬ AtCleanup s k := by
  by_cases hl : Left s
  · rcases h.after hl with ⟨-, hk⟩ | ⟨hz, -⟩
    · exact ⟨hl, hk⟩
    · cases hf.symm.trans hz
  · cases hf.symm.trans (h.before hl).1

theorem Core.left_of_gone (h : Core s) (hfront : s.front.counted = false)
    (hnode : ∀ i, (s.node i).counted = false) : Left s := by
  rintro j (hj | rfl)
  · exact (h.node j hj).trans (hnode j)
  · exact h.vop.trans hfront

theorem Inv.retired {s : Head} (h : Inv s) : Retired s where
  once := h.toCore.freed_le
  all hf hn := by
    have hl : Left s := h.toCore.left_of_gone (by rw [hf]; rfl) fun i => by rw [hn i]; rfl
    rcases h.after hl with ⟨hfreed, -⟩ | ⟨-, k, hk⟩
    · exact hfreed
    · have hat := (hk k).mpr rfl
      cases k with
      | none => cases hf.symm.trans hat
      | some i => cases (hn i).symm.trans hat
  left hf := by
    obtain ⟨hl, hk⟩ := h.toCore.freed_left hf
    constructor
    · have hc := (h.vop.symm.trans (hl vopBit (.inr rfl)))
      have hnot := hk none
      cases hs : s.front <;> rw [hs] at hc
      case fifoWake => exact .inl rfl
      case gone => exact .inr rfl
      case cleanup => exact absurd hs hnot
      all_goals cases hc
    · intro i
      rcases Nat.lt_or_ge i maxCluster with hi | hi
      · have hc := (h.node i hi).symm.trans (hl i (.inl hi))
        have hnot := hk (some i)
        cases hs : s.node i <;> rw [hs] at hc
        case retWake => exact .inl rfl
        case gone => exact .inr rfl
        case cleanup => exact absurd hs hnot
        all_goals cases hc
      · exact .inr (h.out i hi)
  assert := by
    constructor
    · intro hf
      rw [maskVop_eq, and_maskOf_ne_zero (by decide), h.vop, hf]
      rfl
    · intro i hi
      have hlt := h.toCore.lt (i := i) (by rw [hi]; exact nofun)
      rw [and_maskOf_ne_zero (Nat.lt_trans hlt (by decide)), h.node i hlt, hi]
      rfl
  timeout mask hf := ⟨{ s with front := .read }, by simp only [step, hf], rfl⟩
  wake mask hf := by
    refine (h.sleep mask (.inr hf)).imp id (Or.imp id fun ⟨hw, hm⟩ => ⟨?_, fun hn i hi => ?_⟩)
    · rw [maskWait_eq, and_maskOf_ne_zero (by decide)]
      exact hw
    · have hbit := hm (fun j hj => by rw [h.node j hj, hn j]; rfl) i hi
      by_contra hne
      rw [← ne_eq, and_maskOf_ne_zero (Nat.lt_trans hi (by decide)), hbit] at hne
      cases hne

/-- **An XOP is freed once, after everybody left it**, in every run on any set of nodes, and
the frontend is never stuck asleep. -/
theorem run_retires {queued : Nat → Bool} {as : List Event} {s : Head}
    (hrun : exec step (start queued) as = some s) : Retired s :=
  (exec_invariant' step_inv (inv_start queued) hrun).retired

/-- Two nodes feed a result each, the frontend sleeps in between, and the second node frees
the XOP. -/
def retireRun : List Event :=
  [.collect, .readMask, .verdict true false false false, .cmpset, .sleep, .feed 0, .next 0, .next 0,
    .next 0, .next 0, .readMask, .take 0, .retire 0, .feed 1, .next 1, .next 1,
    .verdict false false false false, .retireVop, .retire 1, .next 1]

theorem run_retires_two : ∃ s, exec step (start (fun i => i < 2)) retireRun = some s ∧ Retired s :=
  ⟨_, rfl, @run_retires (fun i => i < 2) retireRun _ rfl⟩

/-- The only node feeds its result and wakes the frontend before that is asleep. -/
def lostRun : List Event :=
  [.collect, .readMask, .verdict true false false false, .cmpset, .feed 0, .next 0, .next 0, .next 0,
    .next 0, .retire 0, .sleep]

/-- The frontend is asleep with a result to read, and nobody is left to wake it. -/
theorem wakeup_lost : ∃ s mask, exec step (start (fun i => i < 1)) lostRun = some s ∧
    s.front = .asleep mask ∧ s.ri 0 < s.wi 0 ∧ ∀ i < maxCluster, s.node i = .gone :=
  ⟨_, _, rfl, rfl, by decide, by decide⟩

end Hammer2.Xop.Retire
