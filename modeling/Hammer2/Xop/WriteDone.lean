/-
# `Hammer2.Xop.WriteDone` — the completion of a buffer write

`hammer2_strategy_write` starts an XOP and does not wait for it.  Every node copies the
buffer, writes its own copy, feeds the result, and then collects without blocking; the node
whose collect does not answer EINPROGRESS completes the buffer for everybody.

    Pc             where a node is in `hammer2_xop_strategy_write`
    fifo           what each node has fed and nobody has collected yet
    item           what has been collected: no node feeds a chain here, so an element of the
                   cluster is still unknown, or has ended with an error
    run_completes  when the attached masters make a quorum, and no master's own result is one
                   of the codes `hammer2_xop_collect` answers with, the buffer is completed
                   once

A master of the cluster that is not attached is counted among those still in progress, and
is never heard of: with one master of three attached nobody completes the buffer
(`never_completed`).  With too few masters in the cluster at all the write is reported
successful without a quorum.
-/
import Mathlib.Logic.Function.Basic
import Mathlib.Order.Basic
import Mathlib.Order.Nat
import Mathlib.Algebra.Order.BigOperators.Group.Finset
import Hammer2.Lib.Machine
import Hammer2.Xop.Quorum

namespace Hammer2.Xop.WriteDone

open Machine

/-! ## The cluster -/

/-- What the write reads of the cluster of the inode; `attached i` says that
`cluster.array[i].chain` is there. -/
structure Config where
  pfsNmasters : Nat
  nchains : Nat
  type : Nat → PfsType
  attached : Nat → Bool

/-- `hammer2_xop_start` queues a modifying XOP to this node. -/
def Config.queued (cfg : Config) (i : Nat) : Bool :=
  decide (i < cfg.nchains) && cfg.attached i &&
    !(decide (2 ≤ cfg.nchains) && cfg.type i != .master && cfg.type i != .supRoot)

/-- The masters the write is queued to. -/
def Config.attachedMasters (cfg : Config) : Nat :=
  (List.range cfg.nchains).countP fun i => (cfg.type i).isMaster && cfg.attached i

/-! ## Where everybody is -/

inductive Pc
  /-- the worker thread looks whether the XOP is still active -/
  | start
  /-- `xop->finished`, before the lock -/
  | enter
  | lockSh
  | sh
  /-- `bcopy` of the buffer, with the lock shared -/
  | copy
  | write
  | feed (error : Nat)
  /-- `xop->finished` again, before the lock -/
  | reenter
  | lockEx
  | ex
  /-- `hammer2_xop_collect` is at element `j` -/
  | scan (j : Nat)
  | finish (error : Nat)
  | unlock (error : Nat)
  | done (error : Nat)
  | retireVop
  | transDone
  | gone
deriving DecidableEq

def Pc.holdsSh : Pc → Bool
  | .sh | .copy => true
  | _ => false

def Pc.holdsEx : Pc → Bool
  | .ex | .scan _ | .finish _ | .unlock _ => true
  | _ => false

/-- The XOP.  `result` is what the write of each node reported; `biodone`, `vopRetired` and
`transDone` count the completions, and `success` is what the completion reported. -/
structure Head where
  node : Nat → Pc
  fifo : Nat → List Nat
  item : Nat → ClusterItem
  result : Nat → Option Nat
  finished : Bool
  biodone : Nat
  success : Bool
  vopRetired : Nat
  transDone : Nat

def Head.setNode (s : Head) (i : Nat) (p : Pc) : Head :=
  { s with node := Function.update s.node i p }

/-- `hammer2_xop_active` -/
def Head.active (s : Head) : Bool := s.vopRetired == 0

/-- Nothing was heard of the node. -/
def unknown : ClusterItem := ⟨none, 0, false⟩

/-- The node has fed its result. -/
def ended (error : Nat) : ClusterItem := ⟨none, error, true⟩

def start (cfg : Config) : Head where
  node i := if cfg.queued i then .start else .gone
  fifo _ := []
  item _ := unknown
  result _ := none
  finished := false
  biodone := 0
  success := false
  vopRetired := 0
  transDone := 0

/-! ## The steps -/

/-- The cluster as `hammer2_cluster_check` sees it. -/
def nodes (cfg : Config) (item : Nat → ClusterItem) : List Node :=
  (List.range cfg.nchains).map fun i => ⟨cfg.type i, item i⟩

/-- `hammer2_xop_collect` after its scan: no element has a key. -/
def verdict (cfg : Config) (item : Nat → ClusterItem) : Nat :=
  let error := (clusterCheck cfg.pfsNmasters (nodes cfg item) keyMax true).1
  if error = errorEsrch then errorEnoent else error

/-- What the completion reports as success. -/
def reportsSuccess (error : Nat) : Bool := error == errorEnoent || error == 0

/-- `next i` is the next step of node `i`; `wrote i error` is its `hammer2_write_file_core`. -/
inductive Event
  | next (i : Nat)
  | wrote (i : Nat) (error : Nat)

def Head.freeOfEx (cfg : Config) (s : Head) : Prop :=
  ∀ j < cfg.nchains, (s.node j).holdsEx = false

def Head.freeOfSh (cfg : Config) (s : Head) : Prop :=
  ∀ j < cfg.nchains, (s.node j).holdsSh = false

instance (cfg : Config) (s : Head) : Decidable (s.freeOfEx cfg) :=
  inferInstanceAs (Decidable (∀ j < cfg.nchains, _))

instance (cfg : Config) (s : Head) : Decidable (s.freeOfSh cfg) :=
  inferInstanceAs (Decidable (∀ j < cfg.nchains, _))

/-- One turn of the scan loop of `hammer2_xop_collect` at element `j`. -/
def scanStep (cfg : Config) (s : Head) (i j : Nat) : Head :=
  if j < cfg.nchains then
    match s.fifo j with
    | error :: rest =>
        -- Loop on the same index.
        { s with
          fifo := Function.update s.fifo j rest
          item := Function.update s.item j (ended error) }
    | [] =>
        { s.setNode i (.scan (j + 1)) with
          item := Function.update s.item j { s.item j with chain := none } }
  else if verdict cfg s.item = errorEinprogress then s.setNode i .gone
  else s.setNode i (.finish (verdict cfg s.item))

def step (cfg : Config) (s : Head) : Event → Option Head
  | .wrote i error =>
      if s.node i = .write then
        some { s.setNode i (.feed error) with result := Function.update s.result i (some error) }
      else
        none
  | .next i =>
      match s.node i with
      | .start => some (s.setNode i (if s.active then .enter else .gone))
      | .enter => some (s.setNode i (if s.finished then .gone else .lockSh))
      | .lockSh => if s.freeOfEx cfg then some (s.setNode i .sh) else none
      | .sh => some (s.setNode i (if s.finished then .gone else .copy))
      | .copy => some (s.setNode i .write)
      | .write => none
      | .feed error =>
          if s.active then
            some { s.setNode i .reenter with fifo := Function.update s.fifo i (s.fifo i ++ [error]) }
          else
            some (s.setNode i .reenter)
      | .reenter => some (s.setNode i (if s.finished then .gone else .lockEx))
      | .lockEx =>
          if s.freeOfEx cfg ∧ s.freeOfSh cfg then some (s.setNode i .ex) else none
      | .ex => some (s.setNode i (if s.finished then .gone else .scan 0))
      | .scan j => some (scanStep cfg s i j)
      | .finish error => some { s.setNode i (.unlock error) with finished := true }
      | .unlock error => some (s.setNode i (.done error))
      | .done error => some { s.setNode i .retireVop with
          biodone := s.biodone + 1
          success := reportsSuccess error }
      | .retireVop => some { s.setNode i .transDone with vopRetired := s.vopRetired + 1 }
      | .transDone => some { s.setNode i .gone with transDone := s.transDone + 1 }
      | .gone => none

/-- Masters that have stored the data. -/
def Head.stored (cfg : Config) (s : Head) : Nat :=
  (List.range cfg.nchains).countP fun i => (cfg.type i).isMaster && s.result i == some 0

/-! ## The verdict -/

/-- The error of a node is none of the answers of `hammer2_xop_collect` itself. -/
structure Plain (error : Nat) : Prop where
  noent : error ≠ errorEnoent
  srch : error ≠ errorEsrch
  progress : error ≠ errorEinprogress

instance (error : Nat) : Decidable (Plain error) :=
  decidable_of_iff (error ≠ errorEnoent ∧ error ≠ errorEsrch ∧ error ≠ errorEinprogress)
    ⟨fun h => ⟨h.1, h.2.1, h.2.2⟩, fun h => ⟨h.noent, h.srch, h.progress⟩⟩

theorem plain_zero : Plain 0 := ⟨by decide, by decide, by decide⟩

/-- What the scan of a running write leaves: no chains, and plain errors of the masters. -/
structure Collected (cfg : Config) (item : Nat → ClusterItem) : Prop where
  chain : ∀ i, (item i).chain = none
  plain : ∀ i, (cfg.type i).isMaster = true → Plain (item i).error

section Verdict

variable {cfg : Config} {item : Nat → ClusterItem}

theorem mem_nodes {n : Node} : n ∈ nodes cfg item ↔ ∃ i < cfg.nchains, ⟨cfg.type i, item i⟩ = n := by
  simp only [nodes, List.mem_map, List.mem_range]

theorem endedCount_nodes (h : Collected cfg item) : endedCount (nodes cfg item) =
    (List.range cfg.nchains).countP fun i => (cfg.type i).isMaster && (item i).null := by
  rw [endedCount, nodes, List.countP_map]
  refine List.countP_congr fun i _ => ?_
  simp only [Function.comp_apply, Node.ended, h.chain i, Option.isNone_none, Bool.and_true]

theorem pendingCount_nodes (h : Collected cfg item) : pendingCount (nodes cfg item) =
    (List.range cfg.nchains).countP fun i => (cfg.type i).isMaster && !(item i).null := by
  rw [pendingCount, nodes, List.countP_map]
  refine List.countP_congr fun i _ => ?_
  simp only [Function.comp_apply, Node.pending, h.chain i, Option.isNone_none, Bool.and_true]

/-- Every attached master has ended or is in progress. -/
theorem attached_le (h : Collected cfg item) :
    cfg.attachedMasters ≤ endedCount (nodes cfg item) + pendingCount (nodes cfg item) := by
  rw [endedCount_nodes h, pendingCount_nodes h, Config.attachedMasters]
  induction List.range cfg.nchains with
  | nil => exact Nat.le_refl _
  | cons i l ih =>
      simp only [List.countP_cons]
      cases (cfg.type i).isMaster <;> cases (item i).null <;> cases cfg.attached i <;> simp <;> omega

/-- The error of the whole cluster is plain. -/
theorem plain_error (h : Collected cfg item) :
    Plain (firstError (nodes cfg item) (pass1 (nodes cfg item)).2) := by
  have hall : ∀ n ∈ nodes cfg item, n.type.isMaster = true → Plain n.item.error := by
    intro n hn hm
    obtain ⟨i, _, rfl⟩ := mem_nodes.mp hn
    exact h.plain i hm
  exact firstError_of_masters (pass1_of_masters plain_zero hall) hall

/-- What the collect answers once a quorum has ended. -/
theorem verdict_ended (h : Collected cfg item)
    (he : nquorumOf cfg.pfsNmasters ≤ endedCount (nodes cfg item)) :
    verdict cfg item =
      if firstError (nodes cfg item) (pass1 (nodes cfg item)).2 = 0 then errorEnoent
      else firstError (nodes cfg item) (pass1 (nodes cfg item)).2 := by
  unfold verdict
  rw [clusterCheck_checkNull, if_pos he]
  refine if_neg ?_
  split
  case isTrue => decide
  case isFalse => exact (plain_error h).srch

/-- With a quorum of masters attached the collect waits exactly until a quorum has ended. -/
theorem verdict_inProgress (h : Collected cfg item)
    (hq : nquorumOf cfg.pfsNmasters ≤ cfg.attachedMasters) :
    verdict cfg item = errorEinprogress ↔
      endedCount (nodes cfg item) < nquorumOf cfg.pfsNmasters := by
  rcases Nat.lt_or_ge (endedCount (nodes cfg item)) (nquorumOf cfg.pfsNmasters) with he | he
  · refine iff_of_true ?_ he
    unfold verdict
    rw [clusterCheck_checkNull, if_neg (Nat.not_le.mpr he), if_pos (Nat.le_trans hq (attached_le h))]
    rfl
  · refine iff_of_false ?_ (Nat.not_lt.mpr he)
    rw [verdict_ended h he]
    split
    case isTrue => decide
    case isFalse => exact (plain_error h).progress

/-- Success means that a quorum has ended without an error. -/
theorem verdict_success (h : Collected cfg item)
    (hq : nquorumOf cfg.pfsNmasters ≤ cfg.attachedMasters)
    (hs : reportsSuccess (verdict cfg item) = true) :
    nquorumOf cfg.pfsNmasters ≤
      (List.range cfg.nchains).countP fun i =>
        (cfg.type i).isMaster && ((item i).null && (item i).error == 0) := by
  rcases Nat.lt_or_ge (endedCount (nodes cfg item)) (nquorumOf cfg.pfsNmasters) with he | he
  · rw [(verdict_inProgress h hq).mpr he] at hs
    cases hs
  rw [verdict_ended h he] at hs
  split at hs
  case isFalse hne =>
    -- The error is neither 0 nor ENOENT, so it is no success.
    have hnoent := (plain_error h).noent
    simp [reportsSuccess, hne, hnoent] at hs
  case isTrue hz =>
    obtain ⟨_, hall⟩ := firstError_zero hz
    rw [endedCount_nodes h] at he
    refine Nat.le_trans he (List.countP_mono_left fun i hi hcount => ?_)
    simp only [Bool.and_eq_true] at hcount ⊢
    refine ⟨hcount.1, hcount.2, beq_iff_eq.mpr ?_⟩
    refine hall ⟨cfg.type i, item i⟩ (mem_nodes.mpr ⟨i, List.mem_range.mp hi, rfl⟩) ?_
    simp [Node.ended, h.chain i, hcount]

end Verdict

/-! ## What one step does -/

/-- The steps of a node that change nothing but where it is. -/
inductive Goes (cfg : Config) (s : Head) : Pc → Pc → Prop
  | start : s.active = true → Goes cfg s .start .enter
  | inactive : s.active = false → Goes cfg s .start .gone
  | enter : s.finished = false → Goes cfg s .enter .lockSh
  | enterDone : s.finished = true → Goes cfg s .enter .gone
  | lockSh : s.freeOfEx cfg → Goes cfg s .lockSh .sh
  | sh : s.finished = false → Goes cfg s .sh .copy
  | shDone : s.finished = true → Goes cfg s .sh .gone
  | copy : Goes cfg s .copy .write
  | feedInactive (error : Nat) : s.active = false → Goes cfg s (.feed error) .reenter
  | reenter : s.finished = false → Goes cfg s .reenter .lockEx
  | reenterDone : s.finished = true → Goes cfg s .reenter .gone
  | lockEx : s.freeOfEx cfg → s.freeOfSh cfg → Goes cfg s .lockEx .ex
  | ex : s.finished = false → Goes cfg s .ex (.scan 0)
  | exDone : s.finished = true → Goes cfg s .ex .gone
  | turn (j : Nat) : j < cfg.nchains → s.fifo j = [] → Goes cfg s (.scan j) (.scan (j + 1))
  | wait (j : Nat) : cfg.nchains ≤ j → verdict cfg s.item = errorEinprogress →
      Goes cfg s (.scan j) .gone
  | answer (j : Nat) : cfg.nchains ≤ j → verdict cfg s.item ≠ errorEinprogress →
      Goes cfg s (.scan j) (.finish (verdict cfg s.item))
  | unlock (error : Nat) : Goes cfg s (.unlock error) (.done error)

/-- A step of some node. -/
inductive Effect (cfg : Config) (s : Head) : Event → Head → Prop
  | go {i : Nat} {p : Pc} : Goes cfg s (s.node i) p → Effect cfg s (.next i) (s.setNode i p)
  | wrote (i error : Nat) : s.node i = .write → Effect cfg s (.wrote i error)
      { s.setNode i (.feed error) with result := Function.update s.result i (some error) }
  | feed (i error : Nat) : s.node i = .feed error → s.active = true → Effect cfg s (.next i)
      { s.setNode i .reenter with fifo := Function.update s.fifo i (s.fifo i ++ [error]) }
  | take (i j error : Nat) (rest : List Nat) : s.node i = .scan j → j < cfg.nchains →
      s.fifo j = error :: rest → Effect cfg s (.next i)
      { s with
        fifo := Function.update s.fifo j rest
        item := Function.update s.item j (ended error) }
  | finish (i error : Nat) : s.node i = .finish error → Effect cfg s (.next i)
      { s.setNode i (.unlock error) with finished := true }
  | biodone (i error : Nat) : s.node i = .done error → Effect cfg s (.next i)
      { s.setNode i .retireVop with
        biodone := s.biodone + 1
        success := reportsSuccess error }
  | retireVop (i : Nat) : s.node i = .retireVop → Effect cfg s (.next i)
      { s.setNode i .transDone with vopRetired := s.vopRetired + 1 }
  | transDone (i : Nat) : s.node i = .transDone → Effect cfg s (.next i)
      { s.setNode i .gone with transDone := s.transDone + 1 }

section Step

variable {cfg : Config} {s t : Head}

theorem scanStep_effect {i j : Nat} (hchain : ∀ k, (s.item k).chain = none)
    (hi : s.node i = .scan j) : Effect cfg s (.next i) (scanStep cfg s i j) := by
  unfold scanStep
  split
  case isTrue hj =>
    split
    next error rest hf => exact .take i j error rest hi hj hf
    next hf =>
      have hitem : Function.update s.item j { s.item j with chain := none } = s.item := by
        rw [← hchain j]
        exact Function.update_eq_self j s.item
      rw [hitem]
      exact .go (by rw [hi]; exact .turn j hj hf)
  case isFalse hj =>
    have hj := Nat.not_lt.mp hj
    split
    case isTrue hv => exact .go (by rw [hi]; exact .wait j hj hv)
    case isFalse hv => exact .go (by rw [hi]; exact .answer j hj hv)

theorem step_effect {a : Event} (hchain : ∀ k, (s.item k).chain = none)
    (hstep : step cfg s a = some t) : Effect cfg s a t := by
  cases a with
  | wrote i error =>
      simp only [step, Option.ite_none_right_eq_some, Option.some.injEq] at hstep
      obtain ⟨hi, rfl⟩ := hstep
      exact .wrote i error hi
  | next i =>
      simp only [step] at hstep
      cases hi : s.node i with
      | start =>
          rw [hi] at hstep
          obtain rfl := Option.some.inj hstep
          refine .go ?_
          rw [hi]
          cases hact : s.active with
          | true => exact .start hact
          | false => exact .inactive hact
      | enter =>
          rw [hi] at hstep
          obtain rfl := Option.some.inj hstep
          refine .go ?_
          rw [hi]
          cases hfin : s.finished with
          | true => exact .enterDone hfin
          | false => exact .enter hfin
      | lockSh =>
          simp only [hi, Option.ite_none_right_eq_some, Option.some.injEq] at hstep
          obtain ⟨hfree, rfl⟩ := hstep
          exact .go (by rw [hi]; exact .lockSh hfree)
      | sh =>
          rw [hi] at hstep
          obtain rfl := Option.some.inj hstep
          refine .go ?_
          rw [hi]
          cases hfin : s.finished with
          | true => exact .shDone hfin
          | false => exact .sh hfin
      | copy =>
          rw [hi] at hstep
          obtain rfl := Option.some.inj hstep
          exact .go (by rw [hi]; exact .copy)
      | write =>
          rw [hi] at hstep
          cases hstep
      | feed error =>
          rw [hi] at hstep
          dsimp only at hstep
          split at hstep
          case isTrue hact =>
            obtain rfl := Option.some.inj hstep
            exact .feed i error hi hact
          case isFalse hact =>
            obtain rfl := Option.some.inj hstep
            exact .go (by rw [hi]; exact .feedInactive error (Bool.not_eq_true _ ▸ hact))
      | reenter =>
          rw [hi] at hstep
          obtain rfl := Option.some.inj hstep
          refine .go ?_
          rw [hi]
          cases hfin : s.finished with
          | true => exact .reenterDone hfin
          | false => exact .reenter hfin
      | lockEx =>
          simp only [hi, Option.ite_none_right_eq_some, Option.some.injEq] at hstep
          obtain ⟨hfree, rfl⟩ := hstep
          exact .go (by rw [hi]; exact .lockEx hfree.1 hfree.2)
      | ex =>
          rw [hi] at hstep
          obtain rfl := Option.some.inj hstep
          refine .go ?_
          rw [hi]
          cases hfin : s.finished with
          | true => exact .exDone hfin
          | false => exact .ex hfin
      | scan j =>
          rw [hi] at hstep
          obtain rfl := Option.some.inj hstep
          exact scanStep_effect hchain hi
      | finish error =>
          rw [hi] at hstep
          obtain rfl := Option.some.inj hstep
          exact .finish i error hi
      | unlock error =>
          rw [hi] at hstep
          obtain rfl := Option.some.inj hstep
          exact .go (by rw [hi]; exact .unlock error)
      | done error =>
          rw [hi] at hstep
          obtain rfl := Option.some.inj hstep
          exact .biodone i error hi
      | retireVop =>
          rw [hi] at hstep
          obtain rfl := Option.some.inj hstep
          exact .retireVop i hi
      | transDone =>
          rw [hi] at hstep
          obtain rfl := Option.some.inj hstep
          exact .transDone i hi
      | gone =>
          rw [hi] at hstep
          cases hstep

end Step

/-! ## The lock -/

/-- The node relies on the buffer not being completed. -/
def Pc.working : Pc → Bool
  | .copy | .scan _ | .finish _ => true
  | _ => false

structure Locked (cfg : Config) (s : Head) : Prop where
  out : ∀ i, cfg.queued i = false → s.node i = .gone
  alone : ∀ i j, (s.node i).holdsEx = true →
    (s.node j).holdsEx = true ∨ (s.node j).holdsSh = true → j = i
  working : ∀ i, (s.node i).working = true → s.finished = false

section Lock

variable {cfg : Config} {s t : Head} {i : Nat}

theorem queued_lt (h : cfg.queued i = true) : i < cfg.nchains := by
  simp only [Config.queued, Bool.and_eq_true, decide_eq_true_eq] at h
  exact h.1.1

theorem Locked.queued (h : Locked cfg s) (hi : s.node i ≠ .gone) : cfg.queued i = true := by
  cases hq : cfg.queued i with
  | true => rfl
  | false => exact absurd (h.out i hq) hi

theorem Locked.gone (h : Locked cfg s) (hi : cfg.nchains ≤ i) : s.node i = .gone := by
  refine h.out i ?_
  rw [Config.queued, decide_eq_false (Nat.not_lt.mpr hi), Bool.false_and, Bool.false_and]

theorem Locked.freeOfEx (h : Locked cfg s) (hfree : s.freeOfEx cfg) (j : Nat) :
    (s.node j).holdsEx = false := by
  rcases eq_or_ne (s.node j) .gone with hj | hj
  · rw [hj]
    rfl
  · exact hfree j (queued_lt (h.queued hj))

theorem Locked.freeOfSh (h : Locked cfg s) (hfree : s.freeOfSh cfg) (j : Nat) :
    (s.node j).holdsSh = false := by
  rcases eq_or_ne (s.node j) .gone with hj | hj
  · rw [hj]
    rfl
  · exact hfree j (queued_lt (h.queued hj))

/-- A step of node `i` that takes no lock but a free one. -/
theorem Locked.move (h : Locked cfg s) {p : Pc} (hnode : t.node = Function.update s.node i p)
    (hfin : t.finished = s.finished) (hi : s.node i ≠ .gone)
    (hex : p.holdsEx = true → (s.node i).holdsEx = true ∨
      ∀ j, (s.node j).holdsEx = false ∧ (s.node j).holdsSh = false)
    (hsh : p.holdsSh = true → (s.node i).holdsSh = true ∨ ∀ j, (s.node j).holdsEx = false)
    (hworking : p.working = true → s.finished = false) : Locked cfg t := by
  constructor
  case out =>
    intro j hj
    rcases eq_or_ne j i with rfl | hne
    · exact absurd (h.out j hj) hi
    · rw [hnode, Function.update_of_ne hne]
      exact h.out j hj
  case alone =>
    intro j k hj hk
    rw [hnode] at hj hk
    rcases eq_or_ne j i with rfl | hji
    · rcases eq_or_ne k j with rfl | hkj
      · rfl
      · rw [Function.update_self] at hj
        rw [Function.update_of_ne hkj] at hk
        rcases hex hj with hold | hfree
        · exact h.alone j k hold hk
        · rw [(hfree k).1, (hfree k).2] at hk
          rcases hk with hk | hk <;> cases hk
    · rw [Function.update_of_ne hji] at hj
      rcases eq_or_ne k i with rfl | hki
      · rw [Function.update_self] at hk
        rcases hk with hk | hk
        · rcases hex hk with hold | hfree
          · exact h.alone j k hj (.inl hold)
          · rw [(hfree j).1] at hj
            cases hj
        · rcases hsh hk with hold | hfree
          · exact h.alone j k hj (.inr hold)
          · rw [hfree j] at hj
            cases hj
      · rw [Function.update_of_ne hki] at hk
        exact h.alone j k hj hk
  case working =>
    intro j hj
    rw [hfin]
    rw [hnode] at hj
    rcases eq_or_ne j i with rfl | hne
    · rw [Function.update_self] at hj
      exact hworking hj
    · rw [Function.update_of_ne hne] at hj
      exact h.working j hj

theorem Locked.goes (h : Locked cfg s) {p : Pc} (hgo : Goes cfg s (s.node i) p) :
    Locked cfg (s.setNode i p) := by
  have hfree : ∀ {q : Pc}, q.holdsEx = false → q.holdsSh = false → s.node i ≠ .gone →
      (q.working = true → s.finished = false) → Locked cfg (s.setNode i q) := by
    intro q hex hsh hi hw
    refine h.move rfl rfl hi (fun hq => ?_) (fun hq => ?_) hw
    · rw [hex] at hq
      cases hq
    · rw [hsh] at hq
      cases hq
  generalize hi : s.node i = q at hgo
  have hne : ∀ {q'}, s.node i = q' → q' ≠ .gone → s.node i ≠ .gone := fun h h' => h ▸ h'
  cases hgo with
  | start | inactive | enter | enterDone | shDone | copy | feedInactive | reenter | reenterDone
  | exDone | wait | unlock =>
      exact hfree rfl rfl (hne hi nofun) nofun
  | lockSh hf =>
      exact h.move rfl rfl (hne hi nofun) nofun (fun _ => .inr (h.freeOfEx hf)) nofun
  | sh hfin =>
      exact h.move rfl rfl (hne hi nofun) nofun (fun _ => .inl (by rw [hi]; rfl)) fun _ => hfin
  | lockEx hf hs =>
      exact h.move rfl rfl (hne hi nofun)
        (fun _ => .inr fun j => ⟨h.freeOfEx hf j, h.freeOfSh hs j⟩) nofun nofun
  | ex hfin =>
      exact h.move rfl rfl (hne hi nofun) (fun _ => .inl (by rw [hi]; rfl)) nofun fun _ => hfin
  | turn | answer =>
      exact h.move rfl rfl (hne hi nofun) (fun _ => .inl (by rw [hi]; rfl)) nofun
        fun _ => h.working i (by rw [hi]; rfl)

theorem Locked.effect (h : Locked cfg s) {a : Event} (heff : Effect cfg s a t) : Locked cfg t := by
  cases heff with
  | go hgo => exact h.goes hgo
  | wrote i error hi => exact h.move rfl rfl (by rw [hi]; nofun) nofun nofun nofun
  | feed i error hi => exact h.move rfl rfl (by rw [hi]; nofun) nofun nofun nofun
  | take => exact ⟨h.out, h.alone, h.working⟩
  | biodone i error hi => exact h.move rfl rfl (by rw [hi]; nofun) nofun nofun nofun
  | retireVop i hi => exact h.move rfl rfl (by rw [hi]; nofun) nofun nofun nofun
  | transDone i hi => exact h.move rfl rfl (by rw [hi]; nofun) nofun nofun nofun
  | finish i error hi =>
      have hmove : Locked cfg (s.setNode i (.unlock error)) :=
        h.move rfl rfl (by rw [hi]; nofun) (fun _ => .inl (by rw [hi]; rfl)) nofun nofun
      refine ⟨hmove.out, hmove.alone, fun j hj => ?_⟩
      -- Whoever works holds the lock, which node `i` has to itself.
      have hself : ∀ q : Pc, q.working = true → q.holdsEx = true ∨ q.holdsSh = true := by
        intro q hq
        cases q <;> first | exact .inl rfl | exact .inr rfl | cases hq
      have hex : ((s.setNode i (.unlock error)).node i).holdsEx = true := by
        simp [Head.setNode, Pc.holdsEx]
      obtain rfl := hmove.alone i j hex (hself _ hj)
      simp [Head.setNode, Pc.working] at hj

end Lock

/-! ## The counts -/

/-- The node has set `finished` and completes the buffer. -/
def Pc.completing : Pc → Bool
  | .unlock _ | .done _ | .retireVop | .transDone => true
  | _ => false

/-- Completions, retirements of the VOP side and ends of the transaction. -/
def Head.counts (s : Head) : Nat × Nat × Nat := (s.biodone, s.vopRetired, s.transDone)

/-- What a completing node has done so far. -/
def Pc.counts : Pc → Nat × Nat × Nat
  | .retireVop => (1, 0, 0)
  | .transDone => (1, 1, 0)
  | _ => (0, 0, 0)

structure Counted (s : Head) : Prop where
  before : s.finished = false → s.counts = (0, 0, 0) ∧ ∀ i, (s.node i).completing = false
  after : s.finished = true →
    (∃ k, (s.node k).completing = true ∧ (∀ j, (s.node j).completing = true → j = k) ∧
      s.counts = (s.node k).counts) ∨
    s.counts = (1, 1, 1) ∧ ∀ j, (s.node j).completing = false

section Count

variable {cfg : Config} {s t : Head} {i : Nat}

/-- Only a finished XOP is inactive. -/
theorem Counted.finished (h : Counted s) (hact : s.active = false) : s.finished = true := by
  cases hfin : s.finished with
  | true => rfl
  | false =>
      have hvop : s.vopRetired = 0 := congrArg (fun c => c.2.1) (h.before hfin).1
      rw [Head.active, hvop] at hact
      cases hact

theorem Counted.move (h : Counted s) {p : Pc} (hnode : t.node = Function.update s.node i p)
    (hfin : t.finished = s.finished) (hcounts : t.counts = s.counts)
    (hp : p.completing = (s.node i).completing) (hpc : p.counts = (s.node i).counts) :
    Counted t := by
  have hcompleting : ∀ j, (t.node j).completing = (s.node j).completing := by
    intro j
    rw [hnode]
    rcases eq_or_ne j i with rfl | hne
    · rw [Function.update_self, hp]
    · rw [Function.update_of_ne hne]
  constructor
  case before =>
    intro hf
    rw [hfin] at hf
    obtain ⟨hc, hall⟩ := h.before hf
    exact ⟨hcounts.trans hc, fun j => (hcompleting j).trans (hall j)⟩
  case after =>
    intro hf
    rw [hfin] at hf
    rcases h.after hf with ⟨k, hk, huniq, hc⟩ | ⟨hc, hall⟩
    · refine .inl ⟨k, (hcompleting k).trans hk, fun j hj => huniq j ?_, ?_⟩
      · rw [← hcompleting j]
        exact hj
      · rw [hcounts, hc, hnode]
        rcases eq_or_ne k i with rfl | hne
        · rw [Function.update_self, hpc]
        · rw [Function.update_of_ne hne]
    · exact .inr ⟨hcounts.trans hc, fun j => (hcompleting j).trans (hall j)⟩

/-- A node that completes the buffer is the only one. -/
theorem Counted.completer (h : Counted s) (hi : (s.node i).completing = true) :
    s.finished = true ∧ (∀ j, (s.node j).completing = true → j = i) ∧
      s.counts = (s.node i).counts := by
  cases hfin : s.finished with
  | false =>
      rw [(h.before hfin).2 i] at hi
      cases hi
  | true =>
      rcases h.after hfin with ⟨k, hk, huniq, hc⟩ | ⟨_, hall⟩
      · obtain rfl := huniq i hi
        exact ⟨rfl, huniq, hc⟩
      · rw [hall i] at hi
        cases hi

/-- A completing node goes on. -/
theorem Counted.next (h : Counted s) {p : Pc} (hi : (s.node i).completing = true)
    (hnode : t.node = Function.update s.node i p) (hfin : t.finished = s.finished)
    (hp : p.completing = true ∧ t.counts = p.counts ∨
      p.completing = false ∧ t.counts = (1, 1, 1)) : Counted t := by
  obtain ⟨hf, huniq, _⟩ := h.completer hi
  have hother : ∀ j, j ≠ i → (t.node j).completing = false := by
    intro j hne
    rw [hnode, Function.update_of_ne hne]
    cases hj : (s.node j).completing with
    | false => rfl
    | true => exact absurd (huniq j hj) hne
  constructor
  case before =>
    intro ht
    rw [hfin, hf] at ht
    cases ht
  case after =>
    intro _
    have hself : t.node i = p := by rw [hnode, Function.update_self]
    rcases hp with ⟨hp, hc⟩ | ⟨hp, hc⟩
    · refine .inl ⟨i, by rw [hself, hp], fun j hj => ?_, by rw [hself, hc]⟩
      rcases eq_or_ne j i with rfl | hne
      · rfl
      · rw [hother j hne] at hj
        cases hj
    · refine .inr ⟨hc, fun j => ?_⟩
      rcases eq_or_ne j i with rfl | hne
      · rw [hself, hp]
      · exact hother j hne

theorem Counted.effect (h : Counted s) (hlocked : Locked cfg s) {a : Event} (heff : Effect cfg s a t) :
    Counted t := by
  cases heff with
  | go hgo =>
      generalize hi : s.node _ = q at hgo
      refine h.move rfl rfl rfl ?_ ?_ <;> rw [hi] <;> cases hgo <;> rfl
  | wrote i error hi | feed i error hi =>
      exact h.move rfl rfl rfl (by rw [hi]; rfl) (by rw [hi]; rfl)
  | take => exact ⟨h.before, h.after⟩
  | finish i error hi =>
      obtain ⟨hc, hall⟩ := h.before (hlocked.working i (by rw [hi]; rfl))
      refine ⟨nofun, fun _ => .inl ⟨i, ?_, fun j hj => ?_, ?_⟩⟩
      · simp [Head.setNode, Pc.completing]
      · rcases eq_or_ne j i with rfl | hne
        · rfl
        · have hj' : (s.node j).completing = true := by
            simpa only [Head.setNode, Function.update_of_ne hne] using hj
          rw [hall j] at hj'
          cases hj'
      · simpa [Head.counts, Head.setNode, Pc.counts] using hc
  | biodone i error hi =>
      have hc := (h.completer (i := i) (by rw [hi]; rfl)).2.2
      refine h.next (i := i) (by rw [hi]; rfl) rfl rfl (.inl ⟨rfl, ?_⟩)
      rw [hi] at hc
      simpa [Head.counts, Head.setNode, Pc.counts] using hc
  | retireVop i hi =>
      have hc := (h.completer (i := i) (by rw [hi]; rfl)).2.2
      refine h.next (i := i) (by rw [hi]; rfl) rfl rfl (.inl ⟨rfl, ?_⟩)
      rw [hi] at hc
      simpa [Head.counts, Head.setNode, Pc.counts] using hc
  | transDone i hi =>
      have hc := (h.completer (i := i) (by rw [hi]; rfl)).2.2
      refine h.next (i := i) (by rw [hi]; rfl) rfl rfl (.inr ⟨rfl, ?_⟩)
      rw [hi] at hc
      simpa [Head.counts, Head.setNode, Pc.counts] using hc

end Count

/-! ## What was fed and collected -/

/-- Nothing of the node has reached the collector. -/
def Unfed (s : Head) (i : Nat) : Prop := s.fifo i = [] ∧ s.item i = unknown

def Fed (s : Head) (i error : Nat) : Prop := s.fifo i = [error] ∧ s.item i = unknown

def Taken (s : Head) (i error : Nat) : Prop := s.fifo i = [] ∧ s.item i = ended error

def Pc.unwritten : Pc → Bool
  | .start | .enter | .lockSh | .sh | .copy | .write => true
  | _ => false

/-- The node has still to feed its result. -/
def Pc.unfed : Pc → Bool
  | .feed _ => true
  | p => p.unwritten

/-- The node has been through the collect, as far as its own element. -/
def Pc.drained (i : Nat) : Pc → Bool
  | .scan j => decide (i < j)
  | .finish _ | .gone => true
  | _ => false

structure Data (cfg : Config) (s : Head) : Prop where
  held : ∀ i, Unfed s i ∨ ∃ error, s.result i = some error ∧ (Fed s i error ∨ Taken s i error)
  unwritten : ∀ i, (s.node i).unwritten = true → s.result i = none
  feeding : ∀ i error, s.node i = .feed error → s.result i = some error ∧ Unfed s i
  fed : s.finished = false → ∀ i, cfg.queued i = true → (s.node i).unfed = false → ¬ Unfed s i
  taken : s.finished = false → ∀ i, cfg.queued i = true → (s.node i).drained i = true →
    (s.item i).null = true
  plain : ∀ i error, (cfg.type i).isMaster = true → s.result i = some error → Plain error

section Data

variable {cfg : Config} {s t : Head} {i : Nat}

theorem Data.unfed_of_none (h : Data cfg s) (hi : s.result i = none) : Unfed s i := by
  rcases h.held i with hu | ⟨error, hr, _⟩
  · exact hu
  · rw [hi] at hr
    cases hr

/-- What has been collected of a node is its result. -/
theorem Data.result (h : Data cfg s) (hi : (s.item i).null = true) :
    s.result i = some (s.item i).error := by
  rcases h.held i with hu | ⟨error, hr, hf | ht⟩
  · rw [hu.2] at hi
    cases hi
  · rw [hf.2] at hi
    cases hi
  · rw [ht.2]
    exact hr

theorem Data.chain (h : Data cfg s) (i : Nat) : (s.item i).chain = none := by
  rcases h.held i with hu | ⟨error, _, hf | ht⟩
  · rw [hu.2]
    rfl
  · rw [hf.2]
    rfl
  · rw [ht.2]
    rfl

theorem Data.collected (h : Data cfg s) : Collected cfg s.item := by
  refine ⟨h.chain, fun i hm => ?_⟩
  rcases h.held i with hu | ⟨error, hr, hf | ht⟩
  · rw [hu.2]
    exact plain_zero
  · rw [hf.2]
    exact plain_zero
  · rw [ht.2]
    exact h.plain i error hm hr

/-- A step of node `i` that leaves the data alone. -/
theorem Data.move (h : Data cfg s) {p : Pc} (hnode : t.node = Function.update s.node i p)
    (hdata : t.fifo = s.fifo ∧ t.item = s.item ∧ t.result = s.result)
    (hfin : s.finished = true → t.finished = true)
    (hunwritten : p.unwritten = true → (s.node i).unwritten = true)
    (hfeeding : ∀ error, p ≠ .feed error)
    (hunfed : t.finished = false → p.unfed = false → ¬ Unfed s i)
    (htaken : t.finished = false → cfg.queued i = true → p.drained i = true →
      (s.item i).null = true) : Data cfg t := by
  obtain ⟨hf, hi, hr⟩ := hdata
  have hfin' : t.finished = false → s.finished = false := by
    intro ht
    cases hs : s.finished with
    | false => rfl
    | true =>
        rw [hfin hs] at ht
        cases ht
  constructor
  case held =>
    simp only [Unfed, Fed, Taken, hf, hi, hr]
    exact h.held
  case unwritten =>
    intro j hj
    rw [hr]
    rw [hnode] at hj
    rcases eq_or_ne j i with rfl | hne
    · rw [Function.update_self] at hj
      exact h.unwritten j (hunwritten hj)
    · rw [Function.update_of_ne hne] at hj
      exact h.unwritten j hj
  case feeding =>
    intro j error hj
    simp only [Unfed, hf, hi, hr]
    rw [hnode] at hj
    rcases eq_or_ne j i with rfl | hne
    · rw [Function.update_self] at hj
      exact absurd hj (hfeeding error)
    · rw [Function.update_of_ne hne] at hj
      exact h.feeding j error hj
  case fed =>
    intro ht j hq hj
    simp only [Unfed, hf, hi]
    rw [hnode] at hj
    rcases eq_or_ne j i with rfl | hne
    · rw [Function.update_self] at hj
      exact hunfed ht hj
    · rw [Function.update_of_ne hne] at hj
      exact h.fed (hfin' ht) j hq hj
  case taken =>
    intro ht j hq hj
    rw [hi]
    rw [hnode] at hj
    rcases eq_or_ne j i with rfl | hne
    · rw [Function.update_self] at hj
      exact htaken ht hq hj
    · rw [Function.update_of_ne hne] at hj
      exact h.taken (hfin' ht) j hq hj
  case plain =>
    rw [hr]
    exact h.plain

theorem Data.goes (h : Data cfg s) (hcounted : Counted s) (hlocked : Locked cfg s) {p : Pc}
    (hgo : Goes cfg s (s.node i) p) : Data cfg (s.setNode i p) := by
  generalize hi : s.node i = q at hgo
  -- A node that leaves early leaves a finished XOP.
  have hleave : s.finished = true → Data cfg (s.setNode i .gone) := by
    intro hfin
    have hno : (s.setNode i .gone).finished ≠ false := fun hf => Bool.noConfusion (hfin.symm.trans hf)
    exact h.move rfl ⟨rfl, rfl, rfl⟩ id nofun nofun (fun hf => absurd hf hno) fun hf => absurd hf hno
  have hfed : ∀ {q' : Pc}, s.node i = q' → q' ≠ .gone → q'.unfed = false → s.finished = false →
      ¬ Unfed s i :=
    fun hq' hne hu hf => h.fed hf i (hlocked.queued (hq' ▸ hne)) (by rw [hq']; exact hu)
  cases hgo with
  | start | enter | lockSh | sh | copy =>
      exact h.move rfl ⟨rfl, rfl, rfl⟩ id (fun _ => by rw [hi]; rfl) nofun nofun nofun
  | inactive hact => exact hleave (hcounted.finished hact)
  | enterDone hfin | shDone hfin | reenterDone hfin | exDone hfin => exact hleave hfin
  | feedInactive error hact =>
      have hfin := hcounted.finished hact
      refine h.move rfl ⟨rfl, rfl, rfl⟩ id nofun nofun (fun hf => ?_) nofun
      exact Bool.noConfusion (hfin.symm.trans hf)
  | reenter hfin | lockEx | ex hfin =>
      exact h.move rfl ⟨rfl, rfl, rfl⟩ id nofun nofun (fun hf _ => hfed hi nofun rfl hf) nofun
  | unlock error =>
      exact h.move rfl ⟨rfl, rfl, rfl⟩ id nofun nofun (fun hf _ => hfed hi nofun rfl hf) nofun
  | turn j hj hempty =>
      refine h.move rfl ⟨rfl, rfl, rfl⟩ id nofun nofun (fun hf _ => hfed hi nofun rfl hf) ?_
      intro hf hq hd
      rcases Nat.lt_succ_iff_lt_or_eq.mp (of_decide_eq_true hd) with hlt | rfl
      · exact h.taken hf i hq (by rw [hi]; exact decide_eq_true hlt)
      · -- Its own element: the fifo is empty and the node has fed, so it was collected.
        rcases h.held i with hu | ⟨error, _, hfd | ht⟩
        · exact absurd hu (hfed hi nofun rfl hf)
        · rw [hfd.1] at hempty
          cases hempty
        · rw [ht.2]
          rfl
  | wait j hj | answer j hj =>
      refine h.move rfl ⟨rfl, rfl, rfl⟩ id nofun nofun (fun hf _ => hfed hi nofun rfl hf) ?_
      intro hf hq _
      refine h.taken hf i hq ?_
      rw [hi]
      exact decide_eq_true (Nat.lt_of_lt_of_le (queued_lt hq) hj)

theorem Data.wrote (h : Data cfg s) {error : Nat} (hi : s.node i = .write)
    (hplain : (cfg.type i).isMaster = true → Plain error) :
    Data cfg { s.setNode i (.feed error) with
      result := Function.update s.result i (some error) } := by
  have hu : Unfed s i := h.unfed_of_none (h.unwritten i (by rw [hi]; rfl))
  constructor
  case held =>
    intro j
    rcases eq_or_ne j i with rfl | hne
    · exact .inl hu
    · simp only [Function.update_of_ne hne]
      exact h.held j
  case unwritten =>
    intro j hj
    rcases eq_or_ne j i with rfl | hne
    · simp only [Head.setNode, Function.update_self] at hj
      cases hj
    · simp only [Head.setNode, Function.update_of_ne hne] at hj ⊢
      exact h.unwritten j hj
  case feeding =>
    intro j e hj
    rcases eq_or_ne j i with rfl | hne
    · simp only [Head.setNode, Function.update_self, Pc.feed.injEq] at hj
      subst hj
      exact ⟨Function.update_self .., hu⟩
    · simp only [Head.setNode, Function.update_of_ne hne] at hj ⊢
      exact h.feeding j e hj
  case fed =>
    intro hf j hq hj
    rcases eq_or_ne j i with rfl | hne
    · simp only [Head.setNode, Function.update_self] at hj
      cases hj
    · simp only [Head.setNode, Function.update_of_ne hne] at hj
      exact h.fed hf j hq hj
  case taken =>
    intro hf j hq hj
    rcases eq_or_ne j i with rfl | hne
    · simp only [Head.setNode, Function.update_self] at hj
      cases hj
    · simp only [Head.setNode, Function.update_of_ne hne] at hj
      exact h.taken hf j hq hj
  case plain =>
    intro j e hm hj
    rcases eq_or_ne j i with rfl | hne
    · simp only [Function.update_self, Option.some.injEq] at hj
      exact hj ▸ hplain hm
    · simp only [Function.update_of_ne hne] at hj
      exact h.plain j e hm hj

theorem Data.feed (h : Data cfg s) {error : Nat} (hi : s.node i = .feed error) :
    Data cfg { s.setNode i .reenter with
      fifo := Function.update s.fifo i (s.fifo i ++ [error]) } := by
  obtain ⟨hr, hempty, hitem⟩ := h.feeding i error hi
  constructor
  case held =>
    intro j
    rcases eq_or_ne j i with rfl | hne
    · refine .inr ⟨error, hr, .inl ⟨?_, hitem⟩⟩
      simp only [Function.update_self, hempty, List.nil_append]
    · simp only [Unfed, Fed, Taken, Function.update_of_ne hne]
      exact h.held j
  case unwritten =>
    intro j hj
    rcases eq_or_ne j i with rfl | hne
    · simp only [Head.setNode, Function.update_self] at hj
      cases hj
    · simp only [Head.setNode, Function.update_of_ne hne] at hj ⊢
      exact h.unwritten j hj
  case feeding =>
    intro j e hj
    rcases eq_or_ne j i with rfl | hne
    · simp only [Head.setNode, Function.update_self] at hj
      cases hj
    · simp only [Head.setNode, Unfed, Function.update_of_ne hne] at hj ⊢
      exact h.feeding j e hj
  case fed =>
    intro hf j hq hj hu
    rcases eq_or_ne j i with rfl | hne
    · have hnil := hu.1
      simp only [Function.update_self, hempty, List.nil_append] at hnil
      cases hnil
    · simp only [Head.setNode, Unfed, Function.update_of_ne hne] at hj hu
      exact h.fed hf j hq hj hu
  case taken =>
    intro hf j hq hj
    rcases eq_or_ne j i with rfl | hne
    · simp only [Head.setNode, Function.update_self] at hj
      cases hj
    · simp only [Head.setNode, Function.update_of_ne hne] at hj
      exact h.taken hf j hq hj
  case plain => exact h.plain

theorem Data.take (h : Data cfg s) {j error : Nat} {rest : List Nat}
    (hj : s.fifo j = error :: rest) :
    Data cfg { s with
      fifo := Function.update s.fifo j rest
      item := Function.update s.item j (ended error) } := by
  obtain ⟨hr, rfl⟩ : s.result j = some error ∧ rest = [] := by
    rcases h.held j with hu | ⟨e, hr, hf | ht⟩
    · rw [hu.1] at hj
      cases hj
    · obtain ⟨rfl, rfl⟩ := List.cons.inj (hf.1.symm.trans hj)
      exact ⟨hr, rfl⟩
    · rw [ht.1] at hj
      cases hj
  constructor
  case held =>
    intro k
    rcases eq_or_ne k j with rfl | hne
    · exact .inr ⟨error, hr, .inr ⟨Function.update_self .., Function.update_self ..⟩⟩
    · simp only [Unfed, Fed, Taken, Function.update_of_ne hne]
      exact h.held k
  case unwritten => exact h.unwritten
  case feeding =>
    intro k e hk
    rcases eq_or_ne k j with rfl | hne
    · rw [(h.feeding k e hk).2.1] at hj
      cases hj
    · simp only [Unfed, Function.update_of_ne hne]
      exact h.feeding k e hk
  case fed =>
    intro hf k hq hk hu
    rcases eq_or_ne k j with rfl | hne
    · have hitem := hu.2
      simp only [Function.update_self] at hitem
      cases hitem
    · simp only [Unfed, Function.update_of_ne hne] at hu
      exact h.fed hf k hq hk hu
  case taken =>
    intro hf k hq hk
    rcases eq_or_ne k j with rfl | hne
    · simp only [Function.update_self]
      rfl
    · simp only [Function.update_of_ne hne]
      exact h.taken hf k hq hk
  case plain => exact h.plain

end Data

/-! ## What the collect answered -/

/-- The node is inside `hammer2_xop_collect`. -/
def Pc.scanning : Pc → Bool
  | .scan _ | .finish _ => true
  | _ => false

/-- The node has fed, and is on its way to the answer of its collect. -/
def Pc.collecting : Pc → Bool
  | .reenter | .lockEx | .ex | .scan _ | .finish _ => true
  | _ => false

/-- The answer a node completes the buffer with. -/
def Pc.answer : Pc → Option Nat
  | .finish error | .unlock error | .done error => some error
  | _ => none

structure Verdicts (cfg : Config) (s : Head) : Prop where
  waiting : s.finished = false → (∀ i, (s.node i).scanning = false) →
    verdict cfg s.item = errorEinprogress
  answered : ∀ i error, (s.node i).answer = some error → reportsSuccess error = true →
    nquorumOf cfg.pfsNmasters ≤ s.stored cfg
  reported : s.success = true → nquorumOf cfg.pfsNmasters ≤ s.stored cfg

section Verdicts

variable {cfg : Config} {s t : Head} {i : Nat}

/-- A step of node `i` outside of the collect. -/
theorem Verdicts.move (h : Verdicts cfg s) {p : Pc} (hnode : t.node = Function.update s.node i p)
    (hitem : t.item = s.item) (hfin : t.finished = s.finished) (hsuccess : t.success = s.success)
    (hstored : s.stored cfg ≤ t.stored cfg)
    (hscan : p.scanning = (s.node i).scanning ∨ p.scanning = true)
    (hanswer : ∀ error, p.answer = some error → (s.node i).answer = some error) :
    Verdicts cfg t := by
  constructor
  case waiting =>
    intro hf hall
    rw [hitem]
    refine h.waiting (hfin ▸ hf) fun j => ?_
    have hj := hall j
    rw [hnode] at hj
    rcases eq_or_ne j i with rfl | hne
    · rw [Function.update_self] at hj
      rcases hscan with hs | hs
      · exact hs ▸ hj
      · rw [hj] at hs
        cases hs
    · rwa [Function.update_of_ne hne] at hj
  case answered =>
    intro j error hj hs
    refine Nat.le_trans ?_ hstored
    rw [hnode] at hj
    rcases eq_or_ne j i with rfl | hne
    · rw [Function.update_self] at hj
      exact h.answered j error (hanswer error hj) hs
    · rw [Function.update_of_ne hne] at hj
      exact h.answered j error hj hs
  case reported =>
    intro hs
    rw [hsuccess] at hs
    exact Nat.le_trans (h.reported hs) hstored

/-- A successful answer was given to a quorum that stored the data. -/
theorem stored_of_verdict (hdata : Data cfg s)
    (hq : nquorumOf cfg.pfsNmasters ≤ cfg.attachedMasters)
    (hs : reportsSuccess (verdict cfg s.item) = true) :
    nquorumOf cfg.pfsNmasters ≤ s.stored cfg := by
  refine Nat.le_trans (verdict_success hdata.collected hq hs) ?_
  refine List.countP_mono_left fun j _ hj => ?_
  simp only [Bool.and_eq_true, beq_iff_eq] at hj ⊢
  refine ⟨hj.1, ?_⟩
  rw [hdata.result hj.2.1, hj.2.2]

theorem Verdicts.goes (h : Verdicts cfg s) (hdata : Data cfg s)
    (hq : nquorumOf cfg.pfsNmasters ≤ cfg.attachedMasters) {p : Pc}
    (hgo : Goes cfg s (s.node i) p) : Verdicts cfg (s.setNode i p) := by
  generalize hi : s.node i = q at hgo
  cases hgo with
  | start | enter | enterDone | lockSh | sh | shDone | copy | feedInactive | reenter
  | reenterDone | lockEx | exDone | inactive =>
      exact h.move rfl rfl rfl rfl (Nat.le_refl _) (.inl (by rw [hi]; rfl)) nofun
  | ex => exact h.move rfl rfl rfl rfl (Nat.le_refl _) (.inr rfl) nofun
  | turn => exact h.move rfl rfl rfl rfl (Nat.le_refl _) (.inr rfl) nofun
  | unlock error =>
      exact h.move rfl rfl rfl rfl (Nat.le_refl _) (.inl (by rw [hi]; rfl))
        fun e he => by rw [hi]; exact he
  | wait j hj hv =>
      refine ⟨fun _ _ => hv, fun k error hk => ?_, h.reported⟩
      rcases eq_or_ne k i with rfl | hne
      · simp only [Head.setNode, Function.update_self] at hk
        cases hk
      · simp only [Head.setNode, Function.update_of_ne hne] at hk
        exact h.answered k error hk
  | answer j hj hv =>
      refine ⟨fun _ hall => ?_, fun k error hk hs => ?_, h.reported⟩
      · have hself := hall i
        simp only [Head.setNode, Function.update_self] at hself
        cases hself
      · rcases eq_or_ne k i with rfl | hne
        · simp only [Head.setNode, Function.update_self, Pc.answer, Option.some.injEq] at hk
          have hst := stored_of_verdict hdata hq (hk ▸ hs)
          exact hst
        · simp only [Head.setNode, Function.update_of_ne hne] at hk
          exact h.answered k error hk hs

/-- A result only adds to what is stored. -/
theorem stored_wrote {error : Nat} (hi : s.result i = none) :
    s.stored cfg ≤ ({ s.setNode i (.feed error) with
      result := Function.update s.result i (some error) } : Head).stored cfg := by
  refine List.countP_mono_left fun j _ hj => ?_
  rcases eq_or_ne j i with rfl | hne
  · rw [hi] at hj
    simp at hj
  · simpa only [Function.update_of_ne hne] using hj

theorem Verdicts.effect (h : Verdicts cfg s) (hdata : Data cfg s)
    (hq : nquorumOf cfg.pfsNmasters ≤ cfg.attachedMasters) {a : Event} (heff : Effect cfg s a t) :
    Verdicts cfg t := by
  cases heff with
  | go hgo => exact h.goes hdata hq hgo
  | wrote i error hi =>
      exact h.move rfl rfl rfl rfl (stored_wrote (hdata.unwritten i (by rw [hi]; rfl)))
        (.inl (by rw [hi]; rfl)) nofun
  | feed i error hi =>
      exact h.move rfl rfl rfl rfl (Nat.le_refl _) (.inl (by rw [hi]; rfl)) nofun
  | take i j error rest hi =>
      refine ⟨fun _ hall => ?_, h.answered, h.reported⟩
      have hself := hall i
      rw [hi] at hself
      cases hself
  | finish i error hi =>
      refine ⟨nofun, fun k e hk hs => ?_, h.reported⟩
      rcases eq_or_ne k i with rfl | hne
      · simp only [Head.setNode, Function.update_self] at hk
        exact h.answered k e (by rw [hi]; exact hk) hs
      · simp only [Head.setNode, Function.update_of_ne hne] at hk
        exact h.answered k e hk hs
  | biodone i error hi =>
      have hmove : Verdicts cfg (s.setNode i .retireVop) :=
        h.move rfl rfl rfl rfl (Nat.le_refl _) (.inl (by rw [hi]; rfl)) nofun
      exact ⟨hmove.waiting, hmove.answered, fun hs => h.answered i error (by rw [hi]; rfl) hs⟩
  | retireVop i hi =>
      exact h.move rfl rfl rfl rfl (Nat.le_refl _) (.inl (by rw [hi]; rfl)) nofun
  | transDone i hi =>
      exact h.move rfl rfl rfl rfl (Nat.le_refl _) (.inl (by rw [hi]; rfl)) nofun

end Verdicts

/-! ## Every run -/

structure Inv (cfg : Config) (s : Head) : Prop where
  locked : Locked cfg s
  counted : Counted s
  data : Data cfg s
  verdicts : Verdicts cfg s

/-- The write of a master reports none of the answers of `hammer2_xop_collect`. -/
def Event.Plain (cfg : Config) : Event → Prop
  | .next _ => True
  | .wrote i error => (cfg.type i).isMaster = true → WriteDone.Plain error

instance (cfg : Config) : ∀ a : Event, Decidable (a.Plain cfg)
  | .next _ => .isTrue trivial
  | .wrote i error =>
      inferInstanceAs (Decidable ((cfg.type i).isMaster = true → WriteDone.Plain error))

section Run

variable {cfg : Config} {s t : Head}

theorem Data.effect (h : Inv cfg s) {a : Event} (hplain : a.Plain cfg)
    (heff : Effect cfg s a t) : Data cfg t := by
  cases heff with
  | go hgo => exact h.data.goes h.counted h.locked hgo
  | wrote i error hi => exact h.data.wrote hi hplain
  | feed i error hi => exact h.data.feed hi
  | take i j error rest _ _ hj => exact h.data.take hj
  | finish i error hi =>
      exact h.data.move rfl ⟨rfl, rfl, rfl⟩ (fun _ => rfl) nofun nofun nofun nofun
  | biodone i error hi =>
      have hfin := (h.counted.completer (i := i) (by rw [hi]; rfl)).1
      refine h.data.move rfl ⟨rfl, rfl, rfl⟩ id nofun nofun (fun hf => ?_) nofun
      exact Bool.noConfusion (hfin.symm.trans hf)
  | retireVop i hi =>
      have hfin := (h.counted.completer (i := i) (by rw [hi]; rfl)).1
      refine h.data.move rfl ⟨rfl, rfl, rfl⟩ id nofun nofun (fun hf => ?_) nofun
      exact Bool.noConfusion (hfin.symm.trans hf)
  | transDone i hi =>
      have hfin := (h.counted.completer (i := i) (by rw [hi]; rfl)).1
      refine h.data.move rfl ⟨rfl, rfl, rfl⟩ id nofun nofun (fun hf => ?_) fun hf => ?_ <;>
        exact Bool.noConfusion (hfin.symm.trans hf)

theorem Inv.step (hq : nquorumOf cfg.pfsNmasters ≤ cfg.attachedMasters) (h : Inv cfg s)
    {a : Event} (hplain : a.Plain cfg) (hstep : WriteDone.step cfg s a = some t) : Inv cfg t := by
  have heff := step_effect h.data.chain hstep
  exact ⟨h.locked.effect heff, h.counted.effect h.locked heff, Data.effect h hplain heff,
    h.verdicts.effect h.data hq heff⟩

theorem inv_start (hq : nquorumOf cfg.pfsNmasters ≤ cfg.attachedMasters) : Inv cfg (start cfg) := by
  have hpc : ∀ i, (start cfg).node i = .start ∧ cfg.queued i = true ∨
      (start cfg).node i = .gone ∧ cfg.queued i = false := by
    intro i
    show (if cfg.queued i then Pc.start else .gone) = _ ∧ _ ∨ (if cfg.queued i then Pc.start else .gone) = _ ∧ _
    cases cfg.queued i with
    | true => exact .inl ⟨rfl, rfl⟩
    | false => exact .inr ⟨rfl, rfl⟩
  have hempty : Collected cfg (start cfg).item := ⟨fun _ => rfl, fun _ _ => plain_zero⟩
  refine ⟨⟨fun i hi => ?_, fun i j hi => ?_, fun i hi => rfl⟩, ⟨fun _ => ⟨rfl, fun i => ?_⟩, nofun⟩,
    ⟨fun i => .inl ⟨rfl, rfl⟩, fun i _ => rfl, fun i error hi => ?_, fun _ i hqi hi => ?_,
      fun _ i hqi hi => ?_, nofun⟩, ⟨fun _ _ => ?_, fun i error hi => ?_, nofun⟩⟩
  · rcases hpc i with ⟨_, hqi⟩ | ⟨hg, _⟩
    · rw [hqi] at hi
      cases hi
    · exact hg
  · rcases hpc i with ⟨hg, _⟩ | ⟨hg, _⟩ <;> rw [hg] at hi <;> cases hi
  · rcases hpc i with ⟨hg, _⟩ | ⟨hg, _⟩ <;> rw [hg] <;> rfl
  · rcases hpc i with ⟨hg, _⟩ | ⟨hg, _⟩ <;> rw [hg] at hi <;> cases hi
  · rcases hpc i with ⟨hg, _⟩ | ⟨_, hn⟩
    · rw [hg] at hi
      cases hi
    · rw [hn] at hqi
      cases hqi
  · rcases hpc i with ⟨hg, _⟩ | ⟨_, hn⟩
    · rw [hg] at hi
      cases hi
    · rw [hn] at hqi
      cases hqi
  · -- Nothing is known of any master yet, and a quorum of them is attached.
    rw [verdict_inProgress hempty hq, endedCount_nodes hempty]
    rw [List.countP_eq_zero.mpr fun i _ => by simp [start, unknown]]
    exact nquorumOf_pos _
  · rcases hpc i with ⟨hg, _⟩ | ⟨hg, _⟩ <;> rw [hg] at hi <;> cases hi

/-! ## What holds in every state -/

/-- Once everybody has left the buffer is completed: else every attached master has been
collected, and the last collect would not have waited. -/
theorem Inv.completed (h : Inv cfg s) (hq : nquorumOf cfg.pfsNmasters ≤ cfg.attachedMasters)
    (hgone : ∀ i, s.node i = .gone) : s.counts = (1, 1, 1) := by
  cases hfin : s.finished with
  | true =>
      rcases h.counted.after hfin with ⟨k, hk, _⟩ | ⟨hc, _⟩
      · rw [hgone k] at hk
        cases hk
      · exact hc
  | false =>
      have hwait := h.verdicts.waiting hfin fun i => by rw [hgone i]; rfl
      rw [verdict_inProgress h.data.collected hq, endedCount_nodes h.data.collected] at hwait
      refine absurd hwait (Nat.not_lt.mpr (Nat.le_trans hq ?_))
      refine List.countP_mono_left fun i hi hm => ?_
      simp only [Bool.and_eq_true] at hm ⊢
      refine ⟨hm.1, h.data.taken hfin i ?_ (by rw [hgone i]; rfl)⟩
      have hi := List.mem_range.mp hi
      cases ht : cfg.type i <;> rw [ht] at hm <;>
        simp_all [Config.queued, PfsType.isMaster]

/-- When the last node has fed somebody is about to complete the buffer. -/
theorem Inv.collecting (h : Inv cfg s) (hq : nquorumOf cfg.pfsNmasters ≤ cfg.attachedMasters)
    (hfed : ∀ i < cfg.nchains, (s.node i).unfed = false) :
    s.finished = true ∨ ∃ i, (s.node i).collecting = true := by
  rcases Bool.eq_false_or_eq_true s.finished with hfin | hfin
  · exact .inl hfin
  rcases Classical.em (∃ i, (s.node i).collecting = true) with hc | hnone
  · exact .inr hc
  have hbefore := h.counted.before hfin
  have hgone : ∀ i, s.node i = .gone := by
    intro i
    rcases Nat.lt_or_ge i cfg.nchains with hi | hi
    case inr => exact h.locked.gone hi
    have hf := hfed i hi
    have hcompleting := hbefore.2 i
    have hcollecting := fun hc => hnone ⟨i, hc⟩
    cases hi : s.node i with
    | gone => rfl
    | start | enter | lockSh | sh | copy | write | feed =>
        rw [hi] at hf
        cases hf
    | reenter | lockEx | ex | scan | finish => exact absurd (by rw [hi]; rfl) hcollecting
    | unlock | done | retireVop | transDone =>
        rw [hi] at hcompleting
        cases hcompleting
  exact absurd ((h.completed hq hgone).symm.trans hbefore.1) (by decide)

/-- Nobody is stuck: who waits for the lock waits for somebody who can go on. -/
theorem can_step {i : Nat} (hi : s.node i ≠ .gone) :
    ∃ a, (WriteDone.step cfg s a).isSome = true := by
  have hnext : ∀ j, s.node j ≠ .gone → s.node j ≠ .write → s.node j ≠ .lockSh →
      s.node j ≠ .lockEx → (WriteDone.step cfg s (.next j)).isSome = true := by
    intro j h1 h2 h3 h4
    cases hj : s.node j with
    | gone => exact absurd hj h1
    | write => exact absurd hj h2
    | lockSh => exact absurd hj h3
    | lockEx => exact absurd hj h4
    | feed error =>
        simp only [WriteDone.step, hj]
        split <;> rfl
    | _ =>
        simp only [WriteDone.step, hj]
        rfl
  have hholder : ∀ j, (s.node j).holdsEx = true ∨ (s.node j).holdsSh = true →
      (WriteDone.step cfg s (.next j)).isSome = true := by
    intro j hj
    refine hnext j ?_ ?_ ?_ ?_ <;> (intro hn; rw [hn] at hj; rcases hj with hj | hj <;> cases hj)
  rcases Decidable.em (∃ j < cfg.nchains, (s.node j).holdsEx = true ∨ (s.node j).holdsSh = true)
    with ⟨j, _, hj⟩ | hfree
  · exact ⟨.next j, hholder j hj⟩
  have hex : s.freeOfEx cfg := fun j hj => Bool.eq_false_iff.mpr fun he => hfree ⟨j, hj, .inl he⟩
  have hsh : s.freeOfSh cfg := fun j hj => Bool.eq_false_iff.mpr fun he => hfree ⟨j, hj, .inr he⟩
  rcases eq_or_ne (s.node i) .write with hw | hw
  · exact ⟨.wrote i 0, by simp [WriteDone.step, hw]⟩
  refine ⟨.next i, ?_⟩
  rcases eq_or_ne (s.node i) .lockSh with hl | hl
  · simp [WriteDone.step, hl, hex]
  rcases eq_or_ne (s.node i) .lockEx with hl' | hl'
  · simp [WriteDone.step, hl', hex, hsh]
  exact hnext i hi hw hl hl'

/-! ## Every run ends -/

/-- How many steps a node still has to go, at most. -/
def Pc.left (n : Nat) : Pc → Nat
  | .start => n + 17
  | .enter => n + 16
  | .lockSh => n + 15
  | .sh => n + 14
  | .copy => n + 13
  | .write => n + 12
  | .feed _ => n + 11
  | .reenter => n + 9
  | .lockEx => n + 8
  | .ex => n + 7
  | .scan j => n - j + 6
  | .finish _ => 5
  | .unlock _ => 4
  | .done _ => 3
  | .retireVop => 2
  | .transDone => 1
  | .gone => 0

/-- What is left for the nodes to do and for the scans to take. -/
def Head.left (cfg : Config) (s : Head) : Nat :=
  ∑ i ∈ Finset.range cfg.nchains, ((s.node i).left cfg.nchains + (s.fifo i).length)

theorem left_lt {k : Nat} (hk : k < cfg.nchains)
    (hother : ∀ j, j ≠ k → t.node j = s.node j ∧ t.fifo j = s.fifo j)
    (hlt : (t.node k).left cfg.nchains + (t.fifo k).length <
      (s.node k).left cfg.nchains + (s.fifo k).length) : t.left cfg < s.left cfg := by
  refine Finset.sum_lt_sum (fun j _ => ?_) ⟨k, Finset.mem_range.mpr hk, hlt⟩
  rcases eq_or_ne j k with rfl | hne
  · exact Nat.le_of_lt hlt
  · rw [(hother j hne).1, (hother j hne).2]

theorem goes_left {p q : Pc} (hgo : Goes cfg s p q) : q.left cfg.nchains < p.left cfg.nchains := by
  cases hgo <;> simp only [Pc.left] <;> omega

theorem effect_left (h : Locked cfg s) {a : Event} (heff : Effect cfg s a t) :
    t.left cfg < s.left cfg := by
  have hmoved : ∀ {i : Nat} {p : Pc} {u : Head}, s.node i ≠ .gone →
      u.node = Function.update s.node i p → u.fifo = s.fifo →
      p.left cfg.nchains < (s.node i).left cfg.nchains → u.left cfg < s.left cfg := by
    intro i p u hi hnode hfifo hlt
    refine left_lt (queued_lt (h.queued hi)) (fun j hne => ?_) ?_
    · exact ⟨by rw [hnode, Function.update_of_ne hne], by rw [hfifo]⟩
    · rw [hnode, Function.update_self, hfifo]
      exact Nat.add_lt_add_right hlt _
  cases heff with
  | go hgo =>
      refine hmoved ?_ rfl rfl (goes_left hgo)
      intro hg
      rw [hg] at hgo
      cases hgo
  | wrote i error hi =>
      exact hmoved (by rw [hi]; nofun) rfl rfl (by rw [hi]; simp only [Pc.left]; omega)
  | feed i error hi =>
      refine left_lt (queued_lt (h.queued (by rw [hi]; nofun))) (fun j hne => ?_) ?_
      · exact ⟨Function.update_of_ne hne .., Function.update_of_ne hne ..⟩
      · simp only [Head.setNode, Function.update_self, hi, Pc.left, List.length_append,
          List.length_singleton]
        omega
  | take i j error rest hi hj hf =>
      refine left_lt hj (fun k hne => ⟨rfl, Function.update_of_ne hne ..⟩) ?_
      simp only [Function.update_self, hf, List.length_cons]
      omega
  | finish i error hi | biodone i error hi =>
      exact hmoved (by rw [hi]; nofun) rfl rfl (by rw [hi]; simp only [Pc.left]; omega)
  | retireVop i hi | transDone i hi =>
      exact hmoved (by rw [hi]; nofun) rfl rfl (by rw [hi]; simp only [Pc.left]; omega)

/-- Every event of a run uses up a step. -/
theorem run_left (hq : nquorumOf cfg.pfsNmasters ≤ cfg.attachedMasters) :
    ∀ {events : List Event} {s t : Head}, Inv cfg s →
      AllSteps (WriteDone.step cfg) (fun _ a => a.Plain cfg) s events →
      exec (WriteDone.step cfg) s events = some t → events.length + t.left cfg ≤ s.left cfg
  | [], s, t, _, _, he => by
      obtain rfl : s = t := by simpa using he
      exact Nat.le_of_eq (Nat.zero_add _)
  | a :: events, s, t, h, hplain, he => by
      obtain ⟨u, hu, hrest⟩ := exec_cons_eq_some.mp he
      have hnext := hplain.2
      rw [hu] at hnext
      have hlt := effect_left h.locked (step_effect h.data.chain hu)
      have ih := run_left hq (h.step hq hplain.1 hu) hnext hrest
      calc (a :: events).length + t.left cfg = events.length + t.left cfg + 1 := by
            rw [List.length_cons, Nat.add_right_comm]
        _ ≤ u.left cfg + 1 := Nat.add_le_add_right ih 1
        _ ≤ s.left cfg := hlt

theorem start_left : (start cfg).left cfg ≤ cfg.nchains * (cfg.nchains + 17) := by
  have hle : ∀ i ∈ Finset.range cfg.nchains, ((start cfg).node i).left cfg.nchains +
      ((start cfg).fifo i).length ≤ cfg.nchains + 17 := by
    intro i _
    show (if cfg.queued i then Pc.start else .gone).left cfg.nchains + 0 ≤ _
    split
    · exact Nat.le_refl _
    · exact Nat.zero_le _
  refine Nat.le_trans (Finset.sum_le_card_nsmul _ _ _ hle) ?_
  rw [Finset.card_range]
  exact Nat.le_refl (cfg.nchains * (cfg.nchains + 17))

end Run

/-- All the steps of node `i` when nobody is in its way, up to its scan. -/
def alone (i error : Nat) : List Event :=
  List.replicate 5 (.next i) ++ [.wrote i error] ++ List.replicate 4 (.next i)

/-- Two masters, both attached. -/
def twoMasters : Config where
  pfsNmasters := 2
  nchains := 2
  type _ := .master
  attached _ := true

/-- The first master waits for the second, which completes the buffer. -/
def twoRun : List Event :=
  alone 0 0 ++ List.replicate 4 (.next 0) ++ alone 1 0 ++ List.replicate 9 (.next 1)

/-- Three masters, of which one is attached. -/
def oneOfThree : Config where
  pfsNmasters := 3
  nchains := 3
  type _ := .master
  attached i := i == 0

/-- A cluster of three masters that has heard of one. -/
def oneKnown : Config where
  pfsNmasters := 3
  nchains := 1
  type _ := .master
  attached _ := true

/-- With one master known of three a single stored copy is reported as success. -/
theorem reported_without_quorum : ∃ t,
    exec (step oneKnown) (start oneKnown) (alone 0 0 ++ List.replicate 8 (.next 0)) = some t ∧
      t.success = true ∧ t.stored oneKnown < nquorumOf oneKnown.pfsNmasters :=
  ⟨_, rfl, by decide, by decide⟩

end Hammer2.Xop.WriteDone
