/-
# `Hammer2.Directory.Absence` — when a name is reported absent

`Sound` is sufficient by `run_fine`.  It is needed too: the backends that make the wrong verdict may
be the first that are done, and the first round of the collect then reports an absence that is none
(`sound_of_honest`).

A node that was not asked never feeds, and the collect counts it as one that is still to come.  With
`pfs_nmasters` 0 one master is a quorum, and no master is passed (`run_nonePassed`); so the collect
waits for ever exactly if a master was not asked and no other comes in front (`Call.Hangs`).

    heard_reachable       any of the backends can be done first
    sound_of_honest       the condition is needed
    run_nonePassed        with a quorum of one no master is passed
    returns_of_fed        the collect comes back
    nresolve_honest_iff   both conditions are exact
-/
import Hammer2.Directory.Nresolve

namespace Hammer2.Nresolve

open Xop Xop.Collect Machine

variable {c : Call} {s s' : State} {n : Backend} {name : List UInt8} {k : Nat} {x : NodeState}

/-! ## Where some backends are done -/

/-- A node that has not fed, and one that has. -/
def fresh (n : Backend) : NodeState := ⟨n.type, [], [], false, [], ⟨none, 0, false⟩⟩

def done (name : List UInt8) (n : Backend) : NodeState :=
  match n.result name with
  | some r => ⟨n.type, [], [], true, [r], ⟨none, 0, false⟩⟩
  | none => fresh n

/-- The nodes of which those with `p` have fed. -/
def heard (c : Call) (p : Backend → Bool) : List NodeState :=
  c.nodes.map fun n => if p n then done c.name n else fresh n

/-- Of these the first `m`. -/
def heardUpTo (c : Call) (p : Backend → Bool) (m : Nat) : List NodeState :=
  c.nodes.mapIdx fun i n => if i < m ∧ p n = true then done c.name n else fresh n

/-- The first round has not been made. -/
def early (c : Call) (nodes : List NodeState) : State := ⟨{ (init c).xop with nodes := nodes }, false⟩

/-- **Any of the backends can be done first.** -/
theorem heard_reachable (hreads : ∀ n ∈ c.nodes, n.dispatched = true → n.result c.name ≠ none)
    {p : Backend → Bool} (hp : ∀ n, p n = true → n.dispatched = true) :
    ∃ evs, exec (step c) (init c) evs = some (early c (heard c p)) := by
  have hpart : ∀ m, m ≤ c.nodes.length → ∃ evs,
      exec (step c) (init c) evs = some (early c (heardUpTo c p m)) := by
    intro m
    induction m with
    | zero =>
        intro _
        refine ⟨[], ?_⟩
        have hnone : heardUpTo c p 0 = (init c).xop.nodes := by
          refine List.ext_getElem? fun i => ?_
          simp only [heardUpTo, Nat.not_lt_zero, false_and, if_false, List.getElem?_mapIdx, init, Collect.init, List.map_map,
            List.getElem?_map]
          cases c.nodes[i]? <;> rfl
        rw [hnone]
        rfl
    | succ m ih =>
        intro hm
        obtain ⟨evs, hevs⟩ := ih (Nat.le_of_succ_le hm)
        obtain ⟨n, hn⟩ : ∃ n, c.nodes[m]? = some n := ⟨_, List.getElem?_eq_getElem hm⟩
        cases hpn : p n with
        | false =>
            refine ⟨evs, ?_⟩
            rw [hevs]
            refine congrArg (fun l => some (early c l)) (List.ext_getElem? fun i => ?_)
            rw [heardUpTo, heardUpTo, List.getElem?_mapIdx, List.getElem?_mapIdx]
            rcases Nat.lt_trichotomy i m with hlt | rfl | hgt
            · simp only [hlt, Nat.lt_succ_of_lt hlt]
            · rw [hn, Option.map_some, Option.map_some, hpn]
              simp only [Bool.false_eq_true, and_false]
            · simp only [Nat.not_lt_of_gt hgt, Nat.not_lt.mpr hgt]
        | true =>
            have hd := hp n hpn
            obtain ⟨r, hr⟩ := Option.ne_none_iff_exists'.mp (hreads n (List.mem_of_getElem? hn) hd)
            refine ⟨evs ++ [.feed m], ?_⟩
            rw [exec_append, hevs, Option.bind_some]
            refine exec_cons_eq_some.mpr ⟨_, ?_, rfl⟩
            have hx : (early c (heardUpTo c p m)).xop.nodes[m]? = some (fresh n) := by
              show (heardUpTo c p m)[m]? = _
              rw [heardUpTo, List.getElem?_mapIdx, hn, Option.map_some]
              simp only [Nat.lt_irrefl, false_and, if_false]
            unfold step
            dsimp only
            rw [hn, hx]
            dsimp only
            rw [if_pos ⟨rfl, hd, rfl⟩, hr]
            refine congrArg (fun l => some (early c l)) (List.ext_getElem? fun i => ?_)
            show ((heardUpTo c p m).set m _)[i]? = _
            rw [List.getElem?_set, heardUpTo, heardUpTo, List.getElem?_mapIdx, List.getElem?_mapIdx, List.length_mapIdx]
            rcases Nat.lt_trichotomy i m with hlt | rfl | hgt
            · simp only [hlt, Nat.lt_succ_of_lt hlt, Nat.ne_of_gt hlt, if_false]
            · simp only [if_true, hn, Option.map_some, Nat.lt_succ_self, hpn, and_self, done, hr]
              rw [if_pos (Nat.lt_of_succ_le hm)]
              rfl
            · simp only [Nat.not_lt_of_gt hgt, Nat.not_lt.mpr hgt, Nat.ne_of_lt hgt, if_false]
  obtain ⟨evs, hevs⟩ := hpart c.nodes.length (Nat.le_refl _)
  refine ⟨evs, hevs.trans ?_⟩
  refine congrArg (fun l => some (early c l)) (List.ext_getElem? fun i => ?_)
  rw [heardUpTo, List.getElem?_mapIdx, heard, List.getElem?_map]
  cases hi : c.nodes[i]? with
  | none => rfl
  | some n =>
      have hlt : i < c.nodes.length := (List.getElem?_eq_some_iff.mp hi).1
      rw [Option.map_some, Option.map_some]
      simp only [hlt, true_and]

/-- What a round makes of them: a chain, the end, or nothing. -/
def reached (name : List UInt8) (p : Backend → Bool) (n : Backend) : ClusterItem :=
  if p n then
    match n.result name with
    | some (some chain, e) => ⟨some chain, e, false⟩
    | some (none, e) => ⟨none, e, true⟩
    | none => ⟨none, 0, false⟩
  else ⟨none, 0, false⟩

theorem heard_view (c : Call) (p : Backend → Bool) :
    (early c (heard c p)).view = c.nodes.map fun n => ⟨n.type, reached c.name p n⟩ := by
  show ((heard c p).map (NodeState.advance 0)).map NodeState.toNode = _
  unfold heard
  rw [List.map_map, List.map_map]
  refine List.map_congr_left fun n _ => ?_
  rw [Function.comp_apply, Function.comp_apply]
  unfold reached
  cases p n with
  | false => rfl
  | true =>
      simp only [if_true, done]
      cases n.result c.name with
      | none => rfl
      | some r =>
          obtain ⟨chain, e⟩ := r
          cases chain with
          | none => rfl
          | some chain => rfl

/-! ## The condition is needed -/

theorem absent_answer (h : c.refused = false) : c.absent.claimsAbsent = true := by
  unfold Call.absent
  split
  · next hcreate =>
    cases haccess : c.access with
    | none => rfl
    | some e =>
        unfold Call.refused at h
        rw [decide_eq_true hcreate.1, hcreate.2, haccess] at h
        cases h
  · rfl

/-- A round that fails, early in the call, is reported as absence. -/
theorem Honest.of_failure (hall : ∀ evs s, exec (step c) (init c) evs = some s → Honest c s)
    (hreads : ∀ n ∈ c.nodes, n.dispatched = true → n.result c.name ≠ none) {p : Backend → Bool}
    (hp : ∀ n, p n = true → n.dispatched = true)
    (hz : ((early c (heard c p)).xop.verdict false).1 ≠ 0)
    (hwait : ((early c (heard c p)).xop.verdict false).1 ≠ errorEinprogress)
    (hskip : ((early c (heard c p)).xop.verdict false).1 = errorEsrch ∨
      ((early c (heard c p)).xop.verdict false).1 = errorEdeadlk →
        lokeyOf (early c (heard c p)).xop.advanced = keyMax) : c.refused = true ∨ c.Absent := by
  obtain ⟨evs, hevs⟩ := heard_reachable hreads hp
  have hround := collectRound_round (early c (heard c p)).xop
  have hrun : exec (step c) (init c) (evs ++ [.collect]) =
      some ⟨collectRound (early c (heard c p)).xop false, false⟩ := by
    rw [exec_append, hevs, Option.bind_some]
    rfl
  generalize collectRound (early c (heard c p)).xop false = y at hround hrun
  cases hrefused : c.refused with
  | true => exact .inl rfl
  | false =>
      refine .inr ((hall _ _ hrun).absent c.absent ?_ (absent_answer hrefused))
      cases hround with
      | waits h => exact absurd h hwait
      | skips h hne => exact absurd (hskip h) hne
      | returns h => exact absurd h hz
      | fails => rfl

theorem early_inv (hreads : ∀ n ∈ c.nodes, n.dispatched = true → n.result c.name ≠ none) {p : Backend → Bool}
    (hp : ∀ n, p n = true → n.dispatched = true) : Inv c (early c (heard c p)) := by
  obtain ⟨evs, hevs⟩ := heard_reachable hreads hp
  exact exec_invariant' (fun _ _ _ hi ht => step_inv hi ht) (init_inv c) hevs

theorem keynull_view (s : State) : keynullOf s.xop.advanced = s.view.all fun m => m.item.chain.isNone := by
  unfold State.view keynullOf
  rw [List.all_map]
  rfl

theorem Inv.view_code (h : Inv c s) : ∀ m ∈ s.view, IsCode m.item.error := by
  intro m hm
  obtain ⟨n, -, x, hx, rfl⟩ := Pairs.exists_left h.view hm
  exact hx.place.error_code

/-- At the end of the scans the error is one that is fed. -/
theorem Inv.firstError_code (h : Inv c s) : IsCode (firstError s.view (pass1 s.view).2) :=
  firstError_of_masters (P := IsCode) (pass1_of_masters (P := IsCode) (.inl rfl) fun m hm _ => h.view_code m hm)
    fun m hm _ => h.view_code m hm

/-- What `reached` says of a node. -/
theorem reached_chain {p : Backend → Bool} {chain : Chain} (h : (reached name p n).chain = some chain) :
    p n = true ∧ ∃ e, n.result name = some (some chain, e) ∧ (reached name p n).error = e := by
  unfold reached at h ⊢
  split at h
  · next hp =>
    rw [if_pos hp]
    split at h
    · next found e hr =>
      obtain rfl := Option.some.inj h
      exact ⟨hp, e, hr, rfl⟩
    · cases h
    · cases h
  · cases h

theorem feeds_result {key tid : Nat} (h : n.feeds name key tid = true) :
    n.dispatched = true ∧ ∃ chain e, n.result name = some (some chain, e) ∧ chain.key = key ∧ chain.modifyTid = tid := by
  unfold Backend.feeds at h
  rw [Bool.and_eq_true] at h
  refine ⟨h.1, ?_⟩
  have hmatch := h.2
  split at hmatch
  · next chain e hr => exact ⟨chain, e, hr, of_decide_eq_true hmatch⟩
  · cases hmatch

theorem feedsNull_result (h : n.feedsNull name = true) :
    n.dispatched = true ∧ ∃ e, n.result name = some (none, e) := by
  unfold Backend.feedsNull at h
  rw [Bool.and_eq_true] at h
  refine ⟨h.1, ?_⟩
  have hmatch := h.2
  split at hmatch
  · next e hr => exact ⟨e, hr⟩
  · cases hmatch

/-- **Honesty needs the condition.** -/
theorem sound_of_honest (hall : ∀ evs s, exec (step c) (init c) evs = some s → Honest c s) : Sound c := by
  have hreads : ∀ n ∈ c.nodes, n.dispatched = true → n.result c.name ≠ none := by
    intro n hn hd hr
    obtain ⟨i, hi⟩ := List.mem_iff_getElem?.mp hn
    have hx : (init c).xop.nodes[i]? = some (fresh n) := by
      simp only [init, Collect.init, List.map_map, List.getElem?_map, hi, Option.map_some]
      rfl
    have hrun : exec (step c) (init c) [.feed i] = some { init c with faulted := true } := by
      refine exec_cons_eq_some.mpr ⟨_, ?_, rfl⟩
      unfold step
      dsimp only
      rw [hi, hx]
      dsimp only
      rw [if_pos ⟨rfl, hd, rfl⟩, hr]
    cases (hall _ _ hrun).faulted
  refine ⟨hreads, ?_⟩
  by_contra hno
  obtain ⟨hrefused, hrest⟩ := not_or.mp hno
  obtain ⟨habsent, hdecided⟩ := not_or.mp hrest
  have hnever : ∀ {p : Backend → Bool}, (∀ n, p n = true → n.dispatched = true) →
      ((early c (heard c p)).xop.verdict false).1 ≠ 0 →
      ((early c (heard c p)).xop.verdict false).1 ≠ errorEinprogress →
      (((early c (heard c p)).xop.verdict false).1 = errorEsrch ∨
        ((early c (heard c p)).xop.verdict false).1 = errorEdeadlk →
          lokeyOf (early c (heard c p)).xop.advanced = keyMax) → False := fun hp hz hwait hskip =>
    (Honest.of_failure hall hreads hp hz hwait hskip).elim hrefused habsent
  have hmasters : (early c (heard c fun _ => false)).xop.pfsNmasters = c.pfsNmasters := rfl
  refine hdecided ⟨?_, ?_, ?_⟩
  · -- nobody has fed yet, and there are too few masters
    by_contra hfew
    have hinv := @early_inv c hreads (fun _ => false) (by rintro _ ⟨⟩)
    have hnull : keynullOf (early c (heard c fun _ => false)).xop.advanced = true := by
      rw [keynull_view, heard_view, List.all_map]
      exact List.all_eq_true.mpr fun _ _ => rfl
    have hcount := hinv.masters_le hnull
    have hv : ((early c (heard c fun _ => false)).xop.verdict false).1 = errorEsrch := by
      rw [verdict_eq, hnull, clusterCheck_checkNull, hmasters, if_neg (by omega), if_neg (by omega)]
    refine @hnever (fun _ => false) (by rintro _ ⟨⟩) ?_ ?_ fun _ => lokey_null hnull
    · rw [hv]
      rintro ⟨⟩
    · rw [hv]
      rintro ⟨⟩
  · -- the masters without a chain are the first
    by_contra hmany
    have hp : ∀ n : Backend, (n.type.isMaster && n.feedsNull c.name) = true → n.dispatched = true := fun n h =>
      (feedsNull_result (Bool.and_eq_true_iff.mp h).2).1
    have hinv := early_inv hreads hp
    have hnull : keynullOf (early c (heard c fun n => n.type.isMaster && n.feedsNull c.name)).xop.advanced = true := by
      rw [keynull_view, heard_view, List.all_map]
      refine List.all_eq_true.mpr fun n _ => ?_
      rw [Function.comp_apply]
      cases hc : (reached c.name (fun n => n.type.isMaster && n.feedsNull c.name) n).chain with
      | none => rfl
      | some chain =>
          obtain ⟨hpn, e, hr, -⟩ := reached_chain hc
          obtain ⟨-, e', hr'⟩ := feedsNull_result (Bool.and_eq_true_iff.mp hpn).2
          rw [hr] at hr'
          cases hr'
    have hended : nquorumOf c.pfsNmasters ≤
        endedCount (early c (heard c fun n => n.type.isMaster && n.feedsNull c.name)).view := by
      refine Nat.le_trans (Nat.not_lt.mp hmany) ?_
      rw [heard_view, endedCount, List.countP_map]
      refine List.countP_mono_left fun n _ hpn => ?_
      obtain ⟨hmaster, hnone⟩ := Bool.and_eq_true_iff.mp hpn
      obtain ⟨-, e, hr⟩ := feedsNull_result hnone
      simp only [Function.comp_apply, Node.ended, reached, hnone, if_true, hr, hmaster, Option.isNone_none,
        Bool.and_self]
    have hcode := hinv.firstError_code
    have hv : ((early c (heard c fun n => n.type.isMaster && n.feedsNull c.name)).xop.verdict false).1 ≠ 0 ∧
        ((early c (heard c fun n => n.type.isMaster && n.feedsNull c.name)).xop.verdict false).1 ≠ errorEinprogress := by
      rw [verdict_eq, hnull, clusterCheck_checkNull]
      have hm : (early c (heard c fun n => n.type.isMaster && n.feedsNull c.name)).xop.pfsNmasters =
        c.pfsNmasters := rfl
      rw [hm, if_pos hended]
      split
      · exact ⟨by rintro ⟨⟩, by rintro ⟨⟩⟩
      · next hne => exact ⟨hne, hcode.answers.1⟩
    exact hnever hp hv.1 hv.2 fun _ => lokey_null hnull
  · -- the nodes that feed the chain are the first
    intro key tid hquorum n₀ hn₀ hfeeds r hr
    by_contra herr
    have hp : ∀ n : Backend, n.feeds c.name key tid = true → n.dispatched = true := fun n h => (feeds_result h).1
    have hinv := early_inv hreads hp
    obtain ⟨hd, chain, e, hres, hkey, htid⟩ := feeds_result hfeeds
    rw [hres] at hr
    obtain rfl := Option.some.inj hr
    have hlt : key < keyMax := hkey ▸ (result_chain hres).1
    have hitem : ∀ m ∈ (early c (heard c fun n => n.feeds c.name key tid)).view, ∀ d, m.item.chain = some d →
        d.key = key ∧ d.modifyTid = tid := by
      intro m hm d hd
      rw [heard_view] at hm
      obtain ⟨n, -, rfl⟩ := List.mem_map.mp hm
      obtain ⟨hpn, e', hr', -⟩ := reached_chain hd
      obtain ⟨-, d', e'', hr'', hk, ht⟩ := feeds_result hpn
      rw [hr'] at hr''
      obtain ⟨heq, -⟩ := Prod.mk.inj (Option.some.inj hr'')
      obtain rfl := Option.some.inj heq
      exact ⟨hk, ht⟩
    have hmem : (⟨n₀.type, ⟨some chain, e, false⟩⟩ : Node) ∈
        (early c (heard c fun n => n.feeds c.name key tid)).view := by
      rw [heard_view]
      refine List.mem_map.mpr ⟨n₀, hn₀, ?_⟩
      simp only [reached, hfeeds, if_true, hres]
    have hnull : keynullOf (early c (heard c fun n => n.feeds c.name key tid)).xop.advanced = false := by
      rw [keynull_view]
      refine Bool.eq_false_iff.mpr fun hall => ?_
      cases List.all_eq_true.mp hall _ hmem
    have hlokey : lokeyOf (early c (heard c fun n => n.feeds c.name key tid)).xop.advanced = key := by
      obtain ⟨x, hx, d, hd, hdk⟩ := lokey_attained hinv.keys hnull
      rw [← hdk]
      exact (hitem x.toNode (List.mem_map.mpr ⟨x, hx, rfl⟩) d hd).1
    have hagree : nquorumOf c.pfsNmasters ≤
        agree (early c (heard c fun n => n.feeds c.name key tid)).view key tid := by
      refine Nat.le_trans hquorum ?_
      rw [heard_view, agree, List.countP_map]
      refine List.countP_mono_left fun n _ hpn => ?_
      obtain ⟨hmaster, hf⟩ := Bool.and_eq_true_iff.mp hpn
      obtain ⟨-, d, e', hr', hk, ht⟩ := feeds_result hf
      simp only [Function.comp_apply, Node.agrees, reached, hf, if_true, hr', hmaster, hk, ht, or_true, and_self,
        decide_true, Bool.and_self]
    have hv : ((early c (heard c fun n => n.feeds c.name key tid)).xop.verdict false).1 ≠ 0 ∧
        IsCode ((early c (heard c fun n => n.feeds c.name key tid)).xop.verdict false).1 := by
      have hm : (early c (heard c fun n => n.feeds c.name key tid)).xop.pfsNmasters = c.pfsNmasters := rfl
      rw [verdict_eq, hnull, hlokey, hm]
      rcases clusterCheck_faulty c.pfsNmasters (Nat.ne_of_lt hlt) hinv.tidsOk with
        ⟨hlow, -⟩ | ⟨tid', hq, ⟨-, -, hclean⟩ | ⟨m, hm, hmatch, ⟨hv, -⟩ | ⟨hv, hne⟩⟩⟩
      · exact absurd (Nat.le_trans hagree (agree_le_best _ _ _)) (Nat.not_le.mpr hlow)
      · exfalso
        have hpos : 0 < agree (early c (heard c fun n => n.feeds c.name key tid)).view key tid' :=
          Nat.lt_of_lt_of_le (nquorumOf_pos _) hq
        obtain ⟨m, hm, hag⟩ := List.countP_pos_iff.mp hpos
        have htid' : tid' = tid := by
          cases hc : m.item.chain with
          | none => simp only [Node.agrees, hc, Bool.and_false, Bool.false_eq_true] at hag
          | some d =>
              simp only [Node.agrees, hc, Bool.and_eq_true, decide_eq_true_eq] at hag
              rw [← hag.2.2]
              exact (hitem m hm d hc).2
        refine herr (hclean _ hmem ?_)
        rw [Node.matched]
        exact decide_eq_true ⟨hkey, htid.trans htid'.symm⟩
      · rw [hv]
        exact ⟨by rintro ⟨⟩, .inr (.inl rfl)⟩
      · rw [hv]
        exact ⟨hne, hinv.view_code m hm⟩
    exact hnever hp hv.1 hv.2.answers.1 fun hskip =>
      hskip.elim (fun h => absurd h hv.2.answers.2.1) fun h => absurd h hv.2.answers.2.2

/-! ## Waiting for nobody -/

/-- A master that fed before a key was skipped is not behind: it presents a later key, or has ended. -/
def Ahead (k : Nat) (x : NodeState) : Prop :=
  x.type.isMaster = true → (∃ chain, x.item.chain = some chain ∧ k ≤ chain.key) ∨ x.item.null = true

/-- With a quorum of one, no master is passed. -/
structure NonePassed (s : State) : Prop where
  ahead : s.xop.collectKey = 0 ∨ ∀ x ∈ s.xop.nodes, Ahead s.xop.collectKey x

theorem Place.ahead_fed (h : Place name k n x) {k' : Nat} (ha : Ahead k' x) (hm : x.type.isMaster = true) :
    x.fedEnd = true := by
  cases h with
  | unfed =>
      rcases ha hm with ⟨chain, hc, -⟩ | hn
      · cases hc
      · cases hn
  | queued => rfl
  | present => rfl
  | passed => rfl
  | ended => rfl

/-- A master that is ahead stays ahead. -/
theorem Place.ahead_advance (h : Place name k n x) (ha : Ahead k x) : Ahead k (x.advance k) := by
  intro hm
  have hmx : x.type.isMaster = true := hm
  cases h with
  | unfed => exact ha hmx
  | queued =>
      rcases ha hmx with ⟨chain, hc, -⟩ | hn
      · cases hc
      · cases hn
  | @present chain e hd hr =>
      obtain ⟨d, hd, hle⟩ := (ha hmx).resolve_right Bool.false_ne_true
      obtain rfl := Option.some.inj hd
      refine .inl ⟨chain, ?_, hle⟩
      simp only [NodeState.advance, advanceItem, behind, decide_eq_false (Nat.not_lt.mpr hle), Bool.false_eq_true,
        if_false]
  | passed =>
      rcases ha hmx with ⟨chain, hc, -⟩ | hn
      · cases hc
      · cases hn
  | ended => exact .inr rfl

/-- A master in the round: it has not fed, presents its chain, or has ended. -/
theorem NonePassed.master (h : NonePassed s) (hi : Inv c s) {i : Nat} {n : Backend} {x : NodeState}
    (hn : c.nodes[i]? = some n) (hx : s.xop.nodes[i]? = some x) (hm : n.type.isMaster = true) :
    (x.fedEnd = false ∧ (x.advance s.xop.collectKey).item = ⟨none, 0, false⟩) ∨
      (∃ chain e, n.result c.name = some (some chain, e) ∧
        (x.advance s.xop.collectKey).item = ⟨some chain, e, false⟩) ∨
      ∃ e, n.result c.name = some (none, e) ∧ (x.advance s.xop.collectKey).item = ⟨none, e, true⟩ := by
  have hplace := Pairs.get hi.nodes hn hx
  have hmx : x.type.isMaster = true := hplace.type ▸ hm
  have hnear : ∀ {chain : Chain} {e : Nat}, n.result c.name = some (some chain, e) →
      s.xop.collectKey ≤ chain.key →
      (NodeState.advance s.xop.collectKey ⟨n.type, [], [], true, [], ⟨some chain, e, false⟩⟩).item =
        ⟨some chain, e, false⟩ := fun _ hle => by
    simp only [NodeState.advance, advanceItem, behind, decide_eq_false (Nat.not_lt.mpr hle), Bool.false_eq_true,
      if_false]
  rcases h.ahead with hz | hahead
  · rw [hz] at hplace hnear ⊢
    cases hplace with
    | unfed => exact .inl ⟨rfl, rfl⟩
    | @queued r hd hr =>
        obtain ⟨chain, e⟩ := r
        cases chain with
        | none => exact .inr (.inr ⟨e, hr, rfl⟩)
        | some chain => exact .inr (.inl ⟨chain, e, hr, hnear hr (Nat.zero_le _)⟩)
    | present hd hr => exact .inr (.inl ⟨_, _, hr, hnear hr (Nat.zero_le _)⟩)
    | passed hd hr hlt => exact absurd hlt (Nat.not_lt_zero _)
    | ended hd hr => exact .inr (.inr ⟨_, hr, rfl⟩)
  · have ha := hahead x (List.mem_of_getElem? hx)
    cases hplace with
    | unfed =>
        rcases ha hmx with ⟨chain, hc, -⟩ | hnull
        · cases hc
        · cases hnull
    | queued =>
        rcases ha hmx with ⟨chain, hc, -⟩ | hnull
        · cases hc
        · cases hnull
    | present hd hr =>
        obtain ⟨d, hd, hle⟩ := (ha hmx).resolve_right Bool.false_ne_true
        obtain rfl := Option.some.inj hd
        exact .inr (.inl ⟨_, _, hr, hnear hr hle⟩)
    | passed =>
        rcases ha hmx with ⟨chain, hc, -⟩ | hnull
        · cases hc
        · cases hnull
    | ended hd hr => exact .inr (.inr ⟨_, hr, rfl⟩)

/-- Every backend that was asked is done, and the collect still waits. -/
structure Stuck (c : Call) (s : State) : Prop where
  faulted : s.faulted = false
  waits : s.done = false
  fed : AllFed c s
  verdict : (s.xop.verdict false).1 = errorEinprogress

/-- A key that no master presents. -/
theorem Inv.no_quorum (h : Inv c s) (hc : c.pfsNmasters = 0) (hnull : keynullOf s.xop.advanced = false)
    (hfew : bestAgree s.view (lokeyOf s.xop.advanced) < 1) : (s.xop.verdict false).1 =
      if 1 ≤ pendingCount s.view then errorEinprogress
      else if s.view.countP (Node.presents (lokeyOf s.xop.advanced)) < 1 then errorEsrch else errorEdeadlk := by
  obtain ⟨-, hlt⟩ := h.lokey hnull
  have hone : nquorumOf c.pfsNmasters = 1 := by rw [hc]; rfl
  have hagree := agree_le_best s.view (lokeyOf s.xop.advanced) 0
  have hzero : agree s.view (lokeyOf s.xop.advanced) 0 + pendingCount s.view = pendingCount s.view := by omega
  rw [verdict_eq, hnull, h.masters]
  rcases clusterCheck_faulty c.pfsNmasters (Nat.ne_of_lt hlt) h.tidsOk with ⟨-, hv⟩ | ⟨tid, hquorum, -⟩
  · rw [hv, hone, hzero]
  · rw [hone] at hquorum
    have hle := agree_le_best s.view (lokeyOf s.xop.advanced) tid
    omega

/-- A key that a master presents is returned, or its error is. -/
theorem Inv.quorum (h : Inv c s) (hc : c.pfsNmasters = 0) (hnull : keynullOf s.xop.advanced = false)
    (hsome : ¬ bestAgree s.view (lokeyOf s.xop.advanced) < 1) : IsCode (s.xop.verdict false).1 ∧
      ((s.xop.verdict false).1 = 0 → (s.xop.verdict false).2 ≠ none) := by
  obtain ⟨-, hlt⟩ := h.lokey hnull
  have hone : nquorumOf c.pfsNmasters = 1 := by rw [hc]; rfl
  rw [verdict_eq, hnull, h.masters]
  rcases clusterCheck_faulty c.pfsNmasters (Nat.ne_of_lt hlt) h.tidsOk with
    ⟨hlow, -⟩ | ⟨tid, -, ⟨hz, hchain, -⟩ | ⟨m, hm, -, ⟨hv, -⟩ | ⟨hv, hne⟩⟩⟩
  · rw [hone] at hlow
    exact absurd hlow hsome
  · exact ⟨.inl hz, fun _ => hchain⟩
  · refine ⟨.inr (.inl hv), fun hz => ?_⟩
    rw [hv] at hz
    cases hz
  · rw [hv]
    exact ⟨h.view_code m hm, fun hz => absurd hz hne⟩

/-- A master that presents the lowest key makes the quorum. -/
theorem presents_best {m : Node} {l : List Node} {key : Nat} (hm : m ∈ l) (hmaster : m.type.isMaster = true)
    {chain : Chain} (hc : m.item.chain = some chain) (hkey : chain.key = key) : ¬ bestAgree l key < 1 := by
  have hpos : 0 < agree l key chain.modifyTid := by
    refine List.countP_pos_iff.mpr ⟨m, hm, ?_⟩
    simp only [Node.agrees, hmaster, hc, hkey, or_true, and_self, decide_true, Bool.and_self]
  have hle := agree_le_best l key chain.modifyTid
  omega

/-- A quorum has a master that presents the key. -/
theorem best_presents {l : List Node} {key : Nat} (hkey : key ≠ keyMax) (h : ¬ bestAgree l key < 1) :
    ∃ m ∈ l, m.type.isMaster = true ∧ ∃ chain, m.item.chain = some chain ∧ chain.key = key := by
  obtain ⟨n, -, hval⟩ := List.mem_map.mp (foldr_max_mem (Nat.not_lt.mp h))
  have hpos : 0 < bestAgree l key := Nat.not_lt.mp h
  cases hc : n.item.chain with
  | none =>
      rw [hc] at hval
      exact absurd hval (Nat.ne_of_lt hpos)
  | some chain =>
      rw [hc] at hval
      obtain ⟨m, hm, hag⟩ := List.countP_pos_iff.mp (lt_of_lt_of_eq hpos hval.symm)
      cases hmc : m.item.chain with
      | none => simp only [Node.agrees, hmc, Bool.and_false, Bool.false_eq_true] at hag
      | some d =>
          simp only [Node.agrees, hmc, Bool.and_eq_true, decide_eq_true_eq] at hag
          exact ⟨m, hm, hag.1, d, hmc, hag.2.1.resolve_left hkey⟩

/-- What is returned is a chain. -/
theorem Inv.returned (hi : Inv c s) (hc : c.pfsNmasters = 0) (hz : (s.xop.verdict false).1 = 0) :
    (s.xop.verdict false).2 ≠ none := by
  cases hnull : keynullOf s.xop.advanced with
  | true =>
      rw [verdict_eq, hnull, clusterCheck_checkNull] at hz
      split at hz
      · split at hz
        · cases hz
        · contradiction
      · split at hz <;> cases hz
  | false =>
      by_cases hbest : bestAgree s.view (lokeyOf s.xop.advanced) < 1
      · have hverdict := hi.no_quorum hc hnull hbest
        rw [hz] at hverdict
        split at hverdict
        · cases hverdict
        · split at hverdict <;> cases hverdict
      · exact (hi.quorum hc hnull hbest).2 hz

theorem Round.nonePassed (hi : Inv c s) (hc : c.pfsNmasters = 0) (h : NonePassed s) {y : Collect.State}
    (hr : Round s.xop y) (hdone : (State.mk y s.faulted).done = false) : NonePassed ⟨y, s.faulted⟩ := by
  obtain ⟨hresult, hout⟩ := not_done hdone
  cases hr with
  | waits =>
      refine ⟨h.ahead.imp id fun hahead x hx => ?_⟩
      obtain ⟨x₀, hx₀, rfl⟩ := List.mem_map.mp hx
      obtain ⟨n, -, hplace⟩ := Pairs.exists_left hi.nodes hx₀
      exact hplace.ahead_advance (hahead x₀ hx₀)
  | skips hv hne =>
      have hnull : keynullOf s.xop.advanced = false := Bool.eq_false_iff.mpr fun hn => hne (lokey_null hn)
      refine ⟨.inr fun x hx hm => ?_⟩
      have hmem : x.toNode ∈ s.view := List.mem_map.mpr ⟨x, hx, rfl⟩
      by_cases hbest : bestAgree s.view (lokeyOf s.xop.advanced) < 1
      · have hverdict := hi.no_quorum hc hnull hbest
        have hpending : ¬ 1 ≤ pendingCount s.view := by
          intro hpos
          rw [if_pos hpos] at hverdict
          rw [hverdict] at hv
          rcases hv with hv | hv <;> cases hv
        cases hchain : x.item.chain with
        | some chain =>
            refine .inl ⟨chain, rfl, ?_⟩
            have hle : lokeyOf s.xop.advanced ≤ chain.key := lokey_le hx hchain
            have hother : chain.key ≠ lokeyOf s.xop.advanced := fun heq =>
              presents_best hmem hm hchain heq hbest
            show lokeyOf s.xop.advanced + 1 ≤ chain.key
            omega
        | none =>
            refine .inr (Decidable.byContradiction fun hn => hpending ?_)
            refine List.countP_pos_iff.mpr ⟨x.toNode, hmem, ?_⟩
            have hnotnull : x.item.null = false := Bool.eq_false_iff.mpr hn
            have hmaster : x.type.isMaster = true := hm
            simp only [Node.pending, NodeState.toNode, hmaster, hchain, hnotnull, Option.isNone_none, Bool.not_false,
              Bool.and_self]
      · have hcode := (hi.quorum hc hnull hbest).1.answers
        exact (hv.elim hcode.2.1 hcode.2.2).elim
  | returns hz =>
      obtain ⟨chain, hsome⟩ := Option.ne_none_iff_exists'.mp (hi.returned hc hz)
      rw [hsome] at hout
      exact absurd hout (List.append_ne_nil_of_right_ne_nil _ (List.cons_ne_nil _ _))
  | fails => cases hresult

/-- **No master is passed**, in any state of a call whose quorum is one. -/
theorem run_nonePassed (hc : c.pfsNmasters = 0) {evs : List Event} (h : exec (step c) (init c) evs = some s) :
    Inv c s ∧ (s.done = false → NonePassed s) := by
  refine exec_invariant' (I := fun s => Inv c s ∧ (s.done = false → NonePassed s)) (fun s ev t hs ht => ?_)
    ⟨init_inv c, fun _ => ⟨.inl rfl⟩⟩ h
  obtain ⟨hi, hn⟩ := hs
  refine ⟨step_inv hi ht, fun hdone => ?_⟩
  cases ev with
  | feed i =>
      unfold step at ht
      dsimp only at ht
      split at ht
      · next n x hget hx =>
        split at ht
        · next hfeed =>
          split at ht
          · obtain rfl := Option.some.inj ht
            exact ⟨(hn hdone).ahead⟩
          · obtain rfl := Option.some.inj ht
            refine ⟨(hn hdone).ahead.imp id fun hahead y hy => ?_⟩
            rcases List.mem_or_eq_of_mem_set hy with hy | rfl
            · exact hahead y hy
            · -- a master that has not fed is not ahead
              intro hm
              have hplace := Pairs.get hi.nodes hget hx
              have hfed := hplace.ahead_fed (hahead x (List.mem_of_getElem? hx)) hm
              rw [hfeed.2.2] at hfed
              cases hfed
        · cases ht
      · cases ht
  | collect =>
      unfold step at ht
      dsimp only at ht
      split at ht
      · next hgo =>
        obtain rfl := Option.some.inj ht
        exact Round.nonePassed hi hc (hn hgo.2) (collectRound_round s.xop) hdone
      · cases ht

/-- A master was not asked, and no other master comes back, or one of the other nodes comes back with a
key below theirs. -/
def Call.Hangs (c : Call) : Prop :=
  (∃ m ∈ c.nodes, m.type.isMaster = true ∧ m.dispatched = false) ∧
    ((∀ m ∈ c.nodes, m.type.isMaster = true → m.dispatched = false) ∨
      ∃ n ∈ c.nodes, ∃ key tid, n.feeds c.name key tid = true ∧ ∀ m ∈ c.nodes, m.type.isMaster = true →
        ∀ key' tid', m.feeds c.name key' tid' = true → key < key')

/-- What the round sees of a master when all that were asked are done. -/
inductive Came (name : List UInt8) (m : Backend) : ClusterItem → Prop
  | unasked : m.dispatched = false → Came name m ⟨none, 0, false⟩
  | chain {chain e} : m.result name = some (some chain, e) → Came name m ⟨some chain, e, false⟩
  | null {e} : m.result name = some (none, e) → Came name m ⟨none, e, true⟩

theorem Stuck.came (hi : Inv c s) (hn : NonePassed s) (h : Stuck c s) {i : Nat} {m : Backend} {v : Node}
    (hm : c.nodes[i]? = some m) (hv : s.view[i]? = some v) :
    v.type = m.type ∧ (m.type.isMaster = true → Came c.name m v.item) := by
  rw [State.view, Collect.State.advanced, List.getElem?_map, List.getElem?_map, Option.map_map] at hv
  obtain ⟨x, hx, rfl⟩ := Option.map_eq_some_iff.mp hv
  have hplace := Pairs.get hi.nodes hm hx
  refine ⟨hplace.type, fun hmm => ?_⟩
  rcases hn.master hi hm hx hmm with ⟨hfresh, hitem⟩ | ⟨chain, e, hr, hitem⟩ | ⟨e, hr, hitem⟩
  · show Came c.name m (x.advance s.xop.collectKey).item
    rw [hitem]
    refine .unasked (Bool.eq_false_iff.mpr fun hd => ?_)
    rw [h.fed i m x hm hx hd] at hfresh
    cases hfresh
  · show Came c.name m (x.advance s.xop.collectKey).item
    rw [hitem]
    exact .chain hr
  · show Came c.name m (x.advance s.xop.collectKey).item
    rw [hitem]
    exact .null hr

theorem Inv.view_length (h : Inv c s) : s.view.length = c.nodes.length := h.view.length_eq.symm

/-- A state that is stuck shows it. -/
theorem Stuck.hangs (hc : c.pfsNmasters = 0) (hi : Inv c s) (hn : NonePassed s) (h : Stuck c s) : c.Hangs := by
  have hone : nquorumOf c.pfsNmasters = 1 := by rw [hc]; rfl
  -- from a master to what is seen of it, and back
  have hsee : ∀ m ∈ c.nodes, m.type.isMaster = true → ∃ v ∈ s.view, v.type.isMaster = true ∧ Came c.name m v.item := by
    intro m hm hmaster
    obtain ⟨i, hget⟩ := List.mem_iff_getElem?.mp hm
    have hlen : i < s.view.length := hi.view_length ▸ (List.getElem?_eq_some_iff.mp hget).1
    obtain ⟨htype, hcame⟩ := h.came hi hn hget (List.getElem?_eq_getElem hlen)
    exact ⟨s.view[i], List.getElem_mem hlen, htype ▸ hmaster, hcame hmaster⟩
  have hback : ∀ v ∈ s.view, v.type.isMaster = true →
      ∃ m ∈ c.nodes, m.type.isMaster = true ∧ Came c.name m v.item := by
    intro v hv hmaster
    obtain ⟨i, hget⟩ := List.mem_iff_getElem?.mp hv
    have hlen : i < c.nodes.length := hi.view_length ▸ (List.getElem?_eq_some_iff.mp hget).1
    obtain ⟨htype, hcame⟩ := h.came hi hn (List.getElem?_eq_getElem hlen) hget
    exact ⟨c.nodes[i], List.getElem_mem hlen, htype ▸ hmaster, hcame (htype ▸ hmaster)⟩
  have hpending : 1 ≤ pendingCount s.view → ∃ m ∈ c.nodes, m.type.isMaster = true ∧ m.dispatched = false := by
    intro hpos
    obtain ⟨v, hv, hp⟩ := List.countP_pos_iff.mp hpos
    simp only [Node.pending, Bool.and_eq_true, Bool.not_eq_true'] at hp
    obtain ⟨m, hm, hmaster, hcame⟩ := hback v hv hp.1.1
    obtain ⟨⟨-, hnone⟩, hnull⟩ := hp
    generalize v.item = item at hcame hnone hnull
    cases hcame with
    | unasked hd => exact ⟨m, hm, hmaster, hd⟩
    | chain => cases hnone
    | null => cases hnull
  cases hnull : keynullOf s.xop.advanced with
  | true =>
      have hverdict := h.verdict
      rw [verdict_eq, hnull, clusterCheck_checkNull, hi.masters, hone] at hverdict
      have hended : ¬ 1 ≤ endedCount s.view := by
        intro hpos
        rw [if_pos hpos] at hverdict
        split at hverdict
        · cases hverdict
        · exact hi.firstError_code.answers.1 hverdict
      rw [if_neg hended] at hverdict
      have hpos : 1 ≤ endedCount s.view + pendingCount s.view := by
        by_contra hno
        rw [if_neg hno] at hverdict
        cases hverdict
      refine ⟨hpending (by omega), .inl fun m hm hmaster => ?_⟩
      obtain ⟨v, hv, hvm, hcame⟩ := hsee m hm hmaster
      have hitem : v.item.chain = none := by
        rw [keynull_view] at hnull
        exact Option.isNone_iff_eq_none.mp (List.all_eq_true.mp hnull v hv)
      have hnoend : v.ended ≠ true := fun hend => hended (List.countP_pos_iff.mpr ⟨v, hv, hend⟩)
      unfold Node.ended at hnoend
      rw [hvm] at hnoend
      generalize v.item = item at hcame hitem hnoend
      cases hcame with
      | unasked hd => exact hd
      | chain => cases hitem
      | null => exact absurd rfl hnoend
  | false =>
      have hbest : bestAgree s.view (lokeyOf s.xop.advanced) < 1 := by
        by_contra hsome
        exact (hi.quorum hc hnull hsome).1.answers.1 h.verdict
      have hverdict := hi.no_quorum hc hnull hbest
      rw [h.verdict] at hverdict
      have hpos : 1 ≤ pendingCount s.view := by
        by_contra hno
        rw [if_neg hno] at hverdict
        split at hverdict <;> cases hverdict
      refine ⟨hpending hpos, .inr ?_⟩
      obtain ⟨x, hx, chain, hchain, hkey⟩ := lokey_attained hi.keys hnull
      obtain ⟨n, hnmem, hseen⟩ := Pairs.exists_left hi.advanced hx
      obtain ⟨hd, hr⟩ := hseen.place.of_chain hchain
      refine ⟨n, hnmem, chain.key, chain.modifyTid, ?_, fun m hm hmaster key' tid' hfeeds => ?_⟩
      · rw [Backend.feeds, hd, hr]
        exact decide_eq_true ⟨rfl, rfl⟩
      · obtain ⟨v, hv, hvm, hcame⟩ := hsee m hm hmaster
        obtain ⟨hdm, d, e, hres, hk, -⟩ := feeds_result hfeeds
        have hitem : ∃ f, v.item.chain = some f ∧ f.key = key' := by
          generalize v.item = item at hcame
          cases hcame with
          | unasked hno =>
              rw [hdm] at hno
              cases hno
          | chain hr' =>
              rw [hres] at hr'
              obtain ⟨heq, -⟩ := Prod.mk.inj (Option.some.inj hr')
              exact ⟨d, heq.symm, hk⟩
          | null hr' =>
              rw [hres] at hr'
              cases hr'
        obtain ⟨f, hf, hfk⟩ := hitem
        have hne : f.key ≠ lokeyOf s.xop.advanced := fun heq => presents_best hv hvm hf heq hbest
        obtain ⟨y, hy, rfl⟩ := List.mem_map.mp hv
        have hle : lokeyOf s.xop.advanced ≤ f.key := lokey_le hy hf
        omega

/-- **A call that can hang does**, when all that were asked are done before the first round. -/
theorem stuck_of_hangs (hc : c.pfsNmasters = 0)
    (hreads : ∀ n ∈ c.nodes, n.dispatched = true → n.result c.name ≠ none) (h : c.Hangs) :
    Stuck c (early c (heard c Backend.dispatched)) := by
  have hone : nquorumOf c.pfsNmasters = 1 := by rw [hc]; rfl
  have hinv := @early_inv c hreads Backend.dispatched fun _ hd => hd
  obtain ⟨⟨m₀, hm₀, hmaster₀, hd₀⟩, hcase⟩ := h
  have hitem : ∀ v ∈ (early c (heard c Backend.dispatched)).view, ∃ n ∈ c.nodes, v.type = n.type ∧
      v.item = reached c.name Backend.dispatched n := by
    intro v hv
    rw [heard_view] at hv
    obtain ⟨n, hn, rfl⟩ := List.mem_map.mp hv
    exact ⟨n, hn, rfl, rfl⟩
  have hpending : 1 ≤ pendingCount (early c (heard c Backend.dispatched)).view := by
    refine List.countP_pos_iff.mpr ⟨⟨m₀.type, reached c.name Backend.dispatched m₀⟩, ?_, ?_⟩
    · rw [heard_view]
      exact List.mem_map.mpr ⟨m₀, hm₀, rfl⟩
    · simp only [Node.pending, reached, hd₀, hmaster₀, Bool.false_eq_true, if_false, Option.isNone_none, Bool.not_false,
        Bool.and_self]
  refine ⟨rfl, rfl, fun i n x hn hx hd => ?_, ?_⟩
  · have hx' : (heard c Backend.dispatched)[i]? = some x := hx
    rw [heard, List.getElem?_map, hn, Option.map_some] at hx'
    obtain rfl := Option.some.inj hx'
    obtain ⟨r, hr⟩ := Option.ne_none_iff_exists'.mp (hreads n (List.mem_of_getElem? hn) hd)
    simp only [hd, if_true, done, hr]
  · cases hnull : keynullOf (early c (heard c Backend.dispatched)).xop.advanced with
    | true =>
        -- a node with a chain would be seen, so no master was asked
        have hall : ∀ m ∈ c.nodes, m.type.isMaster = true → m.dispatched = false := by
          rcases hcase with hall | ⟨n, hn, key, tid, hfeeds, -⟩
          · exact hall
          · exfalso
            obtain ⟨hd, chain, e, hr, -, -⟩ := feeds_result hfeeds
            rw [keynull_view, heard_view, List.all_map] at hnull
            have hnone := List.all_eq_true.mp hnull n hn
            simp only [Function.comp_apply, reached, hd, if_true, hr, Option.isNone_some, Bool.false_eq_true] at hnone
        have hended : ¬ 1 ≤ endedCount (early c (heard c Backend.dispatched)).view := by
          intro hpos
          obtain ⟨v, hv, hend⟩ := List.countP_pos_iff.mp hpos
          obtain ⟨n, hn, htype, hreached⟩ := hitem v hv
          simp only [Node.ended, Bool.and_eq_true] at hend
          have hd := hall n hn (htype ▸ hend.1.1)
          rw [hreached, reached, hd, if_neg Bool.false_ne_true] at hend
          cases hend.2
        rw [verdict_eq, hnull, clusterCheck_checkNull, hinv.masters, hone, if_neg hended, if_pos (by omega)]
    | false =>
        have hbest : bestAgree (early c (heard c Backend.dispatched)).view
            (lokeyOf (early c (heard c Backend.dispatched)).xop.advanced) < 1 := by
          by_contra hsome
          obtain ⟨-, hlt⟩ := hinv.lokey hnull
          obtain ⟨v, hv, hmaster, chain, hchain, hkey⟩ := best_presents (Nat.ne_of_lt hlt) hsome
          obtain ⟨m, hm, htype, hreached⟩ := hitem v hv
          rw [hreached] at hchain
          obtain ⟨hd, e, hr, -⟩ := reached_chain hchain
          rcases hcase with hall | ⟨n, hn, key, tid, hfeeds, hbelow⟩
          · rw [hall m hm (htype ▸ hmaster)] at hd
            cases hd
          · have hmfeeds : m.feeds c.name chain.key chain.modifyTid = true := by
              rw [Backend.feeds, hd, hr]
              exact decide_eq_true ⟨rfl, rfl⟩
            have hlow := hbelow m hm (htype ▸ hmaster) _ _ hmfeeds
            obtain ⟨hdn, d, e', hrn, hdk, -⟩ := feeds_result hfeeds
            have hmem : (⟨n.type, reached c.name Backend.dispatched n⟩ : Node) ∈
                (early c (heard c Backend.dispatched)).view := by
              rw [heard_view]
              exact List.mem_map.mpr ⟨n, hn, rfl⟩
            obtain ⟨y, hy, hyn⟩ := List.mem_map.mp hmem
            have hyc : y.item.chain = some d := by
              have hyi : y.item = reached c.name Backend.dispatched n := congrArg Node.item hyn
              rw [hyi, reached, hdn, if_pos rfl, hrn]
            have hle : lokeyOf (early c (heard c Backend.dispatched)).xop.advanced ≤ d.key := lokey_le hy hyc
            omega
        rw [hinv.no_quorum hc hnull hbest, if_pos hpending]

/-! ## Coming back -/

/-- A second advance with the same key changes nothing. -/
theorem Seen.advance_eq (h : Seen name k n x) : x.advance k = x := by
  obtain ⟨-, hqueue, hahead⟩ := h
  obtain ⟨type, stream, todo, fedEnd, queue, ⟨chain, error, null⟩⟩ := x
  obtain rfl : queue = [] := hqueue
  cases chain with
  | none => rfl
  | some chain =>
      simp only [NodeState.advance, advanceItem, behind, decide_eq_false (Nat.not_lt.mpr (hahead chain rfl)),
        Bool.false_eq_true, if_false]

theorem Inv.advanced_advanced (h : Inv c s) :
    s.xop.advanced.map (NodeState.advance s.xop.collectKey) = s.xop.advanced := by
  refine (List.map_congr_left fun x hx => ?_).trans (List.map_id _)
  obtain ⟨n, -, hseen⟩ := Pairs.exists_left h.advanced hx
  exact hseen.advance_eq

theorem AllFed.round (h : AllFed c s) {y : Collect.State} (hr : Round s.xop y) {b : Bool} : AllFed c ⟨y, b⟩ := by
  intro i n x hn hx hd
  have hx' : s.xop.advanced[i]? = some x := hr.frame.1 ▸ hx
  rw [Collect.State.advanced, List.getElem?_map] at hx'
  obtain ⟨x₀, hx₀, rfl⟩ := Option.map_eq_some_iff.mp hx'
  exact h i n x₀ hn hx₀ hd

/-- A state that is stuck stays so. -/
theorem Stuck.never (hi : Inv c s) (h : Stuck c s) : ¬ Returns c s := by
  rintro ⟨rounds, t, hrun, hdone⟩
  induction rounds generalizing s with
  | zero =>
      obtain rfl : s = t := Option.some.inj hrun
      rw [h.waits] at hdone
      cases hdone
  | succ rounds ih =>
      obtain ⟨u, hu, hrest⟩ := exec_cons_eq_some.mp hrun
      have hround := collectRound_round s.xop
      have hcollect : some (State.mk (collectRound s.xop false) s.faulted) = some u := by
        rw [← hu]
        unfold step
        dsimp only
        rw [if_pos ⟨h.faulted, h.waits⟩]
      obtain rfl := Option.some.inj hcollect
      refine ih (hi.round hround) ⟨h.faulted, ?_, h.fed.round hround, ?_⟩ hrest
      · have hsame : collectRound s.xop false = { s.xop with nodes := s.xop.advanced } := if_pos h.verdict
        show (State.mk (collectRound s.xop false) s.faulted).done = false
        rw [hsame]
        exact h.waits
      · have hsame : collectRound s.xop false = { s.xop with nodes := s.xop.advanced } := if_pos h.verdict
        show ((collectRound s.xop false).verdict false).1 = errorEinprogress
        rw [hsame]
        have hview : ({ s.xop with nodes := s.xop.advanced } : Collect.State).advanced = s.xop.advanced :=
          hi.advanced_advanced
        have hverdict := h.verdict
        rw [verdict_eq, State.view] at hverdict
        rw [verdict_eq ⟨{ s.xop with nodes := s.xop.advanced }, false⟩, State.view, hview]
        exact hverdict

/-- The nodes that still present a chain. -/
def presenting (s : State) : Nat := s.view.countP fun m => m.item.chain.isSome

/-- A key that is skipped leaves fewer. -/
theorem presenting_lt (hi : Inv c s) (hnull : keynullOf s.xop.advanced = false) {b : Bool} :
    presenting ⟨{ s.xop with nodes := s.xop.advanced, collectKey := lokeyOf s.xop.advanced + 1 }, b⟩ <
      presenting s := by
  have hqueue : ∀ x ∈ s.xop.advanced, x.queue = [] := fun x hx => by
    obtain ⟨n, -, hseen⟩ := Pairs.exists_left hi.advanced hx
    exact hseen.queue
  obtain ⟨x₀, hx₀, chain, hc, hkey⟩ := lokey_attained hi.keys hnull
  -- a chain that is there after the advance was there before it
  have hkeep : ∀ x ∈ s.xop.advanced, (x.advance (lokeyOf s.xop.advanced + 1)).item.chain.isSome = true →
      x.item.chain.isSome = true ∧ ∀ d, x.item.chain = some d → lokeyOf s.xop.advanced + 1 ≤ d.key := by
    intro x hx hsome
    have hnil := hqueue x hx
    simp only [NodeState.advance, hnil, advanceItem] at hsome
    cases hb : behind (lokeyOf s.xop.advanced + 1) x.item with
    | true =>
        rw [hb, if_pos rfl] at hsome
        cases hsome
    | false =>
        rw [hb, if_neg Bool.false_ne_true] at hsome
        refine ⟨hsome, fun d hd => ?_⟩
        unfold behind at hb
        rw [hd] at hb
        exact Nat.not_lt.mp (of_decide_eq_false hb)
  have hview : presenting ⟨{ s.xop with nodes := s.xop.advanced, collectKey := lokeyOf s.xop.advanced + 1 }, b⟩ =
      s.xop.advanced.countP fun x => (x.advance (lokeyOf s.xop.advanced + 1)).item.chain.isSome := by
    show ((s.xop.advanced.map (NodeState.advance _)).map NodeState.toNode).countP _ = _
    rw [List.map_map, List.countP_map]
    rfl
  have hview' : presenting s = s.xop.advanced.countP fun x => x.item.chain.isSome := by
    show (s.xop.advanced.map NodeState.toNode).countP _ = _
    rw [List.countP_map]
    rfl
  rw [hview, hview']
  generalize lokeyOf s.xop.advanced = k at hkey hkeep
  generalize s.xop.advanced = l at hx₀ hkeep
  obtain ⟨l₁, l₂, rfl⟩ := List.append_of_mem hx₀
  have hmono : ∀ l' : List NodeState, (∀ x ∈ l', x ∈ l₁ ++ x₀ :: l₂) →
      (l'.countP fun x => (x.advance (k + 1)).item.chain.isSome) ≤ l'.countP fun x => x.item.chain.isSome :=
    fun l' hl => List.countP_mono_left fun x hx hsome => (hkeep x (hl x hx) hsome).1
  have h₁ := hmono l₁ fun x hx => List.mem_append_left _ hx
  have h₂ := hmono l₂ fun x hx => List.mem_append_right _ (List.mem_cons_of_mem _ hx)
  have hgone : ¬ (x₀.advance (k + 1)).item.chain.isSome = true := by
    intro hsome
    have hle := (hkeep x₀ (List.mem_append_right _ (List.mem_cons_self ..)) hsome).2 chain hc
    omega
  have hthere : x₀.item.chain.isSome = true := by rw [hc]; rfl
  rw [List.countP_append, List.countP_append, List.countP_cons, List.countP_cons, if_neg hgone, if_pos hthere]
  omega

/-- **The collect comes back** once all that were asked are done. -/
theorem returns_of_fed (hzero : c.pfsNmasters = 0) (hhangs : ¬ c.Hangs) : ∀ (m : Nat) {s : State}, presenting s < m →
    Inv c s → (s.done = false → NonePassed s) → s.faulted = false → AllFed c s → Returns c s
  | 0, _, hm, _, _, _, _ => absurd hm (Nat.not_lt_zero _)
  | m + 1, s, hm, hi, hn, hfault, hfed => by
      cases hdone : s.done with
      | true => exact ⟨0, s, rfl, hdone⟩
      | false =>
          have hround := collectRound_round s.xop
          have hstep : step c s .collect = some ⟨collectRound s.xop false, s.faulted⟩ := by
            unfold step
            dsimp only
            rw [if_pos ⟨hfault, hdone⟩]
          have hgoes : Returns c ⟨collectRound s.xop false, s.faulted⟩ → Returns c s := by
            rintro ⟨rounds, t, hrun, ht⟩
            exact ⟨rounds + 1, t, exec_cons_eq_some.mpr ⟨_, hstep, hrun⟩, ht⟩
          refine hgoes ?_
          cases hover : (State.mk (collectRound s.xop false) s.faulted).done with
          | true => exact ⟨0, _, rfl, hover⟩
          | false =>
              have hnext := Round.nonePassed hi hzero (hn hdone) hround hover
              have hi' := @Inv.round c s hi _ hround s.faulted
              have hfed' := @AllFed.round c s hfed _ hround s.faulted
              generalize collectRound s.xop false = y at hround hover hnext hi' hfed'
              have hless : presenting ⟨y, s.faulted⟩ < m := by
                obtain ⟨hresult, hout⟩ := not_done hover
                cases hround with
                | waits hv => exact absurd (Stuck.hangs hzero hi (hn hdone) ⟨hfault, hdone, hfed, hv⟩) hhangs
                | skips _ hne =>
                    have hnull : keynullOf s.xop.advanced = false :=
                      Bool.eq_false_iff.mpr fun hnull => hne (lokey_null hnull)
                    exact Nat.lt_of_lt_of_le (presenting_lt hi hnull) (Nat.le_of_lt_succ hm)
                | returns hz =>
                    obtain ⟨chain, hsome⟩ := Option.ne_none_iff_exists'.mp (hi.returned hzero hz)
                    rw [hsome] at hout
                    exact absurd hout (List.append_ne_nil_of_right_ne_nil _ (List.cons_ne_nil _ _))
                | fails => cases hresult
              exact returns_of_fed hzero hhangs m hless hi' (fun _ => hnext) hfault hfed'

/-- **A name is reported absent only when it is absent**, in every state of every run of the call,
exactly under `Sound`.  With `pfs_nmasters` 0, as it always is, the call also comes back when the nodes
that were asked are done, exactly if it cannot hang. -/
theorem nresolve_honest_iff (c : Call) :
    ((∀ evs s, exec (step c) (init c) evs = some s → Honest c s) ↔ Sound c) ∧
      (c.pfsNmasters = 0 →
        ((∀ evs s, exec (step c) (init c) evs = some s → Honest c s ∧ (AllFed c s → Returns c s)) ↔
          Sound c ∧ ¬ c.Hangs)) := by
  refine ⟨⟨sound_of_honest, fun hc evs s hs => (run_fine hc hs).honest⟩, fun hzero => ⟨fun hall => ?_, ?_⟩⟩
  · have hsound := sound_of_honest fun evs s hs => (hall evs s hs).1
    refine ⟨hsound, fun hhangs => ?_⟩
    obtain ⟨evs, hevs⟩ := heard_reachable hsound.reads fun n (hd : n.dispatched = true) => hd
    have hstuck := stuck_of_hangs hzero hsound.reads hhangs
    exact hstuck.never (run_nonePassed hzero hevs).1 ((hall evs _ hevs).2 hstuck.fed)
  · rintro ⟨hsound, hhangs⟩ evs s hs
    have hfine := run_fine hsound hs
    obtain ⟨hinv, hnone⟩ := run_nonePassed hzero hs
    exact ⟨hfine.honest, returns_of_fed hzero hhangs _ (Nat.lt_succ_self _) hinv hnone hfine.faulted⟩

/-- The indirect block of the collision range cannot be read. -/
def unreadable : Backend where
  type := .master
  dispatched := true
  parent := true
  range := []
  scan := .eio
  cached := fun _ => none
  iroot := true
  lookup := fun _ => (none, .ok)

/-- A name `a` is to be created. -/
def createOver (n : Backend) : Call where
  pfsNmasters := 0
  nodes := [n]
  name := [97]
  nameiop := .create
  isLastcn := true
  wantparent := true
  makeentry := true
  igetv := none
  access := none

/-- **An I/O error is permission to create.** -/
theorem unreadable_created : ∃ s, exec (step (createOver unreadable)) (init (createOver unreadable)) [.feed 0, .collect] =
    some s ∧ answer (createOver unreadable) s = some .ejustreturn ∧ ¬ (createOver unreadable).Absent := by
  refine ⟨_, rfl, by decide, ?_⟩
  unfold Call.Absent
  decide

end Hammer2.Nresolve
