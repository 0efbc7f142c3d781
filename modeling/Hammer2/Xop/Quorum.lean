/-
# `Hammer2.Xop.Quorum` — the verdict on one key

`clusterCheck` is `hammer2_cluster_check`: given what each node of a cluster
presents, does a quorum of masters agree on the key, is the scan over, can
agreement still come, or must the key be skipped?  What only reports on the
nodes (the flags of pass 3 and 4, the synchronisation flags) is left out; no
caller of this model reads it.

    agree T    masters that present the key with the transaction id T
    pending    masters still in progress
    ended      masters whose scan has ended

The search for a quorum tries the presented ids from the highest down, counting
afresh for each.  When none reaches the quorum the count that is left is the one
of the *last* round, for id 0 (`quorumLoop_spec`), and the verdict "agreement
can still come" is taken from that count: `clusterCheck_right_iff` says exactly
when it is right.
-/
import Hammer2.Disk
import Mathlib.Data.List.Basic

namespace Hammer2.Xop

/-! ## Error codes and node types -/

abbrev errorEio : Nat := 0x00000001
abbrev errorEnoent : Nat := 0x00000040
abbrev errorEinprogress : Nat := 0x00000800
abbrev errorEdeadlk : Nat := 0x00010000
abbrev errorEsrch : Nat := 0x00020000

/-- `HAMMER2_KEY_MAX`, also `(hammer2_key_t)-1`, and `HAMMER2_TID_MAX`. -/
abbrev keyMax : Nat := 0xFFFFFFFFFFFFFFFF
abbrev tidMax : Nat := 0xFFFFFFFFFFFFFFFF

/-- `HAMMER2_PFSTYPE_*`, as far as the checks tell them apart. -/
inductive PfsType where
  | master
  | slave
  | softMaster
  | softSlave
  | supRoot
  | other
deriving DecidableEq

/-- The types pass 2 counts as masters. -/
def PfsType.isMaster : PfsType → Bool
  | .master => true
  | .supRoot => true
  | _ => false

/-- What the checks read of a chain. -/
structure Chain where
  key : Nat
  modifyTid : Nat
  error : Nat
deriving DecidableEq

/-- `hammer2_cluster_item`; `null` is `HAMMER2_CITEM_NULL`. -/
structure ClusterItem where
  chain : Option Chain
  error : Nat
  null : Bool
deriving DecidableEq

/-- A node of the cluster: `pfs_types[i]` and `array[i]`. -/
structure Node where
  type : PfsType
  item : ClusterItem
deriving DecidableEq

/-! ## The check -/

/-- `nquorum`. -/
def nquorumOf (pfsNmasters : Nat) : Nat := pfsNmasters / 2 + 1

/-- The counters of pass 2, with `cluster->focus` and `cluster->error`. -/
structure Tally where
  umasters : Nat
  nmasters : Nat
  keymatch : Nat
  quorumTid : Nat
  focus : Option Chain
  error : Nat

/-- Pass 1 on one node, as far as it is read again: a super-root node is the
focus, unless its chain has an error. -/
def pass1Node (s : Option Chain × Nat) (n : Node) : Option Chain × Nat :=
  if n.item.chain.isSome ∧ n.item.error ≠ 0 then s
  else if n.type = .supRoot then (n.item.chain, n.item.error)
  else s

def pass1 (nodes : List Node) : Option Chain × Nat := nodes.foldl pass1Node (none, 0)

/-- One node of one round of pass 2; `bound` is `last_best_quorum_tid`. -/
def tallyNode (key : Nat) (checkNull : Bool) (bound : Nat) (t : Tally) (n : Node) : Tally :=
  if n.type.isMaster then
    match n.item.chain with
    | none =>
        if n.item.null = false then { t with umasters := t.umasters + 1 }
        else if checkNull then
          { t with
            nmasters := t.nmasters + 1
            keymatch := t.keymatch + 1
            error := if t.error = 0 then n.item.error else t.error }
        else t
    | some c =>
        if checkNull = false ∧ (key = keyMax ∨ c.key = key) then
          let t := { t with keymatch := t.keymatch + 1 }
          -- A better id restarts the count.
          let t :=
            if c.modifyTid < bound ∧ t.quorumTid < c.modifyTid then
              { t with nmasters := 0, quorumTid := c.modifyTid }
            else t
          if t.quorumTid = c.modifyTid then
            { t with
              nmasters := t.nmasters + 1
              focus := if c.error = 0 then some c else t.focus }
          else t
        else t
  else t

/-- One round of pass 2. -/
def tallyRound (nodes : List Node) (key : Nat) (checkNull : Bool) (bound : Nat)
    (focus : Option Chain) (error : Nat) : Tally :=
  nodes.foldl (tallyNode key checkNull bound) ⟨0, 0, 0, 0, focus, error⟩

/-- The `while` loop of pass 2.  Each round lowers the bound to an id presented
by some node, or to 0, so one round more than there are nodes is enough fuel. -/
def quorumLoop (nodes : List Node) (key : Nat) (checkNull : Bool) (nquorum : Nat) :
    Nat → Nat → Tally → Tally
  | 0, _, t => t
  | fuel + 1, bound, t =>
      if t.nmasters < nquorum ∧ bound ≠ 0 then
        let t := tallyRound nodes key checkNull bound t.focus t.error
        if t.nmasters ≥ nquorum then t
        else quorumLoop nodes key checkNull nquorum fuel t.quorumTid t
      else t

/-- Pass 3 on one node, as far as it is read again: the first error of a
matching element. -/
def pass3Node (key quorumTid : Nat) (error : Nat) (n : Node) : Nat :=
  match n.item.chain with
  | some c => if c.key = key ∧ c.modifyTid = quorumTid ∧ error = 0 then n.item.error else error
  | none => error

def pass3 (nodes : List Node) (key quorumTid : Nat) : Nat :=
  nodes.foldl (pass3Node key quorumTid) 0

/-- `hammer2_cluster_check`: its return value, and the focus it leaves. -/
def clusterCheck (pfsNmasters : Nat) (nodes : List Node) (key : Nat) (checkNull : Bool) :
    Nat × Option Chain :=
  let (focus, error) := pass1 nodes
  let nquorum := nquorumOf pfsNmasters
  let t := quorumLoop nodes key checkNull nquorum (nodes.length + 1) tidMax
    ⟨0, 0, 0, 0, focus, error⟩
  if t.nmasters < nquorum then
    if t.nmasters + t.umasters ≥ nquorum then (errorEinprogress, t.focus)
    else if t.keymatch < nquorum then (errorEsrch, t.focus)
    else (errorEdeadlk, t.focus)
  else if checkNull then
    (if t.error = 0 then errorEnoent else t.error, t.focus)
  else
    match t.focus with
    | none => (errorEio, none)
    | some c => (pass3 nodes key t.quorumTid, some c)

/-! ## What is counted -/

/-- The node is a master that presents `key`. -/
def Node.presents (key : Nat) (n : Node) : Bool :=
  n.type.isMaster && match n.item.chain with
    | some c => decide (key = keyMax ∨ c.key = key)
    | none => false

/-- The node is a master that presents `key` with id `tid`. -/
def Node.agrees (key tid : Nat) (n : Node) : Bool :=
  n.type.isMaster && match n.item.chain with
    | some c => decide ((key = keyMax ∨ c.key = key) ∧ c.modifyTid = tid)
    | none => false

/-- The node is a master still in progress. -/
def Node.pending (n : Node) : Bool :=
  n.type.isMaster && n.item.chain.isNone && !n.item.null

/-- The node is a master whose scan has ended. -/
def Node.ended (n : Node) : Bool :=
  n.type.isMaster && n.item.chain.isNone && n.item.null

/-- Masters that present the key with the id. -/
def agree (nodes : List Node) (key tid : Nat) : Nat := nodes.countP (Node.agrees key tid)

/-- Masters still in progress. -/
def pendingCount (nodes : List Node) : Nat := nodes.countP Node.pending

/-- Masters whose scan has ended. -/
def endedCount (nodes : List Node) : Nat := nodes.countP Node.ended

/-- No node presents an error, and no chain has the id `TID_MAX`. -/
def Clean (nodes : List Node) : Prop :=
  ∀ n ∈ nodes, n.item.error = 0 ∧ ∀ c, n.item.chain = some c → c.error = 0 ∧ c.modifyTid < tidMax

/-! ## One round -/

/-- What a round has counted once it has seen the nodes `seen`. -/
structure RoundSpec (key bound : Nat) (seen : List Node) (t : Tally) : Prop where
  umasters : t.umasters = pendingCount seen
  keymatch : t.keymatch = seen.countP (Node.presents key)
  nmasters : t.nmasters = agree seen key t.quorumTid
  below : t.quorumTid = 0 ∨ t.quorumTid < bound
  best : ∀ n ∈ seen, ∀ c, n.item.chain = some c → n.presents key = true →
    c.modifyTid < bound → c.modifyTid ≤ t.quorumTid
  source : t.quorumTid ≠ 0 → 0 < t.nmasters
  focus : 0 < t.nmasters → ∃ c, t.focus = some c ∧ (key = keyMax ∨ c.key = key)
  error : t.error = 0

theorem presents_some {key : Nat} {n : Node} {c : Chain} (hm : n.type.isMaster = true)
    (hc : n.item.chain = some c) :
    n.presents key = decide (key = keyMax ∨ c.key = key) := by
  simp [Node.presents, hm, hc]

theorem agrees_some {key tid : Nat} {n : Node} {c : Chain} (hm : n.type.isMaster = true)
    (hc : n.item.chain = some c) :
    n.agrees key tid = decide ((key = keyMax ∨ c.key = key) ∧ c.modifyTid = tid) := by
  simp [Node.agrees, hm, hc]

/-- A node that is not counted leaves every count as it is. -/
theorem RoundSpec.skip {key bound : Nat} {seen : List Node} {t : Tally} {n : Node}
    (h : RoundSpec key bound seen t) (hp : n.pending = false) (hk : n.presents key = false) :
    RoundSpec key bound (seen ++ [n]) t := by
  have hag : ∀ tid, n.agrees key tid = false := by
    intro tid
    cases hc : n.item.chain with
    | none => simp [Node.agrees, hc]
    | some c =>
        cases hm : n.type.isMaster with
        | false => simp [Node.agrees, hm]
        | true =>
            rw [presents_some hm hc, decide_eq_false_iff_not] at hk
            rw [agrees_some hm hc, decide_eq_false_iff_not]
            exact fun h => hk h.1
  constructor
  case umasters => rw [h.umasters, pendingCount, pendingCount, List.countP_append]; simp [hp]
  case keymatch => rw [h.keymatch, List.countP_append]; simp [hk]
  case nmasters => rw [h.nmasters, agree, agree, List.countP_append]; simp [hag]
  case below => exact h.below
  case best =>
    intro m hm c hc hpr hlt
    rcases List.mem_append.mp hm with hm | hm
    · exact h.best m hm c hc hpr hlt
    · rw [List.mem_singleton.mp hm, hk] at hpr
      cases hpr
  case source => exact h.source
  case focus => exact h.focus
  case error => exact h.error

/-- A master still in progress. -/
theorem RoundSpec.pending {key bound : Nat} {seen : List Node} {t : Tally} {n : Node}
    (h : RoundSpec key bound seen t) (hp : n.pending = true) :
    RoundSpec key bound (seen ++ [n]) { t with umasters := t.umasters + 1 } := by
  have hnone : n.item.chain = none := by
    simp only [Node.pending, Bool.and_eq_true, Option.isNone_iff_eq_none] at hp
    exact hp.1.2
  have hk : n.presents key = false := by simp [Node.presents, hnone]
  have hag : ∀ tid, n.agrees key tid = false := fun tid => by simp [Node.agrees, hnone]
  constructor
  case umasters =>
    show t.umasters + 1 = _
    rw [h.umasters, pendingCount, pendingCount, List.countP_append]
    simp [hp]
  case keymatch =>
    show t.keymatch = _
    rw [h.keymatch, List.countP_append]
    simp [hk]
  case nmasters =>
    show t.nmasters = agree _ key t.quorumTid
    rw [h.nmasters, agree, agree, List.countP_append]
    simp [hag]
  case below => exact h.below
  case best =>
    intro m hm c hc hpr hlt
    rcases List.mem_append.mp hm with hm | hm
    · exact h.best m hm c hc hpr hlt
    · rw [List.mem_singleton.mp hm, hk] at hpr
      cases hpr
  case source => exact h.source
  case focus => exact h.focus
  case error => exact h.error

/-- Nobody seen so far presents an id above the best one. -/
theorem RoundSpec.agree_above {key bound : Nat} {seen : List Node} {t : Tally}
    (h : RoundSpec key bound seen t) {tid : Nat} (hlt : tid < bound) (hgt : t.quorumTid < tid) :
    agree seen key tid = 0 := by
  refine List.countP_eq_zero.mpr fun n hn hag => ?_
  cases hc : n.item.chain with
  | none => simp [Node.agrees, hc] at hag
  | some c =>
      have hm : n.type.isMaster = true := by
        simp only [Node.agrees, Bool.and_eq_true] at hag
        exact hag.1
      rw [agrees_some hm hc, decide_eq_true_iff] at hag
      have hpr : n.presents key = true := by
        rw [presents_some hm hc]
        exact decide_eq_true hag.1
      have := h.best n hn c hc hpr (by rw [hag.2]; exact hlt)
      omega

/-- A master that presents the key. -/
theorem RoundSpec.present {key bound : Nat} {seen : List Node} {t : Tally} {n : Node} {c : Chain}
    (h : RoundSpec key bound seen t) (hm : n.type.isMaster = true)
    (hc : n.item.chain = some c) (hkey : key = keyMax ∨ c.key = key) (herr : c.error = 0) :
    RoundSpec key bound (seen ++ [n]) (tallyNode key false bound t n) := by
  have hp : n.pending = false := by simp [Node.pending, hc]
  have hk : n.presents key = true := by
    rw [presents_some hm hc]
    exact decide_eq_true hkey
  have hag : ∀ tid, n.agrees key tid = decide (c.modifyTid = tid) := by
    intro tid
    rw [agrees_some hm hc]
    simp [hkey]
  have hagree : ∀ tid, agree (seen ++ [n]) key tid =
      agree seen key tid + if c.modifyTid = tid then 1 else 0 := by
    intro tid
    rw [agree, agree, List.countP_append]
    by_cases hct : c.modifyTid = tid <;> simp [hag, hct]
  have hum : t.umasters = pendingCount (seen ++ [n]) := by
    rw [h.umasters, pendingCount, pendingCount, List.countP_append]
    simp [hp]
  have hkm : t.keymatch + 1 = (seen ++ [n]).countP (Node.presents key) := by
    rw [h.keymatch, List.countP_append]
    simp [hk]
  -- Whatever the new best id is, it bounds the old ids and the new one.
  have hbest : ∀ q, t.quorumTid ≤ q → (c.modifyTid < bound → c.modifyTid ≤ q) →
      ∀ m ∈ seen ++ [n], ∀ d, m.item.chain = some d → m.presents key = true →
      d.modifyTid < bound → d.modifyTid ≤ q := by
    intro q hq hcq m hmem d hd hpr hlt
    rcases List.mem_append.mp hmem with hmem | hmem
    · exact Nat.le_trans (h.best m hmem d hd hpr hlt) hq
    · rw [List.mem_singleton.mp hmem, hc] at hd
      obtain rfl := Option.some.inj hd
      exact hcq hlt
  unfold tallyNode
  simp only [hm, hc, herr, if_true, hkey, and_self, if_true]
  by_cases hnew : c.modifyTid < bound ∧ t.quorumTid < c.modifyTid
  · -- A better id.
    simp only [if_pos hnew, if_true]
    have hzero := h.agree_above hnew.1 hnew.2
    refine ⟨hum, hkm, ?_, Or.inr hnew.1, hbest _ (Nat.le_of_lt hnew.2) (fun _ => Nat.le_refl _),
      fun _ => Nat.succ_pos _, fun _ => ⟨c, rfl, hkey⟩, h.error⟩
    show 0 + 1 = agree _ key c.modifyTid
    rw [hagree, hzero, if_pos rfl]
  · simp only [if_neg hnew]
    have hcq : c.modifyTid < bound → c.modifyTid ≤ t.quorumTid := fun hlt => by omega
    by_cases heq : t.quorumTid = c.modifyTid
    · simp only [if_pos heq]
      refine ⟨hum, hkm, ?_, h.below, hbest _ (Nat.le_refl _) hcq, fun _ => Nat.succ_pos _,
        fun _ => ⟨c, rfl, hkey⟩, h.error⟩
      show t.nmasters + 1 = agree _ key t.quorumTid
      rw [hagree, if_pos heq.symm, h.nmasters]
    · simp only [if_neg heq]
      refine ⟨hum, hkm, ?_, h.below, hbest _ (Nat.le_refl _) hcq, h.source, h.focus, h.error⟩
      show t.nmasters = agree _ key t.quorumTid
      rw [hagree, if_neg (fun hct => heq hct.symm), h.nmasters, Nat.add_zero]

/-- **One node** of a round for a key. -/
theorem tallyNode_spec {key bound : Nat} {seen : List Node} {t : Tally} {n : Node}
    (h : RoundSpec key bound seen t) (hclean : Clean [n]) :
    RoundSpec key bound (seen ++ [n]) (tallyNode key false bound t n) := by
  obtain ⟨-, hchain⟩ := hclean n (List.mem_singleton.mpr rfl)
  cases hm : n.type.isMaster with
  | false =>
      have hkeep : tallyNode key false bound t n = t := by simp [tallyNode, hm]
      rw [hkeep]
      exact h.skip (by simp [Node.pending, hm]) (by simp [Node.presents, hm])
  | true =>
      cases hc : n.item.chain with
      | none =>
          cases hn : n.item.null with
          | false =>
              have hstep : tallyNode key false bound t n =
                  { t with umasters := t.umasters + 1 } := by simp [tallyNode, hm, hc, hn]
              rw [hstep]
              exact h.pending (by simp [Node.pending, hm, hc, hn])
          | true =>
              have hkeep : tallyNode key false bound t n = t := by simp [tallyNode, hm, hc, hn]
              rw [hkeep]
              exact h.skip (by simp [Node.pending, hn]) (by simp [Node.presents, hc])
      | some c =>
          by_cases hkey : key = keyMax ∨ c.key = key
          · exact h.present hm hc hkey (hchain c hc).1
          · have hkeep : tallyNode key false bound t n = t := by
              simp only [tallyNode, hm, hc, hkey, and_false, if_false, if_true]
            rw [hkeep]
            refine h.skip (by simp [Node.pending, hc]) ?_
            rw [presents_some hm hc]
            exact decide_eq_false hkey

/-- **One round** for a key. -/
theorem tallyRound_spec (key bound : Nat) {nodes : List Node} (focus : Option Chain)
    (hclean : Clean nodes) :
    RoundSpec key bound nodes (tallyRound nodes key false bound focus 0) := by
  have hfold : ∀ (rest seen : List Node) (t : Tally), RoundSpec key bound seen t → Clean rest →
      RoundSpec key bound (seen ++ rest) (rest.foldl (tallyNode key false bound) t) := by
    intro rest
    induction rest with
    | nil =>
        intro seen t h _
        rwa [List.append_nil]
    | cons n rest ih =>
        intro seen t h hcl
        rw [List.foldl_cons]
        have hstep := tallyNode_spec h
          (fun m hm => hcl m (by rw [List.mem_singleton.mp hm]; exact List.mem_cons_self ..))
        have hrest := ih _ _ hstep (fun m hm => hcl m (List.mem_cons_of_mem _ hm))
        rwa [List.append_assoc] at hrest
  have h0 : RoundSpec key bound [] ⟨0, 0, 0, 0, focus, 0⟩ :=
    ⟨rfl, rfl, rfl, Or.inl rfl, fun _ hm => absurd hm List.not_mem_nil, fun h => absurd rfl h,
      fun h => absurd h (Nat.lt_irrefl 0), rfl⟩
  exact hfold nodes [] _ h0 hclean

/-! ## The search -/

/-- Masters that present the key with an id strictly between 0 and the bound:
what the search still has to try. -/
def untried (nodes : List Node) (key bound : Nat) : Nat :=
  nodes.countP (fun n => n.presents key && match n.item.chain with
    | some c => decide (0 < c.modifyTid ∧ c.modifyTid < bound)
    | none => false)

theorem untried_le (nodes : List Node) (key bound : Nat) : untried nodes key bound ≤ nodes.length :=
  List.countP_le_length

/-- Trying an id leaves fewer to try. -/
theorem untried_lt {nodes : List Node} {key bound tid : Nat} (hpos : 0 < tid) (hlt : tid < bound)
    (hag : 0 < agree nodes key tid) : untried nodes key tid < untried nodes key bound := by
  obtain ⟨n, hn, hagn⟩ := List.countP_pos_iff.mp hag
  have hc : ∃ c, n.item.chain = some c ∧ c.modifyTid = tid ∧ n.presents key = true := by
    cases hcc : n.item.chain with
    | none => simp [Node.agrees, hcc] at hagn
    | some c =>
        have hm : n.type.isMaster = true := by
          simp only [Node.agrees, Bool.and_eq_true] at hagn
          exact hagn.1
        rw [agrees_some hm hcc, decide_eq_true_iff] at hagn
        exact ⟨c, rfl, hagn.2, by rw [presents_some hm hcc]; exact decide_eq_true hagn.1⟩
  obtain ⟨c, hcc, hct, hpr⟩ := hc
  -- Below `tid` is below the bound, and `n` itself is only below the bound.
  unfold untried
  obtain ⟨l₁, l₂, rfl⟩ := List.append_of_mem hn
  have hmono : ∀ l : List Node, l.countP (fun n => n.presents key && match n.item.chain with
        | some c => decide (0 < c.modifyTid ∧ c.modifyTid < tid)
        | none => false) ≤ l.countP (fun n => n.presents key && match n.item.chain with
        | some c => decide (0 < c.modifyTid ∧ c.modifyTid < bound)
        | none => false) := by
    intro l
    refine List.countP_mono_left fun m _ hm => ?_
    rw [Bool.and_eq_true] at hm ⊢
    refine ⟨hm.1, ?_⟩
    cases hmc : m.item.chain with
    | none => simp [hmc] at hm
    | some d =>
        have hd := hm.2
        simp only [hmc, decide_eq_true_iff] at hd ⊢
        omega
  rw [List.countP_append, List.countP_append, List.countP_cons_of_neg, List.countP_cons_of_pos]
  · have h1 := hmono l₁
    have h2 := hmono l₂
    omega
  · simp only [hpr, hcc, Bool.true_and, decide_eq_true_iff]
    omega
  · simp only [hpr, hcc, Bool.true_and, decide_eq_true_iff]
    omega

/-- **What the search leaves**: a quorum on an id, or the count for id 0 when
no id has a quorum. -/
theorem quorumLoop_spec {nodes : List Node} {key nquorum : Nat} (hclean : Clean nodes)
    (hq : 0 < nquorum) : ∀ (fuel bound : Nat) (t : Tally), 0 < bound → t.nmasters < nquorum →
    t.error = 0 → untried nodes key bound < fuel →
    (∀ tid, bound ≤ tid → tid < tidMax → agree nodes key tid < nquorum) →
    ∃ last, RoundSpec key last nodes (quorumLoop nodes key false nquorum fuel bound t) ∧
      ((quorumLoop nodes key false nquorum fuel bound t).nmasters < nquorum →
        (quorumLoop nodes key false nquorum fuel bound t).quorumTid = 0 ∧
        ∀ tid < tidMax, agree nodes key tid < nquorum) := by
  intro fuel
  induction fuel with
  | zero => exact fun bound t _ _ _ hfuel => absurd hfuel (Nat.not_lt_zero _)
  | succ fuel ih =>
      intro bound t hbound hlt herr hfuel habove
      have hround := tallyRound_spec key bound t.focus hclean
      have hstep : quorumLoop nodes key false nquorum (fuel + 1) bound t =
          if (tallyRound nodes key false bound t.focus 0).nmasters ≥ nquorum then
            tallyRound nodes key false bound t.focus 0
          else quorumLoop nodes key false nquorum fuel
            (tallyRound nodes key false bound t.focus 0).quorumTid
            (tallyRound nodes key false bound t.focus 0) := by
        rw [quorumLoop, if_pos ⟨hlt, Nat.pos_iff_ne_zero.mp hbound⟩, herr]
      rw [hstep]
      generalize tallyRound nodes key false bound t.focus 0 = t' at hround
      by_cases hreach : t'.nmasters ≥ nquorum
      · rw [if_pos hreach]
        exact ⟨bound, hround, fun h => absurd hreach (Nat.not_le.mpr h)⟩
      · rw [if_neg hreach]
        have hlt' : t'.nmasters < nquorum := Nat.not_le.mp hreach
        -- Every id from the best of this round on is now excluded.
        have habove' : ∀ tid, t'.quorumTid ≤ tid → tid < tidMax → agree nodes key tid < nquorum := by
          intro tid hge hmax
          rcases Nat.lt_or_ge tid bound with hb | hb
          · rcases Nat.eq_or_lt_of_le hge with heq | hgt
            · rw [← heq, ← hround.nmasters]
              exact hlt'
            · rw [hround.agree_above hb hgt]
              exact hq
          · exact habove tid hb hmax
        rcases Nat.eq_zero_or_pos t'.quorumTid with hz | hpos
        · -- Id 0 was the last to try.
          have hstop : quorumLoop nodes key false nquorum fuel t'.quorumTid t' = t' := by
            rw [hz]
            cases fuel <;> simp [quorumLoop]
          rw [hstop]
          exact ⟨bound, hround, fun _ => ⟨hz, fun tid => habove' tid (by rw [hz]; exact Nat.zero_le _)⟩⟩
        · have hb : t'.quorumTid < bound := hround.below.resolve_left (by omega)
          have hag : 0 < agree nodes key t'.quorumTid := by
            rw [← hround.nmasters]
            exact hround.source (by omega)
          have hless := untried_lt hpos hb hag
          exact ih t'.quorumTid t' hpos hlt' hround.error (by omega) habove'

/-! ## The verdict -/

theorem le_foldr_max {l : List Nat} {x : Nat} (h : x ∈ l) : x ≤ l.foldr max 0 := by
  induction l with
  | nil => cases h
  | cons y l ih =>
      rw [List.foldr_cons]
      cases h with
      | head => exact Nat.le_max_left _ _
      | tail _ h => exact Nat.le_trans (ih h) (Nat.le_max_right _ _)

theorem foldr_max_mem {l : List Nat} (h : 0 < l.foldr max 0) : l.foldr max 0 ∈ l := by
  induction l with
  | nil => exact absurd h (Nat.lt_irrefl 0)
  | cons y l ih =>
      rw [List.foldr_cons] at h ⊢
      rcases Nat.le_total (l.foldr max 0) y with hle | hle
      · rw [Nat.max_eq_left hle]
        exact List.mem_cons_self ..
      · rw [Nat.max_eq_right hle] at h ⊢
        exact List.mem_cons_of_mem _ (ih h)

/-- The largest number of masters that present the key with one id. -/
def bestAgree (nodes : List Node) (key : Nat) : Nat :=
  (nodes.map (fun n => match n.item.chain with
    | some c => agree nodes key c.modifyTid
    | none => 0)).foldr max 0

theorem agree_le_best (nodes : List Node) (key tid : Nat) :
    agree nodes key tid ≤ bestAgree nodes key := by
  rcases Nat.eq_zero_or_pos (agree nodes key tid) with hz | hpos
  · rw [hz]
    exact Nat.zero_le _
  · obtain ⟨n, hn, hag⟩ := List.countP_pos_iff.mp hpos
    refine le_foldr_max (List.mem_map.mpr ⟨n, hn, ?_⟩)
    cases hc : n.item.chain with
    | none => simp [Node.agrees, hc] at hag
    | some c =>
        have hct : c.modifyTid = tid := by
          simp only [Node.agrees, hc, Bool.and_eq_true, decide_eq_true_iff] at hag
          exact hag.2.2
        rw [← hct]

theorem best_attained {nodes : List Node} {key : Nat} (hclean : Clean nodes)
    (h : 0 < bestAgree nodes key) : ∃ tid < tidMax, agree nodes key tid = bestAgree nodes key := by
  obtain ⟨n, hn, hval⟩ := List.mem_map.mp (foldr_max_mem h)
  cases hc : n.item.chain with
  | none =>
      simp only [hc] at hval
      exact absurd h (by unfold bestAgree; omega)
  | some c =>
      simp only [hc] at hval
      exact ⟨c.modifyTid, ((hclean n hn).2 c hc).2, hval⟩

/-- The error pass 1 leaves is one a super-root presents. -/
theorem pass1_of_masters {P : Nat → Prop} (h0 : P 0) {nodes : List Node}
    (hall : ∀ n ∈ nodes, n.type.isMaster = true → P n.item.error) : P (pass1 nodes).2 := by
  have hfold : ∀ (l : List Node) (s : Option Chain × Nat), P s.2 →
      (∀ n ∈ l, n.type.isMaster = true → P n.item.error) → P (l.foldl pass1Node s).2 := by
    intro l
    induction l with
    | nil => exact fun _ h _ => h
    | cons n l ih =>
        intro s hs hl
        refine ih _ ?_ fun m hm => hl m (List.mem_cons_of_mem _ hm)
        unfold pass1Node
        split
        · exact hs
        · split
          case isTrue hr => exact hl n (List.mem_cons_self ..) (by rw [hr]; rfl)
          case isFalse => exact hs
  exact hfold nodes (none, 0) h0 hall

/-- Without errors pass 1 leaves none. -/
theorem pass1_error {nodes : List Node} (hclean : Clean nodes) : (pass1 nodes).2 = 0 :=
  pass1_of_masters (P := fun e => e = 0) rfl fun n hn _ => (hclean n hn).1

/-- Without errors pass 3 finds none. -/
theorem pass3_error {nodes : List Node} (hclean : Clean nodes) (key tid : Nat) :
    pass3 nodes key tid = 0 := by
  have hfold : ∀ (l : List Node) (e : Nat), Clean l → e = 0 →
      l.foldl (pass3Node key tid) e = 0 := by
    intro l
    induction l with
    | nil => exact fun e _ he => he
    | cons n l ih =>
        intro e hcl he
        have herr := (hcl n (List.mem_cons_self ..)).1
        refine ih _ (fun m hm => hcl m (List.mem_cons_of_mem _ hm)) ?_
        unfold pass3Node
        split
        · split
          · exact herr
          · exact he
        · exact he
  exact hfold nodes 0 hclean rfl

theorem nquorumOf_pos (pfsNmasters : Nat) : 0 < nquorumOf pfsNmasters := Nat.succ_pos _

/-- **The verdict on a key**, without errors. -/
theorem clusterCheck_key {nodes : List Node} (pfsNmasters key : Nat) (hclean : Clean nodes) :
    let nquorum := nquorumOf pfsNmasters
    let v := clusterCheck pfsNmasters nodes key false
    (nquorum ≤ bestAgree nodes key ∧ v.1 = 0 ∧
      ∃ c, v.2 = some c ∧ (key = keyMax ∨ c.key = key)) ∨
    (bestAgree nodes key < nquorum ∧
      v.1 = if nquorum ≤ agree nodes key 0 + pendingCount nodes then errorEinprogress
        else if nodes.countP (Node.presents key) < nquorum then errorEsrch else errorEdeadlk) := by
  have hq := nquorumOf_pos pfsNmasters
  have herr := pass1_error hclean
  have hun := untried_le nodes key tidMax
  obtain ⟨last, hround, hlow⟩ := @quorumLoop_spec nodes key _ hclean hq (nodes.length + 1) tidMax
    ⟨0, 0, 0, 0, (pass1 nodes).1, (pass1 nodes).2⟩ (by decide) hq herr (by omega)
    (fun tid h1 h2 => absurd h1 (Nat.not_le.mpr h2))
  simp only
  unfold clusterCheck
  simp only
  generalize quorumLoop nodes key false (nquorumOf pfsNmasters) (nodes.length + 1) tidMax
    ⟨0, 0, 0, 0, (pass1 nodes).1, (pass1 nodes).2⟩ = t at hround hlow
  by_cases hreach : t.nmasters < nquorumOf pfsNmasters
  · right
    obtain ⟨hz, hall⟩ := hlow hreach
    have hbest : bestAgree nodes key < nquorumOf pfsNmasters := by
      rcases Nat.eq_zero_or_pos (bestAgree nodes key) with hb | hb
      · omega
      · obtain ⟨tid, htid, hag⟩ := best_attained hclean hb
        rw [← hag]
        exact hall tid htid
    refine ⟨hbest, ?_⟩
    rw [if_pos hreach, hround.nmasters, hz, hround.umasters, hround.keymatch]
    split
    · rfl
    · split <;> rfl
  · left
    have hge := Nat.not_lt.mp hreach
    obtain ⟨c, hc, hkey⟩ := hround.focus (Nat.lt_of_lt_of_le hq hge)
    refine ⟨?_, ?_, ?_⟩
    · refine Nat.le_trans hge ?_
      rw [hround.nmasters]
      exact agree_le_best nodes key _
    · rw [if_neg hreach, hc]
      exact pass3_error hclean _ _
    · rw [if_neg hreach, hc]
      exact ⟨c, rfl, hkey⟩

/-- The error of a scan that has ended: the first one of an ended master. -/
def firstError (nodes : List Node) (error : Nat) : Nat :=
  nodes.foldl (fun e n => if n.ended ∧ e = 0 then n.item.error else e) error

/-- One round at the end of the scans counts the ended masters. -/
theorem tallyRound_null (nodes : List Node) (key bound : Nat) (focus : Option Chain)
    (error : Nat) :
    tallyRound nodes key true bound focus error =
      ⟨pendingCount nodes, endedCount nodes, endedCount nodes, 0, focus,
        firstError nodes error⟩ := by
  have hfold : ∀ (l : List Node) (u m k e : Nat),
      l.foldl (tallyNode key true bound) ⟨u, m, k, 0, focus, e⟩ =
        ⟨u + pendingCount l, m + endedCount l, k + endedCount l, 0, focus, firstError l e⟩ := by
    intro l
    induction l with
    | nil => exact fun _ _ _ _ => rfl
    | cons n l ih =>
        intro u m k e
        rw [List.foldl_cons]
        unfold endedCount pendingCount firstError at *
        cases hm : n.type.isMaster with
        | false =>
            simp only [tallyNode, hm, Bool.false_eq_true, if_false, ih, List.countP_cons,
              Node.ended, Node.pending, Bool.false_and, Nat.add_zero, List.foldl_cons, false_and]
        | true =>
            cases hc : n.item.chain with
            | some c =>
                simp only [tallyNode, hm, hc, if_true, Bool.true_eq_false, false_and, if_false, ih,
                  List.countP_cons, Node.ended, Node.pending, Option.isNone_some, Bool.and_false,
                  Bool.false_and, Bool.false_eq_true, Nat.add_zero, List.foldl_cons]
            | none =>
                cases hn : n.item.null with
                | false =>
                    simp only [tallyNode, hm, hc, hn, if_true, ih, List.countP_cons, Node.ended,
                      Node.pending, Option.isNone_none, Bool.and_false, Bool.true_and,
                      Bool.not_false, Bool.false_eq_true, if_false, Nat.add_zero, List.foldl_cons,
                      false_and, Tally.mk.injEq, and_self, and_true]
                    exact Nat.add_right_comm u 1 _
                | true =>
                    simp only [tallyNode, hm, hc, hn, if_true, Bool.true_eq_false, if_false, ih,
                      List.countP_cons, Node.ended, Node.pending, Option.isNone_none,
                      Bool.and_true, Bool.not_true, Bool.and_false,
                      Bool.false_eq_true, Nat.add_zero, List.foldl_cons, true_and, Tally.mk.injEq,
                      and_true]
                    exact ⟨Nat.add_right_comm m 1 _, Nat.add_right_comm k 1 _⟩
  have h := hfold nodes 0 0 0 error
  simp only [Nat.zero_add] at h
  exact h

/-- **The verdict at the end of the scans.** -/
theorem clusterCheck_checkNull (pfsNmasters : Nat) (nodes : List Node) (key : Nat) :
    (clusterCheck pfsNmasters nodes key true).1 =
      if nquorumOf pfsNmasters ≤ endedCount nodes then
        if firstError nodes (pass1 nodes).2 = 0 then errorEnoent
        else firstError nodes (pass1 nodes).2
      else if nquorumOf pfsNmasters ≤ endedCount nodes + pendingCount nodes then errorEinprogress
      else errorEsrch := by
  have hloop : quorumLoop nodes key true (nquorumOf pfsNmasters) (nodes.length + 1) tidMax
      ⟨0, 0, 0, 0, (pass1 nodes).1, (pass1 nodes).2⟩ =
      tallyRound nodes key true tidMax (pass1 nodes).1 (pass1 nodes).2 := by
    have hstop : quorumLoop nodes key true (nquorumOf pfsNmasters) nodes.length 0
        (tallyRound nodes key true tidMax (pass1 nodes).1 (pass1 nodes).2) =
        tallyRound nodes key true tidMax (pass1 nodes).1 (pass1 nodes).2 := by
      cases nodes.length <;> simp [quorumLoop]
    rw [quorumLoop]
    have htid : (tallyRound nodes key true tidMax (pass1 nodes).1 (pass1 nodes).2).quorumTid = 0 := by
      rw [tallyRound_null]
    simp only [htid, hstop, ite_self]
    exact if_pos ⟨nquorumOf_pos pfsNmasters, by decide⟩
  unfold clusterCheck
  simp only [hloop, tallyRound_null]
  by_cases he : nquorumOf pfsNmasters ≤ endedCount nodes
  · rw [if_neg (Nat.not_lt.mpr he), if_pos he, if_pos trivial]
  · rw [if_pos (Nat.not_le.mp he), if_neg he]
    by_cases hw : nquorumOf pfsNmasters ≤ endedCount nodes + pendingCount nodes
    · rw [if_pos hw, if_pos hw]
    · rw [if_neg hw, if_neg hw, if_pos (Nat.not_le.mp he)]

/-- The error of a scan that has ended is one the masters present. -/
theorem firstError_of_masters {P : Nat → Prop} :
    ∀ {nodes : List Node} {error : Nat}, P error →
      (∀ n ∈ nodes, n.type.isMaster = true → P n.item.error) → P (firstError nodes error)
  | [], _, h, _ => h
  | n :: l, error, h, hall => by
      rw [firstError, List.foldl_cons]
      refine firstError_of_masters ?_ fun m hm => hall m (List.mem_cons_of_mem _ hm)
      split
      case isTrue hn =>
        refine hall n (List.mem_cons_self ..) ?_
        have hended := hn.1
        simp only [Node.ended, Bool.and_eq_true] at hended
        exact hended.1.1
      case isFalse => exact h

/-- Without an error in the end no ended master has one. -/
theorem firstError_zero : ∀ {nodes : List Node} {error : Nat}, firstError nodes error = 0 →
    error = 0 ∧ ∀ n ∈ nodes, n.ended = true → n.item.error = 0
  | [], _, h => ⟨h, fun _ hm => absurd hm List.not_mem_nil⟩
  | n :: l, error, h => by
      rw [firstError, List.foldl_cons] at h
      obtain ⟨hn, hl⟩ := firstError_zero h
      refine ⟨?_, fun m hm hended => ?_⟩
      · split at hn
        case isTrue hz => exact hz.2
        case isFalse => exact hn
      · rcases List.mem_cons.mp hm with rfl | hm
        · split at hn
          case isTrue => exact hn
          case isFalse hz => exact absurd ⟨hended, hn⟩ hz
        · exact hl m hm hended

theorem firstError_clean {nodes : List Node} (hclean : Clean nodes) : firstError nodes 0 = 0 :=
  firstError_of_masters (P := fun e => e = 0) rfl fun n hn _ => (hclean n hn).1

/-- The verdict at the end of the scans, without errors. -/
theorem clusterCheck_null {nodes : List Node} (pfsNmasters key : Nat) (hclean : Clean nodes) :
    (clusterCheck pfsNmasters nodes key true).1 =
      if nquorumOf pfsNmasters ≤ endedCount nodes then errorEnoent
      else if nquorumOf pfsNmasters ≤ endedCount nodes + pendingCount nodes then errorEinprogress
      else errorEsrch := by
  rw [clusterCheck_checkNull, pass1_error hclean, firstError_clean hclean, if_pos rfl]

/-! ## When the verdict is right -/

/-- Masters still in progress could complete a quorum: for the key, or at the
end of the scans. -/
def Possible (nquorum : Nat) (nodes : List Node) (key : Nat) (checkNull : Bool) : Prop :=
  if checkNull then nquorum ≤ endedCount nodes + pendingCount nodes
  else ∃ tid < tidMax, nquorum ≤ agree nodes key tid + pendingCount nodes

/-- A verdict skips a key only when no quorum can come, and waits only when one
can. -/
structure VerdictRight (pfsNmasters : Nat) (nodes : List Node) (key : Nat) (checkNull : Bool) :
    Prop where
  skip : ((clusterCheck pfsNmasters nodes key checkNull).1 = errorEsrch ∨
      (clusterCheck pfsNmasters nodes key checkNull).1 = errorEdeadlk) →
    ¬ Possible (nquorumOf pfsNmasters) nodes key checkNull
  wait : (clusterCheck pfsNmasters nodes key checkNull).1 = errorEinprogress →
    Possible (nquorumOf pfsNmasters) nodes key checkNull

/-- The condition: the scans have ended, or the key has its quorum, or those
still in progress reach it with the masters of id 0 alone, or nobody can. -/
def CheckOk (nquorum : Nat) (nodes : List Node) (key : Nat) (checkNull : Bool) : Prop :=
  checkNull = true ∨ nquorum ≤ bestAgree nodes key ∨
    nquorum ≤ agree nodes key 0 + pendingCount nodes ∨
    bestAgree nodes key + pendingCount nodes < nquorum

instance (nquorum : Nat) (nodes : List Node) (key : Nat) (checkNull : Bool) :
    Decidable (CheckOk nquorum nodes key checkNull) := inferInstanceAs (Decidable (_ ∨ _))

theorem possible_iff {nodes : List Node} {key : Nat} (nquorum : Nat) (hclean : Clean nodes) :
    Possible nquorum nodes key false ↔ nquorum ≤ bestAgree nodes key + pendingCount nodes := by
  unfold Possible
  constructor
  · rintro ⟨tid, -, hge⟩
    have := agree_le_best nodes key tid
    omega
  · intro hge
    rcases Nat.eq_zero_or_pos (bestAgree nodes key) with hz | hpos
    · exact ⟨0, by decide, by omega⟩
    · obtain ⟨tid, htid, hag⟩ := best_attained hclean hpos
      exact ⟨tid, htid, by omega⟩

/-- **The verdict is right exactly under the condition**, without errors. -/
theorem clusterCheck_right_iff {nodes : List Node} (pfsNmasters key : Nat) (checkNull : Bool)
    (hclean : Clean nodes) :
    VerdictRight pfsNmasters nodes key checkNull ↔
      CheckOk (nquorumOf pfsNmasters) nodes key checkNull := by
  cases checkNull with
  | true =>
      refine ⟨fun _ => Or.inl rfl, fun _ => ?_⟩
      have hv := clusterCheck_null pfsNmasters key hclean
      have hposs : Possible (nquorumOf pfsNmasters) nodes key true ↔
          nquorumOf pfsNmasters ≤ endedCount nodes + pendingCount nodes := Iff.rfl
      constructor
      · rw [hv, hposs]
        intro h
        split at h
        · rcases h with h | h <;> cases h
        · split at h
          · rcases h with h | h <;> cases h
          · assumption
      · rw [hv, hposs]
        intro h
        split at h
        · cases h
        · split at h
          · assumption
          · cases h
  | false =>
      have hposs := @possible_iff _ key (nquorumOf pfsNmasters) hclean
      rcases clusterCheck_key pfsNmasters key hclean with ⟨hreach, hv, -⟩ | ⟨hlow, hv⟩
      · -- A quorum is found: the verdict neither skips nor waits.
        refine ⟨fun _ => Or.inr (Or.inl hreach), fun _ => ⟨?_, ?_⟩⟩
        · rw [hv]
          rintro (h | h) <;> cases h
        · rw [hv]
          intro h
          cases h
      · have hag := agree_le_best nodes key 0
        constructor
        · rintro ⟨hskip, -⟩
          by_cases hwait : nquorumOf pfsNmasters ≤ agree nodes key 0 + pendingCount nodes
          · exact Or.inr (Or.inr (Or.inl hwait))
          · have hno := hskip (by
              rw [hv, if_neg hwait]
              split
              · exact Or.inl rfl
              · exact Or.inr rfl)
            rw [hposs] at hno
            exact Or.inr (Or.inr (Or.inr (Nat.not_le.mp hno)))
        · rintro (h | h | h | h)
          · cases h
          · omega
          · refine ⟨?_, fun _ => hposs.mpr (by omega)⟩
            rw [hv, if_pos h]
            rintro (h | h) <;> cases h
          · refine ⟨fun _ => ?_, ?_⟩
            · rw [hposs]
              omega
            · rw [hv, if_neg (by omega)]
              intro h
              split at h <;> cases h

end Hammer2.Xop
