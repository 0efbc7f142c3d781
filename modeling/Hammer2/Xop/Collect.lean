/-
# `Hammer2.Xop.Collect` — the keys a cluster scan returns

The nodes of a cluster feed streams of chains with increasing keys, each ended
by a `NULL`; the frontend calls `hammer2_xop_collect` again and again.  One
`collect` event is one round of its loop: advance every node that is behind
`collect_key`, take the lowest key, ask `clusterCheck`.  The queues of the
nodes are taken as plain lists here.

A key has a quorum when enough masters hold it with one id in their *streams*
(`IsQuorum`).  In every run whose rounds meet `RoundOk` the keys returned are
the quorum keys below `collect_key`, in order (`run_inv`), so two runs on the
same streams that both reach the end return the same keys, however the feeds
were interleaved (`collect_independent`).  Outside the condition a key is
skipped because a master was late (`late_master_skips_key`).
-/
import Hammer2.Xop.Quorum
import Hammer2.Lib.Machine

namespace Hammer2.Xop.Collect

open Machine

/-! ## The machine -/

/-- A node: what it will feed, what it has fed, and its element of the cluster.
`stream` is all it feeds in a run; `fedEnd` says that it fed the final `NULL`. -/
structure NodeState where
  type : PfsType
  stream : List Chain
  todo : List Chain
  fedEnd : Bool
  queue : List (Option Chain × Nat)
  item : ClusterItem

structure State where
  pfsNmasters : Nat
  nodes : List NodeState
  collectKey : Nat
  out : List Nat
  result : Option Nat

/-- The types and the streams of the nodes of a scan. -/
abbrev Config := List (PfsType × List Chain)

def init (pfsNmasters : Nat) (cfg : Config) : State where
  pfsNmasters := pfsNmasters
  nodes := cfg.map fun (type, stream) => ⟨type, stream, stream, false, [], ⟨none, 0, false⟩⟩
  collectKey := 0
  out := []
  result := none

/-- A node feeds its next result. -/
def NodeState.feed (n : NodeState) : NodeState :=
  match n.todo with
  | c :: todo => { n with todo := todo, queue := n.queue ++ [(some c, 0)] }
  | [] => if n.fedEnd then n else { n with fedEnd := true, queue := n.queue ++ [(none, 0)] }

/-- The element is behind `collect_key`. -/
def behind (collectKey : Nat) (item : ClusterItem) : Bool :=
  match item.chain with
  | none => true
  | some c => decide (c.key < collectKey)

/-- The advance loop on one node: elements behind `collect_key` are replaced by
the next fed one; an element that stays `NULL` keeps its end-of-scan flag. -/
def advanceItem (collectKey : Nat) :
    ClusterItem → List (Option Chain × Nat) → ClusterItem × List (Option Chain × Nat)
  | item, [] => if behind collectKey item then ({ item with chain := none }, []) else (item, [])
  | item, x :: queue =>
      if behind collectKey item then
        advanceItem collectKey ⟨x.1, x.2, item.null || x.1.isNone⟩ queue
      else (item, x :: queue)

def NodeState.advance (collectKey : Nat) (n : NodeState) : NodeState :=
  { n with
    item := (advanceItem collectKey n.item n.queue).1
    queue := (advanceItem collectKey n.item n.queue).2 }

/-- The node as `clusterCheck` sees it. -/
def NodeState.toNode (n : NodeState) : Node := ⟨n.type, n.item⟩

/-- `lokey` and `keynull` after the advance loop. -/
def lokeyOf (nodes : List NodeState) : Nat :=
  (nodes.filterMap fun n => n.item.chain.map Chain.key).foldr min keyMax

def keynullOf (nodes : List NodeState) : Bool := nodes.all fun n => n.item.chain.isNone

/-- The nodes as the check of this round sees them. -/
def State.advanced (s : State) : List NodeState := s.nodes.map (NodeState.advance s.collectKey)

/-- With `HAMMER2_XOP_COLLECT_WAITALL` the round waits for every node to be done. -/
def State.waiting (s : State) (waitAll : Bool) : Prop :=
  waitAll = true ∧ ∃ n ∈ s.advanced, n.fedEnd = false

instance (s : State) (waitAll : Bool) : Decidable (s.waiting waitAll) :=
  inferInstanceAs (Decidable (_ ∧ _))

/-- The verdict of this round. -/
def State.verdict (s : State) (waitAll : Bool) : Nat × Option Chain :=
  if s.waiting waitAll then (errorEinprogress, none)
  else clusterCheck s.pfsNmasters (s.advanced.map NodeState.toNode) (lokeyOf s.advanced)
    (keynullOf s.advanced)

/-- What a round does with its verdict. -/
def State.apply (s : State) (v : Nat × Option Chain) : State :=
  let lokey := lokeyOf s.advanced
  if v.1 = errorEinprogress then { s with nodes := s.advanced }
  else if (v.1 = errorEsrch ∨ v.1 = errorEdeadlk) ∧ lokey ≠ keyMax then
    { s with nodes := s.advanced, collectKey := lokey + 1 }
  else
    let error := if v.1 = errorEsrch then errorEnoent else v.1
    { s with
      nodes := s.advanced
      collectKey := if lokey = keyMax then lokey else lokey + 1
      out := if error = 0 then s.out ++ (v.2.map Chain.key).toList else s.out
      result := if error = 0 then s.result else some error }

/-- One round of the loop of `hammer2_xop_collect`. -/
def collectRound (s : State) (waitAll : Bool) : State := s.apply (s.verdict waitAll)

inductive Event where
  | feed (i : Nat)
  | collect (waitAll : Bool)

def step (s : State) : Event → Option State
  | .feed i => some { s with nodes := s.nodes.modify i NodeState.feed }
  | .collect waitAll => if s.result = none then some (collectRound s waitAll) else none

/-! ## What is to be returned -/

/-- Masters whose stream holds the key with the id. -/
def holders (cfg : Config) (key tid : Nat) : Nat :=
  cfg.countP fun n => n.1.isMaster && n.2.any fun c => c.key = key ∧ c.modifyTid = tid

/-- Enough masters hold the key with one id. -/
def IsQuorum (pfsNmasters : Nat) (cfg : Config) (key : Nat) : Prop :=
  ∃ tid, nquorumOf pfsNmasters ≤ holders cfg key tid

/-- The streams of a scan: increasing keys, no errors, keys and ids below the
largest. -/
def StreamsOk (cfg : Config) : Prop :=
  ∀ n ∈ cfg, n.2.Pairwise (fun c d => c.key < d.key) ∧
    ∀ c ∈ n.2, c.key < keyMax ∧ c.modifyTid < tidMax ∧ c.error = 0

/-- The condition on a round, in the state the check sees: when there is a
quorum, for the key or for the end of the scans, fewer masters than a quorum are
still in progress; when there is none, those in progress reach it with the
masters of id 0 alone, or cannot reach it at all. -/
def RoundOk (s : State) : Prop :=
  let nodes := s.advanced.map NodeState.toNode
  let nquorum := nquorumOf s.pfsNmasters
  if keynullOf s.advanced then nquorum ≤ endedCount nodes → pendingCount nodes < nquorum
  else (nquorum ≤ bestAgree nodes (lokeyOf s.advanced) ∧ pendingCount nodes < nquorum) ∨
    (bestAgree nodes (lokeyOf s.advanced) < nquorum ∧
      (nquorum ≤ agree nodes (lokeyOf s.advanced) 0 + pendingCount nodes ∨
        bestAgree nodes (lokeyOf s.advanced) + pendingCount nodes < nquorum))

instance (s : State) : Decidable (RoundOk s) := by
  delta RoundOk
  infer_instance

def Ok (s : State) : Event → Prop
  | .feed _ => True
  | .collect waitAll => ¬ s.waiting waitAll → RoundOk s

instance (s : State) : ∀ ev, Decidable (Ok s ev)
  | .feed _ => inferInstanceAs (Decidable True)
  | .collect waitAll => inferInstanceAs (Decidable (¬ s.waiting waitAll → RoundOk s))

/-- The keys returned so far are the quorum keys below `collect_key`, in order,
and after the end there is none left. -/
structure Collected (pfsNmasters : Nat) (cfg : Config) (s : State) : Prop where
  increasing : s.out.Pairwise (· < ·)
  exact : ∀ k, k ∈ s.out ↔ IsQuorum pfsNmasters cfg k ∧ k < s.collectKey
  ended : s.result ≠ none → ∀ k, IsQuorum pfsNmasters cfg k → k < s.collectKey

/-! ## One node -/

/-- What a node holds: its stream is what is done with (`pre`, all below
`collect_key`), its element, its queue (`cs`) and what it still has to feed. -/
structure NodeInv (collectKey : Nat) (n : NodeState) (pre cs : List Chain) : Prop where
  stream : n.stream = pre ++ n.item.chain.toList ++ cs ++ n.todo
  pre_lt : ∀ c ∈ pre, c.key < collectKey
  queue : n.queue = cs.map (fun c => (some c, 0)) ++
    if n.fedEnd && !n.item.null then [(none, 0)] else []
  fedEnd : n.fedEnd = true → n.todo = []
  null : n.item.null = true → n.fedEnd = true ∧ cs = [] ∧ n.item.chain = none
  error : n.item.error = 0

theorem NodeInv.mono {k k' : Nat} {n : NodeState} {pre cs : List Chain} (h : NodeInv k n pre cs)
    (hle : k ≤ k') : NodeInv k' n pre cs :=
  { h with pre_lt := fun c hc => Nat.lt_of_lt_of_le (h.pre_lt c hc) hle }

theorem NodeInv.feed {k : Nat} {n : NodeState} {pre cs : List Chain} (h : NodeInv k n pre cs) :
    ∃ cs', NodeInv k n.feed pre cs' := by
  unfold NodeState.feed
  cases htodo : n.todo with
  | cons c todo =>
      have hfe : n.fedEnd = false := by
        cases hfe : n.fedEnd with
        | false => rfl
        | true =>
            have := h.fedEnd hfe
            rw [htodo] at this
            cases this
      have hnull : n.item.null = false := by
        cases hn : n.item.null with
        | false => rfl
        | true =>
            rw [(h.null hn).1] at hfe
            cases hfe
      refine ⟨cs ++ [c], ?_, h.pre_lt, ?_, fun hf => absurd hf (by rw [hfe]; decide),
        fun hn => absurd hn (by rw [hnull]; decide), h.error⟩
      · show n.stream = pre ++ n.item.chain.toList ++ (cs ++ [c]) ++ todo
        rw [h.stream, htodo]
        simp
      · show n.queue ++ [(some c, 0)] = (cs ++ [c]).map (fun c => (some c, 0)) ++ _
        rw [h.queue, hfe]
        simp
  | nil =>
      simp only
      split
      · exact ⟨cs, h⟩
      · rename_i hfe
        have hnull : n.item.null = false := by
          cases hn : n.item.null with
          | false => rfl
          | true => exact absurd (h.null hn).1 hfe
        refine ⟨cs, ?_, h.pre_lt, ?_, fun _ => rfl, fun hn => absurd hn (by rw [hnull]; decide),
          h.error⟩
        · show n.stream = pre ++ n.item.chain.toList ++ cs ++ []
          rw [h.stream, htodo]
        · show n.queue ++ [(none, 0)] = cs.map (fun c => (some c, 0)) ++
            if true && !n.item.null then [(none, 0)] else []
          rw [h.queue, hnull]
          simp [Bool.not_eq_true _ ▸ hfe]

/-- After the advance loop the element is at or beyond `collect_key`, or it is
`NULL` and nothing is left in the queue. -/
structure Advanced (collectKey : Nat) (n : NodeState) : Prop where
  ge : ∀ c, n.item.chain = some c → collectKey ≤ c.key
  drained : n.item.chain = none → n.queue = []

/-- **The advance loop** keeps what a node holds. -/
theorem advance_spec {k : Nat} : ∀ (queue : List (Option Chain × Nat)) (n : NodeState)
    (pre cs : List Chain), n.queue = queue → NodeInv k n pre cs →
    ∃ pre' cs', NodeInv k (n.advance k) pre' cs' ∧ Advanced k (n.advance k) := by
  intro queue
  induction queue with
  | nil =>
      intro n pre cs hq h
      have hcs : cs = [] ∧ (n.fedEnd && !n.item.null) = false := by
        have hqueue := h.queue
        rw [hq] at hqueue
        obtain ⟨h1, h2⟩ := List.append_eq_nil_iff.mp hqueue.symm
        refine ⟨List.map_eq_nil_iff.mp h1, ?_⟩
        cases hb : n.fedEnd && !n.item.null with
        | false => rfl
        | true =>
            rw [hb] at h2
            cases h2
      cases hb : behind k n.item with
      | true =>
          have hadv : n.advance k = { n with item := { n.item with chain := none }, queue := [] } := by
            simp [NodeState.advance, hq, advanceItem, hb]
          rw [hadv]
          refine ⟨pre ++ n.item.chain.toList, [], ⟨?_, ?_, ?_, h.fedEnd, ?_, h.error⟩,
            ⟨fun c hc => ?_, fun _ => rfl⟩⟩
          · rw [h.stream, hcs.1]
            simp
          · intro c hc
            rcases List.mem_append.mp hc with hc | hc
            · exact h.pre_lt c hc
            · have hch : n.item.chain = some c := by simpa using hc
              simpa [behind, hch] using hb
          · simp [hcs.2]
          · intro hn
            exact ⟨(h.null hn).1, rfl, rfl⟩
          · cases hc
      | false =>
          have hadv : n.advance k = n := by
            simp [NodeState.advance, hq, advanceItem, hb]
            cases n
            simp_all
          rw [hadv]
          refine ⟨pre, cs, h, ⟨fun c hc => ?_, fun hc => ?_⟩⟩
          · simpa [behind, hc] using hb
          · simp [behind, hc] at hb
  | cons x queue ih =>
      intro n pre cs hq h
      cases hb : behind k n.item with
      | false =>
          have hadv : n.advance k = n := by
            simp [NodeState.advance, hq, advanceItem, hb]
            cases n
            simp_all
          rw [hadv]
          refine ⟨pre, cs, h, ⟨fun c hc => ?_, fun hc => ?_⟩⟩
          · simpa [behind, hc] using hb
          · simp [behind, hc] at hb
      | true =>
          -- The element is replaced by the head of the queue.
          have hnull : n.item.null = false := by
            cases hn : n.item.null with
            | false => rfl
            | true =>
                have hqueue := h.queue
                rw [hq, (h.null hn).2.1, hn] at hqueue
                simp at hqueue
          let n' : NodeState :=
            { n with item := ⟨x.1, x.2, n.item.null || x.1.isNone⟩, queue := queue }
          have hadv : n.advance k = n'.advance k := by
            simp [NodeState.advance, hq, advanceItem, hb, n']
          rw [hadv]
          have hpre : ∀ c ∈ pre ++ n.item.chain.toList, c.key < k := by
            intro c hc
            rcases List.mem_append.mp hc with hc | hc
            · exact h.pre_lt c hc
            · have hch : n.item.chain = some c := by simpa using hc
              simpa [behind, hch] using hb
          have hqueue := h.queue
          rw [hq, hnull] at hqueue
          cases cs with
          | cons c cs =>
              rw [List.map_cons, List.cons_append] at hqueue
              obtain ⟨rfl, hrest⟩ := List.cons.inj hqueue
              refine ih n' (pre ++ n.item.chain.toList) cs rfl ⟨?_, hpre, ?_, h.fedEnd, ?_, rfl⟩
              · show n.stream = _ ++ [c] ++ cs ++ n.todo
                rw [h.stream]
                simp
              · show queue = _ ++ if n.fedEnd && !(n.item.null || false) then _ else _
                rw [hrest, hnull]
                rfl
              · intro hn
                simp [n', hnull] at hn
          | nil =>
              have hend : n.fedEnd = true ∧ x = (none, 0) ∧ queue = [] := by
                cases hfe : n.fedEnd with
                | false =>
                    rw [hfe] at hqueue
                    simp at hqueue
                | true =>
                    rw [hfe] at hqueue
                    simp only [List.map_nil, List.nil_append, Bool.not_false, Bool.and_self,
                      if_true, List.cons.injEq] at hqueue
                    exact ⟨rfl, hqueue⟩
              obtain ⟨hfe, rfl, rfl⟩ := hend
              refine ih n' (pre ++ n.item.chain.toList) [] rfl ⟨?_, hpre, ?_, h.fedEnd, ?_, rfl⟩
              · show n.stream = _ ++ [] ++ [] ++ n.todo
                rw [h.stream]
                simp
              · simp [n']
              · exact fun _ => ⟨hfe, rfl, rfl⟩

/-- Where a chain of the stream that is not behind `collect_key` can be: it is
the element, or after it, or still to be fed by a node in progress. -/
theorem NodeInv.holds_cases {k : Nat} {n : NodeState} {pre cs : List Chain}
    (h : NodeInv k n pre cs)
    (hsorted : n.stream.Pairwise (fun c d => c.key < d.key)) {c : Chain} (hc : c ∈ n.stream)
    (hk : k ≤ c.key) :
    (∃ d, n.item.chain = some d ∧ (c = d ∨ d.key < c.key)) ∨
      (n.item.chain = none ∧ n.item.null = false) := by
  cases hch : n.item.chain with
  | some d =>
      left
      refine ⟨d, rfl, ?_⟩
      rw [h.stream, hch] at hc hsorted
      simp only [Option.toList_some, List.append_assoc, List.cons_append, List.nil_append]
        at hc hsorted
      rw [List.pairwise_append, List.pairwise_cons] at hsorted
      rcases List.mem_append.mp hc with hc | hc
      · exact absurd (h.pre_lt c hc) (Nat.not_lt.mpr hk)
      · cases hc with
        | head => exact Or.inl rfl
        | tail _ hc => exact Or.inr (hsorted.2.1.1 c hc)
  | none =>
      right
      refine ⟨rfl, ?_⟩
      cases hn : n.item.null with
      | false => rfl
      | true =>
          -- An ended node has nothing beyond `collect_key`.
          obtain ⟨hfe, hcs, -⟩ := h.null hn
          rw [h.stream, hch, hcs, h.fedEnd hfe] at hc
          simp only [Option.toList_none, List.append_nil] at hc
          exact absurd (h.pre_lt c hc) (Nat.not_lt.mpr hk)

/-! ## All nodes -/

theorem countP_le_add {α : Type} {p q r : α → Bool} {l : List α}
    (h : ∀ a ∈ l, p a = true → q a = true ∨ r a = true) :
    l.countP p ≤ l.countP q + l.countP r := by
  induction l with
  | nil => exact Nat.le_refl _
  | cons a l ih =>
      have hrest := ih fun b hb => h b (List.mem_cons_of_mem _ hb)
      have ha := h a (List.mem_cons_self ..)
      rw [List.countP_cons, List.countP_cons, List.countP_cons]
      split
      · rename_i hp
        rcases ha hp with hq | hr
        · rw [if_pos hq]
          omega
        · rw [if_pos hr]
          omega
      · omega

/-- The node is a master whose stream holds the key with the id. -/
def NodeState.holds (key tid : Nat) (n : NodeState) : Bool :=
  n.type.isMaster && n.stream.any fun c => c.key = key ∧ c.modifyTid = tid

/-- The configuration a state runs on. -/
def configOf (nodes : List NodeState) : Config := nodes.map fun n => (n.type, n.stream)

theorem holders_configOf (nodes : List NodeState) (key tid : Nat) :
    holders (configOf nodes) key tid = nodes.countP (NodeState.holds key tid) := by
  rw [holders, configOf, List.countP_map]
  rfl

/-- What the nodes of a round satisfy once they have been advanced. -/
structure NodesOk (k : Nat) (nodes : List NodeState) : Prop where
  inv : ∀ n ∈ nodes, ∃ pre cs, NodeInv k n pre cs
  advanced : ∀ n ∈ nodes, Advanced k n
  streams : StreamsOk (configOf nodes)

theorem NodesOk.stream {k : Nat} {nodes : List NodeState} (h : NodesOk k nodes) {n : NodeState}
    (hn : n ∈ nodes) : n.stream.Pairwise (fun c d => c.key < d.key) ∧
      ∀ c ∈ n.stream, c.key < keyMax ∧ c.modifyTid < tidMax ∧ c.error = 0 :=
  h.streams (n.type, n.stream) (List.mem_map.mpr ⟨n, hn, rfl⟩)

/-- An element is a chain of its stream. -/
theorem NodesOk.item_mem {k : Nat} {nodes : List NodeState} (h : NodesOk k nodes) {n : NodeState}
    (hn : n ∈ nodes) {c : Chain} (hc : n.item.chain = some c) : c ∈ n.stream := by
  obtain ⟨pre, cs, hinv⟩ := h.inv n hn
  rw [hinv.stream, hc]
  simp

theorem NodesOk.clean {k : Nat} {nodes : List NodeState} (h : NodesOk k nodes) :
    Clean (nodes.map NodeState.toNode) := by
  intro m hm
  obtain ⟨n, hn, rfl⟩ := List.mem_map.mp hm
  obtain ⟨pre, cs, hinv⟩ := h.inv n hn
  refine ⟨hinv.error, fun c hc => ?_⟩
  obtain ⟨-, ht, he⟩ := (h.stream hn).2 c (h.item_mem hn hc)
  exact ⟨he, ht⟩

theorem lokey_le {nodes : List NodeState} {n : NodeState} {c : Chain} (hn : n ∈ nodes)
    (hc : n.item.chain = some c) : lokeyOf nodes ≤ c.key := by
  have hmem : c.key ∈ nodes.filterMap fun n => n.item.chain.map Chain.key :=
    List.mem_filterMap.mpr ⟨n, hn, by rw [hc]; rfl⟩
  have hfold : ∀ {l : List Nat} {x : Nat}, x ∈ l → l.foldr min keyMax ≤ x := by
    intro l
    induction l with
    | nil => intro x hx; cases hx
    | cons y l ih =>
        intro x hx
        cases hx with
        | head => exact Nat.min_le_left _ _
        | tail _ hx => exact Nat.le_trans (Nat.min_le_right _ _) (ih hx)
  exact hfold hmem

/-- Some element has the lowest key, unless all are `NULL`. -/
theorem lokey_attained {nodes : List NodeState} (hkeys : ∀ n ∈ nodes, ∀ c, n.item.chain = some c → c.key < keyMax)
    (hnull : keynullOf nodes = false) :
    ∃ n ∈ nodes, ∃ c, n.item.chain = some c ∧ c.key = lokeyOf nodes := by
  have hfold : ∀ l : List Nat, l.foldr min keyMax = keyMax ∨ l.foldr min keyMax ∈ l := by
    intro l
    induction l with
    | nil => exact Or.inl rfl
    | cons y l ih =>
        rw [List.foldr_cons]
        rcases Nat.le_total y (l.foldr min keyMax) with hle | hle
        · rw [Nat.min_eq_left hle]
          exact Or.inr (List.mem_cons_self ..)
        · rw [Nat.min_eq_right hle]
          exact ih.imp id (List.mem_cons_of_mem _)
  obtain ⟨n, hn, hsome⟩ : ∃ n ∈ nodes, ¬ n.item.chain = none := by
    simpa [keynullOf] using hnull
  obtain ⟨c, hc⟩ : ∃ c, n.item.chain = some c := Option.ne_none_iff_exists'.mp hsome
  have hlt : lokeyOf nodes < keyMax := Nat.lt_of_le_of_lt (lokey_le hn hc) (hkeys n hn c hc)
  rcases hfold (nodes.filterMap fun n => n.item.chain.map Chain.key) with heq | hmem
  · exact absurd heq (Nat.ne_of_lt hlt)
  · obtain ⟨m, hm, hkey⟩ := List.mem_filterMap.mp hmem
    obtain ⟨d, hd, hdk⟩ := Option.map_eq_some_iff.mp hkey
    exact ⟨m, hm, d, hd, hdk⟩

theorem NodesOk.lokey_lt {k : Nat} {nodes : List NodeState} (h : NodesOk k nodes)
    (hnull : keynullOf nodes = false) : k ≤ lokeyOf nodes ∧ lokeyOf nodes < keyMax := by
  have hkeys : ∀ n ∈ nodes, ∀ c, n.item.chain = some c → c.key < keyMax := fun n hn c hc =>
    ((h.stream hn).2 c (h.item_mem hn hc)).1
  obtain ⟨n, hn, c, hc, hkey⟩ := lokey_attained hkeys hnull
  rw [← hkey]
  exact ⟨(h.advanced n hn).ge c hc, hkeys n hn c hc⟩

/-- A master that holds a key not behind `collect_key`, and not beyond the
lowest one presented, presents it or is still in progress. -/
theorem NodesOk.holders_le {k key tid : Nat} {nodes : List NodeState} (h : NodesOk k nodes)
    (hk : k ≤ key) (hlo : key ≤ lokeyOf nodes) :
    holders (configOf nodes) key tid ≤
      agree (nodes.map NodeState.toNode) key tid + pendingCount (nodes.map NodeState.toNode) := by
  rw [holders_configOf, agree, pendingCount, List.countP_map, List.countP_map]
  refine countP_le_add fun n hn hh => ?_
  simp only [NodeState.holds, Bool.and_eq_true, List.any_eq_true, decide_eq_true_eq] at hh
  obtain ⟨hm, c, hc, hck, hct⟩ := hh
  obtain ⟨pre, cs, hinv⟩ := h.inv n hn
  rcases hinv.holds_cases (h.stream hn).1 hc (by omega) with
    ⟨d, hd, hcase⟩ | ⟨hnone, hnull⟩
  · left
    have hle := lokey_le hn hd
    rcases hcase with rfl | hgt
    · show n.toNode.agrees key tid = true
      rw [agrees_some hm hd]
      exact decide_eq_true ⟨Or.inr hck, hct⟩
    · omega
  · right
    simp [Node.pending, NodeState.toNode, hm, hnone, hnull]

/-- Masters that present a key hold it. -/
theorem NodesOk.agree_le {k key tid : Nat} {nodes : List NodeState} (h : NodesOk k nodes)
    (hkey : key < keyMax) :
    agree (nodes.map NodeState.toNode) key tid ≤ holders (configOf nodes) key tid := by
  rw [holders_configOf, agree, List.countP_map]
  refine List.countP_mono_left fun n hn hag => ?_
  have hag : n.toNode.agrees key tid = true := hag
  cases hc : n.item.chain with
  | none => simp [Node.agrees, NodeState.toNode, hc] at hag
  | some c =>
      have hm : n.type.isMaster = true := by
        simp only [Node.agrees, Bool.and_eq_true] at hag
        exact hag.1
      rw [agrees_some hm hc, decide_eq_true_iff] at hag
      simp only [NodeState.holds, hm, Bool.true_and, List.any_eq_true, decide_eq_true_eq]
      exact ⟨c, h.item_mem hn hc, hag.1.resolve_left (by omega), hag.2⟩

/-- Nobody presents a key below the lowest one. -/
theorem agree_below {key tid : Nat} {nodes : List NodeState} (hkey : key < keyMax)
    (hlo : key < lokeyOf nodes) : agree (nodes.map NodeState.toNode) key tid = 0 := by
  rw [agree, List.countP_map]
  refine List.countP_eq_zero.mpr fun n hn hag => ?_
  have hag : n.toNode.agrees key tid = true := hag
  cases hc : n.item.chain with
  | none => simp [Node.agrees, NodeState.toNode, hc] at hag
  | some c =>
      have hm : n.type.isMaster = true := by
        simp only [Node.agrees, Bool.and_eq_true] at hag
        exact hag.1
      rw [agrees_some hm hc, decide_eq_true_iff] at hag
      have := lokey_le hn hc
      rcases hag.1 with h | h <;> omega

/-- With fewer masters in progress than a quorum, no key before the lowest one
presented has a quorum. -/
theorem NodesOk.no_quorum_below {k key m : Nat} {nodes : List NodeState} (h : NodesOk k nodes)
    (hpend : pendingCount (nodes.map NodeState.toNode) < nquorumOf m)
    (hk : k ≤ key) (hkey : key < keyMax) (hlo : key < lokeyOf nodes) :
    ¬ IsQuorum m (configOf nodes) key := by
  rintro ⟨tid, hq⟩
  have hle := @NodesOk.holders_le _ _ tid _ h hk (Nat.le_of_lt hlo)
  rw [agree_below hkey hlo] at hle
  omega

/-- No key is as large as the largest. -/
theorem quorum_lt {m key : Nat} {cfg : Config} (hs : StreamsOk cfg) (h : IsQuorum m cfg key) :
    key < keyMax := by
  obtain ⟨tid, hq⟩ := h
  have hpos : 0 < holders cfg key tid := Nat.lt_of_lt_of_le (nquorumOf_pos m) hq
  obtain ⟨n, hn, hh⟩ := List.countP_pos_iff.mp hpos
  simp only [Bool.and_eq_true, List.any_eq_true, decide_eq_true_eq] at hh
  obtain ⟨-, c, hc, rfl, -⟩ := hh
  exact ((hs n hn).2 c hc).1

/-! ## The run -/

structure Inv (pfsNmasters : Nat) (cfg : Config) (s : State) : Prop where
  pfsNmasters_eq : s.pfsNmasters = pfsNmasters
  config : configOf s.nodes = cfg
  nodes : ∀ n ∈ s.nodes, ∃ pre cs, NodeInv s.collectKey n pre cs
  key_le : s.collectKey ≤ keyMax
  collected : Collected pfsNmasters cfg s

theorem init_inv (pfsNmasters : Nat) (cfg : Config) : Inv pfsNmasters cfg (init pfsNmasters cfg) where
  pfsNmasters_eq := rfl
  config := by
    show (cfg.map _).map _ = cfg
    rw [List.map_map]
    exact List.map_id _
  nodes := by
    intro n hn
    obtain ⟨c, hc, rfl⟩ := List.mem_map.mp hn
    refine ⟨[], [], ⟨rfl, fun _ h => absurd h List.not_mem_nil, rfl, ?_, ?_, rfl⟩⟩ <;>
      exact fun h => nomatch h
  key_le := Nat.zero_le _
  collected := ⟨List.Pairwise.nil, fun k => ⟨fun h => absurd h List.not_mem_nil,
    fun h => absurd h.2 (Nat.not_lt_zero k)⟩, fun h => absurd rfl h⟩

/-- The nodes of a round, advanced. -/
theorem Inv.nodesOk {m : Nat} {cfg : Config} {s : State} (h : Inv m cfg s) (hs : StreamsOk cfg) :
    NodesOk s.collectKey s.advanced ∧ configOf s.advanced = cfg := by
  have hcfg : configOf s.advanced = cfg := by
    rw [← h.config, configOf, configOf, State.advanced, List.map_map]
    rfl
  have hadv : ∀ n ∈ s.advanced, (∃ pre cs, NodeInv s.collectKey n pre cs) ∧
      Advanced s.collectKey n := by
    intro n hn
    obtain ⟨n₀, hn₀, rfl⟩ := List.mem_map.mp hn
    obtain ⟨pre, cs, hinv⟩ := h.nodes n₀ hn₀
    obtain ⟨pre', cs', hinv', ha⟩ := advance_spec n₀.queue n₀ pre cs rfl hinv
    exact ⟨⟨pre', cs', hinv'⟩, ha⟩
  exact ⟨⟨fun n hn => (hadv n hn).1, fun n hn => (hadv n hn).2, by rw [hcfg]; exact hs⟩, hcfg⟩

/-- A round that moves `collect_key` up to `k'`, past keys without a quorum
besides those it returns. -/
theorem Inv.advanceKey {m : Nat} {cfg : Config} {s : State} (h : Inv m cfg s)
    (hs : StreamsOk cfg) {k' : Nat} {new : List Nat} {result : Option Nat}
    (hle : s.collectKey ≤ k') (hmax : k' ≤ keyMax)
    (hnew : new.Pairwise (· < ·) ∧ ∀ k ∈ new, s.collectKey ≤ k)
    (hexact : ∀ k, s.collectKey ≤ k → (k ∈ new ↔ IsQuorum m cfg k ∧ k < k'))
    (hend : result ≠ none → ∀ k, IsQuorum m cfg k → k < k') :
    Inv m cfg { s with
      nodes := s.advanced, collectKey := k', out := s.out ++ new, result := result } := by
  obtain ⟨hok, hcfg⟩ := h.nodesOk hs
  refine ⟨h.pfsNmasters_eq, hcfg, fun n hn => ?_, hmax, ?_, fun k => ?_, hend⟩
  · obtain ⟨pre, cs, hinv⟩ := hok.inv n hn
    exact ⟨pre, cs, hinv.mono hle⟩
  · refine List.pairwise_append.mpr ⟨h.collected.increasing, hnew.1, fun a ha b hb => ?_⟩
    have h1 := ((h.collected.exact a).mp ha).2
    have h2 := hnew.2 b hb
    omega
  · show k ∈ s.out ++ new ↔ IsQuorum m cfg k ∧ k < k'
    rw [List.mem_append, h.collected.exact]
    rcases Nat.lt_or_ge k s.collectKey with hlt | hge
    · constructor
      · rintro (⟨hq, -⟩ | hin)
        · exact ⟨hq, by omega⟩
        · exact absurd (hnew.2 k hin) (Nat.not_le.mpr hlt)
      · exact fun hq => Or.inl ⟨hq.1, hlt⟩
    · rw [hexact k hge]
      constructor
      · rintro (⟨-, hlt⟩ | hq)
        · omega
        · exact hq
      · exact Or.inr

theorem Inv.wait {m : Nat} {cfg : Config} {s : State} (h : Inv m cfg s) (hs : StreamsOk cfg) :
    Inv m cfg { s with nodes := s.advanced } := by
  obtain ⟨hok, hcfg⟩ := h.nodesOk hs
  exact ⟨h.pfsNmasters_eq, hcfg, hok.inv, h.key_le, h.collected.increasing, h.collected.exact,
    h.collected.ended⟩

/-- Nothing is returned and no key from `collect_key` on has a quorum. -/
theorem Inv.skipTo {m : Nat} {cfg : Config} {s : State} (h : Inv m cfg s) (hs : StreamsOk cfg)
    {k' : Nat} {result : Option Nat} (hle : s.collectKey ≤ k') (hmax : k' ≤ keyMax)
    (hno : ∀ k, s.collectKey ≤ k → k < k' → ¬ IsQuorum m cfg k)
    (hend : result ≠ none → ∀ k, IsQuorum m cfg k → k < k') :
    Inv m cfg { s with nodes := s.advanced, collectKey := k', result := result } := by
  have hnil : ([] : List Nat).Pairwise (· < ·) ∧ ∀ k ∈ ([] : List Nat), s.collectKey ≤ k :=
    ⟨List.Pairwise.nil, fun k hk => absurd hk List.not_mem_nil⟩
  have hinv := h.advanceKey hs hle hmax hnil (fun k hk => ⟨fun hk => absurd hk List.not_mem_nil,
    fun hq => absurd hq.1 (hno k hk hq.2)⟩) hend
  rwa [List.append_nil] at hinv

theorem lokey_null {nodes : List NodeState} (hnull : keynullOf nodes = true) :
    lokeyOf nodes = keyMax := by
  have hnil : (nodes.filterMap fun n => n.item.chain.map Chain.key) = [] := by
    refine List.filterMap_eq_nil_iff.mpr fun n hn => ?_
    have hn' := List.all_eq_true.mp hnull n hn
    rw [Option.isNone_iff_eq_none.mp hn']
    rfl
  unfold lokeyOf
  rw [hnil]
  rfl

/-- A feed changes neither the type nor the stream of the node. -/
theorem feed_config (n : NodeState) : (n.feed.type, n.feed.stream) = (n.type, n.stream) := by
  unfold NodeState.feed
  split
  · rfl
  · split <;> rfl

/-- **A round at the end of the scans.** -/
theorem Inv.round_null {m : Nat} {cfg : Config} {s : State} (h : Inv m cfg s)
    (hs : StreamsOk cfg) (hround : RoundOk s) (hnull : keynullOf s.advanced = true) :
    Inv m cfg (s.apply (clusterCheck s.pfsNmasters (s.advanced.map NodeState.toNode)
      (lokeyOf s.advanced) true)) := by
  obtain ⟨hnodes, hcfg⟩ := h.nodesOk hs
  have hv := clusterCheck_null s.pfsNmasters (lokeyOf s.advanced) hnodes.clean
  have hlo := lokey_null hnull
  unfold RoundOk at hround
  simp only [hnull, if_true] at hround
  rw [h.pfsNmasters_eq] at hround hv ⊢
  generalize clusterCheck m (s.advanced.map NodeState.toNode) (lokeyOf s.advanced) true = v at hv
  -- The scan ends when fewer masters than a quorum are still in progress.
  have hend : pendingCount (s.advanced.map NodeState.toNode) < nquorumOf m →
      ∀ result, Inv m cfg { s with
        nodes := s.advanced, collectKey := keyMax, result := result } := by
    intro hpend result
    refine h.skipTo hs h.key_le (Nat.le_refl _) (fun k hk hlt => ?_) (fun _ k hq => quorum_lt hs hq)
    rw [← hcfg]
    exact hnodes.no_quorum_below hpend hk hlt (by rw [hlo]; exact hlt)
  unfold State.apply
  simp only [hlo]
  rw [hv]
  split
  · rename_i hen
    exact hend (hround hen) _
  · rename_i hen
    split
    · exact h.wait hs
    · rename_i hno
      exact hend (by omega) _

/-- **A round with a key.** -/
theorem Inv.round_key {m : Nat} {cfg : Config} {s : State} (h : Inv m cfg s)
    (hs : StreamsOk cfg) (hround : RoundOk s) (hnull : keynullOf s.advanced = false) :
    Inv m cfg (s.apply (clusterCheck s.pfsNmasters (s.advanced.map NodeState.toNode)
      (lokeyOf s.advanced) false)) := by
  obtain ⟨hnodes, hcfg⟩ := h.nodesOk hs
  obtain ⟨hge, hlt⟩ := hnodes.lokey_lt hnull
  have hverdict := clusterCheck_key m (lokeyOf s.advanced) hnodes.clean
  unfold RoundOk at hround
  simp only [hnull] at hround
  rw [h.pfsNmasters_eq] at hround ⊢
  simp only at hverdict
  generalize clusterCheck m (s.advanced.map NodeState.toNode) (lokeyOf s.advanced) false = v
    at hverdict
  unfold State.apply
  simp only
  have hne : lokeyOf s.advanced ≠ keyMax := Nat.ne_of_lt hlt
  rcases hverdict with ⟨hreach, hv, c, hc, hck⟩ | ⟨hlow, hv⟩
  · -- A quorum: the key is returned.
    have hpend : pendingCount (s.advanced.map NodeState.toNode) < nquorumOf m := by
      rcases hround with hround | hround
      · exact hround.2
      · omega
    have hkey : c.key = lokeyOf s.advanced := hck.resolve_left hne
    rw [hv, hc]
    simp only [if_neg hne]
    show Inv m cfg { s with
      nodes := s.advanced, collectKey := lokeyOf s.advanced + 1, out := s.out ++ [c.key],
      result := s.result }
    rw [hkey]
    refine h.advanceKey hs (by omega) hlt ⟨List.pairwise_singleton _ _, fun k hk => ?_⟩
      (fun k hk => ?_) (fun hr k hq => Nat.lt_of_lt_of_le (h.collected.ended hr k hq) (by omega))
    · rw [List.mem_singleton.mp hk]
      exact hge
    · rw [List.mem_singleton]
      constructor
      · rintro rfl
        obtain ⟨tid, -, hag⟩ := best_attained hnodes.clean
          (Nat.lt_of_lt_of_le (nquorumOf_pos m) hreach)
        have hle := @NodesOk.agree_le _ _ tid _ hnodes hlt
        rw [hcfg] at hle
        exact ⟨⟨tid, by omega⟩, Nat.lt_succ_self _⟩
      · rintro ⟨hq, hlt'⟩
        refine Decidable.by_contra fun hne' => ?_
        rw [← hcfg] at hq
        exact hnodes.no_quorum_below hpend hk (by omega) (by omega) hq
  · by_cases hwait : nquorumOf m ≤ agree (s.advanced.map NodeState.toNode) (lokeyOf s.advanced) 0 +
        pendingCount (s.advanced.map NodeState.toNode)
    · rw [hv, if_pos hwait, if_pos rfl]
      exact h.wait hs
    · -- No quorum can come any more: the key is skipped.
      have hno : bestAgree (s.advanced.map NodeState.toNode) (lokeyOf s.advanced) +
          pendingCount (s.advanced.map NodeState.toNode) < nquorumOf m := by
        rcases hround with hround | ⟨-, hround | hround⟩
        · omega
        · exact absurd hround hwait
        · exact hround
      have hskip : v.1 ≠ errorEinprogress ∧ (v.1 = errorEsrch ∨ v.1 = errorEdeadlk) := by
        rw [hv, if_neg hwait]
        split
        · exact ⟨by decide, Or.inl rfl⟩
        · exact ⟨by decide, Or.inr rfl⟩
      rw [if_neg hskip.1, if_pos ⟨hskip.2, hne⟩]
      refine h.skipTo hs (by omega) hlt (fun k hk hk' => ?_)
        (fun hr k hq => Nat.lt_of_lt_of_le (h.collected.ended hr k hq) (by omega))
      rcases Nat.lt_or_ge k (lokeyOf s.advanced) with hkl | hkl
      · rw [← hcfg]
        exact hnodes.no_quorum_below (by omega) hk (by omega) hkl
      · obtain rfl : k = lokeyOf s.advanced := by omega
        rintro ⟨tid, hq⟩
        have hle := @NodesOk.holders_le _ _ tid _ hnodes hk (Nat.le_refl _)
        have hbest := agree_le_best (s.advanced.map NodeState.toNode) (lokeyOf s.advanced) tid
        rw [hcfg] at hle
        omega

/-- **The step lemma.** -/
theorem step_inv {m : Nat} {cfg : Config} {s t : State} {ev : Event} (hs : StreamsOk cfg)
    (h : Inv m cfg s) (hok : Ok s ev) (hstep : step s ev = some t) : Inv m cfg t := by
  cases ev with
  | feed i =>
      obtain rfl := Option.some.inj hstep
      have hmem : ∀ n ∈ s.nodes.modify i NodeState.feed,
          ∃ n₀ ∈ s.nodes, n = n₀ ∨ n = n₀.feed := by
        intro n hn
        obtain ⟨j, hj⟩ := List.mem_iff_getElem?.mp hn
        rw [List.getElem?_modify] at hj
        obtain ⟨n₀, hn₀, hv⟩ := Option.map_eq_some_iff.mp hj
        refine ⟨n₀, List.mem_of_getElem? hn₀, ?_⟩
        split at hv
        · exact Or.inr hv.symm
        · exact Or.inl hv.symm
      refine ⟨h.pfsNmasters_eq, ?_, fun n hn => ?_, h.key_le, h.collected.increasing, h.collected.exact,
        h.collected.ended⟩
      · rw [← h.config, configOf, configOf]
        refine List.ext_getElem? fun j => ?_
        rw [List.getElem?_map, List.getElem?_map, List.getElem?_modify]
        cases s.nodes[j]? with
        | none => rfl
        | some n =>
            show some (_, _) = some (n.type, n.stream)
            split
            · rw [feed_config]
            · rfl
      · obtain ⟨n₀, hn₀, rfl | rfl⟩ := hmem n hn
        · exact h.nodes _ hn₀
        · obtain ⟨pre, cs, hinv⟩ := h.nodes n₀ hn₀
          obtain ⟨cs', hinv'⟩ := hinv.feed
          exact ⟨pre, cs', hinv'⟩
  | collect waitAll =>
      simp only [step] at hstep
      split at hstep
      · rename_i hres
        obtain rfl := Option.some.inj hstep
        obtain ⟨hnodes, hcfg⟩ := h.nodesOk hs
        have hclean := hnodes.clean
        unfold collectRound
        by_cases hwait : s.waiting waitAll
        · have hv : (s.verdict waitAll).1 = errorEinprogress := by
            unfold State.verdict
            rw [if_pos hwait]
          unfold State.apply
          simp only [hv, if_true]
          exact h.wait hs
        · have hround := hok hwait
          have hv : s.verdict waitAll = clusterCheck s.pfsNmasters
              (s.advanced.map NodeState.toNode) (lokeyOf s.advanced) (keynullOf s.advanced) :=
            if_neg hwait
          rw [hv]
          cases hnull : keynullOf s.advanced with
          | true => exact h.round_null hs hround hnull
          | false => exact h.round_key hs hround hnull
      · cases hstep

/-- What every run keeps. -/
theorem run_inv {m : Nat} {cfg : Config} {as : List Event} {s : State} (hs : StreamsOk cfg)
    (hok : AllSteps step Ok (init m cfg) as) (he : exec step (init m cfg) as = some s) :
    Inv m cfg s :=
  exec_invariant (fun _ _ _ hinv hev hstep => step_inv hs hinv hev hstep) (init_inv m cfg) hok he

/-- Two increasing lists with the same elements are one list. -/
theorem eq_of_increasing {l₁ l₂ : List Nat} (h₁ : l₁.Pairwise (· < ·)) (h₂ : l₂.Pairwise (· < ·))
    (hmem : ∀ k, k ∈ l₁ ↔ k ∈ l₂) : l₁ = l₂ := by
  have hn₁ : l₁.Nodup := h₁.imp fun hlt => Nat.ne_of_lt hlt
  have hn₂ : l₂.Nodup := h₂.imp fun hlt => Nat.ne_of_lt hlt
  refine List.Perm.eq_of_pairwise (fun a b _ _ hab hba => ?_) h₁ h₂
    ((List.perm_ext_iff_of_nodup hn₁ hn₂).mpr hmem)
  exact absurd hba (Nat.lt_asymm hab)

/-- Three masters; two of them hold key 5 with id 7, all hold key 9. -/
def scanConfig : Config :=
  [(.master, [⟨5, 7, 0⟩, ⟨9, 8, 0⟩]), (.master, [⟨5, 7, 0⟩, ⟨9, 8, 0⟩]), (.master, [⟨9, 8, 0⟩])]

/-- The nodes feed all they have before the first collect. -/
def eagerRun : List Event :=
  [.feed 0, .feed 0, .feed 0, .feed 1, .feed 1, .feed 1, .feed 2, .feed 2,
    .collect false, .collect false, .collect false]

/-- The third master is late, and comes when the first two are done. -/
def lateRun : List Event :=
  [.feed 0, .feed 1, .collect false, .feed 1, .feed 0, .collect false, .feed 1, .feed 0,
    .collect false, .feed 2]

/-- Two masters hold key 5 with id 7. -/
def pairConfig : Config := [(.master, [⟨5, 7, 0⟩]), (.master, [⟨5, 7, 0⟩])]

end Hammer2.Xop.Collect
