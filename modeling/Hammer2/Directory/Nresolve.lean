/-
# `Hammer2.Directory.Nresolve` — looking up a name

`hammer2_nresolve` asks every node of the cluster for the name and takes the answer that
`hammer2_xop_collect` makes of theirs.  A node that reads the whole collision range and finds no
entry of the name feeds nothing and no error; so does one whose entry names an inode that is not
there.  A node that fails feeds its error.

    dirent_test       hammer2_chain_dirent_test
    inode_find        hammer2_chain_inode_find
    xop_nresolve      hammer2_xop_nresolve
    found, absent     the two halves of hammer2_nresolve behind the collect
    step              the feeds and the rounds of the collect, in any order

The frontend reads of the error only that there is one: it answers `ENOENT`, or `EJUSTRETURN` if
the name is to be created.  `Sound` is the condition under which that is the truth (`run_fine`).
-/
import Hammer2.Xop.Collect
import Hammer2.Xop.Faulty
import Hammer2.Lib.Pairs

namespace Hammer2.Nresolve

open Xop Xop.Collect Machine

/-! ## One node -/

/-- `chain->error`, and what `hammer2_chain_lookup` reports of a parent. -/
inductive ChainError where
  | ok | eio | check
deriving DecidableEq, Repr

def ChainError.code : ChainError → Nat
  | .ok => 0
  | .eio => errorEio
  | .check => 0x00000002

/-- A chain of the media, its key and its id below the largest. -/
structure MediaChain where
  key : Nat
  modifyTid : Nat
  error : ChainError
  key_lt : key < keyMax
  tid_lt : modifyTid < tidMax
deriving DecidableEq

/-- An element of the collision range.  `data` is `chain->data`, `none` if it could not be read. -/
inductive Entry where
  | inode (chain : MediaChain) (filename : Option (List UInt8))
  | dirent (chain : MediaChain) (namlen : Nat) (buf : List UInt8) (data : Option (List UInt8)) (inum : Nat)
deriving DecidableEq

def Entry.chain : Entry → MediaChain
  | .inode chain _ => chain
  | .dirent chain .. => chain

/-- `sizeof(bref.check.buf)`. -/
def checkBuf : Nat := 64

/-- `hammer2_chain_dirent_test`; `none` if it reads through a `NULL` pointer. -/
def dirent_test (name : List UInt8) : Entry → Option Bool
  | .inode _ filename => filename.map fun f => decide (f = name)
  | .dirent _ namlen buf data _ =>
      if namlen ≠ name.length then some false
      else if name.length > checkBuf then data.map fun d => decide (d.take name.length = name)
      else some (decide (buf.take name.length = name))

/-- A node of the cluster and what its backend meets.  `dispatched` says that the frontend inode has
a chain for the node, so that the XOP is queued for it; `scan` is the error that ends the iteration,
`cached` the chain of the inode in memory, and `lookup` what is found of an inode number below the
root, with the number that the inode itself has. -/
structure Backend where
  type : PfsType
  dispatched : Bool
  parent : Bool
  range : List Entry
  scan : ChainError
  cached : Nat → Option MediaChain
  iroot : Bool
  lookup : Nat → Option (MediaChain × Option Nat) × ChainError

/-- `hammer2_chain_inode_find`. -/
def Backend.inode_find (n : Backend) (inum : Nat) : Option MediaChain × ChainError :=
  match n.cached inum with
  | some chain => (some chain, chain.error)
  | none =>
      if n.iroot = false then (none, .eio)
      else
        match n.lookup inum with
        | (some (rchain, data), .ok) =>
            match rchain.error, data with
            | .ok, some found =>
                if inum ≠ found then (some { rchain with error := .check }, .check) else (some rchain, .ok)
            | error, _ => (some rchain, error)
        | (rchain, error) => (rchain.map Prod.fst, error)

/-- The loop over the collision range: the entry of the name, if there is one. -/
def resolve (name : List UInt8) : List Entry → Option (Option Entry)
  | [] => some none
  | e :: es =>
      match dirent_test name e with
      | none => none
      | some true => some (some e)
      | some false => resolve name es

/-- `hammer2_xop_nresolve`: the chain and the error it feeds, `none` for a fault. -/
def Backend.xop_nresolve (n : Backend) (name : List UInt8) : Option (Option MediaChain × ChainError) :=
  if n.parent = false then some (none, .eio)
  else
    match resolve name n.range with
    | none => none
    | some none => some (none, n.scan)
    | some (some e) =>
        if e.chain.error = .ok then
          match e with
          | .dirent _ _ _ _ inum => some (n.inode_find inum)
          | .inode chain _ => some (some chain, .ok)
        else some (some e.chain, e.chain.error)

/-- `hammer2_xop_feed` adds the error of the chain. -/
def xop_feed : Option MediaChain × ChainError → Option Chain × Nat
  | (some chain, error) =>
      (some ⟨chain.key, chain.modifyTid, chain.error.code⟩,
        if error = .ok then chain.error.code else error.code)
  | (none, error) => (none, error.code)

/-- What the node feeds. -/
def Backend.result (n : Backend) (name : List UInt8) : Option (Option Chain × Nat) :=
  (n.xop_nresolve name).map xop_feed

/-! ## The call -/

inductive NameiOp where
  | lookup | create | delete | rename
deriving DecidableEq, Repr

/-- A call behind the checks it starts with; `igetv` and `access` are the errors of `hammer2_igetv` and
of `VOP_ACCESS` for writing. -/
structure Call where
  pfsNmasters : Nat
  nodes : List Backend
  name : List UInt8
  nameiop : NameiOp
  isLastcn : Bool
  wantparent : Bool
  makeentry : Bool
  igetv : Option Nat
  access : Option Nat

/-- `cached` says that the name cache keeps the absence. -/
inductive Answer where
  | vnode
  | enoent (cached : Bool)
  | ejustreturn
  | error (errno : Nat)
deriving DecidableEq, Repr

/-- After a collect without an error. -/
def Call.found (c : Call) : Answer :=
  match c.igetv with
  | some e => .error e
  | none =>
      if c.isLastcn ∧ (c.nameiop = .delete ∨ c.nameiop = .rename ∧ c.wantparent) then
        match c.access with
        | some e => .error e
        | none => .vnode
      else .vnode

/-- After a collect with an error, whichever. -/
def Call.absent (c : Call) : Answer :=
  if (c.nameiop = .create ∨ c.nameiop = .rename) ∧ c.isLastcn then
    match c.access with
    | some e => .error e
    | none => .ejustreturn
  else .enoent (c.makeentry && decide (c.nameiop ≠ .create))

/-- The collect, and whether a backend faulted.  Of a node `fedEnd` says that its backend is done. -/
structure State where
  xop : Collect.State
  faulted : Bool

def init (c : Call) : State where
  xop := Collect.init c.pfsNmasters (c.nodes.map fun n => (n.type, []))
  faulted := false

/-- The collect is over. -/
def State.done (s : State) : Bool := s.xop.result.isSome || !s.xop.out.isEmpty

inductive Event where
  | feed (i : Nat)
  | collect

/-- A backend feeds what it has. -/
def hear (r : Option Chain × Nat) (x : NodeState) : NodeState :=
  { x with fedEnd := true, queue := x.queue ++ [r] }

def step (c : Call) (s : State) : Event → Option State
  | .feed i =>
      match c.nodes[i]?, s.xop.nodes[i]? with
      | some n, some x =>
          if s.faulted = false ∧ n.dispatched = true ∧ x.fedEnd = false then
            match n.result c.name with
            | none => some { s with faulted := true }
            | some r => some { s with xop := { s.xop with nodes := s.xop.nodes.set i (hear r x) } }
          else none
      | _, _ => none
  | .collect =>
      if s.faulted = false ∧ s.done = false then some { s with xop := collectRound s.xop false } else none

/-- What the call answers, once it does. -/
def answer (c : Call) (s : State) : Option Answer :=
  if s.faulted = true then none
  else
    match s.xop.result with
    | some _ => some c.absent
    | none => if s.xop.out.isEmpty then none else some c.found

/-! ## What is to be answered -/

/-- The node read the whole range without an error, and no entry has the name. -/
def Backend.absent (n : Backend) (name : List UInt8) : Bool :=
  n.parent && decide (n.scan = .ok) &&
    n.range.all fun e => decide (e.chain.error = .ok) && decide (dirent_test name e = some false)

/-- A quorum of masters did. -/
def Call.Absent (c : Call) : Prop :=
  nquorumOf c.pfsNmasters ≤ c.nodes.countP fun n => n.type.isMaster && n.dispatched && n.absent c.name

def Answer.claimsAbsent : Answer → Bool
  | .enoent _ => true
  | .ejustreturn => true
  | _ => false

/-- The kernel does not fault, and the name is reported absent only when it is. -/
structure Honest (c : Call) (s : State) : Prop where
  faulted : s.faulted = false
  absent : ∀ a, answer c s = some a → a.claimsAbsent = true → c.Absent

/-- Every backend that was asked is done. -/
def AllFed (c : Call) (s : State) : Prop :=
  ∀ (i : Nat) (n : Backend) (x : NodeState), c.nodes[i]? = some n → s.xop.nodes[i]? = some x →
    n.dispatched = true → x.fedEnd = true

/-- The collect comes to its end by itself. -/
def Returns (c : Call) (s : State) : Prop :=
  ∃ rounds t, exec (step c) s (List.replicate rounds .collect) = some t ∧ t.done = true

/-- `VOP_ACCESS` refuses the name that is to be created. -/
def Call.refused (c : Call) : Bool :=
  decide (c.nameiop = .create ∨ c.nameiop = .rename) && c.isLastcn && c.access.isSome

/-- The node comes back without a chain. -/
def Backend.feedsNull (n : Backend) (name : List UInt8) : Bool :=
  n.dispatched && match n.result name with
    | some (none, _) => true
    | _ => false

/-- The node comes back with a chain of that key and id. -/
def Backend.feeds (n : Backend) (name : List UInt8) (key tid : Nat) : Bool :=
  n.dispatched && match n.result name with
    | some (some chain, _) => decide (chain.key = key ∧ chain.modifyTid = tid)
    | _ => false

/-- No quorum of masters comes back without a chain, there are masters for a quorum, and the chain that
a quorum comes back with has no error, on any node. -/
structure Decided (c : Call) : Prop where
  masters : nquorumOf c.pfsNmasters ≤ c.nodes.countP fun n => n.type.isMaster
  null : c.nodes.countP (fun n => n.type.isMaster && n.feedsNull c.name) < nquorumOf c.pfsNmasters
  agreed : ∀ key tid, nquorumOf c.pfsNmasters ≤ c.nodes.countP (fun n => n.type.isMaster && n.feeds c.name key tid) →
    ∀ n ∈ c.nodes, n.feeds c.name key tid = true → ∀ r, n.result c.name = some r → r.2 = 0

/-- When the answer is honest. -/
structure Sound (c : Call) : Prop where
  reads : ∀ n ∈ c.nodes, n.dispatched = true → n.result c.name ≠ none
  verdict : c.refused = true ∨ c.Absent ∨ Decided c

/-! ## What a node feeds -/

variable {c : Call} {s s' : State} {n : Backend} {name : List UInt8} {k : Nat} {x : NodeState}

/-- The errors that are fed. -/
def IsCode (e : Nat) : Prop := e = 0 ∨ e = errorEio ∨ e = 0x00000002

theorem ChainError.isCode : ∀ e : ChainError, IsCode e.code
  | .ok => .inl rfl
  | .eio => .inr (.inl rfl)
  | .check => .inr (.inr rfl)

/-- The collect goes on with none of these. -/
theorem IsCode.answers {e : Nat} (h : IsCode e) :
    e ≠ errorEinprogress ∧ e ≠ errorEsrch ∧ e ≠ errorEdeadlk := by
  rcases h with rfl | rfl | rfl <;> decide

theorem result_code {r : Option Chain × Nat} (h : n.result name = some r) : IsCode r.2 := by
  obtain ⟨⟨chain, error⟩, -, rfl⟩ := Option.map_eq_some_iff.mp h
  cases chain with
  | none => exact error.isCode
  | some chain =>
      show IsCode (if error = .ok then chain.error.code else error.code)
      split
      · exact chain.error.isCode
      · exact error.isCode

/-- A chain that is fed: below the largest, and with its error. -/
theorem result_chain {chain : Chain} {e : Nat} (h : n.result name = some (some chain, e)) :
    chain.key < keyMax ∧ chain.modifyTid < tidMax ∧ (chain.error ≠ 0 → e ≠ 0) := by
  obtain ⟨⟨found, error⟩, -, hfed⟩ := Option.map_eq_some_iff.mp h
  cases found with
  | none => cases hfed
  | some m =>
      obtain ⟨hchain, herr⟩ := Prod.mk.inj hfed
      obtain rfl := Option.some.inj hchain
      refine ⟨m.key_lt, m.tid_lt, fun hne => ?_⟩
      rw [← herr]
      split
      · exact hne
      · next hnok => cases error with
        | ok => exact absurd rfl hnok
        | eio => exact nofun
        | check => exact nofun

/-! ## Where a node is -/

/-- What the collect holds of a node: nothing yet, what it fed, its chain, or what came of it. -/
inductive Place (name : List UInt8) (k : Nat) (n : Backend) : NodeState → Prop
  | unfed : Place name k n ⟨n.type, [], [], false, [], ⟨none, 0, false⟩⟩
  | queued {r} : n.dispatched = true → n.result name = some r →
      Place name k n ⟨n.type, [], [], true, [r], ⟨none, 0, false⟩⟩
  | present {chain e} : n.dispatched = true → n.result name = some (some chain, e) →
      Place name k n ⟨n.type, [], [], true, [], ⟨some chain, e, false⟩⟩
  | passed {chain e} : n.dispatched = true → n.result name = some (some chain, e) → chain.key < k →
      Place name k n ⟨n.type, [], [], true, [], ⟨none, e, false⟩⟩
  | ended {e} : n.dispatched = true → n.result name = some (none, e) →
      Place name k n ⟨n.type, [], [], true, [], ⟨none, e, true⟩⟩

theorem Place.mono {k' : Nat} (h : Place name k n x) (hle : k ≤ k') : Place name k' n x := by
  cases h with
  | unfed => exact .unfed
  | queued hd hr => exact .queued hd hr
  | present hd hr => exact .present hd hr
  | passed hd hr hlt => exact .passed hd hr (Nat.lt_of_lt_of_le hlt hle)
  | ended hd hr => exact .ended hd hr

/-- After the advance loop: nothing is left in the queue, and a chain is not behind. -/
structure Seen (name : List UInt8) (k : Nat) (n : Backend) (x : NodeState) : Prop where
  place : Place name k n x
  queue : x.queue = []
  ahead : ∀ chain, x.item.chain = some chain → k ≤ chain.key

/-- A chain that is reached stays, or is passed. -/
theorem Seen.of_chain {chain : Chain} {e : Nat} (hd : n.dispatched = true)
    (hr : n.result name = some (some chain, e)) :
    Seen name k n (NodeState.advance k ⟨n.type, [], [], true, [], ⟨some chain, e, false⟩⟩) := by
  rcases Nat.lt_or_ge chain.key k with hlt | hge
  · have hpass : NodeState.advance k ⟨n.type, [], [], true, [], ⟨some chain, e, false⟩⟩ =
        ⟨n.type, [], [], true, [], ⟨none, e, false⟩⟩ := by
      simp only [NodeState.advance, advanceItem, behind, decide_eq_true hlt, if_true]
    rw [hpass]
    exact ⟨.passed hd hr hlt, rfl, by rintro _ ⟨⟩⟩
  · have hstay : NodeState.advance k ⟨n.type, [], [], true, [], ⟨some chain, e, false⟩⟩ =
        ⟨n.type, [], [], true, [], ⟨some chain, e, false⟩⟩ := by
      simp only [NodeState.advance, advanceItem, behind, decide_eq_false (Nat.not_lt.mpr hge), Bool.false_eq_true,
        if_false]
    rw [hstay]
    exact ⟨.present hd hr, rfl, fun d hd => Option.some.inj hd ▸ hge⟩

theorem Place.advance (h : Place name k n x) : Seen name k n (x.advance k) := by
  cases h with
  | unfed => exact ⟨.unfed, rfl, nofun⟩
  | @queued r hd hr =>
      obtain ⟨chain, e⟩ := r
      cases chain with
      | none => exact ⟨.ended hd hr, rfl, nofun⟩
      | some chain => exact Seen.of_chain hd hr
  | present hd hr => exact Seen.of_chain hd hr
  | passed hd hr hlt => exact ⟨.passed hd hr hlt, rfl, nofun⟩
  | ended hd hr => exact ⟨.ended hd hr, rfl, nofun⟩

theorem Place.type (h : Place name k n x) : x.type = n.type := by cases h <;> rfl

/-- A chain in the cluster is what the node fed. -/
theorem Place.of_chain (h : Place name k n x) {chain : Chain} (hc : x.item.chain = some chain) :
    n.dispatched = true ∧ n.result name = some (some chain, x.item.error) := by
  cases h with
  | present hd hr =>
      obtain rfl := Option.some.inj hc
      exact ⟨hd, hr⟩
  | unfed => cases hc
  | queued => cases hc
  | passed => cases hc
  | ended => cases hc

theorem Place.of_null (h : Place name k n x) (hn : x.item.null = true) :
    n.dispatched = true ∧ ∃ e, n.result name = some (none, e) := by
  cases h with
  | ended hd hr => exact ⟨hd, _, hr⟩
  | unfed => cases hn
  | queued => cases hn
  | passed => cases hn
  | present => cases hn

theorem Place.error_code (h : Place name k n x) : IsCode x.item.error := by
  cases h with
  | unfed => exact .inl rfl
  | queued => exact .inl rfl
  | present _ hr => exact result_code hr
  | passed _ hr => exact result_code hr
  | ended _ hr => exact result_code hr

/-- What the collect knows in a state. -/
structure Inv (c : Call) (s : State) : Prop where
  nodes : List.Forall₂ (Place c.name s.xop.collectKey) c.nodes s.xop.nodes
  masters : s.xop.pfsNmasters = c.pfsNmasters
  key_le : s.xop.collectKey ≤ keyMax

theorem init_inv (c : Call) : Inv c (init c) where
  nodes := by
    show List.Forall₂ _ c.nodes ((c.nodes.map fun n => (n.type, [])).map _)
    rw [List.map_map]
    exact List.forall₂_map_right_iff.mpr (List.forall₂_same.mpr fun n _ => .unfed)
  masters := rfl
  key_le := Nat.zero_le _

theorem Inv.advanced (h : Inv c s) :
    List.Forall₂ (Seen c.name s.xop.collectKey) c.nodes s.xop.advanced :=
  List.forall₂_map_right_iff.mpr (h.nodes.imp fun _ _ hp => hp.advance)

/-- The nodes as the check sees them. -/
def State.view (s : State) : List Node := s.xop.advanced.map NodeState.toNode

theorem Inv.view (h : Inv c s) :
    List.Forall₂ (fun n m => ∃ x, Seen c.name s.xop.collectKey n x ∧ m = x.toNode) c.nodes s.view :=
  List.forall₂_map_right_iff.mpr (h.advanced.imp fun _ x hx => ⟨x, hx, rfl⟩)

theorem Inv.tidsOk (h : Inv c s) : TidsOk s.view := by
  intro m hm chain hc
  obtain ⟨n, -, x, hx, rfl⟩ := Pairs.exists_left h.view hm
  exact (result_chain (hx.place.of_chain hc).2).2.1

theorem Inv.keys (h : Inv c s) : ∀ x ∈ s.xop.advanced, ∀ chain, x.item.chain = some chain →
    chain.key < keyMax := by
  intro x hx chain hc
  obtain ⟨n, -, hseen⟩ := Pairs.exists_left h.advanced hx
  exact (result_chain (hseen.place.of_chain hc).2).1

theorem Inv.lokey (h : Inv c s) (hnull : keynullOf s.xop.advanced = false) :
    s.xop.collectKey ≤ lokeyOf s.xop.advanced ∧ lokeyOf s.xop.advanced < keyMax := by
  obtain ⟨x, hx, chain, hc, hkey⟩ := lokey_attained h.keys hnull
  obtain ⟨n, -, hseen⟩ := Pairs.exists_left h.advanced hx
  rw [← hkey]
  exact ⟨hseen.ahead chain hc, h.keys x hx chain hc⟩

/-- Masters that have ended came back without a chain. -/
theorem Inv.ended_le (h : Inv c s) :
    endedCount s.view ≤ c.nodes.countP fun n => n.type.isMaster && n.feedsNull c.name := by
  refine Pairs.countP_le h.view fun n m hm hended => ?_
  obtain ⟨x, hx, rfl⟩ := hm
  simp only [Node.ended, NodeState.toNode, Bool.and_eq_true] at hended
  obtain ⟨hd, e, hr⟩ := hx.place.of_null hended.2
  rw [Bool.and_eq_true, ← hx.place.type, Backend.feedsNull, hd, hr]
  exact ⟨hended.1.1, rfl⟩

/-- Masters that present a key with an id feed it. -/
theorem Inv.agree_le (h : Inv c s) {key tid : Nat} (hkey : key ≠ keyMax) :
    agree s.view key tid ≤ c.nodes.countP fun n => n.type.isMaster && n.feeds c.name key tid := by
  refine Pairs.countP_le h.view fun n m hm hagrees => ?_
  obtain ⟨x, hx, rfl⟩ := hm
  cases hc : x.item.chain with
  | none => simp only [Node.agrees, NodeState.toNode, hc, Bool.and_false, Bool.false_eq_true] at hagrees
  | some chain =>
      simp only [Node.agrees, NodeState.toNode, hc, Bool.and_eq_true, decide_eq_true_eq] at hagrees
      obtain ⟨hd, hr⟩ := hx.place.of_chain hc
      rw [Bool.and_eq_true, ← hx.place.type, Backend.feeds, hd, hr]
      exact ⟨hagrees.1, decide_eq_true ⟨hagrees.2.1.resolve_left hkey, hagrees.2.2⟩⟩

/-- A node that presents a key with an id feeds it, with its error. -/
theorem Inv.matched (h : Inv c s) {key tid : Nat} {m : Node} (hm : m ∈ s.view)
    (hmatch : m.matched key tid = true) : ∃ n ∈ c.nodes, n.feeds c.name key tid = true ∧
      ∃ chain, m.item.chain = some chain ∧ n.result c.name = some (some chain, m.item.error) := by
  obtain ⟨n, hn, x, hx, rfl⟩ := Pairs.exists_left h.view hm
  cases hc : x.item.chain with
  | none => simp only [Node.matched, NodeState.toNode, hc, Bool.false_eq_true] at hmatch
  | some chain =>
      simp only [Node.matched, NodeState.toNode, hc, decide_eq_true_eq] at hmatch
      obtain ⟨hd, hr⟩ := hx.place.of_chain hc
      refine ⟨n, hn, ?_, chain, hc, hr⟩
      rw [Backend.feeds, hd, hr]
      exact decide_eq_true hmatch

/-- With all chains gone every master has ended or is in progress. -/
theorem Inv.masters_le (h : Inv c s) (hnull : keynullOf s.xop.advanced = true) :
    (c.nodes.countP fun n => n.type.isMaster) = endedCount s.view + pendingCount s.view := by
  have hsplit : ∀ l : List Node, (∀ m ∈ l, m.item.chain = none) →
      (l.countP fun m => m.type.isMaster) = endedCount l + pendingCount l := by
    intro l
    induction l with
    | nil => exact fun _ => rfl
    | cons m l ih =>
        intro hl
        obtain ⟨hm, hrest⟩ := List.forall_mem_cons.mp hl
        have hcount := ih hrest
        simp only [endedCount, pendingCount] at hcount ⊢
        rw [List.countP_cons, List.countP_cons, List.countP_cons, hcount]
        simp only [Node.ended, Node.pending, hm, Option.isNone_none, Bool.and_true]
        cases m.type.isMaster <;> cases m.item.null <;> simp <;> omega
  have htypes : (c.nodes.countP fun n => n.type.isMaster) = s.view.countP fun m => m.type.isMaster := by
    refine Nat.le_antisymm (Pairs.countP_le h.view.flip fun m n hm => ?_) (Pairs.countP_le h.view fun n m hm => ?_)
    · obtain ⟨x, hx, rfl⟩ := hm
      intro hmaster
      show x.type.isMaster = true
      rw [hx.place.type]
      exact hmaster
    · obtain ⟨x, hx, rfl⟩ := hm
      intro hmaster
      rw [← hx.place.type]
      exact hmaster
  rw [htypes]
  refine hsplit s.view fun m hm => ?_
  obtain ⟨x, hx, rfl⟩ := List.mem_map.mp hm
  exact Option.isNone_iff_eq_none.mp (List.all_eq_true.mp hnull x hx)

/-! ## A round -/

theorem verdict_eq (s : State) : s.xop.verdict false = clusterCheck s.xop.pfsNmasters s.view
    (lokeyOf s.xop.advanced) (keynullOf s.xop.advanced) := by
  unfold Collect.State.verdict
  rw [if_neg fun hw => Bool.false_ne_true hw.1]
  rfl

/-- How a round ends: it waits, it skips the key, it returns a chain, or it returns an error. -/
inductive Round (x : Collect.State) : Collect.State → Prop
  | waits : (x.verdict false).1 = errorEinprogress → Round x { x with nodes := x.advanced }
  | skips : (x.verdict false).1 = errorEsrch ∨ (x.verdict false).1 = errorEdeadlk →
      lokeyOf x.advanced ≠ keyMax → Round x { x with nodes := x.advanced, collectKey := lokeyOf x.advanced + 1 }
  | returns : (x.verdict false).1 = 0 → Round x { x with
      nodes := x.advanced
      collectKey := if lokeyOf x.advanced = keyMax then keyMax else lokeyOf x.advanced + 1
      out := x.out ++ ((x.verdict false).2.map Chain.key).toList }
  | fails {e : Nat} : (x.verdict false).1 ≠ 0 → (x.verdict false).1 ≠ errorEinprogress →
      ((x.verdict false).1 = errorEsrch ∨ (x.verdict false).1 = errorEdeadlk → lokeyOf x.advanced = keyMax) →
      Round x { x with
        nodes := x.advanced
        collectKey := if lokeyOf x.advanced = keyMax then keyMax else lokeyOf x.advanced + 1
        result := some e }

theorem collectRound_round (x : Collect.State) : Round x (collectRound x false) := by
  unfold collectRound State.apply
  dsimp only
  have hkey : (if lokeyOf x.advanced = keyMax then lokeyOf x.advanced else lokeyOf x.advanced + 1) =
      if lokeyOf x.advanced = keyMax then keyMax else lokeyOf x.advanced + 1 := by
    split
    · assumption
    · rfl
  rw [hkey]
  split
  · next hwait => exact .waits hwait
  · next hwait =>
    split
    · next hskip => exact .skips hskip.1 hskip.2
    · next hskip =>
      have hlast : (x.verdict false).1 = errorEsrch ∨ (x.verdict false).1 = errorEdeadlk →
          lokeyOf x.advanced = keyMax := fun hv => Decidable.byContradiction fun hne => hskip ⟨hv, hne⟩
      by_cases hz : (x.verdict false).1 = 0
      · have herr : (if (x.verdict false).1 = errorEsrch then errorEnoent else (x.verdict false).1) = 0 := by
          rw [hz]
          rfl
        rw [herr, if_pos rfl, if_pos rfl]
        exact .returns hz
      · have herr : (if (x.verdict false).1 = errorEsrch then errorEnoent else (x.verdict false).1) ≠ 0 := by
          split
          · exact nofun
          · exact hz
        rw [if_neg herr, if_neg herr]
        exact .fails hz hwait hlast

/-- A round leaves the nodes advanced, and does not move the key back. -/
theorem Round.frame {x y : Collect.State} (h : Round x y) : y.nodes = x.advanced ∧
    y.pfsNmasters = x.pfsNmasters ∧ (y.collectKey = x.collectKey ∨
      y.collectKey = if lokeyOf x.advanced = keyMax then keyMax else lokeyOf x.advanced + 1) := by
  cases h with
  | waits => exact ⟨rfl, rfl, .inl rfl⟩
  | skips _ hne => exact ⟨rfl, rfl, .inr (if_neg hne).symm⟩
  | returns => exact ⟨rfl, rfl, .inr rfl⟩
  | fails => exact ⟨rfl, rfl, .inr rfl⟩

theorem Inv.round (h : Inv c s) {y : Collect.State} (hr : Round s.xop y) {b : Bool} : Inv c ⟨y, b⟩ := by
  obtain ⟨hnodes, hmasters, hkey⟩ := hr.frame
  have hnext : s.xop.collectKey ≤ y.collectKey ∧ y.collectKey ≤ keyMax := by
    rcases hkey with heq | heq
    · rw [heq]
      exact ⟨Nat.le_refl _, h.key_le⟩
    · rw [heq]
      split
      · exact ⟨h.key_le, Nat.le_refl _⟩
      · next hne =>
        have hnull : keynullOf s.xop.advanced = false :=
          Bool.eq_false_iff.mpr fun hnull => hne (lokey_null hnull)
        obtain ⟨hge, hlt⟩ := h.lokey hnull
        exact ⟨Nat.le_succ_of_le hge, hlt⟩
  refine ⟨?_, hmasters.trans h.masters, hnext.2⟩
  rw [hnodes]
  exact h.advanced.imp fun _ _ hseen => hseen.place.mono hnext.1

/-- **One step** keeps what is known. -/
theorem step_inv (h : Inv c s) {ev : Event} (ht : step c s ev = some s') : Inv c s' := by
  cases ev with
  | feed i =>
      unfold step at ht
      dsimp only at ht
      split at ht
      · next n x hn hx =>
        split at ht
        · next hfeed =>
          split at ht
          · obtain rfl := Option.some.inj ht
            exact ⟨h.nodes, h.masters, h.key_le⟩
          · next r hr =>
            obtain rfl := Option.some.inj ht
            refine ⟨Pairs.set h.nodes hn ?_, h.masters, h.key_le⟩
            have hplace := Pairs.get h.nodes hn hx
            have hfresh := hfeed.2.2
            cases hplace with
            | unfed => exact .queued hfeed.2.1 hr
            | queued => cases hfresh
            | present => cases hfresh
            | passed => cases hfresh
            | ended => cases hfresh
        · cases ht
      · cases ht
  | collect =>
      unfold step at ht
      dsimp only at ht
      split at ht
      · obtain rfl := Option.some.inj ht
        exact h.round (collectRound_round s.xop)
      · cases ht

theorem not_done (h : s.done = false) : s.xop.result = none ∧ s.xop.out = [] := by
  unfold State.done at h
  rw [Bool.or_eq_false_iff] at h
  exact ⟨Option.not_isSome_iff_eq_none.mp (Bool.eq_false_iff.mp h.1),
    List.isEmpty_iff.mp ((Bool.not_eq_false' _).mp h.2)⟩

/-- In a call that is decided no round fails. -/
theorem Inv.no_failure (h : Inv c s) (hc : Decided c) {y : Collect.State} (hr : Round s.xop y)
    (hresult : s.xop.result = none) : y.result = none := by
  cases hr with
  | waits => exact hresult
  | skips => exact hresult
  | returns => exact hresult
  | fails hz hwait hlast =>
      exfalso
      rw [verdict_eq] at hz hwait hlast
      cases hnull : keynullOf s.xop.advanced with
      | true =>
          rw [hnull, clusterCheck_checkNull, h.masters] at hz hwait hlast
          have hended := h.ended_le
          have hall := h.masters_le hnull
          have hmasters := hc.masters
          have hfew := hc.null
          rw [if_neg (by omega), if_pos (by omega)] at hwait
          exact hwait rfl
      | false =>
          obtain ⟨-, hlt⟩ := h.lokey hnull
          rw [hnull, h.masters] at hz hwait hlast
          rcases clusterCheck_faulty c.pfsNmasters (Nat.ne_of_lt hlt) h.tidsOk with
            ⟨-, hv⟩ | ⟨tid, hquorum, ⟨hok, -⟩ | ⟨m, hm, hmatch, herr⟩⟩
          · rw [hv] at hwait hlast
            split at hwait
            · exact hwait rfl
            · split at hlast
              · contradiction
              · split at hlast
                · exact absurd (hlast (.inl rfl)) (Nat.ne_of_lt hlt)
                · exact absurd (hlast (.inr rfl)) (Nat.ne_of_lt hlt)
          · exact hz hok
          · obtain ⟨n, hn, hfeeds, chain, hchain, hr⟩ := h.matched hm hmatch
            have hclean := hc.agreed _ tid (Nat.le_trans hquorum (h.agree_le (Nat.ne_of_lt hlt))) n hn hfeeds _ hr
            rcases herr with ⟨-, d, hd, hne⟩ | ⟨-, hne⟩
            · rw [hchain] at hd
              obtain rfl := Option.some.inj hd
              exact (result_chain hr).2.2 hne hclean
            · exact hne hclean

/-- **What holds in every state of a sound call.** -/
structure Fine (c : Call) (s : State) : Prop where
  inv : Inv c s
  faulted : s.faulted = false
  result : s.xop.result ≠ none → c.refused = true ∨ c.Absent

theorem step_fine (hc : Sound c) (h : Fine c s) {ev : Event} (ht : step c s ev = some s') : Fine c s' := by
  have hinv := step_inv h.inv ht
  cases ev with
  | feed i =>
      unfold step at ht
      dsimp only at ht
      split at ht
      · next n x hn hx =>
        split at ht
        · next hfeed =>
          split at ht
          · next hnone => exact absurd hnone (hc.reads n (List.mem_of_getElem? hn) hfeed.2.1)
          · obtain rfl := Option.some.inj ht
            exact ⟨hinv, h.faulted, h.result⟩
        · cases ht
      · cases ht
  | collect =>
      unfold step at ht
      dsimp only at ht
      split at ht
      · next hgo =>
        obtain rfl := Option.some.inj ht
        refine ⟨hinv, h.faulted, fun hresult => ?_⟩
        rcases hc.verdict with hrefused | habsent | hdecided
        · exact .inl hrefused
        · exact .inr habsent
        · exact absurd (h.inv.no_failure hdecided (collectRound_round s.xop) (not_done hgo.2).1) hresult
      · cases ht

/-- A refused call reports no absence. -/
theorem refused_answer (h : c.refused = true) : c.absent.claimsAbsent = false := by
  simp only [Call.refused, Bool.and_eq_true, decide_eq_true_eq] at h
  unfold Call.absent
  rw [if_pos ⟨h.1.1, h.1.2⟩]
  obtain ⟨e, he⟩ := Option.isSome_iff_exists.mp h.2
  rw [he]
  rfl

theorem found_answer : c.found.claimsAbsent = false := by
  unfold Call.found
  split
  · rfl
  · split
    · split <;> rfl
    · rfl

theorem Fine.honest (h : Fine c s) : Honest c s := by
  refine ⟨h.faulted, fun a ha hclaims => ?_⟩
  unfold answer at ha
  rw [if_neg (by rw [h.faulted]; exact Bool.false_ne_true)] at ha
  split at ha
  · next e hresult =>
    obtain rfl := Option.some.inj ha
    rcases h.result (by rw [hresult]; exact nofun) with hrefused | habsent
    · rw [refused_answer hrefused] at hclaims
      cases hclaims
    · exact habsent
  · split at ha
    · cases ha
    · obtain rfl := Option.some.inj ha
      rw [found_answer] at hclaims
      cases hclaims

theorem run_fine (hc : Sound c) {evs : List Event} (h : exec (step c) (init c) evs = some s) : Fine c s :=
  exec_invariant' (fun _ _ _ hf hstep => step_fine hc hf hstep) ⟨init_inv c, rfl, fun hne => absurd rfl hne⟩ h

end Hammer2.Nresolve
