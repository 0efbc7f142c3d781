/-
# `Hammer2.Span.Wf` — what holds between two steps

    ConnWf      the conns, and the connections they are for
    LinkWf      clusters, nodes and links: a node is there as long as it has a link
    RelayWf     every relay is in the tree of its conn and in the list of its link
    AnyWf       `any` points to a live object that points back

`Wf.without` and `Wf.withRelay` are the two ways in which relays change.
-/
import Mathlib.Data.List.Nodup
import Hammer2.Span.Topology

namespace Hammer2.Span

open Function (update)

/-! ## Maps of objects -/

section Maps

variable {α : Type} {f : Nat → Option α} {k k' : Nat} {x y : α}

/-- An object is added. -/
theorem update_some : update f k (some x) k' = some y ↔ k' = k ∧ y = x ∨ k' ≠ k ∧ f k' = some y := by
  rcases eq_or_ne k' k with rfl | hne
  · rw [Function.update_self]
    exact ⟨fun h => .inl ⟨rfl, (Option.some.inj h).symm⟩,
      fun h => h.elim (fun h => by rw [h.2]) fun h => absurd rfl h.1⟩
  · rw [Function.update_of_ne hne]
    exact ⟨fun h => .inr ⟨hne, h⟩, fun h => h.elim (fun h => absurd h.1 hne) And.right⟩

/-- An object is freed. -/
theorem update_none : update f k none k' = some y ↔ k' ≠ k ∧ f k' = some y := by
  rcases eq_or_ne k' k with rfl | hne
  · rw [Function.update_self]
    exact ⟨nofun, fun h => absurd rfl h.1⟩
  · rw [Function.update_of_ne hne]
    exact ⟨fun h => ⟨hne, h⟩, And.right⟩

/-- The others are still there when an object is added at an unused address. -/
theorem update_keep (h : f k = none) (hk : f k' = some y) (x : Option α) :
    update f k x k' = some y := by
  rw [Function.update_of_ne, hk]
  rintro rfl
  rw [h] at hk
  cases hk

end Maps

/-! ## The orders -/

instance : Std.TransCmp clusterCmp := inferInstanceAs (Std.TransCmp (compareLex _ _))

instance : Std.TransCmp nodeCmp := inferInstanceAs (Std.TransCmp (compareLex _ _))

instance : Std.TransCmp linkCmp := inferInstanceAs (Std.TransCmp (compareLex _ _))

instance : Std.TransOrd LinkKey := inferInstanceAs (Std.TransCmp linkCmp)

instance : Std.TransCmp relayCmp := inferInstanceAs (Std.TransCmp (compareLex _ _))

theorem compareOn_eq {α β : Type} [Ord β] [Std.LawfulEqOrd β] {f : α → β} {a b : α}
    (h : compareOn f a b = .eq) : f a = f b := Std.LawfulEqOrd.eq_of_compare h

instance : Std.LawfulEqCmp clusterCmp where
  eq_of_compare h := by
    obtain ⟨htype, h⟩ := Ordering.then_eq_eq.mp h
    obtain ⟨hid, hlabel⟩ := Ordering.then_eq_eq.mp h
    exact ClusterId.ext (compareOn_eq htype) (compareOn_eq hid) (compareOn_eq hlabel)

instance : Std.LawfulEqCmp nodeCmp where
  eq_of_compare h := by
    obtain ⟨hlabel, hid⟩ := Ordering.then_eq_eq.mp h
    exact NodeId.ext (compareOn_eq hlabel) (compareOn_eq hid)

instance : Std.LawfulEqCmp linkCmp where
  eq_of_compare h := by
    obtain ⟨hdist, h⟩ := Ordering.then_eq_eq.mp h
    obtain ⟨hrnss, hstate⟩ := Ordering.then_eq_eq.mp h
    exact LinkKey.ext (compareOn_eq hdist) (compareOn_eq hrnss) (compareOn_eq hstate)

instance : Std.LawfulEqOrd LinkKey := inferInstanceAs (Std.LawfulEqCmp linkCmp)

instance : Std.LawfulEqCmp relayCmp where
  eq_of_compare h := by
    obtain ⟨hnode, hlink⟩ := Ordering.then_eq_eq.mp h
    exact RelayKey.ext (compareOn_eq hnode) (compareOn_eq hlink)

/-! ## The invariant -/

structure ConnWf (s : Topo) : Prop where
  mem : ∀ c, c ∈ s.connq ↔ (s.conns c).isSome
  nodup : s.connq.Nodup
  state : ∀ c conn, s.conns c = some conn → ∃ st, s.states conn.state = some st ∧
    st.func = .lnkConn ∧ s.any conn.state = .conn c ∧ s.iocomConn st.iocom = some c
  iocom : ∀ i c, s.iocomConn i = some c → ∃ conn st, s.conns c = some conn ∧
    s.states conn.state = some st ∧ st.iocom = i

/-- The trees of clusters, nodes and links. -/
structure LinkTrees (s : Topo) : Prop where
  clusterTree : ∀ k, k ∈ s.clusterTree ↔ (s.clusters k).isSome
  clusterOrd : OrdTree.Ordered clusterCmp s.clusterKey s.clusterTree
  cluster : ∀ k cls, s.clusters k = some cls → cls.refs = 0 ∧
    OrdTree.Ordered nodeCmp s.nodeKey (s.clsTree k) ∧
    ∀ n, n ∈ s.clsTree k ↔ ∃ node, s.nodes n = some node ∧ node.cls = k
  nodeCls : ∀ n node, s.nodes n = some node → (s.clusters node.cls).isSome
  node : ∀ n node, s.nodes n = some node → OrdTree.Ordered linkCmp s.linkKey (s.nodeTree n) ∧
    ∀ l, l ∈ s.nodeTree n ↔ ∃ slink, s.links l = some slink ∧ slink.node = n
  linkNode : ∀ l slink, s.links l = some slink → (s.nodes slink.node).isSome
  link : ∀ l slink, s.links l = some slink → ∃ st, s.states slink.state = some st ∧
    st.func = .lnkSpan ∧ s.any slink.state = .link l

structure LinkWf (s : Topo) : Prop extends LinkTrees s where
  clsNonempty : ∀ k cls, s.clusters k = some cls → s.clsTree k ≠ []
  nodeNonempty : ∀ n node, s.nodes n = some node → s.nodeTree n ≠ []

/-- The SPAN that is relayed for one received. -/
def relayed (rnss : BitVec 32) (span : LnkSpan) : LnkSpan :=
  { span with dist := span.dist + 1, rnss := span.rnss + rnss }

/-- A relay from the link `l` to the conn `relay.conn`. -/
structure Relays (rnss : BitVec 32) (s : Topo) (r : Nat) (relay : Relay) (l : Nat)
    (slink : Link) (cn : Conn) (st : State) : Prop where
  source : s.any relay.sourceRt = .link l
  link : s.links l = some slink
  rt : slink.state = relay.sourceRt
  conn : s.conns relay.conn = some cn
  accepted : accepts s cn slink = some true
  target : s.states relay.targetRt = some st
  func : st.func = .lnkRelay
  any : s.any relay.targetRt = .relay r
  sent : st.sent = some (relayed rnss slink.span)

structure RelayWf (rnss : BitVec 32) (s : Topo) : Prop where
  relay : ∀ r relay, s.relays r = some relay →
    ∃ l slink conn st, Relays rnss s r relay l slink conn st
  tree : ∀ c conn, s.conns c = some conn →
    OrdTree.Ordered relayCmp s.relayKey (s.connTree c) ∧
    ∀ r, r ∈ s.connTree c ↔ ∃ relay, s.relays r = some relay ∧ relay.conn = c
  relayq : ∀ l slink, s.links l = some slink → (s.relayq l).Nodup ∧
    ∀ r, r ∈ s.relayq l ↔ ∃ relay, s.relays r = some relay ∧ relay.sourceRt = slink.state

/-- What a transaction with the handler `func` may be. -/
def AnyOk (s : Topo) (a : Nat) (func : Func) : Any → Prop
  | .null => func = .lnkRelay
  | .conn c => func = .lnkConn ∧ ∃ conn, s.conns c = some conn ∧ conn.state = a
  | .link l => func = .lnkSpan ∧ ∃ slink, s.links l = some slink ∧ slink.state = a
  | .relay r => func = .lnkRelay ∧ ∃ relay, s.relays r = some relay ∧ relay.targetRt = a

structure Wf (rnss : BitVec 32) (s : Topo) : Prop where
  conns : ConnWf s
  links : LinkWf s
  relays : RelayWf rnss s
  any : ∀ a st, s.states a = some st → AnyOk s a st.func (s.any a)
  top : ∀ a, s.top ≤ a → s.states a = none ∧ s.relays a = none

theorem Wf.trees {rnss : BitVec 32} {s : Topo} (h : Wf rnss s) : LinkTrees s := h.links.toLinkTrees

section Relay

variable {rnss : BitVec 32} {s : Topo} {r l c : Nat} {relay : Relay} {slink : Link} {conn : Conn}
  {st : State}

theorem Relays.sourceState (h : Relays rnss s r relay l slink conn st) (hl : LinkTrees s) :
    ∃ st, s.states relay.sourceRt = some st := by
  obtain ⟨st, hst, _⟩ := hl.link l slink h.link
  rw [h.rt] at hst
  exact ⟨st, hst⟩

theorem Relays.sourceLink (h : Relays rnss s r relay l slink conn st) (hl : LinkTrees s)
    (hr : s.relays r = some relay) : s.sourceLink r = some l := by
  obtain ⟨st, hst⟩ := h.sourceState hl
  simp only [Topo.sourceLink, hr, hst, h.source, Option.bind_eq_bind, Option.bind_some]

theorem Relays.relayKey (h : Relays rnss s r relay l slink conn st) (hl : LinkTrees s)
    (hr : s.relays r = some relay) : s.relayKey r = some ⟨slink.node, slink.key⟩ := by
  simp only [Topo.relayKey, h.sourceLink hl hr, h.link, Option.bind_eq_bind, Option.bind_some]

/-- The topology without a relay. -/
def Topo.without (s : Topo) (r : Nat) (relay : Relay) (l : Nat) : Topo :=
  { s with
    connTree := update s.connTree relay.conn ((s.connTree relay.conn).erase r)
    relayq := update s.relayq l ((s.relayq l).erase r)
    any := update s.any relay.targetRt .null
    relays := update s.relays r none }

theorem Wf.relayDelete_eq (h : Wf rnss s) (hr : s.relays r = some relay) : ∃ l,
    s.sourceLink r = some l ∧ Span.relayDelete r s = some (s.without r relay l) := by
  obtain ⟨l, slink, conn, st, hrel⟩ := h.relays.relay r relay hr
  have hl := hrel.sourceLink h.trees hr
  refine ⟨l, hl, ?_⟩
  simp only [Span.relayDelete, hr, hrel.conn, hl, hrel.link, hrel.target, Option.bind_eq_bind,
    Option.bind_some]
  rfl

theorem accepts_congr {t : Topo}
    (hl : ∀ st, s.states slink.state = some st → t.states slink.state = some st)
    (hc : ∀ st, s.states conn.state = some st → t.states conn.state = some st)
    (hn : ∀ node cls, s.nodes slink.node = some node → s.clusters node.cls = some cls →
      t.nodes slink.node = some node ∧ t.clusters node.cls = some cls)
    {b : Bool} (h : accepts s conn slink = some b) : accepts t conn slink = some b := by
  unfold accepts at h ⊢
  simp only [Option.bind_eq_bind, Option.bind_eq_some_iff] at h ⊢
  obtain ⟨lst, hlst, cst, hcst, node, hnode, cls, hcls, h⟩ := h
  obtain ⟨hnode, hcls⟩ := hn node cls hnode hcls
  exact ⟨lst, hl _ hlst, cst, hc _ hcst, node, hnode, cls, hcls, h⟩

/-- A relay stays what it is when what it refers to does. -/
theorem Relays.congr (h : Relays rnss s r relay l slink conn st) {t : Topo}
    (hs : ∀ a st, a = relay.sourceRt ∨ a = relay.targetRt ∨ a = conn.state →
      s.states a = some st → t.states a = some st)
    (hn : ∀ node cls, s.nodes slink.node = some node → s.clusters node.cls = some cls →
      t.nodes slink.node = some node ∧ t.clusters node.cls = some cls)
    (hsource : t.any relay.sourceRt = s.any relay.sourceRt)
    (htarget : t.any relay.targetRt = s.any relay.targetRt) (hlink : t.links l = s.links l)
    (hconn : t.conns relay.conn = s.conns relay.conn) :
    Relays rnss t r relay l slink conn st where
  source := hsource.trans h.source
  link := hlink.trans h.link
  rt := h.rt
  conn := hconn.trans h.conn
  accepted := accepts_congr (fun st => hs _ st (.inl h.rt)) (fun st => hs _ st (.inr (.inr rfl))) hn
    h.accepted
  target := hs _ _ (.inr (.inl rfl)) h.target
  func := h.func
  any := htarget.trans h.any
  sent := h.sent

/-- Two relays with the same transaction are one. -/
theorem Wf.target_inj (h : Wf rnss s) {r' : Nat} {relay' : Relay} (hr : s.relays r = some relay)
    (hr' : s.relays r' = some relay') (heq : relay.targetRt = relay'.targetRt) : r = r' := by
  obtain ⟨_, _, _, _, hrel⟩ := h.relays.relay r relay hr
  obtain ⟨_, _, _, _, hrel'⟩ := h.relays.relay r' relay' hr'
  have hany := hrel.any
  rw [heq, hrel'.any] at hany
  exact Any.relay.inj hany.symm

theorem Wf.source_ne_target (h : Wf rnss s) {r' : Nat} {relay' : Relay}
    (hr : s.relays r = some relay) (hr' : s.relays r' = some relay') :
    relay'.sourceRt ≠ relay.targetRt := by
  obtain ⟨_, _, _, _, hrel⟩ := h.relays.relay r relay hr
  obtain ⟨_, _, _, _, hrel'⟩ := h.relays.relay r' relay' hr'
  intro heq
  have hany := hrel.any
  rw [← heq, hrel'.source] at hany
  cases hany

theorem Wf.without (h : Wf rnss s) (hr : s.relays r = some relay) (hl : s.sourceLink r = some l) :
    Wf rnss (s.without r relay l) := by
  obtain ⟨l', slink, conn, st, hrel⟩ := h.relays.relay r relay hr
  cases (hrel.sourceLink h.trees hr).symm.trans hl
  have hany : ∀ a, a ≠ relay.targetRt → (s.without r relay l).any a = s.any a :=
    fun a ha => Function.update_of_ne ha _ _
  have hrelays : ∀ r' relay', (s.without r relay l).relays r' = some relay' ↔
      r' ≠ r ∧ s.relays r' = some relay' :=
    fun r' relay' => update_none
  have hlinks : LinkWf (s.without r relay l) := by
    refine { h.links with link := fun l' slink' hl' => ?_ }
    obtain ⟨lst, hlst, hf, ha⟩ := h.links.link l' slink' hl'
    refine ⟨lst, hlst, hf, ?_⟩
    rw [hany, ha]
    rintro heq
    rw [heq, hrel.any] at ha
    cases ha
  have hkeep : ∀ r' relay', r' ≠ r → s.relays r' = some relay' →
      ∃ l' slink' conn' st', Relays rnss s r' relay' l' slink' conn' st' ∧
        Relays rnss (s.without r relay l) r' relay' l' slink' conn' st' := by
    intro r' relay' hne hr'
    obtain ⟨l', slink', conn', st', hrel'⟩ := h.relays.relay r' relay' hr'
    refine ⟨l', slink', conn', st', hrel', hrel'.congr (fun _ _ _ h => h)
      (fun _ _ hn hk => ⟨hn, hk⟩) ?_ ?_ rfl rfl⟩
    · exact hany _ (h.source_ne_target hr hr')
    · exact hany _ fun heq => hne (h.target_inj hr' hr heq)
  have hkey : ∀ r', r' ≠ r → (s.relays r').isSome →
      (s.without r relay l).relayKey r' = s.relayKey r' := by
    intro r' hne hsome
    obtain ⟨relay', hr'⟩ := Option.isSome_iff_exists.mp hsome
    obtain ⟨l', slink', conn', st', hold, hnew⟩ := hkeep r' relay' hne hr'
    rw [hold.relayKey h.trees hr', hnew.relayKey hlinks.toLinkTrees ((hrelays r' relay').mpr ⟨hne, hr'⟩)]
  constructor
  case conns =>
    refine ⟨h.conns.mem, h.conns.nodup, fun c cn hcn => ?_, h.conns.iocom⟩
    obtain ⟨cst, hcst, hf, ha, hi⟩ := h.conns.state c cn hcn
    refine ⟨cst, hcst, hf, ?_, hi⟩
    rw [hany, ha]
    rintro heq
    rw [heq, hrel.any] at ha
    cases ha
  case links => exact hlinks
  case relays =>
    constructor
    case relay =>
      intro r' relay' hr'
      obtain ⟨hne, hr'⟩ := (hrelays r' relay').mp hr'
      obtain ⟨l', slink', conn', st', _, hnew⟩ := hkeep r' relay' hne hr'
      exact ⟨l', slink', conn', st', hnew⟩
    case tree =>
      intro c cn hcn
      obtain ⟨hord, hmem⟩ := h.relays.tree c cn hcn
      have hmem' : ∀ r', r' ∈ (s.without r relay l).connTree c ↔ r' ≠ r ∧ r' ∈ s.connTree c := by
        intro r'
        show r' ∈ update s.connTree relay.conn _ c ↔ _
        rcases eq_or_ne c relay.conn with rfl | hc
        · rw [Function.update_self]
          exact hord.nodup.mem_erase_iff
        · rw [Function.update_of_ne hc]
          refine ⟨fun hin => ⟨?_, hin⟩, fun hin => hin.2⟩
          rintro rfl
          obtain ⟨relay', hr', heq⟩ := (hmem r').mp hin
          cases hr.symm.trans hr'
          exact hc heq.symm
      constructor
      · have hsub : OrdTree.Ordered relayCmp s.relayKey ((s.without r relay l).connTree c) := by
          refine hord.sublist ?_
          show (update s.connTree relay.conn _ c).Sublist _
          rcases eq_or_ne c relay.conn with rfl | hc
          · rw [Function.update_self]
            exact List.erase_sublist
          · rw [Function.update_of_ne hc]
        refine hsub.congr fun r' hr' => ?_
        obtain ⟨hne, hin⟩ := (hmem' r').mp hr'
        obtain ⟨relay', hr', _⟩ := (hmem r').mp hin
        exact hkey r' hne (by rw [hr']; rfl)
      · intro r'
        simp only [hmem', hmem, hrelays]
        exact ⟨fun ⟨hne, relay', hr', hc⟩ => ⟨relay', ⟨hne, hr'⟩, hc⟩,
          fun ⟨relay', ⟨hne, hr'⟩, hc⟩ => ⟨hne, relay', hr', hc⟩⟩
    case relayq =>
      intro l' slink' hl'
      obtain ⟨hnodup, hmem⟩ := h.relays.relayq l' slink' hl'
      have hmem' : (update s.relayq l ((s.relayq l).erase r) l').Nodup ∧
          ∀ r', r' ∈ update s.relayq l ((s.relayq l).erase r) l' ↔ r' ≠ r ∧ r' ∈ s.relayq l' := by
        rcases eq_or_ne l' l with rfl | hne
        · rw [Function.update_self]
          exact ⟨hnodup.erase r, fun r' => hnodup.mem_erase_iff⟩
        · rw [Function.update_of_ne hne]
          refine ⟨hnodup, fun r' => ⟨fun hin => ⟨?_, hin⟩, fun hin => hin.2⟩⟩
          rintro rfl
          obtain ⟨relay', hr', heq⟩ := (hmem r').mp hin
          cases hr.symm.trans hr'
          obtain ⟨_, _, _, ha⟩ := h.links.link l' slink' hl'
          rw [← heq, hrel.source] at ha
          exact hne (Any.link.inj ha.symm)
      refine ⟨hmem'.1, fun r' => ?_⟩
      show r' ∈ update s.relayq l ((s.relayq l).erase r) l' ↔ _
      simp only [hmem'.2, hmem, hrelays]
      exact ⟨fun ⟨hne, relay', hr', hc⟩ => ⟨relay', ⟨hne, hr'⟩, hc⟩,
        fun ⟨relay', ⟨hne, hr'⟩, hc⟩ => ⟨hne, relay', hr', hc⟩⟩
  case any =>
    intro a ast hast
    have hold := h.any a ast hast
    rcases eq_or_ne a relay.targetRt with rfl | hne
    · cases hrel.target.symm.trans hast
      show AnyOk _ _ _ (update s.any relay.targetRt .null relay.targetRt)
      rw [Function.update_self]
      exact hrel.func
    · rw [hany a hne]
      cases ha : s.any a with
      | null =>
          rw [ha] at hold
          exact hold
      | conn c =>
          rw [ha] at hold
          exact hold
      | link l' =>
          rw [ha] at hold
          exact hold
      | relay r' =>
          rw [ha] at hold
          obtain ⟨hf, relay', hr', ht⟩ := hold
          refine ⟨hf, relay', (hrelays r' relay').mpr ⟨?_, hr'⟩, ht⟩
          rintro rfl
          cases hr.symm.trans hr'
          exact hne ht.symm
  case top =>
    intro a ha
    obtain ⟨hs, hn⟩ := h.top a ha
    refine ⟨hs, ?_⟩
    show update s.relays r none a = none
    rcases eq_or_ne a r with rfl | hne
    · exact Function.update_self ..
    · rw [Function.update_of_ne hne]
      exact hn

/-! ### A new relay -/

/-- The topology with a relay that is not in its tree and its list yet. -/
def Topo.made (s : Topo) (rnss : BitVec 32) (r t c iocom : Nat) (slink : Link) : Topo :=
  { s with
    relays := update s.relays r (some ⟨c, slink.state, t⟩)
    states := update s.states t (some ⟨iocom, .lnkRelay, some (relayed rnss slink.span)⟩)
    any := update s.any t (.relay r)
    top := max s.top (max (r + 1) (t + 1)) }

def Topo.withRelay (s : Topo) (rnss : BitVec 32) (r t c iocom : Nat) (l : Nat) (slink : Link)
    (tree : List Nat) : Topo :=
  { s.made rnss r t c iocom slink with
    connTree := update s.connTree c tree
    relayq := update s.relayq l (s.relayq l ++ [r]) }

section New

variable {t iocom : Nat}

/-- What a new relay needs: unused addresses, and a link that passes the filters of the conn
and is not relayed to it. -/
structure Addable (s : Topo) (r t c l : Nat) (slink : Link) (cn : Conn) : Prop where
  relay : s.relays r = none
  state : s.states t = none
  conn : s.conns c = some cn
  link : s.links l = some slink
  accepted : accepts s cn slink = some true
  new : ∀ r ∈ s.connTree c, s.sourceLink r ≠ some l

theorem Addable.keep (hadd : Addable s r t c l slink conn) (rnss : BitVec 32) (iocom : Nat) :
    ∀ a st, s.states a = some st → (s.made rnss r t c iocom slink).states a = some st :=
  fun a st hst => update_keep hadd.state hst _

/-- Other transactions stay what they are. -/
theorem Addable.any_ne (hadd : Addable s r t c l slink conn) (rnss : BitVec 32) (iocom : Nat)
    {a : Nat} {st : State}
    (hst : s.states a = some st) : (s.made rnss r t c iocom slink).any a = s.any a := by
  refine Function.update_of_ne ?_ _ _
  rintro rfl
  rw [hadd.state] at hst
  cases hst

theorem Addable.relays (hadd : Addable s r t c l slink conn) (rnss : BitVec 32) (iocom : Nat)
    {r' : Nat} {relay' : Relay} :
    (s.made rnss r t c iocom slink).relays r' = some relay' ↔
      r' = r ∧ relay' = ⟨c, slink.state, t⟩ ∨ s.relays r' = some relay' := by
  refine update_some.trans (or_congr_right ⟨And.right, fun hr => ⟨?_, hr⟩⟩)
  rintro rfl
  rw [hadd.relay] at hr
  cases hr

theorem Wf.made_links (h : Wf rnss s) (hadd : Addable s r t c l slink conn) (iocom : Nat) :
    LinkWf (s.made rnss r t c iocom slink) := by
  refine { h.links with link := fun l' slink' hl' => ?_ }
  obtain ⟨lst, hlst, hf, ha⟩ := h.links.link l' slink' hl'
  exact ⟨lst, hadd.keep rnss iocom _ _ hlst, hf, by rw [hadd.any_ne rnss iocom hlst, ha]⟩

theorem Wf.made_keep (h : Wf rnss s) (hadd : Addable s r t c l slink conn) (iocom : Nat)
    {r' : Nat} {relay' : Relay} (hr' : s.relays r' = some relay') :
    ∃ l' slink' conn' st', Relays rnss s r' relay' l' slink' conn' st' ∧
      Relays rnss (s.made rnss r t c iocom slink) r' relay' l' slink' conn' st' := by
  obtain ⟨l', slink', conn', st', hrel'⟩ := h.relays.relay r' relay' hr'
  obtain ⟨sst, hsst⟩ := hrel'.sourceState h.trees
  exact ⟨l', slink', conn', st', hrel', hrel'.congr (fun a st _ => hadd.keep rnss iocom a st)
    (fun _ _ hn hk => ⟨hn, hk⟩) (hadd.any_ne rnss iocom hsst) (hadd.any_ne rnss iocom hrel'.target) rfl rfl⟩

theorem Wf.made_new (h : Wf rnss s) (hadd : Addable s r t c l slink conn) (iocom : Nat) :
    Relays rnss (s.made rnss r t c iocom slink) r ⟨c, slink.state, t⟩ l slink conn
      ⟨iocom, .lnkRelay, some (relayed rnss slink.span)⟩ := by
  obtain ⟨lst, hlst, _, ha⟩ := h.links.link l slink hadd.link
  refine ⟨(hadd.any_ne rnss iocom hlst).trans ha, hadd.link, rfl, hadd.conn, ?_, Function.update_self .., rfl,
    Function.update_self .., rfl⟩
  exact accepts_congr (hadd.keep rnss iocom _) (hadd.keep rnss iocom _)
    (fun _ _ hn hk => ⟨hn, hk⟩) hadd.accepted

/-- The keys of the other relays stay what they are. -/
theorem Wf.made_key (h : Wf rnss s) (hadd : Addable s r t c l slink conn) (iocom : Nat)
    {r' : Nat} {relay' : Relay} (hr' : s.relays r' = some relay') :
    (s.made rnss r t c iocom slink).relayKey r' = s.relayKey r' := by
  obtain ⟨l', slink', conn', st', hold, hnew⟩ := h.made_keep hadd iocom hr'
  rw [hold.relayKey h.trees hr',
    hnew.relayKey (h.made_links hadd iocom).toLinkTrees ((hadd.relays rnss iocom).mpr (.inr hr'))]

theorem Wf.key_new (h : Wf rnss s) (hadd : Addable s r t c l slink conn) {r' : Nat}
    (hr' : r' ∈ s.connTree c) : s.relayKey r' ≠ some ⟨slink.node, slink.key⟩ := by
  obtain ⟨relay', hrel, hc⟩ := ((h.relays.tree c conn hadd.conn).2 r').mp hr'
  obtain ⟨l', slink', conn', st', hold⟩ := h.relays.relay r' relay' hrel
  rw [hold.relayKey h.trees hrel]
  intro heq
  have hstate : slink'.state = slink.state := congrArg (fun k => k.link.state) (Option.some.inj heq)
  obtain ⟨_, _, _, ha⟩ := h.links.link l slink hadd.link
  obtain ⟨_, _, _, ha'⟩ := h.links.link l' slink' hold.link
  rw [hstate, ha] at ha'
  cases ha'
  exact hadd.new r' hr' (hold.sourceLink h.trees hrel)

/-- The place of the new relay in its tree. -/
theorem Wf.insert (h : Wf rnss s) (hadd : Addable s r t c l slink conn) (iocom : Nat) :
    ∃ before after, s.connTree c = before ++ after ∧
      OrdTree.insert relayCmp (s.made rnss r t c iocom slink).relayKey r (s.connTree c) =
        some (before ++ r :: after) ∧
      OrdTree.Ordered relayCmp (s.made rnss r t c iocom slink).relayKey (before ++ r :: after) := by
  obtain ⟨hord, hmem⟩ := h.relays.tree c conn hadd.conn
  have hkeep : ∀ r' ∈ s.connTree c,
      (s.made rnss r t c iocom slink).relayKey r' = s.relayKey r' := by
    intro r' hr'
    obtain ⟨relay', hrel, _⟩ := (hmem r').mp hr'
    exact h.made_key hadd iocom hrel
  have hkey := (h.made_new hadd iocom).relayKey (h.made_links hadd iocom).toLinkTrees
    ((hadd.relays rnss iocom).mpr (.inl ⟨rfl, rfl⟩))
  have hord' := hord.congr hkeep
  obtain ⟨before, after, hsplit, hins, hb, ha⟩ := OrdTree.insert_spec hord' hkey fun r' hr' => by
    rw [hkeep r' hr']
    exact h.key_new hadd hr'
  refine ⟨before, after, hsplit, hins, ?_⟩
  rw [hsplit] at hord'
  exact hord'.insert (by rw [hkey]; rfl) hb ha

theorem Wf.withRelay (h : Wf rnss s) (hadd : Addable s r t c l slink conn)
    (iocom : Nat) {before after : List Nat}
    (hsplit : s.connTree c = before ++ after)
    (hord : OrdTree.Ordered relayCmp (s.made rnss r t c iocom slink).relayKey
      (before ++ r :: after)) :
    Wf rnss (s.withRelay rnss r t c iocom l slink (before ++ r :: after)) := by
  have hconns := h.conns
  constructor
  case conns =>
    refine ⟨hconns.mem, hconns.nodup, fun c' cn hcn => ?_, fun i c' hi => ?_⟩
    · obtain ⟨st, hst, hf, ha, hi⟩ := hconns.state c' cn hcn
      exact ⟨st, hadd.keep rnss iocom _ _ hst, hf, (hadd.any_ne rnss iocom hst).trans ha, hi⟩
    · obtain ⟨cn, st, hcn, hst, heq⟩ := hconns.iocom i c' hi
      exact ⟨cn, st, hcn, hadd.keep rnss iocom _ _ hst, heq⟩
  case links =>
    have hl := h.made_links hadd iocom
    exact ⟨⟨hl.clusterTree, hl.clusterOrd, hl.cluster, hl.nodeCls, hl.node, hl.linkNode, hl.link⟩,
      hl.clsNonempty, hl.nodeNonempty⟩
  case relays =>
    constructor
    case relay =>
      intro r' relay' hr'
      rcases (hadd.relays rnss iocom).mp hr' with ⟨rfl, rfl⟩ | hr'
      · have hn := h.made_new hadd iocom
        exact ⟨_, _, _, _, hn.source, hn.link, hn.rt, hn.conn, hn.accepted, hn.target, hn.func,
          hn.any, hn.sent⟩
      · obtain ⟨_, _, _, _, _, hn⟩ := h.made_keep hadd iocom hr'
        exact ⟨_, _, _, _, hn.source, hn.link, hn.rt, hn.conn, hn.accepted, hn.target, hn.func,
          hn.any, hn.sent⟩
    case tree =>
      intro c' cn hcn
      obtain ⟨hord', hmem⟩ := h.relays.tree c' cn hcn
      have hrelays : ∀ r', (∃ relay', (s.made rnss r t c iocom slink).relays r' = some relay' ∧
          relay'.conn = c') ↔ r' = r ∧ c' = c ∨ ∃ relay', s.relays r' = some relay' ∧
            relay'.conn = c' := by
        intro r'
        constructor
        · rintro ⟨relay', hr', hc⟩
          rcases (hadd.relays rnss iocom).mp hr' with ⟨rfl, rfl⟩ | hr'
          · exact .inl ⟨rfl, hc.symm⟩
          · exact .inr ⟨relay', hr', hc⟩
        · rintro (⟨rfl, rfl⟩ | ⟨relay', hr', hc⟩)
          · exact ⟨_, (hadd.relays rnss iocom).mpr (.inl ⟨rfl, rfl⟩), rfl⟩
          · exact ⟨relay', (hadd.relays rnss iocom).mpr (.inr hr'), hc⟩
      show OrdTree.Ordered relayCmp (s.made rnss r t c iocom slink).relayKey
        (update s.connTree c (before ++ r :: after) c') ∧
        ∀ r', r' ∈ update s.connTree c (before ++ r :: after) c' ↔ ∃ relay',
          (s.made rnss r t c iocom slink).relays r' = some relay' ∧ relay'.conn = c'
      rcases eq_or_ne c' c with rfl | hc
      · rw [Function.update_self]
        refine ⟨hord, fun r' => ?_⟩
        rw [hrelays, ← hmem, hsplit]
        simp only [List.mem_append, List.mem_cons, and_true]
        exact ⟨fun h => h.elim (fun h => .inr (.inl h)) fun h => h.elim .inl fun h => .inr (.inr h),
          fun h => h.elim (fun h => .inr (.inl h)) fun h => h.elim .inl fun h => .inr (.inr h)⟩
      · rw [Function.update_of_ne hc]
        refine ⟨hord'.congr fun r' hr' => ?_, fun r' => ?_⟩
        · obtain ⟨relay', hr', _⟩ := (hmem r').mp hr'
          exact h.made_key hadd iocom hr'
        · rw [hrelays, ← hmem]
          exact ⟨.inr, fun h => h.elim (fun h => absurd h.2 hc) id⟩
    case relayq =>
      intro l' slink' hl'
      obtain ⟨hnodup, hmem⟩ := h.relays.relayq l' slink' hl'
      have hrelays : ∀ r', (∃ relay', (s.made rnss r t c iocom slink).relays r' = some relay' ∧
          relay'.sourceRt = slink'.state) ↔ r' = r ∧ l' = l ∨ ∃ relay', s.relays r' = some relay' ∧
            relay'.sourceRt = slink'.state := by
        intro r'
        constructor
        · rintro ⟨relay', hr', hc⟩
          rcases (hadd.relays rnss iocom).mp hr' with ⟨rfl, rfl⟩ | hr'
          · have hc : slink.state = slink'.state := hc
            obtain ⟨_, _, _, ha⟩ := h.links.link l slink hadd.link
            obtain ⟨_, _, _, ha'⟩ := h.links.link l' slink' hl'
            rw [← hc, ha] at ha'
            exact .inl ⟨rfl, (Any.link.inj ha').symm⟩
          · exact .inr ⟨relay', hr', hc⟩
        · rintro (⟨rfl, rfl⟩ | ⟨relay', hr', hc⟩)
          · cases hl'.symm.trans hadd.link
            exact ⟨_, (hadd.relays rnss iocom).mpr (.inl ⟨rfl, rfl⟩), rfl⟩
          · exact ⟨relay', (hadd.relays rnss iocom).mpr (.inr hr'), hc⟩
      show (update s.relayq l (s.relayq l ++ [r]) l').Nodup ∧
        ∀ r', r' ∈ update s.relayq l (s.relayq l ++ [r]) l' ↔ ∃ relay',
          (s.made rnss r t c iocom slink).relays r' = some relay' ∧
            relay'.sourceRt = slink'.state
      rcases eq_or_ne l' l with rfl | hl
      · rw [Function.update_self]
        constructor
        · refine List.nodup_append.mpr ⟨hnodup, List.nodup_singleton r, fun r' hr' x hx => ?_⟩
          obtain rfl := List.mem_singleton.mp hx
          rintro rfl
          obtain ⟨relay', hr', _⟩ := (hmem r').mp hr'
          rw [hadd.relay] at hr'
          cases hr'
        · intro r'
          rw [hrelays, ← hmem, List.mem_append, List.mem_singleton]
          exact ⟨fun h => h.elim .inr fun h => .inl ⟨h, rfl⟩,
            fun h => h.elim (fun h => .inr h.1) .inl⟩
      · rw [Function.update_of_ne hl]
        refine ⟨hnodup, fun r' => ?_⟩
        rw [hrelays, ← hmem]
        exact ⟨.inr, fun h => h.elim (fun h => absurd h.2 hl) id⟩
  case any =>
    intro a ast hast
    have hast : update s.states t _ a = some ast := hast
    rcases eq_or_ne a t with rfl | hne
    · rw [Function.update_self] at hast
      cases hast
      show AnyOk _ _ _ (update s.any a (.relay r) a)
      rw [Function.update_self]
      exact ⟨rfl, _, (hadd.relays rnss iocom).mpr (.inl ⟨rfl, rfl⟩), rfl⟩
    · rw [Function.update_of_ne hne] at hast
      have hold := h.any a ast hast
      show AnyOk _ _ _ (update s.any t (.relay r) a)
      rw [Function.update_of_ne hne]
      cases ha : s.any a with
      | null =>
          rw [ha] at hold
          exact hold
      | conn c' =>
          rw [ha] at hold
          exact hold
      | link l' =>
          rw [ha] at hold
          exact hold
      | relay r' =>
          rw [ha] at hold
          obtain ⟨hf, relay', hr', ht⟩ := hold
          exact ⟨hf, relay', (hadd.relays rnss iocom).mpr (.inr hr'), ht⟩
  case top =>
    intro a ha
    obtain ⟨htop, hnew⟩ := Nat.max_le.mp (show max s.top (max (r + 1) (t + 1)) ≤ a from ha)
    obtain ⟨hr, ht⟩ := Nat.max_le.mp hnew
    obtain ⟨hs, hn⟩ := h.top a htop
    constructor
    · show update s.states t _ a = none
      rw [Function.update_of_ne (Nat.ne_of_gt ht)]
      exact hs
    · show update s.relays r _ a = none
      rw [Function.update_of_ne (Nat.ne_of_gt hr)]
      exact hn

end New

end Relay

end Hammer2.Span
