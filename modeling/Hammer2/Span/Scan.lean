/-
# `Hammer2.Span.Scan` — bringing the relays up to date

    linksRelayed    the links of a node that are relayed to a conn
    SyncedPair      it is the best link of the node, if that passes the filters, and no other
    relayScan_spec  a scan brings every pair of a node and a conn to that

The relays of a node are a stretch of the tree of the conn, and the best link's relay comes
first in it.
-/
import Hammer2.Span.Wf

namespace Hammer2.Span

open Function (update)

/-! ## Deleting relays -/

/-- Nothing but relays is gone. -/
structure Pruned (s t : Topo) : Prop where
  states : t.states = s.states
  any : ∀ a, (∀ r, s.any a ≠ .relay r) → t.any a = s.any a
  iocomConn : t.iocomConn = s.iocomConn
  conns : t.conns = s.conns
  connq : t.connq = s.connq
  clusters : t.clusters = s.clusters
  clsTree : t.clsTree = s.clsTree
  clusterTree : t.clusterTree = s.clusterTree
  nodes : t.nodes = s.nodes
  nodeTree : t.nodeTree = s.nodeTree
  links : t.links = s.links
  top : t.top = s.top

theorem Pruned.refl (s : Topo) : Pruned s s :=
  ⟨rfl, fun _ _ => rfl, rfl, rfl, rfl, rfl, rfl, rfl, rfl, rfl, rfl, rfl⟩

theorem Pruned.trans {s t u : Topo} (h : Pruned s t) (h' : Pruned t u) : Pruned s u where
  states := h'.states.trans h.states
  any a ha := by
    have heq := h.any a ha
    rw [h'.any a (by rwa [heq]), heq]
  iocomConn := h'.iocomConn.trans h.iocomConn
  conns := h'.conns.trans h.conns
  connq := h'.connq.trans h.connq
  clusters := h'.clusters.trans h.clusters
  clsTree := h'.clsTree.trans h.clsTree
  clusterTree := h'.clusterTree.trans h.clusterTree
  nodes := h'.nodes.trans h.nodes
  nodeTree := h'.nodeTree.trans h.nodeTree
  links := h'.links.trans h.links
  top := h'.top.trans h.top

section Delete

variable {rnss : BitVec 32} {s t : Topo} {r c n : Nat} {relay : Relay}

theorem Wf.pruned (h : Wf rnss s) (hr : s.relays r = some relay) (l : Nat) :
    Pruned s (s.without r relay l) := by
  refine ⟨rfl, fun a ha => ?_, rfl, rfl, rfl, rfl, rfl, rfl, rfl, rfl, rfl, rfl⟩
  obtain ⟨_, _, _, _, hrel⟩ := h.relays.relay r relay hr
  refine Function.update_of_ne ?_ _ _
  rintro rfl
  exact ha r hrel.any

/-- A loop that deletes relays. -/
theorem Wf.deleteAll : ∀ {rs : List Nat} {s : Topo}, Wf rnss s → rs.Nodup →
    (∀ r ∈ rs, (s.relays r).isSome) → ∃ t, forEach relayDelete rs s = some t ∧ Wf rnss t ∧
      Pruned s t ∧ ∀ r, t.relays r = if r ∈ rs then none else s.relays r
  | [], s, h, _, _ => ⟨s, rfl, h, Pruned.refl s, fun _ => (if_neg List.not_mem_nil).symm⟩
  | r :: rs, s, h, hnodup, hlive => by
      obtain ⟨relay, hr⟩ := Option.isSome_iff_exists.mp (hlive r List.mem_cons_self)
      obtain ⟨l, hl, hdel⟩ := h.relayDelete_eq hr
      obtain ⟨hnot, hnodup⟩ := List.nodup_cons.mp hnodup
      have hother : ∀ r' ∈ rs, (s.without r relay l).relays r' = s.relays r' := by
        intro r' hr'
        refine Function.update_of_ne ?_ _ _
        rintro rfl
        exact hnot hr'
      obtain ⟨t, ht, hwf, hp, hrel⟩ := Wf.deleteAll (h.without hr hl) hnodup fun r' hr' => by
        rw [hother r' hr']
        exact hlive r' (List.mem_cons_of_mem r hr')
      refine ⟨t, ?_, hwf, (h.pruned hr l).trans hp, fun r' => ?_⟩
      · rw [forEach, hdel]
        exact ht
      · rw [hrel r']
        rcases eq_or_ne r' r with rfl | hne
        · rw [if_pos List.mem_cons_self, if_neg hnot]
          exact Function.update_self ..
        · simp only [List.mem_cons, hne, false_or]
          split
          · rfl
          · exact Function.update_of_ne hne _ _

/-! ## The tree of a conn -/

/-- The node of a relay. -/
def Topo.nodeOf (s : Topo) (r : Nat) : Option Nat := (s.relayKey r).map (·.node)

/-- The links of a node that are relayed to a conn, in the order of its tree. -/
def linksRelayed (s : Topo) (n c : Nat) : List Nat :=
  (s.connTree c).filterMap fun r => if s.nodeOf r = some n then s.sourceLink r else none

/-- A relay of the tree of a conn, with its link. -/
theorem Wf.mem_tree (h : Wf rnss s) {cn : Conn} (hc : s.conns c = some cn)
    (hr : r ∈ s.connTree c) : ∃ relay l slink st, s.relays r = some relay ∧ relay.conn = c ∧
      Relays rnss s r relay l slink cn st := by
  obtain ⟨relay, hlive, rfl⟩ := ((h.relays.tree c cn hc).2 r).mp hr
  obtain ⟨l, slink, cn', st, hrel⟩ := h.relays.relay r relay hlive
  cases hrel.conn.symm.trans hc
  exact ⟨relay, l, slink, st, hlive, rfl, hrel⟩

theorem Relays.nodeOf {l : Nat} {slink : Link} {cn : Conn} {st : State}
    (h : Relays rnss s r relay l slink cn st) (hl : LinkTrees s) (hr : s.relays r = some relay) :
    s.nodeOf r = some slink.node := by
  rw [Topo.nodeOf, h.relayKey hl hr]
  rfl

/-- A list that increases along `f` is in three parts: below a value, at it, and above it. -/
theorem split_three (f : Nat → Option Nat) (n : Nat) : ∀ (xs : List Nat),
    (∀ x ∈ xs, (f x).isSome) →
    xs.Pairwise (fun x y => ∀ a b, f x = some a → f y = some b → a ≤ b) →
    ∃ before at_ after, xs = before ++ (at_ ++ after) ∧ (∀ x ∈ before, ∃ a < n, f x = some a) ∧
      (∀ x ∈ at_, f x = some n) ∧ ∀ x ∈ after, ∃ a > n, f x = some a
  | [], _, _ => ⟨[], [], [], rfl, fun _ h => absurd h List.not_mem_nil,
      fun _ h => absurd h List.not_mem_nil, fun _ h => absurd h List.not_mem_nil⟩
  | x :: xs, hsome, hpair => by
      obtain ⟨hx, hxs⟩ := List.pairwise_cons.mp hpair
      obtain ⟨a, ha⟩ := Option.isSome_iff_exists.mp (hsome x List.mem_cons_self)
      obtain ⟨before, at_, after, rfl, hb, hat, haf⟩ := split_three f n xs
        (fun y hy => hsome y (List.mem_cons_of_mem x hy)) hxs
      rcases Nat.lt_trichotomy a n with hlt | rfl | hgt
      · refine ⟨x :: before, at_, after, rfl, fun y hy => ?_, hat, haf⟩
        rcases List.mem_cons.mp hy with rfl | hy
        · exact ⟨a, hlt, ha⟩
        · exact hb y hy
      · have hnil : before = [] := by
          refine List.eq_nil_iff_forall_not_mem.mpr fun y hy => ?_
          obtain ⟨b, hlt, hfb⟩ := hb y hy
          exact absurd (hx y (List.mem_append_left _ hy) a b ha hfb) (Nat.not_le.mpr hlt)
        subst hnil
        refine ⟨[], x :: at_, after, rfl, hb, fun y hy => ?_, haf⟩
        rcases List.mem_cons.mp hy with rfl | hy
        · exact ha
        · exact hat y hy
      · have hnil : before = [] := by
          refine List.eq_nil_iff_forall_not_mem.mpr fun y hy => ?_
          obtain ⟨b, hlt, hfb⟩ := hb y hy
          have hle := hx y (List.mem_append_left _ hy) a b ha hfb
          exact absurd hle (Nat.not_le.mpr (Nat.lt_trans hlt hgt))
        have hnil' : at_ = [] := by
          refine List.eq_nil_iff_forall_not_mem.mpr fun y hy => ?_
          have hle := hx y (List.mem_append_right _ (List.mem_append_left _ hy)) a n ha (hat y hy)
          exact absurd hle (Nat.not_le.mpr hgt)
        subst hnil hnil'
        refine ⟨[], [], x :: after, rfl, hb, hat, fun y hy => ?_⟩
        rcases List.mem_cons.mp hy with rfl | hy
        · exact ⟨a, hgt, ha⟩
        · exact haf y hy

/-- The relays of a node are a stretch of the tree. -/
theorem Wf.stretch (h : Wf rnss s) {cn : Conn} (hc : s.conns c = some cn) (n : Nat) :
    ∃ before at_ after, s.connTree c = before ++ (at_ ++ after) ∧
      (∀ r ∈ before, ∃ a < n, s.nodeOf r = some a) ∧ (∀ r ∈ at_, s.nodeOf r = some n) ∧
      ∀ r ∈ after, ∃ a > n, s.nodeOf r = some a := by
  obtain ⟨hord, _⟩ := h.relays.tree c cn hc
  refine split_three s.nodeOf n (s.connTree c) (fun r hr => ?_) ?_
  · obtain ⟨k, hk⟩ := Option.isSome_iff_exists.mp (hord.readable r hr)
    rw [Topo.nodeOf, hk]
    rfl
  · refine hord.increasing.imp fun {x y} hlt a b ha hb => ?_
    obtain ⟨kx, ky, hx, hy, hcmp⟩ := hlt
    rw [Topo.nodeOf, hx] at ha
    rw [Topo.nodeOf, hy] at hb
    cases ha
    cases hb
    refine Nat.not_lt.mp fun hgt => ?_
    have hcmp : (compare kx.node ky.node).then (compare kx.link ky.link) = .lt := hcmp
    rw [Nat.compare_eq_gt.mpr hgt] at hcmp
    cases hcmp

theorem linksRelayed_stretch {before at_ after : List Nat}
    (htree : s.connTree c = before ++ (at_ ++ after)) (hb : ∀ r ∈ before, s.nodeOf r ≠ some n)
    (hat : ∀ r ∈ at_, s.nodeOf r = some n) (haf : ∀ r ∈ after, s.nodeOf r ≠ some n) :
    linksRelayed s n c = at_.filterMap s.sourceLink := by
  have hnil : ∀ {rs : List Nat}, (∀ r ∈ rs, s.nodeOf r ≠ some n) →
      rs.filterMap (fun r => if s.nodeOf r = some n then s.sourceLink r else none) = [] :=
    fun hrs => List.filterMap_eq_nil_iff.mpr fun r hr => if_neg (hrs r hr)
  rw [linksRelayed, htree, List.filterMap_append, List.filterMap_append, hnil hb, hnil haf,
    List.nil_append, List.append_nil]
  exact List.filterMap_congr fun r hr => if_pos (hat r hr)

/-! ## Excess relays -/

/-- What is left of a relay's link does not depend on the other relays. -/
theorem Wf.sourceLink_pruned (h : Wf rnss s) (hp : Pruned s t) (hr : s.relays r = some relay)
    (hrt : t.relays r = some relay) : t.sourceLink r = s.sourceLink r := by
  obtain ⟨l, slink, cn, st, hrel⟩ := h.relays.relay r relay hr
  obtain ⟨sst, hsst⟩ := hrel.sourceState h.trees
  have hany : t.any relay.sourceRt = .link l := by
    rw [hp.any _ fun r' heq => ?_, hrel.source]
    rw [hrel.source] at heq
    cases heq
  have hsst' : t.states relay.sourceRt = some sst := by rw [hp.states, hsst]
  rw [hrel.sourceLink h.trees hr]
  simp only [Topo.sourceLink, hrt, hsst', hany, Option.bind_eq_bind, Option.bind_some]

theorem Wf.nodeOf_pruned (h : Wf rnss s) (hp : Pruned s t) (hr : s.relays r = some relay)
    (hrt : t.relays r = some relay) : t.nodeOf r = s.nodeOf r := by
  rw [Topo.nodeOf, Topo.nodeOf, Topo.relayKey, Topo.relayKey, h.sourceLink_pruned hp hr hrt,
    hp.links]

theorem erase_middle {before after : List Nat} (h : (before ++ r :: after).Nodup) :
    (before ++ r :: after).erase r = before ++ after := by
  have hnot : r ∉ before := fun hin =>
    (List.nodup_append.mp h).2.2 r hin r List.mem_cons_self rfl
  rw [List.erase_append_right _ hnot, List.erase_cons_head]

/-- The relays of the node go, up to the first one of another node. -/
theorem Wf.deleteExtras_spec : ∀ {extras : List Nat} {s : Topo} {kept after : List Nat} {cn : Conn},
    Wf rnss s → s.conns c = some cn → s.connTree c = kept ++ (extras ++ after) →
    (∀ r ∈ extras, s.nodeOf r = some n) → (∀ r ∈ after, s.nodeOf r ≠ some n) →
    ∃ t, deleteExtras n (extras ++ after) s = some t ∧ Wf rnss t ∧ Pruned s t ∧
      t.connTree c = kept ++ after ∧ (∀ c' ≠ c, t.connTree c' = s.connTree c') ∧
      ∀ r ∉ extras, t.relays r = s.relays r
  | [], s, kept, after, cn, h, hc, htree, _, haf => by
      refine ⟨s, ?_, h, Pruned.refl s, htree, fun _ _ => rfl, fun _ _ => rfl⟩
      cases after with
      | nil => rfl
      | cons r after =>
          have hin : r ∈ s.connTree c := by
            rw [htree]
            exact List.mem_append_right _ List.mem_cons_self
          obtain ⟨relay, l, slink, st, hr, _, hrel⟩ := h.mem_tree hc hin
          have hne := haf r List.mem_cons_self
          rw [hrel.nodeOf h.trees hr] at hne
          rw [List.nil_append, deleteExtras, hrel.relayKey h.trees hr]
          exact if_neg fun heq => hne (congrArg some heq)
  | r :: extras, s, kept, after, cn, h, hc, htree, hat, haf => by
      have hin : r ∈ s.connTree c := by
        rw [htree]
        exact List.mem_append_right _ List.mem_cons_self
      obtain ⟨relay, l, slink, st, hr, hconn, hrel⟩ := h.mem_tree hc hin
      have hl := hrel.sourceLink h.trees hr
      obtain ⟨l', hl', hdel⟩ := h.relayDelete_eq hr
      cases hl.symm.trans hl'
      have hp := h.pruned hr l
      have hwf := h.without hr hl
      have hnodup := (h.relays.tree c cn hc).1.nodup
      rw [htree] at hnodup
      have hother : ∀ r' ∈ extras ++ after, (s.without r relay l).relays r' = s.relays r' := by
        intro r' hr'
        refine Function.update_of_ne ?_ _ _
        rintro rfl
        exact (List.nodup_cons.mp (List.nodup_append.mp hnodup).2.1).1 hr'
      have hnode : ∀ r' ∈ extras ++ after, (s.without r relay l).nodeOf r' = s.nodeOf r' := by
        intro r' hr'
        have hin' : r' ∈ s.connTree c := by
          rw [htree]
          exact List.mem_append_right _ (List.mem_cons_of_mem r hr')
        obtain ⟨relay', _, _, _, hrel', _⟩ := h.mem_tree hc hin'
        exact h.nodeOf_pruned hp hrel' ((hother r' hr').trans hrel')
      have htree' : (s.without r relay l).connTree c = kept ++ (extras ++ after) := by
        show update s.connTree relay.conn _ c = _
        rw [hconn, Function.update_self, htree]
        exact erase_middle hnodup
      obtain ⟨t, ht, hwf', hp', htree'', hconns, hrelays⟩ := Wf.deleteExtras_spec hwf hc htree'
        (fun r' hr' => by
          rw [hnode r' (List.mem_append_left _ hr')]
          exact hat r' (List.mem_cons_of_mem r hr'))
        (fun r' hr' => by
          rw [hnode r' (List.mem_append_right _ hr')]
          exact haf r' hr')
      refine ⟨t, ?_, hwf', hp.trans hp', htree'', fun c' hne => ?_, fun r' hr' => ?_⟩
      · have hkey : slink.node = n := by
          have hn := hat r List.mem_cons_self
          rw [hrel.nodeOf h.trees hr] at hn
          exact Option.some.inj hn
        rw [List.cons_append, deleteExtras, hrel.relayKey h.trees hr]
        show (if slink.node = n then _ else _) = _
        rw [if_pos hkey, hdel]
        exact ht
      · rw [hconns c' hne]
        show update s.connTree relay.conn _ c' = _
        rw [hconn, Function.update_of_ne hne]
      · obtain ⟨hne, hnot⟩ := not_or.mp (mt List.mem_cons.mpr hr')
        rw [hrelays r' hnot]
        exact Function.update_of_ne hne _ _

end Delete

/-! ## One node and one conn -/

section Specific

variable {rnss : BitVec 32} {addr : Topo → Nat × Nat} {s t : Topo} {r c n l : Nat} {relay : Relay}
  {slink : Link} {cn : Conn}

/-- `malloc` gives memory that is not in use. -/
def Fresh (addr : Topo → Nat × Nat) : Prop :=
  ∀ s : Topo, (∀ a, s.top ≤ a → s.states a = none ∧ s.relays a = none) →
    s.relays (addr s).1 = none ∧ s.states (addr s).2 = none

/-- Nothing but the relays of the node to the conn has changed. -/
structure Scanned (n c : Nat) (s t : Topo) : Prop where
  states : ∀ a st, s.states a = some st → t.states a = some st
  conns : t.conns = s.conns
  connq : t.connq = s.connq
  clusters : t.clusters = s.clusters
  clsTree : t.clsTree = s.clsTree
  clusterTree : t.clusterTree = s.clusterTree
  nodes : t.nodes = s.nodes
  nodeTree : t.nodeTree = s.nodeTree
  links : t.links = s.links
  others : ∀ n' c', n' ≠ n ∨ c' ≠ c → (s.conns c').isSome →
    linksRelayed t n' c' = linksRelayed s n' c'

/-- What the links of relays are. -/
def SameLinks (s t : Topo) : Prop :=
  ∀ r relay, s.relays r = some relay → t.relays r = some relay →
    t.sourceLink r = s.sourceLink r ∧ t.nodeOf r = s.nodeOf r

theorem Wf.sameLinks_withRelay (h : Wf rnss s) {r' t' iocom : Nat} {tree : List Nat}
    (hadd : Addable s r' t' c l slink cn) :
    SameLinks s (s.withRelay rnss r' t' c iocom l slink tree) := by
  intro r relay hr _
  have hlinks := (h.made_links hadd iocom).toLinkTrees
  have hr' := (hadd.relays rnss iocom).mpr (.inr hr)
  obtain ⟨l', slink', cn', st', hold, hnew⟩ := h.made_keep hadd iocom hr
  constructor
  · exact (hnew.sourceLink hlinks hr').trans (hold.sourceLink h.trees hr).symm
  · exact (hnew.nodeOf hlinks hr').trans (hold.nodeOf h.trees hr).symm

/-- The relay that a scan makes. -/
theorem Wf.generateRelay_eq (h : Wf rnss s) (haddr : Fresh addr) (hc : s.conns c = some cn)
    (hl : s.links l = some slink) (hacc : accepts s cn slink = some true)
    (hnew : ∀ r ∈ s.connTree c, s.sourceLink r ≠ some l) : ∃ r' t' iocom before after,
      Addable s r' t' c l slink cn ∧ s.connTree c = before ++ after ∧
      OrdTree.Ordered relayCmp (s.made rnss r' t' c iocom slink).relayKey (before ++ r' :: after) ∧
      generateRelay rnss addr c l s =
        some (r', s.withRelay rnss r' t' c iocom l slink (before ++ r' :: after)) := by
  obtain ⟨hrelay, hstate⟩ := haddr s h.top
  have hadd : Addable s (addr s).1 (addr s).2 c l slink cn :=
    ⟨hrelay, hstate, hc, hl, hacc, hnew⟩
  obtain ⟨cst, hcst, _⟩ := h.conns.state c cn hc
  obtain ⟨before, after, hsplit, hins, hord⟩ := h.insert hadd cst.iocom
  refine ⟨_, _, cst.iocom, before, after, hadd, hsplit, hord, ?_⟩
  simp only [generateRelay, hc, hl, hcst, Option.bind_eq_bind, Option.bind_some]
  have hins' : OrdTree.insert relayCmp (s.made rnss (addr s).1 (addr s).2 c cst.iocom slink).relayKey
      (addr s).1 ((s.made rnss (addr s).1 (addr s).2 c cst.iocom slink).connTree c) =
        some (before ++ (addr s).1 :: after) := hins
  exact congrArg (fun tree => Option.bind tree _) hins'

/-- The best link of a node comes before the others. -/
theorem Wf.best_le (h : Wf rnss s) {node : Node} {best l' : Nat} {slink' : Link} {rest : List Nat}
    (hn : s.nodes n = some node) (htree : s.nodeTree n = best :: rest)
    (hb : s.links best = some slink) (hl' : s.links l' = some slink') (hnode : slink'.node = n) :
    l' = best ∨ linkCmp slink.key slink'.key = .lt := by
  obtain ⟨hord, hmem⟩ := h.links.node n node hn
  have hin := (hmem l').mpr ⟨slink', hl', hnode⟩
  rw [htree] at hin hord
  rcases List.mem_cons.mp hin with heq | hin
  · exact .inl heq
  · obtain ⟨_, hlt, _⟩ := OrdTree.ordered_cons.mp hord
    obtain ⟨kb, kl, hkb, hkl, hcmp⟩ := hlt l' hin
    rw [Topo.linkKey, hb] at hkb
    rw [Topo.linkKey, hl'] at hkl
    cases hkb
    cases hkl
    exact .inr hcmp

theorem dist_le_of_lt {a b : LinkKey} (h : linkCmp a b = .lt) : a.dist ≤ b.dist := by
  refine BitVec.not_lt.mp fun hgt => ?_
  have hne : a.dist ≠ b.dist := fun heq => BitVec.lt_irrefl _ (heq ▸ hgt)
  have hcmp : compare a.dist b.dist = .gt := by
    show (if a.dist < b.dist then _ else if a.dist = b.dist then _ else _) = _
    rw [if_neg (BitVec.not_lt.mpr (BitVec.le_of_lt hgt)), if_neg hne]
  have h : (compare a.dist b.dist).then _ = .lt := h
  rw [hcmp] at h
  cases h

theorem Wf.firstRelay_spec (h : Wf rnss s) (hc : s.conns c = some cn) (n : Nat) :
    ∀ {before at_ after : List Nat}, (∀ r ∈ before ++ (at_ ++ after), r ∈ s.connTree c) →
      (∀ r ∈ before, s.nodeOf r ≠ some n) → (∀ r ∈ at_, s.nodeOf r = some n) →
      (∀ r ∈ after, s.nodeOf r ≠ some n) →
      firstRelay s n (before ++ (at_ ++ after)) = some at_.head? := by
  have hkey : ∀ r ∈ s.connTree c, ∃ k, s.relayKey r = some k ∧ s.nodeOf r = some k.node := by
    intro r hr
    obtain ⟨relay, l, slink, st, hlive, _, hrel⟩ := h.mem_tree hc hr
    exact ⟨_, hrel.relayKey h.trees hlive, hrel.nodeOf h.trees hlive⟩
  have hskip : ∀ (rs tail : List Nat), (∀ r ∈ rs ++ tail, r ∈ s.connTree c) →
      (∀ r ∈ rs, s.nodeOf r ≠ some n) → firstRelay s n (rs ++ tail) = firstRelay s n tail := by
    intro rs
    induction rs with
    | nil => exact fun _ _ _ => rfl
    | cons r rs ih =>
        intro tail hin hne
        obtain ⟨k, hk, hnode⟩ := hkey r (hin r List.mem_cons_self)
        have hrest := ih tail (fun r' hr' => hin r' (List.mem_cons_of_mem r hr'))
          fun r' hr' => hne r' (List.mem_cons_of_mem r hr')
        rw [List.cons_append, firstRelay, hk]
        show (if k.node = n then _ else _) = _
        rw [if_neg fun heq => hne r List.mem_cons_self (by rw [hnode, heq]), hrest]
  intro before at_ after hin hb hat haf
  rw [hskip before _ hin hb]
  cases at_ with
  | nil =>
      have hend := hskip after [] (fun r hr => hin r (List.mem_append_right _ (by simpa using hr))) haf
      rwa [List.append_nil] at hend
  | cons r at_ =>
      obtain ⟨k, hk, hnode⟩ := hkey r (hin r (List.mem_append_right _ List.mem_cons_self))
      rw [List.cons_append, firstRelay, hk]
      show (if k.node = n then _ else _) = _
      rw [if_pos]
      · rfl
      · have heq := hat r List.mem_cons_self
        rw [hnode] at heq
        exact Option.some.inj heq

/-- The second link ends the loop. -/
theorem scanLinks_one (rest : List Nat) (relay : Option Nat) (s : Topo) :
    scanLinks rnss addr c rest 1 relay s = some (relay, s) := by
  cases rest with
  | nil => rfl
  | cons l rest => exact if_pos (Nat.le_refl 2)

/-- At most new relays. -/
structure Grown (c : Nat) (s t : Topo) : Prop where
  states : ∀ a st, s.states a = some st → t.states a = some st
  conns : t.conns = s.conns
  connq : t.connq = s.connq
  clusters : t.clusters = s.clusters
  clsTree : t.clsTree = s.clsTree
  clusterTree : t.clusterTree = s.clusterTree
  nodes : t.nodes = s.nodes
  nodeTree : t.nodeTree = s.nodeTree
  links : t.links = s.links
  relays : ∀ r relay, s.relays r = some relay → t.relays r = some relay
  trees : ∀ c' ≠ c, t.connTree c' = s.connTree c'
  same : SameLinks s t

theorem Grown.refl (c : Nat) (s : Topo) : Grown c s s :=
  ⟨fun _ _ h => h, rfl, rfl, rfl, rfl, rfl, rfl, rfl, rfl, fun _ _ h => h, fun _ _ => rfl,
    fun _ _ _ _ => ⟨rfl, rfl⟩⟩

theorem Wf.grown_withRelay (h : Wf rnss s) {r' t' iocom : Nat} {tree : List Nat}
    (hadd : Addable s r' t' c l slink cn) :
    Grown c s (s.withRelay rnss r' t' c iocom l slink tree) := by
  refine ⟨hadd.keep rnss iocom, rfl, rfl, rfl, rfl, rfl, rfl, rfl, rfl, fun r relay hr => ?_,
    fun c' hne => Function.update_of_ne hne _ _, h.sameLinks_withRelay hadd⟩
  exact (hadd.relays rnss iocom).mpr (.inr hr)

/-- The relay of the best link comes first among those of the node. -/
theorem Wf.best_first (h : Wf rnss s) (hc : s.conns c = some cn) {node : Node} {best : Nat}
    {rest before at_ after : List Nat} (hn : s.nodes n = some node)
    (htree : s.nodeTree n = best :: rest) (hb : s.links best = some slink)
    (hct : s.connTree c = before ++ (at_ ++ after)) (hat : ∀ r ∈ at_, s.nodeOf r = some n)
    {r : Nat} (hr : r ∈ at_) (hl : s.sourceLink r = some best) : at_.head? = some r := by
  cases at_ with
  | nil => cases hr
  | cons r0 at_ =>
      rcases List.mem_cons.mp hr with rfl | hr
      · rfl
      · exfalso
        obtain ⟨hord, _⟩ := h.relays.tree c cn hc
        rw [hct] at hord
        obtain ⟨_, hlt, _⟩ := OrdTree.ordered_cons.mp
          (hord.sublist (List.sublist_append_right before ((r0 :: at_) ++ after)))
        obtain ⟨k0, k, hk0, hk, hcmp⟩ := hlt r (List.mem_append_left _ hr)
        have hin : ∀ x ∈ r0 :: at_, x ∈ s.connTree c := by
          intro x hx
          rw [hct]
          exact List.mem_append_right _ (List.mem_append_left _ hx)
        obtain ⟨relay0, l0, slink0, st0, hlive0, _, hrel0⟩ := h.mem_tree hc (hin r0 List.mem_cons_self)
        obtain ⟨relay, l, slink', st, hlive, _, hrel⟩ :=
          h.mem_tree hc (hin r (List.mem_cons_of_mem r0 hr))
        cases (hrel.sourceLink h.trees hlive).symm.trans hl
        cases hrel.link.symm.trans hb
        have hnode0 := hat r0 List.mem_cons_self
        have hnode := hat r (List.mem_cons_of_mem r0 hr)
        rw [hrel0.nodeOf h.trees hlive0] at hnode0
        rw [hrel.nodeOf h.trees hlive] at hnode
        cases (hrel0.relayKey h.trees hlive0).symm.trans hk0
        cases (hrel.relayKey h.trees hlive).symm.trans hk
        have hlink : linkCmp slink0.key slink.key = .lt := by
          have hcmp : (compare slink0.node slink.node).then (linkCmp slink0.key slink.key) = .lt :=
            hcmp
          rwa [Option.some.inj hnode0, Option.some.inj hnode, Nat.compare_eq_eq.mpr rfl] at hcmp
        rcases h.best_le hn htree hb hrel0.link (Option.some.inj hnode0) with rfl | hlt
        · cases hrel0.link.symm.trans hb
          exact absurd hlink (by rw [OrdTree.compare_refl linkCmp]; exact Ordering.noConfusion)
        · rw [OrdTree.compare_swap linkCmp, hlink] at hlt
          cases hlt

/-- What is kept of the relays of a node: one of the best link if it is accepted. -/
def Keeps (s : Topo) (n best : Nat) (b : Bool) (mid : List Nat) : Prop :=
  if b then ∃ r, mid = [r] ∧ s.nodeOf r = some n ∧ s.sourceLink r = some best else mid = []

/-- Where a new relay of the best link goes. -/
theorem Wf.new_place (h : Wf rnss s) (hc : s.conns c = some cn) {node : Node} {best r' t' iocom : Nat}
    {rest before at_ after pre post : List Nat} (hn : s.nodes n = some node)
    (htree : s.nodeTree n = best :: rest) (hb : s.links best = some slink)
    (hnode : slink.node = n) (hct : s.connTree c = before ++ (at_ ++ after))
    (hbefore : ∀ r ∈ before, ∃ a < n, s.nodeOf r = some a) (hat : ∀ r ∈ at_, s.nodeOf r = some n)
    (hafter : ∀ r ∈ after, ∃ a > n, s.nodeOf r = some a)
    (hadd : Addable s r' t' c best slink cn) (hsplit : s.connTree c = pre ++ post)
    (hord : OrdTree.Ordered relayCmp (s.made rnss r' t' c iocom slink).relayKey (pre ++ r' :: post)) :
    pre = before ∧ post = at_ ++ after := by
  have hkey := (h.made_new hadd iocom).relayKey (h.made_links hadd iocom).toLinkTrees
    ((hadd.relays rnss iocom).mpr (.inl ⟨rfl, rfl⟩))
  have hold : ∀ r ∈ s.connTree c, ∃ l slink', s.links l = some slink' ∧
      s.sourceLink r = some l ∧ s.nodeOf r = some slink'.node ∧
      (s.made rnss r' t' c iocom slink).relayKey r = some ⟨slink'.node, slink'.key⟩ := by
    intro r hr
    obtain ⟨relay, l, slink', st, hlive, _, hrel⟩ := h.mem_tree hc hr
    exact ⟨l, slink', hrel.link, hrel.sourceLink h.trees hlive, hrel.nodeOf h.trees hlive,
      (h.made_key hadd iocom hlive).trans (hrel.relayKey h.trees hlive)⟩
  obtain ⟨_, hpost, hcross⟩ := List.pairwise_append.mp hord.increasing
  obtain ⟨hpost, _⟩ := List.pairwise_cons.mp hpost
  -- A relay before the new one has a smaller node, one after it has not.
  have hpre : ∀ r ∈ pre, ∃ a < n, s.nodeOf r = some a := by
    intro r hr
    obtain ⟨l, slink', hl, hsl, hno, hk⟩ := hold r (by rw [hsplit]; exact List.mem_append_left _ hr)
    obtain ⟨k, k', hk1, hk2, hcmp⟩ := hcross r hr r' List.mem_cons_self
    cases hk.symm.trans hk1
    cases hkey.symm.trans hk2
    have hcmp : (compare slink'.node slink.node).then (linkCmp slink'.key slink.key) = .lt := hcmp
    rcases Nat.lt_trichotomy slink'.node slink.node with hlt | heq | hgt
    · exact ⟨slink'.node, by rwa [hnode] at hlt, hno⟩
    · exfalso
      rw [heq, Nat.compare_eq_eq.mpr rfl] at hcmp
      rcases h.best_le hn htree hb hl (heq.trans hnode) with rfl | hlt
      · exact hadd.new r (by rw [hsplit]; exact List.mem_append_left _ hr) hsl
      · rw [OrdTree.compare_swap linkCmp, hlt] at hcmp
        cases hcmp
    · rw [Nat.compare_eq_gt.mpr hgt] at hcmp
      cases hcmp
  have hpost' : ∀ r ∈ post, ¬ ∃ a < n, s.nodeOf r = some a := by
    rintro r hr ⟨a, hlt, ha⟩
    obtain ⟨l, slink', hl, hsl, hno, hk⟩ := hold r (by rw [hsplit]; exact List.mem_append_right _ hr)
    obtain ⟨k, k', hk1, hk2, hcmp⟩ := hpost r hr
    cases hkey.symm.trans hk1
    cases hk.symm.trans hk2
    cases hno.symm.trans ha
    have hcmp : (compare slink.node slink'.node).then (linkCmp slink.key slink'.key) = .lt := hcmp
    rw [hnode, Nat.compare_eq_gt.mpr hlt] at hcmp
    cases hcmp
  have hrest : ∀ r ∈ at_ ++ after, ¬ ∃ a < n, s.nodeOf r = some a := by
    rintro r hr ⟨a, hlt, ha⟩
    rcases List.mem_append.mp hr with hr | hr
    · cases (hat r hr).symm.trans ha
      exact Nat.lt_irrefl n hlt
    · obtain ⟨a', hgt, ha'⟩ := hafter r hr
      cases ha'.symm.trans ha
      exact Nat.lt_asymm hlt hgt
  rcases List.append_eq_append_iff.mp (hsplit.symm.trans hct) with ⟨x, hx, hx'⟩ | ⟨x, hx, hx'⟩
  · cases x with
    | nil => exact ⟨by rw [hx, List.append_nil], hx'⟩
    | cons r x =>
        have hin : r ∈ before := by
          rw [hx]
          exact List.mem_append_right _ List.mem_cons_self
        exact absurd (hbefore r hin) (hpost' r (by rw [hx']; exact List.mem_cons_self))
  · cases x with
    | nil => exact ⟨by rw [hx, List.append_nil], hx'.symm⟩
    | cons r x =>
        have hin : r ∈ pre := by
          rw [hx]
          exact List.mem_append_right _ List.mem_cons_self
        exact absurd (hpre r hin) (hrest r (by rw [hx']; exact List.mem_cons_self))

theorem Wf.notBetter_spec (h : Wf rnss s) (hc : s.conns c = some cn) {node : Node} {best : Nat}
    {rest at_ : List Nat} (hn : s.nodes n = some node) (htree : s.nodeTree n = best :: rest)
    (hb : s.links best = some slink) (hin : ∀ r ∈ at_, r ∈ s.connTree c)
    (hat : ∀ r ∈ at_, s.nodeOf r = some n) : notBetter s slink at_.head? = some true := by
  cases at_ with
  | nil => rfl
  | cons r at_ =>
      obtain ⟨relay, l, slink', st, hlive, _, hrel⟩ := h.mem_tree hc (hin r List.mem_cons_self)
      have hnode := hat r List.mem_cons_self
      rw [hrel.nodeOf h.trees hlive] at hnode
      show (s.relayKey r).map _ = _
      rw [hrel.relayKey h.trees hlive]
      refine congrArg some (decide_eq_true (.inr ?_))
      rcases h.best_le hn htree hb hrel.link (Option.some.inj hnode) with rfl | hlt
      · cases hrel.link.symm.trans hb
        exact BitVec.le_refl _
      · exact dist_le_of_lt hlt

/-- **The links of a node.**  Afterwards the relays of the node are those to keep and those
in excess, and the relay at hand is the first one in excess. -/
theorem Wf.scanLinks_spec (h : Wf rnss s) (haddr : Fresh addr) (hc : s.conns c = some cn)
    {node : Node} {best : Nat} {rest before at_ after : List Nat} (hn : s.nodes n = some node)
    (htree : s.nodeTree n = best :: rest) (hb : s.links best = some slink)
    (hnode : slink.node = n) (hct : s.connTree c = before ++ (at_ ++ after))
    (hbefore : ∀ r ∈ before, ∃ a < n, s.nodeOf r = some a) (hat : ∀ r ∈ at_, s.nodeOf r = some n)
    (hafter : ∀ r ∈ after, ∃ a > n, s.nodeOf r = some a)
    (hready : best ∈ at_.filterMap s.sourceLink ∨ ∃ b, accepts s cn slink = some b) :
    ∃ relay' t b mid extras,
      scanLinks rnss addr c (best :: rest) 0 at_.head? s = some (relay', t) ∧ Wf rnss t ∧
      Grown c s t ∧ accepts s cn slink = some b ∧
      t.connTree c = (before ++ mid) ++ (extras ++ after) ∧ Keeps t n best b mid ∧
      (∀ r ∈ extras, r ∈ at_) ∧ (relay' = (extras ++ after).head? ∨ relay' = none ∧ extras = []) := by
  have hin : ∀ r ∈ at_, r ∈ s.connTree c := by
    intro r hr
    rw [hct]
    exact List.mem_append_right _ (List.mem_append_left _ hr)
  have hnodup := (h.relays.tree c cn hc).1.nodup
  -- Without a relay of the best link the filters decide.
  have hmiss : (∀ r ∈ at_, s.sourceLink r ≠ some best) →
      matchesLink s best at_.head? = some false → ∃ relay' t b mid extras,
        scanLinks rnss addr c (best :: rest) 0 at_.head? s = some (relay', t) ∧ Wf rnss t ∧
        Grown c s t ∧ accepts s cn slink = some b ∧
        t.connTree c = (before ++ mid) ++ (extras ++ after) ∧ Keeps t n best b mid ∧
        (∀ r ∈ extras, r ∈ at_) ∧
        (relay' = (extras ++ after).head? ∨ relay' = none ∧ extras = []) := by
    intro hnone hmatch
    obtain ⟨b, hacc⟩ := hready.resolve_left fun hmem => by
      obtain ⟨r, hr, hl⟩ := List.mem_filterMap.mp hmem
      exact hnone r hr hl
    rw [scanLinks, if_neg (by decide)]
    simp only [hc, hb, hmatch, hacc, Option.bind_eq_bind, Option.bind_some, Bool.false_eq_true,
      if_false]
    cases b with
    | false =>
        refine ⟨at_.head?, s, false, [], at_, rfl, h, Grown.refl c s, rfl, ?_, rfl,
          fun _ hr => hr, ?_⟩
        · rw [List.append_nil]
          exact hct
        · cases at_ with
          | nil => exact .inr ⟨rfl, rfl⟩
          | cons r at_ => exact .inl rfl
    | true =>
        have hnew : ∀ r ∈ s.connTree c, s.sourceLink r ≠ some best := by
          intro r hr hl
          obtain ⟨relay, l, slink', st, hlive, _, hrel⟩ := h.mem_tree hc hr
          cases (hrel.sourceLink h.trees hlive).symm.trans hl
          cases hrel.link.symm.trans hb
          have hn := hrel.nodeOf h.trees hlive
          rw [hnode] at hn
          rw [hct] at hr
          rcases List.mem_append.mp hr with hr | hr
          · obtain ⟨a, hlt, ha⟩ := hbefore r hr
            cases hn.symm.trans ha
            exact Nat.lt_irrefl n hlt
          · rcases List.mem_append.mp hr with hr | hr
            · exact hnone r hr hl
            · obtain ⟨a, hgt, ha⟩ := hafter r hr
              cases hn.symm.trans ha
              exact Nat.lt_irrefl n hgt
        obtain ⟨r', t', iocom, pre, post, hadd, hsplit, hord, hgen⟩ :=
          h.generateRelay_eq haddr hc hb hacc hnew
        obtain ⟨rfl, rfl⟩ :=
          h.new_place hc hn htree hb hnode hct hbefore hat hafter hadd hsplit hord
        have hwf := h.withRelay hadd iocom hct hord
        have hrel := h.made_new hadd iocom
        have hlinks := (h.made_links hadd iocom).toLinkTrees
        have hlive := (hadd.relays rnss iocom).mpr (.inl ⟨rfl, rfl⟩)
        have htree' : (s.withRelay rnss r' t' c iocom best slink
            (pre ++ r' :: (at_ ++ after))).connTree c = pre ++ r' :: (at_ ++ after) :=
          Function.update_self ..
        have hnext := (OrdTree.startingAt_middle hord.nodup).2
        refine ⟨(at_ ++ after).head?, s.withRelay rnss r' t' c iocom best slink
          (pre ++ r' :: (at_ ++ after)), true, [r'], at_, ?_, hwf, h.grown_withRelay hadd, rfl, ?_,
          ⟨r', rfl, ?_, ?_⟩, fun _ hr => hr, .inl rfl⟩
        · simp only [Bool.not_true, Bool.false_eq_true, if_false,
            h.notBetter_spec hc hn htree hb hin hat, Option.bind_some, hgen, htree', hnext]
          exact scanLinks_one rest _ _
        · rw [htree', List.append_assoc]
          rfl
        · exact (hrel.nodeOf hlinks hlive).trans (congrArg some hnode)
        · exact hrel.sourceLink hlinks hlive
  rcases hat0 : at_ with _ | ⟨r0, more⟩
  · subst hat0
    exact hmiss (fun _ hr => absurd hr List.not_mem_nil) rfl
  · obtain ⟨relay, l, slink', st, hlive, _, hrel⟩ :=
      h.mem_tree hc (hin r0 (by rw [hat0]; exact List.mem_cons_self))
    have hl := hrel.sourceLink h.trees hlive
    have hhead : at_.head? = some r0 := by rw [hat0]; rfl
    rcases eq_or_ne l best with rfl | hne
    · -- The relay is in place.
      cases hrel.link.symm.trans hb
      have hct' : s.connTree c = before ++ r0 :: (more ++ after) := by
        rw [hct, hat0]
        rfl
      rw [hct'] at hnodup
      have hnext := (OrdTree.startingAt_middle hnodup).2
      refine ⟨(more ++ after).head?, s, true, [r0], more, ?_, h, Grown.refl c s, hrel.accepted, ?_,
        ⟨r0, rfl, ?_, hl⟩, fun r hr => List.mem_cons_of_mem r0 hr, .inl rfl⟩
      · rw [scanLinks, if_neg (by decide)]
        simp only [hc, hb, matchesLink, List.head?_cons, hl, Option.map_some, decide_true,
          Option.bind_eq_bind, Option.bind_some, if_true, hct', hnext]
        exact scanLinks_one rest _ _
      · rw [hct', List.append_assoc]
        rfl
      · exact (hrel.nodeOf h.trees hlive).trans (congrArg some hnode)
    · rw [← hat0]
      refine hmiss (fun r hr hlr => ?_) ?_
      · have hfirst := h.best_first hc hn htree hb hct hat hr hlr
        cases hhead.symm.trans hfirst
        cases hl.symm.trans hlr
        exact hne rfl
      · rw [hhead]
        show (s.sourceLink r0).map _ = _
        rw [hl]
        exact congrArg some (decide_eq_false hne)

/-- The relays of the node to the conn are right: its best link, if the conn accepts it. -/
def SyncedPair (s : Topo) (n c : Nat) : Prop :=
  ∃ best slink conn b, (s.nodeTree n).head? = some best ∧ s.links best = some slink ∧
    s.conns c = some conn ∧ accepts s conn slink = some b ∧
    linksRelayed s n c = if b then [best] else []

/-- The filters can be applied to the best link of the node, if they have to be. -/
def Ready (s : Topo) (n c : Nat) : Prop :=
  ∀ best slink conn, (s.nodeTree n).head? = some best → s.links best = some slink →
    s.conns c = some conn → best ∈ linksRelayed s n c ∨ ∃ b, accepts s conn slink = some b

/-- The first relays of a tree after the others are deleted, whatever relay is at hand. -/
theorem Wf.dropExtras (h : Wf rnss s) (hc : s.conns c = some cn) {kept extras after : List Nat}
    {relay : Option Nat} (hct : s.connTree c = kept ++ (extras ++ after))
    (hextras : ∀ r ∈ extras, s.nodeOf r = some n) (hafter : ∀ r ∈ after, s.nodeOf r ≠ some n)
    (hrelay : relay = (extras ++ after).head? ∨ relay = none ∧ extras = []) :
    ∃ t, (match relay with
        | none => some s
        | some r => deleteExtras n (OrdTree.startingAt (s.connTree c) r) s) = some t ∧
      Wf rnss t ∧ Pruned s t ∧ t.connTree c = kept ++ after ∧
      (∀ c' ≠ c, t.connTree c' = s.connTree c') ∧ ∀ r ∉ extras, t.relays r = s.relays r := by
  cases relay with
  | none =>
      have hnil : extras = [] := by
        rcases hrelay with hhead | ⟨_, hnil⟩
        · exact (List.append_eq_nil_iff.mp (List.head?_eq_none_iff.mp hhead.symm)).1
        · exact hnil
      subst hnil
      exact ⟨s, rfl, h, Pruned.refl s, hct, fun _ _ => rfl, fun _ _ => rfl⟩
  | some r =>
      obtain ⟨tail, htail⟩ : ∃ tail, extras ++ after = r :: tail := by
        rcases hrelay with hhead | ⟨hnone, _⟩
        · exact ⟨_, List.eq_cons_of_mem_head? hhead.symm⟩
        · cases hnone
      have hnodup := (h.relays.tree c cn hc).1.nodup
      have hstart : OrdTree.startingAt (s.connTree c) r = extras ++ after := by
        rw [hct, htail] at hnodup ⊢
        exact (OrdTree.startingAt_middle hnodup).1
      dsimp only
      rw [hstart]
      exact h.deleteExtras_spec hc hct hextras hafter

theorem filterMap_same {rs : List Nat}
    (hsame : ∀ r ∈ rs, t.sourceLink r = s.sourceLink r ∧ t.nodeOf r = s.nodeOf r) (n : Nat) :
    rs.filterMap (fun r => if t.nodeOf r = some n then t.sourceLink r else none) =
      rs.filterMap fun r => if s.nodeOf r = some n then s.sourceLink r else none :=
  List.filterMap_congr fun r hr => by rw [(hsame r hr).1, (hsame r hr).2]

/-- **One node and one conn.** -/
theorem Wf.relayScanSpecific_spec (h : Wf rnss s) (haddr : Fresh addr) (hc : s.conns c = some cn)
    {node : Node} (hn : s.nodes n = some node) (hready : Ready s n c) :
    ∃ t, relayScanSpecific rnss addr n c s = some t ∧ Wf rnss t ∧ Scanned n c s t ∧
      SyncedPair t n c := by
  obtain ⟨_, hmem⟩ := h.links.node n node hn
  obtain ⟨best, rest, htree⟩ := List.exists_cons_of_ne_nil (h.links.nodeNonempty n node hn)
  obtain ⟨slink, hb, hnode⟩ := (hmem best).mp (by rw [htree]; exact List.mem_cons_self)
  obtain ⟨before, at_, after, hct, hbefore, hat, hafter⟩ := h.stretch hc n
  have hbefore' : ∀ r ∈ before, s.nodeOf r ≠ some n := by
    rintro r hr heq
    obtain ⟨a, hlt, ha⟩ := hbefore r hr
    cases ha.symm.trans heq
    exact Nat.lt_irrefl _ hlt
  have hafter' : ∀ r ∈ after, s.nodeOf r ≠ some n := by
    rintro r hr heq
    obtain ⟨a, hgt, ha⟩ := hafter r hr
    cases ha.symm.trans heq
    exact Nat.lt_irrefl _ hgt
  have hready' : best ∈ at_.filterMap s.sourceLink ∨ ∃ b, accepts s cn slink = some b := by
    have hr := hready best slink cn (by rw [htree]; rfl) hb hc
    rwa [linksRelayed_stretch hct hbefore' hat hafter'] at hr
  have hfirst : firstRelay s n (s.connTree c) = some at_.head? := by
    rw [hct]
    exact h.firstRelay_spec hc n (fun r hr => by rw [hct]; exact hr) hbefore' hat hafter'
  obtain ⟨relay', t1, b, mid, extras, hscan, hwf1, hgrown, hacc, hct1, hkeeps, hextras, hrelay⟩ :=
    h.scanLinks_spec haddr hc hn htree hb hnode hct hbefore hat hafter hready'
  have hc1 : t1.conns c = some cn := by rw [hgrown.conns, hc]
  -- The relays that were there are what they were.
  have hold : ∀ c' cn', s.conns c' = some cn' → ∀ r ∈ s.connTree c', ∃ relay,
      s.relays r = some relay ∧ relay.conn = c' ∧ t1.relays r = some relay ∧
      t1.sourceLink r = s.sourceLink r ∧ t1.nodeOf r = s.nodeOf r := by
    intro c' cn' hc' r hr
    obtain ⟨relay, _, _, _, hlive, hconn, _⟩ := h.mem_tree hc' hr
    have hlive1 := hgrown.relays r relay hlive
    obtain ⟨hsl, hno⟩ := hgrown.same r relay hlive hlive1
    exact ⟨relay, hlive, hconn, hlive1, hsl, hno⟩
  have hin : ∀ r, r ∈ before ∨ r ∈ at_ ∨ r ∈ after → r ∈ s.connTree c := by
    intro r hr
    rw [hct, List.mem_append, List.mem_append]
    exact hr
  have hnode1 : ∀ r, r ∈ before ∨ r ∈ at_ ∨ r ∈ after → t1.nodeOf r = s.nodeOf r := by
    intro r hr
    obtain ⟨_, _, _, _, _, hno⟩ := hold c cn hc r (hin r hr)
    exact hno
  obtain ⟨t, ht, hwf, hp, hct2, htrees, hrelays⟩ := hwf1.dropExtras hc1 hct1
    (fun r hr => by
      rw [hnode1 r (.inr (.inl (hextras r hr)))]
      exact hat r (hextras r hr))
    (fun r hr => by
      rw [hnode1 r (.inr (.inr hr))]
      exact hafter' r hr) hrelay
  -- A relay that is not in excess is what it was.
  have hkept : ∀ r relay, t1.relays r = some relay → r ∉ extras →
      t.sourceLink r = t1.sourceLink r ∧ t.nodeOf r = t1.nodeOf r := by
    intro r relay hlive hnot
    have hlive' := (hrelays r hnot).trans hlive
    exact ⟨hwf1.sourceLink_pruned hp hlive hlive', hwf1.nodeOf_pruned hp hlive hlive'⟩
  have hnodup := (hwf1.relays.tree c cn hc1).1.nodup
  rw [hct1] at hnodup
  obtain ⟨hnodupk, _, hcross⟩ := List.nodup_append.mp hnodup
  have hsame : ∀ r, r ∈ before ∨ r ∈ after →
      t.sourceLink r = s.sourceLink r ∧ t.nodeOf r = s.nodeOf r := by
    intro r hr
    have hr' : r ∈ before ∨ r ∈ at_ ∨ r ∈ after := hr.elim .inl fun hr => .inr (.inr hr)
    obtain ⟨relay, _, _, hlive1, hsl, hno⟩ := hold c cn hc r (hin r hr')
    have hnot : r ∉ extras := by
      intro hex
      have heq := hat r (hextras r hex)
      rcases hr with hr | hr
      · exact hbefore' r hr heq
      · exact hafter' r hr heq
    obtain ⟨hsl', hno'⟩ := hkept r relay hlive1 hnot
    exact ⟨hsl'.trans hsl, hno'.trans hno⟩
  have hmid : ∀ r ∈ mid, t.sourceLink r = t1.sourceLink r ∧ t.nodeOf r = t1.nodeOf r := by
    intro r hr
    have hr' : r ∈ before ++ mid := List.mem_append_right _ hr
    obtain ⟨relay, _, _, _, hlive, _⟩ := hwf1.mem_tree hc1
      (by rw [hct1]; exact List.mem_append_left _ hr')
    exact hkept r relay hlive fun hex => hcross r hr' r (List.mem_append_left _ hex) rfl
  have hmidnode : ∀ r ∈ mid, t.nodeOf r = some n := by
    intro r hr
    rw [(hmid r hr).2]
    unfold Keeps at hkeeps
    split at hkeeps
    · obtain ⟨x, rfl, hx, _⟩ := hkeeps
      rwa [List.mem_singleton.mp hr]
    · rw [hkeeps] at hr
      cases hr
  have hct2' : t.connTree c = before ++ (mid ++ after) := by rw [hct2, List.append_assoc]
  refine ⟨t, ?_, hwf, ?_, best, slink, cn, b, ?_, ?_, ?_, ?_, ?_⟩
  · rw [htree.symm] at hscan
    simp only [relayScanSpecific, hc, hn, hfirst, hscan, Option.bind_eq_bind, Option.bind_some]
    exact ht
  · refine ⟨fun a st hst => ?_, hp.conns.trans hgrown.conns, hp.connq.trans hgrown.connq,
      hp.clusters.trans hgrown.clusters, hp.clsTree.trans hgrown.clsTree,
      hp.clusterTree.trans hgrown.clusterTree, hp.nodes.trans hgrown.nodes,
      hp.nodeTree.trans hgrown.nodeTree, hp.links.trans hgrown.links, fun n' c' hne hc' => ?_⟩
    · rw [hp.states]
      exact hgrown.states a st hst
    · unfold linksRelayed
      rcases eq_or_ne c' c with rfl | hcne
      · have hnn : n ≠ n' := fun heq => hne.elim (fun h => h heq.symm) fun h => h rfl
        have hskip : ∀ {u : Topo} {rs : List Nat}, (∀ r ∈ rs, u.nodeOf r = some n) →
            rs.filterMap (fun r => if u.nodeOf r = some n' then u.sourceLink r else none) = [] :=
          fun hrs => List.filterMap_eq_nil_iff.mpr fun r hr =>
            if_neg fun heq => hnn (Option.some.inj ((hrs r hr).symm.trans heq))
        rw [hct2', hct, List.filterMap_append, List.filterMap_append, List.filterMap_append,
          List.filterMap_append, hskip hmidnode, hskip hat,
          filterMap_same (fun r hr => hsame r (.inl hr)), filterMap_same (fun r hr => hsame r (.inr hr))]
      · rw [htrees c' hcne, hgrown.trees c' hcne]
        obtain ⟨cn', hc'⟩ := Option.isSome_iff_exists.mp hc'
        refine filterMap_same (fun r hr => ?_) n'
        obtain ⟨relay, hlive, hconn, hlive1, hsl, hno⟩ := hold c' cn' hc' r hr
        have hnot : r ∉ extras := by
          intro hex
          obtain ⟨relay', hlive', hconn', _⟩ := hold c cn hc r (hin r (.inr (.inl (hextras r hex))))
          cases hlive.symm.trans hlive'
          exact hcne (hconn.symm.trans hconn')
        obtain ⟨hsl', hno'⟩ := hkept r relay hlive1 hnot
        exact ⟨hsl'.trans hsl, hno'.trans hno⟩
  · rw [hp.nodeTree, hgrown.nodeTree, htree]
    rfl
  · rw [hp.links, hgrown.links, hb]
  · rw [hp.conns, hc1]
  · have hstates : ∀ a st, s.states a = some st → t.states a = some st := by
      intro a st hst
      rw [hp.states]
      exact hgrown.states a st hst
    refine accepts_congr (hstates _) (hstates _) (fun node' cls hn hk => ⟨?_, ?_⟩) hacc
    · rw [hp.nodes, hgrown.nodes, hn]
    · rw [hp.clusters, hgrown.clusters, hk]
  · rw [linksRelayed_stretch hct2' (fun r hr => by rw [(hsame r (.inl hr)).2]; exact hbefore' r hr)
      hmidnode (fun r hr => by rw [(hsame r (.inr hr)).2]; exact hafter' r hr)]
    unfold Keeps at hkeeps
    cases b with
    | false =>
        rw [if_neg Bool.false_ne_true] at hkeeps
        rw [hkeeps]
        rfl
    | true =>
        rw [if_pos rfl] at hkeeps
        obtain ⟨x, hx, _, hsl⟩ := hkeeps
        have hin : x ∈ mid := by
          rw [hx]
          exact List.mem_cons_self
        rw [if_pos rfl, hx, List.filterMap_cons, (hmid x hin).1, hsl]
        rfl

end Specific

/-! ## The whole scan -/

section Full

variable {rnss : BitVec 32} {addr : Topo → Nat × Nat} {s s0 t : Topo} {n c n' c' : Nat}

/-- A loop whose steps keep `I`, keep every `P i`, and establish some of them. -/
theorem forEach_spec {ι : Type} {f : Nat → Topo → Option Topo} {I : Topo → Prop}
    {P : ι → Topo → Prop} {S : Nat → ι → Prop} : ∀ {xs : List Nat} {s : Topo}, I s →
    (∀ x ∈ xs, ∀ s, I s → ∃ t, f x s = some t ∧ I t ∧ (∀ i, S x i → P i t) ∧
      ∀ i, P i s → P i t) →
    ∃ t, forEach f xs s = some t ∧ I t ∧ (∀ i, (∃ x ∈ xs, S x i) → P i t) ∧ ∀ i, P i s → P i t
  | [], s, hI, _ => ⟨s, rfl, hI, fun _ ⟨_, hx, _⟩ => absurd hx List.not_mem_nil, fun _ h => h⟩
  | x :: xs, s, hI, hstep => by
      obtain ⟨u, hu, hIu, hnew, hkeep⟩ := hstep x List.mem_cons_self s hI
      obtain ⟨t, ht, hIt, hall, hkeep'⟩ := forEach_spec hIu fun y hy =>
        hstep y (List.mem_cons_of_mem x hy)
      refine ⟨t, by rw [forEach, hu]; exact ht, hIt, ?_, fun i hi => hkeep' i (hkeep i hi)⟩
      rintro i ⟨y, hy, hi⟩
      rcases List.mem_cons.mp hy with rfl | hy
      · exact hkeep' i (hnew i hi)
      · exact hall i ⟨y, hy, hi⟩

theorem Scanned.accepts (h : Scanned n c s t) {conn : Conn} {slink : Link} {b : Bool}
    (hacc : accepts s conn slink = some b) : accepts t conn slink = some b := by
  refine accepts_congr (h.states _) (h.states _) (fun node cls hn hk => ⟨?_, ?_⟩) hacc
  · rw [h.nodes, hn]
  · rw [h.clusters, hk]

theorem SyncedPair.scanned (hp : SyncedPair s n' c') (h : Scanned n c s t)
    (hne : n' ≠ n ∨ c' ≠ c) : SyncedPair t n' c' := by
  obtain ⟨best, slink, conn, b, hbest, hl, hc, hacc, hlinks⟩ := hp
  refine ⟨best, slink, conn, b, by rw [h.nodeTree, hbest], by rw [h.links, hl],
    by rw [h.conns, hc], h.accepts hacc, ?_⟩
  rw [h.others n' c' hne (by rw [hc]; rfl), hlinks]

theorem Ready.scanned (hp : Ready s n' c') (h : Scanned n c s t) (hne : n' ≠ n ∨ c' ≠ c) :
    Ready t n' c' := by
  intro best slink conn hbest hl hc
  rw [h.nodeTree] at hbest
  rw [h.links] at hl
  rw [h.conns] at hc
  rw [h.others n' c' hne (by rw [hc]; rfl)]
  exact (hp best slink conn hbest hl hc).imp id fun ⟨b, hb⟩ => ⟨b, h.accepts hb⟩

theorem SyncedPair.ready (h : SyncedPair s n c) : Ready s n c := by
  obtain ⟨best, slink, conn, b, hbest, hl, hc, hacc, _⟩ := h
  intro best' slink' conn' hbest' hl' hc'
  cases hbest.symm.trans hbest'
  cases hl.symm.trans hl'
  cases hc.symm.trans hc'
  exact .inr ⟨b, hacc⟩

/-- What holds during a scan that has begun at `s0`. -/
structure During (rnss : BitVec 32) (s0 s : Topo) : Prop where
  wf : Wf rnss s
  ready : ∀ n c, (s.nodes n).isSome → (s.conns c).isSome → Ready s n c
  conns : s.conns = s0.conns
  connq : s.connq = s0.connq
  clusters : s.clusters = s0.clusters
  clsTree : s.clsTree = s0.clsTree
  nodes : s.nodes = s0.nodes

theorem During.specific (h : During rnss s0 s) (haddr : Fresh addr) (hn : (s0.nodes n).isSome)
    (hc : c ∈ s0.connq) : ∃ t, relayScanSpecific rnss addr n c s = some t ∧ During rnss s0 t ∧
      SyncedPair t n c ∧ ∀ n' c', SyncedPair s n' c' → SyncedPair t n' c' := by
  rw [← h.nodes] at hn
  rw [← h.connq] at hc
  have hc := (h.wf.conns.mem c).mp hc
  have hready := h.ready n c hn hc
  obtain ⟨node, hnode⟩ := Option.isSome_iff_exists.mp hn
  obtain ⟨cn, hcn⟩ := Option.isSome_iff_exists.mp hc
  obtain ⟨t, ht, hwf, hs, hsync⟩ := h.wf.relayScanSpecific_spec haddr hcn hnode hready
  have hpair : ∀ n' c', n' = n ∧ c' = c ∨ (n' ≠ n ∨ c' ≠ c) := by
    intro n' c'
    rcases eq_or_ne n' n with heq | hne
    · rcases eq_or_ne c' c with heq' | hne
      · exact .inl ⟨heq, heq'⟩
      · exact .inr (.inr hne)
    · exact .inr (.inl hne)
  refine ⟨t, ht, ⟨hwf, fun n' c' hn' hc' => ?_, hs.conns.trans h.conns, hs.connq.trans h.connq,
    hs.clusters.trans h.clusters, hs.clsTree.trans h.clsTree, hs.nodes.trans h.nodes⟩, hsync,
    fun n' c' hp => ?_⟩
  · rcases hpair n' c' with ⟨rfl, rfl⟩ | hne
    · exact hsync.ready
    · rw [hs.nodes] at hn'
      rw [hs.conns] at hc'
      exact (h.ready n' c' hn' hc').scanned hs hne
  · rcases hpair n' c' with ⟨rfl, rfl⟩ | hne
    · exact hsync
    · exact hp.scanned hs hne

/-- Every node has its cluster in the tree of clusters, and is in the tree of its cluster. -/
theorem LinkWf.node_mem (h : LinkWf s) (hn : (s.nodes n).isSome) :
    ∃ k ∈ s.clusterTree, n ∈ s.clsTree k := by
  obtain ⟨node, hn⟩ := Option.isSome_iff_exists.mp hn
  obtain ⟨cls, hk⟩ := Option.isSome_iff_exists.mp (h.nodeCls n node hn)
  exact ⟨node.cls, (h.clusterTree node.cls).mpr (by rw [hk]; rfl),
    ((h.cluster node.cls cls hk).2.2 n).mpr ⟨node, hn, rfl⟩⟩

/-- **The whole scan.** -/
theorem Wf.relayScan_spec (h : Wf rnss s) (haddr : Fresh addr)
    (hready : ∀ n c, (s.nodes n).isSome → (s.conns c).isSome → Ready s n c) :
    ∃ t, relayScan rnss addr s = some t ∧ Wf rnss t ∧
      ∀ n c, (t.nodes n).isSome → (t.conns c).isSome → SyncedPair t n c := by
  have hstart : During rnss s s := ⟨h, hready, rfl, rfl, rfl, rfl, rfl⟩
  let P : Nat × Nat → Topo → Prop := fun p u => SyncedPair u p.1 p.2
  -- One node, all conns.
  have hnode : ∀ n, (s.nodes n).isSome → ∀ u, During rnss s u →
      ∃ v, forEach (relayScanSpecific rnss addr n) u.connq u = some v ∧ During rnss s v ∧
        (∀ p : Nat × Nat, p.1 = n ∧ p.2 ∈ s.connq → P p v) ∧ ∀ p, P p u → P p v := by
    intro n hn u hu
    rw [hu.connq]
    obtain ⟨v, hv, hvd, hall, hkeep⟩ := @forEach_spec (Nat × Nat) (relayScanSpecific rnss addr n)
      (During rnss s) P (fun c p => p.1 = n ∧ p.2 = c) s.connq u hu fun c hc w hw => by
        obtain ⟨v, hv, hvd, hsync, hkeep⟩ := hw.specific haddr hn hc
        refine ⟨v, hv, hvd, ?_, fun p hp => hkeep p.1 p.2 hp⟩
        rintro ⟨n', c'⟩ ⟨rfl, rfl⟩
        exact hsync
    exact ⟨v, hv, hvd, fun p hp => hall p ⟨p.2, hp.2, hp.1, rfl⟩, hkeep⟩
  -- One cluster.
  have hcluster : ∀ k ∈ s.clusterTree, ∀ u, During rnss s u → ∃ v, (do
      let _ ← u.clusters k
      forEach (fun n s => forEach (relayScanSpecific rnss addr n) s.connq s) (u.clsTree k) u) =
        some v ∧ During rnss s v ∧
        (∀ p : Nat × Nat, p.1 ∈ s.clsTree k ∧ p.2 ∈ s.connq → P p v) ∧ ∀ p, P p u → P p v := by
    intro k hk u hu
    obtain ⟨cls, hcls⟩ := Option.isSome_iff_exists.mp ((h.links.clusterTree k).mp hk)
    have hnodes : ∀ n ∈ s.clsTree k, (s.nodes n).isSome := by
      intro n hn
      obtain ⟨node, hnode, _⟩ := ((h.links.cluster k cls hcls).2.2 n).mp hn
      rw [hnode]
      rfl
    obtain ⟨v, hv, hvd, hall, hkeep⟩ := @forEach_spec (Nat × Nat)
      (fun n s => forEach (relayScanSpecific rnss addr n) s.connq s) (During rnss s) P
      (fun n p => p.1 = n ∧ p.2 ∈ s.connq) (s.clsTree k) u hu
      fun n hn w hw => hnode n (hnodes n hn) w hw
    refine ⟨v, ?_, hvd, fun p hp => hall p ⟨p.1, hp.1, rfl, hp.2⟩, hkeep⟩
    rw [hu.clusters, hu.clsTree, hcls]
    exact hv
  obtain ⟨t, ht, htd, hall, _⟩ := @forEach_spec (Nat × Nat) _ (During rnss s) P
    (fun k p => p.1 ∈ s.clsTree k ∧ p.2 ∈ s.connq) s.clusterTree s hstart hcluster
  refine ⟨t, ht, htd.wf, fun n c hn hc => ?_⟩
  rw [htd.nodes] at hn
  have hc := (htd.wf.conns.mem c).mpr hc
  rw [htd.connq] at hc
  obtain ⟨k, hk, hin⟩ := h.links.node_mem hn
  exact hall (n, c) ⟨k, hk, hin, hc⟩

end Full

end Hammer2.Span
