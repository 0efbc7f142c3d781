/-
# `Hammer2.Span.Mirror` — the relays mirror the links

    Wf.lnkConnCreate, …   what each handler does to a topology in which `Wf` holds
    mirror                every run in which a connection has one `LNK_CONN` at a time, peers
                          end our SPANs with replies, and peer types fit the peer mask
    two_conns             a second `LNK_CONN` on a connection fails an assertion
-/
import Hammer2.Lib.Machine
import Hammer2.Span.Scan

namespace Hammer2.Span

open Function (update)

variable {rnss : BitVec 32} {s t : Topo} {a : Nat}

/-! ## One transaction changes -/

/-- What else a transaction refers to is still there. -/
theorem AnyOk.congr {b : Nat} {func : Func} {any : Any} (h : AnyOk s b func any)
    (hconn : ∀ c conn, s.conns c = some conn → conn.state = b → t.conns c = some conn)
    (hlink : ∀ l slink, s.links l = some slink → slink.state = b → t.links l = some slink)
    (hrelay : ∀ r relay, s.relays r = some relay → t.relays r = some relay) :
    AnyOk t b func any := by
  cases any with
  | null => exact h
  | conn c =>
      obtain ⟨hf, conn, hc, hb⟩ := h
      exact ⟨hf, conn, hconn c conn hc hb, hb⟩
  | link l =>
      obtain ⟨hf, slink, hl, hb⟩ := h
      exact ⟨hf, slink, hlink l slink hl hb, hb⟩
  | relay r =>
      obtain ⟨hf, relay, hr, hb⟩ := h
      exact ⟨hf, relay, hrelay r relay hr, hb⟩

/-- The relays are what they were, and those of a new conn or a new link are none. -/
theorem RelayWf.congr (h : RelayWf rnss s) (hs : LinkTrees s) (ht : LinkTrees t)
    (hrelays : t.relays = s.relays)
    (hkeep : ∀ r relay l slink cn st, s.relays r = some relay →
      Relays rnss s r relay l slink cn st → Relays rnss t r relay l slink cn st)
    (htree : ∀ c cn, t.conns c = some cn → s.conns c = some cn ∧ t.connTree c = s.connTree c ∨
      t.connTree c = [] ∧ ∀ r relay, s.relays r = some relay → relay.conn ≠ c)
    (hrelayq : ∀ l slink, t.links l = some slink →
      s.links l = some slink ∧ t.relayq l = s.relayq l ∨
      t.relayq l = [] ∧ ∀ r relay, s.relays r = some relay → relay.sourceRt ≠ slink.state) :
    RelayWf rnss t := by
  constructor
  case relay =>
    intro r relay hr
    rw [hrelays] at hr
    obtain ⟨l, slink, cn, st, hrel⟩ := h.relay r relay hr
    exact ⟨l, slink, cn, st, hkeep r relay l slink cn st hr hrel⟩
  case tree =>
    intro c cn hc
    rw [hrelays]
    rcases htree c cn hc with ⟨hcs, heq⟩ | ⟨hnil, hnone⟩
    · obtain ⟨hord, hmem⟩ := h.tree c cn hcs
      rw [heq]
      refine ⟨hord.congr fun r hr => ?_, hmem⟩
      obtain ⟨relay, hlive, _⟩ := (hmem r).mp hr
      obtain ⟨l, slink, cn', st, hrel⟩ := h.relay r relay hlive
      have hnew := hkeep r relay l slink cn' st hlive hrel
      rw [hrel.relayKey hs hlive, hnew.relayKey ht (by rw [hrelays, hlive])]
    · rw [hnil]
      refine ⟨OrdTree.ordered_nil, fun r => ⟨fun hr => absurd hr List.not_mem_nil, ?_⟩⟩
      rintro ⟨relay, hr, hcn⟩
      exact absurd hcn (hnone r relay hr)
  case relayq =>
    intro l slink hl
    rw [hrelays]
    rcases hrelayq l slink hl with ⟨hls, heq⟩ | ⟨hnil, hnone⟩
    · rw [heq]
      exact h.relayq l slink hls
    · rw [hnil]
      refine ⟨List.nodup_nil, fun r => ⟨fun hr => absurd hr List.not_mem_nil, ?_⟩⟩
      rintro ⟨relay, hr, hsrc⟩
      exact absurd hsrc (hnone r relay hr)

/-- A transaction that is no end of a relay and not the one of its conn. -/
theorem Wf.relay_states (h : Wf rnss s) {r l : Nat} {relay : Relay} {slink : Link} {cn : Conn}
    {st : State} (hrel : Relays rnss s r relay l slink cn st) :
    (s.states relay.sourceRt).isSome ∧ (s.states relay.targetRt).isSome ∧
      (s.states cn.state).isSome ∧ s.any cn.state = .conn relay.conn := by
  obtain ⟨sst, hsst⟩ := hrel.sourceState h.trees
  obtain ⟨cst, hcst, _, hany, _⟩ := h.conns.state relay.conn cn hrel.conn
  rw [hsst, hrel.target, hcst]
  exact ⟨rfl, rfl, rfl, hany⟩

/-! ## `LNK_CONN` -/

/-- A `LNK_CONN` on a connection that has none. -/
theorem Wf.lnkConnCreate (h : Wf rnss s) {iocom c : Nat} (lnkConn : LnkConn)
    (ha : s.states a = none) (hc : s.conns c = none) (hi : s.iocomConn iocom = none) :
    ∃ t, Span.lnkConnCreate a iocom c lnkConn s = some t ∧ Wf rnss t ∧
      t.states a = some ⟨iocom, .lnkConn, none⟩ := by
  refine ⟨_, if_neg (by rw [hi]; exact Bool.false_ne_true), ?_, Function.update_self ..⟩
  have hne : ∀ b, (s.states b).isSome → b ≠ a := by
    rintro b hb rfl
    rw [ha] at hb
    cases hb
  have hkeep : ∀ b st, s.states b = some st →
      update s.states a (some ⟨iocom, .lnkConn, none⟩) b = some st :=
    fun b st hb => update_keep ha hb _
  have hany : ∀ b st, s.states b = some st → update s.any a (.conn c) b = s.any b := by
    intro b st hb
    exact Function.update_of_ne (hne b (by rw [hb]; rfl)) _ _
  have hcne : ∀ c', (s.conns c').isSome → c' ≠ c := by
    rintro c' hc' rfl
    rw [hc] at hc'
    cases hc'
  have hconn : ∀ c' cn, s.conns c' = some cn →
      update s.conns c (some ⟨a, lnkConn⟩) c' = some cn :=
    fun c' cn hc' => update_keep hc hc' _
  have hlinks : LinkWf { s with
      states := update s.states a (some ⟨iocom, .lnkConn, none⟩)
      any := update s.any a (.conn c)
      iocomConn := update s.iocomConn iocom (some c)
      conns := update s.conns c (some ⟨a, lnkConn⟩)
      connTree := update s.connTree c []
      connq := s.connq ++ [c]
      top := max s.top (a + 1) } := by
    refine { h.links with link := fun l slink hl => ?_ }
    obtain ⟨st, hst, hf, hl'⟩ := h.links.link l slink hl
    exact ⟨st, hkeep _ _ hst, hf, (hany _ _ hst).trans hl'⟩
  constructor
  case conns =>
    constructor
    case mem =>
      intro c'
      show c' ∈ s.connq ++ [c] ↔ (update s.conns c _ c').isSome
      rw [List.mem_append, List.mem_singleton, h.conns.mem]
      rcases eq_or_ne c' c with rfl | hne'
      · rw [Function.update_self]
        exact ⟨fun _ => rfl, fun _ => .inr rfl⟩
      · rw [Function.update_of_ne hne']
        exact ⟨fun hor => hor.resolve_right hne', .inl⟩
    case nodup =>
      refine List.nodup_append.mpr ⟨h.conns.nodup, List.nodup_singleton c, fun c' hc' x hx => ?_⟩
      rw [List.mem_singleton.mp hx]
      exact hcne c' ((h.conns.mem c').mp hc')
    case state =>
      intro c' cn hc'
      have hc' : update s.conns c _ c' = some cn := hc'
      rcases eq_or_ne c' c with rfl | hne'
      · rw [Function.update_self] at hc'
        cases hc'
        exact ⟨_, Function.update_self .., rfl, Function.update_self .., Function.update_self ..⟩
      · rw [Function.update_of_ne hne'] at hc'
        obtain ⟨st, hst, hf, hcn, hio⟩ := h.conns.state c' cn hc'
        refine ⟨st, hkeep _ _ hst, hf, (hany _ _ hst).trans hcn, ?_⟩
        show update s.iocomConn iocom (some c) st.iocom = some c'
        rw [Function.update_of_ne, hio]
        intro heq
        rw [heq, hi] at hio
        cases hio
    case iocom =>
      intro i c' hi'
      have hi' : update s.iocomConn iocom (some c) i = some c' := hi'
      rcases eq_or_ne i iocom with rfl | hne'
      · rw [Function.update_self] at hi'
        cases hi'
        exact ⟨_, _, Function.update_self .., Function.update_self .., rfl⟩
      · rw [Function.update_of_ne hne'] at hi'
        obtain ⟨cn, st, hcn, hst, heq⟩ := h.conns.iocom i c' hi'
        exact ⟨cn, st, hconn c' cn hcn, hkeep _ _ hst, heq⟩
  case links => exact hlinks
  case relays =>
    refine h.relays.congr h.trees hlinks.toLinkTrees rfl ?_ ?_ ?_
    · intro r relay l slink cn st _ hrel
      obtain ⟨hsource, htarget, _, _⟩ := h.relay_states hrel
      exact hrel.congr (fun b st _ => hkeep b st) (fun _ _ hn hk => ⟨hn, hk⟩)
        (Function.update_of_ne (hne _ hsource) _ _) (Function.update_of_ne (hne _ htarget) _ _) rfl
        ((hconn _ _ hrel.conn).trans hrel.conn.symm)
    · intro c' cn hc'
      have hc' : update s.conns c _ c' = some cn := hc'
      rcases eq_or_ne c' c with rfl | hne'
      · refine .inr ⟨Function.update_self .., fun r relay hr => ?_⟩
        obtain ⟨_, _, _, _, hrel⟩ := h.relays.relay r relay hr
        exact hcne _ (by rw [hrel.conn]; rfl)
      · rw [Function.update_of_ne hne'] at hc'
        exact .inl ⟨hc', Function.update_of_ne hne' _ _⟩
    · exact fun l slink hl => .inl ⟨hl, rfl⟩
  case any =>
    intro b st hb
    have hb : update s.states a _ b = some st := hb
    show AnyOk _ b st.func (update s.any a (.conn c) b)
    rcases eq_or_ne b a with rfl | hne'
    · rw [Function.update_self] at hb ⊢
      cases hb
      exact ⟨rfl, _, Function.update_self .., rfl⟩
    · rw [Function.update_of_ne hne'] at hb ⊢
      exact (h.any b st hb).congr (fun c' cn hc' _ => hconn c' cn hc') (fun _ _ hl _ => hl)
        fun _ _ hr => hr
  case top =>
    intro b hb
    obtain ⟨htop, hnew⟩ := Nat.max_le.mp (show max s.top (a + 1) ≤ b from hb)
    obtain ⟨hs, hr⟩ := h.top b htop
    refine ⟨?_, hr⟩
    show update s.states a _ b = none
    rw [Function.update_of_ne (Nat.ne_of_gt hnew), hs]

/-- A conn goes when no relay is left for it. -/
theorem Wf.closeConn (h : Wf rnss s) {c : Nat} {cn : Conn} {st : State}
    (hc : s.conns c = some cn) (hst : s.states cn.state = some st)
    (hnone : ∀ r relay, s.relays r = some relay → relay.conn ≠ c) :
    Wf rnss { s with
      states := update s.states cn.state none
      any := update s.any cn.state .null
      iocomConn := update s.iocomConn st.iocom none
      conns := update s.conns c none
      connq := s.connq.erase c } := by
  obtain ⟨st', hst', hfunc, hcany, hiocom⟩ := h.conns.state c cn hc
  cases hst.symm.trans hst'
  have hkeep : ∀ b st, s.any b ≠ .conn c → s.states b = some st →
      update s.states cn.state none b = some st := by
    intro b st hb hst
    rw [Function.update_of_ne, hst]
    rintro rfl
    exact hb hcany
  have hany : ∀ b, s.any b ≠ .conn c → update s.any cn.state .null b = s.any b := by
    intro b hb
    refine Function.update_of_ne ?_ _ _
    rintro rfl
    exact hb hcany
  have hlinks : LinkWf { s with
      states := update s.states cn.state none
      any := update s.any cn.state .null
      iocomConn := update s.iocomConn st.iocom none
      conns := update s.conns c none
      connq := s.connq.erase c } := by
    refine { h.links with link := fun l slink hl => ?_ }
    obtain ⟨lst, hlst, hf, hl'⟩ := h.links.link l slink hl
    have hb : s.any slink.state ≠ .conn c := by
      rw [hl']
      exact Any.noConfusion
    exact ⟨lst, hkeep _ _ hb hlst, hf, (hany _ hb).trans hl'⟩
  have hconn : ∀ c' cn', update s.conns c none c' = some cn' ↔ c' ≠ c ∧ s.conns c' = some cn' :=
    fun c' cn' => update_none
  constructor
  case conns =>
    constructor
    case mem =>
      intro c'
      show c' ∈ s.connq.erase c ↔ (update s.conns c none c').isSome
      rw [h.conns.nodup.mem_erase_iff, h.conns.mem]
      rcases eq_or_ne c' c with rfl | hne
      · rw [Function.update_self]
        exact ⟨fun h => absurd rfl h.1, nofun⟩
      · rw [Function.update_of_ne hne]
        exact ⟨fun h => h.2, fun h => ⟨hne, h⟩⟩
    case nodup => exact h.conns.nodup.erase c
    case state =>
      intro c' cn' hc'
      obtain ⟨hne, hc'⟩ := (hconn c' cn').mp hc'
      obtain ⟨cst, hcst, hf, hany', hio⟩ := h.conns.state c' cn' hc'
      have hb : s.any cn'.state ≠ .conn c := by
        rw [hany']
        exact fun heq => hne (Any.conn.inj heq)
      refine ⟨cst, hkeep _ _ hb hcst, hf, (hany _ hb).trans hany', ?_⟩
      show update s.iocomConn st.iocom none cst.iocom = some c'
      rw [Function.update_of_ne, hio]
      intro heq
      rw [heq, hiocom] at hio
      exact hne (Option.some.inj hio).symm
    case iocom =>
      intro i c' hi
      have hi : update s.iocomConn st.iocom none i = some c' := hi
      rcases eq_or_ne i st.iocom with rfl | hne
      · rw [Function.update_self] at hi
        cases hi
      · rw [Function.update_of_ne hne] at hi
        obtain ⟨cn', cst, hc', hcst, heq⟩ := h.conns.iocom i c' hi
        have hcne : c' ≠ c := by
          rintro rfl
          cases hc.symm.trans hc'
          cases hst.symm.trans hcst
          exact hne heq.symm
        obtain ⟨_, _, _, hany', _⟩ := h.conns.state c' cn' hc'
        refine ⟨cn', cst, (hconn c' cn').mpr ⟨hcne, hc'⟩, hkeep _ _ ?_ hcst, heq⟩
        rw [hany']
        exact fun heq => hcne (Any.conn.inj heq)
  case links => exact hlinks
  case relays =>
    refine h.relays.congr h.trees hlinks.toLinkTrees rfl ?_ ?_ ?_
    · intro r relay l slink cn' rst hr hrel
      have hcne := hnone r relay hr
      have hsource : s.any relay.sourceRt ≠ .conn c := by
        rw [hrel.source]
        exact Any.noConfusion
      have htarget : s.any relay.targetRt ≠ .conn c := by
        rw [hrel.any]
        exact Any.noConfusion
      have hcn' : s.any cn'.state ≠ .conn c := by
        rw [(h.relay_states hrel).2.2.2]
        exact fun heq => hcne (Any.conn.inj heq)
      refine hrel.congr (fun b bst hb => hkeep b bst ?_) (fun _ _ hn hk => ⟨hn, hk⟩)
        (hany _ hsource) (hany _ htarget) rfl (Function.update_of_ne hcne _ _)
      rcases hb with rfl | rfl | rfl
      · exact hsource
      · exact htarget
      · exact hcn'
    · intro c' cn' hc'
      exact .inl ⟨((hconn c' cn').mp hc').2, rfl⟩
    · exact fun l slink hl => .inl ⟨hl, rfl⟩
  case any =>
    intro b bst hb
    have hb : update s.states cn.state none b = some bst := hb
    show AnyOk _ b bst.func (update s.any cn.state .null b)
    rcases eq_or_ne b cn.state with rfl | hne
    · rw [Function.update_self] at hb
      cases hb
    · rw [Function.update_of_ne hne] at hb ⊢
      refine (h.any b bst hb).congr (fun c' cn' hc' hcb => ?_) (fun _ _ hl _ => hl)
        fun _ _ hr => hr
      refine (hconn c' cn').mpr ⟨?_, hc'⟩
      rintro rfl
      cases hc.symm.trans hc'
      exact hne hcb.symm
  case top =>
    intro b hb
    obtain ⟨hs, hr⟩ := h.top b hb
    refine ⟨?_, hr⟩
    show update s.states cn.state none b = none
    rcases eq_or_ne b cn.state with rfl | hne
    · exact Function.update_self ..
    · rw [Function.update_of_ne hne, hs]

theorem Wf.lnkConnDelete (h : Wf rnss s) {st : State} (hst : s.states a = some st)
    (hf : st.func = .lnkConn) : ∃ t, Span.lnkConnDelete a s = some t ∧ Wf rnss t := by
  obtain ⟨c, cn, hany, hc, rfl⟩ : ∃ c cn, s.any a = .conn c ∧ s.conns c = some cn ∧
      cn.state = a := by
    have hok := h.any a st hst
    rw [hf] at hok
    cases hany : s.any a with
    | conn c =>
        rw [hany] at hok
        obtain ⟨_, cn, hc, ha⟩ := hok
        exact ⟨c, cn, rfl, hc, ha⟩
    | null =>
        rw [hany] at hok
        cases hok
    | link l =>
        rw [hany] at hok
        cases hok.1
    | relay r =>
        rw [hany] at hok
        cases hok.1
  obtain ⟨hord, hmem⟩ := h.relays.tree c cn hc
  obtain ⟨u, hu, hwf, hp, hrelays⟩ := h.deleteAll hord.nodup fun r hr => by
    obtain ⟨relay, hlive, _⟩ := (hmem r).mp hr
    rw [hlive]
    rfl
  refine ⟨_, ?_, hwf.closeConn (by rw [hp.conns, hc]) (by rw [hp.states, hst]) ?_⟩
  · simp only [Span.lnkConnDelete, hst, hany, hc, hu, Option.bind_eq_bind, Option.bind_some]
  · rintro r relay hr rfl
    rw [hrelays r] at hr
    split at hr
    · cases hr
    · rename_i hnot
      exact hnot ((hmem r).mpr ⟨relay, hr, rfl⟩)

/-! ## `LNK_SPAN` -/

/-- The cluster of a SPAN is there, and it is the only one that may have no node. -/
theorem LinkWf.spanCluster (h : LinkWf s) {k : Nat} (hk : s.clusters k = none) (span : LnkSpan) :
    ∃ cls C T L, Span.spanCluster k span s =
        some (cls, { s with clusters := C, clsTree := T, clusterTree := L }) ∧
      LinkTrees { s with clusters := C, clsTree := T, clusterTree := L } ∧ (C cls).isSome ∧
      (∀ k' cls', s.clusters k' = some cls' → C k' = some cls') ∧
      ∀ k' cls', k' ≠ cls → C k' = some cls' → T k' ≠ [] := by
  rcases OrdTree.find_spec h.clusterOrd ⟨span.peerType, span.peerId, span.peerLabel⟩ with
    ⟨cls, hin, _, hfind⟩ | ⟨hfind, hne⟩
  · refine ⟨cls, s.clusters, s.clsTree, s.clusterTree, ?_, h.toLinkTrees,
      (h.clusterTree cls).mp hin, fun _ _ hk => hk, fun k' cls' _ hk' => h.clsNonempty k' cls' hk'⟩
    simp only [Span.spanCluster, hfind, Option.bind_eq_bind, Option.bind_some]
  · have hother : ∀ k', (s.clusters k').isSome → k' ≠ k := by
      rintro k' hk' rfl
      rw [hk] at hk'
      cases hk'
    let id : ClusterId := ⟨span.peerType, span.peerId, span.peerLabel⟩
    let C := update s.clusters k (some ⟨id, 0⟩)
    let T := update s.clsTree k []
    have hkey : ∀ k' ∈ s.clusterTree,
        { s with clusters := C, clsTree := T : Topo }.clusterKey k' = s.clusterKey k' := by
      intro k' hin
      show (update s.clusters k _ k').map _ = (s.clusters k').map _
      rw [Function.update_of_ne (hother k' ((h.clusterTree k').mp hin))]
    have hord := h.clusterOrd.congr hkey
    have hnew : { s with clusters := C, clsTree := T : Topo }.clusterKey k = some id := by
      show (update s.clusters k _ k).map _ = _
      rw [Function.update_self]
      rfl
    obtain ⟨before, after, hsplit, hins, hb, ha⟩ := OrdTree.insert_spec hord hnew fun k' hin => by
      rw [hkey k' hin]
      exact hne k' hin
    rw [hsplit] at hord
    have hord' := hord.insert (Option.isSome_iff_exists.mpr ⟨id, hnew⟩) hb ha
    have hC : ∀ k' cls', C k' = some cls' → k' = k ∧ cls' = ⟨id, 0⟩ ∨
        k' ≠ k ∧ s.clusters k' = some cls' :=
      fun k' cls' hk' => update_some.mp hk'
    have hC' : ∀ k' cls', s.clusters k' = some cls' → C k' = some cls' :=
      fun k' cls' hk' => update_keep hk hk' _
    refine ⟨k, C, T, before ++ k :: after, ?_, ?_, ?_, hC', ?_⟩
    · simp only [Span.spanCluster, hfind, Option.bind_eq_bind, Option.bind_some]
      exact congrArg (fun tree => Option.bind tree _) hins
    · refine { h.toLinkTrees with
        clusterTree := fun k' => ?_
        clusterOrd := hord'
        cluster := fun k' cls' hk' => ?_
        nodeCls := fun n node hn => ?_ }
      · show k' ∈ before ++ k :: after ↔ (update s.clusters k _ k').isSome
        rw [List.mem_append, List.mem_cons]
        have hmem := h.clusterTree k'
        rw [hsplit, List.mem_append] at hmem
        rcases eq_or_ne k' k with rfl | hne'
        · rw [Function.update_self]
          exact ⟨fun _ => rfl, fun _ => .inr (.inl rfl)⟩
        · rw [Function.update_of_ne hne', ← hmem]
          exact ⟨fun h => h.imp_right fun h => h.resolve_left hne', fun h => h.imp_right .inr⟩
      · rcases hC k' cls' hk' with ⟨rfl, rfl⟩ | ⟨hne', hk'⟩
        · refine ⟨rfl, ?_, fun n => ?_⟩
          · show OrdTree.Ordered nodeCmp s.nodeKey (update s.clsTree k' [] k')
            rw [Function.update_self]
            exact OrdTree.ordered_nil
          · show n ∈ update s.clsTree k' [] k' ↔ _
            rw [Function.update_self]
            refine ⟨fun h => absurd h List.not_mem_nil, ?_⟩
            rintro ⟨node, hn, heq⟩
            exact absurd heq (hother _ (h.nodeCls n node hn))
        · obtain ⟨hrefs, hordn, hmem⟩ := h.cluster k' cls' hk'
          have htree : T k' = s.clsTree k' := Function.update_of_ne hne' _ _
          refine ⟨hrefs, ?_, fun n => ?_⟩
          · show OrdTree.Ordered nodeCmp s.nodeKey (T k')
            rwa [htree]
          · show n ∈ T k' ↔ _
            rw [htree]
            exact hmem n
      · obtain ⟨cls, hcls⟩ := Option.isSome_iff_exists.mp (h.nodeCls n node hn)
        show (C node.cls).isSome
        rw [hC' node.cls cls hcls]
        rfl
    · show (update s.clusters k _ k).isSome
      rw [Function.update_self]
      rfl
    · intro k' cls' hne' hk'
      rcases hC k' cls' hk' with ⟨heq, _⟩ | ⟨_, hk'⟩
      · exact absurd heq hne'
      · show update s.clsTree k [] k' ≠ []
        rw [Function.update_of_ne hne']
        exact h.clsNonempty k' cls' hk'

/-- The node of a SPAN is there in its cluster, and it is the only one that may have no
link. -/
theorem LinkTrees.spanNode (h : LinkTrees s) {cls n : Nat} (hcls : (s.clusters cls).isSome)
    (hn : s.nodes n = none)
    (hnode : ∀ n' node', s.nodes n' = some node' → s.nodeTree n' ≠ []) (span : LnkSpan) :
    ∃ node N T C, Span.spanNode cls n span s =
        some (node, { s with nodes := N, nodeTree := T, clsTree := C }) ∧
      LinkTrees { s with nodes := N, nodeTree := T, clsTree := C } ∧
      (∃ nd, N node = some nd ∧ nd.cls = cls) ∧
      (∀ n' nd, s.nodes n' = some nd → N n' = some nd) ∧
      (∀ n' nd, n' ≠ node → N n' = some nd → T n' ≠ []) ∧
      C cls ≠ [] ∧ ∀ k, k ≠ cls → C k = s.clsTree k := by
  obtain ⟨cl, hcl⟩ := Option.isSome_iff_exists.mp hcls
  obtain ⟨hrefs, hord, hmem⟩ := h.cluster cls cl hcl
  rcases OrdTree.find_spec hord ⟨span.pfsLabel, span.pfsId⟩ with
    ⟨node, hin, _, hfind⟩ | ⟨hfind, hne⟩
  · refine ⟨node, s.nodes, s.nodeTree, s.clsTree, ?_, h, (hmem node).mp hin, fun _ _ hn => hn,
      fun n' nd _ hn' => hnode n' nd hn', List.ne_nil_of_mem hin, fun _ _ => rfl⟩
    simp only [Span.spanNode, hfind, Option.bind_eq_bind, Option.bind_some]
  · have hother : ∀ n', (s.nodes n').isSome → n' ≠ n := by
      rintro n' hn' rfl
      rw [hn] at hn'
      cases hn'
    let nd : Node := ⟨cls, ⟨span.pfsLabel, span.pfsId⟩, span.pfsType⟩
    let N := update s.nodes n (some nd)
    let T := update s.nodeTree n []
    have hlive : ∀ k cl', s.clusters k = some cl' → ∀ n' ∈ s.clsTree k, (s.nodes n').isSome := by
      intro k cl' hk n' hin
      obtain ⟨node, hn', _⟩ := ((h.cluster k cl' hk).2.2 n').mp hin
      rw [hn']
      rfl
    have hkey : ∀ k cl', s.clusters k = some cl' → ∀ n' ∈ s.clsTree k,
        { s with nodes := N, nodeTree := T : Topo }.nodeKey n' = s.nodeKey n' := by
      intro k cl' hk n' hin
      show (update s.nodes n _ n').map _ = (s.nodes n').map _
      rw [Function.update_of_ne (hother n' (hlive k cl' hk n' hin))]
    have hord' := hord.congr (hkey cls cl hcl)
    have hnew : { s with nodes := N, nodeTree := T : Topo }.nodeKey n = some nd.id := by
      show (update s.nodes n _ n).map _ = _
      rw [Function.update_self]
      rfl
    obtain ⟨before, after, hsplit, hins, hb, ha⟩ := OrdTree.insert_spec hord' hnew fun n' hin => by
      rw [hkey cls cl hcl n' hin]
      exact hne n' hin
    rw [hsplit] at hord'
    have hord'' := hord'.insert (by rw [hnew]; rfl) hb ha
    let C := update s.clsTree cls (before ++ n :: after)
    have hN : ∀ n' nd', N n' = some nd' → n' = n ∧ nd' = nd ∨ n' ≠ n ∧ s.nodes n' = some nd' :=
      fun n' nd' hn' => update_some.mp hn'
    have hN' : ∀ n' nd', s.nodes n' = some nd' → N n' = some nd' :=
      fun n' nd' hn' => update_keep hn hn' _
    have hNn : N n = some nd := Function.update_self ..
    have hCcls : C cls = before ++ n :: after := Function.update_self ..
    have hCne : ∀ k, k ≠ cls → C k = s.clsTree k := fun k hk => Function.update_of_ne hk _ _
    refine ⟨n, N, T, C, ?_, ?_, ⟨nd, hNn, rfl⟩, hN', ?_, ?_, hCne⟩
    · simp only [Span.spanNode, hfind, Option.bind_eq_bind, Option.bind_some]
      exact congrArg (fun tree => Option.bind tree _) hins
    · refine { h with
        cluster := fun k cl' hk => ?_
        nodeCls := fun n' nd' hn' => ?_
        node := fun n' nd' hn' => ?_
        linkNode := fun l slink hl => ?_ }
      · obtain ⟨hrefs', hord₀, hmem₀⟩ := h.cluster k cl' hk
        refine ⟨hrefs', ?_, fun n' => ?_⟩
        · show OrdTree.Ordered nodeCmp _ (C k)
          rcases eq_or_ne k cls with rfl | hne'
          · rw [hCcls]
            exact hord''
          · rw [hCne k hne']
            exact hord₀.congr (hkey k cl' hk)
        · show n' ∈ C k ↔ ∃ node, N n' = some node ∧ node.cls = k
          have hiff : (∃ node, N n' = some node ∧ node.cls = k) ↔
              n' = n ∧ k = cls ∨ n' ∈ s.clsTree k := by
            rw [hmem₀]
            constructor
            · rintro ⟨node, hn', hk'⟩
              rcases hN n' node hn' with ⟨rfl, rfl⟩ | ⟨_, hn'⟩
              · exact .inl ⟨rfl, hk'.symm⟩
              · exact .inr ⟨node, hn', hk'⟩
            · rintro (⟨rfl, rfl⟩ | ⟨node, hn', hk'⟩)
              · exact ⟨nd, hNn, rfl⟩
              · exact ⟨node, hN' n' node hn', hk'⟩
          rw [hiff]
          rcases eq_or_ne k cls with rfl | hne'
          · rw [hCcls, hsplit, List.mem_append, List.mem_append, List.mem_cons]
            constructor
            · rintro (hin | rfl | hin)
              · exact .inr (.inl hin)
              · exact .inl ⟨rfl, rfl⟩
              · exact .inr (.inr hin)
            · rintro (⟨rfl, _⟩ | hin | hin)
              · exact .inr (.inl rfl)
              · exact .inl hin
              · exact .inr (.inr hin)
          · rw [hCne k hne']
            exact ⟨.inr, fun h => h.resolve_left fun h => hne' h.2⟩
      · rcases hN n' nd' hn' with ⟨_, rfl⟩ | ⟨_, hn'⟩
        · exact hcls
        · exact h.nodeCls n' nd' hn'
      · rcases hN n' nd' hn' with ⟨rfl, _⟩ | ⟨hne', hn'⟩
        · have hT : T n' = [] := Function.update_self ..
          refine ⟨?_, fun l => ?_⟩
          · show OrdTree.Ordered linkCmp s.linkKey (T n')
            rw [hT]
            exact OrdTree.ordered_nil
          · show l ∈ T n' ↔ _
            rw [hT]
            refine ⟨fun h => absurd h List.not_mem_nil, ?_⟩
            rintro ⟨slink, hl, heq⟩
            exact absurd heq (hother _ (h.linkNode l slink hl))
        · have hT : T n' = s.nodeTree n' := Function.update_of_ne hne' _ _
          show OrdTree.Ordered linkCmp s.linkKey (T n') ∧ ∀ l, l ∈ T n' ↔ _
          rw [hT]
          exact h.node n' nd' hn'
      · obtain ⟨nd', hn'⟩ := Option.isSome_iff_exists.mp (h.linkNode l slink hl)
        show (N slink.node).isSome
        rw [hN' slink.node nd' hn']
        rfl
    · intro n' nd' hne' hn'
      rcases hN n' nd' hn' with ⟨heq, _⟩ | ⟨_, hn'⟩
      · exact absurd heq hne'
      · show update s.nodeTree n [] n' ≠ []
        rw [Function.update_of_ne hne']
        exact hnode n' nd' hn'
    · rw [hCcls]
      exact List.append_ne_nil_of_right_ne_nil _ (List.cons_ne_nil _ _)

/-- A new link in the tree of its node. -/
theorem LinkTrees.addLink (h : LinkTrees s) {iocom l node : Nat} (span : LnkSpan)
    (ha : s.states a = none) (hl : s.links l = none) (hnode : (s.nodes node).isSome) :
    ∃ tree, OrdTree.insert linkCmp
        { s with links := update s.links l (some ⟨a, node, span⟩) : Topo }.linkKey l
        (s.nodeTree node) = some tree ∧ tree ≠ [] ∧
      LinkTrees { s with
        states := update s.states a (some ⟨iocom, .lnkSpan, none⟩)
        any := update s.any a (.link l)
        links := update s.links l (some ⟨a, node, span⟩)
        relayq := update s.relayq l []
        top := max s.top (a + 1)
        nodeTree := update s.nodeTree node tree } := by
  obtain ⟨nd, hnd⟩ := Option.isSome_iff_exists.mp hnode
  obtain ⟨hord, hmem⟩ := h.node node nd hnd
  have hother : ∀ l', (s.links l').isSome → l' ≠ l := by
    rintro l' hl' rfl
    rw [hl] at hl'
    cases hl'
  let V : Topo := { s with links := update s.links l (some ⟨a, node, span⟩) }
  have hkey : ∀ n' nd', s.nodes n' = some nd' → ∀ l' ∈ s.nodeTree n',
      V.linkKey l' = s.linkKey l' := by
    intro n' nd' hn' l' hin
    obtain ⟨slink, hl', _⟩ := ((h.node n' nd' hn').2 l').mp hin
    show (update s.links l _ l').map _ = (s.links l').map _
    rw [Function.update_of_ne (hother l' (by rw [hl']; rfl))]
  have hord' := hord.congr (hkey node nd hnd)
  have hnew : V.linkKey l = some ⟨span.dist, span.rnss, a⟩ := by
    show (update s.links l _ l).map _ = _
    rw [Function.update_self]
    rfl
  obtain ⟨before, after, hsplit, hins, hb, haf⟩ := OrdTree.insert_spec hord' hnew fun l' hin => by
    rw [hkey node nd hnd l' hin]
    obtain ⟨slink, hl', _⟩ := (hmem l').mp hin
    show (s.links l').map _ ≠ _
    rw [hl']
    intro heq
    obtain ⟨st, hst, _⟩ := h.link l' slink hl'
    have hstate : slink.state = a := congrArg LinkKey.state (Option.some.inj heq)
    rw [hstate, ha] at hst
    cases hst
  rw [hsplit] at hord'
  have hord'' := hord'.insert (Option.isSome_iff_exists.mpr ⟨_, hnew⟩) hb haf
  have hT : update s.nodeTree node (before ++ l :: after) node = before ++ l :: after :=
    Function.update_self ..
  have hTne : ∀ n', n' ≠ node →
      update s.nodeTree node (before ++ l :: after) n' = s.nodeTree n' :=
    fun n' hne => Function.update_of_ne hne _ _
  refine ⟨before ++ l :: after, hins, List.append_ne_nil_of_right_ne_nil _ (List.cons_ne_nil _ _),
    { h with
      node := fun n' nd' hn' => ?_
      linkNode := fun l' slink hl' => ?_
      link := fun l' slink hl' => ?_ }⟩
  · obtain ⟨hord₀, hmem₀⟩ := h.node n' nd' hn'
    constructor
    · show OrdTree.Ordered linkCmp V.linkKey (update s.nodeTree node (before ++ l :: after) n')
      rcases eq_or_ne n' node with rfl | hne
      · rw [hT]
        exact hord''
      · rw [hTne n' hne]
        exact hord₀.congr (hkey n' nd' hn')
    · intro l'
      show l' ∈ update s.nodeTree node (before ++ l :: after) n' ↔
        ∃ slink, update s.links l (some ⟨a, node, span⟩) l' = some slink ∧ slink.node = n'
      have hiff : (∃ slink, update s.links l (some ⟨a, node, span⟩) l' = some slink ∧
          slink.node = n') ↔ l' = l ∧ n' = node ∨ l' ∈ s.nodeTree n' := by
        rw [hmem₀]
        constructor
        · rintro ⟨slink, hl', heq⟩
          rcases update_some.mp hl' with ⟨rfl, rfl⟩ | ⟨_, hl'⟩
          · exact .inl ⟨rfl, heq.symm⟩
          · exact .inr ⟨slink, hl', heq⟩
        · rintro (⟨rfl, rfl⟩ | ⟨slink, hl', heq⟩)
          · exact ⟨_, Function.update_self .., rfl⟩
          · exact ⟨slink, update_keep hl hl' _, heq⟩
      rw [hiff]
      rcases eq_or_ne n' node with rfl | hne
      · rw [hT, hsplit, List.mem_append, List.mem_append, List.mem_cons]
        constructor
        · rintro (hin | rfl | hin)
          · exact .inr (.inl hin)
          · exact .inl ⟨rfl, rfl⟩
          · exact .inr (.inr hin)
        · rintro (⟨rfl, _⟩ | hin | hin)
          · exact .inr (.inl rfl)
          · exact .inl hin
          · exact .inr (.inr hin)
      · rw [hTne n' hne]
        exact ⟨.inr, fun h => h.resolve_left fun h => hne h.2⟩
  · rcases update_some.mp hl' with ⟨_, rfl⟩ | ⟨_, hl'⟩
    · exact hnode
    · exact h.linkNode l' slink hl'
  · rcases update_some.mp hl' with ⟨rfl, rfl⟩ | ⟨_, hl'⟩
    · exact ⟨_, Function.update_self .., rfl, Function.update_self ..⟩
    · obtain ⟨st, hst, hf, hany⟩ := h.link l' slink hl'
      refine ⟨st, update_keep ha hst _, hf, ?_⟩
      show update s.any a (.link l) slink.state = .link l'
      rw [Function.update_of_ne, hany]
      rintro heq
      rw [heq, ha] at hst
      cases hst

/-- A `LNK_SPAN`. -/
theorem Wf.lnkSpanCreate (h : Wf rnss s) {iocom k n l : Nat} (span : LnkSpan)
    (ha : s.states a = none) (hk : s.clusters k = none) (hn : s.nodes n = none)
    (hl : s.links l = none) : ∃ t, Span.lnkSpanCreate a iocom k n l span s = some t ∧ Wf rnss t ∧
      t.states a = some ⟨iocom, .lnkSpan, none⟩ := by
  obtain ⟨cls, C, T, L, hcluster, htrees, hcls, hC, hCne⟩ := h.links.spanCluster hk span
  obtain ⟨node, N, T', C', hnode, htrees', ⟨nd, hnd, hndcls⟩, hN, hNne, hC'cls, hC'ne⟩ :=
    htrees.spanNode hcls hn h.links.nodeNonempty span
  obtain ⟨tree, hins, hne, hlinks⟩ := @LinkTrees.addLink _ a htrees' iocom l node span ha hl
    (Option.isSome_iff_exists.mpr ⟨nd, hnd⟩)
  have hneq : ∀ b, (s.states b).isSome → b ≠ a := by
    rintro b hb rfl
    rw [ha] at hb
    cases hb
  have hany : ∀ b, (s.states b).isSome → update s.any a (.link l) b = s.any b :=
    fun b hb => Function.update_of_ne (hneq b hb) _ _
  have heq : Span.lnkSpanCreate a iocom k n l span s = some { s with
      states := update s.states a (some ⟨iocom, .lnkSpan, none⟩)
      any := update s.any a (.link l)
      clusters := C
      clsTree := C'
      clusterTree := L
      nodes := N
      nodeTree := update T' node tree
      links := update s.links l (some ⟨a, node, span⟩)
      relayq := update s.relayq l []
      top := max s.top (a + 1) } := by
    simp only [Span.lnkSpanCreate, hcluster, hnode, Option.bind_eq_bind, Option.bind_some]
    exact congrArg (fun tree => Option.bind tree _) hins
  refine ⟨_, heq, ?_, Function.update_self ..⟩
  constructor
  case conns =>
    refine ⟨h.conns.mem, h.conns.nodup, fun c cn hc => ?_, fun i c hi => ?_⟩
    · obtain ⟨st, hst, hf, hcn, hio⟩ := h.conns.state c cn hc
      exact ⟨st, update_keep ha hst _, hf, (hany _ (by rw [hst]; rfl)).trans hcn, hio⟩
    · obtain ⟨cn, st, hc, hst, heq⟩ := h.conns.iocom i c hi
      exact ⟨cn, st, hc, update_keep ha hst _, heq⟩
  case links =>
    refine ⟨hlinks, fun k' cls' hk' => ?_, fun n' nd' hn' => ?_⟩
    · show C' k' ≠ []
      rcases eq_or_ne k' cls with rfl | hne'
      · exact hC'cls
      · rw [hC'ne k' hne']
        exact hCne k' cls' hne' hk'
    · show update T' node tree n' ≠ []
      rcases eq_or_ne n' node with rfl | hne'
      · rw [Function.update_self]
        exact hne
      · rw [Function.update_of_ne hne']
        exact hNne n' nd' hne' hn'
  case relays =>
    refine h.relays.congr h.trees hlinks rfl ?_ ?_ ?_
    · intro r relay l' slink cn st _ hrel
      obtain ⟨hsource, htarget, _, _⟩ := h.relay_states hrel
      exact hrel.congr (fun b st _ hb => update_keep ha hb _)
        (fun nd' cls' hn' hk' => ⟨hN _ nd' hn', hC _ cls' hk'⟩) (hany _ hsource) (hany _ htarget)
        ((update_keep hl hrel.link _).trans hrel.link.symm) rfl
    · exact fun c cn hc => .inl ⟨hc, rfl⟩
    · intro l' slink hl'
      rcases update_some.mp hl' with ⟨rfl, rfl⟩ | ⟨hne', hl'⟩
      · refine .inr ⟨Function.update_self .., fun r relay hr => ?_⟩
        obtain ⟨_, _, _, _, hrel⟩ := h.relays.relay r relay hr
        exact hneq _ (h.relay_states hrel).1
      · exact .inl ⟨hl', Function.update_of_ne hne' _ _⟩
  case any =>
    intro b st hb
    show AnyOk _ b st.func (update s.any a (.link l) b)
    rcases update_some.mp hb with ⟨rfl, rfl⟩ | ⟨hne', hb⟩
    · rw [Function.update_self]
      exact ⟨rfl, _, Function.update_self .., rfl⟩
    · rw [Function.update_of_ne hne']
      exact (h.any b st hb).congr (fun _ _ hc _ => hc) (fun l' slink hl' _ => update_keep hl hl' _)
        fun _ _ hr => hr
  case top =>
    intro b hb
    obtain ⟨htop, hnew⟩ := Nat.max_le.mp (show max s.top (a + 1) ≤ b from hb)
    obtain ⟨hs, hr⟩ := h.top b htop
    refine ⟨?_, hr⟩
    show update s.states a _ b = none
    rw [Function.update_of_ne (Nat.ne_of_gt hnew), hs]

theorem LinkTrees.dropLink (h : LinkTrees s) {l : Nat} {slink : Link}
    (hl : s.links l = some slink) : LinkTrees { s with
      nodeTree := update s.nodeTree slink.node ((s.nodeTree slink.node).erase l)
      states := update s.states slink.state none
      any := update s.any slink.state .null
      links := update s.links l none } := by
  refine { h with
    node := fun n nd hn => ?_
    linkNode := fun l' slink' hl' => h.linkNode l' slink' (update_none.mp hl').2
    link := fun l' slink' hl' => ?_ }
  · obtain ⟨hord, hmem⟩ := h.node n nd hn
    have htree : update s.nodeTree slink.node ((s.nodeTree slink.node).erase l) n =
        (s.nodeTree n).erase l := by
      rcases eq_or_ne n slink.node with rfl | hne
      · exact Function.update_self ..
      · rw [Function.update_of_ne hne, List.erase_of_not_mem]
        intro hin
        obtain ⟨slink', hl', heq⟩ := (hmem l).mp hin
        cases hl.symm.trans hl'
        exact hne heq.symm
    have hmem' : ∀ l', l' ∈ (s.nodeTree n).erase l ↔ ∃ slink', update s.links l none l' =
        some slink' ∧ slink'.node = n := by
      intro l'
      rw [hord.nodup.mem_erase_iff, hmem]
      simp only [update_none]
      exact ⟨fun ⟨hne, slink', hl', heq⟩ => ⟨slink', ⟨hne, hl'⟩, heq⟩,
        fun ⟨slink', ⟨hne, hl'⟩, heq⟩ => ⟨hne, slink', hl', heq⟩⟩
    constructor
    · show OrdTree.Ordered linkCmp { s with links := update s.links l none : Topo }.linkKey
        (update s.nodeTree slink.node ((s.nodeTree slink.node).erase l) n)
      rw [htree]
      refine (hord.erase l).congr fun l' hin => ?_
      have hne := (hord.nodup.mem_erase_iff.mp hin).1
      show (update s.links l none l').map _ = (s.links l').map _
      rw [Function.update_of_ne hne]
    · intro l'
      show l' ∈ update s.nodeTree slink.node ((s.nodeTree slink.node).erase l) n ↔ _
      rw [htree]
      exact hmem' l'
  · obtain ⟨hne, hl'⟩ := update_none.mp hl'
    obtain ⟨st, hst, hf, hany⟩ := h.link l' slink' hl'
    have hstate : slink'.state ≠ slink.state := by
      intro heq
      obtain ⟨_, _, _, hany'⟩ := h.link l slink hl
      rw [heq, hany'] at hany
      exact hne (Any.link.inj hany).symm
    exact ⟨st, (Function.update_of_ne hstate _ _).trans hst, hf,
      (Function.update_of_ne hstate _ _).trans hany⟩

/-- A node without links goes. -/
theorem LinkTrees.dropNode (h : LinkTrees s) {n : Nat} {node : Node} (hn : s.nodes n = some node)
    (hnil : s.nodeTree n = []) : LinkTrees { s with
      clsTree := update s.clsTree node.cls ((s.clsTree node.cls).erase n)
      nodes := update s.nodes n none } := by
  refine { h with
    cluster := fun k cls hk => ?_
    nodeCls := fun n' nd hn' => h.nodeCls n' nd (update_none.mp hn').2
    node := fun n' nd hn' => h.node n' nd (update_none.mp hn').2
    linkNode := fun l slink hl => ?_ }
  · obtain ⟨hrefs, hord, hmem⟩ := h.cluster k cls hk
    have htree : update s.clsTree node.cls ((s.clsTree node.cls).erase n) k =
        (s.clsTree k).erase n := by
      rcases eq_or_ne k node.cls with rfl | hne
      · exact Function.update_self ..
      · rw [Function.update_of_ne hne, List.erase_of_not_mem]
        intro hin
        obtain ⟨nd, hn', heq⟩ := (hmem n).mp hin
        cases hn.symm.trans hn'
        exact hne heq.symm
    have hmem' : ∀ n', n' ∈ (s.clsTree k).erase n ↔ ∃ nd, update s.nodes n none n' = some nd ∧
        nd.cls = k := by
      intro n'
      rw [hord.nodup.mem_erase_iff, hmem]
      simp only [update_none]
      exact ⟨fun ⟨hne, nd, hn', heq⟩ => ⟨nd, ⟨hne, hn'⟩, heq⟩,
        fun ⟨nd, ⟨hne, hn'⟩, heq⟩ => ⟨hne, nd, hn', heq⟩⟩
    refine ⟨hrefs, ?_, fun n' => ?_⟩
    · show OrdTree.Ordered nodeCmp { s with nodes := update s.nodes n none : Topo }.nodeKey
        (update s.clsTree node.cls ((s.clsTree node.cls).erase n) k)
      rw [htree]
      refine (hord.erase n).congr fun n' hin => ?_
      have hne := (hord.nodup.mem_erase_iff.mp hin).1
      show (update s.nodes n none n').map _ = (s.nodes n').map _
      rw [Function.update_of_ne hne]
    · show n' ∈ update s.clsTree node.cls ((s.clsTree node.cls).erase n) k ↔ _
      rw [htree]
      exact hmem' n'
  · show (update s.nodes n none slink.node).isSome
    rw [Function.update_of_ne]
    · exact h.linkNode l slink hl
    · rintro heq
      have hin := ((h.node n node hn).2 l).mpr ⟨slink, hl, heq⟩
      rw [hnil] at hin
      cases hin

/-- A cluster without nodes goes. -/
theorem LinkTrees.dropCluster (h : LinkTrees s) {k : Nat} {cls : Cluster}
    (hk : s.clusters k = some cls) (hnil : s.clsTree k = []) : LinkTrees { s with
      clusterTree := s.clusterTree.erase k
      clusters := update s.clusters k none } := by
  refine { h with
    clusterTree := fun k' => ?_
    clusterOrd := ?_
    cluster := fun k' cls' hk' => h.cluster k' cls' (update_none.mp hk').2
    nodeCls := fun n nd hn => ?_ }
  · show k' ∈ s.clusterTree.erase k ↔ (update s.clusters k none k').isSome
    rw [h.clusterOrd.nodup.mem_erase_iff, h.clusterTree]
    rcases eq_or_ne k' k with rfl | hne
    · rw [Function.update_self]
      exact ⟨fun h => absurd rfl h.1, nofun⟩
    · rw [Function.update_of_ne hne]
      exact ⟨And.right, fun h => ⟨hne, h⟩⟩
  · show OrdTree.Ordered clusterCmp
      { s with clusters := update s.clusters k none : Topo }.clusterKey (s.clusterTree.erase k)
    refine (h.clusterOrd.erase k).congr fun k' hin => ?_
    have hne := (h.clusterOrd.nodup.mem_erase_iff.mp hin).1
    show (update s.clusters k none k').map _ = (s.clusters k').map _
    rw [Function.update_of_ne hne]
  · show (update s.clusters k none nd.cls).isSome
    rw [Function.update_of_ne]
    · exact h.nodeCls n nd hn
    · rintro heq
      have hin := ((h.cluster k cls hk).2.2 n).mpr ⟨nd, hn, heq⟩
      rw [hnil] at hin
      cases hin

/-- The last link of a node is gone. -/
theorem LinkTrees.freeNode (h : LinkTrees s) {n : Nat} {node : Node} (hn : s.nodes n = some node)
    (hnil : s.nodeTree n = []) (hcls : ∀ k cls, s.clusters k = some cls → s.clsTree k ≠ [])
    (hnode : ∀ n' nd, n' ≠ n → s.nodes n' = some nd → s.nodeTree n' ≠ []) : ∃ C T L,
      Span.freeNode n node.cls s = some { s with
        clusters := C, clsTree := T, clusterTree := L, nodes := update s.nodes n none } ∧
      LinkWf { s with
        clusters := C, clsTree := T, clusterTree := L, nodes := update s.nodes n none } ∧
      ∀ k cls, C k = some cls → s.clusters k = some cls := by
  obtain ⟨cls, hk⟩ := Option.isSome_iff_exists.mp (h.nodeCls n node hn)
  have hdrop := h.dropNode hn hnil
  have hself : update s.clsTree node.cls ((s.clsTree node.cls).erase n) node.cls =
      (s.clsTree node.cls).erase n := Function.update_self ..
  have hclsne : ∀ k cls', k ≠ node.cls → s.clusters k = some cls' →
      update s.clsTree node.cls ((s.clsTree node.cls).erase n) k ≠ [] := by
    intro k cls' hne hk'
    rw [Function.update_of_ne hne]
    exact hcls k cls' hk'
  have hnodes : ∀ n' nd, update s.nodes n none n' = some nd → s.nodeTree n' ≠ [] :=
    fun n' nd hn' => hnode n' nd (update_none.mp hn').1 (update_none.mp hn').2
  rcases eq_or_ne ((s.clsTree node.cls).erase n) [] with hempty | hne
  · refine ⟨update s.clusters node.cls none, _, s.clusterTree.erase node.cls, ?_,
      ⟨hdrop.dropCluster hk (hself.trans hempty), fun k cls' hk' => ?_, hnodes⟩,
      fun k cls' hk' => (update_none.mp hk').2⟩
    · simp only [Span.freeNode, hk, Option.bind_eq_bind, Option.bind_some]
      exact if_pos ⟨hself.trans hempty, (h.cluster node.cls cls hk).1⟩
    · exact hclsne k cls' (update_none.mp hk').1 (update_none.mp hk').2
  · refine ⟨s.clusters, _, s.clusterTree, ?_, ⟨hdrop, fun k cls' hk' => ?_, hnodes⟩,
      fun _ _ hk' => hk'⟩
    · simp only [Span.freeNode, hk, Option.bind_eq_bind, Option.bind_some]
      exact if_neg fun hor => hne (hself.symm.trans hor.1)
    · show update s.clsTree node.cls ((s.clsTree node.cls).erase n) k ≠ []
      rcases eq_or_ne k node.cls with rfl | hne'
      · rwa [hself]
      · exact hclsne k cls' hne' hk'

/-- A link goes when no relay of it is left, perhaps with its node and its cluster. -/
theorem Wf.closeLink (h : Wf rnss s) {l : Nat} {slink : Link} (hl : s.links l = some slink)
    (hnone : ∀ r relay, s.relays r = some relay → relay.sourceRt ≠ slink.state)
    {C : Nat → Option Cluster} {N : Nat → Option Node} {T T' : Nat → List Nat} {L : List Nat}
    (hlinks : LinkWf { s with
      nodeTree := T
      states := update s.states slink.state none
      any := update s.any slink.state .null
      links := update s.links l none
      clusters := C, clsTree := T', clusterTree := L, nodes := N })
    (hC : ∀ k cls, C k = some cls → s.clusters k = some cls)
    (hN : ∀ n nd, N n = some nd → s.nodes n = some nd) : Wf rnss { s with
      nodeTree := T
      states := update s.states slink.state none
      any := update s.any slink.state .null
      links := update s.links l none
      clusters := C, clsTree := T', clusterTree := L, nodes := N } := by
  obtain ⟨_, _, _, hlany⟩ := h.links.link l slink hl
  have hne : ∀ b, s.any b ≠ .link l → b ≠ slink.state := by
    rintro b hb rfl
    exact hb hlany
  have hkeep : ∀ b st, s.any b ≠ .link l → s.states b = some st →
      update s.states slink.state none b = some st :=
    fun b st hb hst => (Function.update_of_ne (hne b hb) _ _).trans hst
  have hany : ∀ b, s.any b ≠ .link l → update s.any slink.state .null b = s.any b :=
    fun b hb => Function.update_of_ne (hne b hb) _ _
  have hcany : ∀ c cn, s.conns c = some cn → s.any cn.state ≠ .link l := by
    intro c cn hc
    obtain ⟨_, _, _, hcany, _⟩ := h.conns.state c cn hc
    rw [hcany]
    exact Any.noConfusion
  constructor
  case conns =>
    refine ⟨h.conns.mem, h.conns.nodup, fun c cn hc => ?_, fun i c hi => ?_⟩
    · obtain ⟨st, hst, hf, hcn, hio⟩ := h.conns.state c cn hc
      exact ⟨st, hkeep _ _ (hcany c cn hc) hst, hf, (hany _ (hcany c cn hc)).trans hcn, hio⟩
    · obtain ⟨cn, st, hc, hst, heq⟩ := h.conns.iocom i c hi
      exact ⟨cn, st, hc, hkeep _ _ (hcany c cn hc) hst, heq⟩
  case links => exact hlinks
  case relays =>
    refine h.relays.congr h.trees hlinks.toLinkTrees rfl ?_ ?_ ?_
    · intro r relay l' slink' cn st hr hrel
      have hlne : l' ≠ l := by
        rintro rfl
        cases hl.symm.trans hrel.link
        exact hnone r relay hr hrel.rt.symm
      have hsource : s.any relay.sourceRt ≠ .link l := by
        rw [hrel.source]
        exact fun heq => hlne (Any.link.inj heq)
      have htarget : s.any relay.targetRt ≠ .link l := by
        rw [hrel.any]
        exact Any.noConfusion
      have hl' : update s.links l none l' = some slink' := update_none.mpr ⟨hlne, hrel.link⟩
      -- The link is still in the trees, so its node and its cluster are.
      refine hrel.congr (fun b bst hb => hkeep b bst ?_) (fun nd cls hn hk => ?_)
        (hany _ hsource) (hany _ htarget) (hl'.trans hrel.link.symm) rfl
      · rcases hb with rfl | rfl | rfl
        · exact hsource
        · exact htarget
        · exact hcany _ cn hrel.conn
      · obtain ⟨nd', hn'⟩ := Option.isSome_iff_exists.mp (hlinks.linkNode l' slink' hl')
        cases hn.symm.trans (hN _ nd' hn')
        obtain ⟨cls', hk'⟩ := Option.isSome_iff_exists.mp (hlinks.nodeCls _ nd hn')
        cases hk.symm.trans (hC _ cls' hk')
        exact ⟨hn', hk'⟩
    · exact fun c cn hc => .inl ⟨hc, rfl⟩
    · exact fun l' slink' hl' => .inl ⟨(update_none.mp hl').2, rfl⟩
  case any =>
    intro b bst hb
    obtain ⟨hbne, hbst⟩ := update_none.mp hb
    show AnyOk _ b bst.func (update s.any slink.state .null b)
    rw [Function.update_of_ne hbne]
    refine (h.any b bst hbst).congr (fun _ _ hc _ => hc) (fun l' slink' hl' hlb => ?_)
      fun _ _ hr => hr
    refine update_none.mpr ⟨?_, hl'⟩
    rintro rfl
    cases hl.symm.trans hl'
    exact hbne hlb.symm
  case top =>
    intro b hb
    obtain ⟨hs, hr⟩ := h.top b hb
    refine ⟨?_, hr⟩
    show update s.states slink.state none b = none
    rcases eq_or_ne b slink.state with rfl | hne
    · exact Function.update_self ..
    · rw [Function.update_of_ne hne, hs]

theorem Wf.lnkSpanDelete (h : Wf rnss s) {st : State} (hst : s.states a = some st)
    (hf : st.func = .lnkSpan) : ∃ t, Span.lnkSpanDelete a s = some t ∧ Wf rnss t := by
  obtain ⟨l, slink, hany, hl, rfl⟩ : ∃ l slink, s.any a = .link l ∧ s.links l = some slink ∧
      slink.state = a := by
    have hok := h.any a st hst
    rw [hf] at hok
    cases hany : s.any a with
    | link l =>
        rw [hany] at hok
        obtain ⟨_, slink, hl, ha⟩ := hok
        exact ⟨l, slink, rfl, hl, ha⟩
    | null =>
        rw [hany] at hok
        cases hok
    | conn c =>
        rw [hany] at hok
        cases hok.1
    | relay r =>
        rw [hany] at hok
        cases hok.1
  obtain ⟨node, hn⟩ := Option.isSome_iff_exists.mp (h.links.linkNode l slink hl)
  obtain ⟨hnodup, hmem⟩ := h.relays.relayq l slink hl
  obtain ⟨u, hu, hwf, hp, hrelays⟩ := h.deleteAll hnodup fun r hr => by
    obtain ⟨relay, hlive, _⟩ := (hmem r).mp hr
    rw [hlive]
    rfl
  have hlu : u.links l = some slink := by rw [hp.links, hl]
  have hnu : u.nodes slink.node = some node := by rw [hp.nodes, hn]
  have hnone : ∀ r relay, u.relays r = some relay → relay.sourceRt ≠ slink.state := by
    rintro r relay hr heq
    rw [hrelays r] at hr
    split at hr
    · cases hr
    · rename_i hnot
      exact hnot ((hmem r).mpr ⟨relay, hr, heq⟩)
  have hdrop := hwf.trees.dropLink hlu
  have hself : update u.nodeTree slink.node ((u.nodeTree slink.node).erase l) slink.node =
      (u.nodeTree slink.node).erase l := Function.update_self ..
  have hother : ∀ n nd, n ≠ slink.node → u.nodes n = some nd →
      update u.nodeTree slink.node ((u.nodeTree slink.node).erase l) n ≠ [] := by
    intro n nd hne hn'
    rw [Function.update_of_ne hne]
    exact hwf.links.nodeNonempty n nd hn'
  simp only [Span.lnkSpanDelete, hst, hany, hl, hn, hu, ne_eq, not_true_eq_false, if_false,
    Option.bind_eq_bind, Option.bind_some]
  rcases eq_or_ne ((u.nodeTree slink.node).erase l) [] with hempty | hne
  · obtain ⟨C, T, L, hfree, hlinks, hC⟩ := hdrop.freeNode hnu (hself.trans hempty)
      hwf.links.clsNonempty hother
    rw [if_pos (hself.trans hempty)]
    exact ⟨_, hfree, hwf.closeLink hlu hnone hlinks hC fun _ _ hn' => (update_none.mp hn').2⟩
  · rw [if_neg fun heq => hne (hself.symm.trans heq)]
    refine ⟨_, rfl, hwf.closeLink hlu hnone ⟨hdrop, hwf.links.clsNonempty, fun n nd hn' => ?_⟩
      (fun _ _ hk => hk) fun _ _ hn' => hn'⟩
    show update u.nodeTree slink.node ((u.nodeTree slink.node).erase l) n ≠ []
    rcases eq_or_ne n slink.node with rfl | hne'
    · rwa [hself]
    · exact hother n nd hne' hn'

/-! ## Relays that peers end -/

/-- The transaction of a relay that is gone goes too. -/
theorem Wf.endState (h : Wf rnss s) (hnull : s.any a = .null) :
    Wf rnss { s with states := update s.states a none } := by
  have hkeep : ∀ b st, s.any b ≠ .null → s.states b = some st →
      update s.states a none b = some st := by
    rintro b st hb hst
    refine update_none.mpr ⟨?_, hst⟩
    rintro rfl
    exact hb hnull
  have hconn : ∀ c cn, s.conns c = some cn → s.any cn.state ≠ .null := by
    intro c cn hc
    obtain ⟨_, _, _, hcany, _⟩ := h.conns.state c cn hc
    rw [hcany]
    exact Any.noConfusion
  have hlinks : LinkWf { s with states := update s.states a none } := by
    refine { h.links with link := fun l slink hl => ?_ }
    obtain ⟨st, hst, hf, hany⟩ := h.links.link l slink hl
    refine ⟨st, hkeep _ _ ?_ hst, hf, hany⟩
    rw [hany]
    exact Any.noConfusion
  constructor
  case conns =>
    refine ⟨h.conns.mem, h.conns.nodup, fun c cn hc => ?_, fun i c hi => ?_⟩
    · obtain ⟨st, hst, hf, hcn, hio⟩ := h.conns.state c cn hc
      exact ⟨st, hkeep _ _ (hconn c cn hc) hst, hf, hcn, hio⟩
    · obtain ⟨cn, st, hc, hst, heq⟩ := h.conns.iocom i c hi
      exact ⟨cn, st, hc, hkeep _ _ (hconn c cn hc) hst, heq⟩
  case links => exact hlinks
  case relays =>
    refine h.relays.congr h.trees hlinks.toLinkTrees rfl (fun r relay l slink cn st _ hrel => ?_)
      (fun c cn hc => .inl ⟨hc, rfl⟩) fun l slink hl => .inl ⟨hl, rfl⟩
    refine hrel.congr (fun b bst hb => hkeep b bst ?_) (fun _ _ hn hk => ⟨hn, hk⟩) rfl rfl rfl rfl
    rcases hb with rfl | rfl | rfl
    · rw [hrel.source]
      exact Any.noConfusion
    · rw [hrel.any]
      exact Any.noConfusion
    · exact hconn _ cn hrel.conn
  case any =>
    intro b st hb
    exact (h.any b st (update_none.mp hb).2).congr (fun _ _ hc _ => hc) (fun _ _ hl _ => hl)
      fun _ _ hr => hr
  case top =>
    intro b hb
    obtain ⟨hs, hr⟩ := h.top b hb
    refine ⟨?_, hr⟩
    show update s.states a none b = none
    rcases eq_or_ne b a with rfl | hne
    · exact Function.update_self ..
    · rw [Function.update_of_ne hne, hs]

theorem Wf.lnkRelayDelete (h : Wf rnss s) {st : State} (hst : s.states a = some st)
    (hf : st.func = .lnkRelay) : ∃ t, Span.lnkRelayDelete a s = some t ∧ Wf rnss t := by
  have hok := h.any a st hst
  rw [hf] at hok
  cases hany : s.any a with
  | null =>
      refine ⟨_, ?_, h.endState hany⟩
      simp only [Span.lnkRelayDelete, hst, hany, Option.bind_eq_bind, Option.bind_some]
  | relay r =>
      rw [hany] at hok
      obtain ⟨_, relay, hr, rfl⟩ := hok
      obtain ⟨l, hl, hdel⟩ := h.relayDelete_eq hr
      have hnull : (s.without r relay l).any relay.targetRt = .null := Function.update_self ..
      refine ⟨_, ?_, (h.without hr hl).endState hnull⟩
      simp only [Span.lnkRelayDelete, hst, hany, hdel, Option.bind_eq_bind, Option.bind_some]
  | conn c =>
      rw [hany] at hok
      cases hok.1
  | link l =>
      rw [hany] at hok
      cases hok.1

/-! ## Runs -/

/-- Addresses of new objects are not in use, and a transaction that ends is there. -/
def Ok (s : Topo) : Ev → Prop
  | .connOpen a _ c _ _ => s.states a = none ∧ s.conns c = none
  | .spanOpen a _ k n l _ _ =>
      s.states a = none ∧ s.clusters k = none ∧ s.nodes n = none ∧ s.links l = none
  | .delete a _ => (s.states a).isSome
  | .scan addr => Fresh addr

/-- The conn and the link are of the same connection. -/
def SameIocom (s : Topo) (conn : Conn) (slink : Link) : Prop :=
  (s.states slink.state).map (·.iocom) = (s.states conn.state).map (·.iocom)

/-- What the code takes for granted: a connection has one `LNK_CONN` at a time, a peer ends
our SPANs with replies, and the peer type of a best link fits a peer mask that it is compared
with. -/
def Safe (s : Topo) : Ev → Prop
  | .connOpen _ iocom _ _ _ => s.iocomConn iocom = none
  | .spanOpen .. => True
  | .delete a reply => ∀ st, s.states a = some st → st.func = .lnkRelay → reply = true
  | .scan _ => ∀ n c best slink conn, (s.nodeTree n).head? = some best →
      s.links best = some slink → s.conns c = some conn →
      slink.span.dist > spanMaxdist ∨ SameIocom s conn slink ∨ slink.span.peerType.toNat < 64

/-- A relay is in the tree of one conn and in the list of one link, and tells of that link
from one hop further away. -/
def Mirrored (s : Topo) : Prop :=
  ∀ r relay, s.relays r = some relay → ∃ l slink st sent,
    s.any relay.sourceRt = .link l ∧ s.links l = some slink ∧
    (∀ c, (s.conns c).isSome → (r ∈ s.connTree c ↔ c = relay.conn)) ∧
    (∀ l', (s.links l').isSome → (r ∈ s.relayq l' ↔ l' = l)) ∧
    s.states relay.targetRt = some st ∧ st.sent = some sent ∧
    sent.dist = slink.span.dist + 1 ∧ sent.dist ≤ spanMaxdist + 1

theorem Wf.init (rnss : BitVec 32) : Wf rnss .init where
  conns := ⟨fun _ => ⟨nofun, nofun⟩, .nil, nofun, nofun⟩
  links := ⟨⟨fun _ => ⟨nofun, nofun⟩, OrdTree.ordered_nil, nofun, nofun, nofun, nofun, nofun⟩,
    nofun, nofun⟩
  relays := ⟨nofun, nofun, nofun⟩
  any := nofun
  top _ _ := ⟨rfl, rfl⟩

/-- The filters let nothing through that is too far away. -/
theorem dist_of_accepts {conn : Conn} {slink : Link} (h : accepts s conn slink = some true) :
    slink.span.dist ≤ spanMaxdist := by
  unfold accepts at h
  simp only [Option.bind_eq_bind, Option.bind_eq_some_iff] at h
  obtain ⟨lst, _, cst, _, node, _, cls, _, h⟩ := h
  unfold filter at h
  refine BitVec.not_lt.mp fun hgt => ?_
  rw [if_pos hgt] at h
  cases h

theorem Wf.mirrored (h : Wf rnss s) : Mirrored s := by
  intro r relay hr
  obtain ⟨l, slink, cn, st, hrel⟩ := h.relays.relay r relay hr
  refine ⟨l, slink, st, _, hrel.source, hrel.link, fun c hc => ?_, fun l' hl' => ?_, hrel.target,
    hrel.sent, rfl, ?_⟩
  · obtain ⟨cn', hc⟩ := Option.isSome_iff_exists.mp hc
    rw [(h.relays.tree c cn' hc).2]
    constructor
    · rintro ⟨relay', hr', rfl⟩
      cases hr.symm.trans hr'
      rfl
    · rintro rfl
      exact ⟨relay, hr, rfl⟩
  · obtain ⟨slink', hl'⟩ := Option.isSome_iff_exists.mp hl'
    rw [(h.relays.relayq l' slink' hl').2]
    constructor
    · rintro ⟨relay', hr', heq⟩
      cases hr.symm.trans hr'
      obtain ⟨_, _, _, hany⟩ := h.links.link l' slink' hl'
      rw [← heq, hrel.source] at hany
      exact (Any.link.inj hany).symm
    · rintro rfl
      cases hrel.link.symm.trans hl'
      exact ⟨relay, hr, hrel.rt.symm⟩
  · have hdist := dist_of_accepts hrel.accepted
    show slink.span.dist + 1 ≤ spanMaxdist + 1
    rw [BitVec.le_def] at hdist ⊢
    rw [BitVec.toNat_add, BitVec.toNat_add]
    have h16 : spanMaxdist.toNat = 16 := rfl
    have h1 : (1 : BitVec 32).toNat = 1 := rfl
    omega

/-- The filters can be applied. -/
theorem Wf.ready (h : Wf rnss s) {addr : Topo → Nat × Nat} (hsafe : Safe s (.scan addr)) (n c : Nat) :
    Ready s n c := by
  intro best slink conn hbest hl hc
  obtain ⟨lst, hlst, _⟩ := h.links.link best slink hl
  obtain ⟨cst, hcst, _⟩ := h.conns.state c conn hc
  obtain ⟨node, hn⟩ := Option.isSome_iff_exists.mp (h.links.linkNode best slink hl)
  obtain ⟨cls, hk⟩ := Option.isSome_iff_exists.mp (h.links.nodeCls slink.node node hn)
  refine .inr (Option.isSome_iff_exists.mp ?_)
  simp only [accepts, hlst, hcst, hn, hk, Option.bind_eq_bind, Option.bind_some, filter]
  have hcond := hsafe n c best slink conn hbest hl hc
  rw [SameIocom, hlst, hcst] at hcond
  split
  · rfl
  · rename_i hdist
    split
    · rfl
    · rename_i hsame
      rcases hcond with hgt | heq | hlt
      · exact absurd hgt hdist
      · exact absurd (decide_eq_true (Option.some.inj heq)) hsame
      · rw [if_neg (Nat.not_le.mpr hlt)]
        split
        · rfl
        · split
          · rfl
          · split <;> rfl

/-- The end of a transaction. -/
theorem Wf.delete (h : Wf rnss s) {reply : Bool} (hok : Ok s (.delete a reply))
    (hsafe : Safe s (.delete a reply)) : ∃ t, Span.delete a reply s = some t ∧ Wf rnss t := by
  obtain ⟨st, hst⟩ := Option.isSome_iff_exists.mp hok
  simp only [Span.delete, hst, Option.bind_eq_bind, Option.bind_some]
  cases hf : st.func with
  | lnkConn =>
      cases reply with
      | true => exact ⟨s, rfl, h⟩
      | false => exact h.lnkConnDelete hst hf
  | lnkSpan =>
      cases reply with
      | true => exact ⟨s, rfl, h⟩
      | false => exact h.lnkSpanDelete hst hf
  | lnkRelay =>
      rw [hsafe st hst hf]
      exact h.lnkRelayDelete hst hf

/-- What every step does. -/
theorem Wf.step (h : Wf rnss s) (e : Ev) (hok : Ok s e) (hsafe : Safe s e) :
    ∃ t, Span.step rnss s e = some t ∧ Wf rnss t := by
  cases e with
  | connOpen a iocom c lnkConn del =>
      obtain ⟨ha, hc⟩ := hok
      obtain ⟨u, hu, hwf, hst⟩ := h.lnkConnCreate lnkConn ha hc hsafe
      simp only [Span.step, hu, Option.bind_eq_bind, Option.bind_some]
      cases del with
      | true => exact hwf.lnkConnDelete hst rfl
      | false => exact ⟨u, rfl, hwf⟩
  | spanOpen a iocom k n l span del =>
      obtain ⟨ha, hk, hn, hl⟩ := hok
      obtain ⟨u, hu, hwf, hst⟩ := @Wf.lnkSpanCreate _ _ _ h iocom k n l span ha hk hn hl
      simp only [Span.step, hu, Option.bind_eq_bind, Option.bind_some]
      cases del with
      | true => exact hwf.lnkSpanDelete hst rfl
      | false => exact ⟨u, rfl, hwf⟩
  | delete a reply => exact h.delete hok hsafe
  | scan addr =>
      obtain ⟨t, ht, hwf, _⟩ := h.relayScan_spec hok fun n c _ _ => h.ready hsafe n c
      exact ⟨t, ht, hwf⟩

/-- **The relays mirror the links.**  No assertion fails and nothing freed is read, every
relay is where it should be, and after a scan a node is relayed to a conn exactly by its best
link, if that passes the filters. -/
theorem mirror (rnss : BitVec 32) (es : List Ev)
    (hes : Machine.AllSteps (step rnss) (fun s e => Ok s e ∧ Safe s e) .init es) :
    ∃ t, Machine.exec (step rnss) .init es = some t ∧ Wf rnss t ∧ Mirrored t ∧
      ∀ before addr, es = before ++ [.scan addr] →
        ∀ n c, (t.nodes n).isSome → (t.conns c).isSome → SyncedPair t n c := by
  have hstep : ∀ s e, Wf rnss s → Ok s e ∧ Safe s e → ∃ t, step rnss s e = some t ∧ Wf rnss t :=
    fun s e h hoks => h.step e hoks.1 hoks.2
  obtain ⟨t, ht, hwf⟩ := Machine.exec_total hstep (Wf.init rnss) hes
  refine ⟨t, ht, hwf, hwf.mirrored, ?_⟩
  rintro before addr rfl
  rw [Machine.exec_append] at ht
  obtain ⟨u, hu, hlast⟩ := Option.bind_eq_some_iff.mp ht
  obtain ⟨hbefore, hscan, _⟩ := hes.of_append hu
  obtain ⟨u', hu', hwfu⟩ := Machine.exec_total hstep (Wf.init rnss) hbefore
  cases hu.symm.trans hu'
  obtain ⟨t', ht', _, hsync⟩ := hwfu.relayScan_spec hscan.1 fun n c _ _ => hwfu.ready hscan.2 n c
  obtain ⟨t'', ht'', hnil⟩ := Machine.exec_cons_eq_some.mp hlast
  cases ht'.symm.trans ht''
  cases hnil
  exact hsync

/-! ### A run -/

/-- A SPAN comes in on one connection, and the peer on another one wants to hear of it. -/
def oneSpan : List Ev :=
  [.connOpen 0 0 0 ⟨1, 2, 3⟩ false, .spanOpen 1 1 0 0 0 ⟨1, 2, 3, 1, 0, 0, [], []⟩ false,
    .scan fun s => (s.top, s.top)]

theorem fresh_top : Fresh fun s => (s.top, s.top) :=
  fun s h => ⟨(h s.top (Nat.le_refl _)).2, (h s.top (Nat.le_refl _)).1⟩

theorem mirror_oneSpan : ∃ t, Machine.exec (step 7) .init oneSpan = some t ∧ Wf 7 t ∧ Mirrored t ∧
    ∀ before addr, oneSpan = before ++ [.scan addr] →
      ∀ n c, (t.nodes n).isSome → (t.conns c).isSome → SyncedPair t n c := by
  refine mirror 7 oneSpan ⟨⟨⟨rfl, rfl⟩, rfl⟩, ⟨⟨rfl, rfl, rfl, rfl⟩, trivial⟩,
    ⟨fresh_top, fun n c best slink conn _ hl _ => .inr (.inr ?_)⟩, ?_⟩
  · rcases update_some.mp hl with ⟨_, rfl⟩ | ⟨_, hl⟩
    · decide
    · cases hl
  · split <;> trivial

example : (Machine.exec (step 7) .init oneSpan).map (fun t => linksRelayed t 0 0) = some [0] :=
  rfl

/-- Two transactions with a `LNK_CONN` on one connection. -/
def twoConns : List Ev :=
  [.connOpen 0 0 0 ⟨1, 2, 3⟩ false, .connOpen 1 0 1 ⟨1, 2, 3⟩ false]

theorem two_conns : Machine.AllSteps (step 7) Ok .init twoConns ∧
    Machine.exec (step 7) .init twoConns = none :=
  ⟨⟨⟨rfl, rfl⟩, ⟨rfl, rfl⟩, trivial⟩, rfl⟩

end Hammer2.Span
