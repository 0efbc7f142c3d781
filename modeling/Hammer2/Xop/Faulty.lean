/-
# `Hammer2.Xop.Faulty` — the verdict on a key when nodes have errors

An error of a node does not change what is counted: the counters of pass 2 are those of the nodes
without their errors (`SameCount`), so the analysis of `Quorum` still says when a key has its
quorum.  What changes is the answer then.  It is an error if the quorum has no chain without one,
or if any node that presents the chosen chain has one.

    scrub                 a node without its errors
    matched               the nodes that pass 3 looks at
    clusterCheck_faulty   the verdict on a key
-/
import Hammer2.Xop.Quorum

namespace Hammer2.Xop

/-- The node without its errors. -/
def Node.scrub (n : Node) : Node :=
  { n with item := { n.item with chain := n.item.chain.map fun c => { c with error := 0 }, error := 0 } }

/-- The node, a master or not, presents the key with the id. -/
def Node.matched (key tid : Nat) (n : Node) : Bool :=
  match n.item.chain with
  | some c => decide (c.key = key ∧ c.modifyTid = tid)
  | none => false

/-- No chain has the id `TID_MAX`. -/
def TidsOk (nodes : List Node) : Prop :=
  ∀ n ∈ nodes, ∀ c, n.item.chain = some c → c.modifyTid < tidMax

variable {nodes : List Node} {key tid bound nquorum : Nat} {t t' : Tally}

/-! ## What is counted -/

theorem scrub_presents (n : Node) : n.scrub.presents key = n.presents key := by
  unfold Node.presents Node.scrub
  cases n.item.chain <;> rfl

theorem scrub_agrees (n : Node) : n.scrub.agrees key tid = n.agrees key tid := by
  unfold Node.agrees Node.scrub
  cases n.item.chain <;> rfl

theorem scrub_pending (n : Node) : n.scrub.pending = n.pending := by
  unfold Node.pending Node.scrub
  cases n.item.chain <;> rfl

theorem scrub_clean (h : TidsOk nodes) : Clean (nodes.map Node.scrub) := by
  intro m hm
  obtain ⟨n, hn, rfl⟩ := List.mem_map.mp hm
  refine ⟨rfl, fun c hc => ?_⟩
  obtain ⟨d, hd, rfl⟩ := Option.map_eq_some_iff.mp hc
  exact ⟨rfl, h n hn d hd⟩

theorem scrub_agree : agree (nodes.map Node.scrub) key tid = agree nodes key tid := by
  unfold agree
  rw [List.countP_map]
  exact List.countP_congr fun n _ => by rw [Function.comp_apply, scrub_agrees]

theorem scrub_pendingCount : pendingCount (nodes.map Node.scrub) = pendingCount nodes := by
  unfold pendingCount
  rw [List.countP_map]
  exact List.countP_congr fun n _ => by rw [Function.comp_apply, scrub_pending]

theorem scrub_keymatch :
    (nodes.map Node.scrub).countP (Node.presents key) = nodes.countP (Node.presents key) := by
  rw [List.countP_map]
  exact List.countP_congr fun n _ => by rw [Function.comp_apply, scrub_presents]

theorem scrub_bestAgree : bestAgree (nodes.map Node.scrub) key = bestAgree nodes key := by
  unfold bestAgree
  rw [List.map_map]
  refine congrArg (fun l => l.foldr max 0) (List.map_congr_left fun n _ => ?_)
  rw [Function.comp_apply]
  cases hc : n.item.chain with
  | none => simp only [Node.scrub, hc, Option.map_none]
  | some c => simp only [Node.scrub, hc, Option.map_some, scrub_agree]

/-- The same counters. -/
structure SameCount (t t' : Tally) : Prop where
  umasters : t.umasters = t'.umasters
  nmasters : t.nmasters = t'.nmasters
  keymatch : t.keymatch = t'.keymatch
  quorumTid : t.quorumTid = t'.quorumTid

theorem SameCount.node (h : SameCount t t') (n : Node) :
    SameCount (tallyNode key false bound t n) (tallyNode key false bound t' n.scrub) := by
  obtain ⟨hu, hn, hk, hq⟩ := h
  unfold tallyNode
  cases hm : n.type.isMaster with
  | false => simpa only [Node.scrub, hm, Bool.false_eq_true, if_false] using ⟨hu, hn, hk, hq⟩
  | true =>
      cases hc : n.item.chain with
      | none =>
          cases hnull : n.item.null with
          | false =>
              simp only [Node.scrub, hm, hc, hnull, if_true, Option.map_none]
              exact ⟨by rw [hu], hn, hk, hq⟩
          | true =>
              simp only [Node.scrub, hm, hc, hnull, if_true, Option.map_none, Bool.true_eq_false, if_false,
                Bool.false_eq_true]
              exact ⟨hu, hn, hk, hq⟩
      | some c =>
          simp only [Node.scrub, hm, hc, if_true, Option.map_some, true_and]
          by_cases hkey : key = keyMax ∨ c.key = key
          · simp only [if_pos hkey, hq]
            by_cases hbetter : c.modifyTid < bound ∧ t'.quorumTid < c.modifyTid
            · simp only [if_pos hbetter, if_true]
              exact ⟨hu, rfl, by rw [hk], rfl⟩
            · simp only [if_neg hbetter]
              by_cases hsame : t'.quorumTid = c.modifyTid
              · rw [if_pos hsame, if_pos hsame]
                exact ⟨hu, by rw [hn], by rw [hk], rfl⟩
              · rw [if_neg hsame, if_neg hsame]
                exact ⟨hu, hn, by rw [hk], rfl⟩
          · simp only [if_neg hkey]
            exact ⟨hu, hn, hk, hq⟩

theorem SameCount.round {focus focus' : Option Chain} {error error' : Nat} :
    SameCount (tallyRound nodes key false bound focus error)
      (tallyRound (nodes.map Node.scrub) key false bound focus' error') := by
  have hfold : ∀ (l : List Node) {t t' : Tally}, SameCount t t' →
      SameCount (l.foldl (tallyNode key false bound) t)
        ((l.map Node.scrub).foldl (tallyNode key false bound) t') := by
    intro l
    induction l with
    | nil => exact fun h => h
    | cons n l ih => exact fun h => ih (h.node n)
  exact hfold nodes ⟨rfl, rfl, rfl, rfl⟩

theorem SameCount.loop : ∀ {fuel bound : Nat} {t t' : Tally}, SameCount t t' →
    SameCount (quorumLoop nodes key false nquorum fuel bound t)
      (quorumLoop (nodes.map Node.scrub) key false nquorum fuel bound t')
  | 0, _, _, _, h => h
  | fuel + 1, bound, t, t', h => by
      unfold quorumLoop
      rw [h.nmasters]
      by_cases hgo : t'.nmasters < nquorum ∧ bound ≠ 0
      · rw [if_pos hgo, if_pos hgo]
        have hround := @SameCount.round nodes key bound t.focus t'.focus t.error t'.error
        dsimp only
        rw [hround.nmasters, hround.quorumTid]
        split
        · exact hround
        · exact hround.loop
      · rw [if_neg hgo, if_neg hgo]
        exact h

/-! ## What is chosen -/

/-- What a round has chosen: a chain, unless one that was counted has an error. -/
def Chosen (key : Nat) (seen : List Node) (t : Tally) : Prop :=
  0 < t.nmasters → t.focus = none →
    ∃ n ∈ seen, ∃ c, n.item.chain = some c ∧ (key = keyMax ∨ c.key = key) ∧ c.modifyTid = t.quorumTid ∧
      c.error ≠ 0

theorem Chosen.node {seen : List Node} {n : Node} (h : Chosen key seen t) :
    Chosen key (seen ++ [n]) (tallyNode key false bound t n) := by
  have hkeep : Chosen key (seen ++ [n]) t := fun hpos hnone => by
    obtain ⟨m, hm, hrest⟩ := h hpos hnone
    exact ⟨m, List.mem_append_left _ hm, hrest⟩
  unfold tallyNode
  cases hm : n.type.isMaster with
  | false => simpa only [Bool.false_eq_true, if_false] using hkeep
  | true =>
      rw [if_pos rfl]
      cases hc : n.item.chain with
      | none =>
          dsimp only
          split
          · exact hkeep
          · rw [if_neg Bool.false_ne_true]
            exact hkeep
      | some c =>
          dsimp only
          split
          · next hkey =>
            -- the chain is chosen, or has an error
            have hnew : ∀ u : Tally, u.quorumTid = c.modifyTid →
                Chosen key (seen ++ [n]) { u with
                  nmasters := u.nmasters + 1
                  focus := if c.error = 0 then some c else u.focus } := by
              intro u hu _ hnone
              refine ⟨n, List.mem_append_right _ (List.mem_singleton.mpr rfl), c, hc, hkey.2, hu.symm, fun hz => ?_⟩
              dsimp only at hnone
              rw [if_pos hz] at hnone
              cases hnone
            split
            · rw [if_pos rfl]
              exact hnew _ rfl
            · split
              · next hsame => exact hnew _ hsame
              · exact hkeep
          · exact hkeep

theorem Chosen.round {focus : Option Chain} {error : Nat} :
    Chosen key nodes (tallyRound nodes key false bound focus error) := by
  have hfold : ∀ (l seen : List Node) {t : Tally}, Chosen key seen t →
      Chosen key (seen ++ l) (l.foldl (tallyNode key false bound) t) := by
    intro l
    induction l with
    | nil =>
        intro seen t h
        rw [List.append_nil]
        exact h
    | cons n l ih =>
        intro seen t h
        rw [List.append_cons]
        exact ih _ h.node
  exact hfold nodes [] fun hpos => absurd hpos (Nat.lt_irrefl 0)

theorem Chosen.loop : ∀ {fuel bound : Nat} {t : Tally}, t.nmasters < nquorum →
    nquorum ≤ (quorumLoop nodes key false nquorum fuel bound t).nmasters →
    Chosen key nodes (quorumLoop nodes key false nquorum fuel bound t)
  | 0, _, _, hlt, h => absurd h (Nat.not_le.mpr hlt)
  | fuel + 1, bound, t, hlt, h => by
      unfold quorumLoop at h ⊢
      split
      · next hgo =>
        rw [if_pos hgo] at h
        dsimp only at h ⊢
        split
        · exact Chosen.round
        · next hless =>
          rw [if_neg hless] at h
          exact Chosen.loop (Nat.not_le.mp hless) h
      · next hgo =>
        rw [if_neg hgo] at h
        exact absurd h (Nat.not_le.mpr hlt)

/-! ## Pass 3 -/

theorem pass3Node_eq (e : Nat) (n : Node) :
    pass3Node key tid e n = if n.matched key tid = true ∧ e = 0 then n.item.error else e := by
  unfold pass3Node Node.matched
  cases n.item.chain with
  | none => simp only [Bool.false_eq_true, false_and, if_false]
  | some c => simp only [decide_eq_true_eq, and_assoc]

/-- Pass 3 finds the first error of a node it looks at. -/
theorem pass3_cases : (pass3 nodes key tid = 0 ∧ ∀ n ∈ nodes, n.matched key tid = true → n.item.error = 0) ∨
    pass3 nodes key tid ≠ 0 ∧ ∃ n ∈ nodes, n.matched key tid = true ∧ n.item.error = pass3 nodes key tid := by
  have hfold : ∀ (l : List Node) (e : Nat),
      (l.foldl (pass3Node key tid) e = 0 ∧ e = 0 ∧ ∀ n ∈ l, n.matched key tid = true → n.item.error = 0) ∨
      l.foldl (pass3Node key tid) e ≠ 0 ∧ (e = l.foldl (pass3Node key tid) e ∨
        ∃ n ∈ l, n.matched key tid = true ∧ n.item.error = l.foldl (pass3Node key tid) e) := by
    intro l
    induction l with
    | nil =>
        intro e
        rcases Nat.eq_zero_or_pos e with rfl | hpos
        · exact .inl ⟨rfl, rfl, nofun⟩
        · exact .inr ⟨Nat.pos_iff_ne_zero.mp hpos, .inl rfl⟩
    | cons n l ih =>
        intro e
        rw [List.foldl_cons, pass3Node_eq]
        split
        · next hlook =>
          rcases ih n.item.error with ⟨hz, herr, hall⟩ | ⟨hne, heq | ⟨m, hm, hrest⟩⟩
          · refine .inl ⟨hz, hlook.2, fun m hm hmatch => ?_⟩
            rcases List.mem_cons.mp hm with rfl | hm
            · exact herr
            · exact hall m hm hmatch
          · exact .inr ⟨hne, .inr ⟨n, List.mem_cons_self .., hlook.1, heq⟩⟩
          · exact .inr ⟨hne, .inr ⟨m, List.mem_cons_of_mem _ hm, hrest⟩⟩
        · next hlook =>
          rcases ih e with ⟨hz, herr, hall⟩ | ⟨hne, heq | ⟨m, hm, hrest⟩⟩
          · refine .inl ⟨hz, herr, fun m hm hmatch => ?_⟩
            rcases List.mem_cons.mp hm with rfl | hm
            · exact absurd ⟨hmatch, herr⟩ hlook
            · exact hall m hm hmatch
          · exact .inr ⟨hne, .inl heq⟩
          · exact .inr ⟨hne, .inr ⟨m, List.mem_cons_of_mem _ hm, hrest⟩⟩
  rcases hfold nodes 0 with ⟨hz, -, hall⟩ | ⟨hne, heq | hex⟩
  · exact .inl ⟨hz, hall⟩
  · exact absurd heq.symm hne
  · exact .inr ⟨hne, hex⟩

/-! ## The verdict -/

/-- **The verdict on a key**, whatever errors the nodes have.  Without a quorum it is that of the
counters.  With one it is an error exactly if a node that presents the chosen chain has one, or if
the chains of the quorum have. -/
theorem clusterCheck_faulty (pfsNmasters : Nat) {key : Nat} (hkey : key ≠ keyMax) (htids : TidsOk nodes) :
    (bestAgree nodes key < nquorumOf pfsNmasters ∧ (clusterCheck pfsNmasters nodes key false).1 =
        if nquorumOf pfsNmasters ≤ agree nodes key 0 + pendingCount nodes then errorEinprogress
        else if nodes.countP (Node.presents key) < nquorumOf pfsNmasters then errorEsrch else errorEdeadlk) ∨
      ∃ tid, nquorumOf pfsNmasters ≤ agree nodes key tid ∧
        (((clusterCheck pfsNmasters nodes key false).1 = 0 ∧ (clusterCheck pfsNmasters nodes key false).2 ≠ none ∧
            ∀ n ∈ nodes, n.matched key tid = true → n.item.error = 0) ∨
          ∃ n ∈ nodes, n.matched key tid = true ∧
            (((clusterCheck pfsNmasters nodes key false).1 = errorEio ∧
                ∃ c, n.item.chain = some c ∧ c.error ≠ 0) ∨
              (clusterCheck pfsNmasters nodes key false).1 = n.item.error ∧ n.item.error ≠ 0)) := by
  have hq := nquorumOf_pos pfsNmasters
  have hclean := scrub_clean htids
  have hun := untried_le (nodes.map Node.scrub) key tidMax
  rw [List.length_map] at hun
  obtain ⟨last, hround, hlow⟩ := @quorumLoop_spec (nodes.map Node.scrub) key _ hclean hq (nodes.length + 1) tidMax
    ⟨0, 0, 0, 0, none, 0⟩ (by decide) hq rfl (Nat.lt_succ_of_le hun)
    (fun tid h1 h2 => absurd h1 (Nat.not_le.mpr h2))
  have hsame := @SameCount.loop nodes key (nquorumOf pfsNmasters) (nodes.length + 1) tidMax
    ⟨0, 0, 0, 0, (pass1 nodes).1, (pass1 nodes).2⟩ ⟨0, 0, 0, 0, none, 0⟩ ⟨rfl, rfl, rfl, rfl⟩
  have hchosen := @Chosen.loop nodes key (nquorumOf pfsNmasters) (nodes.length + 1) tidMax
    ⟨0, 0, 0, 0, (pass1 nodes).1, (pass1 nodes).2⟩ hq
  unfold clusterCheck
  dsimp only
  generalize quorumLoop nodes key false (nquorumOf pfsNmasters) (nodes.length + 1) tidMax
    ⟨0, 0, 0, 0, (pass1 nodes).1, (pass1 nodes).2⟩ = t at hsame hchosen
  generalize quorumLoop (nodes.map Node.scrub) key false (nquorumOf pfsNmasters) (nodes.length + 1) tidMax
    ⟨0, 0, 0, 0, none, 0⟩ = t' at hround hlow hsame
  by_cases hreach : t.nmasters < nquorumOf pfsNmasters
  · left
    obtain ⟨hz, hall⟩ := hlow (hsame.nmasters ▸ hreach)
    have hbest : bestAgree nodes key < nquorumOf pfsNmasters := by
      rcases Nat.eq_zero_or_pos (bestAgree (nodes.map Node.scrub) key) with hb | hb
      · rw [scrub_bestAgree] at hb
        omega
      · obtain ⟨tid, htid, hag⟩ := best_attained hclean hb
        rw [← scrub_bestAgree, ← hag]
        exact hall tid htid
    refine ⟨hbest, ?_⟩
    rw [if_pos hreach, hsame.nmasters, hsame.umasters, hsame.keymatch, hround.nmasters, hz, hround.umasters,
      hround.keymatch, scrub_agree, scrub_pendingCount, scrub_keymatch]
    split
    · rfl
    · split <;> rfl
  · right
    have hge := Nat.not_lt.mp hreach
    have hagree : t.nmasters = agree nodes key t.quorumTid := by
      rw [hsame.nmasters, hsame.quorumTid, hround.nmasters, scrub_agree]
    refine ⟨t.quorumTid, hagree ▸ hge, ?_⟩
    rw [if_neg hreach, if_neg Bool.false_ne_true]
    cases hfocus : t.focus with
    | none =>
        obtain ⟨n, hn, c, hc, hat, htid, herr⟩ := hchosen hge (Nat.lt_of_lt_of_le hq hge) hfocus
        refine .inr ⟨n, hn, ?_, .inl ⟨rfl, c, hc, herr⟩⟩
        rw [Node.matched, hc]
        exact decide_eq_true ⟨hat.resolve_left hkey, htid⟩
    | some c =>
        dsimp only
        rcases @pass3_cases nodes key t.quorumTid with ⟨hz, hall⟩ | ⟨hne, n, hn, hmatch, herr⟩
        · exact .inl ⟨hz, nofun, hall⟩
        · exact .inr ⟨n, hn, hmatch, .inr ⟨herr.symm, herr ▸ hne⟩⟩

end Hammer2.Xop
