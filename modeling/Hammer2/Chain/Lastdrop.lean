/-
# `Hammer2.Chain.Lastdrop` — the end of a chain, and its place in the tree

    Inv.both         a step changes a chain and its parent
    lastdrop_inv     the section of `hammer2_chain_lastdrop`, branch by branch
    run_freeing      the chain is given up, and `run_gone` is freed
    Inv.attach       `hammer2_chain_insert`
    run_deleting     the section of `_hammer2_chain_delete_helper`
-/
import Hammer2.Chain.Drop

namespace Hammer2.Chain

section
variable {s s' : State} {t u c d p : Nat} {x y x' y' : Chain} {pc : Pc}

/-- A chain and its parent change: what is left is the thread. -/
theorem Inv.both (hi : Inv s) (hx : s.chains c = some x) (hy : s.chains p = some y) (hpc : p ≠ c)
    (hch : s'.chains = Function.update (Function.update s.chains c (some x')) p (some y'))
    (htree : Tree s'.chains s'.next) (hfault : s'.fault = s.fault)
    (hpcs : ∀ u, u ≠ t → s'.pc u = s.pc u) (hholds : s'.holds = s.holds)
    (hlocks : Others t s.locks s'.locks) (hxm : SameMutex x x') (hym : SameMutex y y')
    (hyp : y'.parent = y.parent) (hxo : ∀ u, u ≠ t → ¬ owner x u)
    (hqc : ∀ u, u ≠ t → (s.pc u).claims ≠ some c) (hqp : ∀ u, u ≠ t → (s.pc u).claims ≠ some p)
    (htok : ∀ d, d ≠ c → d ≠ p →
      s'.tokens.filter (fun q => q.2 = d) = s.tokens.filter fun q => q.2 = d)
    (hothers : ∀ u d, u ≠ t → s.tokens.count (u, d) ≤ s'.tokens.count (u, d))
    (hdying : ∀ d, d ≠ c → d ≠ p → ((s'.pc t).dying = some d ↔ (s.pc t).dying = some d))
    (hxr : x'.refs = Tokens.count s'.tokens c) (hyr : y'.refs = Tokens.count s'.tokens p)
    (hxk : x'.refs = 0 → Kept s' c x') (hyk : y'.refs = 0 → Kept s' p y')
    (hthread : ThreadOk s' t) : Inv s' := by
  have hatp : s'.chains p = some y' := by rw [hch, Function.update_self]
  have hatc : s'.chains c = some x' := by
    rw [hch, Function.update_of_ne hpc.symm, Function.update_self]
  have hframe : Frame s s' t fun d => d = c ∨ d = p :=
    { chains := by
        intro d hd
        obtain ⟨hc, hp⟩ := not_or.mp hd
        rw [hch, Function.update_of_ne hp, Function.update_of_ne hc]
      tokens := fun d hd => htok d (not_or.mp hd).1 (not_or.mp hd).2
      holds := fun d _ => by rw [hholds]
      dying := fun d hd => hdying d (not_or.mp hd).1 (not_or.mp hd).2
      pc := hpcs
      otherTokens := hothers
      otherLocks := hlocks
      otherHolds := by
        rw [hholds]
        exact .refl t _
      unclaimed := by
        rintro d (rfl | rfl)
        · exact hqc
        · exact hqp
      owners := by
        rintro d z u (rfl | rfl) hu hz ho
        · obtain rfl : x = z := by simpa [hx] using hz
          exact absurd ho (hxo u hu)
        · obtain rfl : y = z := by simpa [hy] using hz
          exact ⟨y', hatp, hym.owner ho, hyp⟩ }
  have once : ∀ {e}, (∀ u, u ≠ t → (s.pc u).claims ≠ some e) →
      ∀ {u v}, (s'.pc u).dying = some e → (s'.pc v).dying = some e → u = v := by
    intro e hq u v hu hv
    have only : ∀ {w}, (s'.pc w).dying = some e → w = t := by
      intro w hw
      by_contra hne
      rw [hpcs w hne] at hw
      exact hq w hne (Pc.claims_of_dying hw)
    exact (only hu).trans (only hv).symm
  have chainOk : ∀ {e z z'}, s.chains e = some z → s'.chains e = some z' → SameMutex z z' →
      (∀ u, u ≠ t → (s.pc u).claims ≠ some e) → z'.refs = Tokens.count s'.tokens e →
      (z'.refs = 0 → Kept s' e z') → ChainOk s' e := by
    intro e z z' hz hz' hm hq hr hk
    refine ⟨?_, ?_, fun _ => ⟨z', hz'⟩, ?_, once hq⟩
    · intro w hw
      obtain rfl : z' = w := by simpa [hz'] using hw
      exact hr
    · intro w hw
      obtain rfl : z' = w := by simpa [hz'] using hw
      rw [hholds]
      exact ((hi.chain e).mutex hz).congr hm.writer hm.readers rfl
    · intro w hw
      obtain rfl : z' = w := by simpa [hz'] using hw
      exact hk
  refine hi.of_frame hframe htree ?_ hthread (hfault.trans hi.fault)
  rintro d (rfl | rfl)
  · exact chainOk hx hatc hxm hqc hxr hxk
  · exact chainOk hy hatp hym hqp hyr hyk

/-! ## `hammer2_chain_lastdrop` -/

theorem spin_balanced {ops : List SpinOp} (h : balanced ops [] = true) : s.spin ops = s := by
  unfold State.spin
  rw [h]
  simp

/-- The place of `hammer2_chain_lastdrop`. -/
theorem Inv.dropper (hi : Inv s) (hp : s.pc t = .lastdrop c) (hx : s.chains c = some x) :
    (t, c) ∈ s.tokens ∧ owner x t := by
  have hf := (hi.thread t).frame
  rw [hp] at hf
  obtain ⟨z, hz, ho⟩ := hf
  obtain rfl : x = z := by simpa [hx] using hz
  exact ⟨hi.token_of_drops (by rw [hp]; rfl), ho⟩

/-- The drop is tried again, or a flush is. -/
theorem Inv.again (hi : Inv s) (hp : s.pc t = .lastdrop c) (hx : s.chains c = some x)
    (htree : SameTree x x') (hmutex : SameMutex x x') (hrefs : x'.refs = x.refs)
    (hpc : pc = .dropUnlock c true ∨ pc = .flushing c) : Inv ((s.set c x').goto t pc) := by
  obtain ⟨ht, ho⟩ := hi.dropper hp hx
  have hn := (hi.thread t).needs c
  rw [hp] at hn
  have hframe : ∃ z, ((s.set c x').goto t pc).chains c = some z ∧ owner z t :=
    ⟨x', Function.update_self .., hmutex.owner ho⟩
  rcases hpc with rfl | rfl
  · refine hi.modify hx ht htree hmutex hrefs ?_ hn ?_ hframe
    · rw [hp]
      exact (About.chain rfl).follows (.chain rfl)
    · rw [hp]
      rfl
  · refine hi.modify hx ht htree hmutex hrefs ?_ hn ?_ hframe
    · rw [hp]
      exact (About.chain rfl).follows (.chain rfl)
    · rw [hp]
      rfl

/-- The chain stays without references, or the drop is tried again. -/
theorem Inv.stay (hi : Inv s) (hp : s.pc t = .lastdrop c) (hx : s.chains c = some x)
    (htree : SameTree x x') (hmutex : SameMutex x x') (hrefs : x'.refs = x.refs)
    (hk : x'.children ≠ [] ∨ x'.parent.isSome ∧ (x'.update ∨ x'.modified) ∨ x'.static = true) :
    Inv (stay s t c x') := by
  obtain ⟨ht, ho⟩ := hi.dropper hp hx
  unfold Chain.stay
  split
  · next h1 =>
    refine hi.unref hx (by rw [hp]; rfl) ?_ ?_ ?_ ?_ ?_ nofun nofun (by rw [hp]; rfl) ?_
    · exact htree.trans ⟨rfl, rfl, rfl, rfl, rfl⟩
    · exact ⟨hmutex.writer, hmutex.readers⟩
    · rw [← hrefs, h1]
    · intro _
      exact hk.imp_right (Or.imp_right .inl)
    · rw [hp]
      exact (About.chain rfl).follows (.chain rfl)
    · exact ⟨_, Function.update_self .., hmutex.owner ho⟩
  · exact hi.again hp hx htree hmutex hrefs (.inl rfl)

theorem follows_freeing {r : Option Nat} (hr : ∀ d, d ≠ c → r ≠ some d) :
    Follows c (.lastdrop c) (.freeing c r) where
  drops d hd h := absurd h (hr d hd)
  uses _ _ h := by cases h
  owns d _ := Iff.rfl
  dying d hd := ⟨fun h => absurd (Option.some.inj h).symm hd, nofun⟩

theorem Tree.no_children (ht : Tree s.chains s.next) (hx : s.chains c = some x)
    (h : x.chainCount = 0) : x.children = [] :=
  List.eq_nil_of_length_eq_zero ((ht.count hx).symm.trans h)

/-- The end of a chain that has no parent. -/
theorem Inv.scrap (hi : Inv s) (hp : s.pc t = .lastdrop c) (hx : s.chains c = some x)
    (hpar : x.parent = none) (hst : x.static = false) (hcount : x.chainCount = 0)
    (hrefs : x.refs = 1) :
    Inv (((s.set c { x.orphan with refs := 0 }).unref t c).goto t (.freeing c none)) := by
  obtain ⟨ht, ho⟩ := hi.dropper hp hx
  have hor : x.orphan = { x with destroy := true, update := false, modified := false } := by
    unfold Chain.orphan
    rw [hst, hcount]
    rfl
  rw [hor]
  have hch : x.children = [] := hi.tree.no_children hx hcount
  refine hi.unref hx (by rw [hp]; rfl) ⟨rfl, rfl, rfl, rfl, rfl⟩ ⟨rfl, rfl⟩ (by rw [hrefs]) ?_ ?_
    nofun nofun (by rw [hp]; rfl) ?_
  · intro _
    refine .inr (.inr (.inr ⟨t, ?_⟩))
    show (Function.update s.pc t _ t).dying = some c
    rw [Function.update_self]
    rfl
  · rw [hp]
    exact follows_freeing nofun
  · exact ⟨_, Function.update_self .., ho, rfl, hpar, hch, hst, rfl, rfl⟩

/-- A chain leaves its parent, which is dropped next when nothing is left below it. -/
theorem Inv.leave {r : Option Nat} {tokens : List (Nat × Nat)} (hi : Inv s)
    (hp : s.pc t = .lastdrop c) (hx : s.chains c = some x) (hy : s.chains p = some y)
    (hpar : x.parent = some p) (hupd : x.update = false) (hmod : x.modified = false)
    (hcount : x.chainCount = 0) (hrefs : x.refs = 1)
    (hr : r = none ∧ tokens = s.tokens.erase (t, c) ∧ y'.refs = y.refs ∧ y'.chainCount ≠ 0 ∨
      r = some p ∧ tokens = (t, p) :: s.tokens.erase (t, c) ∧ y'.refs = y.refs + 1)
    (hx' : x' = { x with refs := 0, onRbtree := false, parent := none })
    (hy' : y' = { y with
      refs := y'.refs, children := y.children.erase c, chainCount := y.chainCount - 1 })
    (hch : s'.chains = Function.update (Function.update s.chains c (some x')) p (some y'))
    (hs' : s' = { s with
      chains := s'.chains, tokens := tokens, pc := Function.update s.pc t (.freeing c r) }) :
    Inv s' := by
  obtain ⟨ht, ho⟩ := hi.dropper hp hx
  have hne : p ≠ c := fun h => hi.tree.irrefl hx (h ▸ hpar)
  have hst : x.static = false := by
    by_contra h
    rw [hi.tree.root hx (by simpa using h)] at hpar
    cases hpar
  have hchild : c ∈ y.children := by
    obtain ⟨z, hz, hm⟩ := hi.tree.up hx hpar
    obtain rfl : y = z := by simpa [hy] using hz
    exact hm
  have hpc' : s'.pc t = .freeing c r := by
    rw [hs']
    exact Function.update_self ..
  have htoks : s'.tokens = tokens := by rw [hs']
  have hlocks : s'.locks = s.locks := by rw [hs']
  have hholds : s'.holds = s.holds := by rw [hs']
  have hcc : Tokens.count tokens c = 0 := by
    have he := Tokens.count_erase_self ht
    rw [← (hi.chain c).refs hx, hrefs] at he
    obtain ⟨-, rfl, -⟩ | ⟨-, rfl, -⟩ := hr
    · omega
    · rw [Tokens.count_cons_of_ne hne.symm]
      omega
  have htree : Tree s'.chains s'.next := by
    have hnext : s'.next = s.next := by rw [hs']
    rw [hch, hnext]
    refine hi.tree.cut hx hy hpar ?_ ?_ ?_ ?_ ?_ ?_ ?_ ?_ ?_
    all_goals first | (rw [hx']; done) | (rw [hy']; done)
  have hatp : s'.chains p = some y' := by rw [hch, Function.update_self]
  have hatc : s'.chains c = some x' := by
    rw [hch, Function.update_of_ne hne.symm, Function.update_self]
  have hn := (hi.thread t).needs
  rw [hp] at hn
  refine hi.both hx hy hne hch htree (by rw [hs']) ?_ hholds ?_ ?_ ?_ ?_ ?_
    (hi.unclaimed_of_token ht) (fun u _ => hi.unclaimed_of_child hy hchild u) ?_ ?_ ?_ ?_ ?_ ?_ ?_
    ?_
  · intro u hu
    rw [hs']
    exact Function.update_of_ne hu ..
  · rw [hlocks]
    exact .refl t _
  · rw [hx']
    exact ⟨rfl, rfl⟩
  · rw [hy']
    exact ⟨rfl, rfl⟩
  · rw [hy']
  · intro u hu ho'
    exact hu (Option.some.inj (ho'.symm.trans ho))
  · intro d hc hp
    rw [htoks]
    have herase := (SameBut.erase : SameBut c s.tokens (s.tokens.erase (t, c))) d hc
    obtain ⟨-, rfl, -⟩ | ⟨-, rfl, -⟩ := hr
    · exact herase
    · exact (SameBut.cons d hp).trans herase
  · intro u d hu
    rw [htoks]
    have herase := (Others.erase : Others t s.tokens (s.tokens.erase (t, c))) u d hu
    obtain ⟨-, rfl, -⟩ | ⟨-, rfl, -⟩ := hr
    · exact herase.ge
    · exact herase.ge.trans List.count_le_count_cons
  · intro d hc _
    rw [hpc', hp]
    exact ⟨fun h => absurd (Option.some.inj h).symm hc, nofun⟩
  · rw [htoks, hcc, hx']
  · have hne' : Tokens.count (s.tokens.erase (t, c)) p = Tokens.count s.tokens p :=
      Tokens.count_erase_of_ne hne
    have hyr := (hi.chain p).refs hy
    rw [htoks]
    obtain ⟨-, rfl, he, -⟩ | ⟨-, rfl, he⟩ := hr
    · rw [he, hne', hyr]
    · rw [he, Tokens.count_cons_self, hne', hyr]
  · intro _
    exact .inr (.inr (.inr ⟨t, by rw [hpc']; rfl⟩))
  · intro h0
    obtain ⟨-, -, -, hn0⟩ | ⟨-, -, he⟩ := hr
    · refine .inl fun hnil => hn0 ?_
      rw [htree.count hatp, hnil]
      rfl
    · rw [he] at h0
      exact absurd h0 (Nat.succ_ne_zero _)
  · refine ⟨?_, ?_, ?_⟩
    · intro d
      have hold := hn d
      rw [hpc', hlocks, htoks]
      have huse : ∀ n, (if (t, d) ∈ s.locks ∨ (Pc.freeing c r).uses = some d then 1 else 0) ≤ n ↔
          (if (t, d) ∈ s.locks ∨ (Pc.lastdrop c).uses = some d then 1 else 0) ≤ n := fun _ => Iff.rfl
      unfold demand at hold ⊢
      by_cases hd : d = c
      · -- the reference that is dropped is not one that a lock relies on
        subst hd
        rw [if_pos (show (Pc.lastdrop d).drops = some d from rfl)] at hold
        have hno : ¬ (Pc.freeing d r).drops = some d := by
          obtain ⟨rfl, -⟩ | ⟨rfl, -⟩ := hr
          · nofun
          · exact fun h => hne (Option.some.inj h)
        have hle : (s.tokens.erase (t, d)).count (t, d) ≤ tokens.count (t, d) := by
          obtain ⟨-, rfl, -⟩ | ⟨-, rfl, -⟩ := hr
          · exact le_rfl
          · exact List.count_le_count_cons
        rw [if_neg hno, Nat.zero_add, huse]
        rw [List.count_erase_self] at hle
        omega
      · have hkeep : (s.tokens.erase (t, c)).count (t, d) = s.tokens.count (t, d) :=
          List.count_erase_of_ne fun h => hd (congrArg Prod.snd h)
        have hno : ¬ (Pc.lastdrop c).drops = some d := fun h => hd (Option.some.inj h).symm
        rw [if_neg hno, Nat.zero_add, ← huse, ← hkeep] at hold
        obtain ⟨rfl, rfl, -⟩ | ⟨rfl, rfl, -⟩ := hr
        · rw [if_neg nofun, Nat.zero_add]
          exact hold
        · rw [List.count_cons, Nat.add_comm]
          refine Nat.add_le_add hold ?_
          split
          · next h =>
            obtain rfl : p = d := Option.some.inj h
            simp
          · exact Nat.zero_le _
    · intro d
      rw [hholds, hpc', hlocks, (hi.thread t).holds d, hp]
      rfl
    · rw [hpc']
      have hnil : x.children = [] := hi.tree.no_children hx hcount
      refine ⟨x', hatc, ?_⟩
      rw [hx']
      exact ⟨ho, rfl, rfl, hnil, hst, hupd, hmod⟩

theorem orphan_spec (x : Chain) : SameTree x x.orphan ∧ SameMutex x x.orphan ∧
    x.orphan.refs = x.refs := by
  unfold Chain.orphan
  split
  · exact ⟨⟨rfl, rfl, rfl, rfl, rfl⟩, ⟨rfl, rfl⟩, rfl⟩
  · exact ⟨⟨rfl, rfl, rfl, rfl, rfl⟩, ⟨rfl, rfl⟩, rfl⟩

theorem balanced_one (c : Nat) : balanced [.ex (some c), .unex (some c)] [] = true := by
  simp [balanced]

theorem balanced_two (c p : Nat) :
    balanced [.ex (some c), .ex (some p), .unex (some p), .unex (some c)] [] = true := by
  simp [balanced]

theorem Inv.detach (hi : Inv s) (hp : s.pc t = .lastdrop c) (hx : s.chains c = some x)
    (hy : s.chains p = some y) (hpar : x.parent = some p) (hclean : ¬ (x.update ∨ x.modified))
    (hcount : x.chainCount = 0) (hrefs : x.refs = 1) : Inv (detach s t c p x y) := by
  obtain ⟨hupd, hmod⟩ := not_or.mp hclean
  have hrb : x.onRbtree = true := by
    rw [hi.tree.onrb hx, hpar]
    rfl
  have hupd : x.update = false := by simpa using hupd
  have hmod : x.modified = false := by simpa using hmod
  unfold Chain.detach
  simp only [hrb, if_true]
  split
  · refine hi.leave (r := some p) hp hx hy hpar hupd hmod hcount hrefs ?_ rfl rfl rfl rfl
    exact .inr ⟨rfl, rfl, rfl⟩
  · next h0 =>
    refine hi.leave (r := none) hp hx hy hpar hupd hmod hcount hrefs ?_ rfl rfl rfl rfl
    exact .inl ⟨rfl, rfl, rfl, h0⟩

theorem lastdrop_inv (hi : Inv s) (hp : s.pc t = .lastdrop c)
    (hok : ∀ x, s.chains c = some x → x.parent = none → x.chainCount = 0 → x.refs = 1)
    (h : lastdrop s t c = some s') : Inv s' := by
  unfold lastdrop at h
  obtain ⟨x, hx, h⟩ := Option.bind_eq_some_iff.mp h
  obtain ⟨horTree, horMutex, horRefs⟩ := orphan_spec x
  split at h
  · next p hpar =>
    -- with a parent
    split at h
    · next hdirty =>
      cases h
      rw [spin_balanced (balanced_one c)]
      refine hi.stay hp hx (.refl x) ⟨rfl, rfl⟩ rfl (.inr (.inl ⟨?_, hdirty⟩))
      rw [hpar]
      rfl
    · next hclean =>
      split at h
      · next hcount =>
        cases h
        rw [spin_balanced (balanced_one c)]
        refine hi.stay hp hx (.refl x) ⟨rfl, rfl⟩ rfl (.inl fun hnil => hcount ?_)
        rw [hi.tree.count hx, hnil]
        rfl
      · next hcount =>
        split at h
        · cases h
          rw [spin_balanced (balanced_two c p)]
          have hself : s.set c x = s := by
            unfold State.set
            rw [← hx, Function.update_eq_self]
          rw [← hself]
          exact hi.again hp hx (.refl x) ⟨rfl, rfl⟩ rfl (.inl rfl)
        · next hrefs =>
          obtain ⟨y, hy, h⟩ := Option.bind_eq_some_iff.mp h
          cases h
          rw [spin_balanced (balanced_two c p)]
          exact hi.detach hp hx hy hpar hclean (not_not.mp hcount) (not_not.mp hrefs)
  · next hpar =>
    -- without one
    simp only at h
    split at h
    · next hcount =>
      split at h
      · next hst =>
        cases h
        rw [spin_balanced (balanced_one c)]
        exact hi.stay hp hx horTree horMutex horRefs (.inr (.inr hst))
      · cases h
        rw [spin_balanced (balanced_one c)]
        exact hi.again hp hx horTree horMutex horRefs (.inr rfl)
    · next hcount =>
      have hzero : x.chainCount = 0 := horTree.chainCount.symm.trans (not_not.mp hcount)
      have hone : x.refs = 1 := hok x hx hpar hzero
      rw [if_neg (not_not.mpr (horRefs.trans hone))] at h
      split at h
      · next hst =>
        split at h
        · cases h
        · cases h
          rw [spin_balanced (balanced_one c)]
          exact hi.stay hp hx horTree horMutex horRefs (.inr (.inr hst))
      · next hst =>
        cases h
        rw [spin_balanced (balanced_one c)]
        have hst : x.static = false := by
          rw [horTree.static] at hst
          simpa using hst
        exact hi.scrap hp hx hpar hst hzero hone

/-! ## The chain is freed -/

theorem run_freeing {r : Option Nat} (hi : Inv s) (hp : s.pc t = .freeing c r)
    (h : run s t = some s') : Inv s' := by
  simp only [run, hp] at h
  obtain ⟨x, hx, h⟩ := Option.bind_eq_some_iff.mp h
  obtain ⟨y, he, h⟩ := Option.bind_eq_some_iff.mp h
  cases h
  have hhold : (t, c) ∈ s.holds := hi.hold_of_owns (by rw [hp]; rfl)
  have hf := (hi.thread t).frame
  rw [hp] at hf
  obtain ⟨z, hz, ho, hdead⟩ := hf
  obtain rfl : x = z := by simpa [hx] using hz
  obtain ⟨-, hdata, -⟩ := ((hi.chain c).mutex hx).exit hhold he
  have hnolock : (t, c) ∉ s.locks := fun hl =>
    absurd hdead.refs (hi.refs_pos hx (hi.token_of_lock hl)).ne'
  refine hi.release hx hhold he ?_ ?_ ?_ ?_ ?_
  · rw [hp]
    exact ⟨fun _ _ => id, fun _ _ => id, fun d hd =>
      ⟨by rintro ⟨⟩, fun h => absurd (Option.some.inj h).symm hd⟩, fun _ _ => Iff.rfl⟩
  · intro _
    rfl
  · rw [hp]
    exact le_rfl
  · rw [hp]
    simp [held, Pc.owns]
  · refine ⟨y, Function.update_self .., ?_, ?_⟩
    · rw [show y = { x with writer := y.writer, readers := y.readers } from hdata]
      exact ⟨hdead.refs, hdead.parent, hdead.children, hdead.static, hdead.update, hdead.modified⟩
    · intro u hu
      have hu : (u, c) ∈ s.holds.erase (t, c) := hu
      obtain rfl : u = t := hi.hold_unique hx ho (List.mem_of_mem_erase hu)
      have hone := (hi.thread u).holds c
      rw [hp, held, List.count_eq_zero.mpr hnolock] at hone
      have hpos := List.count_pos_iff.mpr hu
      rw [List.count_erase_self, hone] at hpos
      simp [Pc.owns] at hpos

theorem run_gone {r : Option Nat} (hi : Inv s) (hp : s.pc t = .gone c r)
    (h : run s t = some s') : Inv s' := by
  simp only [run, hp] at h
  obtain ⟨q, ⟨hdrops, huses, howns, hdying, hframe⟩, hs'⟩ : ∃ q : Pc,
      (q.drops = r ∧ q.uses = none ∧ q.owns = none ∧ q.dying = none ∧ FrameOk s' t q) ∧
      State.goto { s with chains := Function.update s.chains c none } t q = s' := by
    cases r with
    | none => exact ⟨.idle, ⟨rfl, rfl, rfl, rfl, trivial⟩, Option.some.inj h⟩
    | some p => exact ⟨.drop p, ⟨rfl, rfl, rfl, rfl, trivial⟩, Option.some.inj h⟩
  have hf := (hi.thread t).frame
  rw [hp] at hf
  obtain ⟨x, hx, hdead, hno⟩ := hf
  have htok : ∀ u, (u, c) ∉ s.tokens := fun u hu =>
    absurd hdead.refs (hi.refs_pos hx hu).ne'
  have hdy : (s.pc t).dying = some c := by rw [hp]; rfl
  have hq : ∀ u, u ≠ t → (s.pc u).claims ≠ some c := by
    intro u hu hc
    generalize hpu : s.pc u = pc at hc
    cases pc with
    | freeing d r => exact hu ((hi.chain c).once (by rw [hpu]; exact hc) hdy)
    | gone d r => exact hu ((hi.chain c).once (by rw [hpu]; exact hc) hdy)
    | getInsert p g d =>
        obtain rfl : d = c := Option.some.inj hc
        exact htok u (hi.token_of_uses (by rw [hpu]; rfl))
    | _ => cases hc
  have hchains : s'.chains = Function.update s.chains c none := by rw [← hs']; rfl
  have hlists : s'.tokens = s.tokens ∧ s'.locks = s.locks ∧ s'.holds = s.holds := by
    rw [← hs']
    exact ⟨rfl, rfl, rfl⟩
  obtain ⟨htokens, hlocks, hholds⟩ := hlists
  have hpcs : ∀ u, u ≠ t → s'.pc u = s.pc u := by
    intro u hu
    rw [← hs']
    exact Function.update_of_ne hu ..
  have hpt : s'.pc t = q := by
    rw [← hs']
    exact Function.update_self ..
  have hF : Frame s s' t (· = c) :=
    { chains := fun d hd => by rw [hchains, Function.update_of_ne hd]
      tokens := fun _ _ => by rw [htokens]
      holds := fun _ _ => by rw [hholds]
      dying := by
        intro d hd
        rw [hpt, hdying, hdy]
        exact ⟨by rintro ⟨⟩, fun h => absurd (Option.some.inj h).symm hd⟩
      pc := hpcs
      otherTokens := fun _ _ _ => by rw [htokens]
      otherLocks := by
        rw [hlocks]
        exact .refl t _
      otherHolds := by
        rw [hholds]
        exact .refl t _
      unclaimed := by
        rintro d rfl
        exact hq
      owners := by
        rintro d z u rfl - hz ho
        obtain rfl : x = z := by simpa [hx] using hz
        obtain ⟨⟨v, n⟩, hw, -⟩ := Option.map_eq_some_iff.mp ho
        obtain ⟨-, hpos, hn, -⟩ := ((hi.chain d).mutex hx).taken hw
        rw [Tokens.count_eq_zero.mpr hno] at hn
        exact absurd hn hpos.ne' }
  refine hi.of_frame hF ?_ ?_ ⟨?_, ?_, hpt ▸ hframe⟩ (by rw [← hs']; exact hi.fault)
  · rw [hchains, ← hs']
    exact hi.tree.free hx hdead.parent hdead.children
  · rintro d rfl
    have hnone : s'.chains d = none := by rw [hchains, Function.update_self]
    refine ⟨?_, ?_, ?_, ?_, ?_⟩
    · intro z hz
      rw [hnone] at hz
      cases hz
    · intro z hz
      rw [hnone] at hz
      cases hz
    · rw [htokens, hholds]
      rintro u (hu | hu)
      · exact absurd hu (htok u)
      · exact absurd hu (hno u)
    · intro z hz
      rw [hnone] at hz
      cases hz
    · have alone : ∀ {u}, (s'.pc u).dying ≠ some d := by
        intro u hu
        by_cases hut : u = t
        · subst hut
          rw [hpt, hdying] at hu
          cases hu
        · rw [hpcs u hut] at hu
          exact hq u hut (Pc.claims_of_dying hu)
      intro u v hu
      exact absurd hu alone
  · intro d
    rw [htokens, hlocks, hpt]
    refine (demand_le ?_ ?_).trans ((hi.thread t).needs d)
    · rw [hdrops, hp]
      exact id
    · rw [huses, hp]
      exact id
  · intro d
    rw [hholds, hlocks, (hi.thread t).holds d]
    unfold held
    rw [hpt, howns, hp]
    rfl

/-! ## The place in the tree -/

/-- `hammer2_chain_insert`, by a thread that has both chains. -/
theorem Inv.attach {locks : List (Nat × Nat)} (hi : Inv s) (hx : s.chains c = some x)
    (hy : s.chains p = some y) (hpc : p ≠ c) (hlp : (t, p) ∈ s.locks) (htc : (t, c) ∈ s.tokens)
    (hhc : (t, c) ∈ s.holds) (hpar : x.parent = none) (hst : x.static = false)
    (hlocks : ∀ d, d ≠ c → locks.count (t, d) = s.locks.count (t, d))
    (hothers : Others t s.locks locks) (hf : Follows c (s.pc t) .idle)
    (hh : held .idle locks t c = held (s.pc t) s.locks t c) (hdy : (s.pc t).dying = none) :
    Inv ({ insert s p c x y with locks := locks }.goto t .idle) := by
  have htp : (t, p) ∈ s.tokens := hi.token_of_lock hlp
  have hpt : ({ insert s p c x y with locks := locks }.goto t .idle).pc t = .idle :=
    Function.update_self ..
  have hxr : x.refs = Tokens.count s.tokens c := (hi.chain c).refs hx
  have hyr : y.refs = Tokens.count s.tokens p := (hi.chain p).refs hy
  refine hi.both hx hy hpc rfl ?_ rfl ?_ rfl hothers ⟨rfl, rfl⟩ ⟨rfl, rfl⟩ rfl ?_
    (hi.unclaimed_of_token htc) (hi.unclaimed_of_token htp) (fun _ _ _ => rfl)
    (fun _ _ _ => le_rfl) ?_ hxr hyr ?_ ?_ ?_
  · exact hi.tree.attach hx hy hpc hpar hst rfl rfl rfl rfl rfl rfl rfl rfl rfl rfl
  · intro u hu
    exact Function.update_of_ne hu ..
  · intro u hu ho
    exact hu (hi.hold_unique hx ho hhc).symm
  · intro d _ _
    rw [hpt, hdy]
    exact ⟨nofun, nofun⟩
  · intro h0
    exact absurd h0 (hi.refs_pos hx htc).ne'
  · intro h0
    exact absurd h0 (hi.refs_pos hy htp).ne'
  · refine (hi.thread t).of_follows (c := c) ?_ (fun _ _ => rfl) hlocks (fun _ _ => rfl) ?_ ?_ ?_
    · rw [hpt]
      exact hf
    · rw [hpt]
      show demand .idle locks t c ≤ s.tokens.count (t, c)
      have hpos := List.count_pos_iff.mpr htc
      unfold demand
      rw [if_neg nofun, Nat.zero_add]
      split
      · exact hpos
      · exact Nat.zero_le _
    · rw [hpt]
      exact ((hi.thread t).holds c).trans hh.symm
    · rw [hpt]
      trivial

theorem run_getInsert {g : Nat} (hi : Inv s) (hp : s.pc t = .getInsert p g c)
    (h : run s t = some s') : Inv s' := by
  simp only [run, hp] at h
  obtain ⟨x, hx, h⟩ := Option.bind_eq_some_iff.mp h
  obtain ⟨y, hy, h⟩ := Option.bind_eq_some_iff.mp h
  have htc : (t, c) ∈ s.tokens := hi.token_of_uses (by rw [hp]; rfl)
  have hhc : (t, c) ∈ s.holds := hi.hold_of_owns (by rw [hp]; rfl)
  have hf := (hi.thread t).frame
  rw [hp] at hf
  obtain ⟨hpc, hlp, hlc, -, z, hz, hpriv⟩ := hf
  obtain rfl : x = z := by simpa [hx] using hz
  split at h
  · -- the insertion has raced: the chain is unlocked and dropped
    cases h
    have hself : s.set c x = s := by
      unfold State.set
      rw [← hx, Function.update_eq_self]
    rw [← hself]
    refine hi.modify hx htc (.refl x) ⟨rfl, rfl⟩ rfl ?_ ?_ ?_ trivial
    · rw [hp]
      exact (About.chain rfl).follows (.chain rfl)
    · have hpos := List.count_pos_iff.mpr htc
      unfold demand
      rw [if_pos (show (Pc.unlock c true).drops = some c from rfl), if_neg]
      · exact hpos
      · rintro (h | h)
        · exact hlc h
        · cases h
    · rw [hp]
      rfl
  · cases h
    refine hi.attach hx hy hpc hlp htc hhc hpriv.parent hpriv.static ?_ .cons ?_ ?_ ?_
    · intro d hd
      exact List.count_cons_of_ne fun h => hd (congrArg Prod.snd h).symm
    · rw [hp]
      exact (About.chain rfl).follows .idle
    · rw [hp]
      simp [held, Pc.owns]
    · rw [hp]
      rfl

theorem run_deleting (hi : Inv s) (hp : s.pc t = .deleting p c) (h : run s t = some s') :
    Inv s' := by
  simp only [run, hp] at h
  obtain ⟨x, hx, h⟩ := Option.bind_eq_some_iff.mp h
  obtain ⟨y, hy, h⟩ := Option.bind_eq_some_iff.mp h
  cases h
  have hf := (hi.thread t).frame
  rw [hp] at hf
  obtain ⟨hlp, hlc, z, -, hz, ho, hpar, -, -⟩ := hf
  obtain rfl : x = z := by simpa [hx] using hz
  have hpc : p ≠ c := fun h => hi.tree.irrefl hx (h ▸ hpar)
  have htp : (t, p) ∈ s.tokens := hi.token_of_lock hlp
  have htc : (t, c) ∈ s.tokens := hi.token_of_lock hlc
  have hxr : x.refs = Tokens.count s.tokens c := (hi.chain c).refs hx
  have hyr : y.refs = Tokens.count s.tokens p := (hi.chain p).refs hy
  refine hi.both hx hy hpc rfl ?_ rfl ?_ rfl (.refl t _) ⟨rfl, rfl⟩ ⟨rfl, rfl⟩ rfl ?_
    (hi.unclaimed_of_token htc) (hi.unclaimed_of_token htp) (fun _ _ _ => rfl)
    (fun _ _ _ => le_rfl) ?_ hxr hyr ?_ ?_ ?_
  · exact hi.tree.cut hx hy hpar rfl rfl rfl rfl rfl rfl rfl rfl rfl
  · intro u hu
    exact Function.update_of_ne hu ..
  · intro u hu ho'
    exact hu (Option.some.inj (ho'.symm.trans ho))
  · intro d _ _
    show (Function.update s.pc t .idle t).dying = some d ↔ _
    rw [Function.update_self, hp]
    exact Iff.rfl
  · intro h0
    exact absurd h0 (hi.refs_pos hx htc).ne'
  · intro h0
    exact absurd h0 (hi.refs_pos hy htp).ne'
  · refine (hi.thread t).of_follows (c := c) ?_ (fun _ _ => rfl) (fun _ _ => rfl) (fun _ _ => rfl)
      ?_ ?_ ?_
    · show Follows c (s.pc t) (Function.update s.pc t .idle t)
      rw [Function.update_self, hp]
      exact (About.deleting p c).follows .idle
    · show demand (Function.update s.pc t .idle t) s.locks t c ≤ s.tokens.count (t, c)
      rw [Function.update_self]
      exact (demand_idle _).trans ((hi.thread t).needs c)
    · show s.holds.count (t, c) = held (Function.update s.pc t .idle t) s.locks t c
      rw [Function.update_self, (hi.thread t).holds c, hp]
      rfl
    · show FrameOk _ t (Function.update s.pc t .idle t)
      rw [Function.update_self]
      trivial

end

end Hammer2.Chain
