/-
# `Hammer2.Chain.Drop` — what each step of a thread keeps

    Inv.acquire    a thread gets the mutex of a chain that it has a reference to
    Inv.release    and gives it back
    Inv.modify     a thread changes fields of a chain, not the count and not the mutex
    Inv.ref        the count goes up with a reference, and `Inv.unref` down

The steps of `hammer2_chain_lock`, `hammer2_chain_unlock`, `hammer2_chain_unhold` and
`hammer2_chain_drop` are these.
-/
import Hammer2.Chain.Places

namespace Hammer2.Chain

/-- The chain of a place. -/
def Pc.chain : Pc → Option Nat
  | .idle | .deleting _ _ | .freeing _ _ | .gone _ _ => none
  | .drop c | .dropTry c | .dropCas c _ | .lastdrop c | .dropUnlock c _ | .flushing c | .flushed c
  | .locking c _ _ | .unlock c _ | .unlockCas c _ _ | .upgrade c _ | .unlockLast c _
  | .unlockMtx c _ | .unhold c | .unholdCas c _ | .unholdTry c | .refHold c | .getInsert _ _ c =>
      some c

/-- The place is outside the functions, or in one and about `c`. -/
inductive About (c : Nat) : Pc → Prop
  | idle : About c .idle
  | deleting (p d : Nat) : About c (.deleting p d)
  | chain {pc : Pc} : pc.chain = some c → About c pc

section
variable {s : State} {t u c d : Nat} {x y : Chain} {pc a b : Pc} {ex : Bool}
  {locks : List (Nat × Nat)}

theorem About.places (h : About c pc) (hd : d ≠ c) :
    pc.drops ≠ some d ∧ pc.uses ≠ some d ∧ pc.owns ≠ some d ∧ pc.dying ≠ some d := by
  have hne : ¬ c = d := fun he => hd he.symm
  cases h with
  | idle => exact ⟨nofun, nofun, nofun, nofun⟩
  | deleting p e => exact ⟨nofun, nofun, nofun, nofun⟩
  | chain hc =>
      cases pc <;> first
        | (cases hc; done)
        | (cases hc; simp [Pc.drops, Pc.uses, Pc.owns, Pc.dying, hne])

theorem About.follows (ha : About c a) (hb : About c b) : Follows c a b where
  drops d hd h := absurd h (hb.places hd).1
  uses d hd h := absurd h (hb.places hd).2.1
  owns d hd := ⟨fun h => absurd h (hb.places hd).2.2.1, fun h => absurd h (ha.places hd).2.2.1⟩
  dying d hd :=
    ⟨fun h => absurd h (hb.places hd).2.2.2, fun h => absurd h (ha.places hd).2.2.2⟩

theorem about_after (c : Nat) (again : Bool) : About c (after c again) := by
  cases again with
  | false => exact .idle
  | true => exact .chain rfl

theorem demand_idle (pc : Pc) : demand .idle locks t c ≤ demand pc locks t c := by
  refine demand_le nofun ?_
  rintro (h | h)
  · exact .inl h
  · cases h

theorem goto_self (h : s.pc t = pc) : s.goto t pc = s := by
  subst h
  unfold State.goto
  rw [Function.update_eq_self]

/-! ## The mutex -/

theorem Inv.acquire (hi : Inv s) (hx : s.chains c = some x) (ht : (t, c) ∈ s.tokens)
    (he : x.enter t ex = some y) (hlocks : ∀ d, d ≠ c → locks.count (t, d) = s.locks.count (t, d))
    (hothers : Others t s.locks locks) (hf : Follows c (s.pc t) pc)
    (hn : demand pc locks t c ≤ s.tokens.count (t, c))
    (hh : held pc locks t c = held (s.pc t) s.locks t c + 1)
    (hframe : FrameOk ({ (s.set c y).hold t c with locks := locks }.goto t pc) t pc) :
    Inv ({ (s.set c y).hold t c with locks := locks }.goto t pc) := by
  obtain ⟨hm, hdata, hown, -⟩ := ((hi.chain c).mutex hx).enter he
  have hpc : ({ (s.set c y).hold t c with locks := locks }.goto t pc).pc t = pc :=
    Function.update_self ..
  have touch : Touch s ({ (s.set c y).hold t c with locks := locks }.goto t pc) t c x y :=
    { was := hx
      tree := hdata.tree
      chains := rfl
      next := rfl
      fault := rfl
      pc := fun u hu => Function.update_of_ne hu ..
      tokens := .refl c _
      locks := hlocks
      holds := .cons
      otherTokens := fun _ _ _ => le_rfl
      otherLocks := hothers
      otherHolds := .cons
      unclaimed := hi.unclaimed_of_token ht
      owners := by
        intro u hu ho
        obtain ⟨⟨v, n⟩, hw, hv⟩ := Option.map_eq_some_iff.mp ho
        exact absurd (hv.symm.trans (hown v n hw)) hu
      follows := by
        rw [hpc]
        exact hf
      refs := hdata.refs.trans ((hi.chain c).refs hx)
      mutex := hm
      kept := by
        intro h0
        rw [hdata.refs] at h0
        exact absurd h0 (hi.refs_pos hx ht).ne'
      needs := by
        rw [hpc]
        exact hn
      held := by
        rw [hpc]
        show ((t, c) :: s.holds).count (t, c) = held pc locks t c
        rw [List.count_cons_self, (hi.thread t).holds c, hh]
      frame := by
        rw [hpc]
        exact hframe }
  exact touch.inv hi

theorem Inv.release (hi : Inv s) (hx : s.chains c = some x) (ho : (t, c) ∈ s.holds)
    (he : x.exit t = some y) (hf : Follows c (s.pc t) pc)
    (hdy : (s.pc t).dying = some c → pc.dying = some c)
    (hn : demand pc s.locks t c ≤ demand (s.pc t) s.locks t c)
    (hh : held (s.pc t) s.locks t c = held pc s.locks t c + 1)
    (hframe : FrameOk (((s.set c y).unhold t c).goto t pc) t pc) :
    Inv (((s.set c y).unhold t c).goto t pc) := by
  obtain ⟨hm, hdata, hown⟩ := ((hi.chain c).mutex hx).exit ho he
  have hpc : (((s.set c y).unhold t c).goto t pc).pc t = pc := Function.update_self ..
  have touch : Touch s (((s.set c y).unhold t c).goto t pc) t c x y :=
    { was := hx
      tree := hdata.tree
      chains := rfl
      next := rfl
      fault := rfl
      pc := fun u hu => Function.update_of_ne hu ..
      tokens := .refl c _
      locks := fun _ _ => rfl
      holds := .erase
      otherTokens := fun _ _ _ => le_rfl
      otherLocks := .refl t _
      otherHolds := .erase
      unclaimed := hi.unclaimed_of_hold ho
      owners := by
        intro u hu ho
        obtain ⟨⟨v, n⟩, hw, hv⟩ := Option.map_eq_some_iff.mp ho
        exact absurd (hv.symm.trans (hown v n hw)) hu
      follows := by
        rw [hpc]
        exact hf
      refs := hdata.refs.trans ((hi.chain c).refs hx)
      mutex := hm
      kept := by
        intro h0
        rw [hdata.refs] at h0
        rcases (hi.chain c).kept hx h0 with hk | hk | hk | ⟨u, hu⟩
        · exact .inl (hdata.tree.children ▸ hk)
        · refine .inr (.inl ?_)
          rw [hdata.tree.parent, hdata.update, hdata.modified]
          exact hk
        · exact .inr (.inr (.inl (hdata.tree.static.trans hk)))
        · refine .inr (.inr (.inr ⟨u, ?_⟩))
          by_cases hut : u = t
          · subst hut
            rw [hpc]
            exact hdy hu
          · show (Function.update s.pc t pc u).dying = some c
            rw [Function.update_of_ne hut]
            exact hu
      needs := by
        rw [hpc]
        exact hn.trans ((hi.thread t).needs c)
      held := by
        rw [hpc]
        show (s.holds.erase (t, c)).count (t, c) = held pc s.locks t c
        rw [List.count_erase_self, (hi.thread t).holds c, hh, Nat.add_sub_cancel]
      frame := by
        rw [hpc]
        exact hframe }
  exact touch.inv hi

/-! ## References -/

/-- The mutex stays. -/
structure SameMutex (x y : Chain) : Prop where
  writer : y.writer = x.writer
  readers : y.readers = x.readers

theorem SameMutex.owner (h : SameMutex x y) (ho : owner x u) : owner y u := by
  unfold Chain.owner at ho ⊢
  rw [h.writer]
  exact ho

/-- A step that leaves the mutexes alone. -/
theorem Inv.share {tokens : List (Nat × Nat)} (hi : Inv s) (hx : s.chains c = some x)
    (hq : ∀ u, u ≠ t → (s.pc u).claims ≠ some c) (htree : SameTree x y) (hmutex : SameMutex x y)
    (htok : SameBut c s.tokens tokens)
    (hothers : ∀ u d, u ≠ t → s.tokens.count (u, d) ≤ tokens.count (u, d))
    (hlocks : ∀ d, d ≠ c → locks.count (t, d) = s.locks.count (t, d))
    (hotherLocks : Others t s.locks locks) (hrefs : y.refs = Tokens.count tokens c)
    (hkept : y.refs = 0 →
      Kept ({ s.set c y with tokens := tokens, locks := locks }.goto t pc) c y)
    (hf : Follows c (s.pc t) pc) (hn : demand pc locks t c ≤ tokens.count (t, c))
    (hh : held pc locks t c = held (s.pc t) s.locks t c)
    (hframe : FrameOk ({ s.set c y with tokens := tokens, locks := locks }.goto t pc) t pc) :
    Inv ({ s.set c y with tokens := tokens, locks := locks }.goto t pc) := by
  have hpc : ({ s.set c y with tokens := tokens, locks := locks }.goto t pc).pc t = pc :=
    Function.update_self ..
  have touch :
      Touch s ({ s.set c y with tokens := tokens, locks := locks }.goto t pc) t c x y :=
    { was := hx
      tree := htree
      chains := rfl
      next := rfl
      fault := rfl
      pc := fun u hu => Function.update_of_ne hu ..
      tokens := htok
      locks := hlocks
      holds := .refl c _
      otherTokens := hothers
      otherLocks := hotherLocks
      otherHolds := .refl t _
      unclaimed := hq
      owners := fun u _ ho => hmutex.owner ho
      follows := by
        rw [hpc]
        exact hf
      refs := hrefs
      mutex := ((hi.chain c).mutex hx).congr hmutex.writer hmutex.readers rfl
      kept := hkept
      needs := by
        rw [hpc]
        exact hn
      held := by
        rw [hpc]
        exact ((hi.thread t).holds c).trans hh.symm
      frame := by
        rw [hpc]
        exact hframe }
  exact touch.inv hi

/-- A thread that has a reference changes the chain. -/
theorem Inv.modify (hi : Inv s) (hx : s.chains c = some x) (ht : (t, c) ∈ s.tokens)
    (htree : SameTree x y) (hmutex : SameMutex x y) (hrefs : y.refs = x.refs)
    (hf : Follows c (s.pc t) pc) (hn : demand pc s.locks t c ≤ s.tokens.count (t, c))
    (hh : held pc s.locks t c = held (s.pc t) s.locks t c)
    (hframe : FrameOk ((s.set c y).goto t pc) t pc) : Inv ((s.set c y).goto t pc) := by
  refine hi.share hx (hi.unclaimed_of_token ht) htree hmutex (.refl c _) (fun _ _ _ => le_rfl)
    (fun _ _ => rfl) (.refl t _) (hrefs.trans ((hi.chain c).refs hx)) ?_ hf hn hh hframe
  intro h0
  rw [hrefs] at h0
  exact absurd h0 (hi.refs_pos hx ht).ne'

/-- A reference more, for thread `u`. -/
theorem Inv.ref (hi : Inv s) (hx : s.chains c = some x)
    (hq : ∀ u, u ≠ t → (s.pc u).claims ≠ some c) (hf : Follows c (s.pc t) pc)
    (hn : demand pc s.locks t c ≤ s.tokens.count (t, c) + if t = u then 1 else 0)
    (hh : held pc s.locks t c = held (s.pc t) s.locks t c)
    (hframe : FrameOk ({ s.set c { x with refs := x.refs + 1 } with
      tokens := (u, c) :: s.tokens }.goto t pc) t pc) :
    Inv ({ s.set c { x with refs := x.refs + 1 } with tokens := (u, c) :: s.tokens }.goto t pc) := by
  refine hi.share hx hq ⟨rfl, rfl, rfl, rfl, rfl⟩ ⟨rfl, rfl⟩ .cons ?_ (fun _ _ => rfl)
    (.refl t _) ?_ ?_ hf ?_ hh hframe
  · intro v d _
    exact List.count_le_count_cons
  · rw [Tokens.count_cons_self, ← (hi.chain c).refs hx]
  · intro h0
    exact absurd h0 (Nat.succ_ne_zero _)
  · refine hn.trans (le_of_eq ?_)
    rw [List.count_cons]
    congr 1
    by_cases htu : t = u
    · subst htu
      simp
    · rw [if_neg htu, if_neg]
      intro h
      exact htu (congrArg Prod.fst (beq_iff_eq.mp h)).symm

/-- The reference that thread `t` drops. -/
theorem Inv.unref (hi : Inv s) (hx : s.chains c = some x) (hd : (s.pc t).drops = some c)
    (htree : SameTree x y) (hmutex : SameMutex x y) (hrefs : y.refs = x.refs - 1)
    (hkept : y.refs = 0 → Kept (((s.set c y).unref t c).goto t pc) c y)
    (hf : Follows c (s.pc t) pc) (hpd : pc.drops ≠ some c)
    (hpu : pc.uses = some c → (s.pc t).uses = some c) (hpo : pc.owns = (s.pc t).owns)
    (hframe : FrameOk (((s.set c y).unref t c).goto t pc) t pc) :
    Inv (((s.set c y).unref t c).goto t pc) := by
  have ht := hi.token_of_drops hd
  refine hi.share hx (hi.unclaimed_of_token ht) htree hmutex .erase ?_ (fun _ _ => rfl)
    (.refl t _) ?_ hkept hf ?_ ?_ hframe
  · intro u d hu
    exact (Others.erase u d hu).ge
  · have hc := Tokens.count_erase_self ht
    show y.refs = Tokens.count (s.tokens.erase (t, c)) c
    rw [hrefs, (hi.chain c).refs hx]
    omega
  · have hn := (hi.thread t).needs c
    show demand pc s.locks t c ≤ (s.tokens.erase (t, c)).count (t, c)
    rw [List.count_erase_self]
    rw [demand, if_pos hd] at hn
    rw [demand, if_neg hpd]
    have hle : (if (t, c) ∈ s.locks ∨ pc.uses = some c then 1 else 0) ≤
        if (t, c) ∈ s.locks ∨ (s.pc t).uses = some c then 1 else 0 := by
      split
      · next h => rw [if_pos (h.imp_right hpu)]
      · exact Nat.zero_le _
    omega
  · show held pc s.locks t c = held (s.pc t) s.locks t c
    unfold held
    rw [hpo]

/-! ## The functions, step by step -/

variable {s' : State}

theorem run_drop (hi : Inv s) (hp : s.pc t = .drop c) (h : run s t = some s') : Inv s' := by
  simp only [run, hp] at h
  obtain ⟨x, hx, h⟩ := Option.bind_eq_some_iff.mp h
  split at h
  · cases h
  · next h0 =>
    cases h
    split
    · exact hi.goto (by rw [hp]; rfl) (by rw [hp]; rfl) (by rw [hp]; rfl) (by rw [hp]; rfl)
        fun _ => trivial
    · next h1 =>
      refine hi.goto (by rw [hp]; rfl) (by rw [hp]; rfl) (by rw [hp]; rfl) (by rw [hp]; rfl)
        fun _ => ?_
      show 2 ≤ x.refs
      omega

theorem run_dropTry (hi : Inv s) (hp : s.pc t = .dropTry c) (h : run s t = some s') : Inv s' := by
  simp only [run, hp] at h
  obtain ⟨x, hx, h⟩ := Option.bind_eq_some_iff.mp h
  split at h
  · next y he =>
    cases h
    have ht : (t, c) ∈ s.tokens := hi.token_of_drops (by rw [hp]; rfl)
    have hn := (hi.thread t).needs c
    rw [hp] at hn
    obtain ⟨hm, -, -, hw⟩ := ((hi.chain c).mutex hx).enter he
    obtain ⟨n, hw⟩ := hw (.inl rfl)
    refine hi.acquire hx ht he (fun _ _ => rfl) (.refl t _) ?_ hn ?_ ?_
    · rw [hp]
      exact (About.chain rfl).follows (.chain rfl)
    · rw [hp]
      show held (.lastdrop c) s.locks t c = held (.dropTry c) s.locks t c + 1
      simp [held, Pc.owns]
    · exact ⟨y, Function.update_self .., by simp [owner, hw]⟩
  · cases h
    exact hi.goto (by rw [hp]; rfl) (by rw [hp]; rfl) (by rw [hp]; rfl) (by rw [hp]; rfl)
      fun _ => trivial

theorem run_dropCas {refs : Nat} (hi : Inv s) (hp : s.pc t = .dropCas c refs)
    (h : run s t = some s') : Inv s' := by
  simp only [run, hp] at h
  obtain ⟨x, hx, h⟩ := Option.bind_eq_some_iff.mp h
  split at h
  · next hr =>
    cases h
    have hf := (hi.thread t).frame
    rw [hp] at hf
    have h2 : 2 ≤ refs := hf
    refine hi.unref hx (by rw [hp]; rfl) ⟨rfl, rfl, rfl, rfl, rfl⟩ ⟨rfl, rfl⟩ (by rw [hr]) ?_ ?_
      nofun nofun (by rw [hp]; rfl) trivial
    · intro h0
      have h0 : refs - 1 = 0 := h0
      omega
    · rw [hp]
      exact (About.chain rfl).follows .idle
  · cases h
    exact hi.goto (by rw [hp]; rfl) (by rw [hp]; rfl) (by rw [hp]; rfl) (by rw [hp]; rfl)
      fun _ => trivial

theorem run_dropUnlock {again : Bool} (hi : Inv s) (hp : s.pc t = .dropUnlock c again)
    (h : run s t = some s') : Inv s' := by
  simp only [run, hp] at h
  obtain ⟨x, hx, h⟩ := Option.bind_eq_some_iff.mp h
  obtain ⟨y, he, h⟩ := Option.bind_eq_some_iff.mp h
  cases h
  refine hi.release hx (hi.hold_of_owns (by rw [hp]; rfl)) he ?_ ?_ ?_ ?_ ?_
  · rw [hp]
    exact (About.chain rfl).follows (about_after c again)
  · rw [hp]
    nofun
  · rw [hp]
    cases again <;> exact le_rfl
  · rw [hp]
    cases again <;> simp [held, Pc.owns, after]
  · cases again <;> exact trivial

theorem run_flushing (hi : Inv s) (hp : s.pc t = .flushing c) (h : run s t = some s') :
    Inv s' := by
  simp only [run, hp] at h
  obtain ⟨x, hx, h⟩ := Option.bind_eq_some_iff.mp h
  obtain ⟨y, he, h⟩ := Option.bind_eq_some_iff.mp h
  cases h
  refine hi.release hx (hi.hold_of_owns (by rw [hp]; rfl)) he ?_ ?_ ?_ ?_ trivial
  · rw [hp]
    exact (About.chain rfl).follows (.chain rfl)
  · rw [hp]
    nofun
  · rw [hp]
    exact le_rfl
  · rw [hp]
    simp [held, Pc.owns]

theorem run_flushed (hi : Inv s) (hp : s.pc t = .flushed c) (h : run s t = some s') :
    Inv s' := by
  simp only [run, hp] at h
  obtain ⟨x, hx, h⟩ := Option.bind_eq_some_iff.mp h
  obtain ⟨y, he, h⟩ := Option.bind_eq_some_iff.mp h
  cases h
  have hn := (hi.thread t).needs c
  rw [hp] at hn
  obtain ⟨-, -, -, hw⟩ := ((hi.chain c).mutex hx).enter he
  obtain ⟨n, hw⟩ := hw (.inl rfl)
  refine hi.acquire hx (hi.token_of_drops (by rw [hp]; rfl)) he (fun _ _ => rfl) (.refl t _) ?_ hn
    ?_ ?_
  · rw [hp]
    exact (About.chain rfl).follows (.chain rfl)
  · rw [hp]
    show held (.dropUnlock c true) s.locks t c = held (.flushed c) s.locks t c + 1
    simp [held, Pc.owns]
  · exact ⟨y, Function.update_self .., by simp [owner, hw]⟩

theorem run_locking {nonblock : Bool} (hi : Inv s) (hp : s.pc t = .locking c ex nonblock)
    (h : run s t = some s') : Inv s' := by
  simp only [run, hp] at h
  obtain ⟨x, hx, h⟩ := Option.bind_eq_some_iff.mp h
  split at h
  · next y he =>
    cases h
    have ht : (t, c) ∈ s.tokens := hi.token_of_uses (by rw [hp]; rfl)
    refine hi.acquire hx ht he ?_ .cons ?_ ?_ ?_ trivial
    · intro d hd
      exact List.count_cons_of_ne fun h => hd (congrArg Prod.snd h).symm
    · rw [hp]
      exact (About.chain rfl).follows .idle
    · have hpos := List.count_pos_iff.mpr ht
      simp [demand, Pc.drops, Pc.uses]
      omega
    · rw [hp]
      simp [held, Pc.owns]
  · split at h
    · cases h
      exact hi.goto (by rw [hp]; rfl) (by rw [hp]; rfl) (by rw [hp]; rfl) (by rw [hp]; rfl)
        fun _ => trivial
    · cases h

/-- While a thread unlocks a chain it has a reference to it, its own or the one it drops. -/
theorem Inv.token_of_unlock {again : Bool}
    (hi : Inv s) (hd : (s.pc t).drops = if again then some c else none)
    (hu : (s.pc t).uses = if again then none else some c) : (t, c) ∈ s.tokens := by
  cases again with
  | false => exact hi.token_of_uses hu
  | true => exact hi.token_of_drops hd

theorem run_unlock {again : Bool} (hi : Inv s) (hp : s.pc t = .unlock c again)
    (h : run s t = some s') : Inv s' := by
  simp only [run, hp] at h
  obtain ⟨x, hx, h⟩ := Option.bind_eq_some_iff.mp h
  split at h
  · cases h
  · split at h
    · cases h
      exact hi.goto (by rw [hp]; rfl) (by rw [hp]; rfl) (by rw [hp]; rfl) (by rw [hp]; rfl)
        fun _ => trivial
    · split at h
      · cases h
        exact hi.goto (by rw [hp]; rfl) (by rw [hp]; rfl) (by rw [hp]; rfl) (by rw [hp]; rfl)
          fun _ => trivial
      · obtain ⟨y, he, h⟩ := Option.bind_eq_some_iff.mp h
        cases h
        refine hi.release hx (hi.hold_of_owns (by rw [hp]; rfl)) he ?_ ?_ ?_ ?_ trivial
        · rw [hp]
          exact (About.chain rfl).follows (.chain rfl)
        · rw [hp]
          nofun
        · rw [hp]
          exact le_rfl
        · rw [hp]
          simp [held, Pc.owns]

theorem run_unlockCas {lockcnt : Nat} {again : Bool} (hi : Inv s)
    (hp : s.pc t = .unlockCas c lockcnt again) (h : run s t = some s') : Inv s' := by
  simp only [run, hp] at h
  obtain ⟨x, hx, h⟩ := Option.bind_eq_some_iff.mp h
  split at h
  · cases h
    have ht : (t, c) ∈ s.tokens := hi.token_of_unlock (by rw [hp]; rfl) (by rw [hp]; rfl)
    have hn := (hi.thread t).needs c
    rw [hp] at hn
    refine hi.modify hx ht ⟨rfl, rfl, rfl, rfl, rfl⟩ ⟨rfl, rfl⟩ rfl ?_ hn ?_ trivial
    · rw [hp]
      exact (About.chain rfl).follows (.chain rfl)
    · rw [hp]
      rfl
  · cases h
    exact hi.goto (by rw [hp]; rfl) (by rw [hp]; rfl) (by rw [hp]; rfl) (by rw [hp]; rfl)
      fun _ => trivial

/-- The upgrade is right if the mutex is free. -/
theorem run_upgrade {again : Bool} (hi : Inv s) (hp : s.pc t = .upgrade c again)
    (hfree : ∀ x, s.chains c = some x → (x.enter t true).isSome) (h : run s t = some s') :
    Inv s' := by
  simp only [run, hp] at h
  obtain ⟨x, hx, h⟩ := Option.bind_eq_some_iff.mp h
  obtain ⟨y, he⟩ := Option.isSome_iff_exists.mp (hfree x hx)
  simp only [he] at h
  cases h
  have ht : (t, c) ∈ s.tokens := hi.token_of_unlock (by rw [hp]; rfl) (by rw [hp]; rfl)
  have hn := (hi.thread t).needs c
  rw [hp] at hn
  refine hi.acquire hx ht he (fun _ _ => rfl) (.refl t _) ?_ hn ?_ trivial
  · rw [hp]
    exact (About.chain rfl).follows (.chain rfl)
  · rw [hp]
    show held (.unlockLast c again) s.locks t c = held (.upgrade c again) s.locks t c + 1
    simp [held, Pc.owns]

theorem run_unlockLast {again : Bool} (hi : Inv s) (hp : s.pc t = .unlockLast c again)
    (h : run s t = some s') : Inv s' := by
  simp only [run, hp] at h
  obtain ⟨x, hx, h⟩ := Option.bind_eq_some_iff.mp h
  split at h
  · cases h
    have ht : (t, c) ∈ s.tokens := hi.token_of_unlock (by rw [hp]; rfl) (by rw [hp]; rfl)
    have hn := (hi.thread t).needs c
    rw [hp] at hn
    refine hi.modify hx ht ⟨rfl, rfl, rfl, rfl, rfl⟩ ⟨rfl, rfl⟩ rfl ?_ hn ?_ trivial
    · rw [hp]
      exact (About.chain rfl).follows (.chain rfl)
    · rw [hp]
      rfl
  · cases h
    exact hi.goto (by rw [hp]; rfl) (by rw [hp]; rfl) (by rw [hp]; rfl) (by rw [hp]; rfl)
      fun _ => trivial

theorem run_unlockMtx {again : Bool} (hi : Inv s) (hp : s.pc t = .unlockMtx c again)
    (h : run s t = some s') : Inv s' := by
  simp only [run, hp] at h
  obtain ⟨x, hx, h⟩ := Option.bind_eq_some_iff.mp h
  obtain ⟨y, he, h⟩ := Option.bind_eq_some_iff.mp h
  cases h
  refine hi.release hx (hi.hold_of_owns (by rw [hp]; rfl)) he ?_ ?_ ?_ ?_ ?_
  · rw [hp]
    exact (About.chain rfl).follows (about_after c again)
  · rw [hp]
    nofun
  · rw [hp]
    refine demand_le ?_ ?_
    · cases again
      · nofun
      · exact id
    · refine Or.imp_right ?_
      cases again <;> nofun
  · rw [hp]
    cases again <;> simp [held, Pc.owns, after]
  · cases again <;> exact trivial

theorem run_unhold (hi : Inv s) (hp : s.pc t = .unhold c) (h : run s t = some s') : Inv s' := by
  simp only [run, hp] at h
  obtain ⟨x, hx, h⟩ := Option.bind_eq_some_iff.mp h
  split at h <;> cases h <;>
    exact hi.goto (by rw [hp]; rfl) (by rw [hp]; rfl) (by rw [hp]; rfl) (by rw [hp]; rfl)
      fun _ => trivial

theorem run_unholdCas {lockcnt : Nat} (hi : Inv s) (hp : s.pc t = .unholdCas c lockcnt)
    (h : run s t = some s') : Inv s' := by
  simp only [run, hp] at h
  obtain ⟨x, hx, h⟩ := Option.bind_eq_some_iff.mp h
  split at h
  · cases h
    refine hi.modify hx (hi.token_of_uses (by rw [hp]; rfl)) ⟨rfl, rfl, rfl, rfl, rfl⟩ ⟨rfl, rfl⟩
      rfl ?_ ?_ ?_ trivial
    · rw [hp]
      exact (About.chain rfl).follows .idle
    · exact (demand_idle _).trans ((hi.thread t).needs c)
    · rw [hp]
      rfl
  · cases h
    exact hi.goto (by rw [hp]; rfl) (by rw [hp]; rfl) (by rw [hp]; rfl) (by rw [hp]; rfl)
      fun _ => trivial

theorem run_unholdTry (hi : Inv s) (hp : s.pc t = .unholdTry c) (h : run s t = some s') :
    Inv s' := by
  simp only [run, hp] at h
  obtain ⟨x, hx, h⟩ := Option.bind_eq_some_iff.mp h
  split at h
  · next y he =>
    cases h
    have hn := (hi.thread t).needs c
    rw [hp] at hn
    refine hi.acquire hx (hi.token_of_uses (by rw [hp]; rfl)) he (fun _ _ => rfl) (.refl t _) ?_
      hn ?_ trivial
    · rw [hp]
      exact (About.chain rfl).follows (.chain rfl)
    · rw [hp]
      show held (.unlock c false) s.locks t c = held (.unholdTry c) s.locks t c + 1
      simp [held, Pc.owns]
  · cases h
    exact hi.goto (by rw [hp]; rfl) (by rw [hp]; rfl) (by rw [hp]; rfl) (by rw [hp]; rfl)
      fun _ => trivial

theorem run_refHold (hi : Inv s) (hp : s.pc t = .refHold c) (h : run s t = some s') :
    Inv s' := by
  simp only [run, hp] at h
  obtain ⟨x, hx, h⟩ := Option.bind_eq_some_iff.mp h
  cases h
  refine hi.ref hx (hi.unclaimed_of_token (hi.token_of_uses (by rw [hp]; rfl))) ?_ ?_ ?_ trivial
  · rw [hp]
    exact (About.chain rfl).follows .idle
  · exact ((demand_idle _).trans ((hi.thread t).needs c)).trans (Nat.le_add_right _ _)
  · rw [hp]
    rfl

end

end Hammer2.Chain
