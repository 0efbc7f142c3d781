/-
# `Hammer2.Chain.Freed` — a chain is freed once, and only when nothing is left of it

In every run whose drops of a chain without a parent do not race (`hammer2_chain_lastdrop` then
gives up the spinlock of a parent that there is not), and whose upgrades find the mutex free
(`hammer2_chain_unlock` has already given up the shared lock), the tree and the counts are right
and a chain goes only when nobody has it (`run_frees`).
-/
import Hammer2.Chain.Lastdrop
import Hammer2.Lib.Machine

namespace Hammer2.Chain

open Machine

section
variable {s s' : State} {t u c d p : Nat} {x y : Chain} {pc : Pc} {f : Call}

/-! ## Calls -/

/-- A chain that is new, with a thread that has it. -/
theorem Inv.add {ex : Bool} {locks : List (Nat × Nat)} (hi : Inv s) (hp : s.pc t = .idle)
    (hlocks : ∀ d, d ≠ s.next → locks.count (t, d) = s.locks.count (t, d))
    (hothers : Others t s.locks locks) (hf : About s.next pc)
    (hdrops : pc.drops = none) (hdy : pc.dying = none) (hh : held pc locks t s.next = 1)
    (hframe : FrameOk ({ s.set s.next (fresh t ex) with
      next := s.next + 1
      tokens := (t, s.next) :: s.tokens
      holds := (t, s.next) :: s.holds
      locks := locks }.goto t pc) t pc) :
    Inv ({ s.set s.next (fresh t ex) with
      next := s.next + 1
      tokens := (t, s.next) :: s.tokens
      holds := (t, s.next) :: s.holds
      locks := locks }.goto t pc) := by
  have hnone : s.chains s.next = none := by
    cases hx : s.chains s.next with
    | none => rfl
    | some x => exact absurd (hi.tree.known hx) (Nat.lt_irrefl _)
  have hnot : ∀ u, (u, s.next) ∉ s.tokens ∧ (u, s.next) ∉ s.holds := by
    intro u
    constructor
    · intro h
      obtain ⟨x, hx⟩ := (hi.chain s.next).alive (.inl h)
      rw [hnone] at hx
      cases hx
    · intro h
      obtain ⟨x, hx⟩ := (hi.chain s.next).alive (.inr h)
      rw [hnone] at hx
      cases hx
  have hq : ∀ u, (s.pc u).claims ≠ some s.next := by
    intro u hc
    obtain ⟨x, hx, -⟩ := hi.claimed hc
    rw [hnone] at hx
    cases hx
  have htok0 : Tokens.count s.tokens s.next = 0 := Tokens.count_eq_zero.mpr fun u => (hnot u).1
  have hhold0 : Tokens.count s.holds s.next = 0 := Tokens.count_eq_zero.mpr fun u => (hnot u).2
  generalize hs' : State.goto _ t pc = s' at hframe ⊢
  have hpt : s'.pc t = pc := by
    rw [← hs']
    exact Function.update_self ..
  have hpcs : ∀ u, u ≠ t → s'.pc u = s.pc u := by
    intro u hu
    rw [← hs']
    exact Function.update_of_ne hu ..
  have hat : s'.chains s.next = some (fresh t ex) := by
    rw [← hs']
    exact Function.update_self ..
  have htokens : s'.tokens = (t, s.next) :: s.tokens := by rw [← hs']; rfl
  have hholds : s'.holds = (t, s.next) :: s.holds := by rw [← hs']; rfl
  have hlocks' : s'.locks = locks := by rw [← hs']; rfl
  have hF : Frame s s' t (· = s.next) :=
    { chains := by
        intro d hd
        rw [← hs']
        exact Function.update_of_ne hd ..
      tokens := by
        intro d hd
        rw [htokens]
        exact SameBut.cons d hd
      holds := by
        intro d hd
        rw [hholds]
        exact SameBut.cons d hd
      dying := by
        intro d _
        rw [hpt, hdy, hp]
        exact Iff.rfl
      pc := hpcs
      otherTokens := by
        intro u d _
        rw [htokens]
        exact List.count_le_count_cons
      otherLocks := by
        rw [hlocks']
        exact hothers
      otherHolds := by
        rw [hholds]
        exact .cons
      unclaimed := by
        rintro d rfl
        exact fun u _ => hq u
      owners := by
        rintro d z u rfl - hz
        rw [hnone] at hz
        cases hz }
  refine hi.of_frame hF ?_ ?_ ?_ (by rw [← hs']; exact hi.fault)
  · rw [← hs']
    cases ex with
    | false => exact hi.tree.create rfl rfl rfl rfl
    | true => exact hi.tree.create rfl rfl rfl rfl
  · rintro d rfl
    refine ⟨?_, ?_, fun _ => ⟨_, hat⟩, ?_, ?_⟩
    · intro z hz
      obtain rfl : fresh t ex = z := by simpa [hat] using hz
      rw [htokens, Tokens.count_cons_self, htok0]
      cases ex <;> rfl
    · intro z hz
      obtain rfl : fresh t ex = z := by simpa [hat] using hz
      rw [hholds]
      cases ex with
      | false =>
          refine ⟨?_, nofun⟩
          intro _
          rw [Tokens.count_cons_self, hhold0]
          rfl
      | true =>
          refine ⟨nofun, ?_⟩
          intro u n hu
          cases hu
          refine ⟨rfl, Nat.one_pos, by rw [Tokens.count_cons_self, hhold0], ?_⟩
          intro v hv
          rcases List.mem_cons.mp hv with hv | hv
          · exact congrArg Prod.fst hv
          · exact absurd hv (hnot v).2
    · intro z hz h0
      obtain rfl : fresh t ex = z := by simpa [hat] using hz
      cases ex <;> cases h0
    · have alone : ∀ {u}, (s'.pc u).dying ≠ some s.next := by
        intro u hu
        by_cases hut : u = t
        · subst hut
          rw [hpt, hdy] at hu
          cases hu
        · rw [hpcs u hut] at hu
          exact hq u (Pc.claims_of_dying hu)
      intro u v hu
      exact absurd hu alone
  · refine (hi.thread t).of_follows (c := s.next) ?_ ?_ ?_ ?_ ?_ ?_ (hpt ▸ hframe)
    · rw [hpt, hp]
      exact About.idle.follows hf
    · intro d hd
      rw [htokens]
      exact List.count_cons_of_ne fun h => hd (congrArg Prod.snd h).symm
    · rw [hlocks']
      exact hlocks
    · intro d hd
      rw [hholds]
      exact List.count_cons_of_ne fun h => hd (congrArg Prod.snd h).symm
    · rw [hpt, htokens, List.count_cons_self]
      unfold demand
      rw [hdrops, if_neg nofun, Nat.zero_add]
      split
      · exact Nat.succ_pos _
      · exact Nat.zero_le _
    · rw [hpt, hholds, hlocks', List.count_cons_self, hh]
      rw [List.count_eq_zero.mpr (hnot t).2]

theorem set_self (hx : s.chains c = some x) : s.set c x = s := by
  unfold State.set
  rw [← hx, Function.update_eq_self]

/-- A call that takes the thread nowhere. -/
theorem goto_idle (hp : s.pc t = .idle) {z : State} (hz : z.pc = s.pc) : z = z.goto t .idle :=
  (goto_self (by rw [hz, hp])).symm

theorem call_give {l : List (Nat × Nat)} (hi : Inv s) (hp : s.pc t = .idle) (hs : spare s t c)
    (hl : l = (u, c) :: s.tokens.erase (t, c)) : Inv { s with tokens := l } := by
  subst hl
  obtain ⟨x, hx⟩ := (hi.chain c).alive (.inl hs.1)
  have hrefs : x.refs = Tokens.count ((u, c) :: s.tokens.erase (t, c)) c := by
    rw [Tokens.count_cons_self, Tokens.count_erase_self hs.1]
    exact (hi.chain c).refs hx
  have hkeep : Inv ({ s.set c x with
      tokens := (u, c) :: s.tokens.erase (t, c), locks := s.locks }.goto t .idle) := by
    refine hi.share hx (hi.unclaimed_of_token hs.1) (.refl x) ⟨rfl, rfl⟩ ?_ ?_ (fun _ _ => rfl)
      (.refl t _) hrefs ?_ ?_ ?_ ?_ trivial
    · intro d hd
      exact (SameBut.cons d hd).trans (SameBut.erase d hd)
    · intro v d hv
      exact (Others.erase v d hv).ge.trans List.count_le_count_cons
    · intro h0
      exact absurd h0 (hi.refs_pos hx hs.1).ne'
    · rw [hp]
      exact About.idle.follows .idle
    · refine le_trans ?_ List.count_le_count_cons
      unfold demand
      rw [if_neg nofun, Nat.zero_add]
      split
      · next h => exact List.count_pos_iff.mpr (hs.2 (h.resolve_right nofun))
      · exact Nat.zero_le _
    · rw [hp]
  rw [set_self hx] at hkeep
  rw [goto_idle hp (z := { s with tokens := (u, c) :: s.tokens.erase (t, c) }) rfl]
  exact hkeep

theorem call_drop (hi : Inv s) (hp : s.pc t = .idle) (hs : spare s t c) :
    Inv (s.goto t (.drop c)) := by
  obtain ⟨x, hx⟩ := (hi.chain c).alive (.inl hs.1)
  rw [← set_self hx]
  refine hi.modify hx hs.1 (.refl x) ⟨rfl, rfl⟩ rfl ?_ ?_ ?_ trivial
  · rw [hp]
    exact About.idle.follows (.chain rfl)
  · have hpos := List.count_pos_iff.mpr hs.1
    unfold demand
    rw [if_pos (show (Pc.drop c).drops = some c from rfl)]
    split
    · next h =>
      have hlock := List.count_pos_iff.mpr (hs.2 (h.resolve_right nofun))
      rw [List.count_erase_self] at hlock
      omega
    · exact hpos
  · rw [hp]
    rfl

/-- A call on a chain that the thread has a reference to, before anything is done. -/
theorem call_uses (hi : Inv s) (hp : s.pc t = .idle) (hx : s.chains c = some x)
    (ht : (t, c) ∈ s.tokens) (htree : SameTree x y) (hmutex : SameMutex x y)
    (hrefs : y.refs = x.refs) (hc : pc.chain = some c) (hd : pc.drops = none)
    (ho : pc.owns = none) (hf : FrameOk ((s.set c y).goto t pc) t pc) :
    Inv ((s.set c y).goto t pc) := by
  refine hi.modify hx ht htree hmutex hrefs ?_ ?_ ?_ hf
  · rw [hp]
    exact About.idle.follows (.chain hc)
  · have hpos := List.count_pos_iff.mpr ht
    unfold demand
    rw [hd, if_neg nofun, Nat.zero_add]
    split
    · exact hpos
    · exact Nat.zero_le _
  · unfold held
    rw [hp, ho]
    rfl

theorem call_unlock (hi : Inv s) (hp : s.pc t = .idle) (hl : (t, c) ∈ s.locks) :
    Inv ({ s with locks := s.locks.erase (t, c) }.goto t (.unlock c false)) := by
  have ht : (t, c) ∈ s.tokens := hi.token_of_lock hl
  obtain ⟨x, hx⟩ := (hi.chain c).alive (.inl ht)
  have hkeep : Inv ({ s.set c x with
      tokens := s.tokens, locks := s.locks.erase (t, c) }.goto t (.unlock c false)) := by
    refine hi.share hx (hi.unclaimed_of_token ht) (.refl x) ⟨rfl, rfl⟩ (.refl c _)
      (fun _ _ _ => le_rfl) ?_ .erase ((hi.chain c).refs hx) ?_ ?_ ?_ ?_ trivial
    · intro d hd
      exact List.count_erase_of_ne fun h => hd (congrArg Prod.snd h)
    · intro h0
      exact absurd h0 (hi.refs_pos hx ht).ne'
    · rw [hp]
      exact About.idle.follows (.chain rfl)
    · have hpos := List.count_pos_iff.mpr ht
      unfold demand
      rw [if_neg (show ¬ (Pc.unlock c false).drops = some c from nofun), Nat.zero_add]
      split
      · exact hpos
      · exact Nat.zero_le _
    · have hpos := List.count_pos_iff.mpr hl
      rw [hp]
      unfold held
      rw [List.count_erase_self, if_pos (show (Pc.unlock c false).owns = some c from rfl),
        if_neg (show ¬ Pc.idle.owns = some c from nofun)]
      omega
  rw [set_self hx] at hkeep
  exact hkeep

theorem call_find (hi : Inv s) (hp : s.pc t = .idle) (hx : s.chains c = some x)
    (hq : ∀ u, u ≠ t → (s.pc u).claims ≠ some c) :
    Inv { s.set c { x with refs := x.refs + 1 } with tokens := (t, c) :: s.tokens } := by
  rw [goto_idle hp (z := { s.set c { x with refs := x.refs + 1 } with
    tokens := (t, c) :: s.tokens }) rfl]
  refine hi.ref hx hq ?_ ?_ ?_ trivial
  · rw [hp]
    exact About.idle.follows .idle
  · exact ((demand_idle _).trans ((hi.thread t).needs c)).trans (Nat.le_add_right _ _)
  · rw [hp]

theorem call_delete {blkmapped : Bool} (hi : Inv s) (hp : s.pc t = .idle)
    (hx : s.chains c = some x) (hy : s.chains p = some y) (hlp : (t, p) ∈ s.locks)
    (hlc : (t, c) ∈ s.locks) (hxo : owner x t) (hyo : owner y t) (hpar : x.parent = some p) :
    Inv ((s.set p { y with modified := y.modified || blkmapped }).goto t (.deleting p c)) := by
  have hne : p ≠ c := fun h => hi.tree.irrefl hx (h ▸ hpar)
  refine hi.modify hy (hi.token_of_lock hlp) ⟨rfl, rfl, rfl, rfl, rfl⟩ ⟨rfl, rfl⟩ rfl ?_ ?_ ?_ ?_
  · rw [hp]
    exact About.idle.follows (.deleting p c)
  · refine le_trans ?_ ((hi.thread t).needs p)
    rw [hp]
    exact le_rfl
  · rw [hp]
    rfl
  · refine ⟨hlp, hlc, x, _, ?_, hxo, hpar, Function.update_self .., hyo⟩
    exact (Function.update_of_ne hne.symm ..).trans hx

theorem call_setflags {update modified : Bool} (hi : Inv s) (hp : s.pc t = .idle)
    (hx : s.chains c = some x) (hl : (t, c) ∈ s.locks) :
    Inv (s.set c { x with update := update, modified := modified }) := by
  rw [goto_idle hp (z := s.set c { x with update := update, modified := modified }) rfl]
  refine hi.modify hx (hi.token_of_lock hl) ⟨rfl, rfl, rfl, rfl, rfl⟩ ⟨rfl, rfl⟩ rfl ?_ ?_ ?_
    trivial
  · rw [hp]
    exact About.idle.follows .idle
  · exact (demand_idle _).trans ((hi.thread t).needs c)
  · rw [hp]

theorem call_inv (hi : Inv s) (hp : s.pc t = .idle) (h : call s t f = some s') : Inv s' := by
  cases f with
  | ref c =>
      obtain ⟨x, hx, h⟩ := Option.bind_eq_some_iff.mp h
      split at h
      · next ht =>
        cases h
        exact call_find hi hp hx (hi.unclaimed_of_token ht)
      · cases h
  | find p c =>
      obtain ⟨x, hx, h⟩ := Option.bind_eq_some_iff.mp h
      obtain ⟨y, hy, h⟩ := Option.bind_eq_some_iff.mp h
      split at h
      · next hm =>
        cases h
        obtain ⟨z, hz, hpar⟩ := hi.tree.down hy hm.2
        exact call_find hi hp hx fun u _ => hi.unclaimed_of_parent hz hpar u
      · cases h
  | give u c =>
      simp only [call] at h
      split at h
      · next hs =>
        cases h
        exact call_give hi hp hs rfl
      · cases h
  | drop c =>
      simp only [call] at h
      split at h
      · next hs =>
        cases h
        exact call_drop hi hp hs
      · cases h
  | lock c ex nonblock =>
      obtain ⟨x, hx, h⟩ := Option.bind_eq_some_iff.mp h
      split at h
      · next ht =>
        cases h
        exact call_uses hi hp hx ht ⟨rfl, rfl, rfl, rfl, rfl⟩ ⟨rfl, rfl⟩ rfl rfl rfl rfl trivial
      · cases h
  | unlock c =>
      simp only [call] at h
      split at h
      · next hl =>
        cases h
        exact call_unlock hi hp hl
      · cases h
  | refHold c =>
      obtain ⟨x, hx, h⟩ := Option.bind_eq_some_iff.mp h
      split at h
      · next hl =>
        cases h
        exact call_uses hi hp hx (hi.token_of_lock hl) ⟨rfl, rfl, rfl, rfl, rfl⟩ ⟨rfl, rfl⟩ rfl rfl
          rfl rfl trivial
      · cases h
  | unhold c =>
      simp only [call] at h
      split at h
      · next ht =>
        cases h
        obtain ⟨x, hx⟩ := (hi.chain c).alive (.inl ht)
        rw [← set_self hx]
        exact call_uses hi hp hx ht (.refl x) ⟨rfl, rfl⟩ rfl rfl rfl rfl trivial
      · cases h
  | get p generation ex =>
      simp only [call] at h
      split at h
      · next hl =>
        cases h
        have hno : (t, s.next) ∉ s.locks := by
          intro hm
          obtain ⟨x, hx⟩ := (hi.chain s.next).alive (.inl (hi.token_of_lock hm))
          exact absurd (hi.tree.known hx) (Nat.lt_irrefl _)
        have hholds : Tokens.count s.holds s.next = 0 := by
          refine Tokens.count_eq_zero.mpr fun u hm => ?_
          obtain ⟨x, hx⟩ := (hi.chain s.next).alive (.inr hm)
          exact absurd (hi.tree.known hx) (Nat.lt_irrefl _)
        refine hi.add hp (fun _ _ => rfl) (.refl t _) (.chain rfl) rfl rfl ?_ ?_
        · show s.locks.count (t, s.next) + _ = 1
          rw [List.count_eq_zero.mpr hno,
            if_pos (show (Pc.getInsert p generation s.next).owns = some s.next from rfl)]
        · refine ⟨?_, hl, hno, ?_, fresh t ex, Function.update_self .., ?_⟩
          · rintro rfl
            exact hno hl
          · show Tokens.count ((t, s.next) :: s.holds) s.next = 1
            rw [Tokens.count_cons_self, hholds]
          · cases ex <;> exact ⟨rfl, rfl, rfl, rfl⟩
      · cases h
  | create =>
      simp only [call] at h
      cases h
      have hno : (t, s.next) ∉ s.locks := by
        intro hm
        obtain ⟨x, hx⟩ := (hi.chain s.next).alive (.inl (hi.token_of_lock hm))
        exact absurd (hi.tree.known hx) (Nat.lt_irrefl _)
      rw [goto_idle hp (z := { s.set s.next (fresh t true) with
        next := s.next + 1
        tokens := (t, s.next) :: s.tokens
        holds := (t, s.next) :: s.holds
        locks := (t, s.next) :: s.locks }) rfl]
      refine hi.add hp ?_ .cons .idle rfl rfl ?_ trivial
      · intro d hd
        exact List.count_cons_of_ne fun h => hd (congrArg Prod.snd h).symm
      · unfold held
        rw [List.count_cons_self, List.count_eq_zero.mpr hno]
        rfl
  | insert p c =>
      obtain ⟨x, hx, h⟩ := Option.bind_eq_some_iff.mp h
      obtain ⟨y, hy, h⟩ := Option.bind_eq_some_iff.mp h
      split at h
      · next hc =>
        obtain ⟨hlp, hlc, hne, hpar, hst⟩ := hc
        cases h
        rw [goto_idle hp (z := insert s p c x y) rfl]
        refine hi.attach hx hy hne hlp (hi.token_of_lock hlc) (hi.hold_of_lock hlc) hpar hst
          (fun _ _ => rfl) (.refl t _) ?_ ?_ ?_
        · rw [hp]
          exact About.idle.follows .idle
        · rw [hp]
          rfl
        · rw [hp]
          rfl
      · cases h
  | delete p c blkmapped error =>
      obtain ⟨x, hx, h⟩ := Option.bind_eq_some_iff.mp h
      obtain ⟨y, hy, h⟩ := Option.bind_eq_some_iff.mp h
      split at h
      · next hc =>
        obtain ⟨hlp, hlc, hxo, hyo, hpar⟩ := hc
        split at h
        · cases h
          exact hi
        · cases h
          exact call_delete hi hp hx hy hlp hlc hxo hyo hpar
      · cases h
  | setflags c update modified =>
      obtain ⟨x, hx, h⟩ := Option.bind_eq_some_iff.mp h
      split at h
      · next hc =>
        cases h
        exact call_setflags hi hp hx hc.1
      · cases h

/-! ## Whole runs -/

/-- A drop of a chain that has no parent does not race, and the upgrade of a shared lock gets the
mutex. -/
def Ok (s : State) : Event → Prop
  | .run t =>
      match s.pc t with
      | .lastdrop c =>
          ∀ x, s.chains c = some x → x.parent = none → x.chainCount = 0 → x.refs = 1
      | .upgrade c _ => ∀ x, s.chains c = some x → (x.enter t true).isSome
      | _ => True
  | _ => True

theorem run_inv (hi : Inv s) (hok : Ok s (.run t)) (h : run s t = some s') : Inv s' := by
  unfold Ok at hok
  cases hp : s.pc t with
  | idle =>
      simp only [run, hp] at h
      cases h
  | drop c => exact run_drop hi hp h
  | dropTry c => exact run_dropTry hi hp h
  | dropCas c refs => exact run_dropCas hi hp h
  | lastdrop c =>
      simp only [run, hp] at h hok
      exact lastdrop_inv hi hp hok h
  | dropUnlock c again => exact run_dropUnlock hi hp h
  | flushing c => exact run_flushing hi hp h
  | flushed c => exact run_flushed hi hp h
  | freeing c r => exact run_freeing hi hp h
  | gone c r => exact run_gone hi hp h
  | locking c ex nonblock => exact run_locking hi hp h
  | unlock c a => exact run_unlock hi hp h
  | unlockCas c n a => exact run_unlockCas hi hp h
  | upgrade c a =>
      simp only [hp] at hok
      exact run_upgrade hi hp hok h
  | unlockLast c a => exact run_unlockLast hi hp h
  | unlockMtx c a => exact run_unlockMtx hi hp h
  | unhold c => exact run_unhold hi hp h
  | unholdCas c n => exact run_unholdCas hi hp h
  | unholdTry c => exact run_unholdTry hi hp h
  | refHold c => exact run_refHold hi hp h
  | getInsert p g c => exact run_getInsert hi hp h
  | deleting p c => exact run_deleting hi hp h

theorem flush_inv (hi : Inv s) (h : step s (.flush t u) = some s') : Inv s' := by
  simp only [step] at h
  split at h
  · next c hp =>
    obtain ⟨x, hx, h⟩ := Option.bind_eq_some_iff.mp h
    cases h
    have ht : (t, c) ∈ s.tokens := hi.token_of_drops (by rw [hp]; rfl)
    have hf := (hi.thread t).frame
    rw [hp] at hf
    obtain ⟨z, hz, ho⟩ := hf
    obtain rfl : x = z := by simpa [hx] using hz
    have hstay : ({ s.set c { x with refs := x.refs + 1 } with
        tokens := (u, c) :: s.tokens } : State).pc t = .flushing c := hp
    rw [← goto_self hstay]
    refine hi.ref hx (hi.unclaimed_of_token ht) ?_ ?_ ?_ ⟨_, Function.update_self .., ho⟩
    · rw [hp]
      exact (About.chain rfl).follows (.chain rfl)
    · have hn := (hi.thread t).needs c
      rw [hp] at hn
      exact hn.trans (Nat.le_add_right _ _)
    · rw [hp]
  · cases h

theorem step_inv {e : Event} (hi : Inv s) (hok : Ok s e) (h : step s e = some s') : Inv s' := by
  cases e with
  | run t => exact run_inv hi hok h
  | call t f =>
      simp only [step] at h
      split at h
      · next hp => exact call_inv hi hp h
      · cases h
  | flush t u => exact flush_inv hi h

theorem init_chain (h : init.chains c = some x) :
    c < 2 ∧ x = { Chain.alloc with static := true } := by
  simp only [init] at h
  split at h
  · next hc => exact ⟨hc, (Option.some.inj h).symm⟩
  · cases h

theorem inv_init : Inv init where
  tree :=
    { known := fun h => (init_chain h).1
      up := fun h hp => by
        rw [(init_chain h).2] at hp
        cases hp
      down := fun h hm => by
        rw [(init_chain h).2] at hm
        cases hm
      nodup := fun h => by
        rw [(init_chain h).2]
        exact List.nodup_nil
      count := fun h => by
        rw [(init_chain h).2]
        rfl
      onrb := fun h => by
        rw [(init_chain h).2]
        rfl
      irrefl := fun h => by
        rw [(init_chain h).2]
        nofun
      root := fun h _ => by
        rw [(init_chain h).2]
        rfl }
  chain := by
    intro d
    refine ⟨?_, ?_, ?_, ?_, nofun⟩
    · intro x hx
      obtain ⟨hd, rfl⟩ := init_chain hx
      obtain rfl | rfl : d = 0 ∨ d = 1 := by omega
      · rfl
      · rfl
    · intro x hx
      rw [(init_chain hx).2]
      exact ⟨fun _ => rfl, nofun⟩
    · rintro t (h | h)
      · have hd : d < 2 := by
          rcases List.mem_cons.mp h with h | h
          · cases h
            exact Nat.two_pos
          · cases List.mem_singleton.mp h
            exact Nat.one_lt_two
        exact ⟨_, if_pos hd⟩
      · cases h
    · intro x hx h0
      rw [(init_chain hx).2] at h0
      cases h0
  thread := by
    intro t
    refine ⟨?_, ?_, trivial⟩
    · intro d
      exact Nat.zero_le _
    · intro d
      rfl
  fault := rfl

/-- What is right in a state: the tree, the counts, the mutexes, and no chain without references
that nothing keeps. -/
structure Sane (s : State) : Prop where
  count : ∀ {c x}, s.chains c = some x → x.chainCount = x.children.length ∧ x.children.Nodup
  tree : ∀ {p c x y}, s.chains p = some y → s.chains c = some x →
    (c ∈ y.children ↔ x.parent = some p) ∧ x.onRbtree = x.parent.isSome
  below : ∀ {p c y}, s.chains p = some y → c ∈ y.children → ∃ x, s.chains c = some x
  above : ∀ {p c x}, s.chains c = some x → x.parent = some p → ∃ y, s.chains p = some y
  refs : ∀ {c x}, s.chains c = some x → x.refs = Tokens.count s.tokens c
  alive : ∀ {t c}, (t, c) ∈ s.tokens ∨ (t, c) ∈ s.holds → ∃ x, s.chains c = some x
  lock : ∀ {t c}, (t, c) ∈ s.locks → (t, c) ∈ s.holds
  mutex : ∀ {c x}, s.chains c = some x → Mutex x c s.holds
  kept : ∀ {c x}, s.chains c = some x → x.refs = 0 → Kept s c x
  spin : s.fault = false

theorem Inv.sane (hi : Inv s) : Sane s where
  count hx := ⟨hi.tree.count hx, hi.tree.nodup hx⟩
  tree := by
    intro p c x y hy hx
    refine ⟨⟨?_, ?_⟩, hi.tree.onrb hx⟩
    · intro hm
      obtain ⟨z, hz, hpar⟩ := hi.tree.down hy hm
      obtain rfl : x = z := by simpa [hx] using hz
      exact hpar
    · intro hpar
      obtain ⟨z, hz, hm⟩ := hi.tree.up hx hpar
      obtain rfl : y = z := by simpa [hy] using hz
      exact hm
  below hy hm := by
    obtain ⟨x, hx, -⟩ := hi.tree.down hy hm
    exact ⟨x, hx⟩
  above hx hp := by
    obtain ⟨y, hy, -⟩ := hi.tree.up hx hp
    exact ⟨y, hy⟩
  refs hx := (hi.chain _).refs hx
  alive h := (hi.chain _).alive h
  lock h := hi.hold_of_lock h
  mutex hx := (hi.chain _).mutex hx
  kept hx h0 := (hi.chain _).kept hx h0
  spin := hi.fault

/-! ## What a step frees -/

/-- The same chains are there. -/
def SameDomain (s s' : State) : Prop :=
  s'.next = s.next ∧ ∀ d, (s'.chains d).isSome = (s.chains d).isSome

theorem SameDomain.refl (s : State) : SameDomain s s := ⟨rfl, fun _ => rfl⟩

theorem SameDomain.trans {s'' : State} (h : SameDomain s s') (h' : SameDomain s' s'') :
    SameDomain s s'' := ⟨h'.1.trans h.1, fun d => (h'.2 d).trans (h.2 d)⟩

theorem domain_set (hx : s.chains c = some x) : SameDomain s (s.set c y) := by
  refine ⟨rfl, fun d => ?_⟩
  show (Function.update s.chains c (some y) d).isSome = _
  by_cases hd : d = c
  · subst hd
    rw [Function.update_self, hx]
    rfl
  · rw [Function.update_of_ne hd]

theorem domain_two {z : Chain} (hx : s.chains c = some x) (hy : s.chains p = some y) {w : Chain} :
    SameDomain s ((s.set c z).set p w) := by
  have hc : SameDomain s (s.set c z) := domain_set hx
  refine hc.trans ?_
  by_cases hp : p = c
  · subst hp
    exact domain_set (x := z) (Function.update_self ..)
  · exact domain_set (x := y) ((Function.update_of_ne hp ..).trans hy)

theorem stay_domain {z : Chain} (hx : s.chains c = some x) : SameDomain s (stay s t c z) := by
  unfold stay
  split
  · exact domain_set hx
  · exact domain_set hx

theorem detach_domain (hx : s.chains c = some x) (hy : s.chains p = some y) :
    SameDomain s (detach s t c p x y) := by
  unfold detach
  dsimp only
  split
  · split
    · exact domain_two hx hy
    · exact domain_two hx hy
  · split
    · exact domain_two hx hy
    · exact domain_two hx hy

theorem lastdrop_domain (h : lastdrop s t c = some s') : SameDomain s s' := by
  unfold lastdrop at h
  obtain ⟨x, hx, h⟩ := Option.bind_eq_some_iff.mp h
  split at h
  · split at h
    · cases h
      exact stay_domain hx
    · split at h
      · cases h
        exact stay_domain hx
      · split at h
        · cases h
          exact .refl s
        · obtain ⟨y, hy, h⟩ := Option.bind_eq_some_iff.mp h
          cases h
          exact detach_domain hx hy
  · dsimp only at h
    split at h
    · split at h
      · cases h
        exact stay_domain hx
      · cases h
        exact domain_set hx
    · split at h
      · cases h
        exact domain_set hx
      · split at h
        · split at h
          · cases h
          · cases h
            exact stay_domain hx
        · cases h
          exact domain_set hx

/-- Nothing but the end of `hammer2_chain_lastdrop` frees a chain. -/
theorem run_domain (hno : ∀ c r, s.pc t ≠ .gone c r) (h : run s t = some s') :
    SameDomain s s' := by
  cases hp : s.pc t with
  | idle =>
      simp only [run, hp] at h
      cases h
  | lastdrop c =>
      simp only [run, hp] at h
      exact lastdrop_domain h
  | gone c r => exact absurd hp (hno c r)
  | drop c =>
      simp only [run, hp] at h
      obtain ⟨x, hx, h⟩ := Option.bind_eq_some_iff.mp h
      split at h
      · cases h
      · cases h
        exact .refl s
  | dropTry c | locking c ex nonblock | upgrade c a | unholdTry c =>
      simp only [run, hp] at h
      obtain ⟨x, hx, h⟩ := Option.bind_eq_some_iff.mp h
      split at h
      · cases h
        exact domain_set hx
      · first
          | (cases h; exact .refl s)
          | (split at h
             · cases h
               exact .refl s
             · cases h)
  | dropCas c n | unlockCas c n a | unlockLast c a | unholdCas c n =>
      simp only [run, hp] at h
      obtain ⟨x, hx, h⟩ := Option.bind_eq_some_iff.mp h
      split at h
      · cases h
        exact domain_set hx
      · cases h
        exact .refl s
  | dropUnlock c again | flushing c | flushed c | freeing c r | unlockMtx c a =>
      simp only [run, hp] at h
      obtain ⟨x, hx, h⟩ := Option.bind_eq_some_iff.mp h
      obtain ⟨y, -, h⟩ := Option.bind_eq_some_iff.mp h
      cases h
      exact domain_set hx
  | unlock c a =>
      simp only [run, hp] at h
      obtain ⟨x, hx, h⟩ := Option.bind_eq_some_iff.mp h
      split at h
      · cases h
      · split at h
        · cases h
          exact .refl s
        · split at h
          · cases h
            exact .refl s
          · obtain ⟨y, -, h⟩ := Option.bind_eq_some_iff.mp h
            cases h
            exact domain_set hx
  | unhold c =>
      simp only [run, hp] at h
      obtain ⟨x, hx, h⟩ := Option.bind_eq_some_iff.mp h
      split at h
      · cases h
        exact .refl s
      · cases h
        exact .refl s
  | refHold c =>
      simp only [run, hp] at h
      obtain ⟨x, hx, h⟩ := Option.bind_eq_some_iff.mp h
      cases h
      exact domain_set hx
  | getInsert p g c =>
      simp only [run, hp] at h
      obtain ⟨x, hx, h⟩ := Option.bind_eq_some_iff.mp h
      obtain ⟨y, hy, h⟩ := Option.bind_eq_some_iff.mp h
      split at h
      · cases h
        exact .refl s
      · cases h
        exact domain_two hx hy
  | deleting p c =>
      simp only [run, hp] at h
      obtain ⟨x, hx, h⟩ := Option.bind_eq_some_iff.mp h
      obtain ⟨y, hy, h⟩ := Option.bind_eq_some_iff.mp h
      cases h
      exact domain_two hx hy

theorem call_domain (h : call s t f = some s') :
    s.next ≤ s'.next ∧ ∀ d, d ≠ s.next → (s'.chains d).isSome = (s.chains d).isSome := by
  cases f with
  | ref c | lock c ex nonblock | refHold c | setflags c update modified =>
      obtain ⟨x, hx, h⟩ := Option.bind_eq_some_iff.mp h
      split at h
      · cases h
        exact ⟨le_rfl, fun d _ => (domain_set hx).2 d⟩
      · cases h
  | find p c =>
      obtain ⟨x, hx, h⟩ := Option.bind_eq_some_iff.mp h
      obtain ⟨y, hy, h⟩ := Option.bind_eq_some_iff.mp h
      split at h
      · cases h
        exact ⟨le_rfl, fun d _ => (domain_set hx).2 d⟩
      · cases h
  | give u c | drop c | unlock c | unhold c =>
      simp only [call] at h
      split at h
      · cases h
        exact ⟨le_rfl, fun _ _ => rfl⟩
      · cases h
  | get p generation ex =>
      simp only [call] at h
      split at h
      · cases h
        refine ⟨Nat.le_succ _, fun d hd => ?_⟩
        exact congrArg Option.isSome (Function.update_of_ne hd ..)
      · cases h
  | create =>
      simp only [call] at h
      cases h
      refine ⟨Nat.le_succ _, fun d hd => ?_⟩
      exact congrArg Option.isSome (Function.update_of_ne hd ..)
  | insert p c =>
      obtain ⟨x, hx, h⟩ := Option.bind_eq_some_iff.mp h
      obtain ⟨y, hy, h⟩ := Option.bind_eq_some_iff.mp h
      split at h
      · cases h
        exact ⟨le_rfl, fun d _ => (domain_two hx hy).2 d⟩
      · cases h
  | delete p c blkmapped error =>
      obtain ⟨x, hx, h⟩ := Option.bind_eq_some_iff.mp h
      obtain ⟨y, hy, h⟩ := Option.bind_eq_some_iff.mp h
      split at h
      · split at h
        · cases h
          exact ⟨le_rfl, fun _ _ => rfl⟩
        · cases h
          exact ⟨le_rfl, fun d _ => (domain_set hy).2 d⟩
      · cases h

/-- What is right in a step. -/
structure StepSane (s s' : State) (e : Event) : Prop where
  freed : ∀ {c x}, s.chains c = some x → s'.chains c = none →
    Dead x ∧ x.onRbtree = false ∧ x.chainCount = 0 ∧
      ∀ t, (t, c) ∉ s.tokens ∧ (t, c) ∉ s.holds ∧ (t, c) ∉ s.locks
  once : ∀ {c}, c < s.next → s.chains c = none → c < s'.next ∧ s'.chains c = none
  retry : ∀ {t c x}, e = .run t → s.pc t = .lastdrop c → s.chains c = some x → x.refs ≠ 1 →
    (s'.pc t = .dropUnlock c true ∨ s'.pc t = .flushing c) ∧ s'.tokens = s.tokens ∧
      s'.holds = s.holds
  returned : ∀ {t c}, e = .run t → s.pc t = .dropUnlock c true →
    s'.pc t = .drop c ∧ s'.tokens = s.tokens ∧ s'.holds = s.holds.erase (t, c)
  clean : ∀ {t c r x}, e = .run t → s.pc t = .lastdrop c → s.chains c = some x →
    s'.pc t = .freeing c r →
      x.refs = 1 ∧ x.children = [] ∧ (x.parent = none ∨ x.update = false ∧ x.modified = false)
  redrop : ∀ {t c p r x y}, e = .run t → s.pc t = .lastdrop c → s.chains c = some x →
    s'.pc t = .freeing c r → x.parent = some p → s'.chains p = some y → y.children = [] →
      r = some p

/-- The exits of `hammer2_chain_lastdrop`. -/
inductive Exit (s s' : State) (t c : Nat) (x : Chain) : Prop
  | retry : s'.pc t = .dropUnlock c true ∨ s'.pc t = .flushing c → s'.tokens = s.tokens →
      s'.holds = s.holds → Exit s s' t c x
  | stays : x.refs = 1 → s'.pc t = .dropUnlock c false → Exit s s' t c x
  | freeing {r : Option Nat} : s'.pc t = .freeing c r → x.refs = 1 → x.chainCount = 0 →
      (x.parent = none ∨ ¬ (x.update ∨ x.modified)) →
      (∀ p y, x.parent = some p → s'.chains p = some y → y.chainCount = 0 → r = some p) →
      Exit s s' t c x

theorem stay_exit {z : Chain} {ops : List SpinOp} (hr : z.refs = x.refs) :
    Exit s ((stay s t c z).spin ops) t c x := by
  unfold stay
  split
  · next h1 => exact .stays (hr.symm.trans h1) (Function.update_self ..)
  · exact .retry (.inl (Function.update_self ..)) rfl rfl

theorem lastdrop_exit (hx : s.chains c = some x) (h : lastdrop s t c = some s') :
    Exit s s' t c x := by
  unfold lastdrop at h
  obtain ⟨z, hz, h⟩ := Option.bind_eq_some_iff.mp h
  obtain rfl : x = z := by simpa [hx] using hz
  obtain ⟨horTree, -, horRefs⟩ := orphan_spec x
  split at h
  · next p hpar =>
    split at h
    · cases h
      exact stay_exit rfl
    · next hclean =>
      split at h
      · cases h
        exact stay_exit rfl
      · next hcount =>
        split at h
        · cases h
          exact .retry (.inl (Function.update_self ..)) rfl rfl
        · next hrefs =>
          obtain ⟨y, hy, h⟩ := Option.bind_eq_some_iff.mp h
          cases h
          unfold detach
          dsimp only
          generalize (if x.onRbtree then _ else y : Chain) = y'
          split
          · refine .freeing (Function.update_self ..) (not_not.mp hrefs) (not_not.mp hcount)
              (.inr hclean) ?_
            intro q w hq _ _
            exact hpar.symm.trans hq
          · next h0 =>
            refine .freeing (Function.update_self ..) (not_not.mp hrefs) (not_not.mp hcount)
              (.inr hclean) ?_
            intro q w hq hw hwz
            obtain rfl : p = q := Option.some.inj (hpar.symm.trans hq)
            have hat : some y' = some w := by
              rw [← hw]
              exact (Function.update_self (β := fun _ => Option Chain) p (some y') _).symm
            obtain rfl := Option.some.inj hat
            exact absurd hwz h0
  · next hpar =>
    dsimp only at h
    split at h
    · split at h
      · cases h
        exact stay_exit horRefs
      · cases h
        exact .retry (.inr (Function.update_self ..)) rfl rfl
    · next hcount =>
      split at h
      · cases h
        exact .retry (.inl (Function.update_self ..)) rfl rfl
      · next hrefs =>
        split at h
        · split at h
          · cases h
          · cases h
            exact stay_exit horRefs
        · cases h
          refine .freeing (Function.update_self ..) (horRefs.symm.trans (not_not.mp hrefs))
            (horTree.chainCount.symm.trans (not_not.mp hcount)) (.inl hpar) ?_
          intro p y hp
          rw [hpar] at hp
          cases hp

theorem step_sane {e : Event} (hi : Inv s) (hi' : Inv s') (h : step s e = some s') :
    StepSane s s' e := by
  have exit : ∀ {t c x}, e = .run t → s.pc t = .lastdrop c → s.chains c = some x →
      Exit s s' t c x := by
    rintro t c x rfl hp hx
    simp only [step, run, hp] at h
    exact lastdrop_exit hx h
  -- a chain is there or not as before, but for the new one and the one that is freed
  have domain : (s.next ≤ s'.next ∧ ∀ d, d ≠ s.next → (s'.chains d).isSome = (s.chains d).isSome) ∨
      ∃ t c r, e = .run t ∧ s.pc t = .gone c r := by
    cases e with
    | run t =>
        by_cases hg : ∃ c r, s.pc t = .gone c r
        · obtain ⟨c, r, hp⟩ := hg
          exact .inr ⟨t, c, r, rfl, hp⟩
        · have hsame := run_domain (fun c r hp => hg ⟨c, r, hp⟩) h
          exact .inl ⟨hsame.1.ge, fun d _ => hsame.2 d⟩
    | call t f =>
        simp only [step] at h
        split at h
        · exact .inl (call_domain h)
        · cases h
    | flush t u =>
        simp only [step] at h
        split at h
        · obtain ⟨x, hx, h⟩ := Option.bind_eq_some_iff.mp h
          cases h
          exact .inl ⟨le_rfl, fun d _ => (domain_set hx).2 d⟩
        · cases h
  have gone : ∀ {t c r}, e = .run t → s.pc t = .gone c r →
      s'.next = s.next ∧ s'.chains = Function.update s.chains c none := by
    rintro t c r rfl hp
    simp only [step, run, hp] at h
    cases h
    exact ⟨rfl, rfl⟩
  refine ⟨?_, ?_, ?_, ?_, ?_, ?_⟩
  · intro c x hx hx'
    rcases domain with ⟨-, hd⟩ | ⟨t, d, r, he, hp⟩
    · have hsame := hd c (hi.tree.known hx).ne
      rw [hx, hx'] at hsame
      cases hsame
    · have hcd : c = d := by
        by_contra hne
        rw [(gone he hp).2, Function.update_of_ne hne, hx] at hx'
        cases hx'
      subst hcd
      have hf := (hi.thread t).frame
      rw [hp] at hf
      obtain ⟨z, hz, hdead, hno⟩ := hf
      obtain rfl : x = z := by simpa [hx] using hz
      refine ⟨hdead, ?_, ?_, fun u => ⟨?_, hno u, fun hl => hno u (hi.hold_of_lock hl)⟩⟩
      · rw [hi.tree.onrb hx, hdead.parent]
        rfl
      · rw [hi.tree.count hx, hdead.children]
        rfl
      · intro hu
        exact absurd hdead.refs (hi.refs_pos hx hu).ne'
  · intro c hc hn
    rcases domain with ⟨hle, hd⟩ | ⟨t, d, r, he, hp⟩
    · have hsame := hd c hc.ne
      rw [hn] at hsame
      exact ⟨hc.trans_le hle, Option.isSome_eq_false_iff.mp hsame |> Option.isNone_iff_eq_none.mp⟩
    · obtain ⟨hnext, hch⟩ := gone he hp
      refine ⟨hnext ▸ hc, ?_⟩
      rw [hch]
      by_cases hcd : c = d
      · rw [hcd, Function.update_self]
      · rw [Function.update_of_ne hcd, hn]
  · intro t c x he hp hx hr
    cases exit he hp hx with
    | retry hpc htok hhold => exact ⟨hpc, htok, hhold⟩
    | stays h1 _ => exact absurd h1 hr
    | freeing _ h1 => exact absurd h1 hr
  · rintro t c rfl hp
    simp only [step, run, hp] at h
    obtain ⟨x, hx, h⟩ := Option.bind_eq_some_iff.mp h
    obtain ⟨y, -, h⟩ := Option.bind_eq_some_iff.mp h
    cases h
    exact ⟨Function.update_self .., rfl, rfl⟩
  · intro t c r x he hp hx hpc
    cases exit he hp hx with
    | retry hpc' =>
        rw [hpc] at hpc'
        rcases hpc' with h | h <;> cases h
    | stays _ hpc' =>
        rw [hpc] at hpc'
        cases hpc'
    | freeing _ h1 hcount hclean =>
        refine ⟨h1, hi.tree.no_children hx hcount, hclean.imp_right fun hn => ?_⟩
        obtain ⟨hu, hm⟩ := not_or.mp hn
        exact ⟨by simpa using hu, by simpa using hm⟩
  · intro t c p r x y he hp hx hpc hpar hy hnil
    cases exit he hp hx with
    | retry hpc' =>
        rw [hpc] at hpc'
        rcases hpc' with h | h <;> cases h
    | stays _ hpc' =>
        rw [hpc] at hpc'
        cases hpc'
    | freeing hpc' _ _ _ hred =>
        rw [hpc] at hpc'
        rw [(Pc.freeing.inj hpc').2]
        refine hred p y hpar hy ?_
        rw [hi'.tree.count hy, hnil]
        rfl

/-- In every run whose steps are `Ok` the states are right, and what a step frees is free. -/
theorem run_frees {es : List Event} (hok : AllSteps step Ok init es)
    (h : exec step init es = some s) :
    Sane s ∧ ∀ e s', Ok s e → step s e = some s' → StepSane s s' e := by
  have hi : Inv s := exec_invariant (fun _ _ _ hi hok hstep => step_inv hi hok hstep) inv_init hok h
  exact ⟨hi.sane, fun e s' hok hstep => step_sane hi (step_inv hi hok hstep) hstep⟩

end

/-- `Ok`, decided. -/
def okNow (s : State) : Event → Bool
  | .run t =>
      match s.pc t with
      | .lastdrop c =>
          (s.chains c).all fun x => x.parent.isSome || x.chainCount != 0 || x.refs == 1
      | .upgrade c _ => (s.chains c).all fun x => (x.enter t true).isSome
      | _ => true
  | _ => true

theorem okNow_ok {s : State} {e : Event} (h : okNow s e = true) : Ok s e := by
  cases e with
  | call t f => trivial
  | flush t u => trivial
  | run t =>
      cases hp : s.pc t with
      | lastdrop c =>
          simp only [okNow, hp] at h
          simp only [Ok, hp]
          intro x hx hpar hcount
          simpa [hx, hpar, hcount] using h
      | upgrade c a =>
          simp only [okNow, hp] at h
          simp only [Ok, hp]
          intro x hx
          simpa [hx] using h
      | _ =>
          simp only [Ok, hp]

/-- Thread 0 makes chain 2 under the root, and unlocks it. -/
def made : List Event :=
  [.call 0 (.lock 0 true false), .run 0, .call 0 .create, .call 0 (.insert 0 2),
    .call 0 (.unlock 2), .run 0, .run 0, .run 0]

/-- The last reference to chain 2 is dropped. -/
def dropped : List Event := made ++ .call 0 (.drop 2) :: List.replicate 7 (.run 0)

/-- A run in which a chain is made and freed. -/
theorem run_frees_dropped : ∃ s, exec step init dropped = some s ∧ s.chains 2 = none ∧
    AllSteps step Ok init dropped ∧
    Sane s ∧ ∀ e s', Ok s e → step s e = some s' → StepSane s s' e := by
  have hrun : (exec step init dropped).map (fun s => (s.chains 2).isSome) = some false := by
    decide
  have hall : AllSteps step (fun s e => okNow s e = true) init dropped := by decide
  obtain ⟨s, hs, hgone⟩ := Option.map_eq_some_iff.mp hrun
  have hok : AllSteps step Ok init dropped := hall.mono fun _ _ => okNow_ok
  exact ⟨s, hs, by simpa using hgone, hok, run_frees hok hs⟩

/-- Thread 1 is about to drop chain 2, when thread 0 finds it again and deletes it. -/
def raced : List Event :=
  made ++ [.call 0 (.give 1 2), .call 1 (.drop 2), .run 1, .call 0 (.find 0 2),
    .call 0 (.lock 2 true false), .run 0, .call 0 (.delete 0 2 false false), .run 0,
    .call 0 (.unlock 2), .run 0, .run 0, .run 0, .run 1, .run 1]

/-- Threads 0 and 1 have chain 2 shared and unlock it at one time, when thread 2 locks it. -/
def shared : List Event :=
  made ++ [.call 0 (.ref 2), .call 0 (.give 1 2), .call 0 (.ref 2), .call 0 (.give 2 2),
    .call 0 (.lock 2 false false), .run 0, .call 1 (.lock 2 false false), .run 1,
    .call 0 (.unlock 2), .run 0, .run 0, .call 1 (.unlock 2), .run 1, .run 1,
    .call 2 (.lock 2 false false), .run 2, .run 1, .run 1, .run 1, .run 0]

/-- The drop of a chain without a parent that fails gives up a spinlock that there is not; and
after an upgrade that fails thread 2 has locked a chain whose mutex is free. -/
theorem raced_shared :
    (∃ s, exec step init raced = some s ∧ s.fault = true ∧ ¬ Sane s) ∧
    ∃ s x, exec step init shared = some s ∧ (2, 2) ∈ s.locks ∧ s.chains 2 = some x ∧
      x.writer = none ∧ x.readers = 0 ∧ ¬ Sane s := by
  constructor
  · have hrun : (exec step init raced).map State.fault = some true := by decide
    obtain ⟨s, hs, hf⟩ := Option.map_eq_some_iff.mp hrun
    refine ⟨s, hs, hf, fun h => ?_⟩
    rw [h.spin] at hf
    cases hf
  · have hrun : (exec step init shared).bind (fun s => (s.chains 2).map fun x =>
        (decide ((2, 2) ∈ s.locks), x.writer, x.readers, Tokens.count s.holds 2)) =
        some (true, none, 0, 1) := by decide
    obtain ⟨s, hs, hx⟩ := Option.bind_eq_some_iff.mp hrun
    obtain ⟨x, hx, he⟩ := Option.map_eq_some_iff.mp hx
    simp only [Prod.mk.injEq, decide_eq_true_eq] at he
    obtain ⟨hl, hw, hr, hh⟩ := he
    refine ⟨s, x, hs, hl, hx, hw, hr, fun h => ?_⟩
    have hfree := (h.mutex hx).free hw
    rw [hr, hh] at hfree
    cases hfree

end Hammer2.Chain
