/-
# `Hammer2.Chain.Collapse` — what a walk upwards relies on

    Survivor      the nearest ancestor of a place that is not deleted
    Place         what holds where a thread is
    Inv           the invariant of all runs, with the balance of the references
    step_inv      every step keeps it

The tree has a rank: a parent has less than its child, and a chain only ever moves to the parent
of its parent.
-/
import Hammer2.Chain.Reptrack
import Hammer2.Lib.Machine
import Mathlib.Algebra.Order.BigOperators.Group.Finset

namespace Hammer2.Reptrack

open Machine

/-! ## The tree -/

/-- From `c` upwards, past what is deleted, the first chain that is not. -/
inductive Survivor {C : Type} (g : Topo C) : C → C → Prop
  | here {c : C} : g.deleted c = false → Survivor g c c
  | up {c p q : C} : g.deleted c = true → g.into c = some p → Survivor g p q → Survivor g c q

/-- `c` is at the same place. -/
structure Same {C : Type} (g g' : Topo C) (c : C) : Prop where
  parent : g'.parent c = g.parent c
  deleted : g'.deleted c = g.deleted c
  into : g'.into c = g.into c

/-- What is deleted stays as it is. -/
def Grows {C : Type} (g g' : Topo C) : Prop :=
  ∀ c, g.deleted c = true → g'.deleted c = true ∧ g'.into c = g.into c

theorem Same.refl {C : Type} (g : Topo C) (c : C) : Same g g c := ⟨rfl, rfl, rfl⟩

theorem Grows.refl {C : Type} (g : Topo C) : Grows g g := fun _ h => ⟨h, rfl⟩

/-- The survivor stays the same while it is not deleted. -/
theorem Survivor.mono {C : Type} {g g' : Topo C} (hg : Grows g g') {c q : C} (h : Survivor g c q)
    (hq : g'.deleted q = false) : Survivor g' c q := by
  induction h with
  | here _ => exact .here hq
  | up hd hi _ ih => exact .up (hg _ hd).1 ((hg _ hd).2.trans hi) (ih hq)

/-! ## Where a thread is -/

section

variable {C : Type} (rank : C → Nat)

/-- What holds of the tree and of the record of a thread.  A record that is not moved has its
spinlock free and is for the parent the thread waits for. -/
def Place (g : Topo C) (tr : Option C) (sp : Bool) : Pc C → Prop
  | .idle => tr = none
  | .walk c _ o => tr = none ∧ g.deleted c = false ∧ ∀ p, o = some p → Survivor g p c
  | .tryLock c p .. | .entered c p .. | .failed c p .. =>
      tr = none ∧ g.deleted c = false ∧ g.parent c = some p
  | .inited c p .. | .tracked c p .. => tr = some p ∧ sp = false ∧ g.deleted c = false ∧ g.parent c = some p
  | .waiting p _ o | .locked p _ o => ∃ q, tr = some q ∧ (sp = false → q = p ∧ o = p) ∧ (sp = true → q ≠ p)
  | .mismatch .. | .reload .. => sp = true ∧ ∃ q, tr = some q
  | .matched p _ o | .unlinked p _ o => tr = some p ∧ sp = false ∧ o = p
  | .parentHeld p => tr = none ∧ g.deleted p = false
  | .flush p c => tr = none ∧ g.deleted p = false ∧ g.deleted c = false ∧ g.parent c = some p
  | .moving p c => tr = none ∧ g.deleted p = false ∧ rank p < rank c
  | .movingSub p c d => tr = none ∧ g.deleted p = false ∧ rank p < rank c ∧ g.parent d = some c
  | .repchange p c => tr = none ∧ g.deleted p = false ∧ rank p < rank c ∧ ∀ d, g.parent d ≠ some c
  | .flushed p _ => tr = none ∧ g.deleted p = false

variable {rank}

/-- A place depends on the chains that the thread has locked; a chain it has for itself gets no
new child. -/
theorem Place.frame {g g' : Topo C} {tr : Option C} {sp : Bool} {q : Pc C} (h : Place rank g tr sp q)
    (hg : Grows g g') (hsame : ∀ c m, (c, m) ∈ held q → Same g g' c)
    (hchild : ∀ c, (c, .ex) ∈ held q → ∀ d, g'.parent d = some c → g.parent d = some c) :
    Place rank g' tr sp q := by
  cases q with
  | idle | waiting | locked | mismatch | reload | matched | unlinked => exact h
  | walk c m o =>
      obtain ⟨htr, hc, ho⟩ := h
      have hc' := (hsame c m (by simp [held])).deleted.trans hc
      exact ⟨htr, hc', fun p hp => (ho p hp).mono hg hc'⟩
  | tryLock c p m f | entered c p m f | failed c p m f =>
      obtain ⟨htr, hc, hp⟩ := h
      have hs := hsame c m (by simp [held])
      exact ⟨htr, hs.deleted.trans hc, hs.parent.trans hp⟩
  | inited c p m f | tracked c p m f =>
      obtain ⟨htr, hsp, hc, hp⟩ := h
      have hs := hsame c m (by simp [held])
      exact ⟨htr, hsp, hs.deleted.trans hc, hs.parent.trans hp⟩
  | parentHeld p => exact ⟨h.1, (hsame p .ex (by simp [held])).deleted.trans h.2⟩
  | flush p c =>
      obtain ⟨htr, hp, hc, hpar⟩ := h
      have hs := hsame c .ex (by simp [held])
      exact ⟨htr, (hsame p .ex (by simp [held])).deleted.trans hp, hs.deleted.trans hc, hs.parent.trans hpar⟩
  | moving p c => exact ⟨h.1, (hsame p .ex (by simp [held])).deleted.trans h.2.1, h.2.2⟩
  | movingSub p c d =>
      obtain ⟨htr, hp, hr, hpar⟩ := h
      exact ⟨htr, (hsame p .ex (by simp [held])).deleted.trans hp, hr,
        (hsame d .ex (by simp [held])).parent.trans hpar⟩
  | repchange p c =>
      obtain ⟨htr, hp, hr, hnone⟩ := h
      exact ⟨htr, (hsame p .ex (by simp [held])).deleted.trans hp, hr,
        fun d hd => hnone d (hchild c (by simp [held]) d hd)⟩
  | flushed p c => exact ⟨h.1, (hsame p .ex (by simp [held])).deleted.trans h.2⟩

end

/-- The block whose children a thread moves. -/
def works {C : Type} : Pc C → Option C
  | .moving _ c | .movingSub _ c _ => some c
  | _ => none

/-- The block that a thread takes out, until its list of records is empty. -/
def clears {C : Type} : Pc C → Option C
  | .moving _ c | .movingSub _ c _ | .repchange _ c => some c
  | _ => none

theorem clears_of_works {C : Type} {q : Pc C} {c : C} (h : works q = some c) : clears q = some c := by
  cases q with
  | moving | movingSub => exact h
  | _ => cases h

theorem held_of_clears {C : Type} {q : Pc C} {c : C} (h : clears q = some c) : (c, .ex) ∈ held q := by
  cases q with
  | moving | movingSub | repchange =>
      obtain rfl := Option.some.inj h
      simp [held]
  | _ => cases h

/-! ## The invariant -/

section

variable {C T : Type} [DecidableEq C] [DecidableEq T] [Fintype T]

/-- The references to `c` of a thread at `q`, one of them for its record. -/
def weight (q : Pc C) (tr : Option C) (c : C) : Nat := (owned q).count c + if tr = some c then 1 else 0

structure Inv (rank : C → Nat) (indirect : C → Bool) (base : C → Nat) (s : State C T) : Prop where
  excl : ∀ {t u c m m'}, t ≠ u → (c, m) ∈ held (s.pc t) → (c, m') ∈ held (s.pc u) → m = .shared ∧ m' = .shared
  up : ∀ {c p}, s.topo.parent c = some p → rank p < rank c
  into : ∀ {c}, s.topo.deleted c = true → ∃ p, s.topo.into c = some p ∧ rank p < rank c
  kept : ∀ {c}, s.topo.deleted c = false → indirect c = true → s.topo.parent c ≠ none
  place : ∀ t, Place rank s.topo (s.track t) (s.spin t) (s.pc t)
  orphan : ∀ {d c}, s.topo.parent d = some c → s.topo.deleted c = true → ∃ t, works (s.pc t) = some c
  target : ∀ {t c}, s.track t = some c → s.topo.deleted c = true → ∃ u, clears (s.pc u) = some c
  mem : ∀ {t c}, t ∈ s.list c ↔ listed (s.pc t) = true ∧ s.track t = some c
  nodup : ∀ c, (s.list c).Nodup
  refs : ∀ c, s.refs c = base c + ∑ t, weight (s.pc t) (s.track t) c

variable {rank : C → Nat} {indirect : C → Bool} {base : C → Nat} {s s' : State C T} {t : T}

omit [DecidableEq C] [DecidableEq T] [Fintype T] in
/-- A thread keeps what it has locked, or takes what is free. -/
theorem excl_next (h : ∀ {t u c m m'}, t ≠ u → (c, m) ∈ held (s.pc t) → (c, m') ∈ held (s.pc u) →
      m = .shared ∧ m' = .shared)
    (hpc : ∀ u, u ≠ t → s'.pc u = s.pc u)
    (hheld : ∀ c m, (c, m) ∈ held (s'.pc t) → (c, m) ∈ held (s.pc t) ∨ Avail s c m) :
    ∀ {v u c m m'}, v ≠ u → (c, m) ∈ held (s'.pc v) → (c, m') ∈ held (s'.pc u) → m = .shared ∧ m' = .shared := by
  -- The thread against another one.
  have hone : ∀ {u c m m'}, u ≠ t → (c, m) ∈ held (s'.pc t) → (c, m') ∈ held (s.pc u) →
      m = .shared ∧ m' = .shared := by
    intro u c m m' hu hm hm'
    rcases hheld c m hm with hold | havail
    · exact h hu.symm hold hm'
    · exact havail u (c, m') hm' rfl
  intro v u c m m' hne hm hm'
  by_cases hv : v = t
  · subst hv
    rw [hpc u hne.symm] at hm'
    exact hone hne.symm hm hm'
  · by_cases hu : u = t
    · subst hu
      rw [hpc v hv] at hm
      exact (hone hv hm' hm).symm
    · rw [hpc v hv] at hm
      rw [hpc u hu] at hm'
      exact h hne hm hm'

/-- The sum over the threads when one of them changes. -/
theorem sum_change {f g : T → Nat} (t : T) (h : ∀ u, u ≠ t → g u = f u) :
    ∑ u, g u + f t = ∑ u, f u + g t := by
  have hrest : ∑ u ∈ Finset.univ.erase t, g u = ∑ u ∈ Finset.univ.erase t, f u :=
    Finset.sum_congr rfl fun u hu => h u (Finset.mem_erase.mp hu).1
  rw [← Finset.sum_erase_add _ g (Finset.mem_univ t), ← Finset.sum_erase_add _ f (Finset.mem_univ t), hrest]
  omega

omit [DecidableEq T] [Fintype T] in
theorem ref_refs (s : State C T) (p c : C) : (s.ref p).refs c = s.refs c + if p = c then 1 else 0 := by
  show Function.update s.refs p (s.refs p + 1) c = _
  by_cases hc : p = c
  · subst hc
    rw [Function.update_self, if_pos rfl]
  · rw [Function.update_of_ne (Ne.symm hc), if_neg hc, Nat.add_zero]

omit [DecidableEq T] [Fintype T] in
theorem drop_refs {p : C} (hpos : 0 < s.refs p) (c : C) :
    (s.drop p).refs c + (if p = c then 1 else 0) = s.refs c := by
  show Function.update s.refs p (s.refs p - 1) c + _ = _
  by_cases hc : p = c
  · subst hc
    rw [Function.update_self, if_pos rfl]
    exact Nat.sub_add_cancel hpos
  · rw [Function.update_of_ne (Ne.symm hc), if_neg hc, Nat.add_zero]

omit [DecidableEq T] in
/-- What a thread has a reference to is there. -/
theorem Inv.refs_pos (h : Inv rank indirect base s) {p : C} (hp : p ∈ owned (s.pc t) ∨ s.track t = some p) :
    0 < s.refs p := by
  have hw : 0 < weight (s.pc t) (s.track t) p := by
    unfold weight
    rcases hp with hp | hp
    · exact Nat.add_pos_left (List.count_pos_iff.mpr hp) _
    · rw [if_pos hp]
      exact Nat.succ_pos _
  have hle := Finset.single_le_sum (f := fun u => weight (s.pc u) (s.track u) p) (fun _ _ => Nat.zero_le _)
    (Finset.mem_univ t)
  have hrefs := h.refs p
  omega

/-- Only the thread `t` is somewhere else, and only its record may have changed. -/
structure Only (t : T) (s s' : State C T) : Prop where
  pc : ∀ u, u ≠ t → s'.pc u = s.pc u
  track : ∀ u, u ≠ t → s'.track u = s.track u
  spin : ∀ u, u ≠ t → s'.spin u = s.spin u

theorem Inv.refs_next (h : Inv rank indirect base s) (ho : Only t s s')
    (hrefs : ∀ c, s'.refs c + weight (s.pc t) (s.track t) c = s.refs c + weight (s'.pc t) (s'.track t) c) (c : C) :
    s'.refs c = base c + ∑ u, weight (s'.pc u) (s'.track u) c := by
  have hsum := @sum_change T _ _ (fun u => weight (s.pc u) (s.track u) c)
    (fun u => weight (s'.pc u) (s'.track u) c) t fun u hu => by rw [ho.pc u hu, ho.track u hu]
  have hold := h.refs c
  have hnew := hrefs c
  omega

omit [DecidableEq T] in
/-- No other thread has locked what `t` has for itself. -/
theorem Inv.apart (h : Inv rank indirect base s) {u : T} {c : C} {m : Mode} (hu : u ≠ t)
    (hc : (c, .ex) ∈ held (s.pc t)) : (c, m) ∉ held (s.pc u) :=
  fun hm => Mode.noConfusion (h.excl hu.symm hc hm).1

/-- **A step that leaves the tree alone.**  The obligations are about the thread that takes it. -/
theorem Inv.own (h : Inv rank indirect base s) {p q : Pc C} {tr : Option C} {sp : Bool} {r : C → Nat}
    {l : C → List T} (hpc : s.pc t = p)
    (hheld : ∀ c m, (c, m) ∈ held q → (c, m) ∈ held p ∨ Avail s c m) (hplace : Place rank s.topo tr sp q)
    (hworks : ∀ c, works p = some c → works q = some c ∨ Childless s c)
    (hclears : ∀ c, clears p = some c → clears q = some c ∨ tr ≠ some c ∧ ∀ u, u ≠ t → s.track u ≠ some c)
    (htarget : ∀ c, tr = some c → s.track t = some c ∨ ∃ d, s.topo.parent d = some c)
    (hself : ∀ c, t ∈ l c ↔ listed q = true ∧ tr = some c) (hothers : ∀ u, u ≠ t → ∀ c, u ∈ l c ↔ u ∈ s.list c)
    (hnodup : ∀ c, (l c).Nodup) (hrefs : ∀ c, r c + weight p (s.track t) c = s.refs c + weight q tr c) :
    Inv rank indirect base ⟨s.topo, r, l, Function.update s.track t tr, Function.update s.spin t sp,
      Function.update s.pc t q⟩ := by
  subst hpc
  have hpc : ∀ {u}, u ≠ t → Function.update s.pc t q u = s.pc u := fun hu => Function.update_of_ne hu ..
  have htrack : ∀ {u}, u ≠ t → Function.update s.track t tr u = s.track u := fun hu => Function.update_of_ne hu ..
  have hnew : Function.update s.pc t q t = q := Function.update_self ..
  have hrecord : Function.update s.track t tr t = tr := Function.update_self ..
  refine ⟨?_, h.up, h.into, h.kept, ?_, ?_, ?_, ?_, hnodup, ?_⟩
  · refine @excl_next _ _ s ⟨s.topo, r, l, _, _, _⟩ t h.excl (fun u hu => hpc hu) fun c m hm => hheld c m ?_
    rw [← hnew]
    exact hm
  · intro u
    show Place rank s.topo (Function.update s.track t tr u) (Function.update s.spin t sp u) (Function.update s.pc t q u)
    by_cases hu : u = t
    · subst hu
      rw [hnew, hrecord, Function.update_self]
      exact hplace
    · rw [hpc hu, htrack hu, Function.update_of_ne hu]
      exact h.place u
  · intro d c hd hc
    obtain ⟨u, hu⟩ := h.orphan hd hc
    by_cases hut : u = t
    · subst hut
      rcases hworks c hu with hw | hw
      · exact ⟨u, (congrArg works hnew).trans hw⟩
      · exact absurd hd (hw d)
    · exact ⟨u, (congrArg works (hpc hut)).trans hu⟩
  · intro u c hu hc
    have hu' : Function.update s.track t tr u = some c := hu
    have hbusy : ∃ v, clears (s.pc v) = some c := by
      by_cases hut : u = t
      · subst hut
        rcases htarget c (hrecord.symm.trans hu') with hold | ⟨d, hd⟩
        · exact h.target hold hc
        · obtain ⟨v, hv⟩ := h.orphan hd hc
          exact ⟨v, clears_of_works hv⟩
      · exact h.target ((htrack hut).symm.trans hu') hc
    obtain ⟨v, hv⟩ := hbusy
    by_cases hvt : v = t
    · subst hvt
      rcases hclears c hv with hw | ⟨hne, hrest⟩
      · exact ⟨v, (congrArg clears hnew).trans hw⟩
      · by_cases hut : u = v
        · subst hut
          exact absurd (hrecord.symm.trans hu') hne
        · exact absurd ((htrack hut).symm.trans hu') (hrest u hut)
    · exact ⟨v, (congrArg clears (hpc hvt)).trans hv⟩
  · intro u c
    show u ∈ l c ↔ listed (Function.update s.pc t q u) = true ∧ Function.update s.track t tr u = some c
    by_cases hu : u = t
    · subst hu
      rw [hnew, hrecord]
      exact hself c
    · rw [hpc hu, htrack hu, hothers u hu, h.mem]
  · refine @Inv.refs_next _ _ _ _ _ rank indirect base s ⟨s.topo, r, l, _, _, _⟩ t h
      ⟨fun u hu => hpc hu, fun u hu => htrack hu, fun u hu => Function.update_of_ne hu ..⟩ fun c => ?_
    show r c + _ = s.refs c + weight (Function.update s.pc t q t) (Function.update s.track t tr t) c
    rw [hnew, hrecord]
    exact hrefs c

/-- A step that leaves the records alone, too. -/
theorem Inv.plain (h : Inv rank indirect base s) {p q : Pc C} {s₁ : State C T} (hpc : s.pc t = p)
    (hsame : s₁.topo = s.topo ∧ s₁.pc = s.pc ∧ s₁.track = s.track ∧ s₁.spin = s.spin ∧ s₁.list = s.list)
    (hheld : ∀ c m, (c, m) ∈ held q → (c, m) ∈ held p ∨ Avail s c m)
    (hplace : Place rank s.topo (s.track t) (s.spin t) p → Place rank s.topo (s.track t) (s.spin t) q)
    (hworks : ∀ c, works p = some c → works q = some c ∨ Childless s c)
    (hclears : ∀ c, clears p = some c → clears q = some c ∨ ∀ u, s.track u ≠ some c) (hlisted : listed q = listed p)
    (hrefs : ∀ c, s₁.refs c + (owned p).count c = s.refs c + (owned q).count c) :
    Inv rank indirect base (s₁.goto t q) := by
  obtain ⟨htopo, hpc₁, htrack, hspin, hlist⟩ := hsame
  have hstate : s₁.goto t q = ⟨s.topo, s₁.refs, s.list, Function.update s.track t (s.track t),
      Function.update s.spin t (s.spin t), Function.update s.pc t q⟩ := by
    rw [Function.update_eq_self, Function.update_eq_self, ← htopo, ← hlist, ← htrack, ← hspin, ← hpc₁]
    rfl
  rw [hstate]
  refine h.own hpc hheld (hplace (hpc ▸ h.place t)) hworks ?_ (fun c hc => .inl hc) ?_ (fun _ _ _ => Iff.rfl)
    h.nodup fun c => ?_
  · exact fun c hc => (hclears c hc).imp_right fun hnone => ⟨hnone t, fun u _ => hnone u⟩
  · intro c
    rw [h.mem, hpc, hlisted]
  · have hc := hrefs c
    unfold weight
    omega

/-- **A step that changes the tree** where the thread has it locked for itself. -/
theorem Inv.retopo (h : Inv rank indirect base s) {p q : Pc C} {s₁ : State C T} (hpc : s.pc t = p)
    (hsame : s₁.pc = s.pc ∧ s₁.track = s.track ∧ s₁.spin = s.spin ∧ s₁.list = s.list)
    (hgrows : Grows s.topo s₁.topo) (hlocal : ∀ c, (c, .ex) ∉ held p → Same s.topo s₁.topo c)
    (hchild : ∀ d c, s₁.topo.parent d = some c → s.topo.parent d = some c ∨ (c, .ex) ∈ held p)
    (hup : ∀ {c p}, s₁.topo.parent c = some p → rank p < rank c)
    (hinto : ∀ {c}, s₁.topo.deleted c = true → ∃ p, s₁.topo.into c = some p ∧ rank p < rank c)
    (hkept : ∀ {c}, s₁.topo.deleted c = false → indirect c = true → s₁.topo.parent c ≠ none)
    (hheld : ∀ c m, (c, m) ∈ held q → (c, m) ∈ held p)
    (hplace : Place rank s₁.topo (s.track t) (s.spin t) q)
    (horphan : ∀ {d c}, s₁.topo.parent d = some c → s₁.topo.deleted c = true →
      works q = some c ∨ ∃ u, u ≠ t ∧ works (s.pc u) = some c)
    (htarget : ∀ {u c}, s.track u = some c → s₁.topo.deleted c = true →
      clears q = some c ∨ ∃ v, v ≠ t ∧ clears (s.pc v) = some c)
    (hlisted : listed q = listed p) (hrefs : ∀ c, s₁.refs c + (owned p).count c = s.refs c + (owned q).count c) :
    Inv rank indirect base (s₁.goto t q) := by
  obtain ⟨hpc₁, htrack, hspin, hlist⟩ := hsame
  have hself : (s₁.goto t q).pc t = q := Function.update_self ..
  have hother : ∀ u, u ≠ t → (s₁.goto t q).pc u = s.pc u := fun u hu => by
    rw [← hpc₁]
    exact Function.update_of_ne hu ..
  have ho : Only t s (s₁.goto t q) := ⟨hother, fun u _ => congrFun htrack u, fun u _ => congrFun hspin u⟩
  refine ⟨excl_next h.excl hother ?_, hup, hinto, hkept, ?_, ?_, ?_, ?_, ?_, h.refs_next ho ?_⟩
  · rw [hself, hpc]
    exact fun c m hm => .inl (hheld c m hm)
  · intro u
    show Place rank s₁.topo (s₁.track u) (s₁.spin u) _
    rw [htrack, hspin]
    by_cases hu : u = t
    · subst hu
      rw [hself]
      exact hplace
    · rw [hother u hu]
      refine (h.place u).frame hgrows (fun c m hm => hlocal c fun hc => ?_) fun c hm d hd => ?_
      · exact h.apart hu (hpc ▸ hc) hm
      · rcases hchild d c hd with hold | hc
        · exact hold
        · exact absurd hm (h.apart hu (hpc ▸ hc))
  · intro d c hd hc
    rcases horphan hd hc with hw | ⟨u, hu, hw⟩
    · exact ⟨t, (congrArg works hself).trans hw⟩
    · exact ⟨u, (congrArg works (hother u hu)).trans hw⟩
  · intro u c hu hc
    rcases htarget ((congrFun htrack u).symm.trans hu) hc with hw | ⟨v, hv, hw⟩
    · exact ⟨t, (congrArg clears hself).trans hw⟩
    · exact ⟨v, (congrArg clears (hother v hv)).trans hw⟩
  · intro u c
    show u ∈ s₁.list c ↔ _ ∧ s₁.track u = some c
    rw [hlist, htrack, h.mem]
    by_cases hu : u = t
    · subst hu
      rw [hself, hpc, hlisted]
    · rw [hother u hu]
  · intro c
    show (s₁.list c).Nodup
    rw [hlist]
    exact h.nodup c
  · intro c
    have hc := hrefs c
    rw [hself, hpc]
    show s₁.refs c + _ = s.refs c + weight q (s₁.track t) c
    rw [htrack]
    unfold weight
    omega

/-- The deletion of a block, before its children are moved or without any. -/
theorem Inv.delete (h : Inv rank indirect base s) {p c : C} {q : Pc C} (hpc : s.pc t = .flush p c)
    (hq : q = .moving p c ∨ (q = .repchange p c ∧ Childless s c)) :
    Inv rank indirect base ((s.delete c).goto t q) := by
  have hplace := h.place t
  rw [hpc] at hplace
  obtain ⟨htr, hp, hc, hpar⟩ := hplace
  have hrank := h.up hpar
  have hpc' : p ≠ c := fun he => absurd hrank (he ▸ Nat.lt_irrefl _)
  have hparent : ∀ {d x}, (s.delete c).topo.parent d = some x → d ≠ c ∧ s.topo.parent d = some x := by
    intro d x hd
    by_cases hdc : d = c
    · subst hdc
      rw [show (s.delete d).topo.parent d = none from Function.update_self ..] at hd
      cases hd
    · exact ⟨hdc, by rwa [show (s.delete c).topo.parent d = s.topo.parent d from Function.update_of_ne hdc ..] at hd⟩
  have hdeleted : ∀ {x}, x ≠ c → (s.delete c).topo.deleted x = s.topo.deleted x :=
    fun hx => Function.update_of_ne hx ..
  have hinto : ∀ {x}, x ≠ c → (s.delete c).topo.into x = s.topo.into x := fun hx => Function.update_of_ne hx ..
  have hheld : held q = held (.flush p c) ∧ owned q = owned (.flush p c) ∧ listed q = false ∧ clears q = some c := by
    rcases hq with rfl | ⟨rfl, -⟩ <;> exact ⟨rfl, rfl, rfl, rfl⟩
  refine h.retopo hpc ⟨rfl, rfl, rfl, rfl⟩ ?_ ?_ ?_ ?_ ?_ ?_ ?_ ?_ ?_ ?_ hheld.2.2.1 fun x => by rw [hheld.2.1]; rfl
  · intro x hx
    have hxc : x ≠ c := fun he => by rw [he, hc] at hx; cases hx
    exact ⟨(hdeleted hxc).trans hx, hinto hxc⟩
  · intro x hx
    have hxc : x ≠ c := fun he => hx (by simp [held, he])
    exact ⟨Function.update_of_ne hxc .., hdeleted hxc, hinto hxc⟩
  · exact fun d x hd => .inl (hparent hd).2
  · exact fun hx => h.up (hparent hx).2
  · intro x hx
    by_cases hxc : x = c
    · subst hxc
      exact ⟨p, (Function.update_self ..).trans hpar, hrank⟩
    · rw [hinto hxc]
      exact h.into ((hdeleted hxc).symm.trans hx)
  · intro x hx hi
    by_cases hxc : x = c
    · subst hxc
      rw [show (s.delete x).topo.deleted x = true from Function.update_self ..] at hx
      cases hx
    · rw [show (s.delete c).topo.parent x = s.topo.parent x from Function.update_of_ne hxc ..]
      exact h.kept ((hdeleted hxc).symm.trans hx) hi
  · rw [hheld.1]
    exact fun _ _ hm => hm
  · rcases hq with rfl | ⟨rfl, hnone⟩
    · exact ⟨htr, (hdeleted hpc').trans hp, hrank⟩
    · exact ⟨htr, (hdeleted hpc').trans hp, hrank, fun d hd => hnone d (hparent hd).2⟩
  · intro d x hd hx
    obtain ⟨-, hd'⟩ := hparent hd
    by_cases hxc : x = c
    · subst hxc
      rcases hq with rfl | ⟨rfl, hnone⟩
      · exact .inl rfl
      · exact absurd hd' (hnone d)
    · obtain ⟨u, hu⟩ := h.orphan hd' ((hdeleted hxc).symm.trans hx)
      refine .inr ⟨u, fun he => ?_, hu⟩
      rw [he, hpc] at hu
      cases hu
  · intro u x hu hx
    by_cases hxc : x = c
    · subst hxc
      exact .inl hheld.2.2.2
    · obtain ⟨v, hv⟩ := h.target hu ((hdeleted hxc).symm.trans hx)
      refine .inr ⟨v, fun he => ?_, hv⟩
      rw [he, hpc] at hv
      cases hv

/-- A child goes to the parent of the deleted block. -/
theorem Inv.moved (h : Inv rank indirect base s) {p c d : C} (hpc : s.pc t = .movingSub p c d) :
    Inv rank indirect base (((s.move d p).drop d).goto t (.moving p c)) := by
  have hplace := h.place t
  rw [hpc] at hplace
  obtain ⟨htr, hp, hrank, hpar⟩ := hplace
  have hdrank := h.up hpar
  have hparent : ∀ {x y}, (s.move d p).topo.parent x = some y → (x = d ∧ y = p) ∨ s.topo.parent x = some y := by
    intro x y hx
    by_cases hxd : x = d
    · subst hxd
      rw [show (s.move x p).topo.parent x = some p from Function.update_self ..] at hx
      exact .inl ⟨rfl, (Option.some.inj hx).symm⟩
    · rw [show (s.move d p).topo.parent x = s.topo.parent x from Function.update_of_ne hxd ..] at hx
      exact .inr hx
  have hrefs := drop_refs (h.refs_pos (t := t) (.inl (by rw [hpc]; simp [owned] : d ∈ owned (s.pc t))))
  refine @Inv.retopo _ _ _ _ _ rank indirect base s t h _ _ ((s.move d p).drop d) hpc ⟨rfl, rfl, rfl, rfl⟩
    (Grows.refl _) ?_ ?_ ?_ h.into ?_ ?_ ⟨htr, hp, hrank⟩ ?_ ?_ rfl ?_
  · intro x hx
    have hxd : x ≠ d := fun he => hx (by simp [held, he])
    exact ⟨Function.update_of_ne hxd .., rfl, rfl⟩
  · intro x y hx
    rcases hparent hx with ⟨-, rfl⟩ | hx
    · exact .inr (by simp [held])
    · exact .inl hx
  · intro x y hx
    rcases hparent hx with ⟨rfl, rfl⟩ | hx
    · exact hrank.trans hdrank
    · exact h.up hx
  · intro x hx hi hnone
    by_cases hxd : x = d
    · subst hxd
      rw [show ((s.move x p).drop x).topo.parent x = some p from Function.update_self ..] at hnone
      cases hnone
    · rw [show ((s.move d p).drop d).topo.parent x = s.topo.parent x from Function.update_of_ne hxd ..] at hnone
      exact h.kept hx hi hnone
  · intro x m hm
    exact List.mem_of_mem_take (i := 2) hm
  · intro x y hx hy
    rcases hparent hx with ⟨-, rfl⟩ | hx
    · exact absurd hp (by rw [show s.topo.deleted y = true from hy]; decide)
    · obtain ⟨u, hu⟩ := h.orphan hx hy
      by_cases hut : u = t
      · subst hut
        rw [hpc] at hu
        exact .inl hu
      · exact .inr ⟨u, hut, hu⟩
  · intro u x hu hx
    obtain ⟨v, hv⟩ := h.target hu hx
    by_cases hvt : v = t
    · subst hvt
      rw [hpc] at hv
      exact .inl hv
    · exact .inr ⟨v, hvt, hv⟩
  · intro x
    have hx := hrefs x
    show (s.drop d).refs x + _ = _
    simp only [owned, List.count_cons, List.count_nil, beq_iff_eq] at hx ⊢
    omega

/-- The section of `hammer2_chain_repchange`: only a thread that waits for the deleted block has its
record there. -/
theorem Inv.migrated (h : Inv rank indirect base s) {p c : C} {u : T} {rest : List T}
    (hpc : s.pc t = .repchange p c) (hlist : s.list c = u :: rest) (hfree : s.spin u = false) :
    Inv rank indirect base (((s.migrate p c u rest).ref p).drop c) := by
  have hplace := h.place t
  rw [hpc] at hplace
  obtain ⟨-, hp, hrank, hnone⟩ := hplace
  have hne : p ≠ c := fun he => absurd hrank (he ▸ Nat.lt_irrefl _)
  have hmem : u ∈ s.list c := hlist ▸ List.mem_cons_self
  obtain ⟨hin, htrack⟩ := h.mem.mp hmem
  have hut : u ≠ t := fun he => by rw [he, hpc] at hin; cases hin
  have hfar : ∀ m, (c, m) ∉ held (s.pc u) := fun m => h.apart hut (by simp [hpc, held])
  have hnew : Function.update s.track u (some p) u = some p := Function.update_self ..
  have hold : ∀ {v}, v ≠ u → Function.update s.track u (some p) v = s.track v := fun hv => Function.update_of_ne hv ..
  -- The thread waits for the lock of `c`.
  have hwaits : Place rank s.topo (some p) true (s.pc u) := by
    have hu := h.place u
    rw [htrack, hfree] at hu
    cases hq : s.pc u with
    | waiting p' f o =>
        rw [hq] at hu
        obtain ⟨q, hq', hsame, -⟩ := hu
        obtain rfl := Option.some.inj hq'
        obtain ⟨rfl, rfl⟩ := hsame rfl
        exact ⟨p, rfl, nofun, fun _ => hne⟩
    | tracked c' p' m f =>
        rw [hq] at hu
        obtain ⟨hp', -, -, hpar⟩ := hu
        exact absurd (hpar.trans hp'.symm) (hnone c')
    | locked p' f o =>
        rw [hq] at hu
        obtain ⟨q, hq', hsame, -⟩ := hu
        obtain rfl := Option.some.inj hq'
        obtain ⟨rfl, rfl⟩ := hsame rfl
        exact absurd (by simp [hq, held]) (hfar f)
    | matched p' f o =>
        rw [hq] at hu
        obtain rfl := Option.some.inj hu.1
        exact absurd (by simp [hq, held]) (hfar f)
    | mismatch | reload =>
        rw [hq] at hu
        cases hu.1
    | _ =>
        rw [hq] at hin
        cases hin
  have hlists : ∀ x, (s.migrate p c u rest).list x = if x = p then u :: s.list p else if x = c then rest else s.list x := by
    intro x
    show Function.update (Function.update s.list c rest) p (u :: s.list p) x = _
    by_cases hxp : x = p
    · rw [hxp, Function.update_self, if_pos rfl]
    · rw [Function.update_of_ne hxp, if_neg hxp]
      by_cases hxc : x = c
      · rw [hxc, Function.update_self, if_pos rfl]
      · rw [Function.update_of_ne hxc, if_neg hxc]
  have hnodup := h.nodup c
  rw [hlist] at hnodup
  obtain ⟨hnotin, hrest⟩ := List.nodup_cons.mp hnodup
  refine ⟨h.excl, h.up, h.into, h.kept, ?_, h.orphan, ?_, ?_, ?_, ?_⟩
  · intro v
    show Place rank s.topo (Function.update s.track u (some p) v) (Function.update s.spin u true v) (s.pc v)
    by_cases hv : v = u
    · subst hv
      rw [hnew, Function.update_self]
      exact hwaits
    · rw [hold hv, Function.update_of_ne hv]
      exact h.place v
  · intro v x hv hx
    have hv' : Function.update s.track u (some p) v = some x := hv
    by_cases hvu : v = u
    · subst hvu
      rw [hnew] at hv'
      obtain rfl := Option.some.inj hv'
      exact absurd hp (by rw [show s.topo.deleted p = true from hx]; decide)
    · rw [hold hvu] at hv'
      exact h.target hv' hx
  · intro v x
    show v ∈ (s.migrate p c u rest).list x ↔ listed (s.pc v) = true ∧ Function.update s.track u (some p) v = some x
    rw [hlists]
    by_cases hv : v = u
    · subst hv
      rw [hnew]
      by_cases hxp : x = p
      · subst hxp
        rw [if_pos rfl]
        exact ⟨fun _ => ⟨hin, rfl⟩, fun _ => List.mem_cons_self⟩
      · rw [if_neg hxp]
        refine ⟨fun hx => ?_, fun hx => absurd (Option.some.inj hx.2).symm hxp⟩
        split at hx
        · exact absurd hx hnotin
        · rename_i hxc
          have hx' := (h.mem.mp hx).2
          rw [htrack] at hx'
          exact absurd (Option.some.inj hx').symm hxc
    · rw [hold hv, ← h.mem]
      split
      · rename_i hxp
        rw [hxp]
        exact ⟨fun hx => (List.mem_cons.mp hx).resolve_left hv, List.mem_cons_of_mem u⟩
      · split
        · rename_i hxc
          rw [hxc, hlist]
          exact ⟨List.mem_cons_of_mem u, fun hx => (List.mem_cons.mp hx).resolve_left hv⟩
        · exact Iff.rfl
  · intro x
    show ((s.migrate p c u rest).list x).Nodup
    rw [hlists]
    split
    · refine List.nodup_cons.mpr ⟨fun hx => ?_, h.nodup p⟩
      have hx' := (h.mem.mp hx).2
      rw [htrack] at hx'
      exact hne (Option.some.inj hx').symm
    · split
      · exact hrest
      · exact h.nodup x
  · intro x
    show (((s.migrate p c u rest).ref p).drop c).refs x =
      base x + ∑ v, weight (s.pc v) (Function.update s.track u (some p) v) x
    have hpos : 0 < ((s.migrate p c u rest).ref p).refs c := by
      rw [ref_refs]
      exact Nat.add_pos_left (h.refs_pos (t := u) (.inr htrack)) _
    have hdrop := drop_refs hpos x
    rw [ref_refs] at hdrop
    have hsum := @sum_change T _ _ (fun v => weight (s.pc v) (s.track v) x)
      (fun v => weight (s.pc v) (Function.update s.track u (some p) v) x) u fun v hv => by rw [hold hv]
    have hrefs := h.refs x
    simp only [hnew, htrack, weight, Option.some.injEq] at hsum hrefs ⊢
    have hsrc : (s.migrate p c u rest).refs x = s.refs x := rfl
    omega

omit [DecidableEq T] [Fintype T] in
/-- A thread takes a reference to `p`. -/
theorem ref_owned {q q' : Pc C} {p : C} (h : (owned q').Perm (p :: owned q)) (c : C) :
    (s.ref p).refs c + (owned q).count c = s.refs c + (owned q').count c := by
  rw [ref_refs, h.count_eq, List.count_cons]
  simp only [beq_iff_eq]
  omega

omit [DecidableEq T] in
/-- A thread drops its reference to `p`. -/
theorem Inv.drop_owned (h : Inv rank indirect base s) {q q' : Pc C} {p : C} (hpc : s.pc t = q)
    (hq : (owned q).Perm (p :: owned q')) (c : C) :
    (s.drop p).refs c + (owned q).count c = s.refs c + (owned q').count c := by
  have hpos : 0 < s.refs p := h.refs_pos (t := t) (.inl (hpc ▸ hq.mem_iff.mpr List.mem_cons_self))
  have hdrop := drop_refs hpos c
  rw [hq.count_eq, List.count_cons]
  simp only [beq_iff_eq]
  omega

/-- The record is set up for the parent. -/
theorem Inv.inited (h : Inv rank indirect base s) {c p : C} {m f : Mode} (hpc : s.pc t = .failed c p m f) :
    Inv rank indirect base { (s.ref p).goto t (.inited c p m f) with
      track := Function.update s.track t (some p)
      spin := Function.update s.spin t false } := by
  have hplace := h.place t
  rw [hpc] at hplace
  obtain ⟨htr, hc, hpar⟩ := hplace
  refine @Inv.own _ _ _ _ _ rank indirect base s t h _ _ (some p) false (s.ref p).refs s.list hpc
    (fun _ _ hm => .inl hm) ⟨rfl, rfl, hc, hpar⟩ nofun nofun ?_ ?_ (fun _ _ _ => Iff.rfl) h.nodup ?_
  · intro x hx
    obtain rfl := Option.some.inj hx
    exact .inr ⟨c, hpar⟩
  · intro x
    rw [h.mem, hpc]
    exact ⟨fun hx => Bool.noConfusion hx.1, fun hx => Bool.noConfusion hx.1⟩
  · intro x
    rw [htr, ref_refs]
    simp only [weight, owned, Option.some.injEq, reduceCtorEq, if_false]
    omega

/-- The record goes on the list of the parent. -/
theorem Inv.tracked (h : Inv rank indirect base s) {c p : C} {m f : Mode} (hpc : s.pc t = .inited c p m f) :
    Inv rank indirect base { s.goto t (.tracked c p m f) with
      list := Function.update s.list p (t :: s.list p) } := by
  have hplace := h.place t
  rw [hpc] at hplace
  have hnew : ∀ x, t ∉ s.list x := fun x hx => by
    have hin := (h.mem.mp hx).1
    rw [hpc] at hin
    cases hin
  have hown := @Inv.own _ _ _ _ _ rank indirect base s t h _ (.tracked c p m f) (s.track t) (s.spin t) s.refs
    (Function.update s.list p (t :: s.list p)) hpc (fun _ _ hm => .inl hm) hplace nofun nofun (fun _ hx => .inl hx)
    ?_ ?_ ?_ fun _ => rfl
  · rw [Function.update_eq_self, Function.update_eq_self] at hown
    exact hown
  · intro x
    rw [hplace.1]
    by_cases hx : x = p
    · rw [hx, Function.update_self]
      exact ⟨fun _ => ⟨rfl, rfl⟩, fun _ => List.mem_cons_self⟩
    · rw [Function.update_of_ne hx]
      exact ⟨fun ht => absurd ht (hnew x), fun ht => absurd (Option.some.inj ht.2).symm hx⟩
  · intro u hu x
    by_cases hx : x = p
    · rw [hx, Function.update_self]
      exact ⟨fun hm => (List.mem_cons.mp hm).resolve_left hu, List.mem_cons_of_mem t⟩
    · rw [Function.update_of_ne hx]
  · intro x
    by_cases hx : x = p
    · rw [hx, Function.update_self]
      exact List.nodup_cons.mpr ⟨hnew p, h.nodup p⟩
    · rw [Function.update_of_ne hx]
      exact h.nodup x

/-- The record leaves the list. -/
theorem Inv.unlinked (h : Inv rank indirect base s) {p o : C} {f : Mode} (hpc : s.pc t = .matched p f o) :
    Inv rank indirect base { s.goto t (.unlinked p f o) with
      list := Function.update s.list p ((s.list p).erase t) } := by
  have hplace := h.place t
  rw [hpc] at hplace
  have hown := @Inv.own _ _ _ _ _ rank indirect base s t h _ (.unlinked p f o) (s.track t) (s.spin t) s.refs
    (Function.update s.list p ((s.list p).erase t)) hpc (fun _ _ hm => .inl hm) hplace nofun nofun
    (fun _ hx => .inl hx) ?_ ?_ ?_ fun _ => rfl
  · rw [Function.update_eq_self, Function.update_eq_self] at hown
    exact hown
  · intro x
    refine ⟨fun ht => ?_, fun ht => Bool.noConfusion ht.1⟩
    by_cases hx : x = p
    · rw [hx, Function.update_self] at ht
      exact absurd ht (h.nodup p).not_mem_erase
    · rw [Function.update_of_ne hx, h.mem, hplace.1] at ht
      exact absurd (Option.some.inj ht.2).symm hx
  · intro u hu x
    by_cases hx : x = p
    · rw [hx, Function.update_self]
      exact List.mem_erase_of_ne hu
    · rw [Function.update_of_ne hx]
  · intro x
    by_cases hx : x = p
    · rw [hx, Function.update_self]
      exact (h.nodup p).erase t
    · rw [Function.update_of_ne hx]
      exact h.nodup x

/-- The call returns: as the thread has the lock, no other one takes the parent out. -/
theorem Inv.returned (h : Inv rank indirect base s) {p o : C} {f : Mode} (hpc : s.pc t = .unlinked p f o) :
    Inv rank indirect base { (s.drop p).goto t (.walk p f (some o)) with
      track := Function.update s.track t none } := by
  have hplace := h.place t
  rw [hpc] at hplace
  obtain ⟨htr, hsp, rfl⟩ := hplace
  have hp : s.topo.deleted o = false := by
    by_contra hdel
    obtain ⟨u, hu⟩ := h.target htr (Bool.eq_true_of_not_eq_false hdel)
    have hut : t ≠ u := fun he => by rw [← he, hpc] at hu; cases hu
    exact h.apart hut (held_of_clears hu) (by simp [hpc, held] : (o, f) ∈ held (s.pc t))
  have hown := @Inv.own _ _ _ _ _ rank indirect base s t h _ (.walk o f (some o)) none (s.spin t) (s.drop o).refs
    s.list hpc (fun _ _ hm => .inl hm)
    ⟨rfl, hp, fun p' hp' => by rw [← Option.some.inj hp']; exact .here hp⟩ nofun nofun nofun ?_
    (fun _ _ _ => Iff.rfl) h.nodup ?_
  · rw [Function.update_eq_self] at hown
    exact hown
  · intro x
    rw [h.mem, hpc]
    exact ⟨fun hx => Bool.noConfusion hx.1, fun hx => Bool.noConfusion hx.1⟩
  · intro x
    have hdrop := drop_refs (h.refs_pos (t := t) (.inr htr)) x
    rw [htr]
    simp only [weight, owned, Option.some.injEq, reduceCtorEq, if_false]
    omega

/-- `hammer2_chain_repparent` -/
theorem repparent_inv (h : Inv rank indirect base s) {a : Act C}
    (hs : repparent indirect s t (s.pc t) a = some s') : Inv rank indirect base s' := by
  have hplace := h.place t
  unfold repparent at hs
  split at hs
  · -- a thread begins at a chain
    rename_i c m hpc
    split at hs
    · rename_i hfree
      obtain rfl := Option.some.inj hs
      refine h.plain hpc ⟨rfl, rfl, rfl, rfl, rfl⟩ ?_ ?_ nofun nofun rfl (ref_owned (.refl _))
      · intro d m' hd
        obtain ⟨rfl, rfl⟩ := Prod.mk.inj (List.mem_singleton.mp hd)
        exact .inr hfree.2
      · exact fun htr => ⟨htr, hfree.1, nofun⟩
    · cases hs
  · rename_i c m o hpc
    obtain rfl := Option.some.inj hs
    exact h.plain hpc ⟨rfl, rfl, rfl, rfl, rfl⟩ nofun (fun hp => hp.1) nofun nofun rfl
      (h.drop_owned hpc (.refl _))
  · -- the parent is referenced
    rename_i c m o f hpc
    split at hs
    · split at hs
      · cases hs
      · rename_i p hpar
        obtain rfl := Option.some.inj hs
        exact h.plain hpc ⟨rfl, rfl, rfl, rfl, rfl⟩ (fun _ _ hm => .inl hm)
          (fun hp => ⟨hp.1, hp.2.1, hpar⟩) nofun nofun rfl (ref_owned (.swap ..))
    · cases hs
  · rename_i c p m f ok hpc
    split at hs
    · split at hs
      · rename_i hfree
        obtain rfl := Option.some.inj hs
        refine h.plain hpc ⟨rfl, rfl, rfl, rfl, rfl⟩ ?_ id nofun nofun rfl fun _ => rfl
        intro d m' hd
        rcases List.mem_cons.mp hd with heq | hd
        · exact .inl (List.mem_singleton.mpr heq)
        · obtain ⟨rfl, rfl⟩ := Prod.mk.inj (List.mem_singleton.mp hd)
          exact .inr hfree
      · cases hs
    · obtain rfl := Option.some.inj hs
      exact h.plain hpc ⟨rfl, rfl, rfl, rfl, rfl⟩ (fun _ _ hm => .inl hm) id nofun nofun rfl fun _ => rfl
  · -- the parent was locked without waiting
    rename_i c p m f hpc
    obtain rfl := Option.some.inj hs
    refine h.plain hpc ⟨rfl, rfl, rfl, rfl, rfl⟩ (fun _ _ hm => .inl (List.mem_cons_of_mem _ hm)) ?_ nofun nofun
      rfl (h.drop_owned hpc (.refl _))
    rintro ⟨htr, -, hpar⟩
    have hp : s.topo.deleted p = false := by
      by_contra hdel
      obtain ⟨u, hu⟩ := h.orphan hpar (Bool.eq_true_of_not_eq_false hdel)
      have hut : t ≠ u := fun he => by rw [← he, hpc] at hu; cases hu
      exact h.apart hut (held_of_clears (clears_of_works hu)) (by simp [hpc, held] : (p, f) ∈ held (s.pc t))
    exact ⟨htr, hp, fun p' hp' => by rw [← Option.some.inj hp']; exact .here hp⟩
  · rename_i c p m f hpc
    obtain rfl := Option.some.inj hs
    exact h.inited hpc
  · rename_i c p m f hpc
    obtain rfl := Option.some.inj hs
    exact h.tracked hpc
  · -- the chain is let go
    rename_i c p m f hpc
    obtain rfl := Option.some.inj hs
    refine h.plain hpc ⟨rfl, rfl, rfl, rfl, rfl⟩ nofun ?_ nofun nofun rfl (h.drop_owned hpc (.refl _))
    rintro ⟨htr, hsp, -, -⟩
    exact ⟨p, htr, fun _ => ⟨rfl, rfl⟩, fun hmoved => absurd (hsp.symm.trans hmoved) (by decide)⟩
  · -- the wait for the lock of the parent is over
    rename_i p f o hpc
    split at hs
    · rename_i hfree
      obtain rfl := Option.some.inj hs
      refine h.plain hpc ⟨rfl, rfl, rfl, rfl, rfl⟩ ?_ id nofun nofun rfl fun _ => rfl
      intro d m hd
      obtain ⟨rfl, rfl⟩ := Prod.mk.inj (List.mem_singleton.mp hd)
      exact .inr hfree
    · cases hs
  · -- is the record still for this chain?
    rename_i p f o hpc
    split at hs
    · rename_i heq
      obtain rfl := Option.some.inj hs
      refine h.plain hpc ⟨rfl, rfl, rfl, rfl, rfl⟩ (fun _ _ hm => .inl hm) ?_ nofun nofun rfl fun _ => rfl
      rintro ⟨q, hq, hstay, hmoved⟩
      obtain rfl := Option.some.inj (hq.symm.trans heq)
      have hsp : s.spin t = false := Bool.eq_false_of_not_eq_true fun hsp => hmoved hsp rfl
      exact ⟨hq, hsp, (hstay hsp).2⟩
    · rename_i hne
      obtain rfl := Option.some.inj hs
      refine h.plain hpc ⟨rfl, rfl, rfl, rfl, rfl⟩ (fun _ _ hm => .inl hm) ?_ nofun nofun rfl fun _ => rfl
      rintro ⟨q, hq, hstay, -⟩
      exact ⟨Bool.eq_true_of_not_eq_false fun hsp => hne (hq.trans (congrArg some (hstay hsp).1)), q, hq⟩
  · rename_i p f o hpc
    obtain rfl := Option.some.inj hs
    exact h.plain hpc ⟨rfl, rfl, rfl, rfl, rfl⟩ nofun id nofun nofun rfl (h.drop_owned hpc (.refl _))
  · -- a record is only read again after it was moved, and then its spinlock is held
    rename_i f o hpc
    rw [hpc] at hplace
    rw [if_pos hplace.1] at hs
    cases hs
  · rename_i p f o hpc
    split at hs
    · obtain rfl := Option.some.inj hs
      exact h.unlinked hpc
    · cases hs
  · rename_i p f o hpc
    obtain rfl := Option.some.inj hs
    exact h.returned hpc
  · cases hs

omit [DecidableEq T] in
/-- With an empty list no record is for the deleted block. -/
theorem Inv.cleared (h : Inv rank indirect base s) {p c : C} (hpc : s.pc t = .repchange p c)
    (hlist : s.list c = []) (u : T) : s.track u ≠ some c := by
  intro htr
  have hplace := h.place t
  rw [hpc] at hplace
  obtain ⟨hnone, -, -, hchild⟩ := hplace
  have hut : u ≠ t := fun he => by rw [he, hnone] at htr; cases htr
  have hunlisted : listed (s.pc u) = false := Bool.eq_false_of_not_eq_true fun hin => by
    have hmem := h.mem.mpr ⟨hin, htr⟩
    rw [hlist] at hmem
    cases hmem
  have hu := h.place u
  rw [htr] at hu
  cases hq : s.pc u with
  | inited c' p' m f =>
      rw [hq] at hu
      exact hchild c' (hu.2.2.2.trans hu.1.symm)
  | unlinked p' f o =>
      rw [hq] at hu
      obtain rfl := Option.some.inj hu.1
      exact h.apart hut (by simp [hpc, held] : (c, .ex) ∈ held (s.pc t)) (by simp [hq, held] : (c, f) ∈ held (s.pc u))
  | tracked | waiting | locked | mismatch | reload | matched =>
      rw [hq] at hunlisted
      cases hunlisted
  | idle =>
      rw [hq] at hu
      cases hu
  | _ =>
      rw [hq] at hu
      cases hu.1

/-- `hammer2_chain_indirect_maintenance` -/
theorem maintenance_inv [Fintype C] (h : Inv rank indirect base s) {a : Act C}
    (hs : maintenance indirect s t (s.pc t) a = some s') : Inv rank indirect base s' := by
  unfold maintenance at hs
  split at hs
  · -- the parent is locked
    rename_i p hpc
    split at hs
    · rename_i hfree
      obtain rfl := Option.some.inj hs
      refine h.plain hpc ⟨rfl, rfl, rfl, rfl, rfl⟩ ?_ (fun htr => ⟨htr, hfree.1⟩) nofun nofun rfl
        (ref_owned (.refl _))
      intro d m hd
      obtain ⟨rfl, rfl⟩ := Prod.mk.inj (List.mem_singleton.mp hd)
      exact .inr hfree.2
    · cases hs
  · rename_i p hpc
    obtain rfl := Option.some.inj hs
    exact h.plain hpc ⟨rfl, rfl, rfl, rfl, rfl⟩ nofun (fun hp => hp.1) nofun nofun rfl
      (h.drop_owned hpc (.refl _))
  · -- and the block
    rename_i p c hpc
    split at hs
    · rename_i hfree
      obtain ⟨hpar, hc, -, havail⟩ := hfree
      obtain rfl := Option.some.inj hs
      refine h.plain hpc ⟨rfl, rfl, rfl, rfl, rfl⟩ ?_ (fun hp => ⟨hp.1, hp.2, hc, hpar⟩) nofun nofun rfl
        (ref_owned (.swap ..))
      intro d m hd
      rcases List.mem_cons.mp hd with heq | hd
      · exact .inl (List.mem_singleton.mpr heq)
      · obtain ⟨rfl, rfl⟩ := Prod.mk.inj (List.mem_singleton.mp hd)
        exact .inr havail
    · cases hs
  · rename_i p c hpc
    obtain rfl := Option.some.inj hs
    exact h.plain hpc ⟨rfl, rfl, rfl, rfl, rfl⟩ (fun _ _ hm => .inl (List.mem_of_mem_take (i := 1) hm))
      (fun hp => ⟨hp.1, hp.2.1⟩) nofun nofun rfl (h.drop_owned hpc (.swap ..))
  · -- the block is empty
    rename_i p c ok hpc
    split at hs
    · rename_i hnone
      obtain rfl := Option.some.inj hs
      split
      · exact h.delete hpc (.inr ⟨rfl, hnone⟩)
      · exact h.plain hpc ⟨rfl, rfl, rfl, rfl, rfl⟩ (fun _ _ hm => .inl hm)
          (fun hp => ⟨hp.1, hp.2.1, h.up hp.2.2.2, hnone⟩) nofun nofun rfl fun _ => rfl
    · cases hs
  · rename_i p c hpc
    obtain rfl := Option.some.inj hs
    exact h.delete hpc (.inl rfl)
  · -- the next child is locked
    rename_i p c d hpc
    split at hs
    · rename_i hfree
      obtain rfl := Option.some.inj hs
      refine h.plain hpc ⟨rfl, rfl, rfl, rfl, rfl⟩ ?_ (fun hp => ⟨hp.1, hp.2.1, hp.2.2, hfree.1⟩)
        (fun _ hx => .inl hx) (fun _ hx => .inl hx) rfl (ref_owned ?_)
      · intro x m hx
        rcases List.mem_cons.mp hx with heq | hx
        · exact .inl (List.mem_cons.mpr (.inl heq))
        · rcases List.mem_cons.mp hx with heq | hx
          · exact .inl (List.mem_cons_of_mem _ (List.mem_singleton.mpr heq))
          · obtain ⟨rfl, rfl⟩ := Prod.mk.inj (List.mem_singleton.mp hx)
            exact .inr hfree.2
      · exact (@List.perm_append_comm _ [p, c] [d])
    · cases hs
  · rename_i p c d hpc
    obtain rfl := Option.some.inj hs
    exact h.moved hpc
  · -- no child is left
    rename_i p c hpc
    split at hs
    · rename_i hnone
      obtain rfl := Option.some.inj hs
      refine h.plain hpc ⟨rfl, rfl, rfl, rfl, rfl⟩ (fun _ _ hm => .inl hm)
        (fun hp => ⟨hp.1, hp.2.1, hp.2.2, hnone⟩) ?_ (fun _ hx => .inl hx) rfl fun _ => rfl
      intro x hx
      obtain rfl := Option.some.inj hx
      exact .inr hnone
    · cases hs
  · -- the records of the block
    rename_i p c hpc
    split at hs
    · rename_i hlist
      obtain rfl := Option.some.inj hs
      refine h.plain hpc ⟨rfl, rfl, rfl, rfl, rfl⟩ (fun _ _ hm => .inl hm) (fun hp => ⟨hp.1, hp.2.1⟩) nofun ?_ rfl
        fun _ => rfl
      intro x hx
      obtain rfl := Option.some.inj hx
      exact .inr (h.cleared hpc hlist)
    · rename_i u rest hlist
      split at hs
      · cases hs
      · rename_i hfree
        obtain rfl := Option.some.inj hs
        exact h.migrated hpc hlist (Bool.eq_false_of_not_eq_true hfree)
  · rename_i p c hpc
    obtain rfl := Option.some.inj hs
    exact h.plain hpc ⟨rfl, rfl, rfl, rfl, rfl⟩ (fun _ _ hm => .inl (List.mem_of_mem_take (i := 1) hm))
      (fun hp => ⟨hp.1, hp.2⟩) nofun nofun rfl (h.drop_owned hpc (.swap ..))
  · cases hs

/-- **Every step keeps the invariant.** -/
theorem step_inv [Fintype C] (h : Inv rank indirect base s) {e : T × Act C}
    (hs : step indirect s e = some s') : Inv rank indirect base s' := by
  unfold step at hs
  cases hr : repparent indirect s e.1 (s.pc e.1) e.2 with
  | some s₁ =>
      rw [hr] at hs
      obtain rfl := Option.some.inj hs
      exact repparent_inv h hr
  | none =>
      rw [hr] at hs
      exact maintenance_inv h hs

end

end Hammer2.Reptrack
