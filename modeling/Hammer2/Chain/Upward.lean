/-
# `Hammer2.Chain.Upward` — what a walk upwards comes to

    Start         a tree of chains, nobody in it
    Safe          what every run keeps, whatever is deleted under the threads that wait
    Good          and the record of a waiting thread can be read
    run_good_iff  a run is good as long as no record is moved, and no longer
    stuck_run     a thread whose record was moved never comes back

`hammer2_chain_repchange` takes the spinlock of the record it moves and does not release it.  The
thread the record is of takes it to learn where the record is now.
-/
import Hammer2.Chain.Collapse
import Mathlib.Data.Fintype.Pi
import Mathlib.Logic.Relation

namespace Hammer2.Reptrack

open Machine

section

variable {C T : Type} [DecidableEq C] [DecidableEq T] [Fintype C] [Fintype T]
variable {indirect : C → Bool} {base : C → Nat} {s s' s₀ : State C T} {e : T × Act C}

/-! ## The records -/

/-- What a step does to the record of `u`. -/
inductive Change (s : State C T) (e : T × Act C) (s' : State C T) (u : T) : Prop
  | same : s'.track u = s.track u → s'.spin u = s.spin u → Change s e s' u
  | begins {c p m f} : e.1 = u → s.pc u = .failed c p m f → s'.track u = some p → s'.spin u = false →
      Change s e s' u
  | ends {p f o} : e.1 = u → s.pc u = .unlinked p f o → s'.track u = none → Change s e s' u
  | moved {p c} : s.pc e.1 = .repchange p c → u ∈ s.list c → s.spin u = false → s'.track u = some p →
      s'.spin u = true → Change s e s' u

omit [Fintype C] in
theorem repparent_change {t : T} {a : Act C} (hs : repparent indirect s t (s.pc t) a = some s') (u : T) :
    Change s (t, a) s' u := by
  unfold repparent at hs
  split at hs
  case h_6 c p m f hpc =>
    obtain rfl := Option.some.inj hs
    by_cases hu : t = u
    · subst hu
      exact .begins rfl hpc (Function.update_self ..) (Function.update_self ..)
    · exact .same (Function.update_of_ne (Ne.symm hu) ..) (Function.update_of_ne (Ne.symm hu) ..)
  case h_14 p f o hpc =>
    obtain rfl := Option.some.inj hs
    by_cases hu : t = u
    · subst hu
      exact .ends rfl hpc (Function.update_self ..)
    · exact .same (Function.update_of_ne (Ne.symm hu) ..) rfl
  all_goals
    repeat' split at hs
    all_goals first
      | (obtain rfl := Option.some.inj hs; exact .same rfl rfl)
      | cases hs

theorem maintenance_change {t : T} {a : Act C} (hs : maintenance indirect s t (s.pc t) a = some s') (u : T) :
    Change s (t, a) s' u := by
  unfold maintenance at hs
  split at hs
  case h_10 p c hpc =>
    split at hs
    · obtain rfl := Option.some.inj hs
      exact .same rfl rfl
    · rename_i v rest hlist
      split at hs
      · cases hs
      · rename_i hfree
        obtain rfl := Option.some.inj hs
        by_cases hu : u = v
        · subst hu
          exact .moved hpc (hlist ▸ List.mem_cons_self) (Bool.eq_false_of_not_eq_true hfree)
            (Function.update_self ..) (Function.update_self ..)
        · exact .same (Function.update_of_ne hu ..) (Function.update_of_ne hu ..)
  all_goals
    repeat' split at hs
    all_goals first
      | (obtain rfl := Option.some.inj hs; exact .same rfl rfl)
      | cases hs

theorem step_change (hs : step indirect s e = some s') (u : T) : Change s e s' u := by
  unfold step at hs
  cases hr : repparent indirect s e.1 (s.pc e.1) e.2 with
  | some s₁ =>
      rw [hr] at hs
      obtain rfl := Option.some.inj hs
      exact repparent_change hr u
  | none =>
      rw [hr] at hs
      exact maintenance_change hs u

/-- No record is moved: the list of a block that goes away is empty. -/
def Unwatched (s : State C T) (e : T × Act C) : Prop := ∀ p c, s.pc e.1 = .repchange p c → s.list c = []

instance (s : State C T) (e : T × Act C) : Decidable (Unwatched s e) :=
  inferInstanceAs (Decidable (∀ p c, s.pc e.1 = .repchange p c → s.list c = []))

/-- The spinlock of every record is free. -/
def Free (s : State C T) : Prop := ∀ t c, s.track t = some c → s.spin t = false

/-- A record that was moved, by its spinlock. -/
def Stuck (s : State C T) (t : T) : Prop := s.spin t = true ∧ ∃ c, s.track t = some c

theorem Free.step (h : Free s) (hs : step indirect s e = some s') (hok : Unwatched s e) : Free s' := by
  intro u c hu
  cases step_change hs u with
  | same htrack hspin => exact hspin.trans (h u c (htrack.symm.trans hu))
  | begins _ _ _ hspin => exact hspin
  | ends _ _ htrack => cases htrack.symm.trans hu
  | moved hpc hmem _ _ _ =>
      rw [hok _ _ hpc] at hmem
      cases hmem

/-- The step that moves a record leaves its thread stuck. -/
theorem stuck_of_watched (hs : step indirect s e = some s') (hwatched : ¬ Unwatched s e) : ∃ u, Stuck s' u := by
  unfold Unwatched at hwatched
  push Not at hwatched
  obtain ⟨p, c, hpc, hlist⟩ := hwatched
  obtain ⟨t, a⟩ := e
  have hother : repparent indirect s t (s.pc t) a = none := by
    rw [show s.pc t = .repchange p c from hpc]
    rfl
  unfold step at hs
  rw [hother] at hs
  have hs' : maintenance indirect s t (s.pc t) a = some s' := hs
  unfold maintenance at hs'
  rw [show s.pc t = .repchange p c from hpc] at hs'
  cases hl : s.list c with
  | nil => exact absurd hl hlist
  | cons u rest =>
      cases a with
      | next =>
          simp only [hl] at hs'
          split at hs'
          · cases hs'
          · obtain rfl := Option.some.inj hs'
            exact ⟨u, Function.update_self .., p, Function.update_self ..⟩
      | _ => cases hs'

/-- It stays so. -/
theorem Stuck.step {rank : C → Nat} {u : T} (hinv : Inv rank indirect base s) (h : Stuck s u)
    (hs : Reptrack.step indirect s e = some s') : Stuck s' u := by
  have hplace := hinv.place u
  rw [h.1] at hplace
  cases step_change hs u with
  | same htrack hspin => exact ⟨hspin.trans h.1, h.2.imp fun c hc => htrack.trans hc⟩
  | begins _ hpc _ _ =>
      rw [hpc] at hplace
      obtain ⟨c, hc⟩ := h.2
      rw [hplace.1] at hc
      cases hc
  | ends _ hpc _ =>
      rw [hpc] at hplace
      cases hplace.2.1
  | moved _ _ hfree _ _ => cases hfree.symm.trans h.1

/-! ## Runs -/

/-- A tree of chains: a parent has a lower rank than its children, and an indirect block has a
parent.  No thread is in one of the functions. -/
structure Start (indirect : C → Bool) (s : State C T) : Prop where
  tree : ∃ rank : C → Nat, ∀ c p, s.topo.parent c = some p → rank p < rank c
  kept : ∀ c, indirect c = true → s.topo.parent c ≠ none
  deleted : ∀ c, s.topo.deleted c = false
  idle : ∀ t, s.pc t = .idle
  track : ∀ t, s.track t = none
  list : ∀ c, s.list c = []

omit [DecidableEq T] [Fintype C] in
theorem Start.inv (h : Start indirect s₀) : ∃ rank, Inv rank indirect s₀.refs s₀ := by
  obtain ⟨rank, hrank⟩ := h.tree
  refine ⟨rank, ?_, fun {c p} => hrank c p, ?_, fun {c} _ => h.kept c, ?_, ?_, ?_, ?_, ?_, ?_⟩
  · intro t u c m m' _ hm _
    rw [h.idle] at hm
    cases hm
  · intro c hc
    cases (h.deleted c).symm.trans hc
  · intro t
    rw [h.idle, h.track]
    rfl
  · intro d c _ hc
    cases (h.deleted c).symm.trans hc
  · intro t c hc _
    cases (h.track t).symm.trans hc
  · intro t c
    rw [h.list, h.idle, h.track]
    exact ⟨fun hm => absurd hm List.not_mem_nil, fun hm => Bool.noConfusion hm.1⟩
  · intro c
    rw [h.list]
    exact List.nodup_nil
  · intro c
    have hzero : ∑ t, weight (s₀.pc t) (s₀.track t) c = 0 :=
      Finset.sum_eq_zero fun t _ => by rw [h.idle, h.track]; rfl
    rw [hzero, Nat.add_zero]

theorem Start.run (h : Start indirect s₀) {es : List (T × Act C)} (hrun : exec (step indirect) s₀ es = some s) :
    ∃ rank, Inv rank indirect s₀.refs s := by
  obtain ⟨rank, hinv⟩ := h.inv
  exact ⟨rank, exec_invariant' (fun _ _ _ hi hs => step_inv hi hs) hinv hrun⟩

/-- **A thread whose record was moved never comes back**, whatever the threads do from then on. -/
theorem stuck_run {rank : C → Nat} {u : T} (hinv : Inv rank indirect base s) (h : Stuck s u)
    {es : List (T × Act C)} (hrun : exec (step indirect) s es = some s') {c : C} {m : Mode} {o : Option C} :
    s'.pc u ≠ .walk c m o := by
  have hboth : Inv rank indirect base s' ∧ Stuck s' u :=
    exec_invariant' (I := fun x => Inv rank indirect base x ∧ Stuck x u)
      (fun _ _ _ hi hs => ⟨step_inv hi.1 hs, hi.2.step hi.1 hs⟩) ⟨hinv, h⟩ hrun
  intro hpc
  have hplace := hboth.1.place u
  obtain ⟨d, hd⟩ := hboth.2.2
  rw [hpc] at hplace
  cases hplace.1.symm.trans hd

/-! ## What a walk relies on -/

/-- The parent, or for a deleted block the one it had. -/
def upward (g : Topo C) (c : C) : Option C := if g.deleted c then g.into c else g.parent c

/-- Part of the topology: not deleted, and upwards there is a root. -/
def Attached (g : Topo C) (c : C) : Prop :=
  g.deleted c = false ∧ ∃ r, g.deleted r = false ∧ g.parent r = none ∧
    Relation.ReflTransGen (fun a b => upward g a = some b) c r

omit [DecidableEq C] [DecidableEq T] [Fintype C] in
theorem Inv.attached [DecidableEq C] {rank : C → Nat} (h : Inv rank indirect base s) {c : C}
    (hc : s.topo.deleted c = false) : Attached s.topo c := by
  refine ⟨hc, ?_⟩
  have hroot : ∀ n c, rank c = n → ∃ r, s.topo.deleted r = false ∧ s.topo.parent r = none ∧
      Relation.ReflTransGen (fun a b => upward s.topo a = some b) c r := by
    intro n
    induction n using Nat.strongRecOn with
    | _ n ih =>
        intro c hn
        have hstep : ∀ p, upward s.topo c = some p → rank p < rank c → ∃ r, s.topo.deleted r = false ∧
            s.topo.parent r = none ∧ Relation.ReflTransGen (fun a b => upward s.topo a = some b) c r := by
          intro p hp hlt
          obtain ⟨r, hr, hnone, hpath⟩ := ih (rank p) (hn ▸ hlt) p rfl
          exact ⟨r, hr, hnone, .head hp hpath⟩
        cases hdel : s.topo.deleted c with
        | true =>
            obtain ⟨p, hp, hlt⟩ := h.into hdel
            exact hstep p (by rw [upward, if_pos hdel, hp]) hlt
        | false =>
            cases hpar : s.topo.parent c with
            | none => exact ⟨c, hdel, hpar, .refl⟩
            | some p => exact hstep p (by rw [upward, hdel]; exact hpar) (h.up hpar)
  exact hroot (rank c) c rfl

/-- What is left of a call of `hammer2_chain_repparent` for a thread that takes the slow way. -/
def left : Pc C → Nat
  | .tryLock .. => 8
  | .failed .. => 7
  | .inited .. | .mismatch .. => 6
  | .tracked .. | .reload .. => 5
  | .waiting .. => 4
  | .locked .. => 3
  | .matched .. => 2
  | .entered .. | .unlinked .. => 1
  | _ => 0

/-- A thread that came back has its chain locked and referenced, and it is the nearest ancestor
that is left.  From its insertion to its removal the record of a thread is on one list.  The
references are those at the beginning, those of the threads and one for each record. -/
structure Safe (indirect : C → Bool) (base : C → Nat) (s : State C T) : Prop where
  returned : ∀ t c m o, s.pc t = .walk c m (some o) →
    (c, m) ∈ held (s.pc t) ∧ 0 < s.refs c ∧ Attached s.topo c ∧ Survivor s.topo o c
  locked : ∀ t u c m m', t ≠ u → (c, m) ∈ held (s.pc t) → (c, m') ∈ held (s.pc u) → m = .shared ∧ m' = .shared
  parent : ∀ t c m o, s.pc t = .walk c m o → indirect c = true → s.topo.parent c ≠ none
  one : ∀ t, listed (s.pc t) = true → ∃ c, (s.list c).count t = 1 ∧ ∀ d, d ≠ c → t ∉ s.list d
  gone : ∀ t, listed (s.pc t) = false → ∀ c, t ∉ s.list c
  found : ∀ t p f o, s.pc t = .matched p f o → t ∈ s.list p
  empty : ∀ t p c, s.pc t = .repchange p c → Childless s c
  refs : ∀ c, s.refs c = base c + ∑ t, ((owned (s.pc t)).count c + if s.track t = some c then 1 else 0)

/-- And no step but that to a lock has to wait: a thread that is free to take the lock it waits for
gets on, and it is back after eight steps of its own. -/
structure Good (indirect : C → Bool) (base : C → Nat) (s : State C T) : Prop extends Safe indirect base s where
  free : ∀ t c, s.track t = some c → s.spin t = false
  next : ∀ t, 0 < left (s.pc t) → (∀ p f o, s.pc t = .waiting p f o → Avail s p f) →
    ∃ a s', step indirect s (t, a) = some s' ∧ left (s'.pc t) < left (s.pc t)

omit [Fintype C] in
theorem Inv.safe {rank : C → Nat} (h : Inv rank indirect base s) : Safe indirect base s := by
  refine ⟨?_, fun t u c m m' => h.excl, ?_, ?_, ?_, ?_, ?_, h.refs⟩
  · intro t c m o hpc
    have hplace := h.place t
    rw [hpc] at hplace
    exact ⟨by simp [hpc, held], h.refs_pos (t := t) (.inl (by simp [hpc, owned])), h.attached hplace.2.1,
      hplace.2.2 o rfl⟩
  · intro t c m o hpc hi
    have hplace := h.place t
    rw [hpc] at hplace
    exact h.kept hplace.2.1 hi
  · intro t hin
    have hplace := h.place t
    have htrack : ∃ c, s.track t = some c := by
      cases hq : s.pc t with
      | tracked c p m f | matched p f o =>
          rw [hq] at hplace
          exact ⟨p, hplace.1⟩
      | waiting p f o | locked p f o =>
          rw [hq] at hplace
          exact hplace.imp fun _ hc => hc.1
      | mismatch p f o | reload f o =>
          rw [hq] at hplace
          exact hplace.2
      | _ =>
          rw [hq] at hin
          cases hin
    obtain ⟨c, hc⟩ := htrack
    refine ⟨c, List.count_eq_one_of_mem (h.nodup c) (h.mem.mpr ⟨hin, hc⟩), fun d hd hm => hd ?_⟩
    exact Option.some.inj ((h.mem.mp hm).2.symm.trans hc)
  · intro t hin c hm
    cases hin.symm.trans (h.mem.mp hm).1
  · intro t p f o hpc
    have hplace := h.place t
    rw [hpc] at hplace
    exact h.mem.mpr ⟨by rw [hpc]; rfl, hplace.1⟩
  · intro t p c hpc
    have hplace := h.place t
    rw [hpc] at hplace
    exact hplace.2.2.2

theorem Inv.good {rank : C → Nat} (h : Inv rank indirect base s) (hfree : Free s) : Good indirect base s := by
  refine ⟨h.safe, hfree, fun t hleft havail => ?_⟩
  have hplace := h.place t
  -- A step of the thread to `q`, as the step function has it.
  have hto : ∀ {a s' q}, repparent indirect s t (s.pc t) a = some s' → s'.pc t = q → left q < left (s.pc t) →
      ∃ a s', step indirect s (t, a) = some s' ∧ left (s'.pc t) < left (s.pc t) := by
    intro a s' q hs hq hlt
    exact ⟨a, s', by rw [step, hs]; rfl, hq ▸ hlt⟩
  cases hq : s.pc t with
  | tryLock c p m f =>
      rw [hq] at hto
      exact hto (a := .tryLock false) rfl (Function.update_self ..) (show 7 < 8 by decide)
  | entered c p m f =>
      rw [hq] at hto
      exact hto (a := .next) rfl (Function.update_self ..) (show 0 < 1 by decide)
  | failed c p m f =>
      rw [hq] at hto
      exact hto (a := .next) rfl (Function.update_self ..) (show 6 < 7 by decide)
  | inited c p m f =>
      rw [hq] at hto
      exact hto (a := .next) rfl (Function.update_self ..) (show 5 < 6 by decide)
  | tracked c p m f =>
      rw [hq] at hto
      exact hto (a := .next) rfl (Function.update_self ..) (show 4 < 5 by decide)
  | waiting p f o =>
      rw [hq] at hto
      exact hto (a := .next) (if_pos (havail p f o hq)) (Function.update_self ..) (show 3 < 4 by decide)
  | locked p f o =>
      rw [hq] at hto hplace
      obtain ⟨q, htr, hstay, -⟩ := hplace
      obtain ⟨rfl, -⟩ := hstay (hfree t q htr)
      exact hto (a := .next) (if_pos htr) (Function.update_self ..) (show 2 < 3 by decide)
  | matched p f o =>
      have hin := h.safe.found t p f o hq
      rw [hq] at hto
      exact hto (a := .next) (if_pos hin) (Function.update_self ..) (show 1 < 2 by decide)
  | unlinked p f o =>
      rw [hq] at hto
      exact hto (a := .next) rfl (Function.update_self ..) (show 0 < 1 by decide)
  | mismatch p f o | reload f o =>
      rw [hq] at hplace
      obtain ⟨hsp, c, hc⟩ := hplace
      cases (hfree t c hc).symm.trans hsp
  | _ =>
      rw [hq] at hleft
      exact absurd hleft (Nat.lt_irrefl 0)

/-- **What every run keeps**, whatever becomes of the records of the blocks that go away. -/
theorem walks_safe (hstart : Start indirect s₀) {es : List (T × Act C)}
    (hrun : exec (step indirect) s₀ es = some s) : Safe indirect s₀.refs s := by
  obtain ⟨rank, hinv⟩ := hstart.run hrun
  exact hinv.safe

theorem walks_free (hstart : Start indirect s₀) {es : List (T × Act C)}
    (hrun : exec (step indirect) s₀ es = some s) (hok : AllSteps (step indirect) Unwatched s₀ es) : Free s :=
  exec_invariant (I := Free) (fun _ _ _ hf hok hs => hf.step hs hok)
    (fun t c hc => by cases (hstart.track t).symm.trans hc) hok hrun

/-- **Walks upwards.**  In a run of any threads over any tree every state is good as long as no
block goes away with a record on its list; the move of a record is the end of it. -/
theorem run_good_iff (hstart : Start indirect s₀) {es : List (T × Act C)}
    (hrun : exec (step indirect) s₀ es = some s) :
    (∀ pre post s', es = pre ++ post → exec (step indirect) s₀ pre = some s' → Good indirect s₀.refs s') ↔
      AllSteps (step indirect) Unwatched s₀ es := by
  constructor
  · intro hgood
    -- Along the run, from the state after `pre`.
    have hrest : ∀ post pre s', es = pre ++ post → exec (step indirect) s₀ pre = some s' →
        AllSteps (step indirect) Unwatched s' post := by
      intro post
      induction post with
      | nil => exact fun _ _ _ _ => trivial
      | cons e post ih =>
          intro pre s' hsplit hpre
          have hpost : exec (step indirect) s' (e :: post) = some s := by
            rw [hsplit, exec_append, hpre] at hrun
            exact hrun
          obtain ⟨s'', hs, -⟩ := exec_cons_eq_some.mp hpost
          have hsplit' : es = (pre ++ [e]) ++ post := by rw [hsplit, List.append_assoc]; rfl
          have hpre' : exec (step indirect) s₀ (pre ++ [e]) = some s'' := by
            rw [exec_append, hpre]
            exact exec_cons_eq_some.mpr ⟨s'', hs, rfl⟩
          refine ⟨?_, ?_⟩
          · by_contra hwatched
            obtain ⟨u, hsp, c, hc⟩ := stuck_of_watched hs hwatched
            have hfree := (hgood _ _ s'' hsplit' hpre').free u c hc
            cases hfree.symm.trans hsp
          · rw [hs]
            exact ih _ s'' hsplit' hpre'
    exact hrest es [] s₀ rfl rfl
  · intro hok pre post s' hsplit hpre
    rw [hsplit] at hok
    obtain ⟨rank, hinv⟩ := hstart.run hpre
    exact hinv.good (walks_free hstart hpre (hok.of_append hpre).1)

end

/-! ## Three chains -/

/-- An inode and under it two indirect blocks, one under the other. -/
def threeChains : State (Fin 3) (Fin 2) where
  topo := {
    parent := fun c => if c = 0 then none else some (c - 1)
    deleted := fun _ => false
    into := fun _ => none }
  refs := fun _ => 1
  list := fun _ => []
  track := fun _ => none
  spin := fun _ => false
  pc := fun _ => .idle

def belowRoot (c : Fin 3) : Bool := c ≠ 0

theorem threeChains_start : Start belowRoot threeChains where
  tree := ⟨fun c => c.val, by decide⟩
  kept := by decide
  deleted := fun _ => rfl
  idle := fun _ => rfl
  track := fun _ => rfl
  list := fun _ => rfl

/-- Thread 0 goes up from chain 2 while thread 1 has chain 1 locked for a moment. -/
def walkRun : List (Fin 2 × Act (Fin 3)) :=
  [(0, .acquire 2 .shared), (1, .holdParent 1), (0, .call .shared), (0, .tryLock false), (0, .next), (0, .next),
    (0, .next), (1, .leave), (0, .next), (0, .next), (0, .next), (0, .next)]

theorem run_good_iff_walked : ∃ s, exec (step belowRoot) threeChains walkRun = some s ∧
    s.pc 0 = .walk 1 .shared (some 1) ∧ Good belowRoot threeChains.refs s := by
  obtain ⟨s, hrun, hpc⟩ : ∃ s, exec (step belowRoot) threeChains walkRun = some s ∧
      s.pc 0 = .walk 1 .shared (some 1) := ⟨_, rfl, by decide⟩
  refine ⟨s, hrun, hpc, ?_⟩
  exact (run_good_iff threeChains_start hrun).mpr (by decide) walkRun [] s (List.append_nil _).symm hrun

/-- Thread 1 moves the child of chain 1 to chain 0 and deletes chain 1, whose lock thread 0 waits
for. -/
def collapseRun : List (Fin 2 × Act (Fin 3)) :=
  [(0, .acquire 2 .shared), (1, .holdParent 0), (1, .holdChild 1), (0, .call .shared), (0, .tryLock false),
    (0, .next), (0, .next), (0, .next), (1, .collapse), (1, .sub 2), (1, .next), (1, .next), (1, .next), (1, .next),
    (1, .leave), (1, .leave), (0, .next), (0, .next), (0, .next)]

theorem walks_safe_collapse : ∃ s, exec (step belowRoot) threeChains collapseRun = some s ∧
    Safe belowRoot threeChains.refs s := by
  obtain ⟨s, hrun⟩ : ∃ s, exec (step belowRoot) threeChains collapseRun = some s := ⟨_, rfl⟩
  exact ⟨s, hrun, walks_safe threeChains_start hrun⟩

/-- Thread 1 is done and no lock of a chain is held; thread 0 has its record on the list of chain 0,
and never gets there. -/
theorem collapse_hangs : ∃ s, exec (step belowRoot) threeChains collapseRun = some s ∧
    s.pc 0 = .reload .shared 1 ∧ s.pc 1 = .idle ∧ s.track 0 = some 0 ∧ s.list 0 = [0] ∧
    step belowRoot s (0, .next) = none ∧
    ∀ es s' c m o, exec (step belowRoot) s es = some s' → s'.pc 0 ≠ .walk c m o := by
  obtain ⟨s, hrun, hpc, hidle, htrack, hlist, hspin⟩ : ∃ s, exec (step belowRoot) threeChains collapseRun = some s ∧
      s.pc 0 = .reload .shared 1 ∧ s.pc 1 = .idle ∧ s.track 0 = some 0 ∧ s.list 0 = [0] ∧ s.spin 0 = true :=
    ⟨_, rfl, by decide, by decide, by decide, by decide, by decide⟩
  obtain ⟨rank, hinv⟩ := threeChains_start.run hrun
  refine ⟨s, hrun, hpc, hidle, htrack, hlist, ?_, fun es s' c m o hrest => ?_⟩
  · simp [step, repparent, maintenance, hpc, hspin]
  · exact stuck_run hinv ⟨hspin, 0, htrack⟩ hrest

end Hammer2.Reptrack
