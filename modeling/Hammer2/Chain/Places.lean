/-
# `Hammer2.Chain.Places` — what a thread relies on, place by place

    ThreadOk    a thread has the references and the holds that its place relies on
    ChainOk     the count of a chain is that of the references to it, and one whose count is 0 is
                kept by a child, by its flags, or is being freed
    Inv         both, of every thread and every chain, and the tree
    Frame       a step of one thread changes some chains, and the rest stays

`Inv.touch` is the change of one chain in which the tree stays as it is: most steps are one.
-/
import Hammer2.Chain.Held

namespace Hammer2.Chain

attribute [local instance] Tokens.lawful_pair

/-! ## Places -/

namespace Pc

/-- The reference that is dropped from here. -/
def drops : Pc → Option Nat
  | .drop c | .dropTry c | .dropCas c _ | .lastdrop c | .flushing c | .flushed c => some c
  | .dropUnlock c again => if again then some c else none
  | .unlock c a | .unlockCas c _ a | .upgrade c a | .unlockLast c a | .unlockMtx c a =>
      if a then some c else none
  | .freeing _ rdrop | .gone _ rdrop => rdrop
  | _ => none

/-- The chain whose reference is relied on, and stays. -/
def uses : Pc → Option Nat
  | .locking c _ _ | .unhold c | .unholdCas c _ | .unholdTry c | .refHold c | .getInsert _ _ c =>
      some c
  | .unlock c a | .unlockCas c _ a | .upgrade c a | .unlockLast c a | .unlockMtx c a =>
      if a then none else some c
  | _ => none

/-- The chain whose mutex is held, beyond the locks. -/
def owns : Pc → Option Nat
  | .lastdrop c | .dropUnlock c _ | .flushing c | .freeing c _ | .unlock c _ | .unlockCas c _ _
  | .unlockLast c _ | .unlockMtx c _ | .getInsert _ _ c => some c
  | _ => none

/-- The chain that is being freed. -/
def dying : Pc → Option Nat
  | .freeing c _ | .gone c _ => some c
  | _ => none

/-- A chain that no other thread can reach. -/
def claims : Pc → Option Nat
  | .freeing c _ | .gone c _ | .getInsert _ _ c => some c
  | _ => none

theorem claims_of_dying {pc : Pc} {c : Nat} (h : pc.dying = some c) : pc.claims = some c := by
  cases pc <;> first | exact h | cases h

end Pc

/-- The references that thread `t` relies on. -/
def demand (pc : Pc) (locks : List (Nat × Nat)) (t d : Nat) : Nat :=
  (if pc.drops = some d then 1 else 0) + if (t, d) ∈ locks ∨ pc.uses = some d then 1 else 0

theorem demand_le {a b : Pc} {l l' : List (Nat × Nat)} {t d : Nat}
    (hd : b.drops = some d → a.drops = some d)
    (hu : (t, d) ∈ l' ∨ b.uses = some d → (t, d) ∈ l ∨ a.uses = some d) :
    demand b l' t d ≤ demand a l t d := by
  refine Nat.add_le_add ?_ ?_
  · split
    · next h => rw [if_pos (hd h)]
    · exact Nat.zero_le _
  · split
    · next h => rw [if_pos (hu h)]
    · exact Nat.zero_le _

/-- The holds of thread `t`. -/
def held (pc : Pc) (locks : List (Nat × Nat)) (t d : Nat) : Nat :=
  locks.count (t, d) + if pc.owns = some d then 1 else 0

structure Dead (x : Chain) : Prop where
  refs : x.refs = 0
  parent : x.parent = none
  children : x.children = []
  static : x.static = false
  update : x.update = false
  modified : x.modified = false

structure Private (x : Chain) : Prop where
  refs : x.refs = 1
  parent : x.parent = none
  children : x.children = []
  static : x.static = false

def FrameOk (s : State) (t : Nat) : Pc → Prop
  | .dropCas _ refs => 2 ≤ refs
  | .lastdrop c | .dropUnlock c _ | .flushing c => ∃ x, s.chains c = some x ∧ owner x t
  | .freeing c _ => ∃ x, s.chains c = some x ∧ owner x t ∧ Dead x
  | .gone c _ => ∃ x, s.chains c = some x ∧ Dead x ∧ ∀ u, (u, c) ∉ s.holds
  | .getInsert p _ c =>
      p ≠ c ∧ (t, p) ∈ s.locks ∧ (t, c) ∉ s.locks ∧ Tokens.count s.holds c = 1 ∧
        ∃ x, s.chains c = some x ∧ Private x
  | .deleting p c => (t, p) ∈ s.locks ∧ (t, c) ∈ s.locks ∧
      ∃ x y, s.chains c = some x ∧ owner x t ∧ x.parent = some p ∧ s.chains p = some y ∧ owner y t
  | _ => True

structure ThreadOk (s : State) (t : Nat) : Prop where
  needs : ∀ d, demand (s.pc t) s.locks t d ≤ s.tokens.count (t, d)
  holds : ∀ d, s.holds.count (t, d) = held (s.pc t) s.locks t d
  frame : FrameOk s t (s.pc t)

/-- What keeps a chain without references. -/
def Kept (s : State) (d : Nat) (x : Chain) : Prop :=
  x.children ≠ [] ∨ x.parent.isSome ∧ (x.update ∨ x.modified) ∨ x.static = true ∨
    ∃ u, (s.pc u).dying = some d

structure ChainOk (s : State) (d : Nat) : Prop where
  refs : ∀ {x}, s.chains d = some x → x.refs = Tokens.count s.tokens d
  mutex : ∀ {x}, s.chains d = some x → Mutex x d s.holds
  alive : ∀ {t}, (t, d) ∈ s.tokens ∨ (t, d) ∈ s.holds → ∃ x, s.chains d = some x
  kept : ∀ {x}, s.chains d = some x → x.refs = 0 → Kept s d x
  once : ∀ {t u}, (s.pc t).dying = some d → (s.pc u).dying = some d → t = u

structure Inv (s : State) : Prop where
  tree : Tree s.chains s.next
  chain : ∀ d, ChainOk s d
  thread : ∀ t, ThreadOk s t
  fault : s.fault = false

section
variable {s s' : State} {t u c d p : Nat} {x y : Chain} {pc pc' : Pc}

/-! ## What the invariant says of a thread -/

theorem Inv.token_of_drops (hi : Inv s) (h : (s.pc t).drops = some c) : (t, c) ∈ s.tokens := by
  have hn := (hi.thread t).needs c
  rw [demand, if_pos h] at hn
  exact List.count_pos_iff.mp (by omega)

theorem Inv.token_of_uses (hi : Inv s) (h : (s.pc t).uses = some c) : (t, c) ∈ s.tokens := by
  have hn := (hi.thread t).needs c
  rw [demand, if_pos (Or.inr h)] at hn
  exact List.count_pos_iff.mp (by omega)

theorem Inv.token_of_lock (hi : Inv s) (h : (t, c) ∈ s.locks) : (t, c) ∈ s.tokens := by
  have hn := (hi.thread t).needs c
  rw [demand, if_pos (Or.inl h)] at hn
  exact List.count_pos_iff.mp (by omega)

theorem Inv.hold_of_owns (hi : Inv s) (h : (s.pc t).owns = some c) : (t, c) ∈ s.holds := by
  have hh := (hi.thread t).holds c
  rw [held, if_pos h] at hh
  exact List.count_pos_iff.mp (by omega)

theorem Inv.hold_of_lock (hi : Inv s) (h : (t, c) ∈ s.locks) : (t, c) ∈ s.holds := by
  have hh := (hi.thread t).holds c
  have hl := List.count_pos_iff.mpr h
  rw [held] at hh
  exact List.count_pos_iff.mp (by omega)

/-- Who has a reference counts. -/
theorem Inv.refs_pos (hi : Inv s) (hx : s.chains c = some x) (h : (t, c) ∈ s.tokens) :
    0 < x.refs := by
  rw [(hi.chain c).refs hx]
  exact Tokens.count_pos h

/-- Who has the mutex exclusively has all the holds. -/
theorem Inv.hold_unique (hi : Inv s) (hx : s.chains c = some x) (ho : owner x u)
    (h : (t, c) ∈ s.holds) : t = u := by
  obtain ⟨⟨v, n⟩, hw, hv⟩ := Option.map_eq_some_iff.mp ho
  obtain rfl : v = u := hv
  exact (((hi.chain c).mutex hx).taken hw).2.2.2 t h

/-- What a thread is freeing, or has not inserted, is its own. -/
theorem Inv.claimed (hi : Inv s) (h : (s.pc u).claims = some c) :
    ∃ x, s.chains c = some x ∧ x.parent = none ∧ x.children = [] ∧ x.static = false ∧
      ∀ t, t ≠ u → (t, c) ∉ s.tokens ∧ (t, c) ∉ s.holds := by
  have hf := (hi.thread u).frame
  generalize hp : s.pc u = pc at h hf
  cases pc with
  | freeing d r =>
      obtain rfl : d = c := Option.some.inj h
      obtain ⟨x, hx, ho, hd⟩ := hf
      refine ⟨x, hx, hd.parent, hd.children, hd.static, fun t ht => ⟨?_, ?_⟩⟩
      · intro hm
        exact absurd hd.refs (hi.refs_pos hx hm).ne'
      · intro hm
        exact ht (hi.hold_unique hx ho hm)
  | gone d r =>
      obtain rfl : d = c := Option.some.inj h
      obtain ⟨x, hx, hd, hno⟩ := hf
      refine ⟨x, hx, hd.parent, hd.children, hd.static, fun t ht => ⟨?_, hno t⟩⟩
      intro hm
      exact absurd hd.refs (hi.refs_pos hx hm).ne'
  | getInsert p g d =>
      obtain rfl : d = c := Option.some.inj h
      obtain ⟨-, -, -, hone, x, hx, hd⟩ := hf
      have token := hi.token_of_uses (t := u) (c := d) (by rw [hp]; rfl)
      have hold := hi.hold_of_owns (t := u) (c := d) (by rw [hp]; rfl)
      have alone : ∀ {l : List (Nat × Nat)} {t}, t ≠ u → (u, d) ∈ l → Tokens.count l d = 1 →
          (t, d) ∉ l := by
        intro l t ht hu hl hm
        have hsum : l.count (u, d) + l.count (t, d) ≤ Tokens.count l d := Tokens.add_le_count ht
        have h1 := List.count_pos_iff.mpr hu
        have h2 := List.count_pos_iff.mpr hm
        omega
      exact ⟨x, hx, hd.parent, hd.children, hd.static, fun t ht =>
        ⟨alone ht token ((hi.chain d).refs hx ▸ hd.refs), alone ht hold hone⟩⟩
  | _ => cases h

theorem Inv.unclaimed_of_token (hi : Inv s) (h : (t, c) ∈ s.tokens) :
    ∀ u, u ≠ t → (s.pc u).claims ≠ some c := by
  intro u hu hc
  obtain ⟨-, -, -, -, -, hno⟩ := hi.claimed hc
  exact (hno t hu.symm).1 h

theorem Inv.unclaimed_of_hold (hi : Inv s) (h : (t, c) ∈ s.holds) :
    ∀ u, u ≠ t → (s.pc u).claims ≠ some c := by
  intro u hu hc
  obtain ⟨-, -, -, -, -, hno⟩ := hi.claimed hc
  exact (hno t hu.symm).2 h

theorem Inv.unclaimed_of_parent (hi : Inv s) (hx : s.chains c = some x) (h : x.parent = some p) :
    ∀ u, (s.pc u).claims ≠ some c := by
  intro u hc
  obtain ⟨y, hy, hp, -⟩ := hi.claimed hc
  obtain rfl : x = y := by simpa [hx] using hy
  rw [hp] at h
  cases h

theorem Inv.unclaimed_of_child (hi : Inv s) (hx : s.chains c = some x) (h : d ∈ x.children) :
    ∀ u, (s.pc u).claims ≠ some c := by
  intro u hc
  obtain ⟨y, hy, -, hn, -⟩ := hi.claimed hc
  obtain rfl : x = y := by simpa [hx] using hy
  rw [hn] at h
  cases h

end

/-! ## What a step leaves alone -/

/-- The places differ in `c` only. -/
structure Follows (c : Nat) (a b : Pc) : Prop where
  drops : ∀ d, d ≠ c → b.drops = some d → a.drops = some d
  uses : ∀ d, d ≠ c → b.uses = some d → a.uses = some d
  owns : ∀ d, d ≠ c → (b.owns = some d ↔ a.owns = some d)
  dying : ∀ d, d ≠ c → (b.dying = some d ↔ a.dying = some d)

/-- A step of thread `t` on the chains in `S`. -/
structure Frame (s s' : State) (t : Nat) (S : Nat → Prop) : Prop where
  chains : ∀ d, ¬ S d → s'.chains d = s.chains d
  tokens : ∀ d, ¬ S d → s'.tokens.filter (fun p => p.2 = d) = s.tokens.filter fun p => p.2 = d
  holds : ∀ d, ¬ S d → s'.holds.filter (fun p => p.2 = d) = s.holds.filter fun p => p.2 = d
  dying : ∀ d, ¬ S d → ((s'.pc t).dying = some d ↔ (s.pc t).dying = some d)
  pc : ∀ u, u ≠ t → s'.pc u = s.pc u
  otherTokens : ∀ u d, u ≠ t → s.tokens.count (u, d) ≤ s'.tokens.count (u, d)
  otherLocks : Others t s.locks s'.locks
  otherHolds : Others t s.holds s'.holds
  unclaimed : ∀ d, S d → ∀ u, u ≠ t → (s.pc u).claims ≠ some d
  owners : ∀ {d x u}, S d → u ≠ t → s.chains d = some x → owner x u →
    ∃ y, s'.chains d = some y ∧ owner y u ∧ y.parent = x.parent

section
variable {s s' : State} {t u c d p : Nat} {x y : Chain} {S : Nat → Prop} {pc : Pc}

theorem Frame.token (hf : Frame s s' t S) (hd : ¬ S d) : (u, d) ∈ s'.tokens ↔ (u, d) ∈ s.tokens := by
  have h : ∀ l : List (Nat × Nat), (u, d) ∈ l ↔ (u, d) ∈ l.filter fun p => p.2 = d := by
    intro l
    simp [List.mem_filter]
  rw [h s'.tokens, h s.tokens, hf.tokens d hd]

theorem Frame.hold (hf : Frame s s' t S) (hd : ¬ S d) : (u, d) ∈ s'.holds ↔ (u, d) ∈ s.holds := by
  have h : ∀ l : List (Nat × Nat), (u, d) ∈ l ↔ (u, d) ∈ l.filter fun p => p.2 = d := by
    intro l
    simp [List.mem_filter]
  rw [h s'.holds, h s.holds, hf.holds d hd]

/-- Another chain. -/
theorem Frame.chainOk (hf : Frame s s' t S) (h : ChainOk s d) (hd : ¬ S d) : ChainOk s' d := by
  have dying : ∀ u, (s'.pc u).dying = some d ↔ (s.pc u).dying = some d := by
    intro u
    by_cases hu : u = t
    · subst hu
      exact hf.dying d hd
    · rw [hf.pc u hu]
  have count : ∀ {l l' : List (Nat × Nat)},
      (l'.filter fun p => p.2 = d) = (l.filter fun p => p.2 = d) →
      Tokens.count l' d = Tokens.count l d := by
    intro l l' hl
    unfold Tokens.count
    rw [List.countP_eq_length_filter, List.countP_eq_length_filter, hl]
  refine ⟨?_, ?_, ?_, ?_, ?_⟩
  · intro x hx
    rw [hf.chains d hd] at hx
    rw [h.refs hx, count (hf.tokens d hd)]
  · intro x hx
    rw [hf.chains d hd] at hx
    exact (h.mutex hx).congr rfl rfl (hf.holds d hd)
  · intro u hu
    rw [hf.chains d hd]
    rw [hf.token hd, hf.hold hd] at hu
    exact h.alive hu
  · intro x hx h0
    rw [hf.chains d hd] at hx
    rcases h.kept hx h0 with hk | hk | hk | ⟨u, hu⟩
    · exact .inl hk
    · exact .inr (.inl hk)
    · exact .inr (.inr (.inl hk))
    · exact .inr (.inr (.inr ⟨u, (dying u).mpr hu⟩))
  · intro u v hu hv
    exact h.once ((dying u).mp hu) ((dying v).mp hv)

/-- An exclusive holder keeps its chain. -/
theorem Frame.owned (hf : Frame s s' t S) (hu : u ≠ t) (hx : s.chains d = some x)
    (ho : owner x u) : ∃ y, s'.chains d = some y ∧ owner y u ∧ y.parent = x.parent := by
  by_cases hd : S d
  · exact hf.owners hd hu hx ho
  · exact ⟨x, by rw [hf.chains d hd, hx], ho, rfl⟩

/-- Another thread. -/
theorem Frame.threadOk (hf : Frame s s' t S) (h : ThreadOk s u) (hu : u ≠ t) : ThreadOk s' u := by
  have lock : ∀ d, (u, d) ∈ s'.locks ↔ (u, d) ∈ s.locks := fun d => hf.otherLocks.mem hu
  -- what the thread claims is not among the chains that change
  have mine : ∀ {d}, (s.pc u).claims = some d → ¬ S d := fun hc hd => hf.unclaimed _ hd u hu hc
  refine ⟨?_, ?_, ?_⟩
  · intro d
    rw [hf.pc u hu]
    exact (demand_le id (Or.imp_left (lock d).mp)).trans
      ((h.needs d).trans (hf.otherTokens u d hu))
  · intro d
    have hh := h.holds d
    unfold held at hh ⊢
    rw [hf.pc u hu, hf.otherLocks u d hu, hf.otherHolds u d hu]
    exact hh
  · rw [hf.pc u hu]
    have hfr := h.frame
    generalize s.pc u = pc at hfr mine
    cases pc with
    | lastdrop c | dropUnlock c again | flushing c =>
        obtain ⟨x, hx, ho⟩ := hfr
        obtain ⟨y, hy, hyo, -⟩ := hf.owned hu hx ho
        exact ⟨y, hy, hyo⟩
    | freeing c r =>
        obtain ⟨x, hx, ho, hdead⟩ := hfr
        exact ⟨x, by rw [hf.chains c (mine rfl), hx], ho, hdead⟩
    | gone c r =>
        obtain ⟨x, hx, hdead, hno⟩ := hfr
        refine ⟨x, by rw [hf.chains c (mine rfl), hx], hdead, ?_⟩
        intro v hv
        exact hno v ((hf.hold (mine rfl)).mp hv)
    | getInsert p g c =>
        obtain ⟨hpc, hp, hc, hone, x, hx, hpriv⟩ := hfr
        refine ⟨hpc, (lock p).mpr hp, fun hm => hc ((lock c).mp hm), ?_, x, ?_, hpriv⟩
        · rw [← hone]
          unfold Tokens.count
          rw [List.countP_eq_length_filter, List.countP_eq_length_filter, hf.holds c (mine rfl)]
        · rw [hf.chains c (mine rfl), hx]
    | deleting p c =>
        obtain ⟨hp, hc, x, y, hx, hxo, hpar, hy, hyo⟩ := hfr
        obtain ⟨x', hx', hxo', hpar'⟩ := hf.owned hu hx hxo
        obtain ⟨y', hy', hyo', -⟩ := hf.owned hu hy hyo
        exact ⟨(lock p).mpr hp, (lock c).mpr hc, x', y', hx', hxo', hpar'.trans hpar, hy', hyo'⟩
    | dropCas c refs => exact hfr
    | _ => trivial

/-- What is left to show of a step: the chains that change, and the thread. -/
theorem Inv.of_frame (hi : Inv s) (hf : Frame s s' t S) (htree : Tree s'.chains s'.next)
    (hchain : ∀ d, S d → ChainOk s' d) (hthread : ThreadOk s' t) (hfault : s'.fault = false) :
    Inv s' := by
  refine ⟨htree, ?_, ?_, hfault⟩
  · intro d
    by_cases hd : S d
    · exact hchain d hd
    · exact hf.chainOk (hi.chain d) hd
  · intro u
    by_cases hu : u = t
    · subst hu
      exact hthread
    · exact hf.threadOk (hi.thread u) hu

/-! ## One chain changes -/

/-- The thread after a step in which nothing but `c` matters. -/
theorem ThreadOk.of_follows (h : ThreadOk s t) (hf : Follows c (s.pc t) (s'.pc t))
    (htok : ∀ d, d ≠ c → s'.tokens.count (t, d) = s.tokens.count (t, d))
    (hlock : ∀ d, d ≠ c → s'.locks.count (t, d) = s.locks.count (t, d))
    (hhold : ∀ d, d ≠ c → s'.holds.count (t, d) = s.holds.count (t, d))
    (hneeds : demand (s'.pc t) s'.locks t c ≤ s'.tokens.count (t, c))
    (hholds : s'.holds.count (t, c) = held (s'.pc t) s'.locks t c)
    (hframe : FrameOk s' t (s'.pc t)) : ThreadOk s' t := by
  refine ⟨?_, ?_, hframe⟩
  · intro d
    by_cases hd : d = c
    · subst hd
      exact hneeds
    · rw [htok d hd]
      refine le_trans ?_ (h.needs d)
      have hm : (t, d) ∈ s'.locks ↔ (t, d) ∈ s.locks := by
        rw [← List.count_pos_iff, ← List.count_pos_iff, hlock d hd]
      exact demand_le (hf.drops d hd) (Or.imp hm.mp (hf.uses d hd))
  · intro d
    by_cases hd : d = c
    · subst hd
      exact hholds
    · rw [hhold d hd, h.holds d]
      unfold held
      rw [hlock d hd, if_congr (hf.owns d hd).symm rfl rfl]

/-- Thread `t` changes `c` from `x` to `y`, and not the place in the tree. -/
structure Touch (s s' : State) (t c : Nat) (x y : Chain) : Prop where
  was : s.chains c = some x
  tree : SameTree x y
  chains : s'.chains = Function.update s.chains c (some y)
  next : s'.next = s.next
  fault : s'.fault = s.fault
  pc : ∀ u, u ≠ t → s'.pc u = s.pc u
  tokens : SameBut c s.tokens s'.tokens
  locks : ∀ d, d ≠ c → s'.locks.count (t, d) = s.locks.count (t, d)
  holds : SameBut c s.holds s'.holds
  otherTokens : ∀ u d, u ≠ t → s.tokens.count (u, d) ≤ s'.tokens.count (u, d)
  otherLocks : Others t s.locks s'.locks
  otherHolds : Others t s.holds s'.holds
  unclaimed : ∀ u, u ≠ t → (s.pc u).claims ≠ some c
  owners : ∀ u, u ≠ t → owner x u → owner y u
  follows : Follows c (s.pc t) (s'.pc t)
  refs : y.refs = Tokens.count s'.tokens c
  mutex : Mutex y c s'.holds
  kept : y.refs = 0 → Kept s' c y
  needs : demand (s'.pc t) s'.locks t c ≤ s'.tokens.count (t, c)
  held : s'.holds.count (t, c) = held (s'.pc t) s'.locks t c
  frame : FrameOk s' t (s'.pc t)

theorem Touch.inv (h : Touch s s' t c x y) (hi : Inv s) : Inv s' := by
  have hy : s'.chains c = some y := by rw [h.chains, Function.update_self]
  have hframe : Frame s s' t (· = c) :=
    { chains := fun d hd => by rw [h.chains, Function.update_of_ne hd]
      tokens := fun d hd => h.tokens d hd
      holds := fun d hd => h.holds d hd
      dying := fun d hd => h.follows.dying d hd
      pc := h.pc
      otherTokens := h.otherTokens
      otherLocks := h.otherLocks
      otherHolds := h.otherHolds
      unclaimed := by
        rintro d rfl
        exact h.unclaimed
      owners := by
        rintro d z u rfl hu hz ho
        obtain rfl : x = z := by simpa [h.was] using hz
        exact ⟨y, hy, h.owners u hu ho, h.tree.parent⟩ }
  refine hi.of_frame hframe ?_ ?_ ?_ (h.fault.trans hi.fault)
  · rw [h.chains, h.next]
    exact hi.tree.set h.was h.tree
  · rintro d rfl
    refine ⟨?_, ?_, fun _ => ⟨y, hy⟩, ?_, ?_⟩
    · intro z hz
      obtain rfl : y = z := by simpa [hy] using hz
      exact h.refs
    · intro z hz
      obtain rfl : y = z := by simpa [hy] using hz
      exact h.mutex
    · intro z hz
      obtain rfl : y = z := by simpa [hy] using hz
      exact h.kept
    · have alone : ∀ {u}, u ≠ t → (s'.pc u).dying ≠ some d := by
        intro u hu hd
        rw [h.pc u hu] at hd
        exact h.unclaimed u hu (Pc.claims_of_dying hd)
      intro u v hu hv
      have hut : u = t := by
        by_contra hne
        exact alone hne hu
      have hvt : v = t := by
        by_contra hne
        exact alone hne hv
      exact hut.trans hvt.symm
  · exact (hi.thread t).of_follows h.follows (fun d hd => h.tokens.count hd) h.locks
      (fun d hd => h.holds.count hd) h.needs h.held h.frame

/-- A thread moves on. -/
theorem Inv.goto (hi : Inv s) (hd : pc.drops = (s.pc t).drops) (hu : pc.uses = (s.pc t).uses)
    (ho : pc.owns = (s.pc t).owns) (hdy : pc.dying = (s.pc t).dying)
    (hf : FrameOk s t (s.pc t) → FrameOk s t pc) : Inv (s.goto t pc) := by
  have hpc : (s.goto t pc).pc t = pc := Function.update_self ..
  have hframe : Frame s (s.goto t pc) t fun _ => False :=
    { chains := fun _ _ => rfl
      tokens := fun _ _ => rfl
      holds := fun _ _ => rfl
      dying := fun _ _ => by rw [hpc, hdy]
      pc := fun u hu => Function.update_of_ne hu ..
      otherTokens := fun _ _ _ => le_rfl
      otherLocks := Others.refl t _
      otherHolds := Others.refl t _
      unclaimed := nofun
      owners := nofun }
  refine hi.of_frame hframe hi.tree nofun ⟨?_, ?_, ?_⟩ hi.fault
  · intro d
    rw [hpc]
    refine (demand_le ?_ ?_).trans ((hi.thread t).needs d)
    · rw [hd]
      exact id
    · rw [hu]
      exact id
  · intro d
    rw [hpc]
    refine ((hi.thread t).holds d).trans ?_
    unfold held
    rw [ho]
    rfl
  · rw [hpc]
    have h := hf (hi.thread t).frame
    cases pc <;> exact h

end

end Hammer2.Chain
