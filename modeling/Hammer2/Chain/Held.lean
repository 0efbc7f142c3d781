/-
# `Hammer2.Chain.Held` — who holds what, and what a chain is held by

    Tree        the children of a chain are the chains that have it as their parent
    Mutex       the state of a mutex is that of the holds on it
    Needs       each place of a thread has the references and the holds it relies on
    FrameOk     what a place of a thread relies on beyond that

`Inv.touch` is the change of one chain, in which the tree stays as it is: most steps are one.
-/
import Hammer2.Chain.Life

namespace Hammer2.Chain

/-! ## Lists of holders -/

/-- Only the pairs with `c` differ. -/
def SameBut (c : Nat) (l l' : List (Nat × Nat)) : Prop :=
  ∀ d, d ≠ c → l'.filter (fun p => p.2 = d) = l.filter fun p => p.2 = d

/-- Only the pairs of `t` differ. -/
def Others (t : Nat) (l l' : List (Nat × Nat)) : Prop :=
  ∀ u d, u ≠ t → l'.count (u, d) = l.count (u, d)

section
variable {l l' : List (Nat × Nat)} {c d t u : Nat}

theorem SameBut.refl (c : Nat) (l : List (Nat × Nat)) : SameBut c l l := fun _ _ => rfl

theorem SameBut.cons : SameBut c l ((t, c) :: l) := by
  intro d hd
  rw [List.filter_cons_of_neg (by simpa using hd.symm)]

theorem SameBut.erase : SameBut c l (l.erase (t, c)) := by
  intro d hd
  induction l with
  | nil => rfl
  | cons p l ih =>
      by_cases hp : p = (t, c)
      · subst hp
        rw [List.erase_cons_head, List.filter_cons_of_neg (by simpa using hd.symm)]
      · rw [List.erase_cons_tail (by simpa using hp), List.filter_cons, List.filter_cons, ih]

theorem SameBut.tokens (h : SameBut c l l') (hd : d ≠ c) : Tokens.count l' d = Tokens.count l d := by
  unfold Tokens.count
  rw [List.countP_eq_length_filter, List.countP_eq_length_filter, h d hd]

theorem SameBut.count (h : SameBut c l l') (hd : d ≠ c) : l'.count (u, d) = l.count (u, d) := by
  rw [← List.count_filter (p := fun p => p.2 = d) (by simp), h d hd,
    List.count_filter (by simp)]

theorem SameBut.mem (h : SameBut c l l') (hd : d ≠ c) : (u, d) ∈ l' ↔ (u, d) ∈ l := by
  have hl : ∀ k : List (Nat × Nat), (u, d) ∈ k ↔ (u, d) ∈ k.filter fun p => p.2 = d := by
    intro k
    simp [List.mem_filter]
  rw [hl l', hl l, h d hd]

theorem Others.refl (t : Nat) (l : List (Nat × Nat)) : Others t l l := fun _ _ _ => rfl

theorem Others.cons : Others t l ((t, c) :: l) := by
  intro u d hu
  exact List.count_cons_of_ne fun h => hu (congrArg Prod.fst h).symm

theorem Others.erase : Others t l (l.erase (t, c)) := by
  intro u d hu
  exact List.count_erase_of_ne fun h => hu (congrArg Prod.fst h)

theorem Others.mem (h : Others t l l') (hu : u ≠ t) : (u, d) ∈ l' ↔ (u, d) ∈ l := by
  rw [← List.count_pos_iff, ← List.count_pos_iff, h u d hu]

end

/-! ## The tree -/

structure Tree (chains : Nat → Option Chain) (next : Nat) : Prop where
  known : ∀ {c x}, chains c = some x → c < next
  up : ∀ {c x p}, chains c = some x → x.parent = some p → ∃ y, chains p = some y ∧ c ∈ y.children
  down : ∀ {p y c}, chains p = some y → c ∈ y.children → ∃ x, chains c = some x ∧ x.parent = some p
  nodup : ∀ {c x}, chains c = some x → x.children.Nodup
  count : ∀ {c x}, chains c = some x → x.chainCount = x.children.length
  onrb : ∀ {c x}, chains c = some x → x.onRbtree = x.parent.isSome
  irrefl : ∀ {c x}, chains c = some x → x.parent ≠ some c
  root : ∀ {c x}, chains c = some x → x.static = true → x.parent = none

/-- The place in the tree stays. -/
structure SameTree (x y : Chain) : Prop where
  parent : y.parent = x.parent
  children : y.children = x.children
  chainCount : y.chainCount = x.chainCount
  onRbtree : y.onRbtree = x.onRbtree
  static : y.static = x.static

section
variable {chains : Nat → Option Chain} {next c p : Nat} {x y z : Chain}

theorem SameTree.refl (x : Chain) : SameTree x x := ⟨rfl, rfl, rfl, rfl, rfl⟩

theorem SameTree.trans (h : SameTree x y) (h' : SameTree y z) : SameTree x z :=
  ⟨h'.parent.trans h.parent, h'.children.trans h.children, h'.chainCount.trans h.chainCount,
    h'.onRbtree.trans h.onRbtree, h'.static.trans h.static⟩

theorem update_eq_some {d : Nat} {o : Option Chain} (h : Function.update chains c o d = some z) :
    d = c ∧ o = some z ∨ d ≠ c ∧ chains d = some z := by
  by_cases hd : d = c
  · subst hd
    exact .inl ⟨rfl, by simpa using h⟩
  · exact .inr ⟨hd, by simpa [Function.update_of_ne hd] using h⟩

/-- A change of a chain that leaves the tree alone. -/
theorem Tree.set (ht : Tree chains next) (hx : chains c = some x) (h : SameTree x y) :
    Tree (Function.update chains c (some y)) next := by
  -- each chain is one that was there, at the same place
  have old : ∀ {d z}, Function.update chains c (some y) d = some z →
      ∃ w, chains d = some w ∧ SameTree w z := by
    intro d z hd
    obtain ⟨rfl, hz⟩ | ⟨-, hz⟩ := update_eq_some hd
    · obtain rfl := Option.some.inj hz
      exact ⟨x, hx, h⟩
    · exact ⟨z, hz, .refl z⟩
  have new : ∀ {d w}, chains d = some w →
      ∃ z, Function.update chains c (some y) d = some z ∧ SameTree w z := by
    intro d w hd
    by_cases hdc : d = c
    · subst hdc
      obtain rfl : x = w := by simpa [hx] using hd
      exact ⟨y, Function.update_self .., h⟩
    · exact ⟨w, by rw [Function.update_of_ne hdc, hd], .refl w⟩
  refine ⟨?_, ?_, ?_, ?_, ?_, ?_, ?_, ?_⟩
  · intro d z hd
    obtain ⟨w, hw, -⟩ := old hd
    exact ht.known hw
  · intro d z p hd hp
    obtain ⟨w, hw, hs⟩ := old hd
    obtain ⟨v, hv, hm⟩ := ht.up hw (hs.parent.symm.trans hp)
    obtain ⟨v', hv', hs'⟩ := new hv
    exact ⟨v', hv', hs'.children ▸ hm⟩
  · intro p z d hp hm
    obtain ⟨w, hw, hs⟩ := old hp
    obtain ⟨v, hv, hpar⟩ := ht.down hw (hs.children ▸ hm)
    obtain ⟨v', hv', hs'⟩ := new hv
    exact ⟨v', hv', hs'.parent.trans hpar⟩
  · intro d z hd
    obtain ⟨w, hw, hs⟩ := old hd
    rw [hs.children]
    exact ht.nodup hw
  · intro d z hd
    obtain ⟨w, hw, hs⟩ := old hd
    rw [hs.children, hs.chainCount]
    exact ht.count hw
  · intro d z hd
    obtain ⟨w, hw, hs⟩ := old hd
    rw [hs.onRbtree, hs.parent]
    exact ht.onrb hw
  · intro d z hd
    obtain ⟨w, hw, hs⟩ := old hd
    rw [hs.parent]
    exact ht.irrefl hw
  · intro d z hd hst
    obtain ⟨w, hw, hs⟩ := old hd
    rw [hs.parent]
    exact ht.root hw (hs.static.symm.trans hst)

/-- A new chain. -/
theorem Tree.create (ht : Tree chains next) (hp : y.parent = none) (hc : y.children = [])
    (hn : y.chainCount = 0) (ho : y.onRbtree = false) :
    Tree (Function.update chains next (some y)) (next + 1) := by
  have fresh : ∀ {d w}, chains d = some w → d ≠ next := fun hd he =>
    absurd (ht.known hd) (he ▸ Nat.lt_irrefl _)
  have keep : ∀ {d w}, chains d = some w → Function.update chains next (some y) d = some w :=
    fun hd => by rw [Function.update_of_ne (fresh hd), hd]
  refine ⟨?_, ?_, ?_, ?_, ?_, ?_, ?_, ?_⟩
  · intro d z hd
    obtain ⟨rfl, -⟩ | ⟨-, hz⟩ := update_eq_some hd
    · exact Nat.lt_succ_self _
    · exact Nat.lt_succ_of_lt (ht.known hz)
  · intro d z p hd hpar
    obtain ⟨rfl, hz⟩ | ⟨-, hz⟩ := update_eq_some hd
    · obtain rfl := Option.some.inj hz
      rw [hp] at hpar
      cases hpar
    · obtain ⟨w, hw, hm⟩ := ht.up hz hpar
      exact ⟨w, keep hw, hm⟩
  · intro p z d hd hm
    obtain ⟨rfl, hz⟩ | ⟨-, hz⟩ := update_eq_some hd
    · obtain rfl := Option.some.inj hz
      rw [hc] at hm
      cases hm
    · obtain ⟨w, hw, hpar⟩ := ht.down hz hm
      exact ⟨w, keep hw, hpar⟩
  · intro d z hd
    obtain ⟨rfl, hz⟩ | ⟨-, hz⟩ := update_eq_some hd
    · obtain rfl := Option.some.inj hz
      rw [hc]
      exact List.nodup_nil
    · exact ht.nodup hz
  · intro d z hd
    obtain ⟨rfl, hz⟩ | ⟨-, hz⟩ := update_eq_some hd
    · obtain rfl := Option.some.inj hz
      rw [hc, hn]
      rfl
    · exact ht.count hz
  · intro d z hd
    obtain ⟨rfl, hz⟩ | ⟨-, hz⟩ := update_eq_some hd
    · obtain rfl := Option.some.inj hz
      rw [ho, hp]
      rfl
    · exact ht.onrb hz
  · intro d z hd
    obtain ⟨rfl, hz⟩ | ⟨-, hz⟩ := update_eq_some hd
    · obtain rfl := Option.some.inj hz
      rw [hp]
      nofun
    · exact ht.irrefl hz
  · intro d z hd hst
    obtain ⟨rfl, hz⟩ | ⟨-, hz⟩ := update_eq_some hd
    · obtain rfl := Option.some.inj hz
      exact hp
    · exact ht.root hz hst

/-- A chain that is in no tree goes. -/
theorem Tree.free (ht : Tree chains next) (hx : chains c = some x) (hp : x.parent = none)
    (hc : x.children = []) : Tree (Function.update chains c none) next := by
  have old : ∀ {d z}, Function.update chains c none d = some z → d ≠ c ∧ chains d = some z := by
    intro d z hd
    obtain ⟨-, hz⟩ | h := update_eq_some hd
    · cases hz
    · exact h
  have keep : ∀ {d w}, d ≠ c → chains d = some w → Function.update chains c none d = some w :=
    fun hne hd => by rw [Function.update_of_ne hne, hd]
  refine ⟨?_, ?_, ?_, ?_, ?_, ?_, ?_, ?_⟩
  · intro d z hd
    exact ht.known (old hd).2
  · intro d z p hd hpar
    obtain ⟨w, hw, hm⟩ := ht.up (old hd).2 hpar
    refine ⟨w, keep ?_ hw, hm⟩
    rintro rfl
    obtain rfl : x = w := by simpa [hx] using hw
    rw [hc] at hm
    cases hm
  · intro p z d hd hm
    obtain ⟨w, hw, hpar⟩ := ht.down (old hd).2 hm
    refine ⟨w, keep ?_ hw, hpar⟩
    rintro rfl
    obtain rfl : x = w := by simpa [hx] using hw
    rw [hp] at hpar
    cases hpar
  · intro d z hd
    exact ht.nodup (old hd).2
  · intro d z hd
    exact ht.count (old hd).2
  · intro d z hd
    exact ht.onrb (old hd).2
  · intro d z hd
    exact ht.irrefl (old hd).2
  · intro d z hd
    exact ht.root (old hd).2

/-- What two chains are after one has become a child of the other, or has ceased to be. -/
theorem update_two {o : Option Chain} {o' : Option Chain} {d : Nat}
    (h : Function.update (Function.update chains c o) p o' d = some z) :
    d = p ∧ o' = some z ∨ d = c ∧ d ≠ p ∧ o = some z ∨ d ≠ c ∧ d ≠ p ∧ chains d = some z := by
  obtain ⟨hd, hz⟩ | ⟨hp, hz⟩ := update_eq_some h
  · exact .inl ⟨hd, hz⟩
  · obtain ⟨hd, hz⟩ | ⟨hc, hz⟩ := update_eq_some hz
    · exact .inr (.inl ⟨hd, hp, hz⟩)
    · exact .inr (.inr ⟨hc, hp, hz⟩)

/-- A chain without a parent gets one. -/
theorem Tree.attach {x' y' : Chain} (ht : Tree chains next) (hx : chains c = some x)
    (hy : chains p = some y) (hpc : p ≠ c) (hpar : x.parent = none) (hst : x.static = false)
    (hxp : x'.parent = some p) (hxo : x'.onRbtree = true) (hxc : x'.children = x.children)
    (hxn : x'.chainCount = x.chainCount) (hxs : x'.static = x.static)
    (hyc : y'.children = c :: y.children) (hyn : y'.chainCount = y.chainCount + 1)
    (hyp : y'.parent = y.parent) (hyo : y'.onRbtree = y.onRbtree) (hys : y'.static = y.static) :
    Tree (Function.update (Function.update chains c (some x')) p (some y')) next := by
  have hatp : Function.update (Function.update chains c (some x')) p (some y') p = some y' :=
    Function.update_self ..
  have hatc : Function.update (Function.update chains c (some x')) p (some y') c = some x' := by
    rw [Function.update_of_ne hpc.symm, Function.update_self]
  have keep : ∀ {d w}, d ≠ c → d ≠ p → chains d = some w →
      Function.update (Function.update chains c (some x')) p (some y') d = some w :=
    fun hc hp hd => by rw [Function.update_of_ne hp, Function.update_of_ne hc, hd]
  have hno : c ∉ y.children := by
    intro hm
    obtain ⟨w, hw, hwp⟩ := ht.down hy hm
    obtain rfl : x = w := by simpa [hx] using hw
    rw [hpar] at hwp
    cases hwp
  refine ⟨?_, ?_, ?_, ?_, ?_, ?_, ?_, ?_⟩
  · intro d z hd
    obtain ⟨rfl, -⟩ | ⟨rfl, -, -⟩ | ⟨-, -, hz⟩ := update_two hd
    · exact ht.known hy
    · exact ht.known hx
    · exact ht.known hz
  · intro d z q hd hq
    have find : ∀ {w : Chain}, chains q = some w → d ∈ w.children →
        ∃ v, Function.update (Function.update chains c (some x')) p (some y') q = some v ∧
          d ∈ v.children := by
      intro w hw hm
      by_cases hqp : q = p
      · subst hqp
        obtain rfl : y = w := by simpa [hy] using hw
        exact ⟨y', hatp, by rw [hyc]; exact List.mem_cons_of_mem _ hm⟩
      · by_cases hqc : q = c
        · subst hqc
          obtain rfl : x = w := by simpa [hx] using hw
          exact ⟨x', hatc, by rw [hxc]; exact hm⟩
        · exact ⟨w, keep hqc hqp hw, hm⟩
    obtain ⟨rfl, hz⟩ | ⟨rfl, -, hz⟩ | ⟨-, -, hz⟩ := update_two hd
    · obtain rfl := Option.some.inj hz
      obtain ⟨w, hw, hm⟩ := ht.up hy (hyp.symm.trans hq)
      exact find hw hm
    · obtain rfl := Option.some.inj hz
      obtain rfl : p = q := by simpa [hxp] using hq
      exact ⟨y', hatp, by rw [hyc]; exact List.mem_cons_self⟩
    · obtain ⟨w, hw, hm⟩ := ht.up hz hq
      exact find hw hm
  · intro q z d hd hm
    have find : ∀ {w : Chain}, chains d = some w → w.parent = some q →
        ∃ v, Function.update (Function.update chains c (some x')) p (some y') d = some v ∧
          v.parent = some q := by
      intro w hw hwq
      by_cases hdp : d = p
      · subst hdp
        obtain rfl : y = w := by simpa [hy] using hw
        exact ⟨y', hatp, hyp.trans hwq⟩
      · by_cases hdc : d = c
        · subst hdc
          obtain rfl : x = w := by simpa [hx] using hw
          rw [hpar] at hwq
          cases hwq
        · exact ⟨w, keep hdc hdp hw, hwq⟩
    obtain ⟨rfl, hz⟩ | ⟨rfl, -, hz⟩ | ⟨-, -, hz⟩ := update_two hd
    · obtain rfl := Option.some.inj hz
      rw [hyc] at hm
      rcases List.mem_cons.mp hm with rfl | hm
      · exact ⟨x', hatc, hxp⟩
      · obtain ⟨w, hw, hwq⟩ := ht.down hy hm
        exact find hw hwq
    · obtain rfl := Option.some.inj hz
      rw [hxc] at hm
      obtain ⟨w, hw, hwq⟩ := ht.down hx hm
      exact find hw hwq
    · obtain ⟨w, hw, hwq⟩ := ht.down hz hm
      exact find hw hwq
  · intro d z hd
    obtain ⟨rfl, hz⟩ | ⟨rfl, -, hz⟩ | ⟨-, -, hz⟩ := update_two hd
    · obtain rfl := Option.some.inj hz
      rw [hyc]
      exact List.nodup_cons.mpr ⟨hno, ht.nodup hy⟩
    · obtain rfl := Option.some.inj hz
      rw [hxc]
      exact ht.nodup hx
    · exact ht.nodup hz
  · intro d z hd
    obtain ⟨rfl, hz⟩ | ⟨rfl, -, hz⟩ | ⟨-, -, hz⟩ := update_two hd
    · obtain rfl := Option.some.inj hz
      rw [hyc, hyn, ht.count hy]
      rfl
    · obtain rfl := Option.some.inj hz
      rw [hxc, hxn]
      exact ht.count hx
    · exact ht.count hz
  · intro d z hd
    obtain ⟨rfl, hz⟩ | ⟨rfl, -, hz⟩ | ⟨-, -, hz⟩ := update_two hd
    · obtain rfl := Option.some.inj hz
      rw [hyo, hyp]
      exact ht.onrb hy
    · obtain rfl := Option.some.inj hz
      rw [hxo, hxp]
      rfl
    · exact ht.onrb hz
  · intro d z hd
    obtain ⟨rfl, hz⟩ | ⟨rfl, -, hz⟩ | ⟨-, -, hz⟩ := update_two hd
    · obtain rfl := Option.some.inj hz
      rw [hyp]
      exact ht.irrefl hy
    · obtain rfl := Option.some.inj hz
      rw [hxp]
      exact fun h => hpc (Option.some.inj h)
    · exact ht.irrefl hz
  · intro d z hd hs
    obtain ⟨rfl, hz⟩ | ⟨rfl, -, hz⟩ | ⟨-, -, hz⟩ := update_two hd
    · obtain rfl := Option.some.inj hz
      rw [hyp]
      exact ht.root hy (hys.symm.trans hs)
    · obtain rfl := Option.some.inj hz
      rw [hxs, hst] at hs
      cases hs
    · exact ht.root hz hs

/-- A chain is taken out of the tree of its parent. -/
theorem Tree.cut {x' y' : Chain} (ht : Tree chains next) (hx : chains c = some x)
    (hy : chains p = some y) (hpar : x.parent = some p) (hxp : x'.parent = none)
    (hxo : x'.onRbtree = false) (hxc : x'.children = x.children)
    (hxn : x'.chainCount = x.chainCount) (hyc : y'.children = y.children.erase c)
    (hyn : y'.chainCount = y.chainCount - 1) (hyp : y'.parent = y.parent)
    (hyo : y'.onRbtree = y.onRbtree) (hys : y'.static = y.static) :
    Tree (Function.update (Function.update chains c (some x')) p (some y')) next := by
  have hpc : p ≠ c := fun h => ht.irrefl hx (h ▸ hpar)
  have hatp : Function.update (Function.update chains c (some x')) p (some y') p = some y' :=
    Function.update_self ..
  have hatc : Function.update (Function.update chains c (some x')) p (some y') c = some x' := by
    rw [Function.update_of_ne hpc.symm, Function.update_self]
  have keep : ∀ {d w}, d ≠ c → d ≠ p → chains d = some w →
      Function.update (Function.update chains c (some x')) p (some y') d = some w :=
    fun hc hp hd => by rw [Function.update_of_ne hp, Function.update_of_ne hc, hd]
  have hmem : c ∈ y.children := by
    obtain ⟨w, hw, hm⟩ := ht.up hx hpar
    obtain rfl : y = w := by simpa [hy] using hw
    exact hm
  refine ⟨?_, ?_, ?_, ?_, ?_, ?_, ?_, ?_⟩
  · intro d z hd
    obtain ⟨rfl, -⟩ | ⟨rfl, -, -⟩ | ⟨-, -, hz⟩ := update_two hd
    · exact ht.known hy
    · exact ht.known hx
    · exact ht.known hz
  · intro d z q hd hq
    have find : ∀ {w : Chain}, d ≠ c → chains q = some w → d ∈ w.children →
        ∃ v, Function.update (Function.update chains c (some x')) p (some y') q = some v ∧
          d ∈ v.children := by
      intro w hdc hw hm
      by_cases hqp : q = p
      · subst hqp
        obtain rfl : y = w := by simpa [hy] using hw
        exact ⟨y', hatp, by rw [hyc]; exact (List.mem_erase_of_ne hdc).mpr hm⟩
      · by_cases hqc : q = c
        · subst hqc
          obtain rfl : x = w := by simpa [hx] using hw
          exact ⟨x', hatc, by rw [hxc]; exact hm⟩
        · exact ⟨w, keep hqc hqp hw, hm⟩
    obtain ⟨rfl, hz⟩ | ⟨rfl, -, hz⟩ | ⟨hdc, -, hz⟩ := update_two hd
    · obtain rfl := Option.some.inj hz
      obtain ⟨w, hw, hm⟩ := ht.up hy (hyp.symm.trans hq)
      exact find hpc hw hm
    · obtain rfl := Option.some.inj hz
      rw [hxp] at hq
      cases hq
    · obtain ⟨w, hw, hm⟩ := ht.up hz hq
      exact find hdc hw hm
  · intro q z d hd hm
    have find : ∀ {w : Chain}, d ≠ c → chains d = some w → w.parent = some q →
        ∃ v, Function.update (Function.update chains c (some x')) p (some y') d = some v ∧
          v.parent = some q := by
      intro w hdc hw hwq
      by_cases hdp : d = p
      · subst hdp
        obtain rfl : y = w := by simpa [hy] using hw
        exact ⟨y', hatp, hyp.trans hwq⟩
      · exact ⟨w, keep hdc hdp hw, hwq⟩
    -- the chain is a child of its parent only
    have hne : ∀ {w : Chain}, q ≠ p → chains q = some w → d ∈ w.children → d ≠ c := by
      rintro w hqp hw hm rfl
      obtain ⟨v, hv, hvq⟩ := ht.down hw hm
      obtain rfl : x = v := by simpa [hx] using hv
      exact hqp (Option.some.inj (hvq.symm.trans hpar))
    obtain ⟨rfl, hz⟩ | ⟨rfl, hqp, hz⟩ | ⟨-, hqp, hz⟩ := update_two hd
    · obtain rfl := Option.some.inj hz
      rw [hyc] at hm
      have hdc : d ≠ c := fun h => (ht.nodup hy).not_mem_erase (h ▸ hm)
      obtain ⟨w, hw, hwq⟩ := ht.down hy (List.mem_of_mem_erase hm)
      exact find hdc hw hwq
    · obtain rfl := Option.some.inj hz
      rw [hxc] at hm
      obtain ⟨w, hw, hwq⟩ := ht.down hx hm
      exact find (hne hqp hx hm) hw hwq
    · obtain ⟨w, hw, hwq⟩ := ht.down hz hm
      exact find (hne hqp hz hm) hw hwq
  · intro d z hd
    obtain ⟨rfl, hz⟩ | ⟨rfl, -, hz⟩ | ⟨-, -, hz⟩ := update_two hd
    · obtain rfl := Option.some.inj hz
      rw [hyc]
      exact (ht.nodup hy).erase c
    · obtain rfl := Option.some.inj hz
      rw [hxc]
      exact ht.nodup hx
    · exact ht.nodup hz
  · intro d z hd
    obtain ⟨rfl, hz⟩ | ⟨rfl, -, hz⟩ | ⟨-, -, hz⟩ := update_two hd
    · obtain rfl := Option.some.inj hz
      rw [hyc, hyn, ht.count hy, List.length_erase_of_mem hmem]
    · obtain rfl := Option.some.inj hz
      rw [hxc, hxn]
      exact ht.count hx
    · exact ht.count hz
  · intro d z hd
    obtain ⟨rfl, hz⟩ | ⟨rfl, -, hz⟩ | ⟨-, -, hz⟩ := update_two hd
    · obtain rfl := Option.some.inj hz
      rw [hyo, hyp]
      exact ht.onrb hy
    · obtain rfl := Option.some.inj hz
      rw [hxo, hxp]
      rfl
    · exact ht.onrb hz
  · intro d z hd
    obtain ⟨rfl, hz⟩ | ⟨rfl, -, hz⟩ | ⟨-, -, hz⟩ := update_two hd
    · obtain rfl := Option.some.inj hz
      rw [hyp]
      exact ht.irrefl hy
    · obtain rfl := Option.some.inj hz
      rw [hxp]
      nofun
    · exact ht.irrefl hz
  · intro d z hd hs
    obtain ⟨rfl, hz⟩ | ⟨rfl, -, hz⟩ | ⟨-, -, hz⟩ := update_two hd
    · obtain rfl := Option.some.inj hz
      rw [hyp]
      exact ht.root hy (hys.symm.trans hs)
    · obtain rfl := Option.some.inj hz
      exact hxp
    · exact ht.root hz hs

end

/-! ## The mutex -/

/-- The state of the mutex of `c` is that of the holds on it. -/
structure Mutex (x : Chain) (c : Nat) (holds : List (Nat × Nat)) : Prop where
  free : x.writer = none → x.readers = Tokens.count holds c
  taken : ∀ {u n}, x.writer = some (u, n) →
    x.readers = 0 ∧ 0 < n ∧ n = Tokens.count holds c ∧ ∀ t, (t, c) ∈ holds → t = u

/-- Only the mutex changes. -/
def SameData (x y : Chain) : Prop := y = { x with writer := y.writer, readers := y.readers }

section
variable {x y : Chain} {c t : Nat} {holds holds' : List (Nat × Nat)} {ex : Bool}

theorem SameData.tree (h : SameData x y) : SameTree x y := by
  rw [h]
  exact ⟨rfl, rfl, rfl, rfl, rfl⟩

theorem SameData.refs (h : SameData x y) : y.refs = x.refs := by rw [h]

theorem SameData.update (h : SameData x y) : y.update = x.update := by rw [h]

theorem SameData.modified (h : SameData x y) : y.modified = x.modified := by rw [h]

theorem Mutex.congr (h : Mutex x c holds) (hw : y.writer = x.writer) (hr : y.readers = x.readers)
    (hh : holds'.filter (fun p => p.2 = c) = holds.filter fun p => p.2 = c) :
    Mutex y c holds' := by
  have hcount : Tokens.count holds' c = Tokens.count holds c := by
    unfold Tokens.count
    rw [List.countP_eq_length_filter, List.countP_eq_length_filter, hh]
  have hmem : ∀ u, (u, c) ∈ holds' → (u, c) ∈ holds := by
    intro u hu
    have hf : (u, c) ∈ holds'.filter fun p => p.2 = c := by simp [List.mem_filter, hu]
    rw [hh] at hf
    exact (List.mem_filter.mp hf).1
  constructor
  · intro hn
    rw [hr, hcount]
    exact h.free (hw.symm.trans hn)
  · intro u n hs
    obtain ⟨h0, hpos, hn, hall⟩ := h.taken (hw.symm.trans hs)
    exact ⟨hr.trans h0, hpos, hn.trans hcount.symm, fun t ht => hall t (hmem t ht)⟩

/-- A thread that gets the mutex. -/
theorem Mutex.enter (h : Mutex x c holds) (he : x.enter t ex = some y) :
    Mutex y c ((t, c) :: holds) ∧ SameData x y ∧
      (∀ u n, x.writer = some (u, n) → u = t) ∧
      (ex = true ∨ (∃ n, x.writer = some (t, n)) → ∃ n, y.writer = some (t, n)) := by
  unfold Chain.enter at he
  split at he
  · next u n hw =>
    split at he
    · next hut =>
      subst hut
      cases he
      obtain ⟨h0, hpos, hn, hall⟩ := h.taken hw
      refine ⟨⟨nofun, ?_⟩, rfl, ?_, fun _ => ⟨n + 1, rfl⟩⟩
      · intro v m hv
        cases hv
        refine ⟨h0, Nat.succ_pos n, by rw [Tokens.count_cons_self, hn], ?_⟩
        intro v hv
        rcases List.mem_cons.mp hv with he | he
        · cases he
          rfl
        · exact hall v he
      · intro v m hv
        rw [hw] at hv
        cases hv
        rfl
    · cases he
  · next hw =>
    have hno : ∀ u n, x.writer = some (u, n) → u = t := by
      intro u n hu
      rw [hw] at hu
      cases hu
    split at he
    · next hex =>
      split at he
      · next h0 =>
        cases he
        have hzero : Tokens.count holds c = 0 := (h.free hw).symm.trans h0
        refine ⟨⟨nofun, ?_⟩, rfl, hno, fun _ => ⟨1, rfl⟩⟩
        intro v m hv
        cases hv
        refine ⟨h0, Nat.one_pos, by rw [Tokens.count_cons_self, hzero], ?_⟩
        intro v hv
        rcases List.mem_cons.mp hv with he | he
        · cases he
          rfl
        · exact absurd he (Tokens.count_eq_zero.mp hzero v)
      · cases he
    · next hex =>
      cases he
      refine ⟨⟨?_, ?_⟩, rfl, hno, ?_⟩
      · intro _
        rw [Tokens.count_cons_self, ← h.free hw]
      · intro u n hu
        rw [show _ = _ from hw] at hu
        cases hu
      · rintro (he | ⟨n, hn⟩)
        · exact absurd he hex
        · rw [hw] at hn
          cases hn

/-- A thread that gives the mutex back. -/
theorem Mutex.exit (h : Mutex x c holds) (hm : (t, c) ∈ holds) (he : x.exit t = some y) :
    Mutex y c (holds.erase (t, c)) ∧ SameData x y ∧ ∀ u n, x.writer = some (u, n) → u = t := by
  have hcount := Tokens.count_erase_self hm
  unfold Chain.exit at he
  split at he
  · next u n hw =>
    split at he
    · next hut =>
      subst hut
      cases he
      obtain ⟨h0, hpos, hn, hall⟩ := h.taken hw
      refine ⟨⟨?_, ?_⟩, rfl, ?_⟩
      · intro hnone
        dsimp only at hnone
        split at hnone
        · show x.readers = _
          omega
        · cases hnone
      · intro v m hv
        dsimp only at hv
        split at hv
        · cases hv
        · cases hv
          exact ⟨h0, by omega, by omega, fun v hv => hall v (List.mem_of_mem_erase hv)⟩
      · intro v m hv
        rw [hw] at hv
        cases hv
        rfl
    · cases he
  · next hw =>
    split at he
    · cases he
    · cases he
      refine ⟨⟨?_, ?_⟩, rfl, ?_⟩
      · intro _
        have hr := h.free hw
        show x.readers - 1 = _
        omega
      · intro u n hu
        rw [show _ = _ from hw] at hu
        cases hu
      · intro u n hu
        rw [hw] at hu
        cases hu

/-- A thread that has the mutex can give it back. -/
theorem Mutex.exit_isSome (h : Mutex x c holds) (hm : (t, c) ∈ holds) : (x.exit t).isSome := by
  unfold Chain.exit
  split
  · next u n hw =>
    obtain ⟨-, -, -, hall⟩ := h.taken hw
    rw [if_pos (hall t hm).symm]
    rfl
  · next hw =>
    have hpos := Tokens.count_pos hm
    rw [if_neg (by rw [h.free hw]; omega)]
    rfl

end

end Hammer2.Chain
