/-
# `Hammer2.Io.Links` — the hash, the references, and the data of the DIOs

Three invariants of the DIO cache, each over the parts of the state it is about:

    Linked     the hash chains hold the DIOs, one for a block
    Counted    `refs` counts the references that threads have, `iofree_count` the DIOs
               without one
    Current    the buffer of a GOOD DIO is the block, and the media where there is none

A DIO changes in a few ways only (`set`, `create`, and the cleanup), and every step of the
cache is one of these.
-/
import Hammer2.Io.Cache
import Mathlib.Algebra.BigOperators.Group.Finset.Basic
import Mathlib.Order.Nat

namespace Hammer2.Io

/-! ## Hash chains -/

structure Linked (dios : Nat → Option Dio) (iohash : Nat → List Nat) (nextDio : Nat) : Prop where
  known : ∀ {d x}, dios d = some x → d < nextDio
  entered : ∀ {d x}, dios d = some x → d ∈ iohash (hashv x.pbase)
  alive : ∀ {h d}, d ∈ iohash h → ∃ x, dios d = some x ∧ hashv x.pbase = h
  nodup : ∀ h, (iohash h).Nodup
  unique : ∀ {d d' x x'}, dios d = some x → dios d' = some x' → x.pbase = x'.pbase → d = d'

section
variable {dios : Nat → Option Dio} {iohash : Nat → List Nat} {n d : Nat} {x y : Dio}

theorem Linked.init : Linked (fun _ => none) (fun _ => []) 0 where
  known h := by cases h
  entered h := by cases h
  alive h := by cases h
  nodup _ := List.nodup_nil
  unique h := by cases h

/-- What is in the map after an update at one place. -/
theorem update_eq_some {z : Option Dio} {d' : Nat} (h : Function.update dios d z d' = some y) :
    (d' = d ∧ z = some y) ∨ (d' ≠ d ∧ dios d' = some y) := by
  by_cases hd : d' = d
  · subst hd
    exact .inl ⟨rfl, by simpa using h⟩
  · exact .inr ⟨hd, by simpa [Function.update_of_ne hd] using h⟩

/-- A DIO that stays at its block. -/
theorem Linked.set (hl : Linked dios iohash n) (hd : dios d = some x) (hp : y.pbase = x.pbase) :
    Linked (Function.update dios d (some y)) iohash n := by
  -- the DIO that was there before has the same block
  have old : ∀ {e z}, Function.update dios d (some y) e = some z →
      ∃ z', dios e = some z' ∧ z'.pbase = z.pbase := by
    intro e z he
    obtain ⟨rfl, hz⟩ | ⟨-, hz⟩ := update_eq_some he
    · obtain rfl := Option.some.inj hz
      exact ⟨x, hd, hp.symm⟩
    · exact ⟨z, hz, rfl⟩
  refine ⟨?_, ?_, ?_, hl.nodup, ?_⟩
  · intro e z he
    obtain ⟨z', hz', -⟩ := old he
    exact hl.known hz'
  · intro e z he
    obtain ⟨z', hz', hpb⟩ := old he
    rw [← hpb]
    exact hl.entered hz'
  · intro h e he
    obtain ⟨z, hz, hh⟩ := hl.alive he
    by_cases hed : e = d
    · subst hed
      obtain rfl : x = z := by simpa [hd] using hz
      exact ⟨y, by simp, by rw [hp, hh]⟩
    · exact ⟨z, by rw [Function.update_of_ne hed, hz], hh⟩
  · intro e e' z z' he he' hzz
    obtain ⟨w, hw, hpw⟩ := old he
    obtain ⟨w', hw', hpw'⟩ := old he'
    exact hl.unique hw hw' (by rw [hpw, hpw', hzz])

/-- A new DIO, for a block that has none. -/
theorem Linked.create (hl : Linked dios iohash n)
    (hnew : ∀ {e z}, dios e = some z → z.pbase ≠ y.pbase) :
    Linked (Function.update dios n (some y))
      (Function.update iohash (hashv y.pbase) (iohash (hashv y.pbase) ++ [n])) (n + 1) := by
  have fresh : ∀ {h}, n ∉ iohash h := by
    intro h hn
    obtain ⟨z, hz, -⟩ := hl.alive hn
    exact absurd (hl.known hz) (Nat.lt_irrefl n)
  refine ⟨?_, ?_, ?_, ?_, ?_⟩
  · intro e z he
    obtain ⟨rfl, -⟩ | ⟨-, hz⟩ := update_eq_some he
    · exact Nat.lt_succ_self _
    · exact Nat.lt_succ_of_lt (hl.known hz)
  · intro e z he
    obtain ⟨rfl, hz⟩ | ⟨-, hz⟩ := update_eq_some he
    · obtain rfl := Option.some.inj hz
      simp
    · by_cases hh : hashv z.pbase = hashv y.pbase
      · rw [hh, Function.update_self, ← hh]
        exact List.mem_append_left _ (hl.entered hz)
      · rw [Function.update_of_ne hh]
        exact hl.entered hz
  · intro h e he
    -- a member of the old chain is not the new DIO
    have before : ∀ {h}, e ∈ iohash h →
        ∃ z, Function.update dios n (some y) e = some z ∧ hashv z.pbase = h := by
      intro h hm
      obtain ⟨z, hz, hh⟩ := hl.alive hm
      have hne : e ≠ n := fun h' => fresh (h' ▸ hm)
      exact ⟨z, by rw [Function.update_of_ne hne, hz], hh⟩
    by_cases hh : h = hashv y.pbase
    · subst hh
      rw [Function.update_self] at he
      rcases List.mem_append.mp he with hm | hm
      · exact before hm
      · obtain rfl := List.mem_singleton.mp hm
        exact ⟨y, Function.update_self .., rfl⟩
    · rw [Function.update_of_ne hh] at he
      exact before he
  · intro h
    by_cases hh : h = hashv y.pbase
    · subst hh
      rw [Function.update_self, List.nodup_append]
      refine ⟨hl.nodup _, List.pairwise_singleton _ n, ?_⟩
      intro a ha b hb hab
      obtain rfl := List.mem_singleton.mp hb
      exact fresh (hab ▸ ha)
    · rw [Function.update_of_ne hh]
      exact hl.nodup h
  · intro e e' z z' he he' hzz
    obtain ⟨rfl, hz⟩ | ⟨-, hz⟩ := update_eq_some he <;>
      obtain ⟨rfl, hz'⟩ | ⟨-, hz'⟩ := update_eq_some he'
    · rfl
    · obtain rfl := Option.some.inj hz
      exact absurd hzz.symm (hnew hz')
    · obtain rfl := Option.some.inj hz'
      exact absurd hzz (hnew hz)
    · exact hl.unique hz hz' hzz

end

/-- `hammer2_io_hash_lookup` finds the DIO of the block. -/
theorem hashLookup_some {s : State} {p d : Nat} {x : Dio} (h : hashLookup s p = some (d, x)) :
    s.dios d = some x ∧ x.pbase = p := by
  obtain ⟨e, -, he⟩ := List.exists_of_findSome?_eq_some h
  cases hx : s.dios e with
  | none => simp [hx] at he
  | some z =>
      rw [hx] at he
      dsimp only at he
      split at he
      · rename_i hp
        cases he
        exact ⟨hx, hp⟩
      · cases he

theorem hashLookup_none {s : State} {p : Nat} (hl : Linked s.dios s.iohash s.nextDio)
    (h : hashLookup s p = none) {d : Nat} {x : Dio} (hd : s.dios d = some x) : x.pbase ≠ p := by
  intro hp
  have hin := hl.entered hd
  rw [hp] at hin
  have hno := List.findSome?_eq_none_iff.mp h d hin
  simp [hd, hp] at hno

/-! ## References -/

/-- 1 for a DIO without a reference. -/
def unheld : Option Dio → Int
  | some x => if x.refs = 0 then 1 else 0
  | none => 0

/-- The DIOs without a reference, of the first `n`. -/
def unheldSum (dios : Nat → Option Dio) (n : Nat) : Int := ∑ d ∈ Finset.range n, unheld (dios d)

theorem unheldSum_update {dios : Nat → Option Dio} {n d : Nat} {z : Option Dio} (hd : d < n) :
    unheldSum (Function.update dios d z) n = unheldSum dios n - unheld (dios d) + unheld z := by
  have hmem : d ∈ Finset.range n := Finset.mem_range.mpr hd
  have hother : ∑ e ∈ (Finset.range n).erase d, unheld (Function.update dios d z e) =
      ∑ e ∈ (Finset.range n).erase d, unheld (dios e) :=
    Finset.sum_congr rfl fun e he => by
      rw [Function.update_of_ne (Finset.ne_of_mem_erase he)]
  have hl := Finset.add_sum_erase (Finset.range n) (fun e => unheld (Function.update dios d z e)) hmem
  have hr := Finset.add_sum_erase (Finset.range n) (fun e => unheld (dios e)) hmem
  simp only [Function.update_self] at hl
  unfold unheldSum
  rw [← hl, ← hr, hother]
  omega

theorem unheldSum_succ {dios : Nat → Option Dio} {n : Nat} {z : Option Dio} :
    unheldSum (Function.update dios n z) (n + 1) = unheldSum dios n + unheld z := by
  unfold unheldSum
  rw [Finset.sum_range_succ, Function.update_self]
  refine congrArg (· + unheld z) (Finset.sum_congr rfl fun e he => ?_)
  rw [Function.update_of_ne (Nat.ne_of_lt (Finset.mem_range.mp he))]

/-- The DIO that a thread in `hammer2_io_getblk` or a dedup function works on. -/
def Pc.busy : Pc → Option Nat
  | .fill d _ _ _ => some d
  | .dedup d _ _ _ => some d
  | _ => none

structure Counted (dios : Nat → Option Dio) (tokens : List (Nat × Nat)) (pc : Nat → Pc)
    (nextDio : Nat) (iofreeCount : Int) : Prop where
  refs : ∀ {d x}, dios d = some x → x.refs = Tokens.count tokens d
  held : ∀ {t d}, (t, d) ∈ tokens → ∃ x, dios d = some x
  busy : ∀ {t d}, (pc t).busy = some d → (t, d) ∈ tokens
  free : iofreeCount = unheldSum dios nextDio

section
variable {dios : Nat → Option Dio} {tokens : List (Nat × Nat)} {pc : Nat → Pc} {n d t : Nat}
  {count : Int} {x y : Dio}

theorem Counted.init : Counted (fun _ => none) [] (fun _ => .idle) 0 0 where
  refs h := by cases h
  held h := by cases h
  busy h := by cases h
  free := rfl

theorem Counted.alive_update (hc : Counted dios tokens pc n count) {e u : Nat}
    (h : (u, e) ∈ tokens) : ∃ z, Function.update dios d (some y) e = some z := by
  by_cases he : e = d
  · subst he
    exact ⟨y, Function.update_self ..⟩
  · rw [Function.update_of_ne he]
    exact hc.held h

/-- A DIO with the same number of references. -/
theorem Counted.set (hc : Counted dios tokens pc n count) (hn : d < n) (hd : dios d = some x)
    (hr : y.refs = x.refs) : Counted (Function.update dios d (some y)) tokens pc n count where
  refs := by
    intro e z he
    obtain ⟨rfl, hz⟩ | ⟨-, hz⟩ := update_eq_some he
    · obtain rfl := Option.some.inj hz
      rw [hr]
      exact hc.refs hd
    · exact hc.refs hz
  held := hc.alive_update
  busy := hc.busy
  free := by
    rw [unheldSum_update hn, hd, hc.free]
    simp [unheld, hr]

/-- One more reference, of `t`. -/
theorem Counted.acquire (hc : Counted dios tokens pc n count) (hn : d < n) (hd : dios d = some x)
    (hr : y.refs = x.refs + 1) :
    Counted (Function.update dios d (some y)) ((t, d) :: tokens) pc n
      (if x.refs = 0 then count - 1 else count) where
  refs := by
    intro e z he
    obtain ⟨rfl, hz⟩ | ⟨hne, hz⟩ := update_eq_some he
    · obtain rfl := Option.some.inj hz
      rw [Tokens.count_cons_self, hr, hc.refs hd]
    · rw [Tokens.count_cons_of_ne hne]
      exact hc.refs hz
  held := by
    intro u e hm
    rcases List.mem_cons.mp hm with h | h
    · cases h
      exact ⟨y, Function.update_self ..⟩
    · exact hc.alive_update h
  busy := fun h => List.mem_cons_of_mem _ (hc.busy h)
  free := by
    rw [unheldSum_update hn, hd, hc.free]
    by_cases h0 : x.refs = 0 <;> simp [unheld, hr, h0]

/-- The first reference of a new DIO. -/
theorem Counted.create (hc : Counted dios tokens pc n count)
    (hl : ∀ {e z}, dios e = some z → e < n) (hr : y.refs = 1) :
    Counted (Function.update dios n (some y)) ((t, n) :: tokens) pc (n + 1) count where
  refs := by
    intro e z he
    obtain ⟨rfl, hz⟩ | ⟨hne, hz⟩ := update_eq_some he
    · obtain rfl := Option.some.inj hz
      have hnone : Tokens.count tokens e = 0 := by
        rw [Tokens.count_eq_zero]
        intro u hm
        obtain ⟨w, hw⟩ := hc.held hm
        exact absurd (hl hw) (Nat.lt_irrefl e)
      rw [Tokens.count_cons_self, hnone, hr]
    · rw [Tokens.count_cons_of_ne hne]
      exact hc.refs hz
  held := by
    intro u e hm
    rcases List.mem_cons.mp hm with h | h
    · cases h
      exact ⟨y, Function.update_self ..⟩
    · exact hc.alive_update h
  busy := fun h => List.mem_cons_of_mem _ (hc.busy h)
  free := by
    rw [unheldSum_succ, ← hc.free]
    simp [unheld, hr]

/-- A thread goes on to work on a DIO it has, or on none. -/
theorem Counted.goto (hc : Counted dios tokens pc n count) {p : Pc}
    (hp : ∀ {e}, p.busy = some e → (t, e) ∈ tokens) :
    Counted dios tokens (Function.update pc t p) n count where
  refs := hc.refs
  held := hc.held
  busy := by
    intro u e he
    by_cases hu : u = t
    · subst hu
      rw [Function.update_self] at he
      exact hp he
    · rw [Function.update_of_ne hu] at he
      exact hc.busy he
  free := hc.free

/-- A reference changes hands. -/
theorem Counted.give (hc : Counted dios tokens pc n count) (hm : (t, d) ∈ tokens)
    (hidle : (pc t).busy = none) (u : Nat) :
    Counted dios ((u, d) :: tokens.erase (t, d)) pc n count := by
  have hperm : tokens.Perm ((t, d) :: tokens.erase (t, d)) := List.perm_cons_erase hm
  refine ⟨?_, ?_, ?_, hc.free⟩
  · intro e z he
    rw [hc.refs he, Tokens.count_perm hperm]
    rfl
  · intro v e hv
    rcases List.mem_cons.mp hv with h | h
    · cases h
      exact hc.held hm
    · exact hc.held (List.mem_of_mem_erase h)
  · intro v e hv
    have hne : v ≠ t := by
      rintro rfl
      rw [hidle] at hv
      cases hv
    exact List.mem_cons_of_mem _
      ((List.mem_erase_of_ne fun h => hne (congrArg Prod.fst h)).mpr (hc.busy hv))

/-- One reference less. -/
theorem Counted.release (hc : Counted dios tokens pc n count) (hn : d < n) (hd : dios d = some x)
    (hm : (t, d) ∈ tokens) (hidle : (pc t).busy = none) (hr : y.refs + 1 = x.refs) :
    Counted (Function.update dios d (some y)) (tokens.erase (t, d)) pc n
      (if y.refs = 0 then count + 1 else count) := by
  have hperm : tokens.Perm ((t, d) :: tokens.erase (t, d)) := List.perm_cons_erase hm
  refine ⟨?_, ?_, ?_, ?_⟩
  · intro e z he
    obtain ⟨rfl, hz⟩ | ⟨hne, hz⟩ := update_eq_some he
    · obtain rfl := Option.some.inj hz
      have hx := hc.refs hd
      rw [Tokens.count_perm hperm, Tokens.count_cons_self] at hx
      omega
    · rw [hc.refs hz, Tokens.count_perm hperm, Tokens.count_cons_of_ne hne]
  · intro v e hv
    exact hc.alive_update (List.mem_of_mem_erase hv)
  · intro v e hv
    have hne : v ≠ t := by
      rintro rfl
      rw [hidle] at hv
      cases hv
    exact (List.mem_erase_of_ne fun h => hne (congrArg Prod.fst h)).mpr (hc.busy hv)
  · have hpos : x.refs ≠ 0 := by omega
    rw [unheldSum_update hn, hd, hc.free]
    by_cases h0 : y.refs = 0 <;> simp [unheld, hpos, h0]

end

/-! ## Data -/

structure Current (dios : Nat → Option Dio) (media content : Nat → Block) (marked : Nat → Bool) :
    Prop where
  good : ∀ {d x}, dios d = some x → (x.good = true ↔ x.bp.isSome)
  unref : ∀ {d x}, dios d = some x → x.refs = 0 → x.bp = none
  block : ∀ {d x b}, dios d = some x → x.bp = some b → b = content x.pbase
  marked : ∀ {p}, marked p = true →
    ∃ d x, dios d = some x ∧ x.pbase = p ∧ x.good = true ∧ x.dirty = true
  media : ∀ {p}, (∀ {d x}, dios d = some x → x.pbase = p → x.good = false) → media p = content p

section
variable {dios : Nat → Option Dio} {media content : Nat → Block} {marked : Nat → Bool} {d : Nat}
  {x y : Dio}

theorem Current.init : Current (fun _ => none) media media (fun _ => false) where
  good h := by cases h
  unref h := by cases h
  block h := by cases h
  marked h := by cases h
  media _ := rfl

/-- A DIO and what belongs to its block change together; the other blocks have other DIOs. -/
theorem Current.set (hc : Current dios media content marked)
    (hu : ∀ {e z}, dios e = some z → z.pbase = x.pbase → e = d) (hd : dios d = some x)
    (hp : y.pbase = x.pbase) {m c : Block} {k : Bool} (hgood : y.good = true ↔ y.bp.isSome)
    (hunref : y.refs = 0 → y.bp = none) (hblock : ∀ b, y.bp = some b → b = c)
    (hmark : k = true → y.good = true ∧ y.dirty = true) (hmedia : y.good = false → m = c) :
    Current (Function.update dios d (some y)) (Function.update media x.pbase m)
      (Function.update content x.pbase c) (Function.update marked x.pbase k) := by
  refine ⟨?_, ?_, ?_, ?_, ?_⟩
  · intro e z he
    obtain ⟨rfl, hz⟩ | ⟨-, hz⟩ := update_eq_some he
    · obtain rfl := Option.some.inj hz
      exact hgood
    · exact hc.good hz
  · intro e z he
    obtain ⟨rfl, hz⟩ | ⟨-, hz⟩ := update_eq_some he
    · obtain rfl := Option.some.inj hz
      exact hunref
    · exact hc.unref hz
  · intro e z b he hb
    obtain ⟨rfl, hz⟩ | ⟨hne, hz⟩ := update_eq_some he
    · obtain rfl := Option.some.inj hz
      rw [hp, Function.update_self]
      exact hblock b hb
    · rw [Function.update_of_ne fun h => hne (hu hz h)]
      exact hc.block hz hb
  · intro p hk
    by_cases hpx : p = x.pbase
    · subst hpx
      rw [Function.update_self] at hk
      exact ⟨d, y, Function.update_self .., hp, hmark hk⟩
    · rw [Function.update_of_ne hpx] at hk
      obtain ⟨e, z, he, hz, hgd⟩ := hc.marked hk
      have hne : e ≠ d := by
        rintro rfl
        obtain rfl : x = z := by simpa [hd] using he
        exact hpx hz.symm
      exact ⟨e, z, by rw [Function.update_of_ne hne, he], hz, hgd⟩
  · intro p hall
    by_cases hpx : p = x.pbase
    · subst hpx
      rw [Function.update_self, Function.update_self]
      exact hmedia (hall (Function.update_self ..) hp)
    · rw [Function.update_of_ne hpx, Function.update_of_ne hpx]
      refine hc.media fun {e z} he hz => ?_
      have hne : e ≠ d := by
        rintro rfl
        obtain rfl : x = z := by simpa [hd] using he
        exact hpx hz.symm
      exact hall (by rw [Function.update_of_ne hne, he]) hz

/-- A change of a DIO that leaves its buffer alone. -/
theorem Current.keep (hc : Current dios media content marked)
    (hu : ∀ {e z}, dios e = some z → z.pbase = x.pbase → e = d) (hd : dios d = some x)
    (hp : y.pbase = x.pbase) (hg : y.good = x.good) (hb : y.bp = x.bp)
    (hdirty : x.dirty = true → y.dirty = true) (hr : y.refs = 0 → x.refs = 0) :
    Current (Function.update dios d (some y)) media content marked := by
  have h := hc.set (y := y) (m := media x.pbase) (c := content x.pbase) (k := marked x.pbase)
    hu hd hp ?_ ?_ ?_ ?_ ?_
  · simpa only [Function.update_eq_self] using h
  · rw [hg, hb]
    exact hc.good hd
  · intro h0
    rw [hb]
    exact hc.unref hd (hr h0)
  · intro b hyb
    exact hc.block hd (hb ▸ hyb)
  · intro hk
    obtain ⟨e, z, he, hz, hgood, hdirt⟩ := hc.marked hk
    obtain rfl := hu he hz
    obtain rfl : x = z := by simpa [hd] using he
    exact ⟨hg.trans hgood, hdirty hdirt⟩
  · intro hyg
    refine hc.media fun {e z} he hz => ?_
    obtain rfl := hu he hz
    obtain rfl : x = z := by simpa [hd] using he
    exact hg ▸ hyg

/-- A new DIO has no buffer. -/
theorem Current.create (hc : Current dios media content marked) (hnone : dios d = none)
    (hg : y.good = false) (hb : y.bp = none) :
    Current (Function.update dios d (some y)) media content marked where
  good := by
    intro e z he
    obtain ⟨rfl, hz⟩ | ⟨-, hz⟩ := update_eq_some he
    · obtain rfl := Option.some.inj hz
      simp [hg, hb]
    · exact hc.good hz
  unref := by
    intro e z he
    obtain ⟨rfl, hz⟩ | ⟨-, hz⟩ := update_eq_some he
    · obtain rfl := Option.some.inj hz
      exact fun _ => hb
    · exact hc.unref hz
  block := by
    intro e z b he hzb
    obtain ⟨rfl, hz⟩ | ⟨-, hz⟩ := update_eq_some he
    · obtain rfl := Option.some.inj hz
      rw [hb] at hzb
      cases hzb
    · exact hc.block hz hzb
  marked := by
    intro p hk
    obtain ⟨e, z, he, hrest⟩ := hc.marked hk
    have hne : e ≠ d := by
      rintro rfl
      rw [hnone] at he
      cases he
    exact ⟨e, z, by rw [Function.update_of_ne hne, he], hrest⟩
  media := by
    intro p hall
    refine hc.media fun {e z} he hz => ?_
    have hne : e ≠ d := by
      rintro rfl
      rw [hnone] at he
      cases he
    exact hall (by rw [Function.update_of_ne hne, he]) hz

end

end Hammer2.Io
