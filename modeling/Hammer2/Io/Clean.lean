/-
# `Hammer2.Io.Clean` — what the cleanup takes away

`hammer2_io_hash_cleanup` ages the DIOs of some hash chains and takes away those that have no
reference and no life left.  `Cleaned s s'` is all that it does to the state, and the three
invariants survive it.
-/
import Hammer2.Io.Links

namespace Hammer2.Io

/-- A DIO keeps all but its age, or it had no reference and is gone. -/
inductive Aged : Option Dio → Option Dio → Prop
  | same (a : Option Dio) : Aged a a
  | act (x : Dio) (act : Int) : Aged (some x) (some { x with act })
  | gone {x : Dio} : x.refs = 0 → x.bp = none → Aged (some x) none

theorem Aged.trans {a b c : Option Dio} (h : Aged a b) (h' : Aged b c) : Aged a c := by
  cases h with
  | same => exact h'
  | act x k =>
      cases h' with
      | same => exact .act x k
      | act _ k' => exact .act x k'
      | gone h0 hb => exact .gone h0 hb
  | gone h0 hb =>
      cases h'
      exact .gone h0 hb

theorem Aged.some_right {a : Option Dio} {y : Dio} (h : Aged a (some y)) :
    ∃ x, a = some x ∧ y = { x with act := y.act } := by
  cases h with
  | same => exact ⟨y, rfl, rfl⟩
  | act x k => exact ⟨x, rfl, rfl⟩

theorem Aged.some_left {x : Dio} {b : Option Dio} (h : Aged (some x) b) :
    (∃ k, b = some { x with act := k }) ∨ (b = none ∧ x.refs = 0 ∧ x.bp = none) := by
  cases h with
  | same => exact .inl ⟨x.act, rfl⟩
  | act _ k => exact .inl ⟨k, rfl⟩
  | gone h0 hb => exact .inr ⟨rfl, h0, hb⟩

theorem Aged.isSome {a b : Option Dio} (h : Aged a b) (hb : b.isSome) : a.isSome := by
  obtain ⟨y, rfl⟩ := Option.isSome_iff_exists.mp hb
  obtain ⟨x, rfl, -⟩ := h.some_right
  rfl

/-! ## One hash chain -/

/-- The chain `ds` has been gone through, and `kept` stays. -/
structure Swept (ds : List Nat) (s : State) (kept : List Nat) (s' : State) : Prop where
  aged : ∀ d, Aged (s.dios d) (s'.dios d)
  other : ∀ d, d ∉ ds → s'.dios d = s.dios d
  kept : kept = ds.filter fun d => (s'.dios d).isSome
  free : ∀ n, (∀ d ∈ ds, d < n) →
    s'.iofreeCount - unheldSum s'.dios n = s.iofreeCount - unheldSum s.dios n
  rest : s' = { s with dios := s'.dios, iofreeCount := s'.iofreeCount }

section
variable {s s' : State} {d : Nat} {ds kept : List Nat} {x : Dio} {now hz : Int}

theorem Swept.keep {act : Int} (hd : d ∉ ds) (hx : s.dios d = some x)
    (h : Swept ds (s.setDio d { x with act }) kept s') : Swept (d :: ds) s (d :: kept) s' := by
  have hself : s'.dios d = some { x with act } := by
    rw [h.other d hd]
    exact Function.update_self ..
  have hold : ∀ {e}, e ≠ d → (s.setDio d { x with act }).dios e = s.dios e :=
    fun he => Function.update_of_ne he ..
  refine ⟨?_, ?_, ?_, ?_, ?_⟩
  · intro e
    by_cases he : e = d
    · subst he
      rw [hx, hself]
      exact .act x act
    · rw [← hold he]
      exact h.aged e
  · intro e he
    have hne : e ≠ d := fun heq => he (heq ▸ List.mem_cons_self)
    rw [h.other e fun hm => he (List.mem_cons_of_mem d hm), hold hne]
  · rw [List.filter_cons_of_pos (by rw [hself]; rfl), ← h.kept]
  · intro n hn
    rw [h.free n fun e he => hn e (List.mem_cons_of_mem d he)]
    show s.iofreeCount - unheldSum (Function.update s.dios d _) n = _
    rw [unheldSum_update (hn d List.mem_cons_self), hx]
    simp [unheld]
  · exact h.rest

theorem Swept.drop (hd : d ∉ ds) (hx : s.dios d = some x) (h0 : x.refs = 0) (hb : x.bp = none)
    (h : Swept ds { s with
      dios := Function.update s.dios d none, iofreeCount := s.iofreeCount - 1 } kept s') :
    Swept (d :: ds) s kept s' := by
  have hself : s'.dios d = none := by
    rw [h.other d hd]
    exact Function.update_self ..
  have hold : ∀ {e}, e ≠ d → Function.update s.dios d none e = s.dios e :=
    fun he => Function.update_of_ne he ..
  refine ⟨?_, ?_, ?_, ?_, ?_⟩
  · intro e
    by_cases he : e = d
    · subst he
      rw [hx, hself]
      exact .gone h0 hb
    · rw [← hold he]
      exact h.aged e
  · intro e he
    have hne : e ≠ d := fun heq => he (heq ▸ List.mem_cons_self)
    rw [h.other e fun hm => he (List.mem_cons_of_mem d hm)]
    exact hold hne
  · rw [List.filter_cons_of_neg (by rw [hself]; nofun), ← h.kept]
  · intro n hn
    rw [h.free n fun e he => hn e (List.mem_cons_of_mem d he)]
    show s.iofreeCount - 1 - unheldSum (Function.update s.dios d none) n = _
    rw [unheldSum_update (hn d List.mem_cons_self), hx]
    simp only [unheld, if_pos h0]
    omega
  · exact h.rest

theorem cleanChain_spec : ∀ {ds : List Nat} {s : State} {count : Int} {kept : List Nat}
    {s' : State} {count' : Int}, ds.Nodup → cleanChain now hz ds s count = some (kept, s', count') →
    Swept ds s kept s'
  | [], s, count, kept, s', count', _, h => by
      cases h
      exact ⟨fun d => .same _, fun d _ => rfl, rfl, fun n _ => rfl, rfl⟩
  | d :: ds, s, count, kept, s', count', hnd, h => by
      obtain ⟨hd, hds⟩ := List.nodup_cons.mp hnd
      unfold cleanChain at h
      obtain ⟨x, hx, h⟩ := Option.bind_eq_some_iff.mp h
      split at h
      · obtain ⟨⟨kept₁, s₁, count₁⟩, hrun, h⟩ := Option.bind_eq_some_iff.mp h
        cases h
        have hsame : s.setDio d { x with act := x.act } = s := by
          show { s with dios := Function.update s.dios d (some x) } = s
          rw [← hx, Function.update_eq_self]
        have hrest : Swept ds (s.setDio d { x with act := x.act }) kept₁ s' := by
          rw [hsame]
          exact cleanChain_spec hds hrun
        exact hrest.keep hd hx
      · rename_i h0
        generalize (if x.act > 0 then _ else x.act) = act at h
        dsimp only at h
        split at h
        · obtain ⟨⟨kept₁, s₁, count₁⟩, hrun, h⟩ := Option.bind_eq_some_iff.mp h
          cases h
          exact Swept.keep hd hx (cleanChain_spec hds hrun)
        · split at h
          · cases h
          · rename_i hbp
            exact Swept.drop hd hx (not_not.mp h0) (by simpa using hbp) (cleanChain_spec hds h)

end

/-! ## The cleanup -/

/-- What the cleanup does to the state. -/
structure Cleaned (s s' : State) : Prop where
  aged : ∀ d, Aged (s.dios d) (s'.dios d)
  kept : ∀ h, s'.iohash h = (s.iohash h).filter fun d => (s'.dios d).isSome
  free : (∀ {d x}, s.dios d = some x → d < s.nextDio) →
    s'.iofreeCount - unheldSum s'.dios s.nextDio = s.iofreeCount - unheldSum s.dios s.nextDio
  rest : s' = { s with
    dios := s'.dios
    iohash := s'.iohash
    iofreeCount := s'.iofreeCount
    ioIterator := s'.ioIterator }

section
variable {s s' s'' : State} {now hz : Int}

theorem Cleaned.nextDio (h : Cleaned s s') : s'.nextDio = s.nextDio := by rw [h.rest]

theorem Cleaned.refl (hl : Linked s.dios s.iohash s.nextDio) (k : Nat) :
    Cleaned s { s with ioIterator := k } where
  aged _ := .same _
  kept h := by
    refine (List.filter_eq_self.mpr fun d hd => ?_).symm
    obtain ⟨x, hx, -⟩ := hl.alive hd
    show (s.dios d).isSome = true
    rw [hx]
    rfl
  free _ := rfl
  rest := rfl

theorem Cleaned.trans (h : Cleaned s s') (h' : Cleaned s' s'') : Cleaned s s'' where
  aged d := (h.aged d).trans (h'.aged d)
  kept k := by
    rw [h'.kept k, h.kept k, List.filter_filter]
    refine List.filter_congr fun d _ => ?_
    cases hd : (s''.dios d).isSome with
    | false => rfl
    | true => rw [(h'.aged d).isSome hd, Bool.and_self]
  free hn := by
    have hn' : ∀ {d x}, s'.dios d = some x → d < s'.nextDio := by
      intro d x hd
      obtain ⟨y, hy, -⟩ := (hd ▸ h.aged d).some_right
      rw [h.nextDio]
      exact hn hy
    have hlast := h'.free hn'
    rw [h.nextDio] at hlast
    rw [hlast, h.free hn]
  rest := by
    rw [h'.rest, h.rest]

/-- A hash chain gone through and put back. -/
theorem Cleaned.chain (hl : Linked s.dios s.iohash s.nextDio) {h k : Nat} {kept : List Nat}
    (hs : Swept (s.iohash h) s kept s') :
    Cleaned s { s' with iohash := Function.update s'.iohash h kept, ioIterator := k } where
  aged := hs.aged
  kept h' := by
    have hio : s'.iohash = s.iohash := by rw [hs.rest]
    by_cases hh : h' = h
    · subst hh
      show Function.update s'.iohash h' kept h' = _
      rw [Function.update_self]
      exact hs.kept
    · show Function.update s'.iohash h kept h' = _
      rw [Function.update_of_ne hh, hio]
      refine (List.filter_eq_self.mpr fun d hd => ?_).symm
      obtain ⟨x, hx, hxh⟩ := hl.alive hd
      have hout : d ∉ s.iohash h := by
        intro hin
        obtain ⟨y, hy, hyh⟩ := hl.alive hin
        obtain rfl : x = y := by simpa [hx] using hy
        exact hh (hxh.symm.trans hyh)
      show (s'.dios d).isSome = true
      rw [hs.other d hout, hx]
      rfl
  free hn := hs.free s.nextDio fun d hd => by
    obtain ⟨x, hx, -⟩ := hl.alive hd
    exact hn hx
  rest := by rw [hs.rest]

/-! ## The invariants -/

theorem Linked.clean (hl : Linked s.dios s.iohash s.nextDio) (h : Cleaned s s') :
    Linked s'.dios s'.iohash s'.nextDio := by
  have old : ∀ {d y}, s'.dios d = some y → ∃ x, s.dios d = some x ∧ y.pbase = x.pbase := by
    intro d y hy
    obtain ⟨x, hx, hyx⟩ := (hy ▸ h.aged d).some_right
    exact ⟨x, hx, by rw [hyx]⟩
  refine ⟨?_, ?_, ?_, ?_, ?_⟩
  · intro d y hy
    obtain ⟨x, hx, -⟩ := old hy
    rw [h.nextDio]
    exact hl.known hx
  · intro d y hy
    obtain ⟨x, hx, hp⟩ := old hy
    rw [h.kept, List.mem_filter, hp, hy]
    exact ⟨hl.entered hx, rfl⟩
  · intro k d hd
    rw [h.kept, List.mem_filter] at hd
    obtain ⟨y, hy⟩ := Option.isSome_iff_exists.mp hd.2
    obtain ⟨x, hx, hp⟩ := old hy
    obtain ⟨z, hz, hk⟩ := hl.alive hd.1
    obtain rfl : x = z := by simpa [hx] using hz
    exact ⟨y, hy, by rw [hp, hk]⟩
  · intro k
    rw [h.kept]
    exact (hl.nodup k).filter _
  · intro d d' y y' hy hy' hp
    obtain ⟨x, hx, hpx⟩ := old hy
    obtain ⟨x', hx', hpx'⟩ := old hy'
    exact hl.unique hx hx' (by rw [← hpx, ← hpx', hp])

theorem Counted.clean (hl : Linked s.dios s.iohash s.nextDio)
    (hc : Counted s.dios s.tokens s.pc s.nextDio s.iofreeCount) (h : Cleaned s s') :
    Counted s'.dios s'.tokens s'.pc s'.nextDio s'.iofreeCount := by
  have htok : s'.tokens = s.tokens := by rw [h.rest]
  have hpc : s'.pc = s.pc := by rw [h.rest]
  rw [htok, hpc, h.nextDio]
  refine ⟨?_, ?_, hc.busy, ?_⟩
  · intro d y hy
    obtain ⟨x, hx, hyx⟩ := (hy ▸ h.aged d).some_right
    rw [hyx]
    exact hc.refs (x := x) hx
  · intro t d hm
    obtain ⟨x, hx⟩ := hc.held hm
    obtain ⟨k, hk⟩ | ⟨-, h0, -⟩ := (hx ▸ h.aged d).some_left
    · exact ⟨_, hk⟩
    · exact absurd hm (Tokens.count_eq_zero.mp ((hc.refs hx).symm.trans h0) t)
  · have hfree := h.free hl.known
    rw [hc.free] at hfree
    omega

theorem Current.clean (hc : Current s.dios s.media s.content s.marked) (h : Cleaned s s') :
    Current s'.dios s'.media s'.content s'.marked := by
  have hmedia : s'.media = s.media := by rw [h.rest]
  have hcontent : s'.content = s.content := by rw [h.rest]
  have hmarked : s'.marked = s.marked := by rw [h.rest]
  rw [hmedia, hcontent, hmarked]
  -- a GOOD DIO has a buffer, so it is not taken away
  have stays : ∀ {d x}, s.dios d = some x → x.good = true →
      ∃ k, s'.dios d = some { x with act := k } := by
    intro d x hx hg
    obtain hk | ⟨-, -, hb⟩ := (hx ▸ h.aged d).some_left
    · exact hk
    · have hsome := (hc.good hx).mp hg
      rw [hb] at hsome
      cases hsome
  refine ⟨?_, ?_, ?_, ?_, ?_⟩
  · intro d y hy
    obtain ⟨x, hx, hyx⟩ := (hy ▸ h.aged d).some_right
    rw [hyx]
    exact hc.good (x := x) hx
  · intro d y hy
    obtain ⟨x, hx, hyx⟩ := (hy ▸ h.aged d).some_right
    rw [hyx]
    exact hc.unref (x := x) hx
  · intro d y b hy hb
    obtain ⟨x, hx, hyx⟩ := (hy ▸ h.aged d).some_right
    rw [hyx] at hb ⊢
    exact hc.block (x := x) hx hb
  · intro p hp
    obtain ⟨d, x, hx, hxp, hg, hd⟩ := hc.marked hp
    obtain ⟨k, hk⟩ := stays hx hg
    exact ⟨d, _, hk, hxp, hg, hd⟩
  · intro p hall
    refine hc.media fun {d x} hx hxp => ?_
    cases hg : x.good with
    | false => rfl
    | true =>
        obtain ⟨k, hk⟩ := stays hx hg
        have hno := hall hk hxp
        exact absurd hno (by simp [hg])

theorem cleanLoop_spec : ∀ {maxscan i : Nat} {s : State} {count : Int} {s' : State},
    Linked s.dios s.iohash s.nextDio → cleanLoop now hz maxscan i s count = some s' → Cleaned s s'
  | 0, i, s, count, s', hl, h => by
      cases h
      exact .refl hl s.ioIterator
  | maxscan + 1, i, s, count, s', hl, h => by
      unfold cleanLoop at h
      split at h
      · cases h
        exact .refl hl s.ioIterator
      · obtain ⟨⟨kept, s₁, count₁⟩, hrun, h⟩ := Option.bind_eq_some_iff.mp h
        have hchain := Cleaned.chain hl (k := s₁.ioIterator + 1)
          (cleanChain_spec (hl.nodup _) hrun)
        exact hchain.trans (cleanLoop_spec (hl.clean hchain) h)

theorem cleanup_spec {dioLimit : Int} (hl : Linked s.dios s.iohash s.nextDio)
    (h : cleanup s dioLimit now hz = some s') : Cleaned s s' := by
  unfold cleanup at h
  split at h
  · cases h
    exact .refl hl s.ioIterator
  · have hnext := Cleaned.refl hl (s.ioIterator + 1)
    exact hnext.trans (cleanLoop_spec (hl.clean hnext) h)

end

end Hammer2.Io
