/-
# `Hammer2.Freemap.Honest` — the search ends, and `ENOSPC` is the truth

A hint is honest when a bit that is clear belongs to a radix that no entry of the leaf can
satisfy.  The search clears a bit after it has looked at the whole leaf in every class; an
allocation makes nothing satisfiable that was not (`Satisfies.of_alloc`); whatever else writes
an entry sets all bits.

    tryAlloc_cases      what one round of the search can do
    bounded             the measure of the rounds, and what is known at the end
    run_honest          the hints of every reachable state are honest
    alloc_honest        so is the `ENOSPC` of the whole search
-/
import Hammer2.Freemap.Search

namespace Hammer2.Alloc

open Machine Loop
open Account (leafOf zoneBytes entry)

/-! ## The scan of a leaf -/

section
variable {f : Nat → BmapAlloc} {start left n : Nat} {r : BmapAlloc}

/-- What the scan returns is the outcome of an entry of the leaf, and not `ENOSPC`. -/
theorem leafScan_some (hstart : start < freemapCount) : ∀ {left : Nat}, left ≤ freemapCount →
    leafScan f start left = some (n, r) → n < freemapCount ∧ f n = r ∧ r ≠ .enospc
  | left + 1, hleft, h => by
      unfold leafScan at h
      dsimp only at h
      split at h
      · cases h
      · split at h
        · next hfwd =>
          split at h
          · exact leafScan_some hstart (by omega) h
          · next hne =>
            obtain ⟨rfl, rfl⟩ := Prod.mk.inj (Option.some.inj h)
            split at hne
            · next hle =>
              rw [if_pos hle]
              exact ⟨by omega, rfl, hne⟩
            · exact absurd rfl hne
        · next hne =>
          obtain ⟨rfl, rfl⟩ := Prod.mk.inj (Option.some.inj h)
          split at hne
          · next hlt =>
            rw [if_pos hlt]
            exact ⟨hlt, rfl, hne⟩
          · exact absurd rfl hne

/-- The scan returns nothing only if every entry it was to look at has no space. -/
theorem leafScan_none (hstart : start < freemapCount) : ∀ {left : Nat}, left ≤ freemapCount →
    leafScan f start left = none → ∀ n < freemapCount,
      start + (freemapCount - left) ≤ n ∨ n + (freemapCount - left) ≤ start → f n = .enospc
  | 0, _, _, n, hn, hout => by
      simp only [freemapCount] at *
      omega
  | left + 1, hleft, h, n, hn, hout => by
      unfold leafScan at h
      dsimp only at h
      split at h
      · -- both sides are done
        next hdone =>
        simp only [freemapCount] at *
        omega
      · split at h
        · next hfwd =>
          split at h
          · next hback =>
            have ih := leafScan_none hstart (by omega) h n hn
            by_cases hf : n = start + (freemapCount - (left + 1))
            · rw [if_pos (by omega), ← hf] at hfwd
              exact hfwd
            · by_cases hb : n = start - (freemapCount - (left + 1))
              · by_cases hle : freemapCount - (left + 1) ≤ start
                · rw [if_pos hle, ← hb] at hback
                  exact hback
                · refine ih ?_
                  simp only [freemapCount] at *
                  omega
              · refine ih ?_
                simp only [freemapCount] at *
                omega
          · cases h
        · cases h

/-- **Every entry is visited**, wherever the scan begins. -/
theorem leafScan_all (hstart : start < freemapCount) (h : leafScan f start freemapCount = none) :
    ∀ n < freemapCount, f n = .enospc := by
  intro n hn
  refine leafScan_none hstart (Nat.le_refl _) h n hn ?_
  rw [Nat.sub_self]
  omega

end

/-! ## One entry -/

section
variable {bm bm' : BmapData} {cls subKey radix off g : Nat} {relaxed : Bool}

theorem tryEntry_ok (h : tryEntry bm cls subKey radix relaxed = .ok bm' off g) :
    bmapAlloc bm cls subKey radix = .ok bm' off g := by
  unfold tryEntry at h
  split at h
  · exact h
  · cases h

/-- An entry that counts its free pairs is passed over only if there is nothing in it. -/
theorem tryEntry_enospc (hlo : radixMin ≤ radix) (hhi : radix ≤ radixMax) (hc : bm.Counts)
    (h : tryEntry bm cls subKey radix true = .enospc) : ¬ Satisfies bm radix := by
  unfold tryEntry at h
  by_cases hav : availchk bm radix = true
  · rw [if_pos ⟨hav, .inr (.inr rfl)⟩] at h
    exact bmapAlloc_enospc h
  · unfold availchk at hav
    rw [decide_eq_true_eq, not_or, not_and, not_not] at hav
    obtain ⟨havail, hlin⟩ := hav
    rintro (hroom | hfield)
    · exact hlin (hroom.frag hlo hhi) hroom.2.1
    · -- a free field has a free pair, which `avail` counts
      obtain ⟨i, hi, k, hk, h0⟩ := hfield
      have hm := bmradix_cases hlo hhi
      have hpair : (freePairs (bm.elem i)).card ≠ 0 := by
        have htake := @card_freePairs_take (bm.elem i) (bmradixOf radix) (k * bmradixOf radix)
          (by rcases hm with hm | hm | hm <;> rw [hm] <;> omega)
          (by rcases hm with hm | hm | hm <;> rw [hm])
          (by
            simp only [bmapBitsPerElement] at hk
            rcases hm with hm | hm | hm <;> rw [hm] at hk ⊢ <;> omega) h0
        rcases hm with hm | hm | hm <;> omega
      have hpos := freeCount_pos bm hi
      have hzero : bm.avail.toNat = 0 := by
        rw [havail]
        rfl
      unfold BmapData.Counts at hc
      simp only [freemapBlockSize] at hc
      omega

end

/-! ## One round of the search -/

section
variable {dev : Dev} {req : Request} {s : State} {iter : Fiterate}

/-- Where the search goes when a leaf has nothing. -/
theorem next_cases (dev : Dev) (s : State) (iter : Fiterate) :
    (∃ t, next dev s iter = .again (s, t) ∧ t.loops = iter.loops ∧ t.relaxed = iter.relaxed ∧
        t.bnext = (iter.bnext / freemapLevel1Size + 1) * freemapLevel1Size ∧
        t.bnext < dev.totalSize) ∨
      dev.totalSize ≤ (iter.bnext / freemapLevel1Size + 1) * freemapLevel1Size ∧
        ((∃ t, next dev s iter = .again (s, t) ∧ t.bnext = 0 ∧ t.loops = iter.loops + 1 ∧
            (iter.loops = 0 ∧ t.relaxed = iter.relaxed ∨
              0 < iter.loops ∧ iter.relaxed = false ∧ t.relaxed = true)) ∨
          (∃ t, next dev s iter = .stop (s, t, .enospc)) ∧ 0 < iter.loops ∧ iter.relaxed = true) := by
  have hmul : iter.bnext / freemapLevel1Size * freemapLevel1Size + freemapLevel1Size =
      (iter.bnext / freemapLevel1Size + 1) * freemapLevel1Size := (Nat.succ_mul ..).symm
  unfold next freemapIterate
  dsimp only
  rw [hmul]
  by_cases hend : (iter.bnext / freemapLevel1Size + 1) * freemapLevel1Size ≥ dev.totalSize
  · rw [if_pos hend]
    refine .inr ⟨hend, ?_⟩
    by_cases hloops : iter.loops + 1 ≥ 2
    · rw [if_pos hloops]
      cases hrel : iter.relaxed with
      | false => exact .inl ⟨_, rfl, rfl, rfl, .inr ⟨by omega, rfl, rfl⟩⟩
      | true => exact .inr ⟨⟨_, rfl⟩, by omega, rfl⟩
    · rw [if_neg hloops]
      exact .inl ⟨_, rfl, rfl, rfl, .inl ⟨by omega, rfl⟩⟩
  · rw [if_neg hend]
    exact .inl ⟨_, rfl, rfl, rfl, rfl, Nat.not_le.mp hend⟩

/-- The leaf of a position, and the entry of the leaf. -/
abbrev leafAt (iter : Fiterate) : Nat := iter.bnext / freemapLevel1Size
abbrev startAt (iter : Fiterate) : Nat :=
  (iter.bnext - leafAt iter * freemapLevel1Size) / freemapLevel0Size

theorem startAt_lt (iter : Fiterate) : startAt iter < freemapCount := by
  unfold startAt leafAt
  simp only [freemapLevel1Size, freemapLevel0Size, freemapCount]
  omega

/-- What one round can do: fail to read the leaf, skip it, allocate from it (or fail an assertion
on the way), or find that it has nothing. -/
inductive Tried (dev : Dev) (req : Request) (s : State) (iter : Fiterate) :
    Turn (State × Fiterate) (State × Fiterate × Answer) → Prop
  | eio : Tried dev req s iter (.stop (s, iter, .eio))
  | skip : s.created (leafAt iter) = true → (s.bigmask (leafAt iter)).getLsbD req.radix = false →
      Tried dev req s iter (next dev s iter)
  | panic (t : State) : Tried dev req s iter (.stop (t, iter, .panic))
  | done (n : Nat) (bm : BmapData) (off g : Nat) : n < freemapCount →
      bmapAlloc ((withLeaf dev s (leafAt iter)).freemap (leafAt iter * freemapCount + n))
        req.cls req.key req.radix = .ok bm off g →
      Tried dev req s iter (.stop ({ withLeaf dev s (leafAt iter) with
        freemap := Function.update (withLeaf dev s (leafAt iter)).freemap (leafAt iter * freemapCount + n) bm
        allocatorFree := (withLeaf dev s (leafAt iter)).allocatorFree - BitVec.ofNat 64 g }, iter,
        .off (leafAt iter * freemapLevel1Size + n * freemapLevel0Size + off)))
  | full : (∀ n < freemapCount, tryEntry
        ((withLeaf dev s (leafAt iter)).freemap (leafAt iter * freemapCount + n))
        req.cls req.key req.radix iter.relaxed = .enospc) →
      Tried dev req s iter (next dev
        (if startAt iter = 0 ∧ iter.relaxed = true then
          flagFull (withLeaf dev s (leafAt iter)) (leafAt iter) req.radix
        else withLeaf dev s (leafAt iter)) iter)

theorem tryAlloc_tried (dev : Dev) (req : Request) (s : State) (iter : Fiterate) :
    Tried dev req s iter (tryAlloc dev req (s, iter)) := by
  have hsettle : ∀ scan, leafScan (fun n => tryEntry ((withLeaf dev s (leafAt iter)).freemap
      (leafAt iter * freemapCount + n)) req.cls req.key req.radix iter.relaxed)
      (startAt iter) freemapCount = scan →
      Tried dev req s iter
        (settle dev req (withLeaf dev s (leafAt iter)) iter (leafAt iter) (startAt iter) scan) := by
    intro scan hscan
    cases scan with
    | none => exact .full (leafScan_all (startAt_lt iter) hscan)
    | some nr =>
        obtain ⟨n, r⟩ := nr
        obtain ⟨hn, hr, hne⟩ := leafScan_some (startAt_lt iter) (Nat.le_refl _) hscan
        cases r with
        | panic => exact .panic _
        | enospc => exact absurd rfl hne
        | ok bm off g =>
            unfold settle
            dsimp only
            split
            · exact .done n bm off g hn (tryEntry_ok hr)
            · exact .panic _
  unfold tryAlloc
  dsimp only
  split
  · exact .eio
  · split
    · next h => exact .skip h.1 h.2
    · exact hsettle _ rfl

end

/-! ## Honest hints -/

/-- The free pairs are counted, leaves are inside the device, and a bit of a hint is clear only
if no entry of the leaf can satisfy the radix. -/
structure Honest (dev : Dev) (s : State) : Prop where
  counts : Account.Inv dev s.toState
  leaves : Account.Leaves dev s.toState
  hints : ∀ leaf radix, s.created leaf = true → radixMin ≤ radix → radix ≤ radixMax →
    (s.bigmask leaf).getLsbD radix = false → ∀ e, leafOf e = leaf → ¬ Satisfies (s.freemap e) radix

section
variable {dev : Dev} {s : State} {leaf radix e : Nat}

theorem withLeaf_created (dev : Dev) (s : State) (leaf : Nat) :
    (withLeaf dev s leaf).created leaf = true := by
  unfold withLeaf
  split
  · assumption
  · exact Function.update_self ..

/-- A new leaf is as it was counted. -/
theorem withLeaf_entry (e : Nat) : entry dev (withLeaf dev s leaf).toState e = entry dev s.toState e := by
  unfold withLeaf
  split
  · rfl
  · next hc => exact Account.init_entry (Bool.eq_false_iff.mpr hc) e

theorem withLeaf_freemap (he : leafOf e = leaf) :
    (withLeaf dev s leaf).freemap e = entry dev s.toState e := by
  have hc := withLeaf_created dev s leaf
  have hsame := @withLeaf_entry dev s leaf e
  rw [entry, he, if_pos hc] at hsame
  exact hsame

theorem allOnes_bit (hhi : radix ≤ radixMax) : (BitVec.allOnes 32).getLsbD radix = true := by
  rw [BitVec.getLsbD_allOnes, decide_eq_true]
  simp only [radixMax] at hhi
  omega

theorem Honest.withLeaf (h : Honest dev s) (hin : leaf * freemapLevel1Size ≤ dev.totalSize) :
    Honest dev (withLeaf dev s leaf) where
  counts e := by
    rw [withLeaf_entry]
    exact h.counts e
  leaves := by
    unfold Alloc.withLeaf
    split
    · exact h.leaves
    · refine ⟨fun k hk => ?_⟩
      have hk' : Function.update s.created leaf true k = true := hk
      by_cases hkl : k = leaf
      · rwa [hkl]
      · rw [Function.update_of_ne hkl] at hk'
        exact h.leaves.inside k hk'
  hints := by
    unfold Alloc.withLeaf
    split
    · exact h.hints
    · intro k r hk hlo hhi hbit e he
      have hk' : Function.update s.created leaf true k = true := hk
      have hbit' : (Function.update s.bigmask leaf (BitVec.allOnes 32) k).getLsbD r = false := hbit
      by_cases hkl : k = leaf
      · rw [hkl, Function.update_self, allOnes_bit hhi] at hbit'
        cases hbit'
      · rw [Function.update_of_ne hkl] at hk' hbit'
        show ¬ Satisfies (if leafOf e = leaf then _ else s.freemap e) r
        rw [if_neg (by rw [he]; exact hkl)]
        exact h.hints k r hk' hlo hhi hbit' e he

theorem Honest.flagFull (h : Honest dev s) (hlt : radix < 32)
    (hall : ∀ e, leafOf e = leaf → ¬ Satisfies (s.freemap e) radix) :
    Honest dev (flagFull s leaf radix) where
  counts := h.counts
  leaves := h.leaves
  hints := by
    intro k r hk hlo hhi hbit e he
    have hbit' : (Function.update s.bigmask leaf (s.bigmask leaf &&& ~~~(1#32 <<< radix)) k).getLsbD r =
        false := hbit
    by_cases hkl : k = leaf
    · subst hkl
      by_cases hr : r = radix
      · rw [hr]
        exact hall e he
      · refine h.hints k r hk hlo hhi ?_ e he
        rw [Function.update_self, BitField.getLsbD_and_not_bit hlt, decide_eq_true hr,
          Bool.and_true] at hbit'
        exact hbit'
    · rw [Function.update_of_ne hkl] at hbit'
      exact h.hints k r hk hlo hhi hbit' e he

/-- An allocation from an entry that is there. -/
theorem Honest.take {cls subKey off g : Nat} {bm : BmapData} (h : Honest dev s)
    (hc : s.created (leafOf e) = true) (hlo : radixMin ≤ radix) (hhi : radix ≤ radixMax)
    (halloc : bmapAlloc (s.freemap e) cls subKey radix = .ok bm off g) :
    Honest dev { s with
      freemap := Function.update s.freemap e bm
      allocatorFree := s.allocatorFree - BitVec.ofNat 64 g } where
  counts := by
    have hcounts := h.counts e
    rw [entry, if_pos hc] at hcounts
    obtain ⟨hbm, hg⟩ := bmapAlloc_counts hcounts hlo hhi halloc
    exact (Account.take_moves h.counts hc (h.leaves.lt hc) hbm hg rfl).1
  leaves := ⟨h.leaves.inside⟩
  hints := by
    intro k r hk hrlo hrhi hbit x hx
    have hold := h.hints k r hk hrlo hrhi hbit x hx
    show ¬ Satisfies (Function.update s.freemap e bm x) r
    by_cases hxe : x = e
    · rw [hxe, Function.update_self]
      rw [hxe] at hold
      exact fun hsat => hold (hsat.of_alloc (bmapAlloc_spec hlo hhi halloc) hrlo hrhi)
    · rwa [Function.update_of_ne hxe]

end

/-! ## The rounds of the search -/

/-- The leaves that a search in relaxed mode has looked at since it last wrapped around have
nothing; `s₀` is the state it began in. -/
structure Searching (dev : Dev) (req : Request) (s₀ : State) (x : State × Fiterate) : Prop where
  honest : Honest dev x.1
  same : ∀ e, entry dev x.1.toState e = entry dev s₀.toState e
  position : x.2.bnext ≤ dev.totalSize
  loops : x.2.loops ≤ 2 ∧ (x.2.relaxed = false → x.2.loops ≤ 1)
  swept : x.2.relaxed = true → 0 < x.2.loops → x.2.bnext % freemapLevel1Size = 0 ∧
    ∀ e, leafOf e < leafAt x.2 → ¬ Satisfies (entry dev s₀.toState e) req.radix

/-- What is known when it stops. -/
def Stopped (dev : Dev) (req : Request) (s₀ : State) (y : State × Fiterate × Answer) : Prop :=
  y.2.2 = .panic ∨ Honest dev y.1 ∧
    (y.2.2 = .enospc → ∀ e, e * segSize < dev.totalSize →
      ¬ Satisfies (entry dev s₀.toState e) req.radix)

/-- Rounds to go: two or three times around, less what has been done of the present one. -/
def togo (dev : Dev) (x : State × Fiterate) : Nat :=
  (if x.2.relaxed = true then (if x.2.loops = 0 then 2 else 1) else 3 - x.2.loops) *
    (dev.totalSize / freemapLevel1Size + 1) - leafAt x.2

section
variable {dev : Dev} {req : Request} {s₀ s t : State} {iter : Fiterate}

/-- A leaf that has nothing. -/
theorem Searching.next (h : Searching dev req s₀ (s, iter)) (ht : Honest dev t)
    (hsame : ∀ e, entry dev t.toState e = entry dev s.toState e)
    (hleaf : iter.relaxed = true → 0 < iter.loops →
      ∀ e, leafOf e = leafAt iter → ¬ Satisfies (entry dev s₀.toState e) req.radix) :
    (∀ y, next dev t iter = .again y → Searching dev req s₀ y ∧ togo dev y < togo dev (s, iter)) ∧
      ∀ y, next dev t iter = .stop y → Stopped dev req s₀ y := by
  have hpos : iter.bnext ≤ dev.totalSize := h.position
  obtain ⟨hl2, hl1⟩ : iter.loops ≤ 2 ∧ (iter.relaxed = false → iter.loops ≤ 1) := h.loops
  have hkeep : ∀ e, entry dev t.toState e = entry dev s₀.toState e := fun e =>
    (hsame e).trans (h.same e)
  have hupto : iter.relaxed = true → 0 < iter.loops → ∀ e, leafOf e < leafAt iter + 1 →
      ¬ Satisfies (entry dev s₀.toState e) req.radix := by
    intro hr hlo e he
    rcases Nat.lt_succ_iff_lt_or_eq.mp he with hlt | heq
    · exact (h.swept hr hlo).2 e hlt
    · exact hleaf hr hlo e heq
  have hat : leafAt iter ≤ dev.totalSize / freemapLevel1Size := Nat.div_le_div_right hpos
  rcases next_cases dev t iter with ⟨i, heq, hloops, hrel, hb, hlt⟩ |
    ⟨hend, ⟨i, heq, hb, hloops, hcase⟩ | ⟨⟨i, heq⟩, hlo, hrel⟩⟩
  · -- the next leaf
    rw [heq]
    refine ⟨?_, nofun⟩
    rintro y ⟨⟩
    have hnext : leafAt i = leafAt iter + 1 := by
      unfold leafAt
      rw [hb, Nat.mul_div_cancel _ (by decide)]
    have hat' : leafAt i ≤ dev.totalSize / freemapLevel1Size :=
      Nat.div_le_div_right (Nat.le_of_lt hlt)
    refine ⟨⟨ht, hkeep, Nat.le_of_lt hlt, ?_, ?_⟩, ?_⟩
    · show i.loops ≤ 2 ∧ (i.relaxed = false → i.loops ≤ 1)
      rw [hloops, hrel]
      exact ⟨hl2, hl1⟩
    · show i.relaxed = true → 0 < i.loops → i.bnext % freemapLevel1Size = 0 ∧ _
      rw [hloops, hrel, hnext, hb]
      exact fun hr hlo => ⟨Nat.mul_mod_left .., hupto hr hlo⟩
    · unfold togo
      dsimp only
      rw [hloops, hrel, hnext]
      rw [hnext] at hat'
      have hmul : dev.totalSize / freemapLevel1Size + 1 ≤
          (if iter.relaxed = true then (if iter.loops = 0 then 2 else 1) else 3 - iter.loops) *
            (dev.totalSize / freemapLevel1Size + 1) := by
        refine Nat.le_mul_of_pos_left _ ?_
        split_ifs with hr hz
        · decide
        · decide
        · have := hl1 (Bool.eq_false_iff.mpr hr)
          omega
      omega
  · -- around once more
    rw [heq]
    refine ⟨?_, nofun⟩
    rintro y ⟨⟩
    have hnext : leafAt i = 0 := by
      unfold leafAt
      rw [hb, Nat.zero_div]
    refine ⟨⟨ht, hkeep, ?_, ?_, ?_⟩, ?_⟩
    · show i.bnext ≤ _
      rw [hb]
      exact Nat.zero_le _
    · show i.loops ≤ 2 ∧ (i.relaxed = false → i.loops ≤ 1)
      rcases hcase with ⟨hz, hr⟩ | ⟨hp, hf, hr⟩
      · rw [hloops, hr, hz]
        exact ⟨by decide, fun _ => Nat.le_refl _⟩
      · have := hl1 hf
        rw [hloops, hr]
        exact ⟨by omega, nofun⟩
    · show i.relaxed = true → 0 < i.loops → i.bnext % freemapLevel1Size = 0 ∧ _
      rw [hb, hnext]
      exact fun _ _ => ⟨rfl, fun e he => absurd he (Nat.not_lt_zero _)⟩
    · unfold togo
      dsimp only
      rw [hnext, Nat.sub_zero, hloops]
      have hwidth : leafAt iter < dev.totalSize / freemapLevel1Size + 1 := Nat.lt_succ_of_le hat
      generalize dev.totalSize / freemapLevel1Size + 1 = width at hwidth ⊢
      rcases hcase with ⟨hz, hr⟩ | ⟨hp, hf, hr⟩
      · rw [hr, hz]
        cases iter.relaxed with
        | true =>
            simp only [if_true, Nat.zero_add, Nat.one_ne_zero, if_false]
            omega
        | false =>
            simp only [Bool.false_eq_true, if_false]
            omega
      · have hone : iter.loops = 1 := by
          have := hl1 hf
          omega
        rw [hr, hf, hone]
        simp only [if_true, Bool.false_eq_true, if_false]
        rw [if_neg (by decide)]
        omega
  · -- every leaf below the end was looked at
    rw [heq]
    refine ⟨nofun, ?_⟩
    rintro y ⟨⟩
    refine .inr ⟨ht, fun _ e he => hupto hrel hlo e ?_⟩
    unfold leafOf leafAt
    simp only [segSize, freemapLevel1Size, freemapCount] at *
    omega

/-- The whole search: every round keeps what is known, and there are not many. -/
theorem bounded (hlo : radixMin ≤ req.radix) (hhi : req.radix ≤ radixMax) :
    Bounded (tryAlloc dev req) (Searching dev req s₀) (Stopped dev req s₀) (togo dev) := by
  have hturn : ∀ x, Searching dev req s₀ x →
      (∀ y, tryAlloc dev req x = .again y → Searching dev req s₀ y ∧ togo dev y < togo dev x) ∧
        ∀ y, tryAlloc dev req x = .stop y → Stopped dev req s₀ y := by
    rintro ⟨s, iter⟩ h
    have hs : Honest dev s := h.honest
    have hpos : iter.bnext ≤ dev.totalSize := h.position
    have hin : leafAt iter * freemapLevel1Size ≤ dev.totalSize :=
      Nat.le_trans (Nat.div_mul_le_self ..) hpos
    have hleaf := hs.withLeaf hin
    have hcreated := withLeaf_created dev s (leafAt iter)
    have hentry : ∀ e, leafOf e = leafAt iter →
        (withLeaf dev s (leafAt iter)).freemap e = entry dev s₀.toState e := fun e he =>
      (withLeaf_freemap he).trans (h.same e)
    generalize hturn : tryAlloc dev req (s, iter) = turn
    have htried := tryAlloc_tried dev req s iter
    rw [hturn] at htried
    cases htried with
    | eio =>
        refine ⟨by rintro _ ⟨⟩, ?_⟩
        rintro y ⟨⟩
        exact .inr ⟨hs, by rintro ⟨⟩⟩
    | panic t =>
        refine ⟨by rintro _ ⟨⟩, ?_⟩
        rintro y ⟨⟩
        exact .inl rfl
    | skip hc hbit =>
        refine h.next hs (fun _ => rfl) fun _ _ e he => ?_
        have hold := hs.hints _ _ hc hlo hhi hbit e he
        have hsame : entry dev s.toState e = s.freemap e := by
          rw [entry, he, if_pos hc]
        rwa [← h.same e, hsame]
    | done n bm off g hn halloc =>
        refine ⟨by rintro _ ⟨⟩, ?_⟩
        rintro y ⟨⟩
        refine .inr ⟨hleaf.take ?_ hlo hhi halloc, by rintro ⟨⟩⟩
        have he : leafOf (leafAt iter * freemapCount + n) = leafAt iter := by
          unfold leafOf
          simp only [freemapCount] at *
          omega
        rw [he]
        exact hcreated
    | full hnone =>
        -- in relaxed mode what was passed over has nothing
        have hempty : iter.relaxed = true → ∀ e, leafOf e = leafAt iter →
            ¬ Satisfies ((withLeaf dev s (leafAt iter)).freemap e) req.radix := by
          intro hrel e he
          have hcounts := hleaf.counts e
          rw [entry, he, if_pos hcreated] at hcounts
          have hsplit : e = leafAt iter * freemapCount + e % freemapCount := by
            rw [← he]
            exact (Nat.div_add_mod' ..).symm
          have htry := hnone (e % freemapCount) (Nat.mod_lt _ (by decide))
          rw [← hsplit, hrel] at htry
          exact tryEntry_enospc hlo hhi hcounts htry
        refine h.next ?_ ?_ fun hrel _ e he => ?_
        · split
          · next hall =>
            refine hleaf.flagFull ?_ (hempty hall.2)
            simp only [radixMax] at hhi
            omega
          · exact hleaf
        · intro e
          split
          · exact withLeaf_entry e
          · exact withLeaf_entry e
        · rw [← hentry e he]
          exact hempty hrel e he
  exact ⟨fun s t hs => (hturn s hs).1 t, fun s r hs => (hturn s hs).2 r⟩

/-- **The search ends**, with honest hints and an honest answer. -/
theorem freemapAlloc_spec (h : Honest dev s) {fuel : Nat} (hfuel : rounds dev ≤ fuel) :
    ∃ t a, freemapAlloc dev req fuel s = some (t, a) ∧
      (a = .panic ∨ Honest dev t ∧ (a = .enospc → ∀ e, e * segSize < dev.totalSize →
        ¬ Satisfies (entry dev s.toState e) req.radix)) := by
  unfold freemapAlloc
  by_cases hr : req.radix < radixMin ∨ req.radix > radixMax
  · rw [if_pos hr]
    exact ⟨_, _, rfl, .inl rfl⟩
  · rw [if_neg hr]
    obtain ⟨hlo, hhi⟩ := not_or.mp hr
    dsimp only
    have hpos : bpref dev s req.type ≤ dev.totalSize := by
      unfold bpref
      split <;> omega
    have hstart : Searching dev req s (s, ⟨bpref dev s req.type, bpref dev s req.type, 0, s.freemapRelaxed⟩) :=
      ⟨h, fun _ => rfl, hpos, ⟨Nat.zero_le _, fun _ => Nat.zero_le _⟩, fun _ hl => absurd hl (Nat.lt_irrefl 0)⟩
    have hlt : togo dev (s, ⟨bpref dev s req.type, bpref dev s req.type, 0, s.freemapRelaxed⟩) < fuel := by
      unfold togo rounds at *
      dsimp only
      cases s.freemapRelaxed with
      | true =>
          simp only [if_true]
          omega
      | false =>
          simp only [Bool.false_eq_true, if_false]
          omega
    obtain ⟨⟨t, iter, a⟩, hloop, hstop⟩ :=
      (bounded (Nat.not_lt.mp hlo) (Nat.not_lt.mp hhi)).loop_spec hstart hlt
    rw [hloop]
    refine ⟨_, _, rfl, ?_⟩
    rcases hstop with hp | ⟨ht, ha⟩
    · exact .inl hp
    · exact .inr ⟨⟨ht.counts, ⟨ht.leaves.inside⟩, ht.hints⟩, ha⟩

end

/-! ## Every reachable state -/

section
variable {dev : Dev} {s t : State}

theorem init_honest (dev : Dev) (allocatorFree : BitVec 64) : Honest dev (init allocatorFree) where
  counts e := by
    have hfresh : entry dev (init allocatorFree).toState e =
        freemapInit dev (leafOf e * freemapLevel1Size) (e % freemapCount) := if_neg Bool.false_ne_true
    rw [hfresh]
    exact freemapInit_counts ..
  leaves := ⟨fun _ h => by cases h⟩
  hints _ _ h := by cases h

/-- Another entry in the place of one that is there, with all bits of the hint set. -/
theorem Honest.rewrite {e : Nat} {bm : BmapData} {free : BitVec 64} (h : Honest dev s)
    (hc : s.created (leafOf e) = true) (hbm : bm.Counts) :
    Honest dev { s with
      freemap := Function.update s.freemap e bm
      allocatorFree := free
      bigmask := Function.update s.bigmask (leafOf e) (BitVec.allOnes 32) } where
  counts k := by
    show (entry dev { s.toState with
      freemap := Function.update s.freemap e bm, allocatorFree := free } k).Counts
    rw [Account.entry_set hc]
    split
    · exact hbm
    · exact h.counts k
  leaves := ⟨h.leaves.inside⟩
  hints := by
    intro leaf r hk hlo hhi hbit x hx
    have hbit' : (Function.update s.bigmask (leafOf e) (BitVec.allOnes 32) leaf).getLsbD r = false := hbit
    by_cases hl : leaf = leafOf e
    · rw [hl, Function.update_self, allOnes_bit hhi] at hbit'
      cases hbit'
    · rw [Function.update_of_ne hl] at hbit'
      show ¬ Satisfies (Function.update s.freemap e bm x) r
      rw [Function.update_of_ne (by rintro rfl; exact hl hx.symm)]
      exact h.hints leaf r hk hlo hhi hbit' x hx

/-- `hammer2_freemap_adjust` touches one entry of a leaf that is there, or none. -/
theorem adjust_entry {s t : Account.State} {readable : Bool} {bref : SnapRef}
    (h : Account.freemapAdjust dev s readable bref = some t) :
    t = s ∨ s.created (leafOf (bref.dataOff / 64 * 64 / segSize)) = true ∧
      ∃ bm free, t = { s with
        freemap := Function.update s.freemap (bref.dataOff / 64 * 64 / segSize) bm
        allocatorFree := free } := by
  unfold Account.freemapAdjust at h
  dsimp only at h
  split at h
  · cases h
  · split at h
    · exact .inl (Option.some.inj h).symm
    · split at h
      · cases h
      · split at h
        · cases h
        · next hc =>
          split at h
          · exact .inl (Option.some.inj h).symm
          · exact .inr ⟨Bool.not_eq_false _ ▸ hc, _, _, (Option.some.inj h).symm⟩

theorem mergeEntry_honest {p p' : Freemap.Pass} {e : Nat} (h : Honest dev s)
    (hc : s.created (leafOf e) = true) : Honest dev (mergeEntry s p p' e) := by
  have hcounts := h.counts e
  rw [entry, if_pos hc] at hcounts
  unfold mergeEntry
  dsimp only
  split
  · exact ⟨h.counts, h.leaves, h.hints⟩
  · have hadj : p.adjFree = p.adjFree - BitVec.ofNat 64 (s.freemap e).avail.toNat +
        BitVec.ofNat 64 (s.freemap e).avail.toNat := (BitVec.sub_add_cancel ..).symm
    have hbm := (syncAdjust_counts (p.cb.bmap p.pos) hcounts hadj).1
    have hnew := @Honest.rewrite dev s e _ s.allocatorFree h hc hbm
    exact ⟨hnew.counts, hnew.leaves, hnew.hints⟩

theorem syncRound_honest {p : Freemap.Pass} {usable : Bool} (h : Honest dev s) :
    Honest dev (syncRound dev s p usable) := by
  unfold syncRound
  dsimp only
  split
  · exact ⟨h.counts, h.leaves, h.hints⟩
  · split
    · exact ⟨h.counts, h.leaves, h.hints⟩
    · next hthere =>
      exact mergeEntry_honest h (Bool.not_eq_false _ ▸ (not_or.mp hthere).1)

/-- **One event.** -/
theorem step_honest {ev : Event} (h : Honest dev s) (hstep : step dev s ev = some t) : Honest dev t := by
  cases ev with
  | mount heurFreemap =>
      obtain rfl := Option.some.inj hstep
      exact ⟨h.counts, h.leaves, h.hints⟩
  | alloc req =>
      obtain ⟨u, a, heq, hspec⟩ := @freemapAlloc_spec dev req s h (rounds dev) (Nat.le_refl _)
      dsimp only [step] at hstep
      rw [heq] at hstep
      rcases hspec with rfl | ⟨hu, -⟩
      · cases hstep
      · cases a with
        | panic => cases hstep
        | off key => exact Option.some.inj hstep ▸ hu
        | enospc => exact Option.some.inj hstep ▸ hu
        | eio => exact Option.some.inj hstep ▸ hu
  | adjust readable bref =>
      dsimp only [step] at hstep
      split at hstep
      · cases hstep
      · next u hu =>
        have hmoves := (Account.freemapAdjust_moves h.counts h.leaves hu).1.1
        rcases adjust_entry hu with rfl | ⟨hc, bm, free, rfl⟩
        · rw [if_pos rfl] at hstep
          obtain rfl := Option.some.inj hstep
          exact ⟨h.counts, h.leaves, h.hints⟩
        · have hbm := hmoves (bref.dataOff / 64 * 64 / segSize)
          generalize bref.dataOff / 64 * 64 / segSize = e at hc hbm hstep
          rw [Account.entry_set hc, if_pos rfl] at hbm
          dsimp only at hstep
          split at hstep
          · next hsame =>
            -- nothing was set, the entry is the one that was there
            obtain rfl := Option.some.inj hstep
            rw [Function.update_self] at hsame
            rw [hsame, Function.update_eq_self]
            exact ⟨h.counts, ⟨h.leaves.inside⟩, h.hints⟩
          · obtain rfl := Option.some.inj hstep
            have hnew := @Honest.rewrite dev s e bm free h hc hbm
            exact ⟨hnew.counts, hnew.leaves, hnew.hints⟩
  | begin sbase size refs =>
      dsimp only [step] at hstep
      split at hstep
      · cases hstep
      · split at hstep
        · split at hstep
          · obtain rfl := Option.some.inj hstep
            exact ⟨h.counts, h.leaves, h.hints⟩
          · cases hstep
        · cases hstep
  | sync usable =>
      dsimp only [step] at hstep
      split at hstep
      · cases hstep
      · split at hstep
        · obtain rfl := Option.some.inj hstep
          exact syncRound_honest h
        · cases hstep
  | nextWindow refs =>
      dsimp only [step] at hstep
      split at hstep
      · cases hstep
      · split at hstep
        · split at hstep
          · obtain rfl := Option.some.inj hstep
            exact ⟨h.counts, ⟨h.leaves.inside⟩, h.hints⟩
          · cases hstep
        · cases hstep
  | finish =>
      dsimp only [step] at hstep
      split at hstep
      · cases hstep
      · obtain rfl := Option.some.inj hstep
        exact ⟨h.counts, ⟨h.leaves.inside⟩, h.hints⟩

theorem run_honest {free : BitVec 64} {evs : List Event} (h : exec (step dev) (init free) evs = some s) :
    Honest dev s :=
  exec_invariant' (fun _ _ _ hs hstep => step_honest hs hstep) (init_honest dev free) h

/-- Nothing of the radix can be had from the entry, whatever the class and the key. -/
def Exhausted (bm : BmapData) (radix : Nat) : Prop :=
  ∀ cls subKey, Freemap.AllocArgs cls subKey radix → bmapAlloc bm cls subKey radix = .enospc

theorem exhausted_of_not {bm : BmapData} {radix : Nat} (h : ¬ Satisfies bm radix) : Exhausted bm radix :=
  fun _ _ hargs => (bmapAlloc_enospc_iff hargs.1 hargs.2.1 hargs.2.2).mpr h

/-- **Termination and honest `ENOSPC`.**  In every reachable state the search for any request ends
within the rounds of three tours of the device; if it ends in `ENOSPC`, no entry below the end of
the device can satisfy the radix.  A bit that is clear in the hint of a leaf excludes no entry that
can satisfy it, and the scan of a leaf passes over no entry, from wherever it begins. -/
theorem alloc_honest {free : BitVec 64} {evs : List Event} (hrun : exec (step dev) (init free) evs = some s) :
    (∀ req fuel, rounds dev ≤ fuel → ∃ t a, freemapAlloc dev req fuel s = some (t, a) ∧
      (a = .enospc → ∀ e, e * segSize < dev.totalSize →
        Exhausted (entry dev s.toState e) req.radix)) ∧
    (∀ leaf radix, s.created leaf = true → radixMin ≤ radix → radix ≤ radixMax →
      (s.bigmask leaf).getLsbD radix = false → ∀ e, leafOf e = leaf → Exhausted (s.freemap e) radix) ∧
    ∀ f start, start < freemapCount → leafScan f start freemapCount = none →
      ∀ n < freemapCount, f n = .enospc := by
  have h := run_honest hrun
  refine ⟨fun req fuel hfuel => ?_, fun leaf radix hc hlo hhi hbit e he => ?_, fun f start hs hn => ?_⟩
  · obtain ⟨t, a, heq, hspec⟩ := @freemapAlloc_spec dev req s h fuel hfuel
    refine ⟨t, a, heq, fun ha e he => ?_⟩
    rcases hspec with hp | ⟨-, hnone⟩
    · rw [ha] at hp
      cases hp
    · exact exhausted_of_not (hnone ha e he)
  · exact exhausted_of_not (h.hints leaf radix hc hlo hhi hbit e he)
  · exact leafScan_all hs hn

end

/-- A device of 6GB. -/
def sixGb : Dev := ⟨8388608, 6442450944⟩

/-- An inode in each of the first five GB. -/
def fiveLeaves : List Event :=
  [0, 1, 2, 3, 4].flatMap fun leaf =>
    [.mount fun _ => leaf * freemapLevel1Size, .alloc ⟨brefTypeInode, 0, 10, fun _ => true⟩]

theorem alloc_honest_first : ∃ s, exec (step sixGb) (init 0) [.alloc ⟨brefTypeInode, 0, 10, fun _ => true⟩] =
    some s ∧ ∃ t a, freemapAlloc sixGb ⟨brefTypeData, 0, 16, fun _ => true⟩ (rounds sixGb) s = some (t, a) := by
  have hsome : (exec (step sixGb) (init 0) [.alloc ⟨brefTypeInode, 0, 10, fun _ => true⟩]).isSome = true := by
    decide
  obtain ⟨s, hs⟩ := Option.isSome_iff_exists.mp hsome
  obtain ⟨t, a, heq, -⟩ := (alloc_honest hs).1 ⟨brefTypeData, 0, 16, fun _ => true⟩ _ (Nat.le_refl _)
  exact ⟨s, hs, t, a, heq⟩

/-- The hint of a node, by the reading of those of the leaves. -/
def NodeHints (s : State) : Prop :=
  ∀ node ∈ s.nodes, ∀ radix, radixMin ≤ radix → radix ≤ radixMax → node.bigmask.getLsbD radix = false →
    ∀ e, covers (node.level, node.index) (leafOf e) = true → s.created (leafOf e) = true →
      Exhausted (s.freemap e) radix

/-- The fifth leaf makes a node, whose hint is zero and stays so. -/
theorem node_hint_zero : ¬ ∀ dev free evs s, exec (step dev) (init free) evs = some s → NodeHints s := by
  intro h
  have hend : (exec (step sixGb) (init 0) fiveLeaves).map (fun s => (s.nodes,
      decide (bmapAlloc (s.freemap 3) 272 0 10 = .enospc), s.created 0)) =
      some ([⟨2, 0, 0⟩], false, true) := by
    decide
  obtain ⟨s, hs, hl⟩ := Option.map_eq_some_iff.mp hend
  obtain ⟨hnodes, hrest⟩ := Prod.mk.inj hl
  obtain ⟨hfree, hcreated⟩ := Prod.mk.inj hrest
  have hnone := h sixGb 0 fiveLeaves s hs ⟨2, 0, 0⟩ (by rw [hnodes]; exact List.mem_singleton_self _) 10
    (by decide) (by decide) (by decide) 3 (by decide) hcreated 272 0 (by decide)
  rw [hnone] at hfree
  cases hfree

end Hammer2.Alloc
