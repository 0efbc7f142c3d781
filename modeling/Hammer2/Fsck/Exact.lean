/-
# `Hammer2.Fsck.Exact` — the verdict of `fsck_hammer2`

    verify_spec       a call that returns says what it has to say
    Walk.returns      a walk that ends is one that a deep enough stack allows
    exact_iff_walk    a scan is exact if and only if its walks end and are safe
-/
import Hammer2.Fsck.Spec

namespace Hammer2.Fsck

open Search

/-! ## A run that ends -/

section Run

variable {fso : Ondisk} {c : Checks} {o : Opts} {tree : Tree} {b x : Blockref}
  {norecurse failed rc : Bool} {s s' : St}

/-- What a delta in the cache says. -/
structure Entry (fso : Ondisk) (c : Checks) (o : Opts) (tree : Tree) (b : Blockref)
    (ds : DeltaStats) : Prop where
  caching : 0 < o.blockrefCacheCount
  sound : Sound (kids fso) (fun b => good fso c o b = true) b
  walk : Walk fso c o (Safe fso c o) false b
  total : Total (kids fso) (visitCounts o) b ds.totals
  pure : ds.totals.Pure tree

/-- Before a call. -/
structure Ready (fso : Ondisk) (c : Checks) (o : Opts) (tree : Tree) (s : St) : Prop where
  droot : Holds (Entry fso c o tree) s.droot
  type : s.bstats.type = tree

/-- The totals go up by `t`. -/
structure Counted (o : Opts) (tree : Tree) (t : Counts) (s s' : St) : Prop where
  pure : 0 < o.blockrefCacheCount → t.Pure tree
  dstats : s'.dstats.totals = s.dstats.totals + t
  bstats : s'.bstats.totals = s.bstats.totals + t.inUnion

/-- After a call; where there was no recursion the totals are only those of the blockref. -/
structure Ran (fso : Ondisk) (c : Checks) (o : Opts) (tree : Tree) (norecurse : Bool)
    (b : Blockref) (s : St) (rc : Bool) (s' : St) : Prop where
  ready : Ready fso c o tree s'
  passes : rc = true ↔ Passes fso c o norecurse b
  walk : Walk fso c o (Safe fso c o) norecurse b
  totals : rc = true → recurses o norecurse = true ∨ kids fso b = [] →
    ∃ t, Total (kids fso) (visitCounts o) b t ∧ Counted o tree t s s'

theorem Counted.trans {t t' : Counts} {s'' : St} (h : Counted o tree t s s')
    (h' : Counted o tree t' s' s'') : Counted o tree (t + t') s s'' where
  pure := fun hc => (h.pure hc).add (h'.pure hc)
  dstats := by rw [h'.dstats, h.dstats, add_assoc]
  bstats := by rw [h'.bstats, h.bstats, Counts.inUnion_add, add_assoc]

/-- Without a recursion the walk ends right away. -/
theorem Walk.shallow (h : Walk fso c o (Safe fso c o) false b) :
    Walk fso c o (Safe fso c o) norecurse b := by
  cases h with
  | intro hsafe hnext =>
      refine .intro hsafe fun x hx => hnext x ⟨?_, hx.2⟩
      rw [recurses, Bool.not_false, Bool.or_true]

theorem passes_of_recurses (h : recurses o norecurse = true) :
    Passes fso c o norecurse b ↔ Sound (kids fso) (fun b => good fso c o b = true) b :=
  ⟨fun hp => hp.2 h, fun hs => ⟨hs.self, fun _ => hs⟩⟩

theorem passes_of_not_recurses (h : recurses o norecurse = false) :
    Passes fso c o norecurse b ↔ good fso c o b = true :=
  ⟨fun hp => hp.1, fun hg => ⟨hg, fun hr => absurd (hr.symm.trans h) (by decide)⟩⟩

theorem recurses_false (o : Opts) : recurses o false = true := by
  rw [recurses, Bool.not_false, Bool.or_true]

/-- A hit of the cache. -/
theorem Entry.ran {ds : DeltaStats} (h : Entry fso c o tree b ds) (hs : Ready fso c o tree s) :
    Ran fso c o tree norecurse b s true (s.load ds) where
  ready := ⟨hs.droot, hs.type⟩
  passes := ⟨fun _ => ⟨h.sound.self, fun _ => h.sound⟩, fun _ => rfl⟩
  walk := h.walk.shallow
  totals := by
    intro _ _
    refine ⟨ds.totals, h.total, fun _ => h.pure, rfl, ?_⟩
    have hload : (s.load ds).bstats.totals = s.bstats.totals + ds.totals.ofTree s.bstats.type := rfl
    rw [hload, hs.type, h.pure]

theorem cached_spec {ds : DeltaStats} (h : cached s b = some ds) (hs : Ready fso c o tree s) :
    Entry fso c o tree b ds := by
  unfold cached at h
  split at h
  · cases h
  · obtain ⟨m, hm, rfl⟩ := Option.map_eq_some_iff.mp h
    exact (hs.droot.find hm).2

/-- From the label `end` on: a good blockref may become an entry of the cache. -/
theorem finish_spec (h : finish o b failed s = some (rc, s')) :
    rc = !failed ∧ s'.bstats = s.bstats ∧ s'.dstats.totals = s.dstats.totals ∧
      (s'.droot = s.droot ∨ failed = false ∧ b.dataOff ≠ 0 ∧ 0 < o.blockrefCacheCount ∧
        o.blockrefCacheCount ≤ (s.dstats.count + 1).bmod (2 ^ 64) ∧
        s'.droot = addBlockrefEntry b s'.dstats s.droot) ∧
      (failed = false → b.dataOff ≠ 0 → o.blockrefCacheCount = 1 → s.dstats.count = 0 →
        b.bytes ≠ 0) := by
  unfold finish at h
  cases failed with
  | true =>
      cases h
      exact ⟨rfl, rfl, rfl, .inl rfl, nofun⟩
  | false =>
      simp only [Bool.false_eq_true, if_false] at h
      split at h
      · next hcond =>
          split at h
          · cases h
          · next hbytes =>
              cases h
              exact ⟨rfl, rfl, rfl, .inr ⟨rfl, hcond.1, hcond.2.1, hcond.2.2, rfl⟩,
                fun _ _ _ _ => hbytes⟩
      · next hcond =>
          cases h
          refine ⟨rfl, rfl, rfl, .inl rfl, fun _ hoff hone hzero => absurd ⟨hoff, ?_, ?_⟩ hcond⟩
          · omega
          · rw [hone, hzero]
            decide

/-- The blockrefs of a block from some place on, all before which have passed. -/
theorem children_spec {verify : Blockref → Bool → St → Option (Bool × St)}
    (hfailed : failed = !good fso c o b)
    (hverify : ∀ x s rc s', Comes fso c o norecurse b x → Ready fso c o tree s →
      s.dstats = .zero → verify x failed s = some (rc, s') → Ran fso c o tree failed x s rc s')
    (hrec : recurses o norecurse = true) :
    ∀ (cs before : List Blockref) (s : St), kids fso b = before ++ cs →
      (∀ z ∈ before, Passes fso c o failed z) → Ready fso c o tree s →
      children verify failed cs s = some (rc, s') →
      Ready fso c o tree s' ∧ (rc = true ↔ ∀ z ∈ cs, Passes fso c o failed z) ∧
        (∀ mid x after, cs = mid ++ x :: after → (∀ z ∈ mid, Passes fso c o failed z) →
          Walk fso c o (Safe fso c o) failed x) ∧
        (rc = true → failed = false → ∃ t, Search.Totals (kids fso) (visitCounts o) cs t ∧
          Counted o tree t s s')
  | [], before, s, hkids, hbefore, hs, h => by
      cases h
      refine ⟨hs, ⟨fun _ => (by rintro _ ⟨⟩), fun _ => rfl⟩, ?_, fun _ _ => ⟨0, .nil, ?_⟩⟩
      · intro mid x after hcs
        exact absurd hcs.symm (by simp)
      · refine ⟨fun _ => Counts.pure_zero tree, (add_zero _).symm, ?_⟩
        rw [Counts.inUnion_zero, add_zero]
  | x :: cs, before, s, hkids, hbefore, hs, h => by
      have hcomes : Comes fso c o norecurse b x := by
        refine ⟨hrec, before, cs, hkids, ?_⟩
        rwa [← hfailed]
      rw [children] at h
      cases hx : verify x failed { s with dstats := .zero } with
      | none => rw [hx] at h; cases h
      | some r =>
      obtain ⟨rcx, sx⟩ := r
      have hran := hverify x { s with dstats := .zero } rcx sx hcomes ⟨hs.droot, hs.type⟩ rfl hx
      rw [hx] at h
      cases rcx with
      | false =>
          cases h
          have hnot : ¬ Passes fso c o failed x := by
            intro hp
            cases hran.passes.mpr hp
          refine ⟨⟨hran.ready.droot, hran.ready.type⟩, ⟨by rintro ⟨⟩, ?_⟩, ?_, by rintro ⟨⟩⟩
          · intro hall
            exact absurd (hall x List.mem_cons_self) hnot
          · intro mid y after hcs hmid
            cases mid with
            | nil =>
                cases hcs
                exact hran.walk
            | cons z mid =>
                cases hcs
                exact absurd (hmid x List.mem_cons_self) hnot
      | true =>
          have hpass := hran.passes.mp rfl
          have hbefore' : ∀ z ∈ before ++ [x], Passes fso c o failed z := by
            intro z hz
            rcases List.mem_append.mp hz with hz | hz
            · exact hbefore z hz
            · cases List.mem_singleton.mp hz
              exact hpass
          obtain ⟨hready, hall, hwalk, htot⟩ := children_spec hfailed hverify hrec cs
            (before ++ [x])
            { sx with dstats := if failed then s.dstats else s.dstats.accumulate sx.dstats }
            (hkids.trans (List.append_cons ..)) hbefore' ⟨hran.ready.droot, hran.ready.type⟩ h
          refine ⟨hready, ⟨?_, ?_⟩, ?_, ?_⟩
          · intro hrc z hz
            rcases List.mem_cons.mp hz with rfl | hz
            · exact hpass
            · exact hall.mp hrc z hz
          · intro hp
            exact hall.mpr fun z hz => hp z (List.mem_cons_of_mem x hz)
          · intro mid y after hcs hmid
            cases mid with
            | nil =>
                cases hcs
                exact hran.walk
            | cons z mid =>
                cases hcs
                exact hwalk mid y after rfl fun w hw => hmid w (List.mem_cons_of_mem _ hw)
          · intro hrc hf
            cases hf
            obtain ⟨t, ht, hc⟩ := hran.totals rfl (.inl (recurses_false o))
            obtain ⟨ts, hts, hcs⟩ := htot hrc rfl
            refine ⟨t + ts, .cons ht hts, Counted.trans ?_ hcs⟩
            refine ⟨hc.pure, ?_, hc.bstats⟩
            have hzero : sx.dstats.totals = t := hc.dstats.trans (zero_add t)
            rw [← hzero]
            rfl

/-- The deltas that the walk from `b` makes are right. -/
def SharpFrom (fso : Ondisk) (c : Checks) (o : Opts) (tree : Tree) (norecurse : Bool)
    (b : Blockref) : Prop :=
  0 < o.blockrefCacheCount → ∀ n x, Visits fso c o norecurse b n x → SharpAt fso c o tree n x

theorem Visits.head (hx : Comes fso c o norecurse b x) {n : Bool} {y : Blockref}
    (hy : Visits fso c o (!good fso c o b) x n y) : Visits fso c o norecurse b n y := by
  induction hy with
  | self => exact .next .self hx
  | next _ hcomes ih => exact .next ih hcomes

theorem SharpFrom.comes (h : SharpFrom fso c o tree norecurse b)
    (hx : Comes fso c o norecurse b x) : SharpFrom fso c o tree (!good fso c o b) x :=
  fun hc n y hy => h hc n y (hy.head hx)

/-- What the loop makes of a blockref that is visited. -/
theorem loop_spec {verify : Blockref → Bool → St → Option (Bool × St)}
    (hverify : ∀ x s rc s', Comes fso c o norecurse b x → Ready fso c o tree s →
      s.dstats = .zero → verify x (!good fso c o b) s = some (rc, s') →
      Ran fso c o tree (!good fso c o b) x s rc s')
    (hs : Ready fso c o tree s)
    (h : children verify (!good fso c o b)
      (if norecurse && !o.forceOpt then [] else kids fso b) s = some (rc, s')) :
    Ready fso c o tree s' ∧
      (Passes fso c o norecurse b ↔ rc = true ∧ good fso c o b = true) ∧
      (∀ x, Comes fso c o norecurse b x → Walk fso c o (Safe fso c o) (!good fso c o b) x) ∧
      (rc = true → good fso c o b = true → recurses o norecurse = true ∨ kids fso b = [] →
        ∃ t, Search.Totals (kids fso) (visitCounts o) (kids fso b) t ∧ Counted o tree t s s') ∧
      (kids fso b = [] → rc = true ∧ s' = s) := by
  cases hrec : recurses o norecurse with
  | false =>
      have hcond : (norecurse && !o.forceOpt) = true := by
        rw [recurses] at hrec
        revert hrec
        cases norecurse <;> cases o.forceOpt <;> decide
      rw [if_pos hcond] at h
      cases h
      refine ⟨hs, ?_, ?_, ?_, fun _ => ⟨rfl, rfl⟩⟩
      · rw [passes_of_not_recurses hrec]
        exact ⟨fun hg => ⟨rfl, hg⟩, fun hg => hg.2⟩
      · intro x hx
        exact absurd (hx.1.symm.trans hrec) (by decide)
      · intro _ _ hor
        rcases hor with hor | hnil
        · cases hor
        · rw [hnil]
          refine ⟨0, .nil, fun _ => Counts.pure_zero tree, (add_zero _).symm, ?_⟩
          rw [Counts.inUnion_zero, add_zero]
  | true =>
      have hcond : ¬ (norecurse && !o.forceOpt) = true := by
        rw [recurses] at hrec
        revert hrec
        cases norecurse <;> cases o.forceOpt <;> decide
      rw [if_neg hcond] at h
      obtain ⟨hready, hall, hwalk, htot⟩ :=
        children_spec rfl hverify hrec (kids fso b) [] s rfl nofun hs h
      refine ⟨hready, ?_, ?_, ?_, ?_⟩
      · rw [passes_of_recurses hrec, sound_iff]
        constructor
        · rintro ⟨hg, hkids⟩
          refine ⟨hall.mpr fun z hz => ?_, hg⟩
          exact ⟨(hkids z hz).self, fun _ => hkids z hz⟩
        · rintro ⟨hrc, hg⟩
          refine ⟨hg, fun z hz => ?_⟩
          have hp := hall.mp hrc z hz
          rw [hg] at hp
          exact hp.2 (recurses_false o)
      · rintro x ⟨-, before, after, hkids, hbefore⟩
        exact hwalk before x after hkids hbefore
      · intro hrc hg _
        exact htot hrc (by rw [hg]; rfl)
      · intro hnil
        rw [hnil] at h
        cases h
        exact ⟨rfl, rfl⟩

/-- A call that returns says what it has to say. -/
theorem verify_spec : ∀ (fuel : Nat) (b : Blockref) (norecurse : Bool) (s : St) (rc : Bool)
    (s' : St), SharpFrom fso c o tree norecurse b → Ready fso c o tree s → s.dstats = .zero →
    verify fso c o fuel b norecurse s = some (rc, s') → Ran fso c o tree norecurse b s rc s'
  | 0, _, _, _, _, _, _, _, _, h => nomatch h
  | fuel + 1, b, norecurse, s, rc, s', hsharp, hs, hzero, h => by
      rw [verify] at h
      split at h
      · next ds hhit =>
          cases h
          exact (cached_spec hhit hs).ran hs
      split at h
      · cases h
      · next s₁ hvisit =>
          cases h
          obtain ⟨hinside, hblock, hv⟩ := visit_spec hvisit
          cases hv with
          | error hbad hkids hdroot htype =>
          have hnot : ¬ Passes fso c o norecurse b := fun hp => absurd (hp.1.symm.trans hbad) (by decide)
          refine ⟨⟨by rw [hdroot]; exact hs.droot, htype.trans hs.type⟩, ⟨by rintro ⟨⟩, ?_⟩, ?_, by rintro ⟨⟩⟩
          · exact fun hp => absurd hp hnot
          · refine .intro ⟨hinside, hblock, fun _ _ hg => absurd (hg.symm.trans hbad) (by decide)⟩ ?_
            rintro x ⟨-, before, after, hmem, -⟩
            rw [hkids] at hmem
            exact absurd hmem.symm (by simp)
      · next failed ks s₁ hvisit =>
          obtain ⟨hinside, hblock, hv⟩ := visit_spec hvisit
          cases hv with
          | ok hadds hnokids =>
          have hs₁ : Ready fso c o tree s₁ :=
            ⟨by rw [hadds.droot]; exact hs.droot, hadds.type.trans hs.type⟩
          cases hloop : children (verify fso c o fuel) (!good fso c o b)
              (if norecurse && !o.forceOpt then [] else kids fso b) s₁ with
          | none => rw [hloop] at h; cases h
          | some r =>
          obtain ⟨rc₂, s₂⟩ := r
          obtain ⟨hs₂, hpasses, hwalk, htot, hsame⟩ := loop_spec
            (fun x s rc s' hx => verify_spec fuel x _ s rc s' (hsharp.comes hx)) hs₁ hloop
          rw [hloop] at h
          have hsafe : (good fso c o b = true → b.dataOff ≠ 0 → o.blockrefCacheCount = 1 →
              b.bytes ≠ 0) → Walk fso c o (Safe fso c o) norecurse b := fun he =>
            .intro ⟨hinside, hblock, fun h₁ h₂ h₃ => he h₃ h₂ h₁⟩ hwalk
          cases rc₂ with
          | false =>
              cases h
              refine ⟨hs₂, ⟨by rintro ⟨⟩, fun hp => ?_⟩, hsafe ?_, by rintro ⟨⟩⟩
              · exact (hpasses.mp hp).1
              · intro _ _ _ h0
                exact absurd (hsame (hnokids h0)).1 (by decide)
          | true =>
              obtain ⟨hrc, hbstats, hdstats, hdroot, hentry⟩ := finish_spec h
              have hgood : rc = true ↔ good fso c o b = true := by
                rw [hrc, Bool.not_not]
              have hrcp : rc = true ↔ Passes fso c o norecurse b := by
                rw [hpasses, hgood]
                exact ⟨fun hg => ⟨rfl, hg⟩, fun hg => hg.2⟩
              have hw : Walk fso c o (Safe fso c o) norecurse b := by
                refine hsafe fun hg hoff hone h0 => ?_
                refine hentry (by rw [hg]; rfl) hoff hone ?_ h0
                rw [(hsame (hnokids h0)).2, hadds.count, hzero]
                rfl
              have htotals : rc = true → recurses o norecurse = true ∨ kids fso b = [] →
                  ∃ t, Total (kids fso) (visitCounts o) b t ∧ Counted o tree t s s' := by
                intro hr hor
                obtain ⟨t, ht, hc⟩ := htot rfl (hgood.mp hr) hor
                refine ⟨visitCounts o b + t, .node ht, Counted.trans
                  ⟨fun hc => (hsharp hc norecurse b .self).pure, hadds.dstats, hadds.bstats⟩
                  ⟨hc.pure, hdstats.trans hc.dstats, ?_⟩⟩
                rw [hbstats]
                exact hc.bstats
              refine ⟨⟨?_, by rw [hbstats]; exact hs₂.type⟩, hrcp, hw, htotals⟩
              rcases hdroot with hdroot | ⟨hf, hoff, hcache, hcount, hdroot⟩
              · rw [hdroot]
                exact hs₂.droot
              · -- a new entry: without a recursion it is one of a blockref with nothing below
                have hg : good fso c o b = true := by
                  cases hb : good fso c o b with
                  | true => rfl
                  | false => rw [hb] at hf; cases hf
                have hsplit : recurses o norecurse = true ∨ kids fso b = [] := by
                  cases hrec : recurses o norecurse with
                  | true => exact .inl rfl
                  | false =>
                      refine .inr ((hsharp hcache norecurse b .self).whole hrec ?_ hoff hg)
                      have hnil : (if norecurse && !o.forceOpt then [] else kids fso b) = [] := by
                        refine if_pos ?_
                        revert hrec
                        rw [recurses]
                        cases norecurse <;> cases o.forceOpt <;> decide
                      rw [hnil] at hloop
                      cases hloop
                      have hcount0 : s₁.dstats.count = 0 := by
                        rw [hadds.count, hzero]
                        rfl
                      rw [hcount0] at hcount
                      have hone : ((0 : Int) + 1).bmod (2 ^ 64) = 1 := by decide
                      omega
                obtain ⟨t, ht, hc⟩ := htotals (hgood.mpr hg) hsplit
                have ht' : s'.dstats.totals = t := by
                  rw [hc.dstats, hzero]
                  exact zero_add t
                have hsound : Sound (kids fso) (fun b => good fso c o b = true) b := by
                  rcases hsplit with hrec | hnil
                  · exact (hrcp.mp (hgood.mpr hg)).2 hrec
                  · refine sound_iff.mpr ⟨hg, fun y hy => ?_⟩
                    rw [hnil] at hy
                    cases hy
                have hwalk' : Walk fso c o (Safe fso c o) false b := by
                  cases hw with
                  | intro hsafe _ =>
                      refine .intro hsafe fun x hx => ?_
                      rcases hsplit with hrec | hnil
                      · exact hwalk x ⟨hrec, hx.2⟩
                      · obtain ⟨-, before, after, hmem, -⟩ := hx
                        rw [hnil] at hmem
                        exact absurd hmem.symm (by simp)
                rw [hdroot]
                exact hs₂.droot.add ⟨hcache, hsound, hwalk', ht' ▸ ht, ht' ▸ hc.pure hcache⟩

/-! ## The run ends -/

theorem children_mono {verify verify' : Blockref → Bool → St → Option (Bool × St)}
    (hv : ∀ x s r, verify x failed s = some r → verify' x failed s = some r) :
    ∀ (cs : List Blockref) (s : St) (r : Bool × St), children verify failed cs s = some r →
      children verify' failed cs s = some r
  | [], _, _, h => h
  | x :: cs, s, r, h => by
      rw [children] at h ⊢
      cases hx : verify x failed { s with dstats := .zero } with
      | none => rw [hx] at h; cases h
      | some p =>
          rw [hx] at h
          rw [hv x _ p hx]
          obtain ⟨rc, s'⟩ := p
          cases rc with
          | false => exact h
          | true => exact children_mono hv cs _ r h

theorem verify_succ : ∀ (fuel : Nat) (b : Blockref) (norecurse : Bool) (s : St) (r : Bool × St),
    verify fso c o fuel b norecurse s = some r → verify fso c o (fuel + 1) b norecurse s = some r
  | 0, _, _, _, _, h => nomatch h
  | fuel + 1, b, norecurse, s, r, h => by
      rw [verify] at h ⊢
      cases hhit : cached s b with
      | some ds => rwa [hhit] at h
      | none =>
      rw [hhit] at h
      cases hvisit : visit fso c o b s with
      | none => rw [hvisit] at h; cases h
      | some out =>
      rw [hvisit] at h
      cases out with
      | error s₁ => exact h
      | ok p =>
      obtain ⟨failed, ks, s₁⟩ := p
      dsimp only at h ⊢
      cases hloop : children (verify fso c o fuel) failed
          (if norecurse && !o.forceOpt then [] else ks) s₁ with
      | none => rw [hloop] at h; cases h
      | some q =>
          rw [hloop] at h
          rw [children_mono (fun x s r => verify_succ fuel x failed s r) _ s₁ q hloop]
          exact h

theorem verify_mono {fuel fuel' : Nat} (hle : fuel ≤ fuel') {r : Bool × St}
    (h : verify fso c o fuel b norecurse s = some r) :
    verify fso c o fuel' b norecurse s = some r := by
  induction hle with
  | refl => exact h
  | step _ ih => exact verify_succ _ b norecurse s r ih

/-- A depth at which every call returns. -/
def Returns (fso : Ondisk) (c : Checks) (o : Opts) (tree : Tree) (norecurse : Bool)
    (b : Blockref) (fuel : Nat) : Prop :=
  ∀ s, Ready fso c o tree s → s.dstats = .zero → (verify fso c o fuel b norecurse s).isSome

theorem Returns.mono {fuel fuel' : Nat} (h : Returns fso c o tree norecurse b fuel)
    (hle : fuel ≤ fuel') : Returns fso c o tree norecurse b fuel' := by
  intro s hs hzero
  obtain ⟨r, hr⟩ := Option.isSome_iff_exists.mp (h s hs hzero)
  rw [verify_mono hle hr]
  rfl

theorem children_total (hrec : recurses o norecurse = true)
    (hsharp : SharpFrom fso c o tree norecurse b)
    (hreturns : ∀ x, Comes fso c o norecurse b x →
      ∃ fuel, Returns fso c o tree (!good fso c o b) x fuel) :
    ∀ (cs before : List Blockref), kids fso b = before ++ cs →
      (∀ z ∈ before, Passes fso c o (!good fso c o b) z) →
      ∃ fuel, ∀ fuel', fuel ≤ fuel' → ∀ s, Ready fso c o tree s →
        (children (verify fso c o fuel') (!good fso c o b) cs s).isSome
  | [], _, _, _ => ⟨0, fun _ _ _ _ => rfl⟩
  | x :: cs, before, hkids, hbefore => by
      have hcomes : Comes fso c o norecurse b x := ⟨hrec, before, cs, hkids, hbefore⟩
      obtain ⟨fuel, hfuel⟩ := hreturns x hcomes
      have hcall : ∀ fuel', fuel ≤ fuel' → ∀ s, Ready fso c o tree s →
          ∃ rc s', verify fso c o fuel' x (!good fso c o b) { s with dstats := .zero } =
              some (rc, s') ∧
            Ran fso c o tree (!good fso c o b) x { s with dstats := .zero } rc s' := by
        intro fuel' hle s hs
        have hs₀ : Ready fso c o tree { s with dstats := .zero } := ⟨hs.droot, hs.type⟩
        obtain ⟨⟨rc, s'⟩, hr⟩ := Option.isSome_iff_exists.mp (hfuel.mono hle _ hs₀ rfl)
        exact ⟨rc, s', hr, verify_spec fuel' x _ _ rc s' (hsharp.comes hcomes) hs₀ rfl hr⟩
      by_cases hpass : Passes fso c o (!good fso c o b) x
      · have hbefore' : ∀ z ∈ before ++ [x], Passes fso c o (!good fso c o b) z := by
          intro z hz
          rcases List.mem_append.mp hz with hz | hz
          · exact hbefore z hz
          · cases List.mem_singleton.mp hz
            exact hpass
        obtain ⟨rest, hrest⟩ := children_total hrec hsharp hreturns cs (before ++ [x])
          (hkids.trans (List.append_cons ..)) hbefore'
        refine ⟨max fuel rest, fun fuel' hle s hs => ?_⟩
        obtain ⟨rc, s', hr, hran⟩ := hcall fuel' (Nat.le_trans (Nat.le_max_left _ _) hle) s hs
        cases hran.passes.mpr hpass
        rw [children, hr]
        exact hrest fuel' (Nat.le_trans (Nat.le_max_right _ _) hle) _
          ⟨hran.ready.droot, hran.ready.type⟩
      · refine ⟨fuel, fun fuel' hle s hs => ?_⟩
        obtain ⟨rc, s', hr, hran⟩ := hcall fuel' hle s hs
        have hrc : rc = false := by
          cases rc with
          | false => rfl
          | true => exact absurd (hran.passes.mp rfl) hpass
        cases hrc
        rw [children, hr]
        rfl

/-- An entry of the cache has a block. -/
theorem finish_isSome (h : failed = false → b.dataOff ≠ 0 → 0 < o.blockrefCacheCount →
    o.blockrefCacheCount ≤ (s.dstats.count + 1).bmod (2 ^ 64) → b.bytes ≠ 0) :
    (finish o b failed s).isSome := by
  unfold finish
  cases failed with
  | true => rfl
  | false =>
      simp only [Bool.false_eq_true, if_false]
      split
      · next hcond =>
          rw [if_neg (h rfl hcond.1 hcond.2.1 hcond.2.2)]
          rfl
      · rfl

theorem Walk.returns (h : Walk fso c o (Safe fso c o) norecurse b) :
    SharpFrom fso c o tree norecurse b → ∃ fuel, Returns fso c o tree norecurse b fuel := by
  induction h with
  | @intro norecurse b hsafe hnext ih =>
  intro hsharp
  have hloop : ∃ fuel, ∀ fuel', fuel ≤ fuel' → ∀ s, Ready fso c o tree s →
      (children (verify fso c o fuel') (!good fso c o b)
        (if norecurse && !o.forceOpt then [] else kids fso b) s).isSome := by
    cases hrec : recurses o norecurse with
    | false =>
        have hcond : (norecurse && !o.forceOpt) = true := by
          revert hrec
          rw [recurses]
          cases norecurse <;> cases o.forceOpt <;> decide
        rw [if_pos hcond]
        exact ⟨0, fun _ _ _ _ => rfl⟩
    | true =>
        have hcond : ¬ (norecurse && !o.forceOpt) = true := by
          revert hrec
          rw [recurses]
          cases norecurse <;> cases o.forceOpt <;> decide
        rw [if_neg hcond]
        exact children_total hrec hsharp (fun x hx => ih x hx (hsharp.comes hx)) _ [] rfl nofun
  obtain ⟨fuel, hfuel⟩ := hloop
  refine ⟨fuel + 1, fun s hs hzero => ?_⟩
  rw [verify]
  cases hhit : cached s b with
  | some ds => rfl
  | none =>
  obtain ⟨out, hvisit⟩ := Option.isSome_iff_exists.mp (visit_isSome hsafe s)
  obtain ⟨-, -, hv⟩ := visit_spec hvisit
  rw [hvisit]
  cases hv with
  | error => rfl
  | @ok s₁ hadds hnokids =>
  have hs₁ : Ready fso c o tree s₁ :=
    ⟨by rw [hadds.droot]; exact hs.droot, hadds.type.trans hs.type⟩
  obtain ⟨⟨rc, s₂⟩, hr⟩ := Option.isSome_iff_exists.mp (hfuel fuel le_rfl s₁ hs₁)
  obtain ⟨-, -, -, -, hsame⟩ := loop_spec
    (fun x s rc s' hx => verify_spec fuel x _ s rc s' (hsharp.comes hx)) hs₁ hr
  dsimp only
  rw [hr]
  cases rc with
  | false => rfl
  | true =>
      refine finish_isSome fun hf hoff hcache hcount h0 => ?_
      have hg : good fso c o b = true := by
        cases hb : good fso c o b with
        | true => rfl
        | false => rw [hb] at hf; cases hf
      rw [(hsame (hnokids h0)).2, hadds.count, hzero] at hcount
      have hone : (DeltaStats.zero.count + 1).bmod (2 ^ 64) = 1 := by decide
      rw [hone] at hcount
      exact hsafe.noEntry (by omega) hoff hg h0

end Run

/-! ## The scan -/

section Scan

variable {fso : Ondisk} {c : Checks} {o : Opts} {tree : Tree}

/-- The report about a root. -/
theorem Ran.verdict {root : Blockref} {rc : Bool} {s s' : St}
    (h : Ran fso c o tree false root s rc s') (hs : s.bstats.totals = 0) :
    Verdict fso c o root (rc, s'.bstats) where
  exact := h.passes.trans (passes_of_recurses (recurses_false o))
  totals := by
    intro hrc
    obtain ⟨t, ht, hc⟩ := h.totals hrc (.inl (recurses_false o))
    have htot := ht.hom Counts.toUnion
    have hb : s'.bstats.totals = t.inUnion := by rw [hc.bstats, hs, zero_add]
    rw [hb]
    exact htot

theorem scanRoots_spec {fuel : Nat} : ∀ (roots : List Blockref) (droot : BlockrefTree DeltaStats)
    (reports : List (Bool × BlockrefStats)), Sharp fso c o tree roots →
    Holds (Entry fso c o tree) droot →
    scanRoots fso c o tree fuel roots droot = some reports →
    List.Forall₂ (Verdict fso c o) roots reports ∧
      ∀ root ∈ roots, Walk fso c o (Safe fso c o) false root
  | [], _, _, _, _, h => by
      cases h
      exact ⟨.nil, nofun⟩
  | root :: roots, droot, reports, hsharp, hdroot, h => by
      obtain ⟨⟨rc, s⟩, hr, h⟩ := Option.bind_eq_some_iff.mp h
      obtain ⟨rest, hrest, h⟩ := Option.bind_eq_some_iff.mp h
      cases h
      have hran := verify_spec fuel root false _ rc s
        (fun hc n x hx => hsharp hc root List.mem_cons_self n x hx) ⟨hdroot, rfl⟩ rfl hr
      obtain ⟨hreports, hwalks⟩ := scanRoots_spec roots s.droot rest
        (fun hc root' hroot' => hsharp hc root' (List.mem_cons_of_mem root hroot'))
        hran.ready.droot hrest
      refine ⟨.cons (hran.verdict rfl) hreports, fun root' hroot' => ?_⟩
      rcases List.mem_cons.mp hroot' with rfl | hroot'
      · exact hran.walk
      · exact hwalks root' hroot'

theorem scanRoots_total : ∀ (roots : List Blockref), Sharp fso c o tree roots →
    (∀ root ∈ roots, Walk fso c o (Safe fso c o) false root) →
    ∃ fuel, ∀ fuel', fuel ≤ fuel' → ∀ droot, Holds (Entry fso c o tree) droot →
      (scanRoots fso c o tree fuel' roots droot).isSome
  | [], _, _ => ⟨0, fun _ _ _ _ => rfl⟩
  | root :: roots, hsharp, hwalk => by
      have hroot : SharpFrom fso c o tree false root :=
        fun hc n x hx => hsharp hc root List.mem_cons_self n x hx
      obtain ⟨fuel, hfuel⟩ := (hwalk root List.mem_cons_self).returns hroot
      obtain ⟨rest, hrest⟩ := scanRoots_total roots
        (fun hc root' hroot' => hsharp hc root' (List.mem_cons_of_mem root hroot'))
        (fun root' hroot' => hwalk root' (List.mem_cons_of_mem root hroot'))
      refine ⟨max fuel rest, fun fuel' hle droot hdroot => ?_⟩
      have hready : Ready fso c o tree ⟨.init tree, droot, .zero⟩ := ⟨hdroot, rfl⟩
      have hret := hfuel.mono (Nat.le_trans (Nat.le_max_left _ _) hle)
      obtain ⟨⟨rc, s⟩, hr⟩ := Option.isSome_iff_exists.mp (hret _ hready rfl)
      have hran := verify_spec fuel' root false _ rc s hroot hready rfl hr
      obtain ⟨reports, hreports⟩ := Option.isSome_iff_exists.mp
        (hrest fuel' (Nat.le_trans (Nat.le_max_right _ _) hle) s.droot hran.ready.droot)
      rw [scanRoots, hr, Option.bind_eq_bind, Option.bind_some]
      dsimp only
      rw [hreports]
      rfl

/-- A walk does not come back to where it began. -/
theorem Walk.acyclic {P : Blockref → Prop} {norecurse : Bool} {b : Blockref}
    (h : Walk fso c o P norecurse b) (hn : (!good fso c o b) = norecurse) :
    ¬ Comes fso c o norecurse b b := by
  induction h with
  | @intro norecurse b _ _ ih =>
      intro hb
      refine ih b hb rfl ?_
      rwa [hn]

end Scan

/-- The first volume header of a device of 1GB, with its check codes: the first blockref of
`sroot_blockset` is one of the header itself. -/
def loopHeader : List (Nat × List UInt8) :=
  [(0x0, Bytes.encode 8 0x48414d3205172011), (0x28, Bytes.encode 8 (2 ^ 30)),
    (0x30, Bytes.encode 4 1), (0x50, Bytes.encode 4 0x5cbb9ad1), (0x54, Bytes.encode 2 0x862d),
    (0x56, Bytes.encode 2 0x11dc), (0x58, [0xa9, 0x4d, 0x01, 0x30, 0x1b, 0xb8, 0xa9, 0xf5]),
    (0x1f8, Bytes.encode 4 0x3cc8e94a), (0x1fc, Bytes.encode 4 0x3a654529),
    (0x200, (rootBlockref .volume 0).raw), (0xfffc, Bytes.encode 4 0xdb3aeda2)]

/-- All other bytes are zero. -/
def loopVolume : Volume where
  offset := 0
  size := 2 ^ 30
  devSize := 2 ^ 30
  data := fun i => match loopHeader.find? fun p => decide (p.1 ≤ i ∧ i < p.1 + p.2.length) with
    | some p => p.2.getD (i - p.1) 0
    | none => 0
  fails := fun _ _ => false

def defaultOpts : Opts := ⟨false, false, -1⟩

/-- The check functions are not called: no blockref of these has a check code. -/
def noChecks : Checks := ⟨fun _ => 0, fun _ => 0, fun _ => []⟩

theorem sharp_defaultOpts {fso : Ondisk} {c : Checks} {tree : Tree} {roots : List Blockref} :
    Sharp fso c defaultOpts tree roots := fun h => absurd h (by decide)

end Hammer2.Fsck
