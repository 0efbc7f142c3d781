/-
# `Hammer2.Freemap.Reserved` — the reserved areas

A leaf is initialised with `11` for what lies below `allocator_beg`, in the reserved segment of
a zone or past the end of the device, and the map of a window of bulkfree is initialised on its
own.  The two agree entry by entry (`init_agree`), and so a merge leaves such a pair at `11`:

    Kept              what is reserved is `11`, in the freemap and in the map of the running pass
    run_reserved      in every reachable state, whatever blockrefs the scans have met, and
                      nothing reserved is handed out
-/
import Hammer2.Freemap.Honest

namespace Hammer2.Alloc

open Machine Loop
open Account (leafOf zoneBytes entry)
open Freemap (Pass passWindow bulkfreeSize bulkfreeBase)

/-! ## The two initialisations -/

/-- **The map of a window begins as a fresh leaf does**, entry by entry. -/
theorem init_agree (dev : Dev) {e base : Nat} (sstop : Nat) (h : base ≤ e) :
    freemapInit dev (e / freemapCount * freemapLevel1Size) (e % freemapCount) =
      (cbinfoBmapInit dev (base * segSize) sstop).bmap (e - base) := by
  rw [usable_iff_cbinfoBmapInit, Nat.add_sub_cancel' h]
  exact usable_iff_freemapInit dev e

/-- The 16KB block `x` of the device is not to be allocated. -/
def ReservedBlock (dev : Dev) (x : Nat) : Prop :=
  x * freemapBlockSize < dev.allocatorBeg ∨ x * freemapBlockSize % freemapLevel1Size < zoneSeg ∨
    dev.totalSize ≤ x * freemapBlockSize

theorem ReservedBlock.not_usable {dev : Dev} {x : Nat} (h : ReservedBlock dev x) :
    ¬ Usable dev (x / 256) := by
  rintro ⟨h1, h2, h3⟩
  unfold ReservedBlock at h
  unfold segUp at h1
  unfold segDown at h1 h3
  simp only [segSize, freemapBlockSize, freemapLevel1Size, zoneSeg] at *
  omega

/-- Every pair `11`, and nothing for the iterator. -/
structure Taken (bm : BmapData) : Prop where
  full : Full bm
  lo : ∀ b < 256, bm.lo b = true

theorem reservedBmap_taken : Taken reservedBmap := ⟨reservedBmap_full, fun b _ => (reservedBmap_bits b).2⟩

theorem freemapInit_taken {dev : Dev} {e : Nat} (h : ¬ Usable dev e) :
    Taken (freemapInit dev (leafOf e * freemapLevel1Size) (e % freemapCount)) := by
  have hinit := usable_iff_freemapInit dev e
  rw [if_neg h] at hinit
  rw [hinit]
  exact reservedBmap_taken

/-- The range is outside the reserved areas. -/
def Outside (dev : Dev) (key size : Nat) : Prop :=
  dev.allocatorBeg ≤ key ∧ key + size ≤ dev.totalSize ∧ zoneSeg ≤ key % freemapLevel1Size

/-- What is handed out is in a usable entry, and so outside. -/
theorem Taken.outside {dev : Dev} {e cls subKey radix off g : Nat} {bm bm' : BmapData}
    (h : ¬ Usable dev e → Taken bm) (hlo : radixMin ≤ radix) (hhi : radix ≤ radixMax)
    (halloc : bmapAlloc bm cls subKey radix = .ok bm' off g) :
    Usable dev e ∧ Outside dev (e * segSize + off) (1 <<< radix) := by
  have hs := bmapAlloc_spec hlo hhi halloc
  have hu : Usable dev e := by
    by_contra hno
    exact (h hno).full.no_alloc hs
  refine ⟨hu, ?_⟩
  obtain ⟨h1, h2, h3⟩ := hu
  have hin := hs.placed.inside
  have hpos := (radix_cases hlo hhi).1
  unfold segUp at h1
  unfold segDown at h1 h3
  unfold Outside
  generalize 1 <<< radix = size at *
  simp only [segSize, freemapLevel1Size, zoneSeg] at *
  omega

/-! ## The map of a window -/

/-- The map of a window, from entry `base` on: what is reserved is `11`. -/
structure MapKept (dev : Dev) (base : Nat) (cb : Cbinfo) : Prop where
  sbase_eq : cb.sbase = base * segSize
  sstop_eq : cb.sstop % segSize = 0 ∨ cb.sstop = dev.totalSize
  pairs : ∀ n, (cb.bmap n).PairsEqual
  taken : ∀ n, ¬ Usable dev (base + n) → ∀ b < 256, (cb.bmap n).hi b = true

/-- The scan of a window marks, and takes no mark away. -/
theorem passWindow_kept {dev : Dev} {refs : List SnapRef} {size sbase base : Nat} {p : Pass}
    (hbase : sbase = base * segSize) (h : passWindow dev refs size sbase = some p) :
    MapKept dev base p.cb := by
  subst hbase
  unfold passWindow at h
  dsimp only at h
  split at h
  · next cb hscan =>
    obtain rfl := Option.some.inj h
    obtain ⟨⟨hbase, hstop⟩, hgrow⟩ := bulkfreeScan_grows (cbinfoBmapInit_pairs dev _ _) hscan
    refine ⟨hbase, ?_, fun n => (hgrow n).pairs, fun n hu b hb => (hgrow n).hi b hb ?_⟩
    · have hend : cb.sstop = if dev.totalSize - base * segSize ≤
          size / freemapLevelNPsize * freemapLevel1Size then dev.totalSize
        else base * segSize + size / freemapLevelNPsize * freemapLevel1Size := hstop
      rw [hend]
      split
      · exact .inr rfl
      · left
        generalize size / freemapLevelNPsize = leaves
        simp only [segSize, freemapLevel1Size]
        omega
    · rw [usable_iff_cbinfoBmapInit, if_neg hu]
      exact (reservedBmap_bits b).1
  · cases h

/-! ## What every event keeps -/

structure Kept (dev : Dev) (s : State) : Prop where
  entries : ∀ e, ¬ Usable dev e → Taken (entry dev s.toState e)
  pass : ∀ p, s.pass = some p → ∃ base, MapKept dev base p.cb

section
variable {dev : Dev} {s t : State}

theorem init_kept (dev : Dev) (allocatorFree : BitVec 64) : Kept dev (init allocatorFree) where
  entries e hu := by
    have hfresh : entry dev (init allocatorFree).toState e =
        freemapInit dev (leafOf e * freemapLevel1Size) (e % freemapCount) := if_neg Bool.false_ne_true
    rw [hfresh]
    exact freemapInit_taken hu
  pass _ h := by cases h

/-- Another entry in the place of one that is there. -/
theorem taken_set {e : Nat} {bm : BmapData} {free : BitVec 64} {s : Account.State}
    (h : ∀ e, ¬ Usable dev e → Taken (entry dev s e)) (hc : s.created (leafOf e) = true)
    (hbm : ¬ Usable dev e → Taken bm) (k : Nat) (hu : ¬ Usable dev k) :
    Taken (entry dev { s with
      freemap := Function.update s.freemap e bm, allocatorFree := free } k) := by
  rw [Account.entry_set hc]
  split
  · next hk => exact hbm (hk ▸ hu)
  · exact h k hu

/-- A merge with a map that has `11` leaves `11`. -/
theorem taken_sync {live mem : BmapData} (adjFree : BitVec 64) (hpairs : mem.PairsEqual)
    (hmem : ∀ b < 256, mem.hi b = true) : Taken (syncAdjust live mem adjFree).1 := by
  have hs := syncAdjust_spec live adjFree hpairs
  refine ⟨⟨fun b hb => ?_, hs.full hmem⟩, fun b hb => ?_⟩
  · rw [hs.hi b hb, hmem b hb, Bool.true_or]
  · rw [hs.lo b hb, hmem b hb, Bool.true_or]

theorem syncRound_kept {p : Pass} {usable : Bool} (h : Kept dev s) (hp : s.pass = some p) :
    Kept dev (syncRound dev s p usable) := by
  obtain ⟨base, hmap⟩ := h.pass p hp
  have hent : (p.cb.sbase + p.pos * freemapLevel0Size) / freemapLevel0Size = base + p.pos := by
    rw [hmap.sbase_eq]
    simp only [segSize, freemapLevel0Size]
    omega
  -- the pass after the round has the same map
  have hpass : ∀ {q : Pass}, q.cb = p.cb → ∀ r, some q = some r → ∃ base, MapKept dev base r.cb := by
    rintro q hq r ⟨⟩
    exact ⟨base, by rw [hq]; exact hmap⟩
  unfold syncRound
  dsimp only
  split
  · exact ⟨h.entries, hpass rfl⟩
  · split
    · exact ⟨h.entries, hpass rfl⟩
    · next hthere =>
      rw [hent] at hthere ⊢
      have hc : s.created (leafOf (base + p.pos)) = true := Bool.not_eq_false _ ▸ (not_or.mp hthere).1
      unfold mergeEntry
      dsimp only
      split
      · exact ⟨h.entries, hpass rfl⟩
      · exact ⟨taken_set h.entries hc fun hu =>
          taken_sync p.adjFree (hmap.pairs p.pos) (hmap.taken p.pos hu), hpass rfl⟩

/-- Recovery sets pairs that are not `11`, of which a reserved entry has none. -/
theorem recoverLoop_taken {cls i : Nat} {bm : BmapData} {modified : Bool} {bgsize : Nat} (h : Taken bm)
    (hi : i < 8) : ∀ (count start : Nat), start % 2 = 0 → start + 2 * count ≤ 64 →
    Account.recoverLoop cls i ⟨bm, modified, bgsize⟩ start count = ⟨bm, modified, bgsize⟩
  | 0, _, _, _ => rfl
  | count + 1, start, hs, hlt => by
      have hall : bm.elem i &&& 3#64 <<< start = 3#64 <<< start := by
        rw [BitField.three_eq_fieldMask, BitField.and_field_eq_field_iff (by omega)]
        intro k hk1 hk2
        have hhi := h.full.hi (32 * i + start / 2) (by omega)
        have hlo := h.lo (32 * i + start / 2) (by omega)
        unfold BmapData.hi at hhi
        unfold BmapData.lo at hlo
        rw [show (32 * i + start / 2) / 32 = i from by omega,
          show (32 * i + start / 2) % 32 = start / 2 from by omega] at hhi hlo
        by_cases hk : k = start
        · rwa [hk, ← show 2 * (start / 2) = start from by omega]
        · rwa [show k = 2 * (start / 2) + 1 from by omega]
      have hpair : Account.recoverPair cls i ⟨bm, modified, bgsize⟩ start = ⟨bm, modified, bgsize⟩ :=
        if_pos hall
      unfold Account.recoverLoop
      rw [hpair]
      exact recoverLoop_taken h hi count (start + 2) (by omega) (by omega)

theorem adjust_taken {s t : Account.State} {readable : Bool} {bref : SnapRef}
    (h : ∀ e, ¬ Usable dev e → Taken (entry dev s e))
    (hadj : Account.freemapAdjust dev s readable bref = some t) :
    ∀ e, ¬ Usable dev e → Taken (entry dev t e) := by
  unfold Account.freemapAdjust at hadj
  dsimp only at hadj
  split at hadj
  · cases hadj
  · next hradix =>
    split at hadj
    · exact Option.some.inj hadj ▸ h
    · split at hadj
      · cases hadj
      · split at hadj
        · cases hadj
        · next hc =>
          split at hadj
          · exact Option.some.inj hadj ▸ h
          · obtain rfl := Option.some.inj hadj
            have hcreated := Bool.not_eq_false _ ▸ hc
            refine taken_set h hcreated fun hu => ?_
            have htaken := h _ hu
            rw [entry, if_pos hcreated] at htaken
            obtain ⟨hstart, hlt⟩ := @Account.recover_range (bref.dataOff / 64 * 64) _
              (Nat.not_lt.mp (not_or.mp hradix).2)
            rw [recoverLoop_taken htaken (Nat.mod_lt _ (by decide)) _ _ hstart hlt]
            exact htaken

/-- What the search keeps, and what it returns. -/
theorem tryAlloc_kept {req : Request} (hlo : radixMin ≤ req.radix) (hhi : req.radix ≤ radixMax)
    {x : State × Fiterate} (h : Kept dev x.1) :
    (∀ y, tryAlloc dev req x = .again y → Kept dev y.1) ∧
      ∀ y, tryAlloc dev req x = .stop y → y.2.2 = .panic ∨ Kept dev y.1 ∧
        ∀ key, y.2.2 = .off key → Outside dev key (1 <<< req.radix) := by
  obtain ⟨s, iter⟩ := x
  have hs : Kept dev s := h
  have hleaf : Kept dev (withLeaf dev s (leafAt iter)) := by
    refine ⟨fun e hu => ?_, fun p hp => hs.pass p ?_⟩
    · rw [withLeaf_entry]
      exact hs.entries e hu
    · unfold withLeaf createLeaf at hp
      split at hp <;> exact hp
  have hnext : ∀ {t : State}, Kept dev t → (∀ y, next dev t iter = .again y → Kept dev y.1) ∧
      ∀ y, next dev t iter = .stop y → y.2.2 = .panic ∨ Kept dev y.1 ∧
        ∀ key, y.2.2 = .off key → Outside dev key (1 <<< req.radix) := by
    intro t ht
    rcases next_cases dev t iter with ⟨i, heq, -⟩ | ⟨-, ⟨i, heq, -⟩ | ⟨⟨i, heq⟩, -⟩⟩
    · rw [heq]
      exact ⟨by rintro y ⟨⟩; exact ht, nofun⟩
    · rw [heq]
      exact ⟨by rintro y ⟨⟩; exact ht, nofun⟩
    · rw [heq]
      refine ⟨nofun, ?_⟩
      rintro y ⟨⟩
      exact .inr ⟨ht, nofun⟩
  have htried := tryAlloc_tried dev req s iter
  generalize tryAlloc dev req (s, iter) = turn at htried ⊢
  cases htried with
  | eio =>
      refine ⟨nofun, ?_⟩
      rintro y ⟨⟩
      exact .inr ⟨hs, nofun⟩
  | panic t =>
      refine ⟨nofun, ?_⟩
      rintro y ⟨⟩
      exact .inl rfl
  | skip hc hbit => exact hnext hs
  | done n bm off g hn halloc =>
      refine ⟨nofun, ?_⟩
      rintro y ⟨⟩
      have he : leafOf (leafAt iter * freemapCount + n) = leafAt iter := by
        unfold leafOf
        simp only [freemapCount] at *
        omega
      have hcreated : (withLeaf dev s (leafAt iter)).created (leafOf (leafAt iter * freemapCount + n)) = true := by
        rw [he]
        exact withLeaf_created ..
      have htaken := hleaf.entries (leafAt iter * freemapCount + n)
      rw [entry, if_pos hcreated] at htaken
      obtain ⟨hu, hout⟩ := Taken.outside htaken hlo hhi halloc
      refine .inr ⟨⟨fun e hue => taken_set hleaf.entries hcreated (fun hno => absurd hu hno) e hue,
        hleaf.pass⟩, ?_⟩
      rintro key ⟨⟩
      have hkey : leafAt iter * freemapLevel1Size + n * freemapLevel0Size + off =
          (leafAt iter * freemapCount + n) * segSize + off := by
        simp only [freemapLevel1Size, freemapLevel0Size, freemapCount, segSize]
        omega
      rw [hkey]
      exact hout
  | full hnone =>
      refine hnext ?_
      split
      · exact ⟨hleaf.entries, hleaf.pass⟩
      · exact hleaf

theorem freemapAlloc_kept {req : Request} {fuel : Nat} {a : Answer} (h : Kept dev s)
    (heq : freemapAlloc dev req fuel s = some (t, a)) :
    a = .panic ∨ Kept dev t ∧ ∀ key, a = .off key → Outside dev key (1 <<< req.radix) := by
  unfold freemapAlloc at heq
  split at heq
  · left
    exact (Prod.mk.inj (Option.some.inj heq)).2.symm
  · next hr =>
    obtain ⟨hlo, hhi⟩ := not_or.mp hr
    dsimp only at heq
    split at heq
    · next u iter answer hloop =>
      obtain ⟨rfl, rfl⟩ := Prod.mk.inj (Option.some.inj heq)
      have hstop : _ ∨ _ := loop_stop
        (fun x y hx hy => (tryAlloc_kept (Nat.not_lt.mp hlo) (Nat.not_lt.mp hhi) hx).1 y hy)
        (fun x y hx hy => (tryAlloc_kept (Nat.not_lt.mp hlo) (Nat.not_lt.mp hhi) hx).2 y hy) h hloop
      rcases hstop with hp | ⟨hu, hkey⟩
      · exact .inl hp
      · exact .inr ⟨⟨hu.entries, hu.pass⟩, hkey⟩
    · cases heq

/-- **One event.** -/
theorem step_kept {ev : Event} (h : Kept dev s) (hstep : step dev s ev = some t) : Kept dev t := by
  cases ev with
  | mount heurFreemap =>
      obtain rfl := Option.some.inj hstep
      exact ⟨h.entries, nofun⟩
  | alloc req =>
      dsimp only [step] at hstep
      split at hstep
      · cases hstep
      · next u a hne heq =>
        obtain rfl := Option.some.inj hstep
        rcases freemapAlloc_kept h heq with rfl | ⟨hu, -⟩
        · exact (hne rfl).elim
        · exact hu
      · cases hstep
  | adjust readable bref =>
      dsimp only [step] at hstep
      split at hstep
      · cases hstep
      · next u hu =>
        have htaken := adjust_taken h.entries hu
        split at hstep
        · obtain rfl := Option.some.inj hstep
          exact ⟨htaken, h.pass⟩
        · obtain rfl := Option.some.inj hstep
          exact ⟨htaken, h.pass⟩
  | begin sbase size refs =>
      dsimp only [step] at hstep
      split at hstep
      · cases hstep
      · split at hstep
        · split at hstep
          · next p hp =>
            obtain rfl := Option.some.inj hstep
            refine ⟨h.entries, ?_⟩
            rintro q ⟨⟩
            have hbase : bulkfreeBase dev sbase = bulkfreeBase dev sbase / segSize * segSize := by
              unfold bulkfreeBase h2fmBase
              simp only [segSize, freemapLevel1Size]
              omega
            exact ⟨_, passWindow_kept hbase hp⟩
          · cases hstep
        · cases hstep
  | sync usable =>
      dsimp only [step] at hstep
      split at hstep
      · cases hstep
      · next p hp =>
        split at hstep
        · obtain rfl := Option.some.inj hstep
          exact syncRound_kept h hp
        · cases hstep
  | nextWindow refs =>
      dsimp only [step] at hstep
      split at hstep
      · cases hstep
      · next p hp =>
        split at hstep
        · next hend =>
          split at hstep
          · next p' hp' =>
            obtain rfl := Option.some.inj hstep
            refine ⟨h.entries, ?_⟩
            rintro q ⟨⟩
            obtain ⟨base, hmap⟩ := h.pass p hp
            have hstop : p.cb.sstop = p.cb.sstop / segSize * segSize := by
              rcases hmap.sstop_eq with hs | hs
              · simp only [segSize] at *
                omega
              · omega
            exact ⟨_, passWindow_kept hstop hp'⟩
          · cases hstep
        · cases hstep
  | finish =>
      dsimp only [step] at hstep
      split at hstep
      · cases hstep
      · obtain rfl := Option.some.inj hstep
        exact ⟨h.entries, nofun⟩

theorem run_kept {free : BitVec 64} {evs : List Event} (h : exec (step dev) (init free) evs = some s) :
    Kept dev s :=
  exec_invariant' (fun _ _ _ hs hstep => step_kept hs hstep) (init_kept dev free) h

/-- **The reserved areas.**  The map of every window begins as the leaves do.  A block below
`allocator_beg`, in the reserved segment of a zone or past the end of the device is `11` in a
fresh leaf; in every reachable state each block that is `11` in a fresh leaf is `11`, what an entry
hands out is outside of the reserved areas, and so is what the search returns. -/
theorem run_reserved {free : BitVec 64} {evs : List Event}
    (hrun : exec (step dev) (init free) evs = some s) :
    (∀ e base sstop, base ≤ e →
      freemapInit dev (e / freemapCount * freemapLevel1Size) (e % freemapCount) =
        (cbinfoBmapInit dev (base * segSize) sstop).bmap (e - base)) ∧
    (∀ x, ReservedBlock dev x →
      (freemapInit dev (x / 256 / freemapCount * freemapLevel1Size) (x / 256 % freemapCount)).hi (x % 256) =
        true) ∧
    (∀ e b, b < 256 →
      (freemapInit dev (e / freemapCount * freemapLevel1Size) (e % freemapCount)).hi b = true →
      (entry dev s.toState e).hi b = true ∧ (entry dev s.toState e).lo b = true) ∧
    (∀ e cls subKey radix bm off g, radixMin ≤ radix → radix ≤ radixMax →
      bmapAlloc (entry dev s.toState e) cls subKey radix = .ok bm off g →
      Outside dev (e * segSize + off) (1 <<< radix)) ∧
    ∀ req fuel t key, freemapAlloc dev req fuel s = some (t, .off key) →
      Outside dev key (1 <<< req.radix) := by
  have h := run_kept hrun
  refine ⟨fun e base sstop hle => init_agree dev sstop hle, fun x hx => ?_, fun e b hb hinit => ?_,
    fun e cls subKey radix bm off g hlo hhi halloc => ?_, fun req fuel t key heq => ?_⟩
  · exact (freemapInit_taken hx.not_usable).full.hi _ (Nat.mod_lt _ (by decide))
  · have hu : ¬ Usable dev e := by
      intro hu
      rw [usable_iff_freemapInit, if_pos hu] at hinit
      simp [BmapData.hi, BmapData.elem, freeBmap] at hinit
    exact ⟨(h.entries e hu).full.hi b hb, (h.entries e hu).lo b hb⟩
  · exact (Taken.outside (h.entries e) hlo hhi halloc).2
  · rcases freemapAlloc_kept h heq with hp | ⟨-, hkey⟩
    · cases hp
    · exact hkey key rfl

end

/-- An inode, and a pass of bulkfree over nothing. -/
theorem run_reserved_pass : ∃ s, exec (step sixGb) (init 0) [.alloc ⟨brefTypeInode, 0, 10, fun _ => true⟩,
      .begin 0 0 [], .sync true, .sync true, .sync true] = some s ∧
    (entry sixGb s.toState 1).hi 3 = true ∧ (entry sixGb s.toState 1).lo 3 = true := by
  have hsome : (exec (step sixGb) (init 0) [.alloc ⟨brefTypeInode, 0, 10, fun _ => true⟩,
      .begin 0 0 [], .sync true, .sync true, .sync true]).isSome = true := by
    decide
  obtain ⟨s, hs⟩ := Option.isSome_iff_exists.mp hsome
  exact ⟨s, hs, (run_reserved hs).2.2.1 1 3 (by decide) (by decide)⟩

end Hammer2.Alloc
