/-
# `Hammer2.Io.Cycle` — the life of a DIO

`Inv` is kept by every step, so it holds in every state that a run reaches.  `Kept` says what
one step may do to the DIOs and to the blocks: no DIO goes that someone has a reference to,
and what was marked dirty stays until the last `hammer2_io_putblk` hands it over.
-/
import Hammer2.Io.Clean
import Hammer2.Lib.Machine
import Mathlib.Algebra.BigOperators.Ring.Finset
import Mathlib.Data.Set.Card

namespace Hammer2.Io

structure Inv (s : State) : Prop where
  linked : Linked s.dios s.iohash s.nextDio
  counted : Counted s.dios s.tokens s.pc s.nextDio s.iofreeCount
  current : Current s.dios s.media s.content s.marked

theorem inv_init (media : Nat → Block) : Inv (init media) :=
  ⟨.init, .init, .init⟩

section
variable {s s' : State} {t d : Nat} {x y : Dio}

/-- A block has no other DIO. -/
theorem Inv.only (hi : Inv s) (hd : s.dios d = some x) {e : Nat} {z : Dio}
    (he : s.dios e = some z) (hz : z.pbase = x.pbase) : e = d :=
  hi.linked.unique he hd hz

/-- A DIO that a thread has has a reference. -/
theorem Inv.refs_ne (hi : Inv s) (hm : (t, d) ∈ s.tokens) (hd : s.dios d = some x) :
    x.refs ≠ 0 := by
  intro h0
  exact Tokens.count_eq_zero.mp ((hi.counted.refs hd).symm.trans h0) t hm

/-- What is marked dirty of the block of a DIO is in its buffer. -/
theorem Inv.marked_good (hi : Inv s) (hd : s.dios d = some x) (hk : s.marked x.pbase = true) :
    x.good = true ∧ x.dirty = true := by
  obtain ⟨e, z, he, hz, hgood⟩ := hi.current.marked hk
  obtain rfl := hi.only hd he hz
  obtain rfl : x = z := by simpa [hd] using he
  exact hgood

/-- Without a GOOD buffer the block is what the media has. -/
theorem Inv.media_eq (hi : Inv s) (hd : s.dios d = some x) (hg : x.good = false) :
    s.media x.pbase = s.content x.pbase := by
  refine hi.current.media fun {e z} he hz => ?_
  obtain rfl := hi.only hd he hz
  obtain rfl : x = z := by simpa [hd] using he
  exact hg

theorem Inv.setPc (hi : Inv s) {p : Pc} (hp : ∀ {e}, p.busy = some e → (t, e) ∈ s.tokens) :
    Inv (s.setPc t p) :=
  ⟨hi.linked, hi.counted.goto hp, hi.current⟩

/-- A DIO changes and its buffer does not. -/
theorem Inv.setDio (hi : Inv s) (hd : s.dios d = some x) (hp : y.pbase = x.pbase)
    (hr : y.refs = x.refs) (hg : y.good = x.good) (hb : y.bp = x.bp)
    (hdirty : x.dirty = true → y.dirty = true) : Inv (s.setDio d y) :=
  ⟨hi.linked.set hd hp, hi.counted.set (hi.linked.known hd) hd hr,
    hi.current.keep (hi.only hd) hd hp hg hb hdirty (hr ▸ id)⟩

/-! ## What a step leaves alone -/

/-- Where a step may change the content of a block that is marked dirty. -/
def Event.rewrites (s : State) (p i : Nat) : Event → Prop
  | .modify _ d _ => ∃ x, s.dios d = some x ∧ x.pbase = p
  | .fill t _ _ => ∃ d lbase lsize x, s.pc t = .fill d .new lbase lsize ∧ s.dios d = some x ∧
      x.pbase = p ∧ lbase / 64 * 64 - x.pbase ≤ i ∧ i < lbase / 64 * 64 - x.pbase + lsize
  | _ => False

structure Kept (s : State) (e : Event) (s' : State) : Prop where
  freed : ∀ d x, s.dios d = some x → s'.dios d = none →
    x.refs = 0 ∧ (∀ t, (t, d) ∉ s.tokens) ∧ ∀ t, (s.pc t).busy ≠ some d
  handed : ∀ p, s.marked p = true →
    s'.marked p = true ∨ (∃ t d, e = .put t d) ∧ s'.media p = s.content p
  stale : ∀ p i, s.marked p = true → s'.content p i = s.content p i ∨ e.rewrites s p i

/-- A step that takes away no DIO and leaves the blocks alone. -/
structure Quiet (s s' : State) : Prop where
  dios : ∀ d, s'.dios d = none → s.dios d = none
  content : s'.content = s.content
  marked : ∀ p, s.marked p = true → s'.marked p = true

theorem Quiet.refl (s : State) : Quiet s s := ⟨fun _ h => h, rfl, fun _ h => h⟩

theorem Quiet.set (hd : s'.dios = Function.update s.dios d (some y))
    (hc : s'.content = s.content) (hm : s'.marked = s.marked) : Quiet s s' where
  dios e he := by
    rw [hd] at he
    by_cases hed : e = d
    · subst hed
      rw [Function.update_self] at he
      cases he
    · rwa [Function.update_of_ne hed] at he
  content := hc
  marked p h := hm ▸ h

theorem Quiet.setDio : Quiet s (s.setDio d y) := .set (d := d) (y := y) rfl rfl rfl

theorem Quiet.setPc (h : Quiet s s') {p : Pc} : Quiet s (s'.setPc t p) :=
  ⟨h.dios, h.content, h.marked⟩

theorem Quiet.kept (hq : Quiet s s') (e : Event) : Kept s e s' where
  freed d x hd hd' := by
    rw [hq.dios d hd'] at hd
    cases hd
  handed p hk := .inl (hq.marked p hk)
  stale p i _ := .inl (by rw [hq.content])

/-! ## `hammer2_io_getblk` -/

theorem alloc_spec {off : Nat} {createit : Bool} {now : Int} {r : Option Nat} (hi : Inv s)
    (h : alloc s t off createit now = some (r, s')) :
    Inv s' ∧ Quiet s s' ∧ ∀ {e}, r = some e → (t, e) ∈ s'.tokens := by
  obtain ⟨pbase, -, h⟩ := Option.bind_eq_some_iff.mp h
  split at h
  · next e x hlook =>
    obtain ⟨hd, -⟩ := hashLookup_some hlook
    split at h
    · cases h
    · cases h
      refine ⟨⟨?_, ?_, ?_⟩, .set rfl rfl rfl, ?_⟩
      · exact hi.linked.set hd rfl
      · exact hi.counted.acquire (hi.linked.known hd) hd rfl
      · exact hi.current.keep (hi.only hd) hd rfl rfl rfl id nofun
      · intro _ he
        cases he
        exact List.mem_cons_self
  · next hlook =>
    split at h
    · cases h
      have hnone : s.dios s.nextDio = none := by
        cases hn : s.dios s.nextDio with
        | none => rfl
        | some z => exact absurd (hi.linked.known hn) (Nat.lt_irrefl _)
      refine ⟨⟨?_, ?_, ?_⟩, .set rfl rfl rfl, ?_⟩
      · exact hi.linked.create (y := (Dio.create pbase).touch now)
          fun he => hashLookup_none hi.linked hlook he
      · exact hi.counted.create hi.linked.known rfl
      · exact hi.current.create hnone rfl rfl
      · intro _ he
        cases he
        exact List.mem_cons_self
    · cases h
      exact ⟨hi, .refl s, nofun⟩

theorem getblk_spec {lbase lsize : Nat} {op : Op} {quick : Bool} {now : Int} (hi : Inv s)
    (h : getblk s t lbase lsize op quick now = some s') : Inv s' ∧ Quiet s s' := by
  unfold getblk at h
  split at h
  · cases h
  · obtain ⟨⟨r, s₁⟩, halloc, h⟩ := Option.bind_eq_some_iff.mp h
    obtain ⟨hi₁, hq, htok⟩ := alloc_spec hi halloc
    cases r with
    | some d =>
        cases h
        refine ⟨hi₁.setPc fun he => ?_, hq.setPc⟩
        cases he
        exact htok rfl
    | none =>
        cases h
        exact ⟨hi₁, hq⟩

/-- The operation on a buffer with the block, or on any buffer for NEW and NEWNZ where the
DIO was not GOOD. -/
theorem applied_spec {op : Op} {lbase lsize : Nat} {b : Block} (hi : Inv s)
    (hd : s.dios d = some x) (hpos : x.refs ≠ 0) (hp : y.pbase = x.pbase) (hr : y.refs = x.refs)
    (hg : y.good = true) (hdirty : y.dirty = x.dirty)
    (hb : b = s.content x.pbase ∨ x.good = false ∧ op ≠ .read) :
    let s' := s.applied d (y.applyOp op b lbase lsize)
    Inv s' ∧ (∀ e, s'.dios e = none → s.dios e = none) ∧
      (∀ p, s.marked p = true → s'.marked p = true) ∧
      ∀ p i, s.marked p = true → s'.content p i = s.content p i ∨ op = .new ∧ x.pbase = p ∧
        lbase / 64 * 64 - x.pbase ≤ i ∧ i < lbase / 64 * 64 - x.pbase + lsize := by
  have hn := hi.linked.known hd
  -- NEW and NEWNZ put `c` into the buffer and mark it
  have hload : ∀ c : Block,
      Inv (((s.setDio d { y with bp := some c, dirty := true }).write y.pbase c).mark y.pbase) := by
    intro c
    refine ⟨hi.linked.set hd hp, hi.counted.set hn hd hr, ?_⟩
    have h := hi.current.set (y := { y with bp := some c, dirty := true }) (m := s.media x.pbase)
      (c := c) (k := true) (hi.only hd) hd hp ⟨fun _ => rfl, fun _ => hg⟩
      (fun h0 => absurd (hr.symm.trans h0) hpos) (fun b' hb' => (Option.some.inj hb').symm)
      (fun _ => ⟨hg, rfl⟩) (fun h0 => absurd (hg.symm.trans h0) nofun)
    rw [Function.update_eq_self, ← hp] at h
    exact h
  have hmark : ∀ p, s.marked p = true → Function.update s.marked y.pbase true p = true := by
    intro p hk
    by_cases hpx : p = y.pbase
    · rw [hpx, Function.update_self]
    · rw [Function.update_of_ne hpx, hk]
  -- what is marked is in the buffer already
  have hsame : s.marked x.pbase = true → b = s.content x.pbase := by
    intro hk
    rcases hb with hb | ⟨hng, -⟩
    · exact hb
    · exact absurd (hi.marked_good hd hk).1 (by simp [hng])
  have hother : ∀ {c : Block} {p i}, p ≠ y.pbase →
      Function.update s.content y.pbase c p i = s.content p i :=
    fun hpx => by rw [Function.update_of_ne hpx]
  cases op with
  | read =>
      have hcont : b = s.content x.pbase := hb.resolve_right fun h => h.2 rfl
      refine ⟨⟨hi.linked.set hd hp, hi.counted.set hn hd hr, ?_⟩, Quiet.setDio.dios,
        fun p hk => hk, fun p i _ => .inl rfl⟩
      have h := hi.current.set (y := { y with bp := some b }) (m := s.media x.pbase)
        (c := s.content x.pbase) (k := s.marked x.pbase) (hi.only hd) hd hp
        ⟨fun _ => rfl, fun _ => hg⟩ (fun h0 => absurd (hr.symm.trans h0) hpos)
        (fun b' hb' => (Option.some.inj hb').symm.trans hcont)
        (fun hk => ⟨hg, hdirty.trans (hi.marked_good hd hk).2⟩)
        (fun h0 => absurd (hg.symm.trans h0) nofun)
      simp only [Function.update_eq_self] at h
      exact h
  | newnz =>
      refine ⟨hload b, Quiet.setDio.dios, hmark, ?_⟩
      intro p i hk
      left
      by_cases hpx : p = y.pbase
      · rw [hpx, hp] at hk ⊢
        show Function.update s.content y.pbase b x.pbase i = _
        rw [hp, Function.update_self, hsame hk]
      · exact hother hpx
  | new =>
      refine ⟨hload _, Quiet.setDio.dios, hmark, ?_⟩
      intro p i hk
      by_cases hpx : p = y.pbase
      · rw [hpx, hp] at hk ⊢
        by_cases hin : lbase / 64 * 64 - x.pbase ≤ i ∧ i < lbase / 64 * 64 - x.pbase + lsize
        · exact .inr ⟨rfl, rfl, hin⟩
        · left
          show Function.update s.content y.pbase (bzero b (lbase / 64 * 64 - y.pbase) lsize)
            x.pbase i = _
          rw [hp, Function.update_self, ← hsame hk]
          exact if_neg hin
      · exact .inl (hother hpx)

theorem fill_spec {op : Op} {lbase lsize : Nat} {err : Bool} {garbage : Block} (hi : Inv s)
    (hpc : s.pc t = .fill d op lbase lsize) (h : fill s d op lbase lsize err garbage = some s') :
    Inv s' ∧ Kept s (.fill t err garbage) s' := by
  obtain ⟨x, hd, h⟩ := Option.bind_eq_some_iff.mp h
  have hpos : x.refs ≠ 0 := hi.refs_ne (hi.counted.busy (t := t) (by rw [hpc]; rfl)) hd
  have finish : ∀ {y : Dio} {b : Block}, y.pbase = x.pbase → y.refs = x.refs → y.good = true →
      y.dirty = x.dirty → (b = s.content x.pbase ∨ x.good = false ∧ op ≠ .read) →
      Inv (s.applied d (y.applyOp op b lbase lsize)) ∧
        Kept s (.fill t err garbage) (s.applied d (y.applyOp op b lbase lsize)) := by
    intro y b hp hr hg hdirty hb
    obtain ⟨hinv, hdios, hmark, hcontent⟩ :=
      @applied_spec _ _ _ _ _ lbase lsize _ hi hd hpos hp hr hg hdirty hb
    refine ⟨hinv, ?_, fun p hk => .inl (hmark p hk), ?_⟩
    · intro e z he he'
      rw [hdios e he'] at he
      cases he
    · intro p i hk
      refine (hcontent p i hk).imp_right fun ⟨hop, hxp, hin⟩ => ?_
      subst hop
      exact ⟨d, lbase, lsize, x, hpc, hd, hxp, hin⟩
  split at h
  · next hgood =>
    obtain ⟨b, hb, h⟩ := Option.bind_eq_some_iff.mp h
    cases h
    exact finish rfl rfl hgood rfl (.inl (hi.current.block hd hb))
  · next hgood =>
    have hng : x.good = false := by simpa using hgood
    split at h
    · cases h
    · split at h
      · next hbase =>
        cases h
        exact finish rfl rfl rfl rfl (.inr ⟨hng, hbase.2.2⟩)
      · split at h
        · cases h
          exact ⟨hi.setDio hd rfl rfl rfl rfl id, Quiet.setDio.kept _⟩
        · cases h
          exact finish rfl rfl rfl rfl (.inl (hi.media_eq hd hng))

/-! ## Dedup masks -/

theorem dedup_spec {op : DedupOp} {btype dataOff bytes : Nat} {now : Int} (hi : Inv s)
    (h : dedup s t op btype dataOff bytes now = some s') : Inv s' ∧ Quiet s s' := by
  unfold dedup at h
  split at h
  · cases h
    exact ⟨hi, .refl s⟩
  · obtain ⟨⟨r, s₁⟩, halloc, h⟩ := Option.bind_eq_some_iff.mp h
    obtain ⟨hi₁, hq, htok⟩ := alloc_spec hi halloc
    cases r with
    | some d =>
        cases h
        refine ⟨hi₁.setPc fun he => ?_, hq.setPc⟩
        cases he
        exact htok rfl
    | none =>
        cases h
        exact ⟨hi₁, hq⟩

theorem dedupApply_spec {op : DedupOp} {dataOff bytes : Nat} (hi : Inv s)
    (h : dedupApply s d op dataOff bytes = some s') : Inv s' ∧ Quiet s s' := by
  obtain ⟨x, hd, h⟩ := Option.bind_eq_some_iff.mp h
  -- only the masks and the lock change
  have keep : ∀ y : Dio, y = { x with
      locked := y.locked, dedupValid := y.dedupValid, dedupAlloc := y.dedupAlloc } →
      Inv (s.setDio d y) ∧ Quiet s (s.setDio d y) := by
    intro y hy
    rw [hy]
    exact ⟨hi.setDio hd rfl rfl rfl rfl id, .setDio⟩
  cases op with
  | set =>
      cases h
      exact keep _ rfl
  | delete =>
      dsimp only at h
      split at h
      · cases h
      · cases h
        exact keep _ rfl
  | assert =>
      dsimp only at h
      split at h
      · cases h
        exact keep _ rfl
      · cases h

/-! ## What holders do -/

theorem modify_spec {f : Block → Block} (hi : Inv s)
    (h : step s (.modify t d f) = some s') : Inv s' ∧ Kept s (.modify t d f) s' := by
  dsimp only [step] at h
  split at h
  · cases h
  · next hidle =>
    obtain ⟨-, hm⟩ := not_or.mp hidle
    obtain ⟨x, hd, h⟩ := Option.bind_eq_some_iff.mp h
    obtain ⟨b, hb, h⟩ := Option.bind_eq_some_iff.mp h
    cases h
    have hgood : x.good = true := (hi.current.good hd).mpr (hb ▸ rfl)
    refine ⟨⟨hi.linked.set hd rfl, hi.counted.set (hi.linked.known hd) hd rfl, ?_⟩, ?_, ?_, ?_⟩
    · have h := hi.current.set (y := { x with bp := some (f b) }) (m := s.media x.pbase)
        (c := f b) (k := s.marked x.pbase) (hi.only hd) hd rfl ⟨fun _ => rfl, fun _ => hgood⟩
        (fun h0 => absurd h0 (hi.refs_ne (x := x) (not_not.mp hm) hd))
        (fun b' hb' => (Option.some.inj hb').symm) (fun hk => hi.marked_good (x := x) hd hk)
        (fun h0 => absurd (hgood.symm.trans h0) nofun)
      simp only [Function.update_eq_self] at h
      exact h
    · intro e z he he'
      have hq : Quiet s (s.setDio d { x with bp := some (f b) }) := .setDio
      rw [hq.dios e he'] at he
      cases he
    · intro p hk
      exact .inl hk
    · intro p i _
      by_cases hpx : p = x.pbase
      · exact .inr ⟨x, hd, hpx.symm⟩
      · left
        show Function.update s.content x.pbase (f b) p i = _
        rw [Function.update_of_ne hpx]

theorem setdirty_spec {flush : Bool} (hi : Inv s)
    (h : step s (.setdirty t d flush) = some s') : Inv s' ∧ Quiet s s' := by
  dsimp only [step] at h
  split at h
  · cases h
  · next hidle =>
    obtain ⟨-, hm⟩ := not_or.mp hidle
    obtain ⟨x, hd, h⟩ := Option.bind_eq_some_iff.mp h
    cases h
    split
    · next hgood =>
      refine ⟨⟨hi.linked.set hd rfl, hi.counted.set (hi.linked.known hd) hd rfl, ?_⟩,
        Quiet.setDio.dios, rfl, ?_⟩
      · have h := hi.current.set (y := { x with dirty := true, flush := x.flush || flush })
          (m := s.media x.pbase) (c := s.content x.pbase) (k := true) (hi.only hd) hd rfl
          (hi.current.good (x := x) hd) (hi.current.unref (x := x) hd)
          (fun b hb => hi.current.block (x := x) hd hb)
          (fun _ => ⟨hgood, rfl⟩) (fun h0 => absurd (hgood.symm.trans h0) nofun)
        simp only [Function.update_eq_self] at h
        exact h
      · intro p hk
        show Function.update s.marked x.pbase true p = true
        by_cases hpx : p = x.pbase
        · rw [hpx, Function.update_self]
        · rw [Function.update_of_ne hpx, hk]
    · exact ⟨hi.setDio hd rfl rfl rfl rfl fun _ => rfl, .setDio⟩

theorem give_spec {u : Nat} (hi : Inv s) (h : step s (.give t u d) = some s') :
    Inv s' ∧ Quiet s s' := by
  dsimp only [step] at h
  split at h
  · cases h
  · next hidle =>
    obtain ⟨hpc, hm⟩ := not_or.mp hidle
    cases h
    refine ⟨⟨hi.linked, hi.counted.give (not_not.mp hm) ?_ u, hi.current⟩, fun _ he => he, rfl,
      fun _ hk => hk⟩
    rw [not_not.mp hpc]
    rfl

/-! ## `hammer2_io_putblk` -/

/-- The data of a DIO that has no reference any more. -/
theorem dispose_spec (hi : Inv s) (hd : s.dios d = some x) :
    let s' := dispose s d x
    s'.dios = Function.update s.dios d
        (some { x with refs := 0, good := false, dirty := false, bp := none }) ∧
      s'.iohash = s.iohash ∧ s'.nextDio = s.nextDio ∧ s'.tokens = s.tokens ∧ s'.pc = s.pc ∧
      s'.iofreeCount = s.iofreeCount ∧
      Current s'.dios s'.media s'.content s'.marked ∧
      ∀ p, s.marked p = true → s'.content p = s.content p ∧
        (s'.marked p = true ∨ s'.media p = s.content p) := by
  have hset : ∀ {m c : Block} {k : Bool}, (k = true → False) → m = c →
      Current (Function.update s.dios d
          (some { x with refs := 0, good := false, dirty := false, bp := none }))
        (Function.update s.media x.pbase m) (Function.update s.content x.pbase c)
        (Function.update s.marked x.pbase k) := by
    intro m c k hk hmc
    exact hi.current.set (y := { x with refs := 0, good := false, dirty := false, bp := none })
      (hi.only hd) hd rfl ⟨by rintro ⟨⟩, by rintro ⟨⟩⟩ (fun _ => rfl) (by rintro _ ⟨⟩) (fun h => (hk h).elim)
      fun _ => hmc
  unfold dispose
  cases hb : x.bp with
  | none =>
      have hng : x.good = false := by
        cases hg : x.good with
        | false => rfl
        | true => simpa [hb] using (hi.current.good hd).mp hg
      refine ⟨rfl, rfl, rfl, rfl, rfl, rfl, ?_, fun p hk => ⟨rfl, .inl hk⟩⟩
      have h := hset (m := s.media x.pbase) (c := s.content x.pbase) (k := s.marked x.pbase)
        (fun hk => absurd (hi.marked_good hd hk).1 (by simp [hng])) (hi.media_eq hd hng)
      simp only [Function.update_eq_self] at h
      exact h
  | some b =>
      have hgood : x.good = true := (hi.current.good hd).mpr (hb ▸ rfl)
      have hblock : b = s.content x.pbase := hi.current.block hd hb
      dsimp only
      rw [if_pos hgood]
      cases hdirty : x.dirty with
      | true =>
          refine ⟨rfl, rfl, rfl, rfl, rfl, rfl, ?_, fun p hk => ⟨rfl, ?_⟩⟩
          · have h := hset (m := b) (c := s.content x.pbase) (k := false) (by rintro ⟨⟩) hblock
            rw [Function.update_eq_self x.pbase s.content] at h
            exact h
          · by_cases hpx : p = x.pbase
            · right
              show Function.update s.media x.pbase b p = _
              rw [hpx, Function.update_self, hblock]
            · left
              show Function.update s.marked x.pbase false p = true
              rw [Function.update_of_ne hpx, hk]
      | false =>
          have hclean : s.marked x.pbase = true → False := fun hk =>
            absurd (hi.marked_good hd hk).2 (by simp [hdirty])
          refine ⟨rfl, rfl, rfl, rfl, rfl, rfl, ?_, fun p hk => ⟨?_, .inl hk⟩⟩
          · have h := hset (m := s.media x.pbase) (c := s.media x.pbase) (k := s.marked x.pbase)
              hclean rfl
            rw [Function.update_eq_self x.pbase s.media,
              Function.update_eq_self x.pbase s.marked] at h
            exact h
          · have hpx : p ≠ x.pbase := fun he => hclean (he ▸ hk)
            show Function.update s.content x.pbase (s.media x.pbase) p = _
            rw [Function.update_of_ne hpx]

theorem put_spec (hi : Inv s) (hidle : s.pc t = .idle) (h : put s t d = some s') :
    Inv s' ∧ Kept s (.put t d) s' := by
  obtain ⟨x, hd, h⟩ := Option.bind_eq_some_iff.mp h
  have hbusy : (s.pc t).busy = none := by
    rw [hidle]
    rfl
  split at h
  · cases h
  · next hlock =>
    have hm : (t, d) ∈ s.tokens := not_not.mp (not_or.mp hlock).2
    have hpos := hi.refs_ne hm hd
    have hn := hi.linked.known hd
    rw [if_neg hpos] at h
    dsimp only at h
    split at h
    · next hone =>
      cases h
      obtain ⟨hdios, hio, hnext, htok, hpc, hfree, hcur, hmarks⟩ := dispose_spec hi hd
      refine ⟨⟨?_, ?_, hcur⟩, ?_, ?_, ?_⟩
      · show Linked (dispose s d x).dios (dispose s d x).iohash (dispose s d x).nextDio
        rw [hdios, hio, hnext]
        exact hi.linked.set hd rfl
      · refine Counted.goto ?_ nofun
        show Counted (dispose s d x).dios (s.tokens.erase (t, d)) (dispose s d x).pc
          (dispose s d x).nextDio (s.iofreeCount + 1)
        rw [hdios, hnext, hpc]
        exact hi.counted.release hn hd hm hbusy hone.symm
      · intro e z he he'
        have hq : Quiet s (s.setDio d
          { x with refs := 0, good := false, dirty := false, bp := none }) := .setDio
        rw [hq.dios e ((congrFun hdios e).symm.trans he')] at he
        cases he
      · intro p hk
        exact (hmarks p hk).2.imp_right fun hmedia => ⟨⟨t, d, rfl⟩, hmedia⟩
      · intro p i hk
        exact .inl (congrFun (hmarks p hk).1 i)
    · next hone =>
      cases h
      have hless : x.refs - 1 ≠ 0 := by omega
      have hrel := hi.counted.release (y := { x with refs := x.refs - 1 }) hn hd hm hbusy
        (Nat.sub_add_cancel (Nat.pos_of_ne_zero hpos))
      rw [if_neg hless] at hrel
      have hq : Quiet s (s.setDio d { x with refs := x.refs - 1 }) := .setDio
      refine ⟨⟨hi.linked.set hd rfl, hrel, ?_⟩, Quiet.kept ?_ _⟩
      · exact hi.current.keep (hi.only hd) hd rfl rfl rfl id fun h0 => absurd h0 hless
      · exact ⟨hq.dios, rfl, fun _ hk => hk⟩

theorem putTail_spec {limit now hz : Int} (hi : Inv s)
    (h : putTail s t limit now hz = some s') : Inv s' ∧ Kept s (.putTail t limit now hz) s' := by
  have hi₁ : Inv (s.setPc t .idle) := hi.setPc nofun
  unfold putTail at h
  dsimp only at h
  split at h
  · have hclean : Cleaned (s.setPc t .idle) s' := cleanup_spec hi₁.linked h
    have hcontent : s'.content = s.content := by rw [hclean.rest]; rfl
    have hmarked : s'.marked = s.marked := by rw [hclean.rest]; rfl
    refine ⟨⟨hi₁.linked.clean hclean, hi₁.counted.clean hi₁.linked hclean,
      hi₁.current.clean hclean⟩, ?_, ?_, ?_⟩
    · intro d x hd hd'
      obtain ⟨k, hk⟩ | ⟨-, h0, -⟩ := (hd ▸ hclean.aged d : Aged (some x) _).some_left
      · rw [hd'] at hk
        cases hk
      · have hnone := Tokens.count_eq_zero.mp ((hi.counted.refs hd).symm.trans h0)
        exact ⟨h0, hnone, fun u hu => hnone u (hi.counted.busy hu)⟩
    · intro p hk
      exact .inl (by rw [hmarked, hk])
    · intro p i _
      exact .inl (by rw [hcontent])
  · cases h
    exact ⟨hi₁, (Quiet.refl s).setPc.kept _⟩

/-! ## Runs -/

theorem step_inv {e : Event} (hi : Inv s) (h : step s e = some s') : Inv s' ∧ Kept s e s' := by
  cases e with
  | getblk t lbase lsize op quick now =>
      dsimp only [step] at h
      split at h
      · exact (getblk_spec hi h).imp_right fun hq => hq.kept _
      · cases h
  | fill t err garbage =>
      dsimp only [step] at h
      split at h
      · next d op lbase lsize hpc =>
        obtain ⟨s₁, hfill, rfl⟩ := Option.map_eq_some_iff.mp h
        obtain ⟨hi₁, hk⟩ := fill_spec hi hpc hfill
        exact ⟨hi₁.setPc nofun, hk.freed, hk.handed, hk.stale⟩
      · cases h
  | dedup t op btype dataOff bytes now =>
      dsimp only [step] at h
      split at h
      · exact (dedup_spec hi h).imp_right fun hq => hq.kept _
      · cases h
  | dedupApply t =>
      dsimp only [step] at h
      split at h
      · obtain ⟨s₁, happly, rfl⟩ := Option.map_eq_some_iff.mp h
        obtain ⟨hi₁, hq⟩ := dedupApply_spec hi happly
        exact ⟨hi₁.setPc nofun, hq.setPc.kept _⟩
      · cases h
  | modify t d f => exact modify_spec hi h
  | setdirty t d flush => exact (setdirty_spec hi h).imp_right fun hq => hq.kept _
  | give t u d => exact (give_spec hi h).imp_right fun hq => hq.kept _
  | put t d =>
      dsimp only [step] at h
      split at h
      · next hidle => exact put_spec hi hidle h
      · cases h
  | putTail t limit now hz =>
      dsimp only [step] at h
      split at h
      · exact putTail_spec hi h
      · cases h

/-- What a reached state is like: one DIO for a block, in its hash chain; who has a reference
has a DIO; GOOD says that the buffer is the block; what is marked dirty is in such a buffer, and
without one the media has the block; `iofree_count` is right. -/
structure Sane (s : State) : Prop where
  unique : ∀ {d d' x x'}, s.dios d = some x → s.dios d' = some x' → x.pbase = x'.pbase → d = d'
  hashed : ∀ d h, d ∈ s.iohash h ↔ ∃ x, s.dios d = some x ∧ hashv x.pbase = h
  held : ∀ {t d}, (t, d) ∈ s.tokens ∨ (s.pc t).busy = some d → ∃ x, s.dios d = some x ∧ x.refs ≠ 0
  good : ∀ {d x}, s.dios d = some x → (x.good = true ↔ x.bp = some (s.content x.pbase))
  marked : ∀ {p}, s.marked p = true →
    ∃ d x, s.dios d = some x ∧ x.pbase = p ∧ x.good = true ∧ x.dirty = true
  media : ∀ {p}, (∀ {d x}, s.dios d = some x → x.pbase = p → x.good = false) →
    s.media p = s.content p
  free : s.iofreeCount = ({d | ∃ x, s.dios d = some x ∧ x.refs = 0} : Set Nat).ncard

theorem unheldSum_eq_ncard {dios : Nat → Option Dio} {n : Nat}
    (h : ∀ {d x}, dios d = some x → d < n) :
    unheldSum dios n = ({d | ∃ x, dios d = some x ∧ x.refs = 0} : Set Nat).ncard := by
  have hset : ({d | ∃ x, dios d = some x ∧ x.refs = 0} : Set Nat) =
      ↑((Finset.range n).filter fun d => unheld (dios d) = 1) := by
    ext d
    simp only [Set.mem_ofPred_eq, Finset.coe_filter, Finset.mem_range]
    constructor
    · rintro ⟨x, hd, h0⟩
      exact ⟨h hd, by rw [hd]; exact if_pos h0⟩
    · rintro ⟨-, hone⟩
      cases hd : dios d with
      | none => rw [hd] at hone; cases hone
      | some x =>
          refine ⟨x, rfl, ?_⟩
          by_contra h0
          rw [hd] at hone
          simp [unheld, h0] at hone
  rw [hset, Set.ncard_coe_finset, ← Finset.sum_boole]
  refine Finset.sum_congr rfl fun d _ => ?_
  cases dios d with
  | none => rfl
  | some x => by_cases h0 : x.refs = 0 <;> simp [unheld, h0]

theorem Inv.sane (hi : Inv s) : Sane s where
  unique := hi.linked.unique
  hashed d h := by
    constructor
    · exact hi.linked.alive
    · rintro ⟨x, hd, rfl⟩
      exact hi.linked.entered hd
  held h := by
    have hm := h.elim id hi.counted.busy
    obtain ⟨x, hd⟩ := hi.counted.held hm
    exact ⟨x, hd, hi.refs_ne hm hd⟩
  good hd := by
    constructor
    · intro hg
      obtain ⟨b, hb⟩ := Option.isSome_iff_exists.mp ((hi.current.good hd).mp hg)
      rw [hb, hi.current.block hd hb]
    · intro hb
      exact (hi.current.good hd).mpr (by rw [hb]; rfl)
  marked := hi.current.marked
  media := hi.current.media
  free := hi.counted.free.trans (unheldSum_eq_ncard hi.linked.known)

end

open Machine

/-- Every reached state is sane, and so is what any step does from it. -/
theorem run_coherent (media : Nat → Block) {es : List Event} {s : State}
    (h : exec step (init media) es = some s) :
    Sane s ∧ ∀ e s', step s e = some s' → Kept s e s' := by
  have hi : Inv s := exec_invariant' (fun _ _ _ hi hstep => (step_inv hi hstep).1)
    (inv_init media) h
  exact ⟨hi.sane, fun e s' hstep => (step_inv hi hstep).2⟩

/-- Thread `t` gets the DIO of the `k`-th block and puts it. -/
def cycle (t k : Nat) : List Event :=
  [.getblk t ((k + 1) * pbufSize + 16) pbufSize .new false 0, .fill t false fun _ => 0, .put t k]

/-- Two threads have the DIO of a block, one of them dirty, and both put it. -/
theorem run_coherent_shared : ∃ s, exec step (init fun _ _ => 1)
      ([.getblk 1 (pbufSize + 1024 + 10) 1024 .read false 0, .fill 1 false fun _ => 0] ++
        cycle 0 0 ++ [.setdirty 1 0 true, .put 1 0, .putTail 1 0 0 100]) = some s ∧
    Sane s ∧ ∀ e s', step s e = some s' → Kept s e s' := by
  have hrun : (exec step (init fun _ _ => 1)
      ([.getblk 1 (pbufSize + 1024 + 10) 1024 .read false 0, .fill 1 false fun _ => 0] ++
        cycle 0 0 ++ [.setdirty 1 0 true, .put 1 0, .putTail 1 0 0 100])).isSome := by
    decide
  obtain ⟨s, hs⟩ := Option.isSome_iff_exists.mp hrun
  exact ⟨s, hs, run_coherent _ hs⟩

/-- As many DIOs as the cache keeps, and one more. -/
def crowd : List Event :=
  ((List.range 256).flatMap fun k => cycle 0 k ++ [.putTail 0 256 0 1]) ++ cycle 1 0 ++ cycle 0 256

/-- Thread 1 is still in `hammer2_io_putblk` of a DIO when thread 0 frees it. -/
theorem freed_under_putblk : ¬ ∀ es s e s', exec step (init fun _ _ => 0) es = some s →
    step s e = some s' → ∀ d x, s.dios d = some x → s'.dios d = none →
      (∀ t, (t, d) ∉ s.tokens) ∧ ∀ t, s.pc t ≠ .putTail d := by
  have hrun : (exec step (init fun _ _ => 0) crowd).any fun s =>
      s.pc 1 = .putTail 0 && (s.dios 0).isSome &&
        (step s (.putTail 0 256 100 1)).any fun s' => (s'.dios 0).isNone := by
    decide +kernel
  intro hall
  obtain ⟨s, hs, hstate⟩ := (Option.any_eq_true _ _).mp hrun
  obtain ⟨⟨hpc, hd⟩, hnext⟩ := by simpa only [Bool.and_eq_true, decide_eq_true_eq] using hstate
  obtain ⟨s', hs', hfreed⟩ := (Option.any_eq_true _ _).mp hnext
  obtain ⟨x, hx⟩ := Option.isSome_iff_exists.mp hd
  exact (hall _ s _ s' hs hs' 0 x hx (Option.isNone_iff_eq_none.mp hfreed)).2 1 hpc

end Hammer2.Io
