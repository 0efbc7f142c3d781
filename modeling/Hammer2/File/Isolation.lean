/-
# `Hammer2.File.Isolation` — no write changes what another block refers to

Storage is written as it stands when the chain owns it (`Chain.Owns`).  The
invariant of a run is that such storage is *private* to its block.

    Private s i a     no block but `i` refers to the address, and it is not
                      recorded for dedup
    BlockInv, Inv     storage a chain owns is private, in memory and when the chain
                      is loaded again; while a snapshot is made it is not in the
                      blockset that will be copied
    run_isolated      in every run of `Ok` steps no write changes what another
                      blockref resolves to, and storage is written as it stands
                      only when it is private
-/
import Hammer2.File.Blocks

namespace Hammer2.File.Isolation

open Machine

/-! ## The invariant -/

/-- No other block refers to the address, and no dedup hit can. -/
def State.Private (s : State) (i a : Nat) : Prop :=
  s.dev.dedupValid (a / dedupFrag) = false ∧
    ∀ j b, j ≠ i → s.blocks[j]? = some b → ∀ off ∈ b.refs, ¬ off.Has a

/-- The entry of the block table is that of the chain. -/
structure Agrees (e : Bref) (c : Chain) : Prop where
  type : e.type = c.type
  dataOff : e.dataOff = c.dataOff
  check : e.check = c.check
  modifyTid : e.modifyTid = c.modifyTid

/-- A chain without `UPDATE` is not modified, and loads as it is. -/
def Flushed (table : Option Bref) (c : Chain) : Prop :=
  c.update = false → c.modified = false ∧
    ((∃ e, table = some e ∧ Agrees e c) ∨ (c.dataOff.base = 0 ∧ table = none))

structure BlockInv (s : State) (P : Pfs) (i : Nat) (b : Block) : Prop where
  sized : ∀ off ∈ b.refs, off.Sized
  owned : ∀ c, b.cur = some c → c.Owns P.lsnapTid → ∀ a, c.dataOff.Has a → s.Private i a
  safe : ∀ c, b.cur = some c → c.dedupable = true → c.check ≠ checkNone
  flushed : ∀ c, b.chain = some c → Flushed b.table c
  curTid : ∀ c, b.cur = some c → c.modifyTid < P.modifyTid
  tids : ∀ e ∈ b.entries, e.modifyTid < P.modifyTid
  snap : P.snapping ≠ none → ∀ e, b.blockset = some e → e.modifyTid ≤ P.lsnapTid ∧
    ∀ c, b.cur = some c → c.Owns P.lsnapTid → ∀ a, c.dataOff.Has a → ¬ e.dataOff.Has a

structure Inv (s : State) : Prop where
  emerg : s.dev.emerg = false
  aligned : ∀ i, (s.dev.heurDedup i).dataOff.base % allocMin = 0
  pfs : ∀ b ∈ s.blocks, b.pfs < s.pfss.length
  tids : ∀ P ∈ s.pfss, P.lsnapTid ≤ P.modifyTid
  block : ∀ i b P, s.blocks[i]? = some b → s.pfss[b.pfs]? = some P → BlockInv s P i b

/-! ## Owning storage -/

/-- The chains that are written as they stand: modified and not shared, or of a file
without check code and written after the last snapshot. -/
theorem newmod_false {lsnap : Nat} {c : Chain} : newmod false lsnap c = false ↔
    (c.modified = true ∧ c.dedupable = false) ∨
      (c.modified = false ∧ (c.type = .data ∨ c.type = .dirent) ∧ c.initial = false ∧
        c.dedupable = false ∧ c.check = checkNone ∧ lsnap < c.modifyTid) := by
  unfold newmod
  cases hm : c.modified with
  | true => simp
  | false =>
      simp only [Bool.false_eq_true, if_false, false_and, false_or, true_and]
      split
      · rename_i h
        exact ⟨fun _ => h, fun _ => rfl⟩
      · rename_i h
        exact ⟨(fun hb => nomatch hb), fun h' => absurd h' h⟩

/-- A loaded chain owns its storage only when it may be overwritten. -/
theorem owns_load {lsnap : Nat} {e : Bref} (h : e.load.Owns lsnap) :
    (e.type = .data ∨ e.type = .dirent) ∧ e.check = checkNone ∧ lsnap < e.modifyTid := by
  rcases h with hi | hn
  · cases hi
  · rcases newmod_false.mp hn with ⟨hm, -⟩ | ⟨-, ht, -, -, hc, hl⟩
    · cases hm
    · exact ⟨ht, hc, hl⟩

/-- What a chain owns after it is loaded again, it owned before. -/
theorem Agrees.owns {lsnap : Nat} {e : Bref} {c : Chain} (h : Agrees e c)
    (hm : c.modified = false) (hsafe : c.dedupable = true → c.check ≠ checkNone)
    (ho : e.load.Owns lsnap) : c.Owns lsnap := by
  obtain ⟨ht, hc, hl⟩ := owns_load ho
  have hck : c.check = checkNone := h.check ▸ hc
  have hded : c.dedupable = false := by
    cases hd : c.dedupable with
    | false => rfl
    | true => exact absurd hck (hsafe hd)
  cases hi : c.initial with
  | true => exact Or.inl hi
  | false => exact Or.inr (newmod_false.mpr (Or.inr ⟨hm, h.type ▸ ht, hi, hded, hck, h.modifyTid ▸ hl⟩))

/-- An earlier snapshot leaves a chain at least what a later one does. -/
theorem owns_mono {lsnap lsnap' : Nat} {c : Chain} (hle : lsnap ≤ lsnap') (ho : c.Owns lsnap') :
    c.Owns lsnap := by
  rcases ho with hi | hn
  · exact Or.inl hi
  · refine Or.inr (newmod_false.mpr ?_)
    rcases newmod_false.mp hn with hm | ⟨hm, ht, hi, hd, hc, hl⟩
    · exact Or.inl hm
    · exact Or.inr ⟨hm, ht, hi, hd, hc, Nat.lt_of_le_of_lt hle hl⟩

/-- The flags a flush clears give a chain no storage. -/
theorem owns_flush {lsnap : Nat} {c : Chain} {u : Bool}
    (ho : ({ c with modified := false, update := u } : Chain).Owns lsnap) : c.Owns lsnap := by
  rcases ho with hi | hn
  · exact Or.inl hi
  · refine Or.inr (newmod_false.mpr ?_)
    rcases newmod_false.mp hn with ⟨hm, -⟩ | ⟨-, ht, hi, hd, hc, hl⟩
    · cases hm
    · cases hm : c.modified with
      | true => exact Or.inl ⟨rfl, hd⟩
      | false => exact Or.inr ⟨rfl, ht, hi, hd, hc, hl⟩

/-! ## References -/

theorem mem_entries {b : Block} {e : Bref} : e ∈ b.entries ↔ b.blockset = some e ∨ some e ∈ b.path := by
  unfold Block.entries
  simp [List.mem_filterMap, eq_comm]

theorem mem_refs {b : Block} {off : DataOff} : off ∈ b.refs ↔
    (∃ c, b.chain = some c ∧ c.dataOff = off) ∨ ∃ e ∈ b.entries, e.dataOff = off := by
  unfold Block.refs
  simp [List.mem_append, List.mem_map]

theorem table_mem {b : Block} {e : Bref} (h : b.table = some e) : some e ∈ b.path := by
  unfold Block.table at h
  cases hp : b.path with
  | nil => simp [hp] at h
  | cons x xs =>
      rw [hp] at h
      obtain rfl : x = some e := h
      exact List.mem_cons_self ..

/-- The storage of the chain a lookup finds is referred to. -/
theorem cur_refs {b : Block} {c : Chain} (h : b.cur = some c) : c.dataOff ∈ b.refs := by
  unfold Block.cur at h
  split at h
  · rename_i d hd
    obtain rfl := Option.some.inj h
    exact mem_refs.mpr (Or.inl ⟨d, hd, rfl⟩)
  · obtain ⟨e, he, rfl⟩ := Option.map_eq_some_iff.mp h
    exact mem_refs.mpr (Or.inr ⟨e, mem_entries.mpr (Or.inr (table_mem he)), rfl⟩)

theorem cur_chain {b : Block} {c : Chain} (h : b.chain = some c) : b.cur = some c := by
  unfold Block.cur
  rw [h]

theorem Apart.not_has {off r : DataOff} (h : Apart off r) {a : Nat} (ha : off.Has a) : ¬ r.Has a := by
  rintro ⟨hb, hl, hu⟩
  obtain ⟨-, hl', hu'⟩ := ha
  rcases h with h | h | h
  · exact hb h
  · omega
  · omega

/-- The KBs of an aligned block are its addresses. -/
theorem mask_has {off : DataOff} (hs : off.Sized) (hb : off.base ≠ 0) {a : Nat}
    (hm : off.mask (a / dedupFrag) = true) : off.Has a := by
  obtain ⟨hl, hu⟩ := of_decide_eq_true hm
  have hal := hs.2
  have hbytes : off.bytes % 1024 = 0 := by
    unfold DataOff.bytes
    rw [if_neg (fun hz => absurd (hz ▸ hs.1) (by decide))]
    exact Nat.mod_eq_zero_of_dvd (Nat.pow_dvd_pow 2 hs.1)
  simp only [dedupFrag, allocMin] at hl hu hal
  exact ⟨hb, by omega, by omega⟩

/-- A block all of whose KBs are recorded. -/
theorem covered_valid {off : DataOff} {bits : Nat → Bool} (hs : off.base % allocMin = 0)
    (hc : off.covered bits = true) {a : Nat} (ha : off.Has a) : bits (a / dedupFrag) = true := by
  obtain ⟨-, hl, hu⟩ := ha
  have hk := List.all_eq_true.mp hc (a / dedupFrag - off.base / dedupFrag) (List.mem_range.mpr (by
    simp only [dedupFrag, allocMin] at hs ⊢
    omega))
  have haddr : off.base / dedupFrag + (a / dedupFrag - off.base / dedupFrag) = a / dedupFrag :=
    Nat.add_sub_cancel' (Nat.div_le_div_right hl)
  rwa [haddr] at hk

theorem unrecorded_valid {off : DataOff} {bits : Nat → Bool} (hs : off.base % allocMin = 0)
    (hc : unrecorded off bits = true) {a : Nat} (ha : off.Has a) : bits (a / dedupFrag) = false := by
  have hcov : off.covered (fun u => !bits u) = true := hc
  have hv := covered_valid hs hcov ha
  exact Bool.not_eq_true' _ ▸ hv

/-! ## A step of one block -/

section
variable {s : State} {P : Pfs} {i : Nat} {b b' : Block} {h : Dev}

/-- Every address the block refers to now was referred to by it before, by no block, or
is recorded for dedup. -/
def RefsFrom (s : State) (b b' : Block) : Prop :=
  ∀ off ∈ b'.refs, ∀ a, off.Has a → (∃ r ∈ b.refs, r.Has a) ∨
    (∀ d ∈ s.blocks, ∀ r ∈ d.refs, ¬ r.Has a) ∨ s.dev.dedupValid (a / dedupFrag) = true

/-- New dedup bits are those of storage the block refers to. -/
def ValidFrom (s : State) (h : Dev) (b' : Block) : Prop :=
  ∀ a, h.dedupValid (a / dedupFrag) = true →
    s.dev.dedupValid (a / dedupFrag) = true ∨ ∃ off ∈ b'.refs, off.Has a

/-- What is private to another block, and referred to by it, stays private to it. -/
theorem private_set (hb : s.blocks[i]? = some b) (hrefs : RefsFrom s b b') (hvalid : ValidFrom s h b')
    {j a : Nat} {d : Block} {off : DataOff} (hj : j ≠ i) (hd : s.blocks[j]? = some d)
    (hoff : off ∈ d.refs) (ha : off.Has a) (hp : s.Private j a) :
    State.Private ⟨h, s.pfss, s.blocks.set i b'⟩ j a := by
  obtain ⟨hv, ho⟩ := hp
  have hnot : ∀ r ∈ b'.refs, ¬ r.Has a := by
    intro r hr har
    rcases hrefs r hr a har with ⟨r', hr', har'⟩ | hfree | hval
    · exact ho i b (Ne.symm hj) hb r' hr' har'
    · exact hfree d (List.mem_of_getElem? hd) off hoff ha
    · exact absurd (hv.symm.trans hval) (by decide)
  refine ⟨?_, fun k e hk he r hr => ?_⟩
  · cases hx : h.dedupValid (a / dedupFrag) with
    | false => rfl
    | true =>
        rcases hvalid a hx with hval | ⟨r, hr, har⟩
        · exact absurd (hv.symm.trans hval) (by decide)
        · exact absurd har (hnot r hr)
  · by_cases hki : k = i
    · subst hki
      obtain ⟨hlt, -⟩ := List.getElem?_eq_some_iff.mp hb
      obtain rfl : b' = e := Option.some.inj ((List.getElem?_set_self hlt).symm.trans he)
      exact hnot r hr
    · rw [List.getElem?_set_ne (Ne.symm hki)] at he
      exact ho k e hk he r hr

/-- **A step of one block** keeps the invariant of the others. -/
theorem Inv.set (hs : Inv s) (hb : s.blocks[i]? = some b) (hpfs : b'.pfs = b.pfs)
    (hemerg : h.emerg = false) (hal : ∀ k, (h.heurDedup k).dataOff.base % allocMin = 0)
    (hrefs : RefsFrom s b b') (hvalid : ValidFrom s h b')
    (hown : ∀ P, s.pfss[b.pfs]? = some P → BlockInv ⟨h, s.pfss, s.blocks.set i b'⟩ P i b') :
    Inv ⟨h, s.pfss, s.blocks.set i b'⟩ where
  emerg := hemerg
  aligned := hal
  pfs d hd := by
    rcases List.mem_or_eq_of_mem_set hd with hd | rfl
    · exact hs.pfs d hd
    · rw [hpfs]
      exact hs.pfs b (List.mem_of_getElem? hb)
  tids := hs.tids
  block j d Q hd hQ := by
    by_cases hj : j = i
    · subst hj
      obtain ⟨hlt, -⟩ := List.getElem?_eq_some_iff.mp hb
      obtain rfl : b' = d := Option.some.inj ((List.getElem?_set_self hlt).symm.trans hd)
      exact hown Q (hpfs ▸ hQ)
    · rw [List.getElem?_set_ne (Ne.symm hj)] at hd
      have hinv := hs.block j d Q hd hQ
      exact ⟨hinv.sized, fun c hc ho a ha => private_set hb hrefs hvalid hj hd (cur_refs hc) ha
        (hinv.owned c hc ho a ha), hinv.safe, hinv.flushed, hinv.curTid, hinv.tids, hinv.snap⟩

/-- The addresses an operation on the block must not write. -/
def Protected (s : State) (P : Pfs) (i : Nat) (b : Block) (a : Nat) : Prop :=
  ¬ s.Private i a ∨ (P.snapping ≠ none ∧ ∃ e, b.blockset = some e ∧ e.dataOff.Has a)

def OldRef (b : Block) (a : Nat) : Prop := ∃ r ∈ b.refs, r.Has a

/-- What is owned is not protected. -/
theorem BlockInv.unprotected (hinv : BlockInv s P i b) {c : Chain} (hc : b.cur = some c)
    (ho : c.Owns P.lsnapTid) {a : Nat} (ha : c.dataOff.Has a) : ¬ Protected s P i b a := by
  rintro (hnp | ⟨hsn, e, he, hae⟩)
  · exact hnp (hinv.owned c hc ho a ha)
  · exact (hinv.snap hsn e he).2 c hc ho a ha hae

/-- A block an operation starts from is held. -/
theorem BlockInv.held (hinv : BlockInv s P i b) {answers : List (Option DataOff)} {c : Chain}
    (hc : b.cur = some c) :
    Held (Protected s P i b) (OldRef b) P.lsnapTid (s.answering answers) c :=
  ⟨fun ho _ ha => hinv.unprotected hc ho ha, fun _ ha => Or.inl ⟨_, cur_refs hc, ha⟩,
    hinv.sized _ (cur_refs hc)⟩

/-- Free storage is not protected. -/
theorem free_outside {answers : List (Option DataOff)} (hb : s.blocks[i]? = some b)
    (hfree : ∀ off ∈ answers.filterMap id, s.Free off) :
    Outside (Protected s P i b) (s.answering answers) := by
  intro off hoff
  obtain ⟨hal, hun, hap⟩ := hfree off (List.mem_filterMap.mpr ⟨_, hoff, rfl⟩)
  refine ⟨hal, fun a ha hp => ?_⟩
  rcases hp with hnp | ⟨-, e, he, hae⟩
  · refine hnp ⟨unrecorded_valid hal hun ha, fun j d _ hd r hr => ?_⟩
    exact (hap d (List.mem_of_getElem? hd) r hr).not_has ha
  · have he' : e.dataOff ∈ b.refs := mem_refs.mpr (Or.inr ⟨e, mem_entries.mpr (Or.inl he), rfl⟩)
    exact (hap b (List.mem_of_getElem? hb) _ he').not_has ha hae

/-! ## What an operation leaves -/

theorem entries_after {chain : Option Chain} {e : Bref} (he : e ∈ (b.after chain).entries) :
    e ∈ b.entries := by
  rcases mem_entries.mp he with hbs | hp
  · exact mem_entries.mpr (Or.inl hbs)
  · refine mem_entries.mpr (Or.inr ?_)
    unfold Block.after at hp
    simp only at hp
    split at hp
    · rcases List.mem_or_eq_of_mem_set hp with hp | hn
      · exact hp
      · cases hn
    · exact hp

theorem table_set_none : (b.path.set 0 none).head?.join = (none : Option Bref) := by
  cases b.path <;> rfl

theorem cur_after {chain : Option Chain} : (b.after chain).cur = chain := by
  unfold Block.cur
  cases chain with
  | some c => rfl
  | none =>
      show Option.map Bref.load (b.path.set 0 none).head?.join = none
      rw [table_set_none]
      rfl

/-- What is still flushed after an operation was flushed before. -/
theorem Flushed.kept {table : Option Bref} {c c' : Chain} (hf : Flushed table c)
    (hkept : c'.update = false → KeptRef c c') (htype : c'.type = c.type) : Flushed table c' := by
  intro hu
  have hk := hkept hu
  obtain ⟨hm, hcase⟩ := hf (hk.update.symm.trans hu)
  refine ⟨hk.modified.trans hm, hcase.imp ?_ ?_⟩
  · rintro ⟨e, he, hag⟩
    exact ⟨e, he, hag.type.trans htype.symm, hag.dataOff.trans hk.dataOff.symm,
      hag.check.trans hk.check.symm, hag.modifyTid.trans hk.modifyTid.symm⟩
  · rintro ⟨hbase, hn⟩
    exact ⟨by rw [hk.dataOff]; exact hbase, hn⟩

/-- **An operation on a block** that keeps to its frame keeps the invariant. -/
theorem Inv.frame {answers : List (Option DataOff)} {mtid : Nat} {start : Chain}
    {chain : Option Chain} (hs : Inv s) (hb : s.blocks[i]? = some b)
    (hP : s.pfss[b.pfs]? = some P) (hmtid : mtid < P.modifyTid)
    (hfree : ∀ off ∈ answers.filterMap id, s.Free off)
    (hstart : Flushed b.table start ∧ start.modifyTid < P.modifyTid)
    (hf : BlockFrame (Protected s P i b) (OldRef b) P.lsnapTid mtid (s.answering answers) start
      chain h) : Inv ⟨h, s.pfss, s.blocks.set i (b.after chain)⟩ := by
  have hinv := hs.block i b P hb hP
  have hentry : ∀ e ∈ (b.after chain).entries, e.dataOff ∈ b.refs := fun e he =>
    mem_refs.mpr (Or.inr ⟨e, entries_after he, rfl⟩)
  have hchain : ∀ c, (b.after chain).chain = some c → chain = some c := fun c hc => hc
  have hrefs : RefsFrom s b (b.after chain) := by
    intro off hoff a ha
    rcases mem_refs.mp hoff with ⟨c, hc, rfl⟩ | ⟨e, he, rfl⟩
    · rcases (hf.chain c (hchain c hc)).held.source a ha with hold | ⟨off', hoff', ha'⟩ | hval
      · exact Or.inl hold
      · obtain ⟨-, -, hap⟩ := hfree off' (List.mem_filterMap.mpr ⟨_, hoff', rfl⟩)
        exact Or.inr (Or.inl fun d hd r hr => (hap d hd r hr).not_has ha')
      · exact Or.inr (Or.inr hval)
    · exact Or.inl ⟨_, hentry e he, ha⟩
  have hsized : ∀ off ∈ (b.after chain).refs, off.Sized := by
    intro off hoff
    rcases mem_refs.mp hoff with ⟨c, hc, rfl⟩ | ⟨e, he, rfl⟩
    · exact (hf.chain c (hchain c hc)).held.sized
    · exact hinv.sized _ (hentry e he)
  have hvalid : ValidFrom s h (b.after chain) := by
    intro a ha
    rcases hf.valid _ ha with hold | ⟨c, hc, -, hbase, hm⟩
    · exact Or.inl hold
    · exact Or.inr ⟨c.dataOff, cur_refs (cur_after.trans hc),
        mask_has (hf.chain c hc).held.sized hbase hm⟩
  refine hs.set hb rfl hf.emerg ?_ hrefs hvalid ?_
  · intro k
    rcases hf.heur k with hold | ⟨c, hc, hk⟩
    · rw [hold]
      exact hs.aligned k
    · rw [hk]
      exact (hf.chain c hc).held.sized.2
  · intro P' hP'
    obtain rfl := Option.some.inj (hP.symm.trans hP')
    refine ⟨hsized, fun c hc ho a ha => ?_, fun c hc => ?_, fun c hc => ?_, fun c hc => ?_,
      fun e he => hinv.tids e (entries_after he), fun hsn e he => ⟨(hinv.snap hsn e he).1, ?_⟩⟩
    · -- Owned storage was private, and the bits set are not of owned storage.
      rw [cur_after] at hc
      have hnp := (hf.chain c hc).held.owned ho a ha
      have hpriv : s.Private i a := Classical.not_not.mp fun hno => hnp (Or.inl hno)
      refine ⟨?_, fun j d hj hd => ?_⟩
      · show h.dedupValid (a / dedupFrag) = false
        cases hx : h.dedupValid (a / dedupFrag) with
        | false => rfl
        | true =>
            rcases hf.valid _ hx with hold | ⟨c', hc', hno, -⟩
            · exact absurd (hpriv.1.symm.trans hold) (by decide)
            · obtain rfl := Option.some.inj (hc.symm.trans hc')
              exact absurd ho hno
      · rw [List.getElem?_set_ne (Ne.symm hj)] at hd
        exact hpriv.2 j d hj hd
    · rw [cur_after] at hc
      exact (hf.chain c hc).safe
    · have hleft := hf.chain c (hchain c hc)
      have htable : (b.after chain).table = b.table := by
        unfold Block.after Block.table
        rw [hchain c hc]
        rfl
      rw [htable]
      exact hstart.1.kept hleft.kept hleft.type
    · rw [cur_after] at hc
      rcases (hf.chain c hc).tid with ht | ht
      · rw [ht]
        exact hstart.2
      · rw [ht]
        exact hmtid
    · intro c hc ho a ha hae
      rw [cur_after] at hc
      exact (hf.chain c hc).held.owned ho a ha (Or.inr ⟨hsn, e, he, hae⟩)

/-! ## Operations on a block -/

/-- The chain a write starts from: that of the block, or one without storage. -/
theorem BlockInv.start (hinv : BlockInv s P i b) (htid : 0 < P.modifyTid) (ip : Inode) (r : Nat) :
    Flushed b.table (startChain ip b.cur r) ∧ (startChain ip b.cur r).modifyTid < P.modifyTid := by
  cases hc : b.cur with
  | some c =>
      refine ⟨?_, hinv.curTid c hc⟩
      have hcur := hc
      unfold Block.cur at hcur
      split at hcur
      · rename_i d hd
        obtain rfl := Option.some.inj hcur
        exact hinv.flushed d hd
      · obtain ⟨e, he, rfl⟩ := Option.map_eq_some_iff.mp hcur
        exact fun _ => ⟨rfl, Or.inl ⟨e, he, rfl, rfl, rfl, rfl⟩⟩
  | none =>
      refine ⟨fun _ => ⟨rfl, Or.inr ⟨rfl, ?_⟩⟩, htid⟩
      unfold Block.cur at hc
      split at hc
      · cases hc
      · exact Option.map_eq_none_iff.mp hc

/-- A dedup hit for bytes of the size of a block is usable. -/
theorem hit_of_lookup (hs : Inv s) {p : Hashes} {answers : List (Option DataOff)} {bs : Bytes}
    {off : DataOff} {h₁ : Dev} {r : Nat} (hr : radixMin ≤ r) (hlen : bs.length = 2 ^ r)
    (hl : dedupLookup p (s.answering answers) bs = some (some off, h₁)) :
    Hit (s.answering answers) off := by
  obtain ⟨-, -, -, hspec⟩ := dedupLookup_spec hl
  have hhit := hspec off rfl
  obtain ⟨j, hj⟩ := dedupLookup_entry hl
  have hal : off.base % allocMin = 0 := hj ▸ hs.aligned j
  have hradix : off.radix = r := by
    have hpow : 2 ^ off.radix = 2 ^ r := by
      rw [← ioOk_bytes hhit.ioOk, hhit.size, hlen]
    exact Nat.pow_right_injective (Nat.le_refl 2) hpow
  exact ⟨fun a ha => covered_valid hal hhit.valid ha, hhit.good, ioOk_base hhit.ioOk,
    hradix ▸ hr, hal⟩

theorem writeHit_of_lookup {t : Tools} {ip : Inode} {data bs : Bytes} {comp : Nat} {off : DataOff}
    {h₁ : Dev} (hst : stored t ip data = some (comp, bs))
    (hl : dedupLookup t.toHashes h bs = some (some off, h₁)) :
    (writeHit t ip h data).isSome = true := by
  unfold writeHit
  rw [hst, Option.bind_some]
  show ((dedupLookup t.toHashes h bs).bind Prod.fst).isSome = true
  rw [hl]
  rfl

/-- **A write** that meets the condition keeps to its frame. -/
theorem write_frame {t : Tools} {ip : Inode} {f : Faults} {answers : List (Option DataOff)}
    {data : Bytes} {mtid : Nat} {w : Written} (hs : Inv s) (hb : s.blocks[i]? = some b)
    (hP : s.pfss[b.pfs]? = some P) (hfree : ∀ off ∈ answers.filterMap id, s.Free off)
    (hlook : b.cur.isSome = true → f.lookupError = 0) (hsize : blockSize data)
    (hsafe : WriteSafe t s b ip answers data)
    (hw : writeFileCore t { ip with lsnapTid := P.lsnapTid } f (s.answering answers) b.cur data
      mtid = some w) :
    ∃ r, BlockFrame (Protected s P i b) (OldRef b) P.lsnapTid mtid (s.answering answers)
      (startChain ip b.cur r) w.chain w.dev := by
  have hinv := hs.block i b P hb hP
  obtain ⟨hnone, hspace⟩ := hsafe
  have hready : ∀ c, b.cur = some c →
      Ready (Protected s P i b) (OldRef b) P.lsnapTid (s.answering answers) c ∧ f.lookupError = 0 :=
    fun c hc => ⟨⟨hinv.held hc, fun hn hd => ⟨(hspace hn c hc).1 hd, hinv.safe c hc hd⟩,
      hinv.safe c hc⟩, hlook (by rw [hc]; rfl)⟩
  obtain ⟨hlen, hr⟩ := hsize
  have hhits : ∀ comp bs, stored t { ip with lsnapTid := P.lsnapTid } data = some (comp, bs) →
      HitsOk t (s.answering answers)
        (startChain { ip with lsnapTid := P.lsnapTid } b.cur (Nat.clog 2 data.length)).check bs := by
    intro comp bs hst off h₁ hl
    obtain ⟨r, hr', -, hlen'⟩ := (stored_spec hr hlen hst).size
    have hhit := writeHit_of_lookup (show stored t ip data = some (comp, bs) from hst) hl
    refine ⟨hit_of_lookup hs hr' hlen' hl, fun hn => ?_⟩
    cases hc : b.cur with
    | none => exact hnone hhit
    | some c => exact (hspace hn c hc).2 hhit
  obtain ⟨r, -, hframe⟩ := writeFileCore_frame (show (s.answering answers).emerg = false from hs.emerg)
    (free_outside hb hfree) hready hr hlen hhits
    (fun comp bs off h₁ hst hl =>
      hnone (writeHit_of_lookup (show stored t ip data = some (comp, bs) from hst) hl)) hw
  exact ⟨r, hframe⟩

/-- **A new inode** gets new storage. -/
theorem inode_frame {p : Hashes} {answers : List (Option DataOff)} {check mtid error : Nat} {c : Chain}
    (hs : Inv s) (hb : s.blocks[i]? = some b)
    (hfree : ∀ off ∈ answers.filterMap id, s.Free off)
    (hm : chainModify p P.lsnapTid (s.answering answers) (freshInode check) mtid none false =
      some (error, c, h)) :
    BlockFrame (Protected s P i b) (OldRef b) P.lsnapTid mtid (s.answering answers)
      (freshInode check) (some c) h := by
  have hheld : Held (Protected s P i b) (OldRef b) P.lsnapTid (s.answering answers)
      (freshInode check) :=
    ⟨fun _ _ ha => absurd rfl ha.1, fun _ ha => absurd rfl ha.1, Nat.le_refl _, rfl⟩
  have hspace : SpaceOk (s.answering answers) (freshInode check) := fun _ hd => nomatch hd
  obtain ⟨hf, hc, hcase⟩ := chainModify_frame (free_outside hb hfree) (DedupOk.none hspace)
    (Framed.refl hs.emerg) hheld hm
  have hplaced : Placed mtid (freshInode check) error false c := by
    rcases hcase with hflags | ⟨-, hne, hsame⟩
    · exact hflags.placed rfl (fun hne => absurd rfl hne) id
    · exact hsame.placed hne fun hd => nomatch hd
  refine hf.block_frame fun d hd => ?_
  obtain rfl := Option.some.inj hd
  exact hplaced.left hc (Or.inr rfl)

/-- **A read** zero-fills only owned storage; what it records is not owned any more. -/
theorem read_frame {p : Hashes} {c c' : Chain} (hs : Inv s) (hinv : BlockInv s P i b)
    (hc : b.cur = some c) (hr : readBlock p (s.answering []) c = some (c', h)) :
    BlockFrame (Protected s P i b) (OldRef b) P.lsnapTid c.modifyTid (s.answering []) c (some c') h := by
  obtain ⟨⟨d, h₁⟩, hl, hres⟩ := Option.map_eq_some_iff.mp hr
  have hload : Framed (Protected s P i b) (s.answering []) h₁ ∧
      Held (Protected s P i b) (OldRef b) P.lsnapTid (s.answering []) d ∧ SameChain c d := by
    by_cases hneed : c.data = true ∨ c.dataOff.base = 0
    · unfold chainLoadData at hl
      rw [if_pos hneed] at hl
      obtain ⟨rfl, rfl⟩ := Prod.mk.inj (Option.some.inj hl)
      exact ⟨Framed.refl hs.emerg, hinv.held hc, SameChain.refl c⟩
    · have hneed := not_or.mp hneed
      exact chainLoadData_frame (Framed.refl hs.emerg) (hinv.held hc) (Bool.not_eq_true _ ▸ hneed.1)
        hneed.2 hl
  obtain ⟨hf, hd, hsame⟩ := hload
  have hleft : Left (Protected s P i b) (OldRef b) P.lsnapTid c.modifyTid (s.answering []) c d :=
    ⟨hd, fun hde => hsame.check ▸ hinv.safe c hc (hsame.dedupable ▸ hde), hsame.type,
      Or.inl hsame.modifyTid, fun _ => hsame.keptRef⟩
  have hplain : BlockFrame (Protected s P i b) (OldRef b) P.lsnapTid c.modifyTid (s.answering []) c
      (some d) h₁ := hf.block_frame fun d' hd' => Option.some.inj hd' ▸ hleft
  simp only at hres
  split at hres
  · rename_i hcond
    rcases dedupRecord_cases p h₁ d (h₁.block d.dataOff) with heq | ⟨hcheck, hchain, hvalid, hheur⟩
    · rw [heq] at hres
      obtain ⟨rfl, rfl⟩ := Prod.mk.inj hres
      exact hplain
    · obtain ⟨hst, -⟩ := dedupRecord_spec p h₁ d (h₁.block d.dataOff)
      have hc' : c' = { d with dedupable := true } := by
        rw [← hchain, hres]
      rw [hres] at hvalid hheur hst
      have hno : ¬ c'.Owns P.lsnapTid := by
        rw [hc']
        rintro (hi | hn)
        · exact absurd (hcond.2.2.2.1.symm.trans hi) (by decide)
        · rcases newmod_false.mp hn with ⟨-, hd'⟩ | ⟨-, -, -, hd', -⟩
          · cases hd'
          · cases hd'
      refine ⟨hst.emerg.trans hf.emerg, fun a ha => (congrFun hst.mem a).trans (hf.mem a ha),
        fun u hu => ?_, fun k => ?_, fun d' hd' => ?_⟩
      · rw [hvalid] at hu
        rcases Bool.or_eq_true_iff.mp hu with hu | hu
        · exact Or.inl (hf.valid u hu)
        · refine Or.inr ⟨c', rfl, hno, ?_⟩
          rw [hc']
          exact ⟨hcond.2.2.2.2, hu⟩
      · refine (hheur k).imp (fun hk => hk.trans (hf.heur k)) fun hk => ⟨c', rfl, ?_⟩
        rw [hc']
        exact hk
      · obtain rfl := Option.some.inj hd'
        rw [hc'] at hno ⊢
        exact ⟨⟨fun ho => absurd ho hno, hd.source, hd.sized⟩, fun _ => hcheck, hsame.type,
          Or.inl hsame.modifyTid, fun hu => (hleft.kept hu).trans ⟨rfl, rfl, rfl, rfl, rfl⟩⟩
  · obtain ⟨rfl, rfl⟩ := Prod.mk.inj hres
    exact hplain

/-- The chain owns, shares and was modified no more than the other. -/
structure Tamer (c c' : Chain) : Prop where
  dataOff : c'.dataOff = c.dataOff
  owns : ∀ lsnap, c'.Owns lsnap → c.Owns lsnap
  safe : c'.dedupable = true → c'.check ≠ checkNone
  modifyTid : c'.modifyTid = c.modifyTid

/-- **Flushing, moving and evicting** a block: the device is as it was, and nothing new
is referred to. -/
theorem Inv.tame (hs : Inv s) (hb : s.blocks[i]? = some b) (hP : s.pfss[b.pfs]? = some P)
    (hpfs : b'.pfs = b.pfs) (hset : b'.blockset = b.blockset)
    (hchain : ∀ c, b'.chain = some c → c.dataOff ∈ b.refs)
    (hentries : ∀ e ∈ b'.entries, e ∈ b.entries ∨ e.dataOff ∈ b.refs ∧ e.modifyTid < P.modifyTid)
    (hcur : ∀ c', b'.cur = some c' → ∃ c, b.cur = some c ∧ Tamer c c')
    (hflushed : ∀ c, b'.chain = some c → Flushed b'.table c) :
    Inv ⟨s.dev, s.pfss, s.blocks.set i b'⟩ := by
  have hrefs : ∀ off ∈ b'.refs, off ∈ b.refs := by
    intro off hoff
    rcases mem_refs.mp hoff with ⟨c, hc, rfl⟩ | ⟨e, he, rfl⟩
    · exact hchain c hc
    · exact (hentries e he).elim (fun h => mem_refs.mpr (Or.inr ⟨e, h, rfl⟩)) And.left
  refine hs.set hb hpfs hs.emerg hs.aligned (fun off hoff a ha => Or.inl ⟨off, hrefs off hoff, ha⟩)
    (fun a ha => Or.inl ha) fun P' hP' => ?_
  obtain rfl := Option.some.inj (hP.symm.trans hP')
  have hinv := hs.block i b P hb hP
  refine ⟨fun off hoff => hinv.sized off (hrefs off hoff), fun c' hc' ho a ha => ?_,
    fun c' hc' => ?_, hflushed, fun c' hc' => ?_, fun e he => ?_, fun hsn e he => ?_⟩
  · obtain ⟨c, hc, ht⟩ := hcur c' hc'
    obtain ⟨hv, hother⟩ := hinv.owned c hc (ht.owns _ ho) a (ht.dataOff ▸ ha)
    refine ⟨hv, fun j d hj hd => ?_⟩
    rw [List.getElem?_set_ne (Ne.symm hj)] at hd
    exact hother j d hj hd
  · obtain ⟨c, hc, ht⟩ := hcur c' hc'
    exact ht.safe
  · obtain ⟨c, hc, ht⟩ := hcur c' hc'
    rw [ht.modifyTid]
    exact hinv.curTid c hc
  · exact (hentries e he).elim (hinv.tids e) And.right
  · obtain ⟨htid, hout⟩ := hinv.snap hsn e (hset ▸ he)
    refine ⟨htid, fun c' hc' ho a ha => ?_⟩
    obtain ⟨c, hc, ht⟩ := hcur c' hc'
    exact hout c hc (ht.owns _ ho) a (ht.dataOff ▸ ha)

theorem Tamer.refl {c : Chain} (hsafe : c.dedupable = true → c.check ≠ checkNone) : Tamer c c :=
  ⟨rfl, fun _ ho => ho, hsafe, rfl⟩

theorem mem_path_refs {e : Bref} (h : some e ∈ b.path) : e.dataOff ∈ b.refs :=
  mem_refs.mpr (Or.inr ⟨e, mem_entries.mpr (Or.inr h), rfl⟩)

theorem table_set (hp : b.path ≠ []) (x : Option Bref) : (b.path.set 0 x).head?.join = x := by
  cases h : b.path with
  | nil => exact absurd h hp
  | cons y ys => rfl

/-- **A flush** of the chain. -/
theorem flush_inv {c : Chain} {stop : Bool} (hs : Inv s) (hb : s.blocks[i]? = some b)
    (hP : s.pfss[b.pfs]? = some P) (hc : b.chain = some c) (hp : b.path ≠ []) :
    Inv ⟨s.dev, s.pfss, s.blocks.set i { b with
      chain := some { c with modified := false, update := c.update && stop }
      path := if stop = true ∨ c.update = false then b.path
        else b.path.set 0 (some (brefOf c)) }⟩ := by
  have hinv := hs.block i b P hb hP
  have hcur := cur_chain hc
  have hoff := cur_refs hcur
  refine hs.tame hb hP rfl rfl (fun d hd => ?_) (fun e he => ?_) (fun d hd => ?_) (fun d hd => ?_)
  · obtain rfl := Option.some.inj hd
    exact hoff
  · rcases mem_entries.mp he with hbs | hpath
    · exact Or.inl (mem_entries.mpr (Or.inl hbs))
    · simp only at hpath
      split at hpath
      · exact Or.inl (mem_entries.mpr (Or.inr hpath))
      · rcases List.mem_or_eq_of_mem_set hpath with hpath | heq
        · exact Or.inl (mem_entries.mpr (Or.inr hpath))
        · obtain rfl := Option.some.inj heq
          exact Or.inr ⟨cur_refs hcur, hinv.curTid c hcur⟩
  · obtain rfl := Option.some.inj hd
    exact ⟨c, hcur, rfl, fun _ ho => owns_flush ho, hinv.safe c hcur, rfl⟩
  · obtain rfl := Option.some.inj hd
    intro hu
    refine ⟨rfl, ?_⟩
    show (∃ e, (if stop = true ∨ c.update = false then b.path
      else b.path.set 0 (some (brefOf c))).head?.join = some e ∧ Agrees e _) ∨ (c.dataOff.base = 0 ∧
        (if stop = true ∨ c.update = false then b.path
          else b.path.set 0 (some (brefOf c))).head?.join = none)
    cases hupd : c.update with
    | false =>
        simp only [or_true, if_true]
        refine (hinv.flushed c hc hupd).2.imp (fun ⟨e, he, hag⟩ => ⟨e, he, ?_⟩) id
        exact ⟨hag.type, hag.dataOff, hag.check, hag.modifyTid⟩
    | true =>
        have hstop : stop = false := by
          rw [hupd] at hu
          simpa using hu
        rw [if_neg (by rw [hstop]; decide), table_set hp]
        exact Or.inl ⟨brefOf c, rfl, rfl, rfl, rfl, rfl⟩

/-- **Moving** the chain to another indirect block. -/
theorem move_inv {c : Chain} {path : List (Option Bref)} (hs : Inv s) (hb : s.blocks[i]? = some b)
    (hP : s.pfss[b.pfs]? = some P) (hc : b.chain = some c) (hp : ∀ x ∈ path, x = none ∨ x ∈ b.path) :
    Inv ⟨s.dev, s.pfss, s.blocks.set i { b with chain := some { c with update := true }, path := path }⟩ := by
  have hinv := hs.block i b P hb hP
  have hcur := cur_chain hc
  have hoff := cur_refs hcur
  refine hs.tame hb hP rfl rfl (fun d hd => ?_) (fun e he => Or.inl ?_) (fun d hd => ?_)
    (fun d hd hu => ?_)
  · obtain rfl := Option.some.inj hd
    exact hoff
  · rcases mem_entries.mp he with hbs | hpath
    · exact mem_entries.mpr (Or.inl hbs)
    · exact mem_entries.mpr (Or.inr ((hp _ hpath).resolve_left fun hn => nomatch hn))
  · obtain rfl := Option.some.inj hd
    exact ⟨c, hcur, rfl, fun _ ho => ho, hinv.safe c hcur, rfl⟩
  · obtain rfl := Option.some.inj hd
    cases hu

/-- **Flushing a block table** above the block. -/
theorem lift_inv (hs : Inv s) (hb : s.blocks[i]? = some b) (hP : s.pfss[b.pfs]? = some P) (k : Nat) :
    Inv ⟨s.dev, s.pfss, s.blocks.set i { b with path := b.path.set (k + 1) (b.path[k]?.join) }⟩ := by
  have hinv := hs.block i b P hb hP
  have htable : (b.path.set (k + 1) (b.path[k]?.join)).head?.join = b.table := by
    unfold Block.table
    cases b.path <;> rfl
  have hcur : ({ b with path := b.path.set (k + 1) (b.path[k]?.join) } : Block).cur = b.cur := by
    unfold Block.cur Block.table
    rw [htable]
    rfl
  refine hs.tame hb hP rfl rfl (fun d hd => cur_refs (cur_chain hd)) (fun e he => Or.inl ?_)
    (fun d hd => ?_) (fun d hd => ?_)
  · rcases mem_entries.mp he with hbs | hpath
    · exact mem_entries.mpr (Or.inl hbs)
    · refine mem_entries.mpr (Or.inr ?_)
      rcases List.mem_or_eq_of_mem_set hpath with hpath | heq
      · exact hpath
      · exact List.mem_of_getElem? (Option.join_eq_some_iff.mp heq.symm)
  · rw [hcur] at hd
    exact ⟨d, hd, Tamer.refl (hinv.safe d hd)⟩
  · have hfl := hinv.flushed d hd
    unfold Block.table
    rw [htable]
    exact hfl

/-- **Evicting** a chain: it loads again as it was. -/
theorem evict_inv {c : Chain} (hs : Inv s) (hb : s.blocks[i]? = some b)
    (hP : s.pfss[b.pfs]? = some P) (hc : b.chain = some c) (hu : c.update = false) :
    Inv ⟨s.dev, s.pfss, s.blocks.set i { b with chain := none }⟩ := by
  have hinv := hs.block i b P hb hP
  have hcur := cur_chain hc
  obtain ⟨hm, hcase⟩ := hinv.flushed c hc hu
  refine hs.tame hb hP rfl rfl (fun d hd => nomatch hd) (fun e he => Or.inl ?_) (fun d hd => ?_)
    (fun d hd => nomatch hd)
  · exact mem_entries.mpr (mem_entries.mp he)
  · obtain ⟨e, he, rfl⟩ : ∃ e, b.table = some e ∧ e.load = d := Option.map_eq_some_iff.mp hd
    rcases hcase with ⟨e', he', hag⟩ | ⟨-, hn⟩
    · obtain rfl := Option.some.inj (he.symm.trans he')
      exact ⟨c, hcur, hag.dataOff, fun _ ho => hag.owns hm (hinv.safe c hcur) ho,
        (fun hd => nomatch hd), hag.modifyTid⟩
    · exact absurd (he.symm.trans hn) (by simp)

/-- **What happens to one block** keeps the invariant and writes nothing protected. -/
theorem blockStep_inv {t : Tools} {e : BlockEvent} (hs : Inv s) (hb : s.blocks[i]? = some b)
    (hP : s.pfss[b.pfs]? = some P) (hok : Ok t s (.block i e))
    (hstep : blockStep t s P b e = some (b', h)) :
    Inv ⟨h, s.pfss, s.blocks.set i b'⟩ ∧ ∀ a, Protected s P i b a → h.mem a = s.dev.mem a := by
  have hinv := hs.block i b P hb hP
  cases e with
  | write ip f answers data mtid =>
      simp only [blockStep] at hstep
      split at hstep
      · rename_i hguard
        obtain ⟨hmtid, hfree, hlook, hsize⟩ := hguard
        obtain ⟨w, hw, hres⟩ := Option.map_eq_some_iff.mp hstep
        obtain ⟨rfl, rfl⟩ := Prod.mk.inj hres
        obtain ⟨r, hframe⟩ := write_frame hs hb hP hfree hlook hsize (hok b hb) hw
        exact ⟨hs.frame hb hP hmtid hfree (hinv.start (Nat.zero_lt_of_lt hmtid) ip r) hframe,
          hframe.mem⟩
      · cases hstep
  | inode check answers mtid =>
      simp only [blockStep] at hstep
      split at hstep
      · rename_i hguard
        obtain ⟨hmtid, hfree, hnone⟩ := hguard
        obtain ⟨⟨error, c, h₁⟩, hm, hres⟩ := Option.map_eq_some_iff.mp hstep
        obtain ⟨rfl, rfl⟩ := Prod.mk.inj hres
        have hframe := inode_frame hs hb hfree hm
        have htable : b.table = none := by
          have hcur := Option.isNone_iff_eq_none.mp hnone
          unfold Block.cur at hcur
          split at hcur
          · cases hcur
          · exact Option.map_eq_none_iff.mp hcur
        exact ⟨hs.frame hb hP hmtid hfree ⟨fun _ => ⟨rfl, Or.inr ⟨rfl, htable⟩⟩,
          Nat.zero_lt_of_lt hmtid⟩ hframe, hframe.mem⟩
      · cases hstep
  | read =>
      obtain ⟨c, hc, hstep⟩ := Option.bind_eq_some_iff.mp hstep
      obtain ⟨⟨c', h₁⟩, hr, hres⟩ := Option.map_eq_some_iff.mp hstep
      obtain ⟨rfl, rfl⟩ := Prod.mk.inj hres
      have hframe := read_frame hs hinv hc hr
      have htid := hinv.curTid c hc
      have hstart := hinv.start (Nat.zero_lt_of_lt htid) ⟨0, 0, 0, 0⟩ 0
      rw [hc] at hstart
      exact ⟨hs.frame hb hP htid (fun _ hoff => absurd hoff List.not_mem_nil) hstart hframe, hframe.mem⟩
  | flush stop =>
      simp only [blockStep] at hstep
      split at hstep
      · cases hstep
      · rename_i c hc
        split at hstep
        · cases hstep
        · rename_i hguard
          obtain ⟨rfl, rfl⟩ := Prod.mk.inj (Option.some.inj hstep)
          exact ⟨flush_inv hs hb hP hc fun hp => hguard (Or.inr (Or.inl hp)), fun _ _ => rfl⟩
  | move path =>
      simp only [blockStep] at hstep
      split at hstep
      · cases hstep
      · rename_i c hc
        split at hstep
        · rename_i hguard
          obtain ⟨rfl, rfl⟩ := Prod.mk.inj (Option.some.inj hstep)
          exact ⟨move_inv hs hb hP hc hguard, fun _ _ => rfl⟩
        · cases hstep
  | lift k =>
      obtain ⟨rfl, rfl⟩ := Prod.mk.inj (Option.some.inj hstep)
      exact ⟨lift_inv hs hb hP k, fun _ _ => rfl⟩
  | evict =>
      simp only [blockStep] at hstep
      split at hstep
      · cases hstep
      · rename_i c hc
        split at hstep
        · cases hstep
        · rename_i hguard
          obtain ⟨rfl, rfl⟩ := Prod.mk.inj (Option.some.inj hstep)
          exact ⟨evict_inv hs hb hP hc (Bool.not_eq_true _ ▸ (not_or.mp hguard).2), fun _ _ => rfl⟩

end

/-! ## Steps of a PFS -/

section
variable {s s' : State} {P Q : Pfs} {i p : Nat} {b : Block}

theorem BlockInv.of_private (h : BlockInv s P i b)
    (hp : ∀ a, (∃ off ∈ b.refs, off.Has a) → s.Private i a → s'.Private i a) : BlockInv s' P i b :=
  ⟨h.sized, fun c hc ho a ha => hp a ⟨_, cur_refs hc, ha⟩ (h.owned c hc ho a ha), h.safe, h.flushed,
    h.curTid, h.tids, h.snap⟩

/-- Changing what is kept of one PFS. -/
theorem Inv.setPfs (hs : Inv s) (hp : s.pfss[p]? = some P) (htid : Q.lsnapTid ≤ Q.modifyTid)
    (hblock : ∀ i b, s.blocks[i]? = some b → b.pfs = p → BlockInv s P i b → BlockInv s Q i b) :
    Inv { s with pfss := s.pfss.set p Q } where
  emerg := hs.emerg
  aligned := hs.aligned
  pfs b hb := by
    rw [List.length_set]
    exact hs.pfs b hb
  tids R hR := (List.mem_or_eq_of_mem_set hR).elim (hs.tids R) fun h => h ▸ htid
  block i b R hb hR := by
    by_cases hbp : b.pfs = p
    · obtain ⟨hlt, -⟩ := List.getElem?_eq_some_iff.mp hp
      rw [hbp, List.getElem?_set_self hlt] at hR
      obtain rfl := Option.some.inj hR
      exact (hblock i b hb hbp (hs.block i b P hb (hbp ▸ hp))).of_private fun a _ h => h
    · rw [List.getElem?_set_ne (Ne.symm hbp)] at hR
      exact (hs.block i b R hb hR).of_private fun a _ h => h

theorem transSub_inv (hs : Inv s) (hp : s.pfss[p]? = some P) :
    Inv { s with pfss := s.pfss.set p { P with modifyTid := P.modifyTid + 1 } } := by
  refine hs.setPfs hp (Nat.le_succ_of_le (hs.tids P (List.mem_of_getElem? hp))) fun i b _ _ h => ?_
  exact ⟨h.sized, h.owned, h.safe, h.flushed, fun c hc => Nat.lt_succ_of_lt (h.curTid c hc),
    fun e he => Nat.lt_succ_of_lt (h.tids e he), h.snap⟩

theorem snapEnd_inv (hs : Inv s) (hp : s.pfss[p]? = some P) :
    Inv { s with pfss := s.pfss.set p { P with snapping := none } } := by
  refine hs.setPfs hp (hs.tids P (List.mem_of_getElem? hp)) fun i b _ _ h => ?_
  exact ⟨h.sized, h.owned, h.safe, h.flushed, h.curTid, h.tids, fun hn => absurd rfl hn⟩

/-- **The start of a snapshot**: from its tid on a chain is only written as it stands
when that is so by its flags. -/
theorem snapBegin_inv {nosync : Bool} (hs : Inv s) (hp : s.pfss[p]? = some P)
    (hok : ∀ b ∈ s.blocks, b.pfs = p → SnapSafe b) :
    Inv { s with pfss := s.pfss.set p ⟨P.modifyTid, P.modifyTid + 1, some nosync⟩ } := by
  have hlt := hs.tids P (List.mem_of_getElem? hp)
  refine hs.setPfs hp (Nat.le_succ _) fun i b hb hbp h => ?_
  refine ⟨h.sized, fun c hc ho => h.owned c hc (owns_mono hlt ho), h.safe, h.flushed,
    fun c hc => Nat.lt_succ_of_lt (h.curTid c hc), fun e he => Nat.lt_succ_of_lt (h.tids e he),
    fun _ e he => ⟨Nat.le_of_lt (h.tids e (mem_entries.mpr (Or.inl he))), fun c hc ho a ha hae => ?_⟩⟩
  have hflags : c.initial = true ∨ (c.modified = true ∧ c.dedupable = false) := by
    rcases ho with hi | hn
    · exact Or.inl hi
    · rcases newmod_false.mp hn with hm | ⟨-, -, -, -, -, hl⟩
      · exact Or.inr hm
      · exact absurd (h.curTid c hc) (Nat.not_lt.mpr (Nat.le_of_lt hl))
  have hchain : b.chain = some c := by
    unfold Block.cur at hc
    split at hc
    · rename_i d hd
      rw [hd, hc]
    · obtain ⟨e', -, rfl⟩ := Option.map_eq_some_iff.mp hc
      rcases hflags with hi | ⟨hm, -⟩
      · cases hi
      · cases hm
  rcases hok b (List.mem_of_getElem? hb) hbp c hchain hflags e he with hz | hap | hz
  · exact hae.1 hz
  · exact hap.not_has ha hae
  · exact ha.1 hz

/-- **The flush of a root** outside a snapshot. -/
theorem flushRoot_inv {sel : Nat → Bool} (hs : Inv s) (hp : s.pfss[p]? = some P)
    (hsnap : P.snapping = none) :
    Inv { s with blocks := s.blocks.mapIdx fun i b =>
      if b.pfs = p ∧ sel i = true then { b with blockset := b.path.getLast?.join } else b } := by
  -- A block after the flush: what it refers to, it referred to before.
  have hflushed : ∀ (i : Nat) (b d : Block),
      d = (if b.pfs = p ∧ sel i = true then { b with blockset := b.path.getLast?.join } else b) →
      d.pfs = b.pfs ∧ d.chain = b.chain ∧ d.path = b.path ∧
        (∀ e ∈ d.entries, e ∈ b.entries) ∧ (b.pfs ≠ p → d = b) := by
    rintro i b d rfl
    split
    · rename_i hsel
      refine ⟨rfl, rfl, rfl, fun e he => ?_, fun hne => absurd hsel.1 hne⟩
      rcases mem_entries.mp he with hbs | hpath
      · exact mem_entries.mpr (Or.inr (List.mem_of_getLast? (Option.join_eq_some_iff.mp hbs)))
      · exact mem_entries.mpr (Or.inr hpath)
    · exact ⟨rfl, rfl, rfl, fun _ he => he, fun _ => rfl⟩
  have hget : ∀ (j : Nat) (d : Block), (s.blocks.mapIdx fun i b =>
      if b.pfs = p ∧ sel i = true then { b with blockset := b.path.getLast?.join } else b)[j]? = some d →
      ∃ b, s.blocks[j]? = some b ∧
        d = (if b.pfs = p ∧ sel j = true then { b with blockset := b.path.getLast?.join } else b) := by
    intro j d hd
    rw [List.getElem?_mapIdx] at hd
    obtain ⟨b, hb, rfl⟩ := Option.map_eq_some_iff.mp hd
    exact ⟨b, hb, rfl⟩
  have hrefs : ∀ (j : Nat) (b d : Block),
      d = (if b.pfs = p ∧ sel j = true then { b with blockset := b.path.getLast?.join } else b) →
      ∀ off ∈ d.refs, off ∈ b.refs := by
    intro j b d hd off hoff
    obtain ⟨-, hchain, -, hentries, -⟩ := hflushed j b d hd
    rcases mem_refs.mp hoff with ⟨c, hc, rfl⟩ | ⟨e, he, rfl⟩
    · exact mem_refs.mpr (Or.inl ⟨c, hchain ▸ hc, rfl⟩)
    · exact mem_refs.mpr (Or.inr ⟨e, hentries e he, rfl⟩)
  refine ⟨hs.emerg, hs.aligned, fun d hd => ?_, hs.tids, fun i d R hd hR => ?_⟩
  · obtain ⟨j, hj⟩ := List.mem_iff_getElem?.mp hd
    obtain ⟨b, hb, hdb⟩ := hget j d hj
    rw [(hflushed j b d hdb).1]
    exact hs.pfs b (List.mem_of_getElem? hb)
  · obtain ⟨b, hb, hdb⟩ := hget i d hd
    obtain ⟨hpfs, hchain, hpath, hentries, hother⟩ := hflushed i b d hdb
    have hcur : d.cur = b.cur := by
      unfold Block.cur Block.table
      rw [hchain, hpath]
    have hinv := hs.block i b R hb (hpfs ▸ hR)
    refine ⟨fun off hoff => hinv.sized off (hrefs i b d hdb off hoff), fun c hc ho a ha => ?_,
      fun c hc => hinv.safe c (hcur ▸ hc), fun c hc => ?_, fun c hc => hinv.curTid c (hcur ▸ hc),
      fun e he => hinv.tids e (hentries e he), fun hsn e he => ?_⟩
    · obtain ⟨hv, ho'⟩ := hinv.owned c (hcur ▸ hc) ho a ha
      refine ⟨hv, fun j k hj hk off hoff => ?_⟩
      obtain ⟨b', hb', hk'⟩ := hget j k hk
      exact ho' j b' hj hb' off (hrefs j b' k hk' off hoff)
    · unfold Block.table
      rw [hpath]
      exact hinv.flushed c (hchain ▸ hc)
    · by_cases hbp : b.pfs = p
      · rw [hpfs, hbp] at hR
        obtain rfl := Option.some.inj (hp.symm.trans hR)
        exact absurd hsnap hsn
      · have hdb' := hother hbp
        rw [hdb'] at he
        rw [hcur]
        exact hinv.snap hsn e he

/-- Giving up dedup bits and device buffers, and time passing. -/
theorem Inv.setDev {h : Dev} (hs : Inv s) (hemerg : h.emerg = s.dev.emerg)
    (hheur : h.heurDedup = s.dev.heurDedup)
    (hvalid : ∀ u, h.dedupValid u = true → s.dev.dedupValid u = true) : Inv { s with dev := h } where
  emerg := hemerg.trans hs.emerg
  aligned i := by
    rw [hheur]
    exact hs.aligned i
  pfs := hs.pfs
  tids := hs.tids
  block i b R hb hR := by
    refine (hs.block i b R hb hR).of_private fun a _ hp => ⟨?_, hp.2⟩
    show h.dedupValid (a / dedupFrag) = false
    cases hx : h.dedupValid (a / dedupFrag) with
    | false => rfl
    | true => exact absurd (hp.1.symm.trans (hvalid _ hx)) (by decide)

/-- Adding blocks: what they refer to must not be owned. -/
theorem Inv.append {more : List Block} (hs : Inv s) (hpfs : ∀ d ∈ more, d.pfs < s.pfss.length)
    (howned : ∀ (i : Nat) (b : Block) (P : Pfs), s.blocks[i]? = some b → s.pfss[b.pfs]? = some P → ∀ c,
      b.cur = some c →
      c.Owns P.lsnapTid → ∀ a, c.dataOff.Has a → ∀ d ∈ more, ∀ off ∈ d.refs, ¬ off.Has a)
    (hnew : ∀ d ∈ more, ∀ P, s.pfss[d.pfs]? = some P → ∀ i,
      BlockInv { s with blocks := s.blocks ++ more } P i d) :
    Inv { s with blocks := s.blocks ++ more } where
  emerg := hs.emerg
  aligned := hs.aligned
  pfs d hd := (List.mem_append.mp hd).elim (hs.pfs d) (hpfs d)
  tids := hs.tids
  block i b P hb hP := by
    rcases Nat.lt_or_ge i s.blocks.length with hlt | hge
    · have hb' : s.blocks[i]? = some b := (List.getElem?_append_left hlt).symm.trans hb
      have hinv := hs.block i b P hb' hP
      refine ⟨hinv.sized, fun c hc ho a ha => ?_, hinv.safe, hinv.flushed, hinv.curTid, hinv.tids,
        hinv.snap⟩
      obtain ⟨hv, hother⟩ := hinv.owned c hc ho a ha
      refine ⟨hv, fun j d hj hd off hoff => ?_⟩
      rcases List.mem_append.mp (List.mem_of_getElem? hd) with hold | hmore
      · rcases Nat.lt_or_ge j s.blocks.length with hltj | hgej
        · exact hother j d hj ((List.getElem?_append_left hltj).symm.trans hd) off hoff
        · have hd' := (List.getElem?_append_right hgej).symm.trans hd
          exact howned i b P hb' hP c hc ho a ha d (List.mem_of_getElem? hd') off hoff
      · exact howned i b P hb' hP c hc ho a ha d hmore off hoff
    · have hb' := (List.getElem?_append_right hge).symm.trans hb
      exact hnew b (List.mem_of_getElem? hb') P hP i

/-- Adding a PFS without blocks. -/
theorem Inv.appendPfs (hs : Inv s) (htid : Q.lsnapTid ≤ Q.modifyTid) :
    Inv { s with pfss := s.pfss ++ [Q] } where
  emerg := hs.emerg
  aligned := hs.aligned
  pfs b hb := Nat.lt_of_lt_of_le (hs.pfs b hb) (by simp)
  tids R hR := (List.mem_append.mp hR).elim (hs.tids R) fun h => (List.mem_singleton.mp h) ▸ htid
  block i b R hb hR := by
    rw [List.getElem?_append_left (hs.pfs b (List.mem_of_getElem? hb))] at hR
    exact (hs.block i b R hb hR).of_private fun a _ h => h

/-- **The copy of the blocksets** into the PFS of the snapshot. -/
theorem snapCopy_inv (hs : Inv s) (hp : s.pfss[p]? = some P) (hsnap : P.snapping ≠ none) :
    Inv { s with
      pfss := s.pfss.set p { P with snapping := none } ++ [⟨P.lsnapTid, P.lsnapTid + 1, none⟩]
      blocks := s.blocks ++ (s.blocks.filter fun b => b.pfs = p).map fun b => b.copy s.pfss.length } := by
  have hs' := (snapEnd_inv hs hp).appendPfs (Q := ⟨P.lsnapTid, P.lsnapTid + 1, none⟩) (Nat.le_succ _)
  -- What a copied block refers to is in the blockset of a block of the PFS.
  have hcopy : ∀ d ∈ (s.blocks.filter fun b => b.pfs = p).map (fun b => b.copy s.pfss.length),
      d.pfs = s.pfss.length ∧ d.chain = none ∧ ∃ (k : Nat) (b : Block), s.blocks[k]? = some b ∧ b.pfs = p ∧
        ∀ e ∈ d.entries, b.blockset = some e := by
    intro d hd
    obtain ⟨b, hb, rfl⟩ := List.mem_map.mp hd
    obtain ⟨hmem, hbp⟩ := List.mem_filter.mp hb
    obtain ⟨k, hk⟩ := List.mem_iff_getElem?.mp hmem
    refine ⟨rfl, rfl, k, b, hk, of_decide_eq_true hbp, fun e he => ?_⟩
    rcases mem_entries.mp he with hbs | hpath
    · exact hbs
    · obtain ⟨x, -, hx⟩ := List.mem_map.mp hpath
      exact hx
  refine hs'.append (fun d hd => ?_) (fun i b R hb hR c hc ho a ha d hd off hoff hao => ?_)
    (fun d hd R hR i => ?_)
  · rw [(hcopy d hd).1]
    simp
  · obtain ⟨-, hchain, k, b', hk, hb'p, hentries⟩ := hcopy d hd
    obtain ⟨e, he, rfl⟩ : ∃ e ∈ d.entries, e.dataOff = off :=
      (mem_refs.mp hoff).resolve_left fun ⟨c, hc, _⟩ => by rw [hchain] at hc; cases hc
    have hbs := hentries e he
    by_cases hki : k = i
    · subst hki
      obtain rfl := Option.some.inj (hb.symm.trans hk)
      have hinv := hs.block k b P hb (hb'p ▸ hp)
      have hlsnap : R.lsnapTid = P.lsnapTid := by
        have hlt : b.pfs < (s.pfss.set p { P with snapping := none }).length := by
          rw [List.length_set]
          exact hs.pfs b (List.mem_of_getElem? hb)
        rw [List.getElem?_append_left hlt, hb'p,
          List.getElem?_set_self (List.getElem?_eq_some_iff.mp hp).1] at hR
        rw [← Option.some.inj hR]
      exact (hinv.snap hsnap e hbs).2 c hc (hlsnap ▸ ho) a ha hao
    · obtain ⟨-, hother⟩ := (hs'.block i b R hb hR).owned c hc ho a ha
      exact hother k b' hki hk _ (mem_refs.mpr (Or.inr ⟨e, mem_entries.mpr (Or.inl hbs), rfl⟩)) hao
  · obtain ⟨hpfs, hchain, k, b', hk, hb'p, hentries⟩ := hcopy d hd
    have hinv := hs.block k b' P hk (hb'p ▸ hp)
    have hRQ : R = ⟨P.lsnapTid, P.lsnapTid + 1, none⟩ := by
      have hlen : s.pfss.length = (s.pfss.set p { P with snapping := none }).length := by
        rw [List.length_set]
      rw [hpfs] at hR
      rw [hlen, List.getElem?_append_right (Nat.le_refl _), Nat.sub_self] at hR
      exact (Option.some.inj hR).symm
    have htid : ∀ e ∈ d.entries, e.modifyTid ≤ P.lsnapTid := fun e he =>
      (hinv.snap hsnap e (hentries e he)).1
    have hcur : ∀ c, d.cur = some c → ∃ e ∈ d.entries, c = e.load := by
      intro c hc
      unfold Block.cur at hc
      rw [hchain] at hc
      obtain ⟨e, he, rfl⟩ := Option.map_eq_some_iff.mp hc
      exact ⟨e, mem_entries.mpr (Or.inr (table_mem he)), rfl⟩
    refine ⟨fun off hoff => ?_, fun c hc ho => ?_, fun c hc hd => ?_, fun c hc => ?_, fun c hc => ?_,
      fun e he => ?_, fun hn => ?_⟩
    · obtain ⟨e, he, rfl⟩ : ∃ e ∈ d.entries, e.dataOff = off :=
        (mem_refs.mp hoff).resolve_left fun ⟨c, hc, _⟩ => by rw [hchain] at hc; cases hc
      exact hinv.sized _ (mem_refs.mpr (Or.inr ⟨e, mem_entries.mpr (Or.inl (hentries e he)), rfl⟩))
    · -- It was written before the snapshot.
      obtain ⟨e, he, rfl⟩ := hcur c hc
      rw [hRQ] at ho
      exact absurd (owns_load ho).2.2 (Nat.not_lt.mpr (htid e he))
    · obtain ⟨e, -, rfl⟩ := hcur c hc
      cases hd
    · rw [hchain] at hc
      cases hc
    · obtain ⟨e, he, rfl⟩ := hcur c hc
      rw [hRQ]
      exact Nat.lt_succ_of_le (htid e he)
    · rw [hRQ]
      exact Nat.lt_succ_of_le (htid e he)
    · rw [hRQ] at hn
      exact absurd rfl hn

/-- A new block refers to nothing. -/
theorem mkBlock_inv {depth : Nat} (hs : Inv s) (hp : p < s.pfss.length) :
    Inv { s with blocks := s.blocks ++ [⟨p, none, List.replicate (depth + 1) none, none⟩] } := by
  have hempty : (⟨p, none, List.replicate (depth + 1) none, none⟩ : Block).entries = [] := by
    unfold Block.entries
    simp
  have hrefs : (⟨p, none, List.replicate (depth + 1) none, none⟩ : Block).refs = [] := by
    unfold Block.refs
    rw [hempty]
    rfl
  have hcur : (⟨p, none, List.replicate (depth + 1) none, none⟩ : Block).cur = none := rfl
  refine hs.append (fun d hd => ?_) (fun i b R hb hR c hc ho a ha d hd off hoff => ?_)
    (fun d hd R hR i => ?_)
  · rw [List.mem_singleton.mp hd]
    exact hp
  · rw [List.mem_singleton.mp hd, hrefs] at hoff
    exact absurd hoff List.not_mem_nil
  · rw [List.mem_singleton.mp hd]
    refine ⟨fun off hoff => ?_, fun c hc => ?_, fun c hc => ?_, (fun c hc => nomatch hc), fun c hc => ?_,
      fun e he => ?_, fun _ e he => nomatch he⟩
    · rw [hrefs] at hoff
      exact absurd hoff List.not_mem_nil
    · cases hcur.symm.trans hc
    · cases hcur.symm.trans hc
    · cases hcur.symm.trans hc
    · rw [hempty] at he
      exact absurd he List.not_mem_nil

end

/-! ## Runs -/

section
variable {t : Tools} {s s' : State} {e : Event}

/-- **Every step** that meets the condition keeps the invariant, and changes no address
that another block than the one the event is about refers to. -/
theorem step_inv (hs : Inv s) (hok : Ok t s e) (hstep : step t s e = some s') :
    Inv s' ∧ ∀ i b, s.blocks[i]? = some b → e.target ≠ some i →
      (∀ off ∈ b.refs, ∀ a, off.Has a → s'.dev.mem a = s.dev.mem a) ∧
        (e.target ≠ none → s'.blocks[i]? = some b) := by
  cases e with
  | block k e =>
      obtain ⟨d, hd, hstep⟩ := Option.bind_eq_some_iff.mp hstep
      obtain ⟨P, hP, hstep⟩ := Option.bind_eq_some_iff.mp hstep
      obtain ⟨⟨d', h⟩, hres, rfl⟩ := Option.map_eq_some_iff.mp hstep
      obtain ⟨hinv, hmem⟩ := blockStep_inv hs hd hP hok hres
      refine ⟨hinv, fun i b hb hne => ?_⟩
      have hik : i ≠ k := fun h => hne (congrArg some h.symm)
      refine ⟨fun off hoff a ha => hmem a (Or.inl fun hp => hp.2 i b hik hb off hoff ha), fun _ => ?_⟩
      rw [← hb]
      exact List.getElem?_set_ne (Ne.symm hik)
  | mkPfs =>
      obtain rfl := Option.some.inj hstep
      exact ⟨hs.appendPfs (Nat.le_succ 0), fun i b hb _ => ⟨fun _ _ _ _ => rfl, fun _ => hb⟩⟩
  | mkBlock p depth =>
      simp only [step] at hstep
      split at hstep
      · rename_i hp
        obtain rfl := Option.some.inj hstep
        exact ⟨mkBlock_inv hs hp, fun i b _ _ => ⟨fun _ _ _ _ => rfl, fun hn => absurd rfl hn⟩⟩
      · cases hstep
  | flushRoot p sel =>
      obtain ⟨P, hP, hstep⟩ := Option.bind_eq_some_iff.mp hstep
      split at hstep
      · cases hstep
      · obtain rfl := Option.some.inj hstep
        exact ⟨flushRoot_inv hs hP (hok P hP),
          fun i b _ _ => ⟨fun _ _ _ _ => rfl, fun hn => absurd rfl hn⟩⟩
  | transSub p =>
      obtain ⟨P, hP, rfl⟩ := Option.map_eq_some_iff.mp hstep
      exact ⟨transSub_inv hs hP, fun i b hb _ => ⟨fun _ _ _ _ => rfl, fun _ => hb⟩⟩
  | snapBegin p nosync =>
      obtain ⟨P, hP, hstep⟩ := Option.bind_eq_some_iff.mp hstep
      split at hstep
      · cases hstep
      · obtain rfl := Option.some.inj hstep
        exact ⟨snapBegin_inv hs hP hok, fun i b hb _ => ⟨fun _ _ _ _ => rfl, fun _ => hb⟩⟩
  | snapCopy p =>
      obtain ⟨P, hP, hstep⟩ := Option.bind_eq_some_iff.mp hstep
      split at hstep
      · cases hstep
      · rename_i hsnap
        obtain rfl := Option.some.inj hstep
        exact ⟨snapCopy_inv hs hP hsnap,
          fun i b _ _ => ⟨fun _ _ _ _ => rfl, fun hn => absurd rfl hn⟩⟩
  | snapEnd p =>
      obtain ⟨P, hP, rfl⟩ := Option.map_eq_some_iff.mp hstep
      exact ⟨snapEnd_inv hs hP, fun i b hb _ => ⟨fun _ _ _ _ => rfl, fun _ => hb⟩⟩
  | drop bufs bits =>
      obtain rfl := Option.some.inj hstep
      exact ⟨hs.setDev rfl rfl fun u hu => (Bool.and_eq_true_iff.mp hu).1,
        fun i b hb _ => ⟨fun _ _ _ _ => rfl, fun _ => hb⟩⟩
  | tick n =>
      obtain rfl := Option.some.inj hstep
      exact ⟨hs.setDev rfl rfl fun u hu => hu, fun i b hb _ => ⟨fun _ _ _ _ => rfl, fun _ => hb⟩⟩

theorem init_inv {dev : Dev} (hdev : Mounted dev) : Inv (init dev) where
  emerg := hdev.emerg
  aligned i := by
    show (dev.heurDedup i).dataOff.base % allocMin = 0
    rw [hdev.heur]
    rfl
  pfs b hb := absurd hb List.not_mem_nil
  tids P hP := absurd hP List.not_mem_nil
  block i b P hb _ := nomatch hb

/-- **Copy-on-write isolation.**  In every run whose steps meet the condition, a step
changes neither the bytes that another block refers to nor, when it is about one
block, the references of another; and a modification keeps the storage of the chain
only when no other block refers to any of it. -/
theorem run_isolated {dev : Dev} {es : List Event} (hdev : Mounted dev)
    (hok : AllSteps (step t) (Ok t) (init dev) (es ++ [e]))
    (hrun : exec (step t) (init dev) es = some s) (hstep : step t s e = some s') :
    (∀ (i : Nat) (b : Block), s.blocks[i]? = some b → e.target ≠ some i →
      (∀ off ∈ b.refs, off.base ≠ 0 → s'.dev.block off = s.dev.block off) ∧
        (e.target ≠ none → s'.blocks[i]? = some b)) ∧
    ∀ (i : Nat) (b : Block) (P : Pfs) (c : Chain), s.blocks[i]? = some b →
      s.pfss[b.pfs]? = some P → b.cur = some c → newmod s.dev.emerg P.lsnapTid c = false →
      ∀ (j : Nat) (d : Block), j ≠ i → s.blocks[j]? = some d → ∀ off ∈ d.refs, ∀ a, c.dataOff.Has a → ¬ off.Has a := by
  obtain ⟨hoks, hlast⟩ := hok.of_append hrun
  have hinv : Inv s := exec_invariant (fun _ _ _ hs ho he => (step_inv hs ho he).1) (init_inv hdev)
    hoks hrun
  refine ⟨fun i b hb hne => ?_, fun i b P c hb hP hc hn j d hj hd off hoff a ha => ?_⟩
  · obtain ⟨hmem, hblock⟩ := (step_inv hinv hlast.1 hstep).2 i b hb hne
    refine ⟨fun off hoff hbase => ?_, hblock⟩
    have hagree : Memory.AgreeOn s.dev.mem s'.dev.mem off.base off.bytes :=
      fun a hl hu => hmem off hoff a ⟨hbase, hl, hu⟩
    exact hagree.read_eq
  · rw [hinv.emerg] at hn
    exact ((hinv.block i b P hb hP).owned c hc (Or.inr hn) a ha).2 j d hj hd off hoff

end

/-! ## Two files with the same bytes -/

/-- A device just mounted, with zeros on it. -/
def freshDev : Dev where
  mem := fun _ => 0
  bad := fun _ => false
  dio := fun _ => false
  freemap := []
  mirrorTid := 0
  emerg := false
  dedupEnable := true
  heurDedup := fun _ => ⟨⟨0, 0⟩, 0, 0⟩
  dedupAlloc := fun _ => false
  dedupValid := fun _ => false
  ticks := 0
  hz := 100

theorem freshDev_mounted : Mounted freshDev := ⟨rfl, fun _ => rfl, fun _ => rfl⟩

def writeEvent (i check tid : Nat) (answers : List (Option DataOff)) (v : UInt8) : Event :=
  .block i (.write ⟨check, compNone, 0, 0⟩ noFaults answers (List.replicate 1024 v) tid)

/-- Two files get the same bytes: the second, with the check method `check`, by a dedup
hit.  Both are flushed, and the chain of the second is evicted. -/
def sharingRun (check : Nat) : List Event :=
  [.mkPfs, .mkBlock 0 0, .mkBlock 0 0, .transSub 0,
    writeEvent 0 checkXxhash64 1 [some ⟨8388608, 10⟩] 1, .block 0 (.flush false),
    writeEvent 1 check 1 [] 1, .block 1 (.flush false), .block 1 .evict, .transSub 0]

/-- The run, one more write to the second file, and a look at the block of the first. -/
def sharingOutcome (check tid : Nat) (answers : List (Option DataOff)) :
    Option (Option (List DataOff) × Option UInt8 × Option UInt8) :=
  (exec (step plainTools) (init freshDev) (sharingRun check)).bind fun s =>
    (step plainTools s (writeEvent 1 check tid answers 2)).map fun s' =>
      (s.blocks[0]?.map Block.refs, (s.dev.block ⟨8388608, 10⟩).head?,
        (s'.dev.block ⟨8388608, 10⟩).head?)

theorem sharingOutcome_eq {check tid : Nat} {answers : List (Option DataOff)} {refs : List DataOff}
    {v v' : Option UInt8} (h : sharingOutcome check tid answers = some (some refs, v, v')) :
    ∃ s s' b, exec (step plainTools) (init freshDev) (sharingRun check) = some s ∧
      step plainTools s (writeEvent 1 check tid answers 2) = some s' ∧ s.blocks[0]? = some b ∧
      b.refs = refs ∧ (s.dev.block ⟨8388608, 10⟩).head? = v ∧
      (s'.dev.block ⟨8388608, 10⟩).head? = v' := by
  obtain ⟨s, hs, h⟩ := Option.bind_eq_some_iff.mp h
  obtain ⟨s', hs', hres⟩ := Option.map_eq_some_iff.mp h
  obtain ⟨hb, hv, hv'⟩ := triple_inj hres
  obtain ⟨b, hb, hrefs⟩ := Option.map_eq_some_iff.mp hb
  exact ⟨s, s', b, hs, hs', hb, hrefs, hv, hv'⟩

/-- The run until the first file is flushed. -/
def sharingStart : List Event :=
  [.mkPfs, .mkBlock 0 0, .mkBlock 0 0, .transSub 0,
    writeEvent 0 checkXxhash64 1 [some ⟨8388608, 10⟩] 1, .block 0 (.flush false)]

def sharingRest (check : Nat) : List Event :=
  [writeEvent 1 check 1 [] 1, .block 1 (.flush false), .block 1 .evict, .transSub 0]

theorem sharingRun_eq (check : Nat) : sharingRun check = sharingStart ++ sharingRest check := rfl

def firstFlushed : State := (exec (step plainTools) (init freshDev) sharingStart).getD (init freshDev)

/-- The same state, with the bytes of the first file given by their range: reading them
back is cheap. -/
def firstFlushedAt : State :=
  { firstFlushed with dev := { firstFlushed.dev with
      mem := fun a => if 8388608 ≤ a ∧ a < 8388608 + 1024 then 1 else 0 } }

set_option maxRecDepth 100000 in
theorem exec_sharingStart : exec (step plainTools) (init freshDev) sharingStart = some firstFlushed := rfl

set_option maxRecDepth 100000 in
theorem firstFlushed_mem :
    firstFlushed.dev.mem = Memory.write (fun _ => 0) 8388608 (List.replicate 1024 1) := rfl

theorem firstFlushed_eq : firstFlushed = firstFlushedAt := by
  unfold firstFlushedAt
  rw [← Memory.write_replicate, ← firstFlushed_mem]

theorem exec_sharingRun (check : Nat) : exec (step plainTools) (init freshDev) (sharingRun check) =
    exec (step plainTools) firstFlushedAt (sharingRest check) := by
  rw [sharingRun_eq, exec_append, exec_sharingStart, Option.bind_some, firstFlushed_eq]

set_option maxRecDepth 20000 in
theorem sharingOutcome_checked : sharingOutcome checkXxhash64 2 [some ⟨8389632, 10⟩] =
    some (some [⟨8388608, 10⟩, ⟨8388608, 10⟩], some 1, some 1) := by
  unfold sharingOutcome
  rw [exec_sharingRun]
  decide

set_option maxRecDepth 20000 in
theorem sharingRun_ok : AllSteps (step plainTools) (Ok plainTools) (init freshDev)
    (sharingRun checkXxhash64 ++ [writeEvent 1 checkXxhash64 2 [some ⟨8389632, 10⟩] 2]) := by
  rw [sharingRun_eq, List.append_assoc]
  refine AllSteps.append exec_sharingStart (by decide) ?_
  rw [firstFlushed_eq]
  decide

/-- With a check code the second file gets new storage for its next bytes. -/
theorem run_isolated_sharing :
    ∃ s s' b, exec (step plainTools) (init freshDev) (sharingRun checkXxhash64) = some s ∧
      step plainTools s (writeEvent 1 checkXxhash64 2 [some ⟨8389632, 10⟩] 2) = some s' ∧
      s.blocks[0]? = some b ∧ ⟨8388608, 10⟩ ∈ b.refs ∧
      s'.dev.block ⟨8388608, 10⟩ = s.dev.block ⟨8388608, 10⟩ := by
  obtain ⟨s, s', b, hs, hs', hb, hrefs, -, -⟩ := sharingOutcome_eq sharingOutcome_checked
  have hmem : (⟨8388608, 10⟩ : DataOff) ∈ b.refs := by
    rw [hrefs]
    exact List.mem_cons_self ..
  have htarget : (writeEvent 1 checkXxhash64 2 [some ⟨8389632, 10⟩] 2).target ≠ some 0 :=
    fun h => absurd (Option.some.inj h) Nat.one_ne_zero
  have hisolated := run_isolated freshDev_mounted sharingRun_ok hs hs'
  have hbase : (⟨8388608, 10⟩ : DataOff).base ≠ 0 := fun h => nomatch h
  exact ⟨s, s', b, hs, hs', hb, hmem, (hisolated.1 0 b hb htarget).1 _ hmem hbase⟩

set_option maxRecDepth 20000 in
theorem sharingOutcome_unchecked : sharingOutcome checkNone 2 [] =
    some (some [⟨8388608, 10⟩, ⟨8388608, 10⟩], some 1, some 2) := by
  unfold sharingOutcome
  rw [exec_sharingRun]
  decide

/-- **A shared block is overwritten.**  Without a check code the second file takes the
storage of the dedup hit all the same.  Once its chain is evicted nothing tells that
the storage is shared, and its next bytes are written into the block of the first. -/
theorem shared_block_overwritten :
    Mounted freshDev ∧
      ∃ s s' b, exec (step plainTools) (init freshDev) (sharingRun checkNone) = some s ∧
        step plainTools s (writeEvent 1 checkNone 2 [] 2) = some s' ∧ s.blocks[0]? = some b ∧
        ⟨8388608, 10⟩ ∈ b.refs ∧ s'.dev.block ⟨8388608, 10⟩ ≠ s.dev.block ⟨8388608, 10⟩ := by
  obtain ⟨s, s', b, hs, hs', hb, hrefs, hv, hv'⟩ := sharingOutcome_eq sharingOutcome_unchecked
  have hmem : (⟨8388608, 10⟩ : DataOff) ∈ b.refs := by
    rw [hrefs]
    exact List.mem_cons_self ..
  refine ⟨freshDev_mounted, s, s', b, hs, hs', hb, hmem, fun heq => ?_⟩
  rw [heq, hv] at hv'
  cases hv'

end Hammer2.File.Isolation
