/-
# `Hammer2.File.Frame` — what a write may touch

A chain *owns* its storage when the next modification may write it as it stands
(`Chain.Owns`).  Storage is only written when it is owned or new: fix a set `P` of
addresses in which neither owned storage nor an answer of the allocator lies; then
no value at an address of `P` changes, and what the chain owns afterwards lies
outside `P` again.

    Framed    the device half: nothing of `P` changed, no answer added, no dedup
              bit set
    Held      the chain half: owned storage is outside `P`; all storage is the old
              one, an answer, or recorded for dedup
    ModFlags  what a modification does to the flags and the methods

Emergency mode is off throughout.
-/
import Hammer2.File.Write

namespace Hammer2.File

/-- The addresses of a block; none while no storage is assigned. -/
def DataOff.Has (off : DataOff) (a : Nat) : Prop :=
  off.base ≠ 0 ∧ off.base ≤ a ∧ a < off.base + off.bytes

/-- The size and the alignment of blocks. -/
def DataOff.Sized (off : DataOff) : Prop := radixMin ≤ off.radix ∧ off.base % allocMin = 0

instance (off : DataOff) : Decidable off.Sized := inferInstanceAs (Decidable (_ ∧ _))

/-- The storage of the chain may be written as it stands. -/
def Chain.Owns (lsnap : Nat) (c : Chain) : Prop := c.initial = true ∨ newmod false lsnap c = false

instance (lsnap : Nat) (c : Chain) : Decidable (c.Owns lsnap) :=
  inferInstanceAs (Decidable (_ ∨ _))

/-- A chain that is modified, or registered for dedup, owns its storage by its flags
alone. -/
theorem newmod_flags {lsnap lsnap' : Nat} {c c' : Chain} (h : c.modified = true ∨ c.dedupable = true)
    (hm : c'.modified = c.modified) (hd : c'.dedupable = c.dedupable) :
    newmod false lsnap' c' = newmod false lsnap c := by
  unfold newmod
  rw [hm, hd]
  rcases h with h | h <;> simp [h]

/-! ## The two halves -/

section
variable {P Old : Nat → Prop} {lsnap mtid error : Nat} {h₀ h h' : Dev} {c c' : Chain}

structure Framed (P : Nat → Prop) (h₀ h : Dev) : Prop where
  emerg : h.emerg = false
  bad : h.bad = h₀.bad
  mem : ∀ a, P a → h.mem a = h₀.mem a
  answers : ∀ off, some off ∈ h.freemap → some off ∈ h₀.freemap
  nospace : none ∈ h.freemap → none ∈ h₀.freemap
  valid : ∀ u, h.dedupValid u = true → h₀.dedupValid u = true
  heur : ∀ i, (h.heurDedup i).dataOff = (h₀.heurDedup i).dataOff

structure Held (P Old : Nat → Prop) (lsnap : Nat) (h₀ : Dev) (c : Chain) : Prop where
  owned : c.Owns lsnap → ∀ a, c.dataOff.Has a → ¬ P a
  source : ∀ a, c.dataOff.Has a → Old a ∨ (∃ off, some off ∈ h₀.freemap ∧ off.Has a) ∨
    h₀.dedupValid (a / dedupFrag) = true
  sized : c.dataOff.Sized

/-- The answers of the allocator are aligned, and do not lie in `P`. -/
def Outside (P : Nat → Prop) (h₀ : Dev) : Prop :=
  ∀ off, some off ∈ h₀.freemap → off.base % allocMin = 0 ∧ ∀ a, off.Has a → ¬ P a

/-- The block of a dedup hit: recorded, readable, with a size. -/
structure Hit (h₀ : Dev) (off : DataOff) : Prop where
  recorded : ∀ a, off.Has a → h₀.dedupValid (a / dedupFrag) = true
  good : h₀.bad off.pbase = false
  based : off.base ≠ 0
  sized : off.Sized

/-- No space is only found for chains that are not modified and shared at once. -/
def SpaceOk (h₀ : Dev) (c : Chain) : Prop :=
  none ∈ h₀.freemap → c.dedupable = true → c.modified = false ∧ c.check ≠ checkNone

theorem Held.of_eq (hc : Held P Old lsnap h₀ c) (hoff : c'.dataOff = c.dataOff)
    (howns : c'.Owns lsnap → c.Owns lsnap) : Held P Old lsnap h₀ c' :=
  ⟨fun ho => by rw [hoff]; exact hc.owned (howns ho), by rw [hoff]; exact hc.source,
    by rw [hoff]; exact hc.sized⟩

theorem Held.of_answer (hout : Outside P h₀) {off : DataOff} (hoff : c.dataOff = off)
    (hmem : some off ∈ h₀.freemap) (hr : radixMin ≤ off.radix) : Held P Old lsnap h₀ c :=
  ⟨fun _ a ha => (hout off hmem).2 a (hoff ▸ ha),
    fun _ ha => Or.inr (Or.inl ⟨off, hmem, hoff ▸ ha⟩),
    by rw [hoff]; exact ⟨hr, (hout off hmem).1⟩⟩

theorem Held.of_hit {off : DataOff} (hhit : Hit h₀ off) (hoff : c.dataOff = off)
    (hno : ¬ c.Owns lsnap) : Held P Old lsnap h₀ c :=
  ⟨fun ho => absurd ho hno, fun a ha => Or.inr (Or.inr (hhit.recorded a (hoff ▸ ha))),
    by rw [hoff]; exact hhit.sized⟩

theorem ioOk_base {off : DataOff} (hio : off.ioOk) : off.base ≠ 0 := by
  intro hz
  refine hio.2.1 ?_
  unfold DataOff.pbase
  rw [hz]
  rfl

theorem Framed.getblk {off : DataOff} {op : Dop} (hf : Framed P h₀ h)
    (hnew : op = .new → ∀ a, off.Has a → ¬ P a) (hg : h.getblk off op = some (error, h')) :
    Framed P h₀ h' := by
  have hs := getblk_spec hg
  refine ⟨hs.emerg.trans hf.emerg, hs.bad.trans hf.bad, fun a ha => ?_, ?_, ?_, ?_, ?_⟩
  · rw [hs.outside a fun hop hin => hnew hop a ⟨ioOk_base hs.ioOk, hin⟩ ha]
    exact hf.mem a ha
  · rw [hs.freemap]
    exact hf.answers
  · rw [hs.freemap]
    exact hf.nospace
  · rw [hs.dedupValid]
    exact hf.valid
  · rw [hs.heurDedup]
    exact hf.heur

/-- Storing in a block outside `P`. -/
theorem Framed.write {base n : Nat} {bs : Bytes} (hf : Framed P h₀ h)
    (hout : ∀ a, base ≤ a → a < base + n → ¬ P a) (hlen : bs.length ≤ n) :
    Framed P h₀ { h with mem := Memory.write h.mem base bs } := by
  refine ⟨hf.emerg, hf.bad, fun a ha => ?_, hf.answers, hf.nospace, hf.valid, hf.heur⟩
  show Memory.write h.mem base bs a = h₀.mem a
  rcases Nat.lt_or_ge a base with hlt | hge
  · rw [Memory.write_below hlt]
    exact hf.mem a ha
  · rcases Nat.lt_or_ge a (base + n) with hlt | hge'
    · exact absurd ha (hout a hge hlt)
    · rw [Memory.write_above (by omega)]
      exact hf.mem a ha

theorem Framed.store {off : DataOff} {bs : Bytes} (hf : Framed P h₀ h) (hbase : off.base ≠ 0)
    (hout : ∀ a, off.Has a → ¬ P a) (hlen : bs.length ≤ off.bytes) : Framed P h₀ (h.store off bs) :=
  hf.write (fun a hl hu => hout a ⟨hbase, hl, hu⟩) hlen

theorem Framed.dedupSet {off : DataOff} (hf : Framed P h₀ h) : Framed P h₀ (h.dedupSet off) :=
  ⟨hf.emerg, hf.bad, hf.mem, hf.answers, hf.nospace,
    fun u hu => hf.valid u (Bool.and_eq_true_iff.mp hu).1, hf.heur⟩

theorem Framed.tail {x : Option DataOff} {answers : List (Option DataOff)} (hf : Framed P h₀ h)
    (hfree : h.freemap = x :: answers) : Framed P h₀ { h with freemap := answers } :=
  ⟨hf.emerg, hf.bad, hf.mem,
    fun off hoff => hf.answers off (hfree ▸ List.mem_cons_of_mem _ hoff),
    fun hn => hf.nospace (hfree ▸ List.mem_cons_of_mem _ hn), hf.valid, hf.heur⟩

/-- **An allocation**: an answer outside `P`, or no space and nothing changed. -/
theorem freemapAlloc_frame {radix : Nat} (hout : Outside P h₀) (hf : Framed P h₀ h)
    (hr : radixMin ≤ radix) (ha : freemapAlloc h c radix = some (error, c', h')) :
    Framed P h₀ h' ∧ ((error ≠ 0 ∧ none ∈ h.freemap ∧ c' = c) ∨
      (error = 0 ∧ ∃ off, c' = { c with dataOff := off } ∧ off.base ≠ 0 ∧ off.radix = radix ∧
        (∀ a, off.Has a → ¬ P a) ∧ ∀ Old lsnap, Held P Old lsnap h₀ c')) := by
  rcases freemapAlloc_spec ha with
    ⟨he, hn, rfl, answers, hfree, rfl⟩ | ⟨he, off, answers, hfree, hra, hba, rfl, rfl⟩
  · exact ⟨hf.tail hfree, Or.inl ⟨he, hn, rfl⟩⟩
  · have hmem : some off ∈ h₀.freemap := hf.answers off (hfree ▸ List.mem_cons_self ..)
    refine ⟨?_, Or.inr ⟨he, off, rfl, hba, hra, (hout off hmem).2,
      fun _ _ => Held.of_answer hout rfl hmem (hra ▸ hr)⟩⟩
    split
    · exact (hf.tail hfree).dedupSet
    · exact hf.tail hfree

/-- **Loading** touches only owned storage. -/
theorem chainLoadData_frame {p : Hashes} (hf : Framed P h₀ h) (hc : Held P Old lsnap h₀ c)
    (hdata : c.data = false) (hbase : c.dataOff.base ≠ 0)
    (hl : chainLoadData p h c = some (c', h')) :
    Framed P h₀ h' ∧ Held P Old lsnap h₀ c' ∧ SameChain c c' := by
  have hsame := (chainLoadData_spec hdata hbase hl).1
  have hload : Framed P h₀ h' ∧ (c'.initial = true → c.initial = true) := by
    unfold chainLoadData at hl
    rw [if_neg (fun hor => hor.elim (by rw [hdata]; decide) hbase)] at hl
    obtain ⟨⟨e, h₁⟩, hg, hl⟩ := Option.bind_eq_some_iff.mp hl
    have hf₁ := hf.getblk (fun hop => hc.owned (Or.inl (by
      cases hi : c.initial with
      | true => rfl
      | false =>
          rw [hi] at hop
          cases hop))) hg
    simp only at hl
    split at hl
    · obtain ⟨rfl, rfl⟩ := Prod.mk.inj (Option.some.inj hl)
      exact ⟨hf₁, id⟩
    · split at hl
      · obtain ⟨rfl, rfl⟩ := Prod.mk.inj (Option.some.inj hl)
        exact ⟨hf₁, fun hi => nomatch hi⟩
      · split at hl
        · obtain ⟨rfl, rfl⟩ := Prod.mk.inj (Option.some.inj hl)
          exact ⟨hf₁, id⟩
        · obtain ⟨ok, -, hok⟩ := Option.map_eq_some_iff.mp hl
          cases ok <;>
            · obtain ⟨rfl, rfl⟩ := Prod.mk.inj hok
              exact ⟨hf₁, id⟩
  refine ⟨hload.1, hc.of_eq hsame.dataOff fun ho => ?_, hsame⟩
  by_cases hi : c.initial = true
  · exact Or.inl hi
  · rcases ho with ho | ho
    · exact absurd (hload.2 ho) hi
    · have hi' : c'.initial = c.initial := by
        cases hb : c'.initial with
        | true => exact absurd (hload.2 hb) hi
        | false => exact (Bool.eq_false_iff.mpr hi).symm
      refine Or.inr ?_
      unfold newmod at ho ⊢
      rwa [hsame.modified, hsame.dedupable, hsame.type, hi', hsame.check, hsame.modifyTid] at ho

/-! ## Modifications -/

/-- The block table entry of the chain need not change. -/
structure KeptRef (c c' : Chain) : Prop where
  dataOff : c'.dataOff = c.dataOff
  check : c'.check = c.check
  modifyTid : c'.modifyTid = c.modifyTid
  modified : c'.modified = c.modified
  update : c'.update = c.update

/-- What a modification does to flags and methods. -/
structure ModFlags (c : Chain) (mtid : Nat) (dedup : Option DataOff) (error : Nat) (c' : Chain) :
    Prop where
  type : c'.type = c.type
  check : c'.check = c.check
  tid : c'.modifyTid = c.modifyTid ∨ c'.modifyTid = mtid
  kept : c'.update = false → KeptRef c c'
  shared : c'.dedupable = true → dedup ≠ none ∧ error = 0
  updated : error = 0 → c'.update = true
  plain : dedup = none → error = 0 → c'.modified = true
  flagged : error = 0 → c'.modified = true ∨ c'.dedupable = true
  based : error = 0 → c'.dataOff.base ≠ 0
  done : error = 0 → c'.error = 0

/-- The storage stage without a deduplication, in three cases: the storage is kept,
or new, or there is no space. -/
theorem modifyStorage_frame {isNew : Bool} (hout : Outside P h₀) (hf : Framed P h₀ h)
    (hsized : radixMin ≤ c.dataOff.radix)
    (hm : modifyStorage h c isNew none = some (error, c', h')) : Framed P h₀ h' ∧
      ((error = 0 ∧ c' = c ∧ h' = h ∧ c.dataOff.base ≠ 0 ∧ isNew = false) ∨
        (error = 0 ∧ (∃ off, c' = { c with dataOff := off, dedupable := false, emergMip := false } ∧
          off.base ≠ 0 ∧ ∀ a, off.Has a → ¬ P a) ∧ ∀ Old lsnap, Held P Old lsnap h₀ c') ∨
        (error ≠ 0 ∧ none ∈ h.freemap ∧ c' = { c with dedupable := false })) := by
  unfold modifyStorage at hm
  split at hm
  · obtain ⟨⟨e, d, h₁⟩, ha, hres⟩ := Option.map_eq_some_iff.mp hm
    obtain ⟨hf₁, hcase⟩ := freemapAlloc_frame hout hf hsized ha
    simp only at hres
    rw [if_neg (fun hn => by rw [hf₁.emerg] at hn; cases hn.2)] at hres
    rcases hcase with ⟨he, hn, rfl⟩ | ⟨rfl, off, rfl, hbase, -, hoff, hheld⟩
    · rw [if_neg he] at hres
      obtain ⟨rfl, rfl, rfl⟩ := triple_inj hres
      exact ⟨hf₁, Or.inr (Or.inr ⟨he, hn, rfl⟩)⟩
    · rw [if_pos rfl] at hres
      obtain ⟨rfl, rfl, rfl⟩ := triple_inj hres
      exact ⟨hf₁, Or.inr (Or.inl ⟨rfl, ⟨off, rfl, hbase, hoff⟩,
        fun Old lsnap => ⟨fun _ => hoff, (hheld Old lsnap).source, (hheld Old lsnap).sized⟩⟩)⟩
  · rename_i hkeep
    obtain ⟨rfl, rfl, rfl⟩ := triple_inj (Option.some.inj hm)
    have hbytes : c.bytes ≠ 0 := by
      unfold Chain.bytes DataOff.bytes
      rw [if_neg (fun hz => absurd (hz ▸ hsized) (by decide))]
      exact Nat.pos_iff_ne_zero.mp (Nat.two_pow_pos _)
    have hkeep := not_or.mp fun hor => hkeep ⟨hbytes, hor⟩
    exact ⟨hf, Or.inl ⟨rfl, rfl, rfl, hkeep.1, Bool.not_eq_true _ ▸ hkeep.2⟩⟩

/-- The data stage writes the storage of the chain only: zero-filled when it is
`INITIAL`, copied to when it is new. -/
theorem modifyData_frame {old : DataOff} {dedup : Option DataOff} (hf : Framed P h₀ h)
    (hinit : c.initial = true → dedup = none → ∀ a, c.dataOff.Has a → ¬ P a)
    (hnew : c.dataOff.base ≠ old.base → dedup = none → ∀ a, c.dataOff.Has a → ¬ P a)
    (hm : modifyData h old c dedup = some (c', h')) :
    Framed P h₀ h' ∧ c' = { c with initial := false, data := c'.data, error := c'.error } ∧
      (h.bad c.dataOff.pbase = false → c'.error = 0 ∨ c'.error = c.error) := by
  unfold modifyData at hm
  simp only at hm
  split at hm
  · obtain ⟨rfl, rfl⟩ := Prod.mk.inj (Option.some.inj hm)
    exact ⟨hf, rfl, fun _ => Or.inr rfl⟩
  · obtain ⟨⟨e, h₁⟩, hg, hm⟩ := Option.bind_eq_some_iff.mp hm
    have hf₁ := hf.getblk (fun hop => by
      split at hop
      · rename_i hboth
        exact hinit hboth.1 hboth.2
      · cases hop) hg
    simp only at hm
    split at hm
    · rename_i hne
      obtain ⟨rfl, rfl⟩ := Prod.mk.inj (Option.some.inj hm)
      refine ⟨hf₁, rfl, fun hgood => absurd ?_ hne⟩
      unfold Dev.getblk at hg
      split at hg
      · simp only at hg
        rw [if_neg (fun hb => by rw [hgood] at hb; cases hb.1)] at hg
        split at hg <;> exact (Prod.mk.inj (Option.some.inj hg)).1.symm
      · cases hg
    · split at hm
      · obtain ⟨rfl, rfl⟩ := Prod.mk.inj (Option.some.inj hm)
        refine ⟨?_, rfl, fun _ => Or.inl rfl⟩
        split
        · rename_i hcopy
          refine hf₁.store (ioOk_base (getblk_spec hg).ioOk) (hnew hcopy.1 hcopy.2) ?_
          exact Nat.le_of_eq (Memory.length_read ..)
        · exact hf₁
      · split at hm
        · cases hm
        · obtain ⟨rfl, rfl⟩ := Prod.mk.inj (Option.some.inj hm)
          exact ⟨hf₁, rfl, fun _ => Or.inl rfl⟩

/-- A chain that is modified, or registered for dedup, owns after the data stage what
it owned by its flags. -/
theorem Held.flags (hc : Held P Old lsnap h₀ c)
    (hflags : c.modified = true ∨ c.dedupable = true) (hoff : c'.dataOff = c.dataOff)
    (hm : c'.modified = c.modified) (hd : c'.dedupable = c.dedupable)
    (hi : c'.initial = true → c.initial = true) : Held P Old lsnap h₀ c' :=
  hc.of_eq hoff fun ho => ho.elim (fun h => Or.inl (hi h))
    fun h => Or.inr ((newmod_flags hflags hm hd).symm.trans h)

/-- A chain that is registered for dedup does not own its storage by its flags. -/
theorem dedupable_of_newmod (h : newmod false lsnap c = false) : c.dedupable = false := by
  cases hd : c.dedupable with
  | false => rfl
  | true =>
      unfold newmod at h
      cases hmo : c.modified <;> simp [hmo, hd] at h

/-- A modification without a deduplication, with the data there. -/
theorem modifyLoaded_plain_frame {optdata : Bool} (hout : Outside P h₀) (hspace : SpaceOk h₀ c)
    (hf : Framed P h₀ h) (hc : Held P Old lsnap h₀ c)
    (hm : modifyLoaded lsnap h c mtid none optdata = some (error, c', h')) :
    Framed P h₀ h' ∧ Held P Old lsnap h₀ c' ∧ ModFlags c mtid none error c' := by
  unfold modifyLoaded at hm
  obtain ⟨⟨e, d, h₁⟩, hs, hm⟩ := Option.bind_eq_some_iff.mp hm
  obtain ⟨hf₁, hcase⟩ := modifyStorage_frame hout hf
    (show ({ c with modified := true, update := true } : Chain).dataOff.radix ≥ radixMin from hc.sized.1) hs
  rw [hf.emerg] at hcase
  -- The chain after the storage stage, when there was space.
  have hspaced : e = 0 → Held P Old lsnap h₀ d ∧ d.modified = true ∧ d.update = true ∧
      d.dedupable = false ∧ d.type = c.type ∧ d.check = c.check ∧ d.modifyTid = c.modifyTid ∧
      d.dataOff.base ≠ 0 ∧ (d.initial = true → ∀ a, d.dataOff.Has a → ¬ P a) ∧
      (d.dataOff.base ≠ c.dataOff.base → ∀ a, d.dataOff.Has a → ¬ P a) := by
    intro he
    rcases hcase with ⟨-, rfl, -, hbase, hnew⟩ | ⟨-, ⟨off, rfl, hbase, hoff⟩, hheld⟩ | ⟨hne, -⟩
    · have hown : c.Owns lsnap := Or.inr hnew
      exact ⟨⟨fun _ => hc.owned hown, hc.source, hc.sized⟩, rfl, rfl,
        (show c.dedupable = false from dedupable_of_newmod hnew), rfl,
        rfl, rfl, hbase, fun _ => hc.owned hown, fun hne => absurd rfl hne⟩
    · exact ⟨hheld Old lsnap, rfl, rfl, rfl, rfl, rfl, rfl, hbase, fun _ => hoff, fun _ => hoff⟩
    · exact absurd he hne
  simp only at hm
  split at hm
  · -- No space: the chain keeps its storage, and is not registered for dedup any more.
    rename_i hne
    obtain ⟨rfl, rfl, rfl⟩ := triple_inj (Option.some.inj hm)
    rcases hcase with ⟨he, -⟩ | ⟨he, -⟩ | ⟨-, hn, rfl⟩
    · exact absurd he hne
    · exact absurd he hne
    · refine ⟨hf₁, hc.of_eq rfl fun ho => ?_, ⟨rfl, rfl, Or.inl rfl,
        (fun _ => ⟨rfl, rfl, rfl, rfl, rfl⟩), (fun hd => nomatch hd), (fun he => absurd he hne),
        (fun _ he => absurd he hne), (fun he => absurd he hne), (fun he => absurd he hne),
        fun he => absurd he hne⟩⟩
      rcases ho with hi | ho
      · exact Or.inl hi
      · right
        cases hd : c.dedupable with
        | false =>
            unfold newmod at ho ⊢
            simpa [hd] using ho
        | true =>
            obtain ⟨hmo, hck⟩ := hspace (hf.nospace hn) hd
            unfold newmod at ho
            simp [hmo, hck] at ho
  · rename_i hne
    obtain ⟨hd, hmo, hup, hded, htype, hcheck, htid, hbase, hinit, hnew⟩ :=
      hspaced (Decidable.not_not.mp hne)
    have hstamp : (d.stamp h₁.mirrorTid mtid).modifyTid = c.modifyTid ∨
        (d.stamp h₁.mirrorTid mtid).modifyTid = mtid := by
      show (if mtid = 0 then d.modifyTid else mtid) = _ ∨ (if mtid = 0 then d.modifyTid else mtid) = _
      split
      · exact Or.inl htid
      · exact Or.inr rfl
    have hnotkept : d.update = false → KeptRef c c' :=
      fun hu => absurd (hup.symm.trans hu) (by decide)
    have hnotshared : d.dedupable = true → (none : Option DataOff) ≠ none ∧ error = 0 :=
      fun hb => absurd (hded.symm.trans hb) (by decide)
    split at hm
    · obtain ⟨rfl, rfl, rfl⟩ := triple_inj (Option.some.inj hm)
      exact ⟨hf₁, hd.flags (Or.inl hmo) rfl rfl rfl id, ⟨htype, hcheck, hstamp, hnotkept, hnotshared,
        (fun _ => hup), (fun _ _ => hmo), (fun _ => Or.inl hmo), (fun _ => hbase), id⟩⟩
    · obtain ⟨⟨d', h₂⟩, hdata, hres⟩ := Option.map_eq_some_iff.mp hm
      obtain ⟨rfl, rfl, rfl⟩ := triple_inj hres
      obtain ⟨hf₂, hd', -⟩ := modifyData_frame hf₁ (by exact fun hi _ => hinit hi)
        (by exact fun hne _ => hnew hne) hdata
      simp only at hnotkept hnotshared ⊢
      rw [hd'] at hnotkept ⊢
      exact ⟨hf₂, hd.flags (Or.inl hmo) rfl rfl rfl (fun hi => nomatch hi), ⟨htype, hcheck, hstamp,
        hnotkept, hnotshared, (fun _ => hup), (fun _ _ => hmo), (fun _ => Or.inl hmo),
        (fun _ => hbase), id⟩⟩

/-- A modification that is a deduplication, with the data there: the chain takes the
recorded storage and does not own it, or keeps what it owned. -/
theorem modifyLoaded_hit_frame {optdata : Bool} {off : DataOff} (hhit : Hit h₀ off)
    (hf : Framed P h₀ h) (hc : Held P Old lsnap h₀ c)
    (hm : modifyLoaded lsnap h c mtid (some off) optdata = some (error, c', h')) :
    Framed P h₀ h' ∧ Held P Old lsnap h₀ c' ∧ ModFlags c mtid (some off) error c' := by
  have hbytes : c.bytes ≠ 0 := by
    unfold Chain.bytes DataOff.bytes
    rw [if_neg (fun hz => absurd (hz ▸ hc.sized.1) (by decide))]
    exact Nat.pos_iff_ne_zero.mp (Nat.two_pow_pos _)
  unfold modifyLoaded at hm
  rw [modifyStorage_hit h (newmod h.emerg lsnap c) off
    (show ({ c with modified := true, update := true } : Chain).bytes ≠ 0 from hbytes)] at hm
  simp only [Option.bind_some] at hm
  rw [if_neg (fun hne => hne rfl), if_neg (fun hn => nomatch hn.2.2.2), hf.emerg] at hm
  obtain ⟨⟨d, h₁⟩, hd, hm⟩ := Option.map_eq_some_iff.mp hm
  obtain ⟨rfl, rfl, rfl⟩ := triple_inj hm
  have hmiss : ∀ {A : Prop}, some off = none → A := fun hn => nomatch hn
  have hstamp : ∀ tid : Nat, (if mtid = 0 then tid else mtid) = tid ∨
      (if mtid = 0 then tid else mtid) = mtid := by
    intro tid
    split
    · exact Or.inl rfl
    · exact Or.inr rfl
  by_cases hnew : c.dataOff.base = 0 ∨ newmod false lsnap c = true
  · simp only [if_pos hnew] at hd
    obtain ⟨hf₁, hd', herr⟩ := modifyData_frame hf (fun _ hn => hmiss hn)
      (fun _ hn => hmiss hn) hd
    have hgood := herr (hf.bad ▸ hhit.good)
    rw [hd']
    refine ⟨hf₁, Held.of_hit hhit rfl fun ho => ?_, ⟨rfl, rfl, hstamp _, (fun hu => nomatch hu),
      (fun _ => ⟨(fun hn => nomatch hn), ?_⟩), (fun _ => rfl), (fun hn => nomatch hn),
      (fun _ => Or.inr rfl), (fun _ => hhit.based), id⟩⟩
    · rcases ho with hi | ho
      · cases hi
      · unfold newmod at ho
        simp [Chain.stamp] at ho
    · exact hgood.elim id id
  · have hkeep := not_or.mp hnew
    have hown : newmod false lsnap c = false := Bool.not_eq_true _ ▸ hkeep.2
    simp only [if_neg hnew] at hd
    obtain ⟨hf₁, hd', -⟩ := modifyData_frame hf (fun _ hn => hmiss hn)
      (fun _ hn => hmiss hn) hd
    rw [hd']
    exact ⟨hf₁, ⟨fun _ => hc.owned (Or.inr hown), hc.source, hc.sized⟩, ⟨rfl, rfl, hstamp _,
      (fun hu => nomatch hu), (fun hde => absurd ((dedupable_of_newmod hown).symm.trans hde) (by decide)),
      (fun _ => rfl), (fun _ _ => rfl), (fun _ => Or.inl rfl), (fun _ => hkeep.1), id⟩⟩

/-- What a dedup hit must be for a modification, and what a modification without one
must be. -/
structure DedupOk (h₀ : Dev) (c : Chain) (dedup : Option DataOff) : Prop where
  hit : ∀ off, dedup = some off → Hit h₀ off
  miss : dedup = none → SpaceOk h₀ c

theorem modifyLoaded_frame {optdata : Bool} {dedup : Option DataOff} (hout : Outside P h₀)
    (hdedup : DedupOk h₀ c dedup) (hf : Framed P h₀ h) (hc : Held P Old lsnap h₀ c)
    (hm : modifyLoaded lsnap h c mtid dedup optdata = some (error, c', h')) :
    Framed P h₀ h' ∧ Held P Old lsnap h₀ c' ∧ ModFlags c mtid dedup error c' := by
  cases dedup with
  | none => exact modifyLoaded_plain_frame hout (hdedup.miss rfl) hf hc hm
  | some off => exact modifyLoaded_hit_frame (hdedup.hit off rfl) hf hc hm

theorem KeptRef.trans {c'' : Chain} (h : KeptRef c c') (h' : KeptRef c' c'') : KeptRef c c'' :=
  ⟨h'.dataOff.trans h.dataOff, h'.check.trans h.check, h'.modifyTid.trans h.modifyTid,
    h'.modified.trans h.modified, h'.update.trans h.update⟩

theorem SameChain.keptRef (h : SameChain c c') : KeptRef c c' :=
  ⟨h.dataOff, h.check, h.modifyTid, h.modified, h.update⟩

theorem DedupOk.of_same {dedup : Option DataOff} (h : DedupOk h₀ c dedup) (hs : SameChain c c') :
    DedupOk h₀ c' dedup := by
  refine ⟨h.hit, fun hn => ?_⟩
  unfold SpaceOk
  rw [hs.dedupable, hs.modified, hs.check]
  exact h.miss hn

/-- What a modification of the loaded chain does, it does to the chain. -/
theorem ModFlags.of_same {dedup : Option DataOff} {c'' : Chain} (h : SameChain c c')
    (h' : ModFlags c' mtid dedup error c'') : ModFlags c mtid dedup error c'' where
  type := h'.type.trans h.type
  check := h'.check.trans h.check
  tid := h.modifyTid ▸ h'.tid
  kept hu := h.keptRef.trans (h'.kept hu)
  shared := h'.shared
  updated := h'.updated
  plain := h'.plain
  flagged := h'.flagged
  based := h'.based
  done := h'.done

/-- Two modifications for the same dedup hit, of which the first was done. -/
theorem ModFlags.trans {dedup : Option DataOff} {c'' : Chain} (h : ModFlags c mtid dedup 0 c')
    (h' : ModFlags c' mtid dedup error c'') : ModFlags c mtid dedup error c'' where
  type := h'.type.trans h.type
  check := h'.check.trans h.check
  tid := h'.tid.elim (fun ht => ht ▸ h.tid) Or.inr
  kept hu := absurd ((h.updated rfl).symm.trans ((h'.kept hu).update.symm.trans hu)) (by decide)
  shared := h'.shared
  updated := h'.updated
  plain := h'.plain
  flagged := h'.flagged
  based := h'.based
  done := h'.done

/-- **A modification** writes only owned or new storage.  Its data may fail to load. -/
theorem chainModify_frame {p : Hashes} {optdata : Bool} {dedup : Option DataOff}
    (hout : Outside P h₀) (hdedup : DedupOk h₀ c dedup) (hf : Framed P h₀ h)
    (hc : Held P Old lsnap h₀ c)
    (hm : chainModify p lsnap h c mtid dedup optdata = some (error, c', h')) :
    Framed P h₀ h' ∧ Held P Old lsnap h₀ c' ∧
      (ModFlags c mtid dedup error c' ∨ optdata = false ∧ error ≠ 0 ∧ SameChain c c') := by
  unfold chainModify at hm
  split at hm
  · rename_i hneed
    obtain ⟨⟨d, h₁⟩, hl, hm⟩ := Option.bind_eq_some_iff.mp hm
    obtain ⟨hf₁, hd, hsame⟩ := chainLoadData_frame hf hc hneed.1 hneed.2.2.2 hl
    simp only at hm
    split at hm
    · rename_i hne
      obtain ⟨rfl, rfl, rfl⟩ := triple_inj (Option.some.inj hm)
      exact ⟨hf₁, hd, Or.inr ⟨hneed.2.2.1, hne, hsame⟩⟩
    · obtain ⟨hf₂, hc', hflags⟩ := modifyLoaded_frame hout (hdedup.of_same hsame) hf₁ hd hm
      exact ⟨hf₂, hc', Or.inl (hflags.of_same hsame)⟩
  · obtain ⟨hf₁, hc', hflags⟩ := modifyLoaded_frame hout hdedup hf hc hm
    exact ⟨hf₁, hc', Or.inl hflags⟩

/-- **A resize** leaves the chain on new storage.  Its data may fail to load, and
there may be no space once it is modified. -/
theorem chainResize_frame {p : Hashes} {dedup : Option DataOff} {nradix : Nat}
    (hout : Outside P h₀) (hdedup : DedupOk h₀ c dedup) (hr : radixMin ≤ nradix)
    (hsize : c.bytes ≠ 2 ^ nradix) (hf : Framed P h₀ h) (hc : Held P Old lsnap h₀ c)
    (hm : chainResize p lsnap h c mtid dedup nradix = some (error, c', h')) :
    Framed P h₀ h' ∧ Held P Old lsnap h₀ c' ∧ (ModFlags c mtid dedup error c' ∨
      error ≠ 0 ∧ SameChain c c' ∨ error ≠ 0 ∧ none ∈ h₀.freemap ∧ ModFlags c mtid dedup 0 c') := by
  unfold chainResize at hm
  split at hm
  · cases hm
  · rw [if_neg (fun hz => absurd (hz ▸ hr) (by decide) : nradix ≠ 0), if_neg hsize] at hm
    obtain ⟨⟨e, d, h₁⟩, hmod, hm⟩ := Option.bind_eq_some_iff.mp hm
    obtain ⟨hf₁, hd, hflags⟩ := chainModify_frame hout hdedup hf hc hmod
    simp only at hm
    split at hm
    · rename_i hne
      obtain ⟨rfl, rfl, rfl⟩ := triple_inj (Option.some.inj hm)
      exact ⟨hf₁, hd, hflags.imp id fun hs => Or.inl hs.2⟩
    · rename_i hne
      obtain rfl : e = 0 := Decidable.not_not.mp hne
      have hflags := hflags.elim id fun hs => absurd rfl hs.2.1
      obtain ⟨⟨e', d', h₂⟩, halloc, hres⟩ := Option.map_eq_some_iff.mp hm
      obtain ⟨hf₂, hcase⟩ := freemapAlloc_frame hout hf₁ hr halloc
      simp only at hres
      rcases hcase with ⟨he, hn, rfl⟩ | ⟨rfl, off, rfl, hbase, -, hoff, hheld⟩
      · rw [if_pos he] at hres
        obtain ⟨rfl, rfl, rfl⟩ := triple_inj hres
        exact ⟨hf₂, hd, Or.inr (Or.inr ⟨he, hf₁.nospace hn, hflags⟩)⟩
      · rw [if_neg (fun hne => hne rfl)] at hres
        obtain ⟨rfl, rfl, rfl⟩ := triple_inj hres
        refine ⟨hf₂, ⟨fun _ => hoff, (hheld Old lsnap).source, (hheld Old lsnap).sized⟩, Or.inl ?_⟩
        have hdone := hflags.done rfl
        exact ⟨hflags.type, hflags.check, hflags.tid,
          (fun hu => absurd ((hflags.updated rfl).symm.trans hu) (by decide)),
          (fun hsh => ⟨(hflags.shared hsh).1, hdone⟩), (fun _ => hflags.updated rfl),
          (fun hn _ => hflags.plain hn rfl), (fun _ => hflags.flagged rfl), (fun _ => hbase),
          fun _ => hdone⟩

end

end Hammer2.File
