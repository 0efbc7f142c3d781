/-
# `Hammer2.File.WriteFrame` — what writing a block may touch

`BlockFrame` is the frame of `writeFileCore`: no value at a protected address
changes, the dedup bits a write sets are those of storage that the chain does not
own, and the chain it leaves (`Left`) owns nothing that is protected.

    Ready    the chain before the write
    Placed   the chain after the assignment of storage
    Left     the chain after the write
-/
import Hammer2.File.Frame
import Hammer2.File.RoundTrip

namespace Hammer2.File

section
variable {P Old : Nat → Prop} {lsnap mtid error errorp r : Nat} {h₀ h h' : Dev} {c₀ c c' : Chain}
  {hit : Bool}

/-- A chain as a write finds it. -/
structure Ready (P Old : Nat → Prop) (lsnap : Nat) (h₀ : Dev) (c : Chain) : Prop where
  held : Held P Old lsnap h₀ c
  space : SpaceOk h₀ c
  safe : c.dedupable = true → c.check ≠ checkNone

/-- The chain after the assignment of storage. -/
structure Placed (mtid : Nat) (c₀ : Chain) (errorp : Nat) (hit : Bool) (c : Chain) : Prop where
  type : c.type = c₀.type
  tid : c.modifyTid = c₀.modifyTid ∨ c.modifyTid = mtid
  kept : c.update = false → KeptRef c₀ c
  safe : c.dedupable = true → c.check ≠ checkNone ∨ errorp = 0 ∧ hit = true
  updated : errorp = 0 → c.update = true
  plain : errorp = 0 → hit = false → c.modified = true ∧ c.dedupable = false
  flagged : errorp = 0 → c.modified = true ∨ c.dedupable = true
  based : errorp = 0 → c.dataOff.base ≠ 0

/-- The chain after a write. -/
structure Left (P Old : Nat → Prop) (lsnap mtid : Nat) (h₀ : Dev) (c₀ c : Chain) : Prop where
  held : Held P Old lsnap h₀ c
  safe : c.dedupable = true → c.check ≠ checkNone
  type : c.type = c₀.type
  tid : c.modifyTid = c₀.modifyTid ∨ c.modifyTid = mtid
  kept : c.update = false → KeptRef c₀ c

/-- **The frame of an operation on a block**: the chain and the device it leaves. -/
structure BlockFrame (P Old : Nat → Prop) (lsnap mtid : Nat) (h₀ : Dev) (c₀ : Chain)
    (chain : Option Chain) (h : Dev) : Prop where
  emerg : h.emerg = false
  mem : ∀ a, P a → h.mem a = h₀.mem a
  valid : ∀ u, h.dedupValid u = true → h₀.dedupValid u = true ∨
    ∃ c, chain = some c ∧ ¬ c.Owns lsnap ∧ c.dataOff.base ≠ 0 ∧ c.dataOff.mask u = true
  heur : ∀ i, (h.heurDedup i).dataOff = (h₀.heurDedup i).dataOff ∨
    ∃ c, chain = some c ∧ (h.heurDedup i).dataOff = c.dataOff
  chain : ∀ c, chain = some c → Left P Old lsnap mtid h₀ c₀ c

theorem Framed.refl (hemerg : h₀.emerg = false) : Framed P h₀ h₀ :=
  ⟨hemerg, rfl, fun _ _ => rfl, fun _ ha => ha, id, fun _ hu => hu, fun _ => rfl⟩

theorem Framed.lookup {p : Hashes} {bs : Bytes} {off : Option DataOff} (hf : Framed P h₀ h)
    (hl : dedupLookup p h bs = some (off, h')) : Framed P h₀ h' := by
  obtain ⟨hsame, -, hvalid, -⟩ := dedupLookup_spec hl
  exact ⟨hsame.emerg.trans hf.emerg, hsame.bad.trans hf.bad,
    fun a ha => (congrFun hsame.mem a).trans (hf.mem a ha), hsame.freemap ▸ hf.answers,
    hsame.freemap ▸ hf.nospace, hvalid ▸ hf.valid,
    fun i => (dedupLookup_heur hl i).trans (hf.heur i)⟩

theorem Framed.block_frame {chain : Option Chain} (hf : Framed P h₀ h)
    (hchain : ∀ c, chain = some c → Left P Old lsnap mtid h₀ c₀ c) :
    BlockFrame P Old lsnap mtid h₀ c₀ chain h :=
  ⟨hf.emerg, hf.mem, fun u hu => Or.inl (hf.valid u hu), fun i => Or.inl (hf.heur i), hchain⟩

/-! ## Assigning storage -/

theorem ModFlags.placed {dedup : Option DataOff} (h : ModFlags c₀ mtid dedup error c)
    (hhit : hit = dedup.isSome) (hsafe : dedup ≠ none → error = 0 → errorp = 0 ∨ c.check ≠ checkNone)
    (he : errorp = 0 → error = 0) : Placed mtid c₀ errorp hit c where
  type := h.type
  tid := h.tid
  kept := h.kept
  safe hd := by
    obtain ⟨hne, he'⟩ := h.shared hd
    rcases hsafe hne he' with hs | hs
    · exact Or.inr ⟨hs, hhit.trans (Option.isSome_iff_ne_none.mpr hne)⟩
    · exact Or.inl hs
  updated he' := h.updated (he he')
  plain he' hm := by
    have hn : dedup = none := Option.isSome_eq_false_iff.mp (hhit.symm.trans hm) |> Option.isNone_iff_eq_none.mp
    refine ⟨h.plain hn (he he'), ?_⟩
    cases hd : c.dedupable with
    | false => rfl
    | true => exact absurd hn (h.shared hd).1
  flagged he' := h.flagged (he he')
  based he' := h.based (he he')

theorem SameChain.placed (h : SameChain c₀ c) (he : errorp ≠ 0)
    (hsafe : c₀.dedupable = true → c₀.check ≠ checkNone) : Placed mtid c₀ errorp hit c where
  type := h.type
  tid := Or.inl h.modifyTid
  kept _ := h.keptRef
  safe hd := Or.inl (h.check ▸ hsafe (h.dedupable ▸ hd))
  updated he' := absurd he' he
  plain he' := absurd he' he
  flagged he' := absurd he' he
  based he' := absurd he' he

theorem SameChain.refl (c : Chain) : SameChain c c := ⟨rfl, rfl, rfl, rfl, rfl, rfl, rfl, rfl⟩

theorem DedupOk.none (h : SpaceOk h₀ c) : DedupOk h₀ c none := ⟨fun _ hoff => (nomatch hoff), fun _ => h⟩

/-- The hits of a lookup are usable, and when there is no space not for a chain
without check code. -/
def HitsOk (t : Tools) (h₀ : Dev) (check : Nat) (bs : Bytes) : Prop :=
  ∀ off h₁, dedupLookup t.toHashes h₀ bs = some (some off, h₁) →
    Hit h₀ off ∧ (none ∈ h₀.freemap → check ≠ checkNone)

/-- **Storage for a data chain.** -/
theorem assignData_frame {t : Tools} {ip : Inode} {bs : Bytes} {a : Assigned}
    (hemerg : h₀.emerg = false) (hout : Outside P h₀) (hc : Ready P Old ip.lsnapTid h₀ c)
    (hr : radixMin ≤ r) (hlen : bs.length = 2 ^ r) (hhits : HitsOk t h₀ c.check bs)
    (ha : assignData t ip 0 h₀ c bs mtid = some a) :
    Framed P h₀ a.dev ∧ ∃ c', a.chain = some c' ∧ Held P Old ip.lsnapTid h₀ c' ∧
      Placed mtid c a.errorp a.hit c' := by
  unfold assignData at ha
  obtain ⟨⟨dedup, h₁⟩, hl, ha⟩ := Option.bind_eq_some_iff.mp ha
  have hf₁ := (Framed.refl (P := P) hemerg).lookup hl
  have hdedup : DedupOk h₀ c dedup :=
    ⟨fun off hoff => (hhits off h₁ (hoff ▸ hl)).1, fun _ => hc.space⟩
  simp only at ha
  split at ha
  · obtain ⟨⟨e, c', h₂⟩, hmod, rfl⟩ := Option.map_eq_some_iff.mp ha
    obtain ⟨hf₂, hc', hflags⟩ := chainModify_frame hout hdedup hf₁ hc.held hmod
    have hflags := hflags.elim id fun hs => nomatch hs.1
    exact ⟨hf₂, c', rfl, hc', hflags.placed rfl
      (fun _ he => Or.inl (Nat.or_eq_zero_iff.mpr ⟨rfl, he⟩)) fun he => (Nat.or_eq_zero_iff.mp he).2⟩
  · rename_i hsz
    rw [hlen, getradix_pow hr] at ha
    obtain ⟨⟨e, d, h₂⟩, hres, ha⟩ := Option.bind_eq_some_iff.mp ha
    obtain ⟨hf₂, hd, hcase⟩ := chainResize_frame hout hdedup hr (hlen ▸ hsz) hf₁ hc.held hres
    simp only [Nat.zero_or] at ha
    split at ha
    · rename_i hne
      obtain rfl := Option.some.inj ha
      refine ⟨hf₂, d, rfl, hd, ?_⟩
      rcases hcase with hflags | ⟨-, hsame⟩ | ⟨-, hn, hflags⟩
      · exact hflags.placed rfl (fun _ he => absurd he hne) id
      · exact hsame.placed hne hc.safe
      · -- Modified, but then no space for the new size.
        refine ⟨hflags.type, hflags.tid, hflags.kept, fun hded => Or.inl ?_, fun he => absurd he hne,
          fun he => absurd he hne, fun he => absurd he hne, fun he => absurd he hne⟩
        obtain ⟨off, hoff⟩ := Option.ne_none_iff_exists'.mp (hflags.shared hded).1
        rw [hflags.check]
        exact (hhits off h₁ (hoff ▸ hl)).2 hn
    · rename_i hz
      obtain rfl : e = 0 := Decidable.not_not.mp hz
      have hflags : ModFlags c mtid dedup 0 d := by
        rcases hcase with hflags | ⟨hne, -⟩ | ⟨hne, -⟩
        · exact hflags
        · exact absurd rfl hne
        · exact absurd rfl hne
      have hdedup' : DedupOk h₀ d dedup := by
        refine ⟨hdedup.hit, fun hn _ hded => ?_⟩
        exact absurd hn (hflags.shared hded).1
      obtain ⟨⟨e', c', h₃⟩, hmod, rfl⟩ := Option.map_eq_some_iff.mp ha
      obtain ⟨hf₃, hc', hflags'⟩ := chainModify_frame hout hdedup' hf₂ hd hmod
      have hflags' := hflags'.elim id fun hs => nomatch hs.1
      exact ⟨hf₃, c', rfl, hc', (hflags.trans hflags').placed rfl (fun _ he => Or.inl he) id⟩

/-- The chain a block without one gets has no storage yet. -/
theorem Held.fresh (check : Nat) (hr : radixMin ≤ r) : Held P Old lsnap h₀ (.fresh check r) :=
  ⟨fun _ _ ha => absurd rfl ha.1, fun _ ha => absurd rfl ha.1, hr, rfl⟩

/-- The chain a write starts from. -/
def startChain (ip : Inode) (chain : Option Chain) (r : Nat) : Chain :=
  chain.getD (.fresh (ip.checkAlgo % 16) r)

/-- **Assigning storage** to a block. -/
theorem assignPhysical_frame {t : Tools} {ip : Inode} {f : Faults} {chain : Option Chain}
    {bs : Bytes} {a : Assigned} (hemerg : h₀.emerg = false) (hout : Outside P h₀)
    (hc : ∀ c, chain = some c → Ready P Old ip.lsnapTid h₀ c ∧ f.lookupError = 0)
    (hr : radixMin ≤ r) (hlen : bs.length = 2 ^ r)
    (hhits : HitsOk t h₀ (startChain ip chain r).check bs)
    (hnone : chain = none → ∀ off h₁, dedupLookup t.toHashes h₀ bs = some (some off, h₁) →
      ip.checkAlgo % 16 ≠ checkNone)
    (ha : assignPhysical t ip f h₀ chain bs mtid = some a) :
    Framed P h₀ a.dev ∧ ∀ c', a.chain = some c' → Held P Old ip.lsnapTid h₀ c' ∧
      Placed mtid (startChain ip chain r) a.errorp a.hit c' ∧ (c'.type = .inode → a.hit = false) := by
  unfold assignPhysical at ha
  split at ha
  · cases ha
  · split at ha
    · -- A hole.
      obtain ⟨⟨dedup, h₁⟩, hl, ha⟩ := Option.bind_eq_some_iff.mp ha
      obtain ⟨⟨e, oc, h₂⟩, hcre, rfl⟩ := Option.map_eq_some_iff.mp ha
      have hf₁ := (Framed.refl (P := P) hemerg).lookup hl
      unfold chainCreate at hcre
      split at hcre
      · obtain ⟨rfl, rfl, rfl⟩ := triple_inj (Option.some.inj hcre)
        exact ⟨hf₁, fun _ hc' => by cases hc'⟩
      · obtain ⟨⟨e', c', h₃⟩, hmod, hres⟩ := Option.map_eq_some_iff.mp hcre
        obtain ⟨rfl, rfl, rfl⟩ := triple_inj hres
        rw [hlen, getradix_pow hr] at hmod
        have hdedup : DedupOk h₀ (.fresh (ip.checkAlgo % 16) r) dedup :=
          ⟨fun off hoff => (hhits off h₁ (hoff ▸ hl)).1, fun _ _ hd => nomatch hd⟩
        obtain ⟨hf₂, hheld, hflags⟩ :=
          chainModify_frame hout hdedup hf₁
            (show Held P Old ip.lsnapTid h₀ _ from Held.fresh _ hr) hmod
        have hflags := hflags.elim id fun hs => nomatch hs.1
        refine ⟨hf₂, fun c'' hc'' => ?_⟩
        obtain rfl := Option.some.inj hc''
        refine ⟨hheld, hflags.placed rfl (fun hne _ => Or.inr ?_)
          (fun he => (Nat.or_eq_zero_iff.mp he).2), fun hi => nomatch hflags.type.symm.trans hi⟩
        obtain ⟨off, hoff⟩ := Option.ne_none_iff_exists'.mp hne
        rw [hflags.check]
        exact hnone rfl off h₁ (hoff ▸ hl)
    · rename_i c
      obtain ⟨hready, hlook⟩ := hc c rfl
      split at ha
      · -- The chain has an error.
        rename_i hne
        obtain rfl := Option.some.inj ha
        refine ⟨Framed.refl hemerg, fun c' hc' => ?_⟩
        obtain rfl := Option.some.inj hc'
        exact ⟨hready.held, (SameChain.refl _).placed hne hready.safe, fun _ => rfl⟩
      · split at ha
        · -- The data is embedded in the inode.
          obtain ⟨⟨e, c', h₁⟩, hmod, rfl⟩ := Option.map_eq_some_iff.mp ha
          obtain ⟨hf₁, hheld, hcase⟩ := chainModify_frame hout (DedupOk.none hready.space)
            (Framed.refl hemerg) hready.held hmod
          refine ⟨hf₁, fun c'' hc'' => ?_⟩
          obtain rfl := Option.some.inj hc''
          refine ⟨hheld, ?_, fun _ => rfl⟩
          show Placed mtid c (f.lookupError ||| e) false _
          rw [hlook, Nat.zero_or]
          rcases hcase with hflags | ⟨-, hne, hsame⟩
          · exact hflags.placed rfl (fun hne => absurd rfl hne) id
          · exact hsame.placed hne hready.safe
        · rename_i htype
          rw [hlook] at ha
          obtain ⟨hf₁, c', hc', hheld, hplaced⟩ :=
            assignData_frame hemerg hout hready hr hlen hhits ha
          refine ⟨hf₁, fun c'' hc'' => ?_⟩
          obtain rfl := Option.some.inj (hc'.symm.trans hc'')
          exact ⟨hheld, hplaced, fun hi => nomatch (hplaced.type.trans htype).symm.trans hi⟩
        · cases ha

/-- A hit of the assignment is one of the lookup. -/
theorem assignPhysical_hit {t : Tools} {ip : Inode} {f : Faults} {chain : Option Chain}
    {bs : Bytes} {a : Assigned} (ha : assignPhysical t ip f h chain bs mtid = some a)
    (hhit : a.hit = true) : ∃ off h₁, dedupLookup t.toHashes h bs = some (some off, h₁) := by
  have hsome : ∀ {dedup h₁}, dedupLookup t.toHashes h bs = some (dedup, h₁) → dedup.isSome = true →
      ∃ off h₁, dedupLookup t.toHashes h bs = some (some off, h₁) := by
    intro dedup h₁ hl hs
    obtain ⟨off, rfl⟩ := Option.isSome_iff_exists.mp hs
    exact ⟨off, h₁, hl⟩
  unfold assignPhysical at ha
  split at ha
  · cases ha
  · split at ha
    · obtain ⟨⟨dedup, h₁⟩, hl, ha⟩ := Option.bind_eq_some_iff.mp ha
      obtain ⟨_, -, rfl⟩ := Option.map_eq_some_iff.mp ha
      exact hsome hl hhit
    · split at ha
      · obtain rfl := Option.some.inj ha
        cases hhit
      · split at ha
        · obtain ⟨_, -, rfl⟩ := Option.map_eq_some_iff.mp ha
          cases hhit
        · unfold assignData at ha
          obtain ⟨⟨dedup, h₁⟩, hl, ha⟩ := Option.bind_eq_some_iff.mp ha
          simp only at ha
          split at ha
          · obtain ⟨_, -, rfl⟩ := Option.map_eq_some_iff.mp ha
            exact hsome hl hhit
          · obtain ⟨_, -, ha⟩ := Option.bind_eq_some_iff.mp ha
            split at ha
            · obtain rfl := Option.some.inj ha
              exact hsome hl hhit
            · obtain ⟨_, -, rfl⟩ := Option.map_eq_some_iff.mp ha
              exact hsome hl hhit
        · cases ha

/-! ## Finishing the write -/

/-- When nothing of a dedup hit is left to do, the chain is what a write leaves. -/
theorem Placed.left (h : Placed mtid c₀ errorp hit c) (hheld : Held P Old lsnap h₀ c)
    (hdone : errorp ≠ 0 ∨ hit = false) : Left P Old lsnap mtid h₀ c₀ c := by
  refine ⟨hheld, fun hd => ?_, h.type, h.tid, h.kept⟩
  rcases h.safe hd with hs | ⟨he, hh⟩
  · exact hs
  · rcases hdone with hne | hno
    · exact absurd he hne
    · exact absurd (hh.symm.trans hno) (by decide)

/-- After a dedup hit only methods and check code are set. -/
theorem Placed.shared {t : Tools} {ip : Inode} {comp : Nat} {bs : Bytes}
    (h : Placed mtid c₀ 0 hit c) (hheld : Held P Old lsnap h₀ c)
    (hcheck : ip.checkAlgo % 16 ≠ checkNone) (hfin : finishDedup t ip c comp bs = some c') :
    Left P Old lsnap mtid h₀ c₀ c' := by
  obtain ⟨d, hs, rfl⟩ := Option.map_eq_some_iff.mp hfin
  have hd := setcheck_spec hs
  rw [hd]
  exact ⟨hheld.flags (h.flagged rfl) rfl rfl rfl (fun hi => nomatch hi), fun _ => hcheck, h.type,
    h.tid, fun hu => absurd ((h.updated rfl).symm.trans hu) (by decide)⟩

/-- Recording a block: nothing, or its masks and one table entry, for a chain with a
check code. -/
theorem dedupRecord_cases (p : Hashes) (h : Dev) (c : Chain) (bs : Bytes) :
    dedupRecord p h c bs = (c, h) ∨
      c.check ≠ checkNone ∧ (dedupRecord p h c bs).1 = { c with dedupable := true } ∧
        (∀ u, (dedupRecord p h c bs).2.dedupValid u = (h.dedupValid u || c.dataOff.mask u)) ∧
        ∀ i, ((dedupRecord p h c bs).2.heurDedup i).dataOff = (h.heurDedup i).dataOff ∨
          ((dedupRecord p h c bs).2.heurDedup i).dataOff = c.dataOff := by
  unfold dedupRecord
  split
  · exact Or.inl rfl
  · split
    · exact Or.inl rfl
    · rename_i crc hcrc
      refine Or.inr ⟨fun hnone => ?_, rfl, fun _ => rfl, fun i => ?_⟩
      · unfold dedupCrc at hcrc
        simp [hnone] at hcrc
      · show (if i = _ then (⟨c.dataOff, crc, h.ticks⟩ : Dedup) else h.heurDedup i).dataOff = _ ∨
          (if i = _ then (⟨c.dataOff, crc, h.ticks⟩ : Dedup) else h.heurDedup i).dataOff = _
        split
        · exact Or.inr rfl
        · exact Or.inl rfl

/-- **Copying the bytes** goes to owned storage, which is recorded for dedup and then
not owned any more. -/
theorem writeData_frame {t : Tools} {ip : Inode} {comp : Nat} {bs : Bytes}
    (hf : Framed P h₀ h) (hheld : Held P Old lsnap h₀ c) (hp : Placed mtid c₀ 0 false c)
    (hw : writeData t ip h c comp bs = some (error, c', h')) :
    BlockFrame P Old lsnap mtid h₀ c₀ (some c') h' := by
  obtain ⟨hmo, hded⟩ := hp.plain rfl rfl
  have hown : c.Owns lsnap := by
    refine Or.inr ?_
    unfold newmod
    rw [if_pos hmo, hded]
  unfold writeData at hw
  obtain ⟨⟨e, h₁⟩, hg, hw⟩ := Option.bind_eq_some_iff.mp hw
  have hread : Dop.newnz = .new → ∀ a, c.dataOff.Has a → ¬ P a := fun hop => nomatch hop
  have hf₁ := hf.getblk hread hg
  simp only at hw
  split at hw
  · obtain ⟨rfl, rfl, rfl⟩ := triple_inj (Option.some.inj hw)
    refine hf₁.block_frame fun d hd => ?_
    obtain rfl := Option.some.inj hd
    exact hp.left hheld (Or.inr rfl)
  · obtain ⟨d, hs, hres⟩ := Option.map_eq_some_iff.mp hw
    have hd := setcheck_spec hs
    obtain ⟨rfl, rfl, rfl⟩ := triple_inj hres
    have hlen : (bs.take c.bytes).length ≤ c.dataOff.bytes :=
      Nat.le_trans (Nat.le_of_eq List.length_take) (Nat.min_le_left ..)
    have hbase := ioOk_base (getblk_spec hg).ioOk
    have hf₂ := hf₁.store hbase (hheld.owned hown) hlen
    -- The chain before it is recorded, as it owns its storage by its flags.
    have hkept : Left P Old lsnap mtid h₀ c₀ { d with initial := false } := by
      rw [hd]
      exact ⟨hheld.flags (Or.inl hmo) rfl rfl rfl (fun hi => nomatch hi),
        fun hb => absurd (hded.symm.trans hb) (by decide), hp.type, hp.tid,
        fun hu => absurd ((hp.updated rfl).symm.trans hu) (by decide)⟩
    have hmod : d.modified = true := by
      rw [hd]
      exact hmo
    rcases dedupRecord_cases t.toHashes (h₁.store c.dataOff (bs.take c.bytes))
      { d with initial := false } ((h₁.store c.dataOff (bs.take c.bytes)).block d.dataOff)
      with heq | ⟨hcheck, hchain, hvalid, hheur⟩
    · rw [heq]
      refine hf₂.block_frame fun d' hd' => ?_
      obtain rfl := Option.some.inj hd'
      exact hkept
    · obtain ⟨hsame, -⟩ := dedupRecord_spec t.toHashes (h₁.store c.dataOff (bs.take c.bytes))
        { d with initial := false } ((h₁.store c.dataOff (bs.take c.bytes)).block d.dataOff)
      rw [hchain]
      have hbase : d.dataOff.base ≠ 0 := by
        rw [hd]
        exact hbase
      have hno : ¬ ({ d with initial := false, dedupable := true } : Chain).Owns lsnap := by
        rintro (hi | hn)
        · cases hi
        · unfold newmod at hn
          simp [hmod] at hn
      refine ⟨hsame.emerg.trans hf₂.emerg, fun a ha => (congrFun hsame.mem a).trans (hf₂.mem a ha),
        fun u hu => ?_, fun i => ?_, fun d' hd' => ?_⟩
      · rw [hvalid] at hu
        rcases Bool.or_eq_true_iff.mp hu with hu | hu
        · exact Or.inl (hf₂.valid u hu)
        · exact Or.inr ⟨_, rfl, hno, hbase, hu⟩
      · exact (hheur i).imp (fun hi => hi.trans (hf₂.heur i)) fun hi => ⟨_, rfl, hi⟩
      · obtain rfl := Option.some.inj hd'
        exact ⟨⟨fun ho => absurd ho hno, hkept.held.source, hkept.held.sized⟩, fun _ => hcheck,
          hkept.type, hkept.tid, fun hu => (hkept.kept hu).trans ⟨rfl, rfl, rfl, rfl, rfl⟩⟩

/-- **Embedding** writes the inode, which is owned. -/
theorem embed_frame {bs : Bytes} (hf : Framed P h₀ h) (hheld : Held P Old lsnap h₀ c)
    (hmo : c.modified = true) (hded : c.dedupable = false) (hbase : c.dataOff.base ≠ 0)
    (he : h.embed c bs = some h') : Framed P h₀ h' := by
  have hown : c.Owns lsnap := by
    refine Or.inr ?_
    unfold newmod
    rw [if_pos hmo, hded]
  have hbytes : allocMin ≤ c.dataOff.bytes := by
    unfold DataOff.bytes
    rw [if_neg (fun hz => absurd (hz ▸ hheld.sized.1) (by decide))]
    exact Nat.le_trans (by decide) (Nat.pow_le_pow_right (by decide) hheld.sized.1)
  unfold Dev.embed at he
  split at he
  · obtain rfl := Option.some.inj he
    refine hf.write (n := embeddedBytes) (fun a hl hu => ?_) (List.length_take_le ..)
    simp only [embeddedOff, embeddedBytes, allocMin] at hl hu hbytes
    exact hheld.owned hown a ⟨hbase, by omega, by omega⟩
  · cases he

/-- Modifying an inode once more, after its storage is assigned. -/
theorem Placed.modified {c' : Chain} (h : Placed mtid c₀ 0 false c)
    (hflags : ModFlags c mtid none error c' ∨ false = false ∧ error ≠ 0 ∧ SameChain c c') :
    Placed mtid c₀ error false c' := by
  obtain ⟨hmo, hded⟩ := h.plain rfl rfl
  rcases hflags with hf | ⟨-, hne, hsame⟩
  · have hnot : c'.dedupable = false := by
      cases hd : c'.dedupable with
      | false => rfl
      | true => exact absurd rfl (hf.shared hd).1
    exact ⟨hf.type.trans h.type, hf.tid.elim (fun ht => ht ▸ h.tid) Or.inr,
      fun hu => absurd ((h.updated rfl).symm.trans ((hf.kept hu).update.symm.trans hu)) (by decide),
      fun hd => absurd (hnot.symm.trans hd) (by decide), hf.updated,
      fun he _ => ⟨hf.plain rfl he, hnot⟩, hf.flagged, hf.based⟩
  · exact ⟨hsame.type.trans h.type, hsame.modifyTid ▸ h.tid,
      fun hu => absurd ((hsame.update.trans (h.updated rfl)).symm.trans hu) (by decide),
      fun hd => absurd ((hsame.dedupable.trans hded).symm.trans hd) (by decide),
      fun he => absurd he hne, fun he => absurd he hne, fun he => absurd he hne,
      fun he => absurd he hne⟩

/-- `zero_write` deletes the chain, or clears the inode. -/
theorem zeroWrite_frame {t : Tools} {ip : Inode} {f : Faults} {chain : Option Chain} {w : Written}
    (hemerg : h₀.emerg = false) (hout : Outside P h₀)
    (hc : ∀ c, chain = some c → Ready P Old ip.lsnapTid h₀ c ∧ f.lookupError = 0)
    (hw : zeroWrite t ip f h₀ chain mtid = some w) :
    BlockFrame P Old ip.lsnapTid mtid h₀ (startChain ip chain r) w.chain w.dev := by
  have hf : Framed P h₀ h₀ := Framed.refl hemerg
  unfold zeroWrite at hw
  split at hw
  · obtain rfl := Option.some.inj hw
    exact hf.block_frame fun _ hd => by cases hd
  · rename_i c
    obtain ⟨hready, hlook⟩ := hc c rfl
    have hsame : Left P Old ip.lsnapTid mtid h₀ c c :=
      ⟨hready.held, hready.safe, rfl, Or.inl rfl, fun _ => ⟨rfl, rfl, rfl, rfl, rfl⟩⟩
    split at hw
    · split at hw
      · rename_i hne
        exact absurd hlook hne
      · obtain ⟨⟨e, c', h₁⟩, hmod, hw⟩ := Option.bind_eq_some_iff.mp hw
        obtain ⟨hf₁, hheld, hcase⟩ :=
          chainModify_frame hout (DedupOk.none hready.space) hf hready.held hmod
        have hplaced : Placed mtid c e false c' := by
          rcases hcase with hflags | ⟨-, hne, hs⟩
          · exact hflags.placed rfl (fun hne => absurd rfl hne) id
          · exact hs.placed hne hready.safe
        have hleft := hplaced.left hheld (Or.inr rfl)
        simp only at hw
        split at hw
        · obtain rfl := Option.some.inj hw
          refine hf₁.block_frame fun d hd => ?_
          obtain rfl := Option.some.inj hd
          exact hleft
        · rename_i hz
          obtain ⟨h', hem, rfl⟩ := Option.map_eq_some_iff.mp hw
          have hz := Decidable.not_not.mp hz
          obtain ⟨hmo, hded⟩ := hplaced.plain hz rfl
          refine (embed_frame hf₁ hheld hmo hded (hplaced.based hz) hem).block_frame fun d hd => ?_
          obtain rfl := Option.some.inj hd
          exact hleft
    · obtain rfl := Option.some.inj hw
      refine hf.block_frame fun d hd => ?_
      simp only at hd
      split at hd
      · cases hd
      · obtain rfl := Option.some.inj hd
        exact hsame

/-- **What writing a block may touch.** -/
theorem writeFileCore_frame {t : Tools} {ip : Inode} {f : Faults} {chain : Option Chain}
    {data : Bytes} {w : Written} (hemerg : h₀.emerg = false) (hout : Outside P h₀)
    (hc : ∀ c, chain = some c → Ready P Old ip.lsnapTid h₀ c ∧ f.lookupError = 0)
    (hr : radixMin ≤ r ∧ r ≤ radixMax) (hlen : data.length = 2 ^ r)
    (hhits : ∀ comp bs, stored t ip data = some (comp, bs) →
      HitsOk t h₀ (startChain ip chain r).check bs)
    (hnone : ∀ comp bs off h₁, stored t ip data = some (comp, bs) →
      dedupLookup t.toHashes h₀ bs = some (some off, h₁) → ip.checkAlgo % 16 ≠ checkNone)
    (hw : writeFileCore t ip f h₀ chain data mtid = some w) :
    ∃ r, radixMin ≤ r ∧ BlockFrame P Old ip.lsnapTid mtid h₀ (startChain ip chain r) w.chain w.dev := by
  -- What the assignment leaves, for the bytes that are stored.
  have hassign : ∀ {comp bs a}, stored t ip data = some (comp, bs) →
      assignPhysical t ip f h₀ chain bs mtid = some a → ∃ r, radixMin ≤ r ∧ Framed P h₀ a.dev ∧
        ∀ c', a.chain = some c' → Held P Old ip.lsnapTid h₀ c' ∧
          Placed mtid (startChain ip chain r) a.errorp a.hit c' ∧ (c'.type = .inode → a.hit = false) := by
    intro comp bs a hst ha
    obtain ⟨r', hr', -, hlen'⟩ := (stored_spec hr hlen hst).size
    have hcheck : (startChain ip chain r').check = (startChain ip chain r).check := by
      cases chain <;> rfl
    exact ⟨r', hr', assignPhysical_frame hemerg hout hc hr' hlen' (hcheck ▸ hhits comp bs hst)
      (fun _ off h₁ hl => hnone comp bs off h₁ hst hl) ha⟩
  cases writeFileCore_path hw with
  | hole _ hzero => exact ⟨r, hr.1, zeroWrite_frame hemerg hout hc hzero⟩
  | failed _ hst ha hne =>
      obtain ⟨r', hr', hf, hchain⟩ := hassign hst ha
      refine ⟨r', hr', hf.block_frame fun c' hc' => ?_⟩
      obtain ⟨hheld, hplaced, -⟩ := hchain c' hc'
      exact hplaced.left hheld (Or.inl hne)
  | embedded _ hst ha he hca htype hem =>
      obtain ⟨r', hr', hf, hchain⟩ := hassign hst ha
      obtain ⟨hheld, hplaced, hmiss⟩ := hchain _ hca
      obtain ⟨hmo, hded⟩ := hplaced.plain he (hmiss htype)
      refine ⟨r', hr', (embed_frame hf hheld hmo hded (hplaced.based he) hem).block_frame fun d hd => ?_⟩
      obtain rfl := Option.some.inj hd
      exact hplaced.left hheld (Or.inr (hmiss htype))
  | modified _ hst ha he hca htype hm herr hwc hdev =>
      obtain ⟨r', hr', hf, hchain⟩ := hassign hst ha
      obtain ⟨hheld, hplaced, hmiss⟩ := hchain _ hca
      rw [he, hmiss htype] at hplaced
      have hspace : SpaceOk h₀ _ := fun _ hd =>
        absurd ((hplaced.plain rfl rfl).2.symm.trans hd) (by decide)
      obtain ⟨hf', hheld', hcase⟩ := chainModify_frame hout (DedupOk.none hspace) hf hheld hm
      have hplaced' := hplaced.modified hcase
      refine ⟨r', hr', ?_⟩
      have hframed : Framed P h₀ w.dev := by
        split at hdev
        · rw [hdev]
          exact hf'
        · rename_i hz
          have hz := Decidable.not_not.mp hz
          obtain ⟨hmo, hded⟩ := hplaced'.plain hz rfl
          exact embed_frame hf' hheld' hmo hded (hplaced'.based hz) hdev
      refine hframed.block_frame fun d hd => ?_
      obtain rfl := Option.some.inj (hwc.symm.trans hd)
      exact hplaced'.left hheld' (Or.inr rfl)
  | shared _ hst ha he hca hhit hfin =>
      obtain ⟨r', hr', hf, hchain⟩ := hassign hst ha
      obtain ⟨hheld, hplaced, -⟩ := hchain _ hca
      rw [he] at hplaced
      obtain ⟨off, h₁, hl⟩ := assignPhysical_hit ha hhit
      refine ⟨r', hr', hf.block_frame fun d hd => ?_⟩
      obtain rfl := Option.some.inj hd
      exact hplaced.shared hheld (hnone _ _ off h₁ hst hl) hfin
  | copied _ hst ha he hca hmiss htype _ hwd =>
      obtain ⟨r', hr', hf, hchain⟩ := hassign hst ha
      obtain ⟨hheld, hplaced, -⟩ := hchain _ hca
      rw [he, hmiss] at hplaced
      exact ⟨r', hr', writeData_frame hf hheld hplaced hwd⟩

end

end Hammer2.File
