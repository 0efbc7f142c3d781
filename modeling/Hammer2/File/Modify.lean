/-
# `Hammer2.File.Modify` — `hammer2_chain_modify` and what is built on it

`chainModify` makes a chain modifiable: it gets new storage, or keeps its own when
`newmod` is false, or takes the storage a dedup hit names.  `chainResize` gives it
another size, `chainCreate` makes the chain of a block that has none.

The lemmas say what each step does to the chain and to the memory: loading
(`chainLoadData_spec`), a modification for a dedup hit (`modifyLoaded_hit`), and one
without (`chainModify_plain`).
-/
import Hammer2.File.Device

namespace Hammer2.File

/-! ## The functions -/

/-- `hammer2_chain_load_data`. -/
def chainLoadData (p : Hashes) (h : Dev) (c : Chain) : Option (Chain × Dev) :=
  if c.data = true ∨ c.dataOff.base = 0 then some (c, h)
  else (h.getblk c.dataOff (if c.initial then .new else .read)).bind fun (error, h) =>
    if error ≠ 0 then some ({ c with error := errorEio }, h)
    else
      let c := { c with error := 0, data := true }
      if c.initial then some ({ c with initial := false, notTested := true }, h)
      else if c.modified ∨ c.testedGood then some (c, h)
      else (testcheck p c (h.block c.dataOff)).map fun ok =>
        if ok then ({ c with testedGood := true }, h) else ({ c with error := errorCheck }, h)

/-- `newmod`: the modification needs new storage. -/
def newmod (emerg : Bool) (lsnap : Nat) (c : Chain) : Bool :=
  if c.modified then c.dedupable
  else if (c.type = .data ∨ c.type = .dirent) ∧ c.initial = false ∧ c.dedupable = false ∧
      c.check = checkNone ∧ lsnap < c.modifyTid then false
  else if emerg = true ∧ lsnap < c.modifyTid then false
  else true

/-- The allocation, or the deduplication, of a modification. -/
def modifyStorage (h : Dev) (c : Chain) (isNew : Bool) (dedup : Option DataOff) :
    Option (Nat × Chain × Dev) :=
  if c.bytes ≠ 0 ∧ (c.dataOff.base = 0 ∨ isNew = true) then
    match dedup with
    | some off =>
        some (0, { c with dataOff := off, error := 0, modified := false, dedupable := true }, h)
    | none => (freemapAlloc h c c.dataOff.radix).map fun (error, c, h) =>
        let c := { c with dedupable := false }
        -- In emergency mode the block is used again when there is no space.
        if error ≠ 0 ∧ h.emerg = true then (0, { c with emergMip := true }, h)
        else if error = 0 then (0, { c with emergMip := false }, h)
        else (error, c, h)
  else some (0, c, h)

/-- The data of a modification: zero-fill, copy from the storage before (`old`), or
nothing after a deduplication. -/
def modifyData (h : Dev) (old : DataOff) (c : Chain) (dedup : Option DataOff) :
    Option (Chain × Dev) :=
  let wasinitial := c.initial
  let c := { c with initial := false }
  if c.type = .dirent ∧ c.bytes = 0 then some (c, h)
  else (h.getblk c.dataOff (if wasinitial = true ∧ dedup = none then .new else .read)).bind
    fun (error, h) =>
      if error ≠ 0 then some ({ c with error := errorEio, data := false }, h)
      else if c.data then
        some ({ c with error := 0 },
          if c.dataOff.base ≠ old.base ∧ dedup = none then
            h.store c.dataOff (Memory.read h.mem old.base c.bytes)
          else h)
      -- "no CoW data"
      else if wasinitial = false ∧ dedup = none then none
      else some ({ c with error := 0, data := true }, h)

/-- The condition under which a modification loads the data first. -/
def Chain.needsLoad (c : Chain) (optdata : Bool) : Prop :=
  c.data = false ∧ c.bytes ≠ 0 ∧ optdata = false ∧ c.dataOff.base ≠ 0

instance (c : Chain) (optdata : Bool) : Decidable (c.needsLoad optdata) :=
  inferInstanceAs (Decidable (_ ∧ _))

/-- The tids and flags a modification sets. -/
def Chain.stamp (c : Chain) (mirrorTid mtid : Nat) : Chain :=
  { c with
    mirrorTid := mirrorTid + 1
    modifyTid := if mtid = 0 then c.modifyTid else mtid
    blkmapupd := c.blkmapupd || c.blkmapped }

/-- `hammer2_chain_modify` once the data is there.  `lsnap` is the `pfs_lsnap_tid`
of the PFS of the chain, `optdata` is `HAMMER2_MODIFY_OPTDATA`. -/
def modifyLoaded (lsnap : Nat) (h : Dev) (c : Chain) (mtid : Nat) (dedup : Option DataOff)
    (optdata : Bool) : Option (Nat × Chain × Dev) :=
  (modifyStorage h { c with modified := true, update := true } (newmod h.emerg lsnap c) dedup).bind
    fun (error, d, h) =>
      if error ≠ 0 then some (error, { d with modified := c.modified, update := c.update }, h)
      else
        let d := d.stamp h.mirrorTid mtid
        if d.type = .data ∧ optdata = true ∧ d.data = false ∧ dedup = none then
          some (d.error, d, h)
        else (modifyData h c.dataOff d dedup).map fun (d, h) => (d.error, d, h)

/-- `hammer2_chain_modify`. -/
def chainModify (p : Hashes) (lsnap : Nat) (h : Dev) (c : Chain) (mtid : Nat)
    (dedup : Option DataOff) (optdata : Bool) : Option (Nat × Chain × Dev) :=
  if c.needsLoad optdata then
    (chainLoadData p h c).bind fun (c, h) =>
      if c.error ≠ 0 then some (c.error, c, h) else modifyLoaded lsnap h c mtid dedup optdata
  else modifyLoaded lsnap h c mtid dedup optdata

/-- `hammer2_chain_resize`. -/
def chainResize (p : Hashes) (lsnap : Nat) (h : Dev) (c : Chain) (mtid : Nat)
    (dedup : Option DataOff) (nradix : Nat) : Option (Nat × Chain × Dev) :=
  if c.type = .inode then none
  else if c.bytes = (if nradix = 0 then 0 else 2 ^ nradix) then some (c.error, c, h)
  else (chainModify p lsnap h c mtid dedup false).bind fun (error, c, h) =>
    if error ≠ 0 then some (error, c, h)
    else (freemapAlloc h c nradix).map fun (error, c, h) =>
      if error ≠ 0 then (error, c, h) else (c.error, { c with data := false }, h)

/-- The chain `hammer2_chain_create` starts from. -/
def Chain.fresh (check radix : Nat) : Chain where
  type := .data
  dataOff := ⟨0, radix⟩
  comp := compNone
  check := check
  checkVal := 0
  mirrorTid := 0
  modifyTid := 0
  modified := false
  update := false
  dedupable := false
  initial := true
  blkmapped := false
  blkmapupd := false
  emergMip := false
  notTested := false
  testedGood := false
  data := false
  error := 0

/-- `hammer2_chain_create` of a data block; `createError` is the error of making
room for its blockref. -/
def chainCreate (p : Hashes) (lsnap : Nat) (h : Dev) (createError check radix mtid : Nat)
    (dedup : Option DataOff) : Option (Nat × Option Chain × Dev) :=
  if createError ≠ 0 then some (createError, none, h)
  else (chainModify p lsnap h (.fresh check radix) mtid dedup true).map fun (error, c, h) =>
    (error, some c, h)

/-! ## Device steps -/

/-- What acquiring a device buffer does: only `new` writes, and only the block. -/
structure GetblkSpec (h : Dev) (off : DataOff) (op : Dop) (error : Nat) (h' : Dev) : Prop where
  ioOk : off.ioOk
  bad : h'.bad = h.bad
  freemap : h'.freemap = h.freemap
  mirrorTid : h'.mirrorTid = h.mirrorTid
  emerg : h'.emerg = h.emerg
  dedupEnable : h'.dedupEnable = h.dedupEnable
  dedupAlloc : h'.dedupAlloc = h.dedupAlloc
  dedupValid : h'.dedupValid = h.dedupValid
  heurDedup : h'.heurDedup = h.heurDedup
  outside : ∀ a, (op = .new → ¬ (off.base ≤ a ∧ a < off.base + off.bytes)) → h'.mem a = h.mem a
  done : error = 0 → h'.mem =
    if op = .new then Memory.write h.mem off.base (List.replicate off.bytes 0) else h.mem

theorem getblk_spec {h h' : Dev} {off : DataOff} {op : Dop} {error : Nat}
    (hg : h.getblk off op = some (error, h')) : GetblkSpec h off op error h' := by
  unfold Dev.getblk at hg
  split at hg
  · rename_i hio
    simp only at hg
    split at hg
    · obtain ⟨rfl, rfl⟩ := Prod.mk.inj (Option.some.inj hg)
      exact ⟨hio, rfl, rfl, rfl, rfl, rfl, rfl, rfl, rfl, fun _ _ => rfl,
        fun he => absurd he (by decide)⟩
    · split at hg
      · rename_i hop
        obtain ⟨rfl, rfl⟩ := Prod.mk.inj (Option.some.inj hg)
        refine ⟨hio, rfl, rfl, rfl, rfl, rfl, rfl, rfl, rfl, fun a ha => ?_,
          fun _ => (if_pos hop).symm⟩
        have hout := ha hop
        rcases Nat.lt_or_ge a off.base with hlt | hge
        · exact Memory.write_below hlt
        · refine Memory.write_above ?_
          rw [List.length_replicate]
          omega
      · rename_i hop
        obtain ⟨rfl, rfl⟩ := Prod.mk.inj (Option.some.inj hg)
        exact ⟨hio, rfl, rfl, rfl, rfl, rfl, rfl, rfl, rfl, fun _ _ => rfl,
          fun _ => (if_neg hop).symm⟩
  · cases hg

/-- Reading keeps the memory. -/
theorem GetblkSpec.mem_of_ne_new {h h' : Dev} {off : DataOff} {op : Dop} {error : Nat}
    (hg : GetblkSpec h off op error h') (hop : op ≠ .new) : h'.mem = h.mem :=
  funext fun a => hg.outside a fun hn => absurd hn hop

/-- An answer of the allocator, or no space. -/
theorem freemapAlloc_spec {h h' : Dev} {c c' : Chain} {radix error : Nat}
    (ha : freemapAlloc h c radix = some (error, c', h')) :
    (error ≠ 0 ∧ none ∈ h.freemap ∧ c' = c ∧ ∃ answers, h.freemap = none :: answers ∧
        h' = { h with freemap := answers }) ∨
    (error = 0 ∧ ∃ off answers, h.freemap = some off :: answers ∧ off.radix = radix ∧
        off.base ≠ 0 ∧ c' = { c with dataOff := off } ∧
        h' = if c.type = .data then ({ h with freemap := answers } : Dev).dedupSet off
          else { h with freemap := answers }) := by
  unfold freemapAlloc at ha
  split at ha
  · cases ha
  · split at ha
    · cases ha
    · rename_i answers hf
      obtain ⟨rfl, hrest⟩ := Prod.mk.inj (Option.some.inj ha)
      obtain ⟨rfl, rfl⟩ := Prod.mk.inj hrest
      exact Or.inl ⟨by decide, by rw [hf]; exact List.mem_cons_self .., rfl, answers, hf, rfl⟩
    · rename_i off answers hf
      split at ha
      · cases ha
      · rename_i hok
        obtain ⟨rfl, hrest⟩ := Prod.mk.inj (Option.some.inj ha)
        obtain ⟨rfl, rfl⟩ := Prod.mk.inj hrest
        have hok := not_or.mp hok
        refine Or.inr ⟨rfl, off, answers, hf, Decidable.not_not.mp hok.1, fun hz => hok.2 ?_, rfl, rfl⟩
        rw [hz]
        decide

/-! ## What a modification does to the chain -/

/-- What loading keeps of the chain. -/
structure SameChain (c c' : Chain) : Prop where
  type : c'.type = c.type
  dataOff : c'.dataOff = c.dataOff
  comp : c'.comp = c.comp
  check : c'.check = c.check
  modifyTid : c'.modifyTid = c.modifyTid
  modified : c'.modified = c.modified
  update : c'.update = c.update
  dedupable : c'.dedupable = c.dedupable

/-- The memory after `hammer2_chain_load_data`: storage of an `INITIAL` chain is
zero-filled. -/
def Dev.loadedMem (h : Dev) (c : Chain) : Nat → UInt8 :=
  if c.initial then Memory.write h.mem c.dataOff.base (List.replicate c.dataOff.bytes 0)
  else h.mem

/-- **Loading** keeps the chain apart from its data, and clears `INITIAL`. -/
theorem chainLoadData_spec {p : Hashes} {h h' : Dev} {c c' : Chain} (hdata : c.data = false)
    (hbase : c.dataOff.base ≠ 0) (hl : chainLoadData p h c = some (c', h')) :
    SameChain c c' ∧ h'.dedupAlloc = h.dedupAlloc ∧ h'.dedupValid = h.dedupValid ∧
      h'.freemap = h.freemap ∧ h'.emerg = h.emerg ∧
      (∀ a, (c.initial = true → ¬ (c.dataOff.base ≤ a ∧ a < c.dataOff.base + c.dataOff.bytes)) →
        h'.mem a = h.mem a) ∧
      (c'.error = 0 → c'.initial = false ∧ c'.data = true ∧ h'.mem = h.loadedMem c) := by
  unfold chainLoadData at hl
  rw [if_neg (fun hor => hor.elim (by rw [hdata]; decide) hbase)] at hl
  obtain ⟨⟨error, h₁⟩, hg, hl⟩ := Option.bind_eq_some_iff.mp hl
  have hblk := getblk_spec hg
  have halloc := hblk.dedupAlloc
  have hvalid := hblk.dedupValid
  have hfree := hblk.freemap
  have hemerg := hblk.emerg
  have hop : (if c.initial = true then Dop.new else Dop.read) = .new ↔ c.initial = true := by
    cases c.initial <;> simp
  have hmem' : ∀ a, (c.initial = true →
      ¬ (c.dataOff.base ≤ a ∧ a < c.dataOff.base + c.dataOff.bytes)) → h₁.mem a = h.mem a :=
    fun a ha => hblk.outside a fun hnew => ha (hop.mp hnew)
  have hloaded : error = 0 → h₁.mem = h.loadedMem c := by
    intro he
    rw [hblk.done he]
    simp only [hop]
    rfl
  simp only at hl
  split at hl
  · obtain ⟨rfl, rfl⟩ := Prod.mk.inj (Option.some.inj hl)
    exact ⟨⟨rfl, rfl, rfl, rfl, rfl, rfl, rfl, rfl⟩, halloc, hvalid, hfree, hemerg, hmem',
      fun he => nomatch he⟩
  · rename_i he
    have hload := hloaded (Decidable.not_not.mp he)
    split at hl
    · obtain ⟨rfl, rfl⟩ := Prod.mk.inj (Option.some.inj hl)
      exact ⟨⟨rfl, rfl, rfl, rfl, rfl, rfl, rfl, rfl⟩, halloc, hvalid, hfree, hemerg, hmem',
        fun _ => ⟨rfl, rfl, hload⟩⟩
    · rename_i hinit
      have hinit : c.initial = false := Bool.not_eq_true _ ▸ hinit
      split at hl
      · obtain ⟨rfl, rfl⟩ := Prod.mk.inj (Option.some.inj hl)
        exact ⟨⟨rfl, rfl, rfl, rfl, rfl, rfl, rfl, rfl⟩, halloc, hvalid, hfree, hemerg, hmem',
          fun _ => ⟨hinit, rfl, hload⟩⟩
      · obtain ⟨ok, -, hok⟩ := Option.map_eq_some_iff.mp hl
        cases ok with
        | true =>
            obtain ⟨rfl, rfl⟩ := Prod.mk.inj hok
            exact ⟨⟨rfl, rfl, rfl, rfl, rfl, rfl, rfl, rfl⟩, halloc, hvalid, hfree, hemerg, hmem',
              fun _ => ⟨hinit, rfl, hload⟩⟩
        | false =>
            obtain ⟨rfl, rfl⟩ := Prod.mk.inj hok
            exact ⟨⟨rfl, rfl, rfl, rfl, rfl, rfl, rfl, rfl⟩, halloc, hvalid, hfree, hemerg, hmem',
              fun he => nomatch he⟩

/-- What a modification that is a deduplication does: the chain takes the storage of
the hit when it needs new storage, and keeps its own otherwise. -/
structure HitModify (lsnap : Nat) (h : Dev) (c : Chain) (mtid : Nat) (off : DataOff) (h' : Dev)
    (c' : Chain) : Prop where
  type : c'.type = c.type
  mem : h'.mem = h.mem
  freemap : h'.freemap = h.freemap
  emerg : h'.emerg = h.emerg
  modifyTid : c'.modifyTid = if mtid = 0 then c.modifyTid else mtid
  initial : c'.initial = false
  honoured : c.dataOff.base = 0 ∨ newmod h.emerg lsnap c = true →
    c'.dataOff = off ∧ c'.modified = false ∧ c'.dedupable = true
  ignored : ¬ (c.dataOff.base = 0 ∨ newmod h.emerg lsnap c = true) →
    c'.dataOff = c.dataOff ∧ c'.modified = true ∧ c'.dedupable = c.dedupable

/-- The data stage of a deduplication reads the block and changes nothing. -/
theorem modifyData_hit {h h' : Dev} {old off : DataOff} {c c' : Chain} (htype : c.type = .data)
    (hm : modifyData h old c (some off) = some (c', h')) :
    h'.mem = h.mem ∧ h'.freemap = h.freemap ∧ h'.emerg = h.emerg ∧
      c' = { c with initial := false, data := c'.data, error := c'.error } := by
  unfold modifyData at hm
  simp only at hm
  rw [if_neg (fun hd => absurd (htype.symm.trans hd.1) (by decide))] at hm
  obtain ⟨⟨error, h₁⟩, hg, hm⟩ := Option.bind_eq_some_iff.mp hm
  have hblk := getblk_spec hg
  have hmem : h₁.mem = h.mem := hblk.mem_of_ne_new (by rw [if_neg (fun hn => nomatch hn.2)]; decide)
  simp only at hm
  split at hm
  · obtain ⟨rfl, rfl⟩ := Prod.mk.inj (Option.some.inj hm)
    exact ⟨hmem, hblk.freemap, hblk.emerg, rfl⟩
  · split at hm
    · rw [if_neg (fun hn => nomatch hn.2)] at hm
      obtain ⟨rfl, rfl⟩ := Prod.mk.inj (Option.some.inj hm)
      exact ⟨hmem, hblk.freemap, hblk.emerg, rfl⟩
    · rw [if_neg (fun hn => nomatch hn.2)] at hm
      obtain ⟨rfl, rfl⟩ := Prod.mk.inj (Option.some.inj hm)
      exact ⟨hmem, hblk.freemap, hblk.emerg, rfl⟩

/-- The storage of a deduplication: that of the hit, or the chain's own. -/
theorem modifyStorage_hit (h : Dev) {c : Chain} (isNew : Bool) (off : DataOff)
    (hbytes : c.bytes ≠ 0) :
    modifyStorage h c isNew (some off) = some (0,
      if c.dataOff.base = 0 ∨ isNew = true then
        { c with dataOff := off, error := 0, modified := false, dedupable := true }
      else c, h) := by
  unfold modifyStorage
  by_cases hnew : c.dataOff.base = 0 ∨ isNew = true
  · rw [if_pos ⟨hbytes, hnew⟩, if_pos hnew]
  · rw [if_neg (fun hn => hnew hn.2), if_neg hnew]

/-- **Modifying for a dedup hit**, with the data there. -/
theorem modifyLoaded_hit {lsnap mtid error : Nat} {h h' : Dev} {c c' : Chain} {off : DataOff}
    {optdata : Bool} (htype : c.type = .data) (hbytes : c.bytes ≠ 0)
    (hm : modifyLoaded lsnap h c mtid (some off) optdata = some (error, c', h')) :
    HitModify lsnap h c mtid off h' c' := by
  unfold modifyLoaded at hm
  rw [modifyStorage_hit h (newmod h.emerg lsnap c) off
    (show ({ c with modified := true, update := true } : Chain).bytes ≠ 0 from hbytes)] at hm
  simp only [Option.bind_some] at hm
  rw [if_neg (fun hne => hne rfl), if_neg (fun hn => nomatch hn.2.2.2)] at hm
  obtain ⟨⟨d, h₁⟩, hd, hm⟩ := Option.map_eq_some_iff.mp hm
  obtain ⟨rfl, rfl, rfl⟩ := triple_inj hm
  by_cases hnew : c.dataOff.base = 0 ∨ newmod h.emerg lsnap c = true
  · simp only [if_pos hnew] at hd
    obtain ⟨hmem, hfree, hemerg, hd'⟩ := modifyData_hit (by exact htype) hd
    rw [hd']
    exact ⟨rfl, hmem, hfree, hemerg, rfl, rfl, fun _ => ⟨rfl, rfl, rfl⟩,
      fun hno => absurd hnew hno⟩
  · simp only [if_neg hnew] at hd
    obtain ⟨hmem, hfree, hemerg, hd'⟩ := modifyData_hit (by exact htype) hd
    rw [hd']
    exact ⟨rfl, hmem, hfree, hemerg, rfl, rfl, fun hyes => absurd hyes hnew,
      fun _ => ⟨rfl, rfl, rfl⟩⟩

/-- What a modification without a deduplication keeps: type, size and methods. -/
structure PlainModify (c c' : Chain) : Prop where
  type : c'.type = c.type
  radix : c'.dataOff.radix = c.dataOff.radix
  comp : c'.comp = c.comp
  check : c'.check = c.check

theorem PlainModify.refl (c : Chain) : PlainModify c c := ⟨rfl, rfl, rfl, rfl⟩

theorem PlainModify.trans {c c' c'' : Chain} (h : PlainModify c c') (h' : PlainModify c' c'') :
    PlainModify c c'' :=
  ⟨h'.type.trans h.type, h'.radix.trans h.radix, h'.comp.trans h.comp, h'.check.trans h.check⟩

theorem SameChain.plain {c c' : Chain} (h : SameChain c c') : PlainModify c c' :=
  ⟨h.type, by rw [h.dataOff], h.comp, h.check⟩

theorem modifyStorage_plain {h h' : Dev} {c c' : Chain} {isNew : Bool} {error : Nat}
    (hm : modifyStorage h c isNew none = some (error, c', h')) : PlainModify c c' := by
  unfold modifyStorage at hm
  split at hm
  · obtain ⟨⟨e, d, h₁⟩, ha, hm⟩ := Option.map_eq_some_iff.mp hm
    have hd : PlainModify c d := by
      rcases freemapAlloc_spec ha with ⟨-, -, rfl, -⟩ | ⟨-, off, -, -, hr, -, rfl, -⟩
      · exact PlainModify.refl _
      · exact ⟨rfl, hr, rfl, rfl⟩
    simp only at hm
    split at hm
    · obtain ⟨-, rfl, -⟩ := triple_inj hm
      exact ⟨hd.type, hd.radix, hd.comp, hd.check⟩
    · split at hm <;>
        · obtain ⟨-, rfl, -⟩ := triple_inj hm
          exact ⟨hd.type, hd.radix, hd.comp, hd.check⟩
  · obtain ⟨-, rfl, -⟩ := triple_inj (Option.some.inj hm)
    exact PlainModify.refl _

theorem modifyData_plain {h h' : Dev} {old : DataOff} {c c' : Chain} {dedup : Option DataOff}
    (hm : modifyData h old c dedup = some (c', h')) : PlainModify c c' := by
  unfold modifyData at hm
  simp only at hm
  split at hm
  · obtain ⟨rfl, -⟩ := Prod.mk.inj (Option.some.inj hm)
    exact ⟨rfl, rfl, rfl, rfl⟩
  · obtain ⟨⟨error, h₁⟩, -, hm⟩ := Option.bind_eq_some_iff.mp hm
    simp only at hm
    split at hm
    · obtain ⟨rfl, -⟩ := Prod.mk.inj (Option.some.inj hm)
      exact ⟨rfl, rfl, rfl, rfl⟩
    · split at hm
      · obtain ⟨rfl, -⟩ := Prod.mk.inj (Option.some.inj hm)
        exact ⟨rfl, rfl, rfl, rfl⟩
      · split at hm
        · cases hm
        · obtain ⟨rfl, -⟩ := Prod.mk.inj (Option.some.inj hm)
          exact ⟨rfl, rfl, rfl, rfl⟩

theorem modifyLoaded_plain {lsnap mtid error : Nat} {h h' : Dev} {c c' : Chain} {optdata : Bool}
    (hm : modifyLoaded lsnap h c mtid none optdata = some (error, c', h')) : PlainModify c c' := by
  unfold modifyLoaded at hm
  obtain ⟨⟨e, d, h₁⟩, hs, hm⟩ := Option.bind_eq_some_iff.mp hm
  have hd := modifyStorage_plain hs
  have hd : PlainModify c d := ⟨hd.type, hd.radix, hd.comp, hd.check⟩
  simp only at hm
  split at hm
  · obtain ⟨-, rfl, -⟩ := triple_inj (Option.some.inj hm)
    exact ⟨hd.type, hd.radix, hd.comp, hd.check⟩
  · split at hm
    · obtain ⟨-, rfl, -⟩ := triple_inj (Option.some.inj hm)
      exact ⟨hd.type, hd.radix, hd.comp, hd.check⟩
    · obtain ⟨⟨d', h₂⟩, hdata, hm⟩ := Option.map_eq_some_iff.mp hm
      obtain ⟨-, rfl, -⟩ := triple_inj hm
      have hd' := modifyData_plain hdata
      exact hd.trans ⟨hd'.type, hd'.radix, hd'.comp, hd'.check⟩

/-- **A modification without a deduplication** keeps type, size and methods. -/
theorem chainModify_plain {p : Hashes} {lsnap mtid error : Nat} {h h' : Dev} {c c' : Chain}
    {optdata : Bool} (hm : chainModify p lsnap h c mtid none optdata = some (error, c', h')) :
    PlainModify c c' := by
  unfold chainModify at hm
  split at hm
  · rename_i hneed
    obtain ⟨⟨d, h₁⟩, hl, hm⟩ := Option.bind_eq_some_iff.mp hm
    have hd := (chainLoadData_spec hneed.1 hneed.2.2.2 hl).1.plain
    simp only at hm
    split at hm
    · obtain ⟨-, rfl, -⟩ := triple_inj (Option.some.inj hm)
      exact hd
    · exact hd.trans (modifyLoaded_plain hm)
  · exact modifyLoaded_plain hm

end Hammer2.File
