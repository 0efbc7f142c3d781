/-
# `Hammer2.File.Nospace` — modifications that find no space

`hammer2_chain_modify` sets flags before it allocates, and takes back what it set when there is no
space.  `hammer2_chain_resize` allocates a second time.

    modifyCount    `hammer2_count_chain_modified` over a modification
    Fails          the allocation of a modification finds no space
    AsBefore       what a failed modification should leave as it was

Chains of the freemap and the two roots are not allocated from the freemap, so that their
modifications do not fail in this way.
-/
import Hammer2.File.Modify

namespace Hammer2.File

/-! ## The first allocation -/

/-- `hammer2_count_chain_modified`. -/
def modifyCount (isNew : Bool) (c : Chain) (dedup : Option DataOff) (failed : Bool) (count : Int) :
    Int :=
  let count := if c.modified = false then count + 1 else count
  let count :=
    if c.bytes ≠ 0 ∧ (c.dataOff.base = 0 ∨ isNew = true) ∧ dedup.isSome = true then count - 1
    else count
  if failed = true ∧ c.modified = false then count - 1 else count

/-- The chain and the device once the data is there. -/
def loadFirst (p : Hashes) (h : Dev) (c : Chain) (optdata : Bool) : Option (Chain × Dev) :=
  if c.needsLoad optdata then chainLoadData p h c else some (c, h)

/-- The allocation finds no space, and emergency mode is off. -/
structure NoSpace (lsnap : Nat) (h : Dev) (c : Chain) (dedup : Option DataOff) : Prop where
  plain : dedup = none
  size : c.bytes ≠ 0
  wants : c.dataOff.base = 0 ∨ newmod h.emerg lsnap c = true
  full : ∃ answers, h.freemap = none :: answers
  safe : h.emerg = false

/-- The modification of `c` comes to `c₁`, and finds no space. -/
structure Fails (p : Hashes) (lsnap : Nat) (h : Dev) (c : Chain) (dedup : Option DataOff)
    (optdata : Bool) (c₁ : Chain) (h₁ : Dev) : Prop where
  load : loadFirst p h c optdata = some (c₁, h₁)
  loaded : c.needsLoad optdata → c₁.error = 0
  nospace : NoSpace lsnap h₁ c₁ dedup

/-- Flags, blockref, data pointer and count are as before, and so is every decision to copy. -/
structure AsBefore (c c' : Chain) (count count' : Int) : Prop where
  modified : c'.modified = c.modified
  update : c'.update = c.update
  dedupable : c'.dedupable = c.dedupable
  initial : c'.initial = c.initial
  blkmapupd : c'.blkmapupd = c.blkmapupd
  bref : (c'.type, c'.dataOff, c'.comp, c'.check, c'.checkVal, c'.mirrorTid, c'.modifyTid,
    c'.emergMip) = (c.type, c.dataOff, c.comp, c.check, c.checkVal, c.mirrorTid, c.modifyTid,
    c.emergMip)
  bytes : c'.bytes = c.bytes
  data : c'.data = c.data
  count : count' = count
  newmod : ∀ emerg lsnap, newmod emerg lsnap c' = newmod emerg lsnap c

theorem AsBefore.refl (c : Chain) (count : Int) : AsBefore c c count count :=
  ⟨rfl, rfl, rfl, rfl, rfl, rfl, rfl, rfl, rfl, fun _ _ => rfl⟩

/-- A modification that finds no space counts what it set, and takes it back. -/
theorem modifyCount_failed (isNew : Bool) (c : Chain) (count : Int) :
    modifyCount isNew c none true count = count := by
  have hplain : ¬ (c.bytes ≠ 0 ∧ (c.dataOff.base = 0 ∨ isNew = true) ∧
      (none : Option DataOff).isSome = true) := fun hn => Bool.false_ne_true hn.2.2
  unfold modifyCount
  dsimp only
  rw [if_neg hplain]
  cases c.modified with
  | true => rfl
  | false => exact Int.add_sub_cancel count 1

/-- **A modification that finds no space** clears `DEDUPABLE`, and does nothing else once the data
is there. -/
theorem chainModify_nospace {p : Hashes} {lsnap mtid : Nat} {h h₁ h' : Dev} {c c₁ c' : Chain}
    {dedup : Option DataOff} {optdata : Bool} {error : Nat}
    (hf : Fails p lsnap h c dedup optdata c₁ h₁)
    (hm : chainModify p lsnap h c mtid dedup optdata = some (error, c', h')) :
    error = errorEnospc ∧ c' = { c₁ with dedupable := false } := by
  obtain ⟨hload, hloaded, rfl, hsize, hwants, ⟨answers, hfull⟩, hsafe⟩ := hf
  have hm : modifyLoaded lsnap h₁ c₁ mtid none optdata = some (error, c', h') := by
    unfold chainModify at hm
    unfold loadFirst at hload
    split at hm
    · rename_i hneed
      rw [if_pos hneed] at hload
      rw [hload, Option.bind_some] at hm
      dsimp only at hm
      rwa [if_neg (not_not.mpr (hloaded hneed))] at hm
    · rename_i hneed
      rw [if_neg hneed] at hload
      obtain ⟨rfl, rfl⟩ := Prod.mk.inj (Option.some.inj hload)
      exact hm
  obtain ⟨⟨e, d, h₂⟩, hstore, hm⟩ := Option.bind_eq_some_iff.mp hm
  unfold modifyStorage at hstore
  rw [if_pos ⟨hsize, hwants⟩] at hstore
  obtain ⟨⟨e', d', h₃⟩, halloc, hstore⟩ := Option.map_eq_some_iff.mp hstore
  rcases freemapAlloc_spec halloc with ⟨he, -, rfl, rest, -, rfl⟩ | ⟨-, off, rest, hans, -⟩
  · have henospc : e' = errorEnospc := by
      unfold freemapAlloc at halloc
      split at halloc
      · exact absurd halloc nofun
      · rw [hfull] at halloc
        exact (triple_inj (Option.some.inj halloc)).1.symm
    dsimp only at hstore
    rw [if_neg (fun hn : e' ≠ 0 ∧ h₁.emerg = true => Bool.false_ne_true (hsafe.symm.trans hn.2)),
      if_neg he] at hstore
    obtain ⟨rfl, rfl, rfl⟩ := triple_inj hstore
    dsimp only at hm
    rw [if_pos he] at hm
    obtain ⟨rfl, rfl, -⟩ := triple_inj (Option.some.inj hm)
    exact ⟨henospc, rfl⟩
  · rw [hfull] at hans
    exact absurd hans nofun

/-! ## The second allocation -/

/-- The block of a dedup hit takes the place of the chain's own. -/
def takesHit (lsnap : Nat) (h : Dev) (c : Chain) (dedup : Option DataOff) (off : DataOff) : Prop :=
  dedup = some off ∧ newmod h.emerg lsnap c = true

theorem write_nil (m : Nat → UInt8) (b : Nat) : Memory.write m b [] = m := by
  funext a
  unfold Memory.write
  split <;> rfl

/-- The data stage copies what the storage before had, unless the storage is the same or a hit. -/
theorem modifyData_content {h h' : Dev} {old : DataOff} {c c' : Chain} {dedup : Option DataOff}
    (hdata : c.data = true) (hinit : c.initial = false)
    (hm : modifyData h old c dedup = some (c', h')) (herr : c'.error = 0) :
    c'.dataOff = c.dataOff ∧ h'.mem = if c.dataOff.base ≠ old.base ∧ dedup = none then
      Memory.write h.mem c.dataOff.base (Memory.read h.mem old.base c.bytes) else h.mem := by
  unfold modifyData at hm
  dsimp only at hm
  split at hm
  · -- a directory entry without a block
    rename_i hnone
    obtain ⟨rfl, rfl⟩ := Prod.mk.inj (Option.some.inj hm)
    have hbytes : c.bytes = 0 := hnone.2
    refine ⟨rfl, ?_⟩
    rw [hbytes]
    show h.mem = if _ then Memory.write h.mem c.dataOff.base [] else h.mem
    rw [write_nil, ite_self]
  · obtain ⟨⟨error, h₁⟩, hg, hm⟩ := Option.bind_eq_some_iff.mp hm
    have hread : (if c.initial = true ∧ dedup = none then Dop.new else Dop.read) ≠ .new := by
      rw [if_neg (fun hn => Bool.false_ne_true (hinit.symm.trans hn.1))]
      exact nofun
    have hmem : h₁.mem = h.mem := (getblk_spec hg).mem_of_ne_new hread
    dsimp only at hm
    split at hm
    · obtain ⟨rfl, rfl⟩ := Prod.mk.inj (Option.some.inj hm)
      exact absurd herr nofun
    · obtain ⟨rfl, rfl⟩ := Prod.mk.inj (Option.some.inj hm)
      refine ⟨rfl, ?_⟩
      rw [← hmem]
      split <;> rfl

/-- The content of a copy. -/
theorem block_copy {h h' : Dev} {old off : DataOff} (hradix : off.radix = old.radix)
    (hmem : h'.mem = if off.base ≠ old.base then
      Memory.write h.mem off.base (Memory.read h.mem old.base off.bytes) else h.mem) :
    h'.block off = h.block old := by
  have hbytes : off.bytes = old.bytes := by
    unfold DataOff.bytes
    rw [hradix]
  unfold Dev.block
  rw [hmem, ← hbytes]
  split
  · have hlen : (Memory.read h.mem old.base off.bytes).length = off.bytes := Memory.length_read ..
    have hread := Memory.read_write h.mem off.base (Memory.read h.mem old.base off.bytes)
    rwa [hlen] at hread
  · rename_i hsame
    rw [not_not.mp hsame]

/-- The storage stage does not touch the memory. -/
theorem modifyStorage_mem {h h' : Dev} {c c' : Chain} {isNew : Bool} {dedup : Option DataOff}
    {error : Nat} (hm : modifyStorage h c isNew dedup = some (error, c', h')) :
    h'.mem = h.mem ∧ c'.data = c.data ∧ c'.initial = c.initial := by
  unfold modifyStorage at hm
  split at hm
  · cases dedup with
    | some off =>
        obtain ⟨-, rfl, rfl⟩ := triple_inj (Option.some.inj hm)
        exact ⟨rfl, rfl, rfl⟩
    | none =>
        obtain ⟨⟨e, d, h₁⟩, halloc, hm⟩ := Option.map_eq_some_iff.mp hm
        have halloc' : h₁.mem = h.mem ∧ d.data = c.data ∧ d.initial = c.initial := by
          rcases freemapAlloc_spec halloc with ⟨-, -, rfl, rest, -, rfl⟩ |
            ⟨-, off, rest, -, -, -, rfl, rfl⟩
          · exact ⟨rfl, rfl, rfl⟩
          · split <;> exact ⟨rfl, rfl, rfl⟩
        dsimp only at hm
        split at hm
        · obtain ⟨-, rfl, rfl⟩ := triple_inj hm
          exact halloc'
        · split at hm
          · obtain ⟨-, rfl, rfl⟩ := triple_inj hm
            exact halloc'
          · obtain ⟨-, rfl, rfl⟩ := triple_inj hm
            exact halloc'
  · obtain ⟨-, rfl, rfl⟩ := triple_inj (Option.some.inj hm)
    exact ⟨rfl, rfl, rfl⟩

/-- The content of the chain, once its data is there, over a modification that succeeds. -/
theorem modifyLoaded_content {lsnap mtid : Nat} {h h' : Dev} {c c' : Chain}
    {dedup : Option DataOff} (hdata : c.data = true) (hinit : c.initial = false)
    (hbase : c.dataOff.base ≠ 0) (hbytes : c.bytes ≠ 0)
    (hm : modifyLoaded lsnap h c mtid dedup false = some (0, c', h')) :
    (∀ off, takesHit lsnap h c dedup off → h'.block c'.dataOff = h.block off) ∧
      ((∀ off, ¬ takesHit lsnap h c dedup off) → h'.block c'.dataOff = h.block c.dataOff) := by
  obtain ⟨⟨e, d, h₁⟩, hstore, hm⟩ := Option.bind_eq_some_iff.mp hm
  dsimp only at hm
  split at hm
  · rename_i he
    exact absurd (triple_inj (Option.some.inj hm)).1 he
  · rw [if_neg (fun hn => Bool.false_ne_true hn.2.1)] at hm
    obtain ⟨⟨d', h₂⟩, hd, hm⟩ := Option.map_eq_some_iff.mp hm
    obtain ⟨herr, rfl, rfl⟩ := triple_inj hm
    obtain ⟨hmem, hdata', hinit'⟩ := modifyStorage_mem hstore
    cases dedup with
    | some off =>
        rw [modifyStorage_hit h (c := { c with modified := true, update := true }) _ off hbytes]
          at hstore
        obtain ⟨-, hd', -⟩ := triple_inj (Option.some.inj hstore)
        obtain ⟨hsame, hcopy⟩ := modifyData_content (c := d.stamp h₁.mirrorTid mtid)
          (hdata'.trans hdata) (hinit'.trans hinit) hd herr
        rw [if_neg (fun hn => nomatch hn.2)] at hcopy
        by_cases hwants : c.dataOff.base = 0 ∨ newmod h.emerg lsnap c = true
        · have hoff : d.dataOff = off := by
            dsimp only at hd'
            rw [← hd', if_pos hwants]
          refine ⟨fun off' hhit => ?_, fun hno => absurd ⟨rfl, hwants.resolve_left hbase⟩ (hno off)⟩
          obtain rfl := Option.some.inj hhit.1
          rw [hsame]
          show Dev.block _ d.dataOff = _
          rw [hoff]
          unfold Dev.block
          rw [hcopy, hmem]
        · have hoff : d.dataOff = c.dataOff := by
            dsimp only at hd'
            rw [← hd', if_neg hwants]
          refine ⟨fun off' hhit => absurd (.inr hhit.2) hwants, fun _ => ?_⟩
          rw [hsame]
          show Dev.block _ d.dataOff = _
          rw [hoff]
          unfold Dev.block
          rw [hcopy, hmem]
    | none =>
        have hplain := modifyStorage_plain hstore
        have hradix : d.dataOff.radix = c.dataOff.radix := hplain.radix
        obtain ⟨hsame, hcopy⟩ := modifyData_content (c := d.stamp h₁.mirrorTid mtid)
          (hdata'.trans hdata) (hinit'.trans hinit) hd herr
        refine ⟨fun off hhit => absurd hhit.1 nofun, fun _ => ?_⟩
        rw [hsame]
        refine block_copy hradix ?_
        rw [hcopy, hmem]
        simp only [and_true]
        rfl

/-- **A resize that finds no space the second time**: the content is that of the chain before, but
for a dedup hit. -/
theorem chainResize_content {p : Hashes} {lsnap mtid nradix error : Nat} {h h₁ h₂ : Dev}
    {c c₁ c₂ : Chain} {dedup : Option DataOff} (hinit : c.initial = false)
    (hbase : c.dataOff.base ≠ 0) (hbytes : c.bytes ≠ 0)
    (hmodify : chainModify p lsnap h c mtid dedup false = some (0, c₁, h₁))
    (halloc : freemapAlloc h₁ c₁ nradix = some (error, c₂, h₂)) (herror : error ≠ 0) :
    (∀ off, takesHit lsnap h c dedup off → h₂.block c₂.dataOff = h.block off) ∧
      ((∀ off, ¬ takesHit lsnap h c dedup off) → h₂.block c₂.dataOff = h.block c.dataOff) := by
  have hfail : c₂ = c₁ ∧ h₂.mem = h₁.mem := by
    rcases freemapAlloc_spec halloc with ⟨-, -, rfl, rest, -, rfl⟩ | ⟨hzero, -⟩
    · exact ⟨rfl, rfl⟩
    · exact absurd hzero herror
  obtain ⟨rfl, hmem⟩ := hfail
  have hblock : ∀ off, h₂.block off = h₁.block off := fun off => by
    unfold Dev.block
    rw [hmem]
  rw [hblock]
  unfold chainModify at hmodify
  split at hmodify
  · -- the data is loaded first
    rename_i hneed
    obtain ⟨⟨d, h₃⟩, hload, hmodify⟩ := Option.bind_eq_some_iff.mp hmodify
    obtain ⟨hsame, -, -, -, hemerg, -, hdone⟩ := chainLoadData_spec hneed.1 hneed.2.2.2 hload
    dsimp only at hmodify
    split at hmodify
    · rename_i herr
      exact absurd (triple_inj (Option.some.inj hmodify)).1 herr
    · rename_i herr
      obtain ⟨hinit', hdata, hmem'⟩ := hdone (not_not.mp herr)
      have hmem' : h₃.mem = h.mem := by
        rw [hmem']
        exact if_neg (by rw [hinit]; rintro ⟨⟩)
      have hnew : newmod h₃.emerg lsnap d = newmod h.emerg lsnap c := by
        unfold newmod
        rw [hsame.modified, hsame.dedupable, hsame.type, hinit', hinit, hsame.check,
          hsame.modifyTid, hemerg]
      have hblock' : ∀ off, h₃.block off = h.block off := fun off => by
        unfold Dev.block
        rw [hmem']
      have hcontent := modifyLoaded_content hdata hinit' (by rw [hsame.dataOff]; exact hbase)
        (by unfold Chain.bytes; rw [hsame.dataOff]; exact hbytes) hmodify
      unfold takesHit at *
      rw [hnew, hsame.dataOff] at hcontent
      simpa only [hblock'] using hcontent
  · rename_i hneed
    have hdata : c.data = true := Bool.not_eq_false _ ▸ fun hno => hneed ⟨hno, hbytes, rfl, hbase⟩
    exact modifyLoaded_content hdata hinit hbase hbytes hmodify

/-! ## Both -/

/-- **Failed modifications.**  A modification that finds no space leaves the chain as before exactly
when the chain is not `DEDUPABLE` and its data was there.  A resize that finds no space the second
time leaves the old content exactly when it took no dedup hit with another content. -/
theorem failed_modify_iff (p : Hashes) (lsnap mtid : Nat) (h : Dev) (c : Chain)
    (dedup : Option DataOff) :
    (∀ optdata c₁ h₁ error c' h' count, Fails p lsnap h c dedup optdata c₁ h₁ →
      chainModify p lsnap h c mtid dedup optdata = some (error, c', h') →
      error = errorEnospc ∧
        (AsBefore c c' count (modifyCount (newmod h₁.emerg lsnap c₁) c₁ dedup true count) ↔
          c.dedupable = false ∧ ¬ c.needsLoad optdata)) ∧
    (∀ nradix error c₁ h₁ c₂ h₂, c.initial = false → c.dataOff.base ≠ 0 → c.bytes ≠ 0 →
      chainModify p lsnap h c mtid dedup false = some (0, c₁, h₁) →
      freemapAlloc h₁ c₁ nradix = some (error, c₂, h₂) → error ≠ 0 →
      (h₂.block c₂.dataOff = h.block c.dataOff ↔
        ∀ off, takesHit lsnap h c dedup off → h.block off = h.block c.dataOff)) := by
  refine ⟨fun optdata c₁ h₁ error c' h' count hf hm => ?_,
    fun nradix error c₁ h₁ c₂ h₂ hinit hbase hbytes hmodify halloc herror => ?_⟩
  · obtain ⟨herror, rfl⟩ := chainModify_nospace hf hm
    refine ⟨herror, fun hb => ⟨hb.dedupable.symm, fun hneed => ?_⟩, fun ⟨hdedup, hneed⟩ => ?_⟩
    · -- loading has set the data pointer
      have hload := hf.load
      unfold loadFirst at hload
      rw [if_pos hneed] at hload
      obtain ⟨-, -, -, -, -, -, hdone⟩ := chainLoadData_spec hneed.1 hneed.2.2.2 hload
      have hdata : c₁.data = true := (hdone (hf.loaded hneed)).2.1
      have hbefore : c₁.data = c.data := hb.data
      exact absurd (hdata.symm.trans (hbefore.trans hneed.1)) nofun
    · have hload := hf.load
      unfold loadFirst at hload
      rw [if_neg hneed] at hload
      obtain ⟨rfl, rfl⟩ := Prod.mk.inj (Option.some.inj hload)
      have hsame : { c with dedupable := false } = c := by rw [← hdedup]
      rw [hsame, hf.nospace.plain, modifyCount_failed]
      exact .refl c count
  · obtain ⟨hhit, hplain⟩ := chainResize_content hinit hbase hbytes hmodify halloc herror
    by_cases htakes : ∃ off, takesHit lsnap h c dedup off
    · obtain ⟨off, htakes⟩ := htakes
      rw [hhit off htakes]
      refine ⟨fun hsame off' htakes' => ?_, fun hall => hall off htakes⟩
      obtain rfl := Option.some.inj (htakes.1.symm.trans htakes'.1)
      exact hsame
    · rw [not_exists] at htakes
      exact ⟨fun _ off hoff => absurd hoff (htakes off), fun _ => hplain htakes⟩

def noHashes : Hashes := ⟨fun _ => 0, fun _ => 0, fun _ => 0⟩

/-- A device whose allocator has these answers. -/
def answering (answers : List (Option DataOff)) : Dev :=
  ⟨fun _ => 0, fun _ => false, fun _ => false, answers, 1, false, true, fun _ => ⟨⟨0, 0⟩, 0, 0⟩,
    fun _ => false, fun _ => false, 0, 100⟩

/-- A data block of 64KB with its data; `shared` when it has been written and registered for
dedup. -/
def cached (shared : Bool) : Chain :=
  { Chain.fresh checkXxhash64 16 with
    dataOff := ⟨16777216, 16⟩, initial := false, data := true
    modified := shared, update := shared, dedupable := shared }

theorem cached_fails (shared : Bool) : Fails noHashes 0 (answering [none]) (cached shared) none false
    (cached shared) (answering [none]) := by
  cases shared <;> exact ⟨rfl, nofun, rfl, by decide, .inr rfl, ⟨[], rfl⟩, rfl⟩

theorem cached_kept :
    (∃ error c' h', chainModify noHashes 0 (answering [none]) (cached false) 5 none false =
        some (error, c', h') ∧ error = errorEnospc ∧
        AsBefore (cached false) c' 7 (modifyCount true (cached false) none true 7)) ∧
    (∃ c₁ h₁ c₂ h₂,
      chainModify noHashes 0 (answering [some ⟨33554432, 16⟩, none]) (cached false) 5 none false =
        some (0, c₁, h₁) ∧
      freemapAlloc h₁ c₁ 14 = some (errorEnospc, c₂, h₂) ∧
      h₂.block c₂.dataOff =
        (answering [some ⟨33554432, 16⟩, none]).block (cached false).dataOff) := by
  have hfail : chainModify noHashes 0 (answering [none]) (cached false) 5 none false =
      some (_, _, _) := rfl
  have hmodify : chainModify noHashes 0 (answering [some ⟨33554432, 16⟩, none]) (cached false) 5
      none false = some (_, _, _) := rfl
  obtain ⟨herror, hkept⟩ := (failed_modify_iff noHashes 0 5 (answering [none]) (cached false) none).1
    false _ _ _ _ _ 7 (cached_fails false) hfail
  have hcontent := (failed_modify_iff noHashes 0 5 (answering [some ⟨33554432, 16⟩, none])
    (cached false) none).2 14 errorEnospc _ _ _ _ rfl (by decide) (by decide) hmodify rfl (by decide)
  exact ⟨⟨_, _, _, hfail, herror, hkept.mpr ⟨rfl, by decide⟩⟩, _, _, _, _, hmodify, rfl,
    hcontent.mpr fun off hoff => absurd hoff.1 nofun⟩

/-- The flag of a modified chain is lost, and the next modification does not copy. -/
theorem dedupable_lost : ¬ ∀ p lsnap mtid h c dedup optdata c₁ h₁ error c' h' count,
    Fails p lsnap h c dedup optdata c₁ h₁ →
    chainModify p lsnap h c mtid dedup optdata = some (error, c', h') →
    AsBefore c c' count (modifyCount (newmod h₁.emerg lsnap c₁) c₁ dedup true count) := by
  intro h
  have hm : chainModify noHashes 0 (answering [none]) (cached true) 5 none false =
      some (_, _, _) := rfl
  have hb := h _ _ _ _ _ _ _ _ _ _ _ _ 0 (cached_fails true) hm
  exact absurd (hb.newmod false 0) (by decide)

end Hammer2.File
