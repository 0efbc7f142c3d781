/-
# `Hammer2.Chain.Stats` — usage statistics

Every chain keeps in its blockref how many bytes and how many inodes there are below it: the sum
over its block table of what each entry counts for.  An entry of a table is an older state of the
blockref of the child, until a flush replaces it.

    flushUpdate   the block table update of `hammer2_flush_core`
    deleteHelper  `_hammer2_chain_delete_helper`
    renameObref   `hammer2_chain_rename_obref`
    Step          what the chains of a device do, in any order
    Sound         what holds of all the chains in every state
    Subtree       the bytes and the inodes below a chain

An inode with `DIRECTDATA` has no table and no children, and is not modelled.
-/
import Hammer2.Chain.Table
import Mathlib

namespace Hammer2.Chain.Stats

open Hammer2.Chain.Table

universe u

/-! ## Chains -/

/-- `hammer2_chain_t`, as far as block tables go. -/
structure Chain (ι : Type u) where
  bref : Bref
  countedBrefs : Bool
  cacheIndex : Int
  liveZero : Nat
  base : List Bref
  parent : Option ι
  update : Bool
  destroy : Bool
  flags : Flags

variable {ι : Type u}

/-- The chain as the parent of its table. -/
def Chain.core (c : Chain ι) : Parent :=
  ⟨c.countedBrefs, c.cacheIndex, c.liveZero, c.bref.leafCount, c.bref.dataCount, c.bref.inodeCount⟩

/-- The chain after an operation on its table. -/
def Chain.store (c : Chain ι) (p : Parent) (base : List Bref) : Chain ι :=
  { c with
    bref := { c.bref with
      leafCount := p.leafCount, dataCount := p.dataCount, inodeCount := p.inodeCount }
    countedBrefs := p.countedBrefs
    cacheIndex := p.cacheIndex
    liveZero := p.liveZero
    base := base }

/-- The flags of `hammer2_chain_modify`. -/
def Chain.modify (c : Chain ι) : Chain ι :=
  { c with
    update := true
    flags := { c.flags with blkmapupd := c.flags.blkmapupd || c.flags.blkmapped } }

/-- A new chain, with room for `count` entries. -/
def Chain.alloc (bref : Bref) (count : Nat) : Chain ι :=
  ⟨{ bref with leafCount := 0, dataCount := 0, inodeCount := 0 }, true, 0, 0,
    List.replicate count Bref.zero, none, true, false, ⟨false, false, false⟩⟩

/-- The blocktable updates: the entry goes if it is out of date, and the blockref comes. -/
def flushTable (parent chain : Chain ι) : Option (Chain ι × Chain ι) :=
  (if chain.flags.blkmapupd = true then
    if chain.flags.blkmapped = true then
      (baseDelete parent.core parent.base chain.flags chain.bref).map fun (p, base, flags, _) =>
        (parent.store p base, { chain with flags := flags })
    else some (parent, { chain with flags := { chain.flags with blkmapupd := false } })
  else some (parent, chain)).bind fun (parent, chain) =>
    if chain.flags.blkmapped = false then
      (baseInsert parent.core parent.base (some chain.flags) chain.bref).map
        fun (p, base, flags) =>
          (parent.store p base, { chain with flags := flags.getD chain.flags })
    else some (parent, chain)

/-- `hammer2_flush_core`, for a chain with `UPDATE` set; `nospace` when the parent cannot be
modified. -/
def flushUpdate (nospace : Bool) (parent chain : Chain ι) : Option (Chain ι × Chain ι) :=
  let chain := { chain with destroy := chain.destroy || parent.destroy, update := false }
  if parent.destroy = true then
    some (parent, { chain with
      flags := { chain.flags with blkmapped := false, blkmapupd := false } })
  else if nospace = true then some (parent, { chain with update := true })
  else flushTable parent.modify chain

/-- `_hammer2_chain_delete_helper`, with the entry that was in the table, or an empty one. -/
def deleteHelper (parent chain : Chain ι) : Option (Chain ι × Chain ι × Bref) :=
  if chain.flags.blkmapped = true then
    let parent := parent.modify
    (baseDelete parent.core parent.base chain.flags chain.bref).map
      fun (p, base, flags, obref) =>
        (parent.store p base, { chain with parent := none, flags := flags }, obref)
  else some (parent, { chain with parent := none }, Bref.zero)

/-- `hammer2_chain_rename_obref`, under the parent that has room. -/
def renameObref (q : ι) (parent chain : Chain ι) (obref : Bref) : Option (Chain ι × Chain ι) :=
  let chain := { chain with parent := some q, update := true }
  if obref.isEmpty = false then
    if chain.flags.blkmapped = true then none
    else
      let parent := parent.modify
      (baseInsert parent.core parent.base (some chain.flags) obref).map fun (p, base, flags) =>
        let flags := flags.getD chain.flags
        (parent.store p base,
          if obref ≠ chain.bref then
            { chain with update := true, flags := { flags with blkmapupd := true } }
          else { chain with update := false, flags := flags })
  else some (parent, chain)

/-- `hammer2_chain_indirect_maintenance`, before the children are moved. -/
def collapse (parent chain : Chain ι) : Option (Chain ι × Chain ι × Bref) :=
  let parent := parent.modify
  let chain := chain.modify
  let chain := { chain with bref := { chain.bref with inodeCount := 0, dataCount := 0 } }
  (deleteHelper parent chain).map fun (parent, chain, obref) =>
    (parent, { chain with destroy := true }, obref)

/-! ## The system -/

abbrev Sys (ι : Type u) := ι → Option (Chain ι)

/-- No chain below `p` has the key; `hammer2_chain_insert` would panic. -/
def Free (s : Sys ι) (p : ι) (key : UInt64) : Prop :=
  ∀ c C, s c = some C → C.parent = some p → C.bref.key ≠ key

section
variable [DecidableEq ι]

/-- The state with a chain changed. -/
def Sys.set (s : Sys ι) (c : ι) (C : Chain ι) : Sys ι := Function.update s c (some C)

inductive Step : Sys ι → Sys ι → Prop
  /-- `hammer2_chain_alloc` -/
  | alloc {s : Sys ι} {c bref} (count : Nat) (hc : s c = none) (hlive : bref.isEmpty = false)
      (hrange : bref.lo ≤ bref.hi) : Step s (s.set c (Chain.alloc bref count))
  /-- `hammer2_chain_create` of a chain that is there, or `hammer2_chain_insert` -/
  | attach {s : Sys ι} {p c P C} (key : UInt64) (keybits : UInt8) (hp : s p = some P)
      (hc : s c = some C) (hpc : p ≠ c) (hparent : C.parent = none) (hdestroy : C.destroy = false)
      (hfree : Free s p key)
      (hrange : { C.bref with key := key, keybits := keybits }.lo ≤
        { C.bref with key := key, keybits := keybits }.hi) :
      Step s (s.set c { C with
        bref := { C.bref with key := key, keybits := keybits }, parent := some p, update := true })
  /-- `hammer2_chain_modify`, and a change of what the chain does not keep of its table -/
  | modify {s : Sys ι} {c C} (bref : Bref) (hc : s c = some C) (hlive : bref.isEmpty = false)
      (hrange : bref.lo ≤ bref.hi) (hkey : bref.key = C.bref.key) :
      Step s (s.set c { C.modify with bref := { bref with
        leafCount := C.bref.leafCount
        dataCount := C.bref.dataCount
        inodeCount := C.bref.inodeCount } })
  /-- `hammer2_flush_core` without a parent -/
  | flushRoot {s : Sys ι} {c C} (hc : s c = some C) (hparent : C.parent = none) :
      Step s (s.set c { C with update := false })
  | flush {s : Sys ι} {p c P C P' C'} (nospace : Bool) (hp : s p = some P) (hc : s c = some C)
      (hpc : p ≠ c) (hparent : C.parent = some p) (hupdate : C.update = true)
      (hflush : flushUpdate nospace P C = some (P', C')) : Step s ((s.set p P').set c C')
  /-- `hammer2_chain_delete` -/
  | delete {s : Sys ι} {p c P C P' C' obref} (permanent : Bool) (hp : s p = some P)
      (hc : s c = some C) (hpc : p ≠ c) (hparent : C.parent = some p)
      (hdel : deleteHelper P C = some (P', C', obref)) :
      Step s ((s.set p P').set c { C' with destroy := C'.destroy || permanent })
  /-- the move of one child, by `hammer2_chain_create_indirect` or by
  `hammer2_chain_indirect_maintenance` -/
  | move {s : Sys ι} {p q c P Q C P' Q' C' C'' obref} (hp : s p = some P) (hq : s q = some Q)
      (hc : s c = some C) (hpq : p ≠ q) (hpc : p ≠ c) (hqc : q ≠ c) (hparent : C.parent = some p)
      (hdestroy : C.destroy = false) (hfree : Free s q C.bref.key)
      (hdel : deleteHelper P C = some (P', C', obref))
      (hren : renameObref q Q C' obref = some (Q', C'')) :
      Step s (((s.set p P').set q Q').set c C'')
  | collapse {s : Sys ι} {p c P C P' C' obref} (hp : s p = some P) (hc : s c = some C)
      (hpc : p ≠ c) (hparent : C.parent = some p)
      (hcol : collapse P C = some (P', C', obref)) : Step s ((s.set p P').set c C')

inductive Run : Sys ι → Sys ι → Prop
  | refl {s : Sys ι} : Run s s
  | step {s t r : Sys ι} : Run s t → Step t r → Run s r

end

/-! ## What an entry counts for -/

/-- Is there a table below it? -/
def nested (b : Bref) : Bool :=
  match b.type with
  | .inode | .indirect => true
  | _ => false

/-- An inode itself. -/
def inodeOf (b : Bref) : UInt64 := if b.type = .inode then 1 else 0

def dataBelow (b : Bref) : UInt64 := if nested b = true then b.dataCount else 0

def inodesBelow (b : Bref) : UInt64 := if nested b = true then b.inodeCount else 0

def total (f : Bref → UInt64) : List Bref → UInt64
  | [] => 0
  | b :: bs => f b + total f bs

def dataOf (b : Bref) : UInt64 := b.bytes + dataBelow b

def inodesOf (b : Bref) : UInt64 := inodeOf b + inodesBelow b

/-- The statistics are the sums over the entries, modulo 2 ^ 64. -/
structure Exact (parent : Parent) (base : List Bref) : Prop where
  data : parent.dataCount = total dataOf (entries base)
  inodes : parent.inodeCount = total inodesOf (entries base)

theorem total_middle (f : Bref → UInt64) (x : Bref) (B : List Bref) :
    ∀ A : List Bref, total f (A ++ x :: B) = f x + total f (A ++ B)
  | [] => rfl
  | a :: A => by
      show f a + total f (A ++ x :: B) = f x + (f a + total f (A ++ B))
      rw [total_middle f x B A, ← UInt64.add_assoc, UInt64.add_comm (f a), UInt64.add_assoc]

theorem add_dataCount (parent : Parent) (elm : Bref) :
    (parent.add elm).dataCount = parent.dataCount + dataOf elm := by
  unfold Parent.add dataOf dataBelow nested
  cases elm.type <;> simp [UInt64.add_assoc]

theorem add_inodeCount (parent : Parent) (elm : Bref) :
    (parent.add elm).inodeCount = parent.inodeCount + inodesOf elm := by
  unfold Parent.add inodesOf inodesBelow inodeOf nested
  cases elm.type <;> simp [UInt64.add_assoc]

theorem sub_add (a b c : UInt64) : a - b - c = a - (b + c) := by grind

theorem sub_dataCount (parent : Parent) (elm : Bref) :
    (parent.sub elm).dataCount = parent.dataCount - dataOf elm := by
  unfold Parent.sub dataOf dataBelow nested
  cases elm.type <;> simp [sub_add]

theorem sub_inodeCount (parent : Parent) (elm : Bref) :
    (parent.sub elm).inodeCount = parent.inodeCount - inodesOf elm := by
  unfold Parent.sub inodesOf inodesBelow inodeOf nested
  cases elm.type <;> simp [sub_add]

/-- **An insertion** that does not panic, of an entry whose range does not wrap. -/
theorem insert_kept {parent parent' : Parent} {base base' : List Bref} {flags : Flags}
    {flags' : Option Flags} {elm : Bref} (h : Table parent base) (helm : elm.isEmpty = false)
    (hr : elm.lo ≤ elm.hi)
    (hins : baseInsert parent base (some flags) elm = some (parent', base', flags')) :
    Table parent' base' ∧ (Exact parent base → Exact parent' base') ∧
      flags' = some { flags with blkmapped := true } ∧
      ∀ x, x ∈ entries base' ↔ x = elm ∨ x ∈ entries base := by
  obtain ⟨hapart, hroom⟩ := baseInsert_some h hr hins
  obtain ⟨c, z, b, A, B, hins', hold, hnew, -, htable⟩ :=
    baseInsert_spec h (some flags) helm hr hapart hroom
  obtain ⟨rfl, rfl, rfl⟩ : _ ∧ _ ∧ _ := by
    have heq := hins.symm.trans hins'
    rw [Option.some_inj, Prod.mk.injEq, Prod.mk.injEq] at heq
    exact heq
  refine ⟨htable, fun hexact => ⟨?_, ?_⟩, rfl, fun x => ?_⟩
  · show (Parent.add _ elm).dataCount = _
    rw [add_dataCount, hnew, total_middle, ← hold, ← hexact.data, UInt64.add_comm]
  · show (Parent.add _ elm).inodeCount = _
    rw [add_inodeCount, hnew, total_middle, ← hold, ← hexact.inodes, UInt64.add_comm]
  · rw [hnew, hold]
    exact List.perm_middle.mem_iff.trans List.mem_cons

/-- **A deletion** that does not panic. -/
theorem delete_kept {parent parent' : Parent} {base base' : List Bref} {flags flags' : Flags}
    {elm x : Bref} (h : Table parent base)
    (hdel : baseDelete parent base flags elm = some (parent', base', flags', x)) :
    Table parent' base' ∧ (Exact parent base → Exact parent' base') ∧
      flags'.blkmapped = false ∧ flags'.blkmapupd = false ∧
      x ∈ entries base ∧ x.key = elm.key ∧
      ∀ y ∈ entries base', y ∈ entries base ∧ y.key ≠ elm.key := by
  obtain ⟨hx, hkey, hbits⟩ := baseDelete_some h hdel
  obtain ⟨c, z, b, A, B, hdel', hold, hnew, -, htable⟩ := baseDelete_spec h flags hx hkey hbits
  obtain ⟨rfl, rfl, rfl⟩ : _ ∧ _ ∧ _ := by
    have heq := hdel.symm.trans hdel'
    rw [Option.some_inj, Prod.mk.injEq, Prod.mk.injEq, Prod.mk.injEq] at heq
    exact ⟨heq.1, heq.2.1, heq.2.2.1⟩
  refine ⟨htable, fun hexact => ⟨?_, ?_⟩, rfl, rfl, hx, hkey, fun y hy => ⟨?_, ?_⟩⟩
  · show (Parent.sub _ x).dataCount = _
    rw [sub_dataCount]
    show parent.dataCount - dataOf x = _
    rw [hexact.data, hold, hnew, total_middle, UInt64.add_comm, UInt64.add_sub_cancel]
  · show (Parent.sub _ x).inodeCount = _
    rw [sub_inodeCount]
    show parent.inodeCount - inodesOf x = _
    rw [hexact.inodes, hold, hnew, total_middle, UInt64.add_comm, UInt64.add_sub_cancel]
  · rw [hold]
    rw [hnew] at hy
    exact List.perm_middle.mem_iff.mpr (List.mem_cons_of_mem x hy)
  · rw [hnew] at hy
    -- keys in a table are different
    have horder := h.order
    have hranges := h.ranges
    rw [hold] at horder hranges
    obtain ⟨-, hB, hA⟩ := List.pairwise_append.mp horder
    have hxr := hranges x (List.mem_append_right A List.mem_cons_self)
    intro hyx
    have hlo : y.lo = x.lo := by unfold Bref.lo; rw [hyx, hkey]
    rcases List.mem_append.mp hy with hy | hy
    · have hyr := hranges y (List.mem_append_left _ hy)
      have hlt := hA y hy x List.mem_cons_self
      omega
    · have hlt := List.rel_of_pairwise_cons hB hy
      omega

/-! ## What holds of the chains -/

/-- What holds of a chain by itself. -/
structure Chain.Ok (c : Chain ι) : Prop where
  live : c.bref.isEmpty = false
  range : c.bref.lo ≤ c.bref.hi
  table : Table c.core c.base
  mapped : c.flags.blkmapped = true → c.parent ≠ none
  pending : c.flags.blkmapupd = true → c.flags.blkmapped = true ∧ c.update = true

/-- The chain of an entry of `p`: unless an update is pending, the entry is its blockref. -/
structure Witness (p : ι) (x : Bref) (c : Chain ι) : Prop where
  parent : c.parent = some p
  mapped : c.flags.blkmapped = true
  key : c.bref.key = x.key
  destroy : c.destroy = false
  clean : c.flags.blkmapupd = false → x = c.bref

structure Sound (s : Sys ι) : Prop where
  ok : ∀ c C, s c = some C → C.Ok
  there : ∀ c C p, s c = some C → C.parent = some p → s p ≠ none
  below : ∀ p P c C, s p = some P → s c = some C → C.parent = some p → P.destroy = false →
    C.destroy = false
  apart : ∀ p c d C D, s c = some C → s d = some D → C.parent = some p → D.parent = some p →
    C.bref.key = D.bref.key → c = d
  linked : ∀ p P, s p = some P → P.destroy = false → ∀ x ∈ entries P.base,
    ∃ c C, s c = some C ∧ Witness p x C

/-- The chain is the same child of its parent, though an update may have become pending. -/
structure Same (c d : Chain ι) : Prop where
  parent : d.parent = c.parent
  mapped : d.flags.blkmapped = c.flags.blkmapped
  key : d.bref.key = c.bref.key
  destroy : d.destroy = c.destroy
  clean : d.flags.blkmapupd = false → c.flags.blkmapupd = false ∧
    (c.flags.blkmapped = true → d.bref = c.bref)

theorem Same.refl (c : Chain ι) : Same c c := ⟨rfl, rfl, rfl, rfl, fun h => ⟨h, fun _ => rfl⟩⟩

theorem Witness.same {p : ι} {x : Bref} {c d : Chain ι} (h : Witness p x c) (hs : Same c d) :
    Witness p x d := by
  refine ⟨hs.parent.trans h.parent, hs.mapped.trans h.mapped, hs.key.trans h.key,
    hs.destroy.trans h.destroy, fun hupd => ?_⟩
  obtain ⟨hupd, hbref⟩ := hs.clean hupd
  exact (h.clean hupd).trans (hbref h.mapped).symm

/-- A table is changed after `hammer2_chain_modify`, which leaves an update pending. -/
theorem same_store (c : Chain ι) (p : Parent) (base : List Bref) : Same c (c.modify.store p base) := by
  refine ⟨rfl, rfl, rfl, rfl, fun hupd => ?_⟩
  have hor : (c.flags.blkmapupd || c.flags.blkmapped) = false := hupd
  rw [Bool.or_eq_false_iff] at hor
  exact ⟨hor.1, fun hmapped => absurd (hor.2.symm.trans hmapped) nofun⟩

theorem ok_store {c : Chain ι} (h : c.Ok) {p : Parent} {base : List Bref} (ht : Table p base) :
    (c.modify.store p base).Ok := by
  refine ⟨h.live, h.range, ht, h.mapped, fun hupd => ⟨?_, rfl⟩⟩
  have hor : (c.flags.blkmapupd || c.flags.blkmapped) = true := hupd
  rcases (Bool.or_eq_true _ _).mp hor with hupd | hmapped
  · exact (h.pending hupd).1
  · exact hmapped

section
variable [DecidableEq ι]

theorem set_same (s : Sys ι) (c : ι) (C : Chain ι) : (s.set c C) c = some C := by
  rw [Sys.set, Function.update_self]

theorem set_ne (s : Sys ι) {c d : ι} (C : Chain ι) (h : d ≠ c) : (s.set c C) d = s d := by
  rw [Sys.set, Function.update_of_ne h]

theorem set_cases {s : Sys ι} {c d : ι} {C D : Chain ι} (h : (s.set c C) d = some D) :
    d = c ∧ D = C ∨ d ≠ c ∧ s d = some D := by
  rcases eq_or_ne d c with rfl | hne
  · rw [set_same] at h
    exact .inl ⟨rfl, (Option.some.inj h).symm⟩
  · rw [set_ne s C hne] at h
    exact .inr ⟨hne, h⟩

theorem set_self {s : Sys ι} {c : ι} {C : Chain ι} (h : s c = some C) : s.set c C = s := by
  funext d
  rcases eq_or_ne d c with rfl | hne
  · rw [set_same, h]
  · exact set_ne s C hne

theorem set_ne_none {s : Sys ι} {c d : ι} (C : Chain ι) (h : s d ≠ none) :
    (s.set c C) d ≠ none := by
  rcases eq_or_ne d c with rfl | hne
  · rw [set_same]
    exact nofun
  · rwa [set_ne s C hne]

variable {s : Sys ι}

/-- A chain that stays the same child, and has the same table. -/
theorem Sound.single (h : Sound s) {c : ι} {C C' : Chain ι} (hc : s c = some C) (hok : C'.Ok)
    (hsame : Same C C') (hbase : C'.base = C.base) : Sound (s.set c C') := by
  have hold : ∀ d D', (s.set c C') d = some D' →
      ∃ D, s d = some D ∧ Same D D' ∧ D'.base = D.base := by
    intro d D' hd
    rcases set_cases hd with ⟨rfl, rfl⟩ | ⟨hne, hd⟩
    · exact ⟨C, hc, hsame, hbase⟩
    · exact ⟨D', hd, .refl D', rfl⟩
  have hnew : ∀ d D, s d = some D → ∃ D', (s.set c C') d = some D' ∧ Same D D' := by
    intro d D hd
    rcases eq_or_ne d c with rfl | hne
    · obtain rfl := Option.some.inj (hc.symm.trans hd)
      exact ⟨C', set_same .., hsame⟩
    · exact ⟨D, (set_ne s C' hne).trans hd, .refl D⟩
  refine ⟨fun d D hd => ?_, fun d D p hd hpar => ?_, fun p P d D hp hd hpar hdes => ?_,
    fun p d e D E hd he hpd hpe hkey => ?_, fun p P hp hdes x hx => ?_⟩
  · rcases set_cases hd with ⟨rfl, rfl⟩ | ⟨hne, hd⟩
    · exact hok
    · exact h.ok d D hd
  · obtain ⟨D₀, hd₀, hsd, -⟩ := hold d D hd
    exact set_ne_none C' (h.there d D₀ p hd₀ (hsd.parent.symm.trans hpar))
  · obtain ⟨P₀, hp₀, hsp, -⟩ := hold p P hp
    obtain ⟨D₀, hd₀, hsd, -⟩ := hold d D hd
    rw [hsd.destroy]
    exact h.below p P₀ d D₀ hp₀ hd₀ (hsd.parent.symm.trans hpar) (hsp.destroy.symm.trans hdes)
  · obtain ⟨D₀, hd₀, hsd, -⟩ := hold d D hd
    obtain ⟨E₀, he₀, hse, -⟩ := hold e E he
    exact h.apart p d e D₀ E₀ hd₀ he₀ (hsd.parent.symm.trans hpd) (hse.parent.symm.trans hpe)
      (hsd.key.symm.trans (hkey.trans hse.key))
  · obtain ⟨P₀, hp₀, hsp, hb⟩ := hold p P hp
    rw [hb] at hx
    obtain ⟨d, D, hd, hw⟩ := h.linked p P₀ hp₀ (hsp.destroy.symm.trans hdes) x hx
    obtain ⟨D', hd', hsame'⟩ := hnew d D hd
    exact ⟨d, D', hd', hw.same hsame'⟩

/-- A chain `c` that comes to, stays below, or goes from `p`, whose table changes. -/
theorem Sound.pair (h : Sound s) {p c : ι} {P P' C C' : Chain ι} (hp : s p = some P)
    (hc : s c = some C) (hpc : p ≠ c) (hok : P'.Ok) (hok' : C'.Ok) (hsame : Same P P')
    (hbase : C'.base = C.base) (hdestroy : C'.destroy = false → C.destroy = false)
    (hparent : C.parent = none ∨ C.parent = some p)
    (hparent' : C'.parent = none ∨
      C'.parent = some p ∧ (P'.destroy = false → C'.destroy = false) ∧
        (C.parent = some p ∧ C'.bref.key = C.bref.key ∨ Free s p C'.bref.key))
    (hlinks : P'.destroy = false → ∀ x ∈ entries P'.base,
      x ∈ entries P.base ∧ (Witness p x C → Witness p x C') ∨ Witness p x C') :
    Sound ((s.set p P').set c C') := by
  have hold : ∀ d D', ((s.set p P').set c C') d = some D' → d = c ∧ D' = C' ∨
      d ≠ c ∧ ∃ D, s d = some D ∧ Same D D' ∧ (d = p ∧ D' = P' ∨ D'.base = D.base) := by
    intro d D' hd
    rcases set_cases hd with hd | ⟨hne, hd⟩
    · exact .inl hd
    · refine .inr ⟨hne, ?_⟩
      rcases set_cases hd with ⟨rfl, rfl⟩ | ⟨-, hd⟩
      · exact ⟨P, hp, hsame, .inl ⟨rfl, rfl⟩⟩
      · exact ⟨D', hd, .refl D', .inr rfl⟩
  have hnew : ∀ d D, s d = some D → d ≠ c →
      ∃ D', ((s.set p P').set c C') d = some D' ∧ Same D D' := by
    intro d D hd hne
    rw [set_ne _ C' hne]
    rcases eq_or_ne d p with rfl | hne
    · obtain rfl := Option.some.inj (hp.symm.trans hd)
      exact ⟨P', set_same .., hsame⟩
    · exact ⟨D, (set_ne s P' hne).trans hd, .refl D⟩
  -- a witness other than `c` stays one
  have hother : ∀ q x d D, s d = some D → Witness q x D → d ≠ c →
      ∃ e E, ((s.set p P').set c C') e = some E ∧ Witness q x E := by
    intro q x d D hd hw hne
    obtain ⟨D', hd', hs⟩ := hnew d D hd hne
    exact ⟨d, D', hd', hw.same hs⟩
  have hself : ((s.set p P').set c C') c = some C' := set_same ..
  refine ⟨fun d D hd => ?_, fun d D q hd hpar => ?_, fun q Q d D hq hd hpar hdes => ?_, ?_,
    fun q Q hq hdes x hx => ?_⟩
  · rcases set_cases hd with ⟨rfl, rfl⟩ | ⟨-, hd⟩
    · exact hok'
    · rcases set_cases hd with ⟨rfl, rfl⟩ | ⟨-, hd⟩
      · exact hok
      · exact h.ok d D hd
  · refine set_ne_none C' (set_ne_none P' ?_)
    rcases hold d D hd with ⟨rfl, rfl⟩ | ⟨-, D₀, hd₀, hsd, -⟩
    · rcases hparent' with hnone | ⟨hsome, -⟩
      · rw [hnone] at hpar
        exact absurd hpar nofun
      · obtain rfl := Option.some.inj (hsome.symm.trans hpar)
        rw [hp]
        exact nofun
    · exact h.there d D₀ q hd₀ (hsd.parent.symm.trans hpar)
  · rcases hold d D hd with ⟨rfl, rfl⟩ | ⟨-, D₀, hd₀, hsd, -⟩
    · rcases hparent' with hnone | ⟨hsome, hlive, -⟩
      · rw [hnone] at hpar
        exact absurd hpar nofun
      · obtain rfl := Option.some.inj (hsome.symm.trans hpar)
        rw [set_ne _ _ hpc, set_same] at hq
        obtain rfl := Option.some.inj hq
        exact hlive hdes
    · rw [hsd.destroy]
      have hpar₀ := hsd.parent.symm.trans hpar
      rcases hold q Q hq with ⟨rfl, rfl⟩ | ⟨-, Q₀, hq₀, hsq, -⟩
      · exact h.below q C d D₀ hc hd₀ hpar₀ (hdestroy hdes)
      · exact h.below q Q₀ d D₀ hq₀ hd₀ hpar₀ (hsq.destroy.symm.trans hdes)
  · -- another child of the parent of `c` has another key
    have hkeys : ∀ q d D, ((s.set p P').set c C') d = some D → d ≠ c → C'.parent = some q →
        D.parent = some q → C'.bref.key = D.bref.key → False := by
      intro q d D hd hne hcq hdq hkey
      rcases hold d D hd with ⟨rfl, -⟩ | ⟨-, D₀, hd₀, hsd, -⟩
      · exact hne rfl
      · rcases hparent' with hnone | ⟨hsome, -, hfree⟩
        · rw [hnone] at hcq
          exact absurd hcq nofun
        · obtain rfl := Option.some.inj (hsome.symm.trans hcq)
          have hdp := hsd.parent.symm.trans hdq
          have hkey₀ := hkey.trans hsd.key
          rcases hfree with ⟨hcp, hck⟩ | hfree
          · exact hne (h.apart p d c D₀ C hd₀ hc hdp hcp (hkey₀.symm.trans hck))
          · exact hfree d D₀ hd₀ hdp hkey₀.symm
    intro q d e D E hd he hdq heq hkey
    rcases eq_or_ne d c with rfl | hdc
    · rcases eq_or_ne e d with rfl | hec
      · rfl
      · obtain rfl := Option.some.inj (hself.symm.trans hd)
        exact (hkeys q e E he hec hdq heq hkey).elim
    · rcases eq_or_ne e c with rfl | hec
      · obtain rfl := Option.some.inj (hself.symm.trans he)
        exact (hkeys q d D hd hdc heq hdq hkey.symm).elim
      · rcases hold d D hd with ⟨rfl, -⟩ | ⟨-, D₀, hd₀, hsd, -⟩
        · exact absurd rfl hdc
        · rcases hold e E he with ⟨rfl, -⟩ | ⟨-, E₀, he₀, hse, -⟩
          · exact absurd rfl hec
          · exact h.apart q d e D₀ E₀ hd₀ he₀ (hsd.parent.symm.trans hdq)
              (hse.parent.symm.trans heq) (hsd.key.symm.trans (hkey.trans hse.key))
  · have hqp : ∀ r, r ≠ p → ¬ Witness r x C := by
      intro r hne hw
      rcases hparent with hnone | hsome
      · exact absurd (hnone.symm.trans hw.parent) nofun
      · exact hne (Option.some.inj (hw.parent.symm.trans hsome))
    rcases hold q Q hq with ⟨rfl, rfl⟩ | ⟨-, Q₀, hq₀, hsq, htab⟩
    · -- the table of `c` itself
      rw [hbase] at hx
      obtain ⟨d, D, hd, hw⟩ := h.linked q C hc (hdestroy hdes) x hx
      refine hother q x d D hd hw ?_
      rintro rfl
      obtain rfl := Option.some.inj (hc.symm.trans hd)
      exact hqp d (Ne.symm hpc) hw
    · rcases htab with ⟨rfl, rfl⟩ | htab
      · rcases hlinks hdes x hx with ⟨hx, hw'⟩ | hw
        · obtain ⟨d, D, hd, hw⟩ := h.linked q Q₀ hq₀ (hsq.destroy.symm.trans hdes) x
            (by obtain rfl := Option.some.inj (hp.symm.trans hq₀); exact hx)
          rcases eq_or_ne d c with rfl | hne
          · obtain rfl := Option.some.inj (hc.symm.trans hd)
            exact ⟨d, C', hself, hw' hw⟩
          · exact hother q x d D hd hw hne
        · exact ⟨c, C', hself, hw⟩
      · rw [htab] at hx
        obtain ⟨d, D, hd, hw⟩ := h.linked q Q₀ hq₀ (hsq.destroy.symm.trans hdes) x hx
        rcases eq_or_ne d c with rfl | hne
        · obtain rfl := Option.some.inj (hc.symm.trans hd)
          rcases eq_or_ne q p with rfl | hqp'
          · -- the table of `p` has not changed
            obtain rfl := Option.some.inj (hp.symm.trans hq₀)
            have hq' : Q = P' := by
              rw [set_ne _ _ hpc, set_same] at hq
              exact (Option.some.inj hq).symm
            rcases hlinks (hq' ▸ hdes) x (by rw [← hq', htab]; exact hx) with ⟨-, hw'⟩ | hw'
            · exact ⟨d, C', hself, hw' hw⟩
            · exact ⟨d, C', hself, hw'⟩
          · exact absurd hw (hqp q hqp')
        · exact hother q x d D hd hw hne

end

/-! ## One step -/

/-- The statistics of the chain stay exact, unless it is destroyed. -/
def Keeps (c d : Chain ι) : Prop :=
  d.destroy = false → c.destroy = false ∧ (Exact c.core c.base → Exact d.core d.base)

structure KeepsAll (s t : Sys ι) : Prop where
  stays : ∀ c, t c = none → s c = none
  keeps : ∀ c D, t c = some D → (∃ C, s c = some C ∧ Keeps C D) ∨
    s c = none ∧ (D.destroy = false → Exact D.core D.base)

theorem Same.trans {c d e : Chain ι} (h : Same c d) (h' : Same d e) : Same c e := by
  refine ⟨h'.parent.trans h.parent, h'.mapped.trans h.mapped, h'.key.trans h.key,
    h'.destroy.trans h.destroy, fun hupd => ?_⟩
  obtain ⟨hupd, hbref'⟩ := h'.clean hupd
  obtain ⟨hupd, hbref⟩ := h.clean hupd
  exact ⟨hupd, fun hm => (hbref' (h.mapped.trans hm)).trans (hbref hm)⟩

theorem same_modify (c : Chain ι) : Same c c.modify := same_store c c.core c.base

theorem Chain.Ok.modify {c : Chain ι} (h : c.Ok) : c.modify.Ok := ok_store h h.table

/-- The parent of a chain that is flushed, taken out or put in. -/
structure Kept (P P' : Chain ι) : Prop where
  same : Same P P'
  ok : P'.Ok
  exact : Exact P.core P.base → Exact P'.core P'.base

theorem Kept.keeps {P P' : Chain ι} (h : Kept P P') : Keeps P P' :=
  fun hdes => ⟨h.same.destroy.symm.trans hdes, h.exact⟩

theorem Kept.modify {P : Chain ι} (h : P.Ok) : Kept P P.modify := ⟨same_modify P, h.modify, id⟩

theorem Kept.trans {P Q R : Chain ι} (h : Kept P Q) (h' : Kept Q R) : Kept P R :=
  ⟨h.same.trans h'.same, h'.ok, fun hexact => h'.exact (h.exact hexact)⟩

theorem kept_store {P : Chain ι} (h : P.Ok) {p : Parent} {base : List Bref} (ht : Table p base)
    (he : Exact P.core P.base → Exact p base) : Kept P (P.modify.store p base) :=
  ⟨same_store P p base, ok_store h ht, he⟩

/-- The chain is the same, apart from its place. -/
structure Alike (c d : Chain ι) : Prop where
  bref : d.bref = c.bref
  core : d.core = c.core
  base : d.base = c.base
  destroy : d.destroy = c.destroy

theorem Alike.keeps {c d : Chain ι} (h : Alike c d) : Keeps c d := by
  refine fun hdes => ⟨h.destroy.symm.trans hdes, ?_⟩
  rw [h.core, h.base]
  exact id

/-- A chain that has been taken out of its parent. -/
structure Removed (C C' : Chain ι) (P P' : Chain ι) (obref : Bref) : Prop where
  alike : Alike C C'
  parent : C'.parent = none
  mapped : C'.flags.blkmapped = false
  blkmapupd : C'.flags.blkmapupd = false
  links : ∀ x ∈ entries P'.base,
    x ∈ entries P.base ∧ (C.flags.blkmapped = true → C.bref.key ≠ x.key)
  obref : obref.isEmpty = false → obref.key = C.bref.key ∧ obref.lo ≤ obref.hi

theorem deleteHelper_kept {P P' C C' : Chain ι} {obref : Bref} (hP : P.Ok) (hC : C.Ok)
    (h : deleteHelper P C = some (P', C', obref)) : Kept P P' ∧ Removed C C' P P' obref := by
  unfold deleteHelper at h
  split at h
  · rename_i hmapped
    obtain ⟨⟨p, base, flags, x⟩, hdel, heq⟩ := Option.map_eq_some_iff.mp h
    obtain ⟨rfl, rfl, rfl⟩ : _ ∧ _ ∧ _ := by
      rw [Prod.mk.injEq, Prod.mk.injEq] at heq
      exact heq
    obtain ⟨htable, hexact, hm, hu, hx, hkey, hlinks⟩ := delete_kept hP.table hdel
    exact ⟨kept_store hP htable hexact, ⟨rfl, rfl, rfl, rfl⟩, rfl, hm, hu,
      fun y hy => ⟨(hlinks y hy).1, fun _ => (hlinks y hy).2.symm⟩,
      fun _ => ⟨hkey, hP.table.ranges x hx⟩⟩
  · rename_i hmapped
    obtain ⟨rfl, rfl, rfl⟩ : _ ∧ _ ∧ _ := by
      rw [Option.some_inj, Prod.mk.injEq, Prod.mk.injEq] at h
      exact h
    have hm : C.flags.blkmapped = false := Bool.eq_false_iff.mpr hmapped
    have hu : C.flags.blkmapupd = false :=
      Bool.eq_false_iff.mpr fun hu => hmapped (hC.pending hu).1
    exact ⟨⟨.refl P, hP, id⟩, ⟨rfl, rfl, rfl, rfl⟩, rfl, hm, hu,
      fun y hy => ⟨hy, fun hmap => absurd hmap hmapped⟩, fun hempty => absurd hempty nofun⟩

/-- A chain that is not in the table of its parent. -/
theorem ok_unmapped {C C' : Chain ι} (h : C.Ok) (ha : Alike C C')
    (hm : C'.flags.blkmapped = false) (hu : C'.flags.blkmapupd = false) : C'.Ok := by
  refine ⟨ha.bref ▸ h.live, ha.bref ▸ h.range, ?_, fun hmap => ?_, fun hupd => ?_⟩
  · rw [ha.core, ha.base]
    exact h.table
  · exact absurd (hm.symm.trans hmap) nofun
  · exact absurd (hu.symm.trans hupd) nofun

/-- The block table update: the entry of the chain is its blockref. -/
structure Flushed (C C' P P' : Chain ι) : Prop where
  alike : Alike C C'
  parent : C'.parent = C.parent
  mapped : C'.flags.blkmapped = true
  blkmapupd : C'.flags.blkmapupd = false
  links : ∀ x ∈ entries P'.base, x = C.bref ∨
    x ∈ entries P.base ∧ (C.flags.blkmapupd = true → C.bref.key ≠ x.key)

theorem flushTable_kept {P P' C C' : Chain ι} (hP : P.Ok) (hlive : C.bref.isEmpty = false)
    (hrange : C.bref.lo ≤ C.bref.hi)
    (hpending : C.flags.blkmapupd = true → C.flags.blkmapped = true)
    (h : flushTable P.modify C = some (P', C')) : Kept P P' ∧ Flushed C C' P P' := by
  obtain ⟨⟨P₁, C₁⟩, hdel, hins⟩ := Option.bind_eq_some_iff.mp h
  cases hupd : C.flags.blkmapupd with
  | true =>
      rw [if_pos hupd, if_pos (hpending hupd)] at hdel
      obtain ⟨⟨p, base, flags, x⟩, hdel', heq⟩ := Option.map_eq_some_iff.mp hdel
      obtain ⟨htable, hexact, hm, hu, -, -, hlinks⟩ := delete_kept hP.table hdel'
      obtain ⟨rfl, rfl⟩ := Prod.mk.injEq .. ▸ heq
      dsimp only at hins
      rw [if_pos hm] at hins
      obtain ⟨⟨p', base', flags'⟩, hins', heq'⟩ := Option.map_eq_some_iff.mp hins
      obtain ⟨htable', hexact', rfl, hlinks'⟩ := insert_kept htable hlive hrange hins'
      obtain ⟨rfl, rfl⟩ := Prod.mk.injEq .. ▸ heq'
      refine ⟨kept_store hP htable' fun he => hexact' (hexact he), ⟨rfl, rfl, rfl, rfl⟩, rfl, rfl,
        hu, fun y hy => ?_⟩
      rcases (hlinks' y).mp hy with rfl | hy
      · exact .inl rfl
      · exact .inr ⟨(hlinks y hy).1, fun _ => (hlinks y hy).2.symm⟩
  | false =>
      rw [if_neg (by rw [hupd]; exact nofun)] at hdel
      obtain ⟨rfl, rfl⟩ := Prod.mk.injEq .. ▸ Option.some.inj hdel
      dsimp only at hins
      split at hins
      · obtain ⟨⟨p, base, flags⟩, hins', heq⟩ := Option.map_eq_some_iff.mp hins
        obtain ⟨htable, hexact, rfl, hlinks⟩ := insert_kept hP.table hlive hrange hins'
        obtain ⟨rfl, rfl⟩ := Prod.mk.injEq .. ▸ heq
        refine ⟨kept_store hP htable hexact, ⟨rfl, rfl, rfl, rfl⟩, rfl, rfl, hupd, fun y hy => ?_⟩
        rcases (hlinks y).mp hy with rfl | hy
        · exact .inl rfl
        · exact .inr ⟨hy, fun hu => absurd (hupd.symm.trans hu) nofun⟩
      · rename_i hmapped
        obtain ⟨rfl, rfl⟩ := Prod.mk.injEq .. ▸ Option.some.inj hins
        refine ⟨.modify hP, ⟨rfl, rfl, rfl, rfl⟩, rfl, Bool.not_eq_false _ ▸ hmapped, hupd,
          fun y hy => ?_⟩
        exact .inr ⟨hy, fun hu => absurd (hupd.symm.trans hu) nofun⟩

/-- A chain that has been put under a parent, with the entry it had elsewhere. -/
structure Renamed (q : ι) (C C' Q Q' : Chain ι) : Prop where
  alike : Alike C C'
  parent : C'.parent = some q
  ok : C'.Ok
  links : C.destroy = false → ∀ x ∈ entries Q'.base, x ∈ entries Q.base ∨ Witness q x C'

theorem renameObref_kept {q : ι} {Q Q' C C' : Chain ι} {obref : Bref} (hQ : Q.Ok) (hC : C.Ok)
    (hm : C.flags.blkmapped = false)
    (hobref : obref.isEmpty = false → obref.key = C.bref.key ∧ obref.lo ≤ obref.hi)
    (h : renameObref q Q C obref = some (Q', C')) : Kept Q Q' ∧ Renamed q C C' Q Q' := by
  have hu : C.flags.blkmapupd = false :=
    Bool.eq_false_iff.mpr fun hu => absurd (hm.symm.trans (hC.pending hu).1) nofun
  unfold renameObref at h
  dsimp only at h
  split at h
  · rename_i hlive
    obtain ⟨hkey, hrange⟩ := hobref hlive
    rw [if_neg (by rw [hm]; exact nofun)] at h
    obtain ⟨⟨p, base, flags⟩, hins, heq⟩ := Option.map_eq_some_iff.mp h
    obtain ⟨htable, hexact, rfl, hlinks⟩ := insert_kept hQ.table hlive hrange hins
    obtain ⟨rfl, rfl⟩ := Prod.mk.injEq .. ▸ heq
    refine ⟨kept_store hQ htable hexact, ?_⟩
    split
    · refine ⟨⟨rfl, rfl, rfl, rfl⟩, rfl, ⟨hC.live, hC.range, hC.table, nofun, fun _ => ⟨rfl, rfl⟩⟩,
        fun hdes x hx => ?_⟩
      rcases (hlinks x).mp hx with rfl | hx
      · exact .inr ⟨rfl, rfl, hkey.symm, hdes, nofun⟩
      · exact .inl hx
    · rename_i hsame
      refine ⟨⟨rfl, rfl, rfl, rfl⟩, rfl, ⟨hC.live, hC.range, hC.table, nofun,
        fun hupd => absurd (hu.symm.trans hupd) nofun⟩, fun hdes x hx => ?_⟩
      rcases (hlinks x).mp hx with rfl | hx
      · exact .inr ⟨rfl, rfl, hkey.symm, hdes, fun _ => not_not.mp hsame⟩
      · exact .inl hx
  · obtain ⟨rfl, rfl⟩ := Prod.mk.injEq .. ▸ Option.some.inj h
    exact ⟨⟨.refl Q, hQ, id⟩, ⟨rfl, rfl, rfl, rfl⟩, rfl, ⟨hC.live, hC.range, hC.table, nofun,
      fun hupd => absurd (hu.symm.trans hupd) nofun⟩, fun _ x hx => .inl hx⟩

section
variable [DecidableEq ι] {s : Sys ι}

theorem KeepsAll.refl (s : Sys ι) : KeepsAll s s :=
  ⟨fun _ h => h, fun c C hc => .inl ⟨C, hc, fun hdes => ⟨hdes, id⟩⟩⟩

theorem keepsAll_set {c : ι} {C C' : Chain ι} (hc : s c = some C) (h : Keeps C C') :
    KeepsAll s (s.set c C') := by
  refine ⟨fun d hd => ?_, fun d D hd => ?_⟩
  · rcases eq_or_ne d c with rfl | hne
    · rw [set_same] at hd
      exact absurd hd nofun
    · rwa [set_ne s C' hne] at hd
  · rcases set_cases hd with ⟨rfl, rfl⟩ | ⟨-, hd⟩
    · exact .inl ⟨C, hc, h⟩
    · exact .inl ⟨D, hd, fun hdes => ⟨hdes, id⟩⟩

theorem KeepsAll.trans {t r : Sys ι} (h : KeepsAll s t) (h' : KeepsAll t r) : KeepsAll s r := by
  refine ⟨fun c hc => h.stays c (h'.stays c hc), fun c E he => ?_⟩
  rcases h'.keeps c E he with ⟨D, hd, hDE⟩ | ⟨hnone, hE⟩
  · rcases h.keeps c D hd with ⟨C, hc, hCD⟩ | ⟨hnone, hD⟩
    · refine .inl ⟨C, hc, fun hdes => ?_⟩
      obtain ⟨hdesD, hexact'⟩ := hDE hdes
      obtain ⟨hdesC, hexact⟩ := hCD hdesD
      exact ⟨hdesC, fun hC => hexact' (hexact hC)⟩
    · refine .inr ⟨hnone, fun hdes => ?_⟩
      obtain ⟨hdesD, hexact⟩ := hDE hdes
      exact hexact (hD hdesD)
  · exact .inr ⟨h.stays c hnone, hE⟩

theorem keepsAll_pair {p c : ι} {P P' C C' : Chain ι} (hp : s p = some P) (hc : s c = some C)
    (hpc : p ≠ c) (h : Keeps P P') (h' : Keeps C C') : KeepsAll s ((s.set p P').set c C') :=
  (keepsAll_set hp h).trans (keepsAll_set ((set_ne s P' hpc.symm).trans hc) h')

/-- A new chain. -/
theorem alloc_kept (h : Sound s) {c : ι} {bref : Bref} (count : Nat) (hc : s c = none)
    (hlive : bref.isEmpty = false) (hrange : bref.lo ≤ bref.hi) :
    Sound (s.set c (Chain.alloc bref count)) ∧ KeepsAll s (s.set c (Chain.alloc bref count)) := by
  have hnone : entries (List.replicate count Bref.zero) = [] := by
    refine List.filter_eq_nil_iff.mpr fun x hx => ?_
    rw [List.eq_of_mem_replicate hx]
    exact nofun
  have htable : Table (Chain.alloc (ι := ι) bref count).core (List.replicate count Bref.zero) := by
    refine ⟨rfl, ?_, ?_, Nat.zero_le _, fun x hx => ?_, fun hz => absurd hz (Nat.lt_irrefl 0)⟩
    · rw [hnone]
      exact .nil
    · rw [hnone]
      exact nofun
    · rw [List.eq_of_mem_replicate hx]
      rfl
  have hparent : (Chain.alloc (ι := ι) bref count).parent = none := rfl
  refine ⟨⟨fun d D hd => ?_, fun d D p hd hpar => ?_, fun p P d D hp hd hpar hdes => ?_,
    fun p d e D E hd he hpd hpe hkey => ?_, fun p P hp hdes x hx => ?_⟩, fun d hd => ?_,
    fun d D hd => ?_⟩
  · rcases set_cases hd with ⟨rfl, rfl⟩ | ⟨-, hd⟩
    · exact ⟨hlive, hrange, htable, nofun, nofun⟩
    · exact h.ok d D hd
  · rcases set_cases hd with ⟨rfl, rfl⟩ | ⟨-, hd⟩
    · exact absurd (hparent.symm.trans hpar) nofun
    · exact set_ne_none _ (h.there d D p hd hpar)
  · rcases set_cases hd with ⟨rfl, rfl⟩ | ⟨-, hd'⟩
    · rfl
    · rcases set_cases hp with ⟨rfl, rfl⟩ | ⟨-, hp'⟩
      · exact absurd hc (h.there d D p hd' hpar)
      · exact h.below p P d D hp' hd' hpar hdes
  · rcases set_cases hd with ⟨rfl, rfl⟩ | ⟨-, hd⟩
    · exact absurd (hparent.symm.trans hpd) nofun
    · rcases set_cases he with ⟨rfl, rfl⟩ | ⟨-, he⟩
      · exact absurd (hparent.symm.trans hpe) nofun
      · exact h.apart p d e D E hd he hpd hpe hkey
  · rcases set_cases hp with ⟨rfl, rfl⟩ | ⟨-, hp⟩
    · have hx' : x ∈ entries (List.replicate count Bref.zero) := hx
      rw [hnone] at hx'
      exact absurd hx' nofun
    · obtain ⟨d, D, hd, hw⟩ := h.linked p P hp hdes x hx
      refine ⟨d, D, (set_ne s _ ?_).trans hd, hw⟩
      rintro rfl
      exact absurd (hc.symm.trans hd) nofun
  · rcases eq_or_ne d c with rfl | hne
    · exact hc
    · rwa [set_ne s _ hne] at hd
  · rcases set_cases hd with ⟨rfl, rfl⟩ | ⟨-, hd⟩
    · refine .inr ⟨hc, fun _ => ⟨?_, ?_⟩⟩
      · show (0 : UInt64) = total dataOf (entries (List.replicate count Bref.zero))
        rw [hnone]
        rfl
      · show (0 : UInt64) = total inodesOf (entries (List.replicate count Bref.zero))
        rw [hnone]
        rfl
    · exact .inl ⟨D, hd, fun hdes => ⟨hdes, id⟩⟩

/-- A flush of `c` into its parent. -/
theorem flush_kept (h : Sound s) {p c : ι} {P P' C C' : Chain ι} {nospace : Bool}
    (hp : s p = some P) (hc : s c = some C) (hpc : p ≠ c) (hparent : C.parent = some p)
    (hflush : flushUpdate nospace P C = some (P', C')) :
    Sound ((s.set p P').set c C') ∧ KeepsAll s ((s.set p P').set c C') := by
  have hP := h.ok p P hp
  have hC := h.ok c C hc
  have hdes : (C.destroy || P.destroy) = false → C.destroy = false :=
    fun hor => (Bool.or_eq_false_iff.mp hor).1
  unfold flushUpdate at hflush
  dsimp only at hflush
  split at hflush
  · -- the parent is destroyed
    rename_i hdestroy
    obtain ⟨rfl, rfl⟩ := Prod.mk.injEq .. ▸ Option.some.inj hflush
    refine ⟨h.pair hp hc hpc hP ⟨hC.live, hC.range, hC.table, nofun, nofun⟩ (.refl P) rfl hdes
      (.inr hparent) (.inr ⟨hparent, fun hlive => ?_, .inl ⟨hparent, rfl⟩⟩) fun hlive => ?_,
      keepsAll_pair hp hc hpc (fun hlive => ⟨hlive, id⟩) fun hlive => ⟨hdes hlive, id⟩⟩
    · exact absurd (hdestroy.symm.trans hlive) nofun
    · exact absurd (hdestroy.symm.trans hlive) nofun
  · rename_i hdestroy
    have hlive : P.destroy = false := Bool.eq_false_iff.mpr hdestroy
    have hliveC := h.below p P c C hp hc hparent hlive
    have hor : (C.destroy || P.destroy) = false := by rw [hliveC, hlive]; rfl
    split at hflush
    · -- the parent cannot be modified, and the update stays pending
      obtain ⟨rfl, rfl⟩ := Prod.mk.injEq .. ▸ Option.some.inj hflush
      refine ⟨h.pair hp hc hpc hP ⟨hC.live, hC.range, hC.table, hC.mapped,
        fun hupd => ⟨(hC.pending hupd).1, rfl⟩⟩ (.refl P) rfl hdes (.inr hparent)
        (.inr ⟨hparent, fun _ => hor, .inl ⟨hparent, rfl⟩⟩) fun _ x hx => .inl ⟨hx, fun hw => ?_⟩,
        keepsAll_pair hp hc hpc (fun hlive => ⟨hlive, id⟩) fun hlive => ⟨hdes hlive, id⟩⟩
      exact ⟨hw.parent, hw.mapped, hw.key, hor, hw.clean⟩
    · obtain ⟨hkept, ⟨hbref, hcore, hbase, hdes'⟩, hpar, hm, hu, hlinks⟩ := flushTable_kept
        (C := { C with destroy := C.destroy || P.destroy, update := false }) hP hC.live hC.range
        (fun hupd => (hC.pending hupd).1) hflush
      have hbref : C'.bref = C.bref := hbref
      have hcore : C'.core = C.core := hcore
      have hbase : C'.base = C.base := hbase
      have hpar : C'.parent = some p := hpar.trans hparent
      have hdes' : C'.destroy = false := hdes'.trans hor
      have hok : C'.Ok := by
        refine ⟨hbref ▸ hC.live, hbref ▸ hC.range, ?_, fun _ => ?_, fun hupd => ?_⟩
        · rw [hcore, hbase]
          exact hC.table
        · rw [hpar]
          exact nofun
        · exact absurd (hu.symm.trans hupd) nofun
      refine ⟨h.pair hp hc hpc hkept.ok hok hkept.same hbase (fun _ => hliveC) (.inr hparent)
        (.inr ⟨hpar, fun _ => hdes', .inl ⟨hparent, congrArg Bref.key hbref⟩⟩) fun _ x hx => ?_,
        keepsAll_pair hp hc hpc hkept.keeps fun _ => ⟨hliveC, fun hexact => ?_⟩⟩
      · rcases hlinks x hx with rfl | ⟨hx, hne⟩
        · exact .inr ⟨hpar, hm, congrArg Bref.key hbref, hdes', fun _ => hbref.symm⟩
        · refine .inl ⟨hx, fun hw => ⟨hpar, hm, ?_, hdes', fun _ => ?_⟩⟩
          · rw [hbref]
            exact hw.key
          · cases hupd : C.flags.blkmapupd with
            | true => exact absurd hw.key (hne hupd)
            | false => exact (hw.clean hupd).trans hbref.symm
      · rw [hcore, hbase]
        exact hexact

/-- A chain that is taken out of its parent. -/
theorem remove_kept (h : Sound s) {p c : ι} {P P' C C' : Chain ι}
    (hp : s p = some P) (hc : s c = some C) (hpc : p ≠ c) (hparent : C.parent = some p)
    (hkept : Kept P P') (hrem : ∀ x ∈ entries P'.base,
      x ∈ entries P.base ∧ (C.flags.blkmapped = true → C.bref.key ≠ x.key))
    (hok : C'.Ok) (hnone : C'.parent = none) (hbase : C'.base = C.base)
    (hkeeps : Keeps C C') :
    Sound ((s.set p P').set c C') ∧ KeepsAll s ((s.set p P').set c C') := by
  refine ⟨h.pair hp hc hpc hkept.ok hok hkept.same hbase (fun hdes => (hkeeps hdes).1)
    (.inr hparent) (.inl hnone) fun _ x hx => .inl ⟨(hrem x hx).1, fun hw => ?_⟩,
    keepsAll_pair hp hc hpc hkept.keeps hkeeps⟩
  exact absurd hw.key ((hrem x hx).2 hw.mapped)

/-- A chain without a parent that is put under one. -/
theorem rename_kept (h : Sound s) {q c : ι} {Q Q' C C' : Chain ι} (hq : s q = some Q)
    (hc : s c = some C) (hqc : q ≠ c) (hnone : C.parent = none) (hdestroy : C.destroy = false)
    (hfree : Free s q C.bref.key) (hkept : Kept Q Q') (hren : Renamed q C C' Q Q') :
    Sound ((s.set q Q').set c C') ∧ KeepsAll s ((s.set q Q').set c C') := by
  refine ⟨h.pair hq hc hqc hkept.ok hren.ok hkept.same hren.alike.base (fun _ => hdestroy)
    (.inl hnone) (.inr ⟨hren.parent, fun _ => hren.alike.destroy.trans hdestroy, .inr ?_⟩)
    fun _ x hx => ?_, keepsAll_pair hq hc hqc hkept.keeps hren.alike.keeps⟩
  · rw [hren.alike.bref]
    exact hfree
  · rcases hren.links hdestroy x hx with hx | hw
    · exact .inl ⟨hx, fun hw => absurd (hnone.symm.trans hw.parent) nofun⟩
    · exact .inr hw

theorem set_set (s : Sys ι) (c : ι) (C D : Chain ι) : (s.set c C).set c D = s.set c D :=
  Function.update_idem ..

theorem set_comm (s : Sys ι) {c d : ι} (h : c ≠ d) (C D : Chain ι) :
    (s.set c C).set d D = (s.set d D).set c C :=
  Function.update_comm h ..

/-- **One step** keeps what holds of the chains, and the statistics. -/
theorem Step.kept {t : Sys ι} (h : Sound s) (hstep : Step s t) : Sound t ∧ KeepsAll s t := by
  cases hstep with
  | alloc count hc hlive hrange => exact alloc_kept h count hc hlive hrange
  | @attach p c P C key keybits hp hc hpc hparent hdestroy hfree hrange =>
      have hC := h.ok c C hc
      have hm : C.flags.blkmapped ≠ true := fun hm => hC.mapped hm hparent
      have hok : Chain.Ok { C with
          bref := { C.bref with key := key, keybits := keybits }, parent := some p, update := true } :=
        ⟨hC.live, hrange, hC.table, fun _ => nofun, fun hupd => absurd (hC.pending hupd).1 hm⟩
      have hpair := h.pair hp hc hpc (h.ok p P hp) hok (.refl P) rfl id (.inl hparent)
        (.inr ⟨rfl, fun _ => hdestroy, .inr hfree⟩)
        fun _ x hx => .inl ⟨hx, fun hw => absurd hw.mapped hm⟩
      rw [set_self hp] at hpair
      exact ⟨hpair, keepsAll_set hc fun hdes => ⟨hdes, id⟩⟩
  | @modify c C bref hc hlive hrange hkey =>
      have hC := (h.ok c C hc).modify
      refine ⟨h.single hc ⟨hlive, hrange, hC.table, hC.mapped, hC.pending⟩
        ⟨rfl, rfl, hkey, rfl, fun hupd => ?_⟩ rfl, keepsAll_set hc fun hdes => ⟨hdes, id⟩⟩
      have hor := Bool.or_eq_false_iff.mp hupd
      exact ⟨hor.1, fun hm => absurd (hor.2.symm.trans hm) nofun⟩
  | @flushRoot c C hc hparent =>
      have hC := h.ok c C hc
      have hm : C.flags.blkmapped ≠ true := fun hm => hC.mapped hm hparent
      exact ⟨h.single hc ⟨hC.live, hC.range, hC.table, hC.mapped,
        fun hupd => absurd (hC.pending hupd).1 hm⟩ ⟨rfl, rfl, rfl, rfl, fun hu => ⟨hu, fun _ => rfl⟩⟩
        rfl, keepsAll_set hc fun hdes => ⟨hdes, id⟩⟩
  | flush nospace hp hc hpc hparent hupdate hflush => exact flush_kept h hp hc hpc hparent hflush
  | @delete p c P C P' C' obref permanent hp hc hpc hparent hdel =>
      obtain ⟨hkept, hrem⟩ := deleteHelper_kept (h.ok p P hp) (h.ok c C hc) hdel
      have hok := ok_unmapped (h.ok c C hc) hrem.alike hrem.mapped hrem.blkmapupd
      refine remove_kept h hp hc hpc hparent hkept hrem.links
        ⟨hok.live, hok.range, hok.table, hok.mapped, hok.pending⟩ hrem.parent hrem.alike.base
        fun hdes => hrem.alike.keeps ?_
      have hor : (C'.destroy || permanent) = false := hdes
      rw [Bool.or_eq_false_iff] at hor
      exact hor.1
  | @move p q c P Q C P' Q' C' C'' obref hp hq hc hpq hpc hqc hparent hdestroy hfree hdel hren =>
      obtain ⟨hkept, hrem⟩ := deleteHelper_kept (h.ok p P hp) (h.ok c C hc) hdel
      have hbref := hrem.alike.bref
      have hok : C'.Ok := ok_unmapped (h.ok c C hc) hrem.alike hrem.mapped hrem.blkmapupd
      obtain ⟨hs, hk⟩ := remove_kept h hp hc hpc hparent hkept hrem.links hok hrem.parent
        hrem.alike.base hrem.alike.keeps
      have hq' : ((s.set p P').set c C') q = some Q := by
        rw [set_ne _ _ hqc, set_ne _ _ hpq.symm, hq]
      have hfree' : Free ((s.set p P').set c C') q C'.bref.key := by
        intro k K hk hkq
        rw [hbref]
        rcases set_cases hk with ⟨rfl, rfl⟩ | ⟨-, hk⟩
        · exact absurd (hrem.parent.symm.trans hkq) nofun
        · rcases set_cases hk with ⟨rfl, rfl⟩ | ⟨-, hk⟩
          · rw [hkept.same.key]
            exact hfree k P hp (hkept.same.parent.symm.trans hkq)
          · exact hfree k K hk hkq
      have hobref : obref.isEmpty = false → obref.key = C'.bref.key ∧ obref.lo ≤ obref.hi := by
        rw [hbref]
        exact hrem.obref
      obtain ⟨hkeptQ, hrenamed⟩ := renameObref_kept (h.ok q Q hq) hok hrem.mapped hobref hren
      obtain ⟨hs', hk'⟩ := rename_kept hs hq' (set_same ..) hqc hrem.parent
        (hrem.alike.destroy.trans hdestroy) hfree' hkeptQ hrenamed
      rw [set_comm _ hqc.symm, set_set] at hs' hk'
      exact ⟨hs', hk.trans hk'⟩
  | @collapse p c P C P' C' obref hp hc hpc hparent hcol =>
      obtain ⟨⟨P₁, C₁, x⟩, hdel, heq⟩ := Option.map_eq_some_iff.mp hcol
      obtain ⟨rfl, rfl, rfl⟩ : _ ∧ _ ∧ _ := by
        rw [Prod.mk.injEq, Prod.mk.injEq] at heq
        exact heq
      have hP := h.ok p P hp
      have hC := (h.ok c C hc).modify
      have hz : Chain.Ok { C.modify with
          bref := { C.modify.bref with inodeCount := 0, dataCount := 0 } } :=
        ⟨hC.live, hC.range, ⟨hC.table.counted, hC.table.order, hC.table.ranges, hC.table.ends⟩,
          hC.mapped, hC.pending⟩
      obtain ⟨hkept, hrem⟩ := deleteHelper_kept hP.modify hz hdel
      have hok := ok_unmapped hz hrem.alike hrem.mapped hrem.blkmapupd
      exact remove_kept h hp hc hpc hparent ((Kept.modify hP).trans hkept) hrem.links
        ⟨hok.live, hok.range, hok.table, hok.mapped, hok.pending⟩ hrem.parent hrem.alike.base
        fun hdes => absurd hdes nofun

theorem Run.kept {t : Sys ι} (h : Sound s) (hrun : Run s t) : Sound t ∧ KeepsAll s t := by
  induction hrun with
  | refl => exact ⟨h, .refl s⟩
  | step _ hstep ih =>
      obtain ⟨hs, hk⟩ := Step.kept ih.1 hstep
      exact ⟨hs, ih.2.trans hk⟩

end

/-! ## What is below a chain -/

mutual
/-- So many bytes and so many inodes are below a chain. -/
inductive Subtree (s : Sys ι) : ι → UInt64 → UInt64 → Prop
  | node {p P d n} (hp : s p = some P) (hbelow : Below s p (entries P.base) d n) : Subtree s p d n

/-- The entries with what is below them. -/
inductive Below (s : Sys ι) : ι → List Bref → UInt64 → UInt64 → Prop
  | nil {p} : Below s p [] 0 0
  | leaf {p x xs d n} (hx : nested x = false) (hxs : Below s p xs d n) :
      Below s p (x :: xs) (x.bytes + d) n
  | block {p x xs c C d n d' n'} (hx : nested x = true) (hc : s c = some C)
      (hparent : C.parent = some p) (hkey : C.bref.key = x.key) (hsub : Subtree s c d n)
      (hxs : Below s p xs d' n') : Below s p (x :: xs) (x.bytes + d + d') (inodeOf x + n + n')
end

inductive Under (s : Sys ι) (p : ι) : ι → Prop
  | refl : Under s p p
  | child {c d D} (h : Under s p c) (hd : s d = some D) (hparent : D.parent = some c) :
      Under s p d

/-- Below `r` no update is pending, and the statistics are exact. -/
structure Done (s : Sys ι) (r : ι) : Prop where
  sound : Sound s
  exact : ∀ c C, Under s r c → s c = some C → C.destroy = false → nested C.bref = true →
    Exact C.core C.base
  flushed : ∀ c C, Under s r c → s c = some C → C.update = false

theorem nested_inodeOf {x : Bref} (h : nested x = false) : inodeOf x = 0 := by
  unfold nested inodeOf at *
  cases htype : x.type <;> simp_all

mutual
theorem Subtree.counts {s : Sys ι} {r : ι} (h : Done s r) : ∀ {p d n}, Subtree s p d n →
    Under s r p → ∀ {P}, s p = some P → P.destroy = false → nested P.bref = true →
    P.bref.dataCount = d ∧ P.bref.inodeCount = n
  | p, _, _, .node hp hbelow, hu, P, hp', hlive, hnest => by
      obtain rfl := Option.some.inj (hp.symm.trans hp')
      obtain ⟨hd, hn⟩ := hbelow.counts h hu hp hlive fun _ hx => hx
      have hexact := h.exact p _ hu hp hlive hnest
      exact ⟨hexact.data.trans hd, hexact.inodes.trans hn⟩

theorem Below.counts {s : Sys ι} {r : ι} (h : Done s r) : ∀ {p xs d n}, Below s p xs d n →
    Under s r p → ∀ {P}, s p = some P → P.destroy = false → (∀ x ∈ xs, x ∈ entries P.base) →
    total dataOf xs = d ∧ total inodesOf xs = n
  | _, _, _, _, .nil, _, _, _, _, _ => ⟨rfl, rfl⟩
  | p, x :: xs, _, _, .leaf hx hxs, hu, P, hp, hlive, hmem => by
      obtain ⟨hd, hn⟩ := hxs.counts h hu hp hlive fun y hy => hmem y (List.mem_cons_of_mem x hy)
      have hdata : dataOf x = x.bytes := by
        rw [dataOf, dataBelow, if_neg (by rw [hx]; exact nofun), UInt64.add_zero]
      have hinodes : inodesOf x = 0 := by
        rw [inodesOf, inodesBelow, if_neg (by rw [hx]; exact nofun), nested_inodeOf hx,
          UInt64.add_zero]
      rw [total, total, hd, hn, hdata, hinodes, UInt64.zero_add]
      exact ⟨rfl, rfl⟩
  | p, x :: xs, _, _, .block hx hc hparent hkey hsub hxs, hu, P, hp, hlive, hmem => by
      obtain ⟨hd', hn'⟩ := hxs.counts h hu hp hlive fun y hy => hmem y (List.mem_cons_of_mem x hy)
      -- the chain of the entry is the child with its key, and nothing is pending
      obtain ⟨c', C', hc', hw⟩ := h.sound.linked p P hp hlive x (hmem x List.mem_cons_self)
      obtain rfl := h.sound.apart p _ _ _ _ hc hc' hparent hw.parent (hkey.trans hw.key.symm)
      obtain rfl := Option.some.inj (hc.symm.trans hc')
      have huc := hu.child hc hparent
      have hclean : x = _ := hw.clean <| Bool.eq_false_iff.mpr fun hupd =>
        absurd ((h.flushed _ _ huc hc).symm.trans ((h.sound.ok _ _ hc).pending hupd).2) nofun
      obtain ⟨hd, hn⟩ := hsub.counts h huc hc hw.destroy (hclean ▸ hx)
      rw [← hclean] at hd hn
      rw [total, total, hd', hn', dataOf, dataBelow, inodesOf, inodesBelow, if_pos hx, if_pos hx,
        hd, hn]
      exact ⟨rfl, rfl⟩
end

variable [DecidableEq ι]

/-- **Usage statistics.** Over every run the statistics of a chain that is not destroyed stay the
sums over its entries, and those of a new chain are.  Where no update is pending below a chain, its
statistics are the bytes and the inodes below it. -/
theorem run_counts {s t : Sys ι} (h : Sound s) (hrun : Run s t) :
    (∀ c C, t c = some C → C.destroy = false →
      (∀ B, s c = some B → Exact B.core B.base) → Exact C.core C.base) ∧
    (∀ p P d n, t p = some P → P.destroy = false → nested P.bref = true →
      (∀ c B C, Under t p c → s c = some B → t c = some C → nested C.bref = true →
        Exact B.core B.base) →
      (∀ c C, Under t p c → t c = some C → C.update = false) →
      Subtree t p d n → P.bref.dataCount = d ∧ P.bref.inodeCount = n) := by
  obtain ⟨hsound, hkeeps⟩ := hrun.kept h
  have hexact : ∀ c C, t c = some C → C.destroy = false →
      (∀ B, s c = some B → Exact B.core B.base) → Exact C.core C.base := by
    intro c C hc hlive hB
    rcases hkeeps.keeps c C hc with ⟨B, hb, hBC⟩ | ⟨-, hC⟩
    · exact (hBC hlive).2 (hB B hb)
    · exact hC hlive
  refine ⟨hexact, fun p P d n hp hlive hnest hold hflushed hsub => ?_⟩
  have hdone : Done t p := ⟨hsound, fun c C hu hc hlive hnest =>
    hexact c C hc hlive fun B hb => hold c B C hu hb hc hnest, hflushed⟩
  exact hsub.counts hdone .refl hp hlive hnest

/-! An inode with another inode below it, which has one block of 64KB. -/

def rootBref : Bref := { Bref.zero with type := .inode, dataOff := 10 }
def fileBref : Bref := { Bref.zero with type := .inode, key := 5, dataOff := 10 }
def dataBref : Bref := { Bref.zero with type := .data, keybits := 16, dataOff := 16 }

def noChains : Sys Nat := fun _ => none

theorem noChains_ne (c : Nat) (C : Chain Nat) : noChains c ≠ some C := nofun

theorem noChains_sound : Sound noChains :=
  ⟨fun c C hc => absurd hc (noChains_ne c C), fun c C _ hc => absurd hc (noChains_ne c C),
    fun p P _ _ hp => absurd hp (noChains_ne p P), fun _ c _ C _ hc => absurd hc (noChains_ne c C),
    fun p P hp => absurd hp (noChains_ne p P)⟩

theorem free_set {s : Sys ι} {p c : ι} {key : UInt64} {C : Chain ι} (h : Free s p key)
    (hC : C.parent = some p → C.bref.key ≠ key) : Free (s.set c C) p key := by
  intro d D hd
  rcases set_cases hd with ⟨-, rfl⟩ | ⟨-, hd⟩
  · exact hC
  · exact h d D hd

theorem one_file_counts : ∃ (t : Sys Nat) (P : Chain Nat), Run noChains t ∧
    t 0 = some P ∧ P.bref.dataCount = 1024 + 65536 ∧ P.bref.inodeCount = 1 := by
  have hfree : ∀ p key, Free noChains p key := fun p key c C hc => absurd hc (noChains_ne c C)
  have h0 := Run.step (Run.refl (s := noChains))
    (@Step.alloc Nat _ noChains 0 rootBref 4 rfl rfl (by decide))
  have h1 := h0.step (@Step.alloc Nat _ _ 1 fileBref 4 rfl rfl (by decide))
  have h2 := h1.step (@Step.attach Nat _ _ 0 1 _ _ 5 0 rfl rfl (by decide) rfl rfl
    (free_set (free_set (hfree 0 5) nofun) nofun) (by decide))
  have h3 := h2.step (@Step.alloc Nat _ _ 2 dataBref 0 rfl rfl (by decide))
  have h4 := h3.step (@Step.attach Nat _ _ 1 2 _ _ 0 16 rfl rfl (by decide) rfl rfl
    (free_set (free_set (free_set (free_set (hfree 1 0) nofun) nofun) (by decide)) nofun) (by decide))
  have h5 := h4.step (@Step.flush Nat _ _ 1 2 _ _ _ _ false rfl rfl (by decide) rfl rfl rfl)
  have h6 := h5.step (@Step.flush Nat _ _ 0 1 _ _ _ _ false rfl rfl (by decide) rfl rfl rfl)
  have h7 := h6.step (@Step.flushRoot Nat _ _ 0 _ rfl rfl)
  refine ⟨_, _, h7, rfl, (run_counts noChains_sound h7).2 0 _ (1024 + 65536) 1 rfl rfl rfl
    (fun c B C _ hc => absurd hc (noChains_ne c B)) (fun c C _ hc => ?_) ?_⟩
  · match c with
    | 0 => obtain rfl := Option.some.inj hc; rfl
    | 1 => obtain rfl := Option.some.inj hc; rfl
    | 2 => obtain rfl := Option.some.inj hc; rfl
    | n + 3 => exact absurd hc nofun
  · refine .node rfl (@Below.block Nat _ 0 { fileBref with leafCount := 1, dataCount := 65536 } []
      1 _ 65536 0 0 0 rfl rfl rfl rfl (.node rfl ?_) .nil)
    exact @Below.leaf Nat _ 1 dataBref [] 0 0 rfl .nil

end Hammer2.Chain.Stats
