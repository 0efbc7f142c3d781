/-
# `Hammer2.Chain.Table` — block tables

A block table is an array of blockrefs: the ones that are there are sorted by key and do not
overlap, the others are empty.

    baseFind      `hammer2_base_find`
    baseInsert    `hammer2_base_insert`
    baseDelete    `hammer2_base_delete`
    linearFind    the search from index 0
    Table         what holds of a table and of what its chain keeps of it

`none` is a panic or an access outside the array.
-/
import Hammer2.Lib.Holes
import Mathlib.Algebra.Group.Nat.Defs
import Mathlib.Data.List.Perm.Basic

namespace Hammer2.Chain.Table

inductive BrefType where
  | empty | inode | indirect | data | dirent | freemapNode | freemapLeaf | freemap | volume
deriving DecidableEq

/-- `hammer2_blockref_t`; `rest` is what the tables do not look at. -/
structure Bref where
  type : BrefType
  keybits : UInt8
  key : UInt64
  dataOff : UInt64
  leafCount : UInt16
  dataCount : UInt64
  inodeCount : UInt64
  rest : Nat
deriving DecidableEq

/-- `bzero` -/
def Bref.zero : Bref := ⟨.empty, 0, 0, 0, 0, 0, 0, 0⟩

def Bref.isEmpty (b : Bref) : Bool := b.type = .empty

/-- `(hammer2_key_t)1 << keybits` -/
def Bref.range (b : Bref) : UInt64 := 1 <<< b.keybits.toUInt64

/-- `scan_end`, the last key. -/
def Bref.last (b : Bref) : UInt64 := b.key + b.range - 1

def leafMax : UInt16 := 65535

/-- What the chain of a table keeps of it. -/
structure Parent where
  countedBrefs : Bool
  cacheIndex : Int
  liveZero : Nat
  leafCount : UInt16
  dataCount : UInt64
  inodeCount : UInt64

/-- The flags of the chain of an entry. -/
structure Flags where
  blkmapped : Bool
  blkmapupd : Bool
  hintLeafCount : Bool

/-! ## Searching -/

/-- Search backwards. -/
def backward (base : List Bref) (keyBeg : UInt64) : Nat → Option Nat
  | 0 => some 0
  | i + 1 => base[i + 1]?.bind fun scan =>
      if scan.isEmpty = true ∨ scan.key > keyBeg then backward base keyBeg i else some (i + 1)

/-- Search forwards, over at most as many elements as there are. -/
def forward (base : List Bref) (limit : Nat) (keyBeg : UInt64) : Nat → Nat → Option Nat
  | 0, i => some i
  | n + 1, i => base[i]?.bind fun scan =>
      if scan.isEmpty = false ∧ (scan.key > keyBeg ∨ scan.last ≥ keyBeg) then some i
      else if i ≥ limit then some base.length
      else forward base limit keyBeg n (i + 1)

/-- Where the search begins. -/
def Parent.hint (parent : Parent) : Nat :=
  let i := if parent.cacheIndex ≥ parent.liveZero then (parent.liveZero : Int) - 1
    else parent.cacheIndex
  i.toNat

/-- `hammer2_base_find`: the index, and the next key. -/
def baseFind (parent : Parent) (base : List Bref) (keyNext keyBeg : UInt64) :
    Option (Nat × UInt64 × Parent) :=
  if parent.countedBrefs = false then none
  else if base.length = 0 then some (0, keyNext, parent)
  else if ¬ parent.hint < base.length then none
  else
    (backward base keyBeg parent.hint).bind fun b =>
      let parent := { parent with cacheIndex := b }
      (forward base parent.liveZero keyBeg (base.length - b) b).bind fun i =>
        if i = base.length then some (i, keyNext, parent)
        else
          let parent := { parent with cacheIndex := i }
          if i ≥ parent.liveZero then some (base.length, keyNext, parent)
          else base[i]?.map fun scan =>
            let scanEnd := scan.key + scan.range
            (i, if scanEnd ≠ 0 ∧ (keyNext > scanEnd ∨ keyNext = 0) then scanEnd else keyNext, parent)

/-! ## Statistics -/

/-- The bytes of a blockref itself. -/
def Bref.bytes (b : Bref) : UInt64 :=
  if b.dataOff % 64 ≠ 0 then 1 <<< (b.dataOff % 64) else 0

def incLeaf (n : UInt16) : UInt16 := if n ≠ leafMax then n + 1 else n

def addLeaf (n m : UInt16) : UInt16 :=
  if n.toNat + m.toNat < leafMax.toNat then n + m else leafMax

/-- The statistics of `hammer2_base_insert`. -/
def Parent.add (parent : Parent) (elm : Bref) : Parent :=
  let parent := { parent with dataCount := parent.dataCount + elm.bytes }
  match elm.type with
  | .inode => { parent with
      inodeCount := parent.inodeCount + 1 + elm.inodeCount
      leafCount := incLeaf parent.leafCount
      dataCount := parent.dataCount + elm.dataCount }
  | .data => { parent with leafCount := addLeaf (incLeaf parent.leafCount) elm.leafCount }
  | .indirect => { parent with
      dataCount := parent.dataCount + elm.dataCount
      inodeCount := parent.inodeCount + elm.inodeCount
      leafCount := addLeaf parent.leafCount elm.leafCount }
  | .dirent => { parent with leafCount := incLeaf parent.leafCount }
  | _ => parent

/-- One leaf less, and whether the count had not saturated. -/
def decLeaf (n : UInt16) : UInt16 := if n = leafMax then n else if n ≠ 0 then n - 1 else n

def subLeaf (n m : UInt16) : UInt16 := if n = leafMax then n else if n ≤ m then 0 else n - m

/-- The statistics of `hammer2_base_delete`. -/
def Parent.sub (parent : Parent) (scan : Bref) : Parent :=
  let parent := { parent with dataCount := parent.dataCount - scan.bytes }
  match scan.type with
  | .inode => { parent with
      inodeCount := parent.inodeCount - 1 - scan.inodeCount
      leafCount := decLeaf parent.leafCount
      dataCount := parent.dataCount - scan.dataCount }
  | .data => { parent with leafCount := subLeaf (decLeaf parent.leafCount) scan.leafCount }
  | .indirect => { parent with
      dataCount := parent.dataCount - scan.dataCount
      inodeCount := parent.inodeCount - scan.inodeCount
      leafCount := subLeaf parent.leafCount scan.leafCount }
  | .dirent => { parent with leafCount := decLeaf parent.leafCount }
  | _ => parent

/-- The chain is told that the leaf count has saturated. -/
def hints (parent : Parent) (scan : Bref) : Bool :=
  match scan.type with
  | .inode | .data | .indirect | .dirent => parent.leafCount = leafMax
  | _ => false

/-! ## Deletion -/

/-- `while (--i >= 0 && base[i].type == EMPTY)`: the new end. -/
def lastLive (base : List Bref) : Nat → Nat
  | 0 => 0
  | i + 1 => if Holes.holeAt Bref.isEmpty base i = true then lastLive base i else i + 1

/-- `hammer2_base_delete`: the table without the entry of `elm`, and the entry. -/
def baseDelete (parent : Parent) (base : List Bref) (chain : Flags) (elm : Bref) :
    Option (Parent × List Bref × Flags × Bref) :=
  (baseFind parent base 0 elm.key).bind fun (i, _, parent) =>
    base[i]?.bind fun scan =>
      if scan.isEmpty = true ∨ scan.key ≠ elm.key ∨
          (chain.blkmapupd = false ∧ scan.keybits ≠ elm.keybits) then none
      else
        let hint := hints parent scan
        let parent := parent.sub scan
        (Holes.put base i Bref.zero).map fun base =>
          (if parent.liveZero = i + 1 then { parent with liveZero := lastLive base i } else parent,
            base, ⟨false, false, chain.hintLeafCount || hint⟩, scan)

/-! ## Insertion -/

/-- The check at the end: from an entry that ends at `keyNext`. -/
def validateFrom (keyNext : UInt64) : List Bref → Bool
  | [] => true
  | b :: bs =>
      if b.isEmpty then validateFrom keyNext bs
      else if b.key ≤ keyNext then false
      else validateFrom b.last bs

def validate : List Bref → Bool
  | [] => true
  | b :: bs => if b.isEmpty then validate bs else validateFrom b.last bs

/-- The entry comes to slot `i`, before the entry there, with a hole filled up. -/
def makeRoom (parent : Parent) (base : List Bref) (i : Nat) (elm : Bref) :
    Option (Parent × List Bref) :=
  (Holes.findSlot Bref.isEmpty base i (base.length + 1) 0).bind fun
    | .before j =>
        if j + 1 = i then (Holes.put base j elm).map fun base => (parent, base)
        else ((Holes.memmove base j (j + 1) (i - j - 1)).bind fun base =>
          Holes.put base (i - 1) elm).map fun base => (parent, base)
    | .after k =>
        ((Holes.memmove base (i + 1) i (k - i)).bind fun base => Holes.put base i elm).map
          fun base =>
            (if parent.liveZero ≤ k then { parent with liveZero := k + 1 } else parent, base)

/-- `hammer2_base_insert` -/
def baseInsert (parent : Parent) (base : List Bref) (chain : Option Flags) (elm : Bref) :
    Option (Parent × List Bref × Option Flags) :=
  (baseFind parent base 0 elm.key).bind fun (i, _, parent) =>
    if ¬ i ≤ base.length then none
    else
      let chain := chain.map fun c => { c with blkmapped := true }
      let parent := parent.add elm
      if i = base.length ∧ parent.liveZero < base.length then
        (Holes.put base parent.liveZero elm).map fun base =>
          ({ parent with liveZero := parent.liveZero + 1 }, base, chain)
      else if i ≠ base.length ∧
          (base[i]?.map fun b => decide (b.key < elm.key ∨ elm.last ≥ b.key)) ≠ some false then none
      else
        (makeRoom parent base i elm).bind fun (parent, base) =>
          if validate base = true then some (parent, base, chain) else none

/-! ## Tables -/

/-- The first and the last key of a blockref. -/
def Bref.lo (b : Bref) : Nat := b.key.toNat
def Bref.hi (b : Bref) : Nat := b.last.toNat

/-- The blockrefs that are there. -/
abbrev entries (base : List Bref) : List Bref := Holes.live Bref.isEmpty base

/-- The entries are sorted and do not overlap, no range wraps, and `live_zero` is one past the
last of them. -/
structure Table (parent : Parent) (base : List Bref) : Prop where
  counted : parent.countedBrefs = true
  order : (entries base).Pairwise fun a b => a.hi < b.lo
  ranges : ∀ b ∈ entries base, b.lo ≤ b.hi
  ends : Holes.EndsAt Bref.isEmpty base parent.liveZero

/-- The last key of an aligned blockref; its range does not wrap. -/
theorem Bref.hi_eq {b : Bref} (hbits : b.keybits.toNat < 64)
    (halign : 2 ^ b.keybits.toNat ∣ b.lo) : b.hi = b.lo + (2 ^ b.keybits.toNat - 1) := by
  have hrange : b.range.toNat = 2 ^ b.keybits.toNat := by
    have hpow : 2 ^ b.keybits.toNat < 2 ^ 64 := Nat.pow_lt_pow_right (by decide) hbits
    unfold Bref.range
    rw [UInt64.toNat_shiftLeft, UInt8.toNat_toUInt64, Nat.mod_eq_of_lt hbits, UInt64.toNat_one,
      Nat.shiftLeft_eq, Nat.one_mul, Nat.mod_eq_of_lt hpow]
  have hpos : 0 < 2 ^ b.keybits.toNat := Nat.pow_pos (by decide)
  have hlo : b.lo < 2 ^ 64 := b.key.toNat_lt
  -- the next aligned key is at most 2 ^ 64
  have hnext : b.lo + 2 ^ b.keybits.toNat ≤ 2 ^ 64 := by
    obtain ⟨q, hq⟩ := halign
    obtain ⟨r, hr⟩ := Nat.pow_dvd_pow 2 (Nat.le_of_lt hbits)
    rw [hq, hr] at hlo ⊢
    have hqr : q < r := Nat.lt_of_mul_lt_mul_left hlo
    rw [← Nat.mul_succ]
    exact Nat.mul_le_mul_left _ hqr
  have hlast : b.hi = (b.lo + b.range.toNat + (2 ^ 64 - 1)) % 2 ^ 64 := by
    unfold Bref.hi Bref.last Bref.lo
    rw [UInt64.toNat_sub, UInt64.toNat_add, UInt64.toNat_one]
    omega
  rw [hlast, hrange]
  omega

variable {parent : Parent} {base : List Bref}

theorem mem_entries {b : Bref} : b ∈ entries base ↔ b ∈ base ∧ b.isEmpty = false := Holes.mem_live

theorem mem_of_getElem {i : Nat} {b : Bref} (h : base[i]? = some b) : b ∈ base :=
  List.mem_iff_getElem?.mpr ⟨i, h⟩

/-- Entries in earlier slots have lower keys. -/
theorem Table.lt (h : Table parent base) {i j : Nat} {a b : Bref} (hi : base[i]? = some a)
    (hj : base[j]? = some b) (ha : a.isEmpty = false) (hb : b.isEmpty = false) (hij : i < j) :
    a.hi < b.lo := by
  have hpair := List.pairwise_filter.mp h.order
  obtain ⟨hilt, rfl⟩ := List.getElem?_eq_some_iff.mp hi
  obtain ⟨hjlt, rfl⟩ := List.getElem?_eq_some_iff.mp hj
  exact List.pairwise_iff_getElem.mp hpair i j hilt hjlt hij (by rw [ha]; rfl) (by rw [hb]; rfl)

theorem Table.range (h : Table parent base) {i : Nat} {b : Bref} (hi : base[i]? = some b)
    (hb : b.isEmpty = false) : b.lo ≤ b.hi :=
  h.ranges b (mem_entries.mpr ⟨mem_of_getElem hi, hb⟩)

/-! ## What a search finds -/

/-- The first entry that ends at the key or behind it. -/
structure First (base : List Bref) (k : Nat) (i : Nat) : Prop where
  le : i ≤ base.length
  before : ∀ (t : Nat) b, t < i → base[t]? = some b → b.isEmpty = false → b.hi < k
  here : ∀ b, base[i]? = some b → b.isEmpty = false ∧ k ≤ b.hi

theorem backward_spec (keyBeg : UInt64) : ∀ {i : Nat}, i < base.length →
    ∃ b, backward base keyBeg i = some b ∧ b ≤ i ∧
      (0 < b → ∃ scan, base[b]? = some scan ∧ scan.isEmpty = false ∧ scan.lo ≤ keyBeg.toNat)
  | 0, _ => ⟨0, rfl, Nat.le_refl 0, fun h => absurd h (Nat.lt_irrefl 0)⟩
  | i + 1, hlt => by
      unfold backward
      rw [List.getElem?_eq_getElem hlt, Option.bind_some]
      split
      · obtain ⟨b, hb, hle, hscan⟩ := backward_spec keyBeg (Nat.lt_of_succ_lt hlt)
        exact ⟨b, hb, Nat.le_succ_of_le hle, hscan⟩
      · rename_i hstop
        rw [not_or] at hstop
        exact ⟨i + 1, rfl, Nat.le_refl _, fun _ => ⟨_, List.getElem?_eq_getElem hlt,
          Bool.eq_false_iff.mpr hstop.1, UInt64.le_iff_toNat_le.mp (UInt64.not_lt.mp hstop.2)⟩⟩

theorem forward_spec (h : Table parent base) (keyBeg : UInt64) : ∀ {n i : Nat},
    i + n = base.length →
    (∀ (t : Nat) b, t < i → base[t]? = some b → b.isEmpty = false → b.hi < keyBeg.toNat) →
    ∃ j, forward base parent.liveZero keyBeg n i = some j ∧ First base keyBeg.toNat j
  | 0, i, hlen, hbefore => by
      refine ⟨i, rfl, by omega, hbefore, fun b hb => ?_⟩
      rw [List.getElem?_eq_none (by omega)] at hb
      exact absurd hb nofun
  | n + 1, i, hlen, hbefore => by
      have hlt : i < base.length := by omega
      have hi : base[i]? = some base[i] := List.getElem?_eq_getElem hlt
      unfold forward
      rw [hi, Option.bind_some]
      split
      · rename_i hmatch
        refine ⟨i, rfl, Nat.le_of_lt hlt, hbefore, fun b hb => ?_⟩
        obtain rfl := Option.some.inj (hi.symm.trans hb)
        refine ⟨hmatch.1, ?_⟩
        have hrange := h.range hi hmatch.1
        rcases hmatch.2 with hkey | hlast
        · have hkey := UInt64.lt_iff_toNat_lt.mp hkey
          exact Nat.le_trans (Nat.le_of_lt hkey) hrange
        · exact UInt64.le_iff_toNat_le.mp hlast
      · rename_i hmatch
        have hhere : ∀ b, base[i]? = some b → b.isEmpty = false → b.hi < keyBeg.toNat := by
          intro b hb hne
          obtain rfl := Option.some.inj (hi.symm.trans hb)
          refine Nat.lt_of_not_le fun hle => hmatch ⟨hne, .inr ?_⟩
          exact UInt64.le_iff_toNat_le.mpr hle
        have hbefore' : ∀ (t : Nat) b, t < i + 1 → base[t]? = some b → b.isEmpty = false →
            b.hi < keyBeg.toNat := by
          intro t b ht hb hne
          rcases Nat.lt_succ_iff_lt_or_eq.mp ht with hlt | rfl
          · exact hbefore t b hlt hb hne
          · exact hhere b hb hne
        split
        · rename_i hlimit
          -- behind the end there are holes only
          refine ⟨base.length, rfl, Nat.le_refl _, fun t b _ hb hne => ?_, fun b hb => ?_⟩
          · exact hbefore t b (Nat.lt_of_lt_of_le (h.ends.lt hb hne) hlimit) hb hne
          · rw [List.getElem?_eq_none (Nat.le_refl _)] at hb
            exact absurd hb nofun
        · exact forward_spec h keyBeg (by omega) hbefore'

/-- The next key is lowered to the one behind an entry. -/
def Bref.lowers (b : Bref) (keyNext : UInt64) : UInt64 :=
  let scanEnd := b.key + b.range
  if scanEnd ≠ 0 ∧ (keyNext > scanEnd ∨ keyNext = 0) then scanEnd else keyNext

/-- The scan from index 0: the first entry that ends at the key or behind it, and the next key. -/
def linearFind (base : List Bref) (keyNext keyBeg : UInt64) : Nat × UInt64 :=
  let i := base.findIdx fun b => !b.isEmpty && decide (b.last ≥ keyBeg)
  match base[i]? with
  | none => (i, keyNext)
  | some b => (i, b.lowers keyNext)

/-- The search from the hint on, and the entry it stops at. -/
theorem baseFind_first (h : Table parent base) (keyNext keyBeg : UInt64) :
    ∃ i c, baseFind parent base keyNext keyBeg =
      some (i, (base[i]?.map fun b => b.lowers keyNext).getD keyNext,
        { parent with cacheIndex := c }) ∧ First base keyBeg.toNat i := by
  unfold baseFind
  rw [if_neg (by rw [h.counted]; exact nofun)]
  split
  · rename_i hzero
    have hnone : base[0]? = none := List.getElem?_eq_none (Nat.le_of_eq hzero)
    refine ⟨0, parent.cacheIndex, by rw [hnone]; rfl, Nat.zero_le _,
      fun t b ht => absurd ht (Nat.not_lt_zero t), fun b hb => ?_⟩
    rw [hnone] at hb
    exact absurd hb nofun
  · rename_i hzero
    have hle := h.ends.le
    have hhint : parent.hint < base.length := by
      unfold Parent.hint
      dsimp only
      split <;> omega
    rw [if_neg (not_not.mpr hhint)]
    obtain ⟨b, hb, hble, hscan⟩ := backward_spec keyBeg hhint
    have hbefore : ∀ (t : Nat) a, t < b → base[t]? = some a → a.isEmpty = false →
        a.hi < keyBeg.toNat := by
      intro t a ht ha hne
      obtain ⟨scan, hs, hsne, hlo⟩ := hscan (Nat.zero_lt_of_lt ht)
      exact Nat.lt_of_lt_of_le (h.lt ha hs hne hsne ht) hlo
    obtain ⟨i, hi, hfirst⟩ := forward_spec h keyBeg (n := base.length - b) (i := b) (by omega)
      hbefore
    rw [hb, Option.bind_some]
    dsimp only
    rw [hi, Option.bind_some]
    split
    · rename_i hend
      have hnone : base[i]? = none := List.getElem?_eq_none (Nat.le_of_eq hend.symm)
      exact ⟨i, _, by rw [hnone]; rfl, hfirst⟩
    · rename_i hend
      have hlt : i < base.length := Nat.lt_of_le_of_ne hfirst.le hend
      have hget : base[i]? = some base[i] := List.getElem?_eq_getElem hlt
      have hz := h.ends.lt hget (hfirst.here _ hget).1
      rw [if_neg (Nat.not_le.mpr hz)]
      refine ⟨i, i, ?_, hfirst⟩
      rw [hget]
      rfl

/-- **A search** finds the first entry that ends at the key or behind it, and changes nothing but
its hint. -/
theorem baseFind_spec (h : Table parent base) (keyNext keyBeg : UInt64) :
    ∃ i kn c, baseFind parent base keyNext keyBeg =
      some (i, kn, { parent with cacheIndex := c }) ∧ First base keyBeg.toNat i := by
  obtain ⟨i, c, hfind, hfirst⟩ := baseFind_first h keyNext keyBeg
  exact ⟨i, _, c, hfind, hfirst⟩

/-- The first entry is the one a scan from index 0 stops at. -/
theorem First.findIdx {keyBeg : UInt64} {i : Nat} (hf : First base keyBeg.toNat i) :
    base.findIdx (fun b => !b.isEmpty && decide (b.last ≥ keyBeg)) = i := by
  have hpass : ∀ (t : Nat) b, t < i → base[t]? = some b →
      (!b.isEmpty && decide (b.last ≥ keyBeg)) = false := by
    intro t b ht hb
    cases hne : b.isEmpty with
    | true => rfl
    | false =>
        have hlt := hf.before t b ht hb hne
        refine decide_eq_false fun hle => ?_
        exact Nat.not_le.mpr hlt (UInt64.le_iff_toNat_le.mp hle)
  rcases Nat.lt_or_eq_of_le hf.le with hlt | rfl
  · obtain ⟨hne, hle⟩ := hf.here _ (List.getElem?_eq_getElem hlt)
    refine (List.findIdx_eq hlt).mpr ⟨?_, fun t ht => ?_⟩
    · rw [hne]
      exact decide_eq_true (UInt64.le_iff_toNat_le.mpr hle)
    · exact hpass t _ ht (List.getElem?_eq_getElem (Nat.lt_trans ht hlt))
  · refine List.findIdx_eq_length_of_false fun b hb => ?_
    obtain ⟨t, ht⟩ := List.mem_iff_getElem?.mp hb
    exact hpass t b (List.getElem?_eq_some_iff.mp ht).1 ht

/-- **The search from a hint is the scan from index 0**, whatever the hint is, and stays within the
table. -/
theorem baseFind_linear (h : Table parent base) (keyNext keyBeg : UInt64) :
    ∃ c, baseFind parent base keyNext keyBeg =
      some ((linearFind base keyNext keyBeg).1, (linearFind base keyNext keyBeg).2,
        { parent with cacheIndex := c }) := by
  obtain ⟨i, c, hfind, hfirst⟩ := baseFind_first h keyNext keyBeg
  refine ⟨c, ?_⟩
  rw [hfind]
  unfold linearFind
  dsimp only
  rw [hfirst.findIdx]
  cases base[i]? with
  | none => rfl
  | some b => rfl

/-! ## Insertion -/

/-- The entries before the key of `elm` and those behind it, in a table with `elm` between. -/
theorem Table.insert {parent' : Parent} {base' : List Bref} {A B : List Bref} {elm : Bref}
    (h : Table parent base) (helm : elm.isEmpty = false) (hr : elm.lo ≤ elm.hi)
    (hold : entries base = A ++ B) (hA : ∀ a ∈ A, a.hi < elm.lo) (hB : ∀ b ∈ B, elm.hi < b.lo)
    (hnew : entries base' = A ++ elm :: B) (hcounted : parent'.countedBrefs = true)
    (hends : Holes.EndsAt Bref.isEmpty base' parent'.liveZero) : Table parent' base' := by
  have hpair := h.order
  have hranges := h.ranges
  rw [hold] at hpair hranges
  obtain ⟨hpA, hpB, hAB⟩ := List.pairwise_append.mp hpair
  refine ⟨hcounted, ?_, ?_, hends⟩
  · rw [hnew]
    refine List.pairwise_append.mpr ⟨hpA, List.pairwise_cons.mpr ⟨hB, hpB⟩, fun a ha b hb => ?_⟩
    rcases List.mem_cons.mp hb with rfl | hb
    · exact hA a ha
    · exact hAB a ha b hb
  · rw [hnew]
    intro b hb
    rcases List.mem_append.mp hb with hb | hb
    · exact hranges b (List.mem_append_left B hb)
    · rcases List.mem_cons.mp hb with rfl | hb
      · exact hr
      · exact hranges b (List.mem_append_right A hb)

theorem validateFrom_true : ∀ {bs : List Bref} {k : UInt64},
    (∀ b ∈ entries bs, k.toNat < b.lo) → (entries bs).Pairwise (fun a b => a.hi < b.lo) →
    validateFrom k bs = true
  | [], _, _, _ => rfl
  | b :: bs, k, hk, hpair => by
      unfold validateFrom
      cases hb : b.isEmpty with
      | true =>
          rw [entries, Holes.live_hole hb] at hk hpair
          rw [if_pos rfl]
          exact validateFrom_true hk hpair
      | false =>
          rw [entries, Holes.live_cons hb] at hk hpair
          obtain ⟨hrest, hpair⟩ := List.pairwise_cons.mp hpair
          have hlt := hk b List.mem_cons_self
          have hkey : ¬ b.key ≤ k := fun hle =>
            Nat.not_le.mpr hlt (UInt64.le_iff_toNat_le.mp hle)
          rw [if_neg Bool.false_ne_true, if_neg hkey]
          exact validateFrom_true hrest hpair

/-- The check at the end does not fail. -/
theorem validate_true : ∀ {bs : List Bref}, (entries bs).Pairwise (fun a b => a.hi < b.lo) →
    validate bs = true
  | [], _ => rfl
  | b :: bs, hpair => by
      unfold validate
      cases hb : b.isEmpty with
      | true =>
          rw [entries, Holes.live_hole hb] at hpair
          rw [if_pos rfl]
          exact validate_true hpair
      | false =>
          rw [entries, Holes.live_cons hb] at hpair
          obtain ⟨hrest, hpair⟩ := List.pairwise_cons.mp hpair
          rw [if_neg Bool.false_ne_true]
          exact validateFrom_true hrest hpair

/-- What `makeRoom` needs: at `i` there is an entry, or the table ends there with one. -/
structure Full (z : Nat) (base : List Bref) (i : Nat) : Prop where
  le : i ≤ base.length
  here : ∀ b, base[i]? = some b → b.isEmpty = false
  last : i = base.length → z = base.length

/-- **Making room** puts the entry between those before slot `i` and the others. -/
theorem makeRoom_spec {i : Nat} {elm : Bref}
    (hends : Holes.EndsAt Bref.isEmpty base parent.liveZero) (hfull : Full parent.liveZero base i)
    (helm : elm.isEmpty = false) (hroom : ∃ p, Holes.holeAt Bref.isEmpty base p = true) :
    ∃ z base', makeRoom parent base i elm = some ({ parent with liveZero := z }, base') ∧
      entries base' = entries (base.take i) ++ elm :: entries (base.drop i) ∧
      base'.length = base.length ∧ Holes.EndsAt Bref.isEmpty base' z := by
  obtain ⟨p, hp⟩ := hroom
  obtain ⟨e, he, hehole⟩ := Holes.holeAt_iff.mp hp
  have hplt := (List.getElem?_eq_some_iff.mp he).1
  have hne : p ≠ i := by
    rintro rfl
    rw [hfull.here e he] at hehole
    exact absurd hehole nofun
  have hle := hfull.le
  have hsome := @Holes.findSlot_isSome _ Bref.isEmpty base i p hp hne (base.length + 1) 0
    (by omega) (by omega) (by omega)
  obtain ⟨slot, hslot⟩ := Option.isSome_iff_exists.mp hsome
  have hnear := Holes.findSlot_spec (fun t ht hle => by omega) hslot
  unfold makeRoom
  rw [hslot, Option.bind_some]
  cases slot with
  | before j =>
      obtain ⟨hji, hj⟩ := hnear
      obtain ⟨A, e, B, C, rfl, hhole, rfl, rfl⟩ := Holes.split_before hj hji hle
      have hassoc : A ++ e :: (B ++ C) = (A ++ e :: B) ++ C := by rw [List.append_assoc]; rfl
      have hfront : (A ++ e :: B).length = A.length + B.length + 1 := by
        rw [List.length_append, List.length_cons]
        rfl
      have hz : A.length + B.length + 1 < parent.liveZero ∨
          C = [] ∧ parent.liveZero = A.length + B.length + 1 := by
        cases C with
        | nil =>
            refine .inr ⟨rfl, ?_⟩
            rw [List.append_nil] at hfull
            rw [hfull.last hfront.symm, hfront]
        | cons c C =>
            have hget : (A ++ e :: (B ++ c :: C))[A.length + B.length + 1]? = some c := by
              rw [hassoc, ← hfront, List.getElem?_append_right (Nat.le_refl _), Nat.sub_self]
              rfl
            exact .inl (hends.lt hget (hfull.here c hget))
      have hlive : entries (A ++ (B ++ elm :: C)) =
          entries ((A ++ e :: (B ++ C)).take (A.length + B.length + 1)) ++
            elm :: entries ((A ++ e :: (B ++ C)).drop (A.length + B.length + 1)) := by
        rw [hassoc, ← hfront, List.take_left, List.drop_left]
        simp only [entries, Holes.live_append, Holes.live_hole hhole, Holes.live_cons helm,
          List.append_assoc]
      refine ⟨parent.liveZero, A ++ (B ++ elm :: C), ?_, hlive, ?_, hends.close_left helm hz⟩
      · dsimp only
        split
        · rename_i hlast
          have hnil : B = [] := List.eq_nil_of_length_eq_zero (by omega)
          subst hnil
          rw [Holes.put, if_pos (by simp), List.set_append_right _ _ (Nat.le_refl _), Nat.sub_self]
          rfl
        · have hrun : A.length + B.length + 1 - A.length - 1 = B.length := by omega
          rw [hrun, Nat.add_sub_cancel, Holes.close_left]
          rfl
      · simp only [List.length_append, List.length_cons]
        omega
  | after k =>
      obtain ⟨hik, hklt, hk, hbetween⟩ := hnear
      obtain ⟨P, B, e, C, rfl, hhole, rfl, rfl⟩ := Holes.split_after hk hik
      have hB : ∃ D b, B = D ++ [b] ∧ b.isEmpty = false := by
        have hpos : B ≠ [] := by
          rintro rfl
          exact absurd hik (Nat.lt_irrefl _)
        refine ⟨B.dropLast, B.getLast hpos, (List.dropLast_append_getLast hpos).symm, ?_⟩
        have hlenB : 0 < B.length := List.length_pos_of_ne_nil hpos
        have hget : (P ++ (B ++ e :: C))[P.length + (B.length - 1)]? = some (B.getLast hpos) := by
          rw [List.getElem?_append_right (Nat.le_add_right _ _), Nat.add_sub_cancel_left,
            List.getElem?_append_left (by omega), ← List.getLast?_eq_getElem?,
            List.getLast?_eq_some_getLast]
        rcases Nat.eq_zero_or_pos (B.length - 1) with hzero | hpos'
        · rw [hzero, Nat.add_zero] at hget
          exact hfull.here _ hget
        · have hno := hbetween (P.length + (B.length - 1)) (by omega) (by omega)
          unfold Holes.holeAt at hno
          rw [hget] at hno
          exact hno
      have hlive : entries (P ++ elm :: (B ++ C)) =
          entries ((P ++ (B ++ e :: C)).take P.length) ++
            elm :: entries ((P ++ (B ++ e :: C)).drop P.length) := by
        rw [List.take_left, List.drop_left]
        simp only [entries, Holes.live_append, Holes.live_hole hhole, Holes.live_cons helm]
      refine ⟨_, P ++ elm :: (B ++ C), ?_, hlive, ?_, hends.close_right hhole hB⟩
      · have hrun : P.length + B.length - P.length = B.length := Nat.add_sub_cancel_left ..
        dsimp only
        rw [hrun, Holes.close_right]
        split <;> rfl
      · simp only [List.length_append, List.length_cons]
        omega

theorem entries_split (base : List Bref) (i : Nat) :
    entries base = entries (base.take i) ++ entries (base.drop i) := by
  rw [← Holes.live_append, List.take_append_drop]

/-- No entry overlaps `elm`. -/
def Apart (base : List Bref) (elm : Bref) : Prop :=
  ∀ b ∈ entries base, b.hi < elm.lo ∨ elm.hi < b.lo

theorem First.below {i k : Nat} (hf : First base k i) : ∀ a ∈ entries (base.take i), a.hi < k := by
  intro a ha
  obtain ⟨hmem, hlive⟩ := mem_entries.mp ha
  obtain ⟨t, ht⟩ := List.mem_iff_getElem?.mp hmem
  obtain ⟨hlt, -⟩ := List.getElem?_eq_some_iff.mp ht
  rw [List.length_take] at hlt
  rw [List.getElem?_take_of_lt (by omega)] at ht
  exact hf.before t a (by omega) ht hlive

/-- From a slot on, the entries are above what the one there is above of. -/
theorem Table.above (h : Table parent base) {i k : Nat} (hk : ∀ b, base[i]? = some b →
    b.isEmpty = false ∧ k < b.lo) : ∀ b ∈ entries (base.drop i), k < b.lo := by
  intro b hb
  obtain ⟨hmem, hlive⟩ := mem_entries.mp hb
  obtain ⟨t, ht⟩ := List.mem_iff_getElem?.mp hmem
  rw [List.getElem?_drop] at ht
  have hlt := (List.getElem?_eq_some_iff.mp ht).1
  have hget : base[i]? = some base[i] := List.getElem?_eq_getElem (by omega)
  obtain ⟨hlive', hbelow⟩ := hk _ hget
  cases t with
  | zero =>
      obtain rfl := Option.some.inj (hget.symm.trans ht)
      exact hbelow
  | succ t =>
      have hrange := h.range hget hlive'
      have hnext := h.lt hget ht hlive' hlive (by omega)
      omega

theorem First.above (h : Table parent base) {elm : Bref} {i : Nat} (hf : First base elm.lo i)
    (hapart : Apart base elm) : ∀ b ∈ entries (base.drop i), elm.hi < b.lo := by
  refine h.above fun b hget => ?_
  obtain ⟨hlive, hle⟩ := hf.here b hget
  rcases hapart b (mem_entries.mpr ⟨mem_of_getElem hget, hlive⟩) with hlow | hhigh
  · exact absurd hle (Nat.not_le.mpr hlow)
  · exact ⟨hlive, hhigh⟩

@[simp] theorem Parent.add_countedBrefs (parent : Parent) (elm : Bref) :
    (parent.add elm).countedBrefs = parent.countedBrefs := by
  unfold Parent.add
  cases elm.type <;> rfl

@[simp] theorem Parent.add_liveZero (parent : Parent) (elm : Bref) :
    (parent.add elm).liveZero = parent.liveZero := by
  unfold Parent.add
  cases elm.type <;> rfl

/-- An entry that is put into the first of the holes at the end. -/
theorem fill_spec {elm : Bref} {z : Nat} (hends : Holes.EndsAt Bref.isEmpty base z)
    (hlt : z < base.length) (helm : elm.isEmpty = false) :
    entries (base.set z elm) = entries base ++ [elm] ∧
      Holes.EndsAt Bref.isEmpty (base.set z elm) (z + 1) := by
  obtain ⟨A, y, C, rfl, rfl⟩ : ∃ A y C, base = A ++ y :: C ∧ A.length = z :=
    ⟨base.take z, base[z], base.drop (z + 1),
      by rw [← List.drop_eq_getElem_cons hlt, List.take_append_drop],
      by rw [List.length_take]; omega⟩
  have hholes := hends.holes
  rw [List.drop_left] at hholes
  have hnone : Holes.live Bref.isEmpty (y :: C) = [] :=
    List.filter_eq_nil_iff.mpr fun x hx => by rw [hholes x hx]; exact nofun
  have hC : ∀ x ∈ C, x.isEmpty = true := fun x hx => hholes x (List.mem_cons_of_mem y hx)
  have hnoneC : Holes.live Bref.isEmpty C = [] :=
    List.filter_eq_nil_iff.mpr fun x hx => by rw [hC x hx]; exact nofun
  have hset : (A ++ y :: C).set A.length elm = A ++ elm :: C := by
    rw [List.set_append_right _ _ (Nat.le_refl _), Nat.sub_self]
    rfl
  rw [hset]
  refine ⟨?_, Holes.endsAt_append helm hC⟩
  have hold : entries (A ++ y :: C) = entries A := by
    rw [entries, Holes.live_append, hnone, List.append_nil]
  rw [hold, entries, Holes.live_append, Holes.live_cons helm, hnoneC]

/-- **An insertion** puts the entry between those before it and those behind it. -/
theorem baseInsert_spec (h : Table parent base) (chain : Option Flags) {elm : Bref}
    (helm : elm.isEmpty = false) (hr : elm.lo ≤ elm.hi) (hapart : Apart base elm)
    (hroom : ∃ p, Holes.holeAt Bref.isEmpty base p = true) :
    ∃ c z base' A B,
      baseInsert parent base chain elm =
        some ({ ({ parent with cacheIndex := c } : Parent).add elm with liveZero := z }, base',
          chain.map fun c => { c with blkmapped := true }) ∧
      entries base = A ++ B ∧ entries base' = A ++ elm :: B ∧ base'.length = base.length ∧
      Table { ({ parent with cacheIndex := c } : Parent).add elm with liveZero := z } base' := by
  obtain ⟨i, kn, c, hfind, hfirst⟩ := baseFind_spec h 0 elm.key
  have hA := hfirst.below
  have hB := hfirst.above h hapart
  unfold baseInsert
  rw [hfind, Option.bind_some]
  dsimp only
  rw [if_neg (not_not.mpr hfirst.le)]
  have hadd : (({ parent with cacheIndex := c } : Parent).add elm).liveZero = parent.liveZero :=
    Parent.add_liveZero ..
  have hcounted : (({ parent with cacheIndex := c } : Parent).add elm).countedBrefs = true := by
    rw [Parent.add_countedBrefs]
    exact h.counted
  split
  · -- the first of the holes at the end
    rename_i hshort
    obtain ⟨rfl, hlt⟩ := hshort
    rw [hadd] at hlt
    obtain ⟨hentries, hends⟩ := fill_spec h.ends hlt helm
    rw [List.take_length] at hA
    refine ⟨c, parent.liveZero + 1, base.set parent.liveZero elm, entries base, [], ?_,
      (List.append_nil _).symm, hentries, List.length_set, ?_⟩
    · rw [hadd, Holes.put, if_pos hlt]
      rfl
    · exact h.insert helm hr (List.append_nil _).symm hA (by rintro _ ⟨⟩) hentries hcounted hends
  · rename_i hshort
    split
    · -- the entry that was found does not overlap
      rename_i hover
      obtain ⟨hend, hover⟩ := hover
      have hi : i < base.length := Nat.lt_of_le_of_ne hfirst.le hend
      have hget : base[i]? = some base[i] := List.getElem?_eq_getElem hi
      have hmem : base[i] ∈ entries (base.drop i) := by
        refine mem_entries.mpr ⟨?_, (hfirst.here _ hget).1⟩
        rw [List.drop_eq_getElem_cons hi]
        exact List.mem_cons_self
      have habove := hB _ hmem
      refine absurd ?_ hover
      rw [hget, Option.map_some, Option.some_inj, decide_eq_false_iff_not, not_or]
      refine ⟨fun hkey => ?_, fun hkey => ?_⟩
      · have hkey : base[i].lo < elm.lo := UInt64.lt_iff_toNat_lt.mp hkey
        omega
      · have hkey : base[i].lo ≤ elm.hi := UInt64.le_iff_toNat_le.mp hkey
        omega
    · have hfull : Full parent.liveZero base i := by
        refine ⟨hfirst.le, fun b hb => (hfirst.here b hb).1, fun hend => ?_⟩
        have hle := h.ends.le
        rw [hadd] at hshort
        exact Nat.le_antisymm hle (Nat.not_lt.mp fun hlt => hshort ⟨hend, hlt⟩)
      obtain ⟨z, base', hmake, hentries, hlen, hends⟩ :=
        @makeRoom_spec (({ parent with cacheIndex := c } : Parent).add elm) base i elm
          (by rw [hadd]; exact h.ends) (by rw [hadd]; exact hfull) helm hroom
      have htable : Table
          { ({ parent with cacheIndex := c } : Parent).add elm with liveZero := z } base' :=
        h.insert helm hr (entries_split base i) hA hB hentries hcounted hends
      refine ⟨c, z, base', _, _, ?_, entries_split base i, hentries, hlen, htable⟩
      rw [hmake, Option.bind_some]
      exact if_pos (validate_true htable.order)

/-- An insertion that does not panic is one of an entry that overlaps none, with room for it. -/
theorem baseInsert_some (h : Table parent base) {chain : Option Flags} {elm : Bref}
    (hr : elm.lo ≤ elm.hi) {r : Parent × List Bref × Option Flags}
    (hins : baseInsert parent base chain elm = some r) :
    Apart base elm ∧ ∃ p, Holes.holeAt Bref.isEmpty base p = true := by
  obtain ⟨i, kn, c, hfind, hfirst⟩ := baseFind_spec h 0 elm.key
  have hadd : (({ parent with cacheIndex := c } : Parent).add elm).liveZero = parent.liveZero :=
    Parent.add_liveZero ..
  have hbelow := hfirst.below
  unfold baseInsert at hins
  rw [hfind, Option.bind_some] at hins
  dsimp only at hins
  rw [if_neg (not_not.mpr hfirst.le)] at hins
  split at hins
  · rename_i hshort
    obtain ⟨rfl, hlt⟩ := hshort
    rw [hadd] at hlt
    rw [List.take_length] at hbelow
    refine ⟨fun b hb => .inl (hbelow b hb), parent.liveZero, ?_⟩
    refine Holes.holeAt_iff.mpr ⟨_, List.getElem?_eq_getElem hlt, h.ends.holes _ ?_⟩
    rw [List.drop_eq_getElem_cons hlt]
    exact List.mem_cons_self
  · split at hins
    · exact absurd hins nofun
    · rename_i hover
      obtain ⟨⟨p, b⟩, hmake, -⟩ := Option.bind_eq_some_iff.mp hins
      obtain ⟨slot, hslot, -⟩ := Option.bind_eq_some_iff.mp hmake
      refine ⟨fun b hb => ?_, ?_⟩
      · rw [entries_split base i] at hb
        rcases List.mem_append.mp hb with hb | hb
        · exact .inl (hbelow b hb)
        · refine .inr (h.above (fun b hget => ?_) b hb)
          have hi := (List.getElem?_eq_some_iff.mp hget).1
          rw [hget, Option.map_some, not_and, not_not, Option.some_inj, decide_eq_false_iff_not,
            not_or] at hover
          exact ⟨(hfirst.here b hget).1,
            UInt64.lt_iff_toNat_lt.mp (UInt64.not_le.mp (hover (Nat.ne_of_lt hi)).2)⟩
      · have hnear := Holes.findSlot_spec (fun t ht hle => by omega) hslot
        cases slot with
        | before j => exact ⟨j, hnear.2⟩
        | after k => exact ⟨k, hnear.2.2.1⟩

/-! ## Deletion -/

theorem lastLive_spec (base : List Bref) : ∀ {i : Nat}, i ≤ base.length →
    lastLive base i ≤ i ∧
      (∀ t, lastLive base i ≤ t → t < i → Holes.holeAt Bref.isEmpty base t = true) ∧
      (0 < lastLive base i →
        ∃ x, base[lastLive base i - 1]? = some x ∧ x.isEmpty = false)
  | 0, _ => ⟨Nat.le_refl 0, fun t _ ht => absurd ht (Nat.not_lt_zero t),
      fun h => absurd h (Nat.lt_irrefl 0)⟩
  | i + 1, hle => by
      unfold lastLive
      split
      · rename_i hhole
        obtain ⟨hz, hholes, hlast⟩ := lastLive_spec base (Nat.le_of_succ_le hle)
        refine ⟨Nat.le_succ_of_le hz, fun t hzt ht => ?_, hlast⟩
        rcases Nat.lt_succ_iff_lt_or_eq.mp ht with hlt | rfl
        · exact hholes t hzt hlt
        · exact hhole
      · rename_i hlive
        refine ⟨Nat.le_refl _, fun t hzt ht => absurd ht (Nat.not_lt.mpr hzt), fun _ => ?_⟩
        have hget : base[i]? = some base[i] := List.getElem?_eq_getElem hle
        refine ⟨base[i], hget, Bool.eq_false_iff.mpr fun hh => hlive ?_⟩
        exact Holes.holeAt_iff.mpr ⟨_, hget, hh⟩

@[simp] theorem Parent.sub_countedBrefs (parent : Parent) (elm : Bref) :
    (parent.sub elm).countedBrefs = parent.countedBrefs := by
  unfold Parent.sub
  cases elm.type <;> rfl

@[simp] theorem Parent.sub_liveZero (parent : Parent) (elm : Bref) :
    (parent.sub elm).liveZero = parent.liveZero := by
  unfold Parent.sub
  cases elm.type <;> rfl

/-- The search for the key of an entry finds it. -/
theorem First.entry (h : Table parent base) {x : Bref} (hx : x ∈ entries base) {i : Nat}
    (hf : First base x.lo i) : base[i]? = some x := by
  obtain ⟨hmem, hlive⟩ := mem_entries.mp hx
  obtain ⟨p, hp⟩ := List.mem_iff_getElem?.mp hmem
  have hrange := h.ranges x hx
  have hlt := (List.getElem?_eq_some_iff.mp hp).1
  rcases Nat.lt_trichotomy i p with hip | rfl | hpi
  · have hget : base[i]? = some base[i] := List.getElem?_eq_getElem (Nat.lt_trans hip hlt)
    obtain ⟨hlive', hle⟩ := hf.here _ hget
    have hbelow := h.lt hget hp hlive' hlive hip
    omega
  · exact hp
  · have hbelow := hf.before p x hpi hp hlive
    omega

/-- The end after the entry at `i` has become a hole. -/
theorem clear_ends {A C : List Bref} {x : Bref} {z : Nat} (hx : x.isEmpty = false)
    (h : Holes.EndsAt Bref.isEmpty (A ++ x :: C) z) :
    Holes.EndsAt Bref.isEmpty (A ++ Bref.zero :: C)
      (if z = A.length + 1 then lastLive (A ++ Bref.zero :: C) A.length else z) := by
  have hget : (A ++ x :: C)[A.length]? = some x := by
    rw [List.getElem?_append_right (Nat.le_refl _), Nat.sub_self]
    rfl
  have hlt := h.lt hget hx
  split
  · rename_i hz
    have hle : A.length ≤ (A ++ Bref.zero :: C).length := by
      rw [List.length_append]
      exact Nat.le_add_right ..
    obtain ⟨hll, hholes, hlast⟩ := lastLive_spec (A ++ Bref.zero :: C) hle
    refine ⟨Nat.le_trans hll hle, fun y hy => ?_, hlast⟩
    obtain ⟨t, ht⟩ := List.mem_iff_getElem?.mp hy
    rw [List.getElem?_drop] at ht
    rcases Nat.lt_trichotomy (lastLive (A ++ Bref.zero :: C) A.length + t) A.length with
      hbelow | heq | habove
    · obtain ⟨y', hy', hhole⟩ := Holes.holeAt_iff.mp (hholes _ (Nat.le_add_right ..) hbelow)
      obtain rfl := Option.some.inj (hy'.symm.trans ht)
      exact hhole
    · rw [heq, List.getElem?_append_right (Nat.le_refl _), Nat.sub_self] at ht
      obtain rfl := Option.some.inj ht
      rfl
    · refine h.holes y ?_
      refine List.mem_iff_getElem?.mpr ⟨lastLive (A ++ Bref.zero :: C) A.length + t - z, ?_⟩
      have hsum : z + (lastLive (A ++ Bref.zero :: C) A.length + t - z) =
          lastLive (A ++ Bref.zero :: C) A.length + t := by omega
      rw [List.getElem?_drop, hsum, List.getElem?_append_right (Nat.le_of_lt habove)]
      rw [List.getElem?_append_right (Nat.le_of_lt habove)] at ht
      obtain ⟨s, hs⟩ : ∃ s, lastLive (A ++ Bref.zero :: C) A.length + t - A.length = s + 1 :=
        Nat.exists_eq_succ_of_ne_zero (by omega)
      rw [hs] at ht ⊢
      exact ht
  · rename_i hz
    have hlt' : A.length + 1 < z := by omega
    refine h.congr hlt' ?_ ?_
    · rw [List.length_append, List.length_append]
      rfl
    · rw [← List.drop_drop, ← List.drop_drop, List.drop_left, List.drop_left]
      rfl

/-- **A deletion** takes the entry out, and nothing else. -/
theorem baseDelete_spec (h : Table parent base) (chain : Flags) {elm x : Bref}
    (hx : x ∈ entries base) (hkey : x.key = elm.key)
    (hbits : chain.blkmapupd = true ∨ x.keybits = elm.keybits) :
    ∃ c z base' A B,
      baseDelete parent base chain elm =
        some ({ ({ parent with cacheIndex := c } : Parent).sub x with liveZero := z }, base',
          ⟨false, false, chain.hintLeafCount || hints parent x⟩, x) ∧
      entries base = A ++ x :: B ∧ entries base' = A ++ B ∧ base'.length = base.length ∧
      Table { ({ parent with cacheIndex := c } : Parent).sub x with liveZero := z } base' := by
  obtain ⟨i, kn, c, hfind, hfirst⟩ := baseFind_spec h 0 elm.key
  have hget := First.entry h hx (hkey ▸ hfirst)
  have hlive := (mem_entries.mp hx).2
  obtain ⟨hlt, hix⟩ := List.getElem?_eq_some_iff.mp hget
  have hsub : (({ parent with cacheIndex := c } : Parent).sub x).liveZero = parent.liveZero :=
    Parent.sub_liveZero ..
  have hcounted : (({ parent with cacheIndex := c } : Parent).sub x).countedBrefs = true := by
    rw [Parent.sub_countedBrefs]
    exact h.counted
  have hfound : ¬ (x.isEmpty = true ∨ x.key ≠ elm.key ∨
      (chain.blkmapupd = false ∧ x.keybits ≠ elm.keybits)) := by
    rintro (hempty | hne | ⟨hupd, hne⟩)
    · rw [hlive] at hempty
      exact absurd hempty nofun
    · exact hne hkey
    · rcases hbits with hbits | hbits
      · rw [hupd] at hbits
        exact absurd hbits nofun
      · exact hne hbits
  obtain ⟨A, C, rfl, rfl⟩ : ∃ A C, base = A ++ x :: C ∧ A.length = i :=
    ⟨base.take i, base.drop (i + 1),
      by rw [← hix, ← List.drop_eq_getElem_cons hlt, List.take_append_drop],
      by rw [List.length_take]; omega⟩
  have hset : (A ++ x :: C).set A.length Bref.zero = A ++ Bref.zero :: C := by
    rw [List.set_append_right _ _ (Nat.le_refl _), Nat.sub_self]
    rfl
  have hold : entries (A ++ x :: C) = entries A ++ x :: entries C := by
    rw [entries, Holes.live_append, Holes.live_cons hlive]
  have hnew : entries (A ++ Bref.zero :: C) = entries A ++ entries C := by
    rw [entries, Holes.live_append, Holes.live_hole rfl]
  have horder := h.order
  have hranges := h.ranges
  rw [hold] at horder hranges
  have hless : (entries A ++ entries C).Sublist (entries A ++ x :: entries C) :=
    (List.sublist_cons_self x _).append_left _
  refine ⟨c, if (({ parent with cacheIndex := c } : Parent).sub x).liveZero = A.length + 1 then
      lastLive (A ++ Bref.zero :: C) A.length
    else (({ parent with cacheIndex := c } : Parent).sub x).liveZero, A ++ Bref.zero :: C,
    entries A, entries C, ?_, hold, hnew, ?_, hcounted, ?_, ?_,
    clear_ends hlive (by rw [hsub]; exact h.ends)⟩
  · unfold baseDelete
    rw [hfind, Option.bind_some]
    dsimp only
    rw [hget, Option.bind_some, if_neg hfound, Holes.put, if_pos hlt, hset, Option.map_some]
    split <;> rfl
  · rw [List.length_append, List.length_append]
    rfl
  · rw [hnew]
    exact horder.sublist hless
  · rw [hnew]
    exact fun b hb => hranges b (hless.subset hb)

/-- A deletion that does not panic is one of an entry with the key. -/
theorem baseDelete_some (h : Table parent base) {chain chain' : Flags} {elm x : Bref}
    {parent' : Parent} {base' : List Bref}
    (hdel : baseDelete parent base chain elm = some (parent', base', chain', x)) :
    x ∈ entries base ∧ x.key = elm.key ∧ (chain.blkmapupd = true ∨ x.keybits = elm.keybits) := by
  obtain ⟨⟨i, kn, p⟩, hfind, hdel⟩ := Option.bind_eq_some_iff.mp hdel
  obtain ⟨scan, hscan, hdel⟩ := Option.bind_eq_some_iff.mp hdel
  split at hdel
  · exact absurd hdel nofun
  · rename_i hfound
    obtain ⟨b, hput, hdel⟩ := Option.map_eq_some_iff.mp hdel
    obtain rfl : scan = x := congrArg (fun r => r.2.2.2) hdel
    rw [not_or, not_or, not_not, not_and, not_not] at hfound
    obtain ⟨hlive, hkey, hbits⟩ := hfound
    refine ⟨mem_entries.mpr ⟨mem_of_getElem hscan, Bool.eq_false_iff.mpr hlive⟩, hkey, ?_⟩
    cases hupd : chain.blkmapupd with
    | true => exact .inl rfl
    | false => exact .inr (hbits hupd)

/-! ## Both -/

/-- **Block tables are kept.** In a table with a hole an entry that overlaps none can be inserted,
and an entry that is there can be deleted: no access is outside the array, no panic is reached, and
what is left is a table, with that entry more or less and no other change. -/
theorem table_kept (h : Table parent base) (elm : Bref) :
    (∀ chain : Option Flags, elm.isEmpty = false → elm.lo ≤ elm.hi → Apart base elm →
      (∃ p, Holes.holeAt Bref.isEmpty base p = true) →
      ∃ parent' base' chain', baseInsert parent base chain elm = some (parent', base', chain') ∧
        Table parent' base' ∧ base'.length = base.length ∧
        (entries base').Perm (elm :: entries base)) ∧
    (∀ (chain : Flags) (x : Bref), x ∈ entries base → x.key = elm.key →
      (chain.blkmapupd = true ∨ x.keybits = elm.keybits) →
      ∃ parent' base' chain', baseDelete parent base chain elm = some (parent', base', chain', x) ∧
        Table parent' base' ∧ base'.length = base.length ∧
        (entries base).Perm (x :: entries base')) := by
  refine ⟨fun chain helm hr hapart hroom => ?_, fun chain x hx hkey hbits => ?_⟩
  · obtain ⟨c, z, base', A, B, hins, hold, hnew, hlen, htable⟩ :=
      baseInsert_spec h chain helm hr hapart hroom
    refine ⟨_, base', _, hins, htable, hlen, ?_⟩
    rw [hold, hnew]
    exact List.perm_middle
  · obtain ⟨c, z, base', A, B, hdel, hold, hnew, hlen, htable⟩ :=
      baseDelete_spec h chain hx hkey hbits
    refine ⟨_, base', _, hdel, htable, hlen, ?_⟩
    rw [hold, hnew]
    exact List.perm_middle

/-- A data block of 64KB. -/
def dataAt (key : UInt64) : Bref := { Bref.zero with type := .data, keybits := 16, key := key }

/-- Four slots, the first and the third of them holes. -/
def holed : List Bref := [Bref.zero, dataAt 0, Bref.zero, dataAt 131072]

def holedParent : Parent := ⟨true, 0, 4, 2, 0, 0⟩

theorem holed_table : Table holedParent holed :=
  ⟨rfl, by decide, by decide, by decide, by decide, fun _ => ⟨_, rfl, rfl⟩⟩

/-- From a hint behind the table. -/
theorem holed_linear : ∃ c, baseFind { holedParent with cacheIndex := 9 } holed 0 65536 =
    some (3, 196608, { holedParent with cacheIndex := c }) :=
  @baseFind_linear { holedParent with cacheIndex := 9 } holed
    ⟨rfl, holed_table.order, holed_table.ranges, holed_table.ends⟩ 0 65536

theorem holed_kept :
    (∃ parent' base' chain',
      baseInsert holedParent holed none (dataAt 65536) = some (parent', base', chain') ∧
      Table parent' base' ∧ base'.length = 4 ∧
      (entries base').Perm [dataAt 65536, dataAt 0, dataAt 131072]) ∧
    (∃ parent' base' chain',
      baseDelete holedParent holed ⟨true, false, false⟩ (dataAt 131072) =
        some (parent', base', chain', dataAt 131072) ∧
      Table parent' base' ∧ base'.length = 4 ∧
      [dataAt 0, dataAt 131072].Perm (dataAt 131072 :: entries base')) := by
  have htable := holed_table
  refine ⟨(table_kept htable (dataAt 65536)).1 none rfl (by decide) ?_ ⟨0, rfl⟩,
    (table_kept htable (dataAt 131072)).2 ⟨true, false, false⟩ _ ?_ rfl (.inr rfl)⟩
  · unfold Apart
    decide
  · decide

end Hammer2.Chain.Table
