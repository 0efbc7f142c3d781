/-
# `Hammer2.Chain.Indkey` — the range of a new indirect block

When a block table is full, some of its entries go to a new indirect block.  Its range is chosen
in one of three ways, all of them from the entries that are there.

    indkeyFreemap    the next level over the lowest of the smallest entries
    indkeyFile       a range some bits larger, over the lowest of the smallest entries
    indkeyDir        the half of the range of all entries with more of them
    Lowest           the lowest of the smallest entries
    indkeyDir_spec   the half has at least half of the entries
-/
import Hammer2.Chain.Merged

namespace Hammer2.Chain.Indkey

open Table Merged KeyRange

/-- The searches before `maxloops` is used up. -/
def maxLoops : Nat := 299999

/-! ## Freemaps and files -/

/-- The loop of `hammer2_chain_indkey_freemap` and `hammer2_chain_indkey_file`: the key and the
bits so far, and an entry. -/
def lowest (best : UInt64 × Nat) (b : Bref) : Option (UInt64 × Nat) :=
  if best.2 > b.keybits.toNat then some (b.key, b.keybits.toNat)
  else if best.2 = b.keybits.toNat ∧ b.key < best.1 then some (b.key, best.2)
  else some best

/-- The next level of the freemap. -/
def nextLevel (keybits : Nat) : Option Nat :=
  if keybits = 22 then some 30
  else if keybits = 30 then some 38
  else if keybits = 38 then some 46
  else if keybits = 46 then some 54
  else if keybits = 54 then some 62
  else none

/-- `hammer2_chain_indkey_freemap` -/
def indkeyFreemap (parent : Node) (key : UInt64) : Option (Node × UInt64 × Nat) :=
  (scan lowest maxLoops parent 0 (key, 64)).bind fun (parent, key, keybits) =>
    (nextLevel keybits).map fun keybits => (parent, key, keybits)

/-- The bits of an indirect block with so many entries. -/
def indRadix (ncount : Nat) : Option Nat :=
  if ncount = 32 then some 5 else if ncount = 128 then some 7 else if ncount = 512 then some 9
  else none

/-- `hammer2_chain_indkey_file` -/
def indkeyFile (parent : Node) (key : UInt64) (ncount : Nat) : Option (Node × UInt64 × Nat) :=
  (scan lowest maxLoops parent 0 (key, 64)).bind fun (parent, key, keybits) =>
    (indRadix ncount).map fun nradix =>
      let nradix := if nradix ≥ 64 then 63 else nradix
      (parent, key, keybits + nradix)

/-! ## Directories -/

/-- The bits of the range, and how many of the entries are in its two halves. -/
structure Halves where
  keybits : Nat
  locount : Nat
  hicount : Nat

/-- All entries go to one half. -/
def Halves.collapse (s : Halves) (keybits : Nat) (high : Bool) : Halves :=
  if high then ⟨keybits, 0, s.hicount + s.locount⟩ else ⟨keybits, s.locount + s.hicount, 0⟩

/-- `while (nkeybits < 64 && rounddown2(key ^ bref->key, 1 << nkeybits) != 0)`, at most so many
times. -/
def widen (x : UInt64) : Nat → Nat → Nat
  | 0, nkeybits => nkeybits
  | fuel + 1, nkeybits =>
      if nkeybits < 64 ∧ roundDown x (bit nkeybits) ≠ 0 then widen x fuel (nkeybits + 1)
      else nkeybits

/-- `(hammer2_key_t)1 << (nkeybits - 1)` -/
def topBit (nkeybits : Nat) : UInt64 := 1 <<< (UInt64.ofNat nkeybits - 1)

/-- The loop of `hammer2_chain_indkey_dir`. -/
def expand (key : UInt64) (s : Halves) (b : Bref) : Option Halves :=
  (if s.keybits < b.keybits.toNat then
      if b.keybits.toNat > 64 then none else some b.keybits.toNat
    else some s.keybits).map fun nkeybits =>
    let nkeybits := widen (key ^^^ b.key) 64 nkeybits
    let s := if s.keybits ≠ nkeybits then s.collapse nkeybits (topBit nkeybits &&& key ≠ 0) else s
    if topBit nkeybits &&& b.key ≠ 0 then { s with hicount := s.hicount + 1 }
    else { s with locount := s.locount + 1 }

/-- `while ((1 << keybits) < ncount)`, at most so many times. -/
def fill (key ncount : UInt64) : Nat → Halves → Halves
  | 0, s => s
  | fuel + 1, s =>
      if bit s.keybits < ncount then
        fill key ncount fuel (s.collapse (s.keybits + 1) (key &&& bit (s.keybits + 1) ≠ 0))
      else s

/-- The key of the half with more entries. -/
def Halves.key (s : Halves) (key : UInt64) : UInt64 :=
  if s.hicount > s.locount then key ||| bit s.keybits
  else key &&& (~~~1 <<< UInt64.ofNat s.keybits)

/-- `hammer2_chain_indkey_dir` -/
def indkeyDir (parent : Node) (key : UInt64) (keybits ncount : Nat) :
    Option (Node × UInt64 × Nat) :=
  (scan (expand key) maxLoops parent 0 ⟨keybits, 0, 0⟩).map fun (parent, s) =>
    let s := fill key (UInt64.ofNat ncount) 64 { s with keybits := s.keybits - 1 }
    (parent, s.key key, s.keybits)

/-! ## The lowest of the smallest entries -/

/-- The range has an entry that is no larger. -/
structure Chosen (view : List Bref) (key : UInt64) (keybits : Nat) : Prop where
  bits : keybits < 64
  some : ∃ e ∈ view, e.keybits.toNat ≤ keybits ∧ Same keybits key.toNat e.lo

section Lowest

variable {parent : Node} {view : List Bref}

structure Lowest (view : List Bref) (key : UInt64) (keybits : Nat) : Prop where
  mem : ∃ e ∈ view, e.key = key ∧ e.keybits.toNat = keybits
  least : ∀ b ∈ view, keybits ≤ b.keybits.toNat
  first : ∀ b ∈ view, b.keybits.toNat = keybits → key ≤ b.key

theorem foldlM_lowest : ∀ {bs : List Bref} {seen : List Bref} {best : UInt64 × Nat},
    Lowest seen best.1 best.2 → ∃ best', bs.foldlM lowest best = some best' ∧
      Lowest (seen ++ bs) best'.1 best'.2
  | [], seen, best, h => ⟨best, rfl, by rwa [List.append_nil]⟩
  | b :: bs, seen, best, h => by
      -- the best after the next entry
      obtain ⟨best', hnext, hlow⟩ : ∃ best', lowest best b = some best' ∧
          Lowest (seen ++ [b]) best'.1 best'.2 := by
        obtain ⟨e, he, hkey, hbits⟩ := h.mem
        unfold lowest
        by_cases hless : best.2 > b.keybits.toNat
        · refine ⟨_, if_pos hless, ⟨b, List.mem_append_right _ List.mem_cons_self, rfl, rfl⟩, ?_, ?_⟩
          · intro v hv
            rcases List.mem_append.mp hv with hv | hv
            · exact Nat.le_trans (Nat.le_of_lt hless) (h.least v hv)
            · obtain rfl := List.mem_singleton.mp hv
              exact Nat.le_refl _
          · intro v hv hvb
            rcases List.mem_append.mp hv with hv | hv
            · have hle := h.least v hv
              dsimp only at hvb
              omega
            · obtain rfl := List.mem_singleton.mp hv
              exact UInt64.le_refl _
        · rw [if_neg hless]
          by_cases hsame : best.2 = b.keybits.toNat ∧ b.key < best.1
          · refine ⟨_, if_pos hsame,
              ⟨b, List.mem_append_right _ List.mem_cons_self, rfl, hsame.1.symm⟩, ?_, ?_⟩
            · intro v hv
              rcases List.mem_append.mp hv with hv | hv
              · exact h.least v hv
              · obtain rfl := List.mem_singleton.mp hv
                exact Nat.le_of_eq hsame.1
            · intro v hv hvb
              rcases List.mem_append.mp hv with hv | hv
              · exact UInt64.le_of_lt (UInt64.lt_of_lt_of_le hsame.2 (h.first v hv hvb))
              · obtain rfl := List.mem_singleton.mp hv
                exact UInt64.le_refl _
          · refine ⟨best, if_neg hsame, ⟨e, List.mem_append_left _ he, hkey, hbits⟩, ?_, ?_⟩
            · intro v hv
              rcases List.mem_append.mp hv with hv | hv
              · exact h.least v hv
              · obtain rfl := List.mem_singleton.mp hv
                exact Nat.not_lt.mp hless
            · intro v hv hvb
              rcases List.mem_append.mp hv with hv | hv
              · exact h.first v hv hvb
              · obtain rfl := List.mem_singleton.mp hv
                exact UInt64.not_lt.mp fun hlt => hsame ⟨hvb.symm, hlt⟩
      obtain ⟨last, hfold, hlast⟩ := @foldlM_lowest bs (seen ++ [b]) best' hlow
      rw [List.append_assoc] at hlast
      exact ⟨last, by rw [List.foldlM_cons, hnext]; exact hfold, hlast⟩

/-- **The lowest of the smallest entries** is found. -/
theorem scan_lowest (h : Wf parent view) (hne : view ≠ []) (hloops : view.length < maxLoops)
    (key : UInt64) : ∃ c key' keybits,
      scan lowest maxLoops parent 0 (key, 64) = some (parent.cache c, key', keybits) ∧
        Lowest view key' keybits := by
  obtain ⟨c, hscan⟩ := scan_spec h lowest hloops (key, 64)
  cases view with
  | nil => exact absurd rfl hne
  | cons b bs =>
      have hb := (h.ranged b List.mem_cons_self).keybits
      have hone : Lowest [b] b.key b.keybits.toNat := by
        refine ⟨⟨b, List.mem_cons_self, rfl, rfl⟩, fun v hv => ?_, fun v hv _ => ?_⟩
        · obtain rfl := List.mem_singleton.mp hv
          exact Nat.le_refl _
        · obtain rfl := List.mem_singleton.mp hv
          exact UInt64.le_refl _
      obtain ⟨best, hfold, hbest⟩ := @foldlM_lowest bs [b] (b.key, b.keybits.toNat) hone
      refine ⟨c, best.1, best.2, ?_, hbest⟩
      rw [hscan, List.foldlM_cons]
      have hfirst : lowest (key, 64) b = some (b.key, b.keybits.toNat) := if_pos hb
      rw [hfirst]
      show Option.map _ (bs.foldlM lowest (b.key, b.keybits.toNat)) = _
      rw [hfold]
      rfl

/-- A range around it. -/
theorem Lowest.chosen {key : UInt64} {k l : Nat} (h : Lowest view key k) (hkl : k ≤ l)
    (hl : l < 64) : Chosen view key l := by
  obtain ⟨e, he, rfl, rfl⟩ := h.mem
  exact ⟨hl, e, he, hkl, .refl _ _⟩

theorem indkeyFile_spec (h : Wf parent view) (hne : view ≠ []) (hloops : view.length < maxLoops)
    (key : UInt64) (ncount : Nat) : ∃ c key' keybits, Lowest view key' keybits ∧
      indkeyFile parent key ncount =
        (indRadix ncount).map fun nradix => (parent.cache c, key', keybits + nradix) := by
  obtain ⟨c, key', keybits, hscan, hlow⟩ := scan_lowest h hne hloops key
  refine ⟨c, key', keybits, hlow, ?_⟩
  unfold indkeyFile
  rw [hscan, Option.bind_some]
  dsimp only
  unfold indRadix
  split
  · rfl
  · split
    · rfl
    · split
      · rfl
      · rfl

theorem indkeyFreemap_spec (h : Wf parent view) (hne : view ≠ [])
    (hloops : view.length < maxLoops) (key : UInt64) : ∃ c key' keybits, Lowest view key' keybits ∧
      indkeyFreemap parent key =
        (nextLevel keybits).map fun keybits => (parent.cache c, key', keybits) := by
  obtain ⟨c, key', keybits, hscan, hlow⟩ := scan_lowest h hne hloops key
  refine ⟨c, key', keybits, hlow, ?_⟩
  unfold indkeyFreemap
  rw [hscan, Option.bind_some]

/-- The next level is larger, and legal. -/
theorem nextLevel_spec {k l : Nat} (h : nextLevel k = some l) : k ≤ l ∧ l < 64 := by
  unfold nextLevel at h
  repeat' split at h
  all_goals first
    | cases h
      omega
    | cases h

end Lowest

/-! ## The half with more entries -/

section Dir

variable {parent : Node} {view : List Bref} {key : UInt64}

theorem widen_spec (x y : UInt64) : ∀ {fuel k : Nat}, k ≤ 64 → 64 - k ≤ fuel →
    k ≤ widen (x ^^^ y) fuel k ∧ widen (x ^^^ y) fuel k ≤ 64 ∧
      Same (widen (x ^^^ y) fuel k) x.toNat y.toNat
  | 0, k, hk, hfuel => by
      obtain rfl : k = 64 := by omega
      exact ⟨Nat.le_refl _, Nat.le_refl _, same_top x.toNat_lt y.toNat_lt⟩
  | fuel + 1, k, hk, hfuel => by
      rw [widen]
      by_cases hmore : k < 64 ∧ roundDown (x ^^^ y) (bit k) ≠ 0
      · rw [if_pos hmore]
        obtain ⟨hle, htop, hsame⟩ := @widen_spec x y fuel (k + 1) hmore.1 (by omega)
        exact ⟨Nat.le_trans (Nat.le_succ k) hle, htop, hsame⟩
      · rw [if_neg hmore]
        refine ⟨Nat.le_refl _, hk, ?_⟩
        rcases Nat.lt_or_eq_of_le hk with hlt | rfl
        · refine (roundDown_xor hlt x y).mp ?_
          by_contra hne
          exact hmore ⟨hlt, hne⟩
        · exact same_top x.toNat_lt y.toNat_lt

theorem topBit_succ {k : Nat} (hk : k < 64) : topBit (k + 1) = bit k := by
  have hsub : UInt64.ofNat (k + 1) - 1 = UInt64.ofNat k := by
    rw [← UInt64.toNat_inj, UInt64.toNat_sub_of_le _ _ (by
      rw [UInt64.le_iff_toNat_le, UInt64.toNat_ofNat', UInt64.toNat_one]
      omega), UInt64.toNat_ofNat', UInt64.toNat_ofNat', UInt64.toNat_one]
    omega
  unfold topBit bit
  rw [hsub]

/-- The half of a range an entry begins in. -/
def high (k : Nat) (b : Bref) : Bool := b.lo.testBit k

/-- The entries `seen` begin in one range of `2 ^ (k + 1)` keys with `key`, are no larger than its
halves, and are counted for each half. -/
structure Halved (key : UInt64) (seen : List Bref) (k locount hicount : Nat) : Prop where
  bits : k < 64
  same : ∀ b ∈ seen, Same (k + 1) key.toNat b.lo
  small : ∀ b ∈ seen, b.keybits.toNat ≤ k
  low : locount = seen.countP fun b => !high k b
  high : hicount = seen.countP fun b => high k b

theorem Halved.sum {seen : List Bref} {k lo hi : Nat} (h : Halved key seen k lo hi) :
    lo + hi = seen.length := by
  have hsplit := List.length_eq_countP_add_countP (fun b => Indkey.high k b) (l := seen)
  rw [h.low, h.high, hsplit, Nat.add_comm]
  refine congrArg _ (List.countP_congr fun b _ => ?_)
  cases Indkey.high k b <;> decide

/-- The entries are all in one half. -/
theorem Halved.one {seen : List Bref} {l : Nat} (hl : l < 64)
    (hsame : ∀ b ∈ seen, Same (l + 1) key.toNat b.lo) (hsmall : ∀ b ∈ seen, b.keybits.toNat ≤ l)
    {side : Bool} (hall : ∀ b ∈ seen, Indkey.high l b = side) :
    Halved key seen l (if side then 0 else seen.length) (if side then seen.length else 0) := by
  cases side with
  | true =>
      refine ⟨hl, hsame, hsmall, ?_, ?_⟩
      · refine (List.countP_eq_zero.mpr fun b hb => ?_).symm
        rw [hall b hb]
        exact Bool.false_ne_true
      · exact (List.countP_eq_length.mpr hall).symm
  | false =>
      refine ⟨hl, hsame, hsmall, ?_, ?_⟩
      · refine (List.countP_eq_length.mpr fun b hb => ?_).symm
        rw [hall b hb]
        rfl
      · refine (List.countP_eq_zero.mpr fun b hb => ?_).symm
        rw [hall b hb]
        exact Bool.false_ne_true

/-- In a larger range all entries are in the half of the key. -/
theorem Halved.collapse {seen : List Bref} {k l lo hi : Nat} (h : Halved key seen k lo hi)
    (hkl : k < l) (hl : l < 64) (keybits n : Nat) :
    ∃ lo' hi', Halves.collapse ⟨n, lo, hi⟩ keybits (key.toNat.testBit l) = ⟨keybits, lo', hi'⟩ ∧
      Halved key seen l lo' hi' := by
  have hone := @Halved.one key seen l hl
    (fun b hb => (h.same b hb).mono (Nat.succ_le_succ (Nat.le_of_lt hkl)))
    (fun b hb => Nat.le_trans (h.small b hb) (Nat.le_of_lt hkl)) (key.toNat.testBit l)
    (fun b hb => ((h.same b hb).testBit hkl).symm)
  have hsum := h.sum
  unfold Halves.collapse
  cases hside : key.toNat.testBit l with
  | true =>
      rw [hside] at hone
      rw [if_pos rfl]
      refine ⟨0, hi + lo, rfl, ?_⟩
      rwa [Nat.add_comm, hsum]
  | false =>
      rw [hside] at hone
      rw [if_neg Bool.false_ne_true]
      refine ⟨lo + hi, 0, rfl, ?_⟩
      rwa [hsum]

/-- One more entry is counted for its half. -/
theorem Halved.snoc {seen : List Bref} {k lo hi : Nat} (h : Halved key seen k lo hi) {b : Bref}
    (hsame : Same (k + 1) key.toNat b.lo) (hsmall : b.keybits.toNat ≤ k) :
    Halved key (seen ++ [b]) k (if Indkey.high k b then lo else lo + 1)
      (if Indkey.high k b then hi + 1 else hi) := by
  refine ⟨h.bits, fun v hv => ?_, fun v hv => ?_, ?_, ?_⟩
  · rcases List.mem_append.mp hv with hv | hv
    · exact h.same v hv
    · obtain rfl := List.mem_singleton.mp hv
      exact hsame
  · rcases List.mem_append.mp hv with hv | hv
    · exact h.small v hv
    · obtain rfl := List.mem_singleton.mp hv
      exact hsmall
  · rw [List.countP_append, List.countP_singleton, ← h.low]
    cases Indkey.high k b <;> rfl
  · rw [List.countP_append, List.countP_singleton, ← h.high]
    cases Indkey.high k b <;> rfl

/-- The bit of a key that tells the halves apart. -/
theorem topBit_and {k : Nat} (hk : k < 64) (x : UInt64) :
    decide (topBit (k + 1) &&& x ≠ 0) = x.toNat.testBit k := by
  have hiff := and_bit_eq_zero hk x
  rw [topBit_succ hk]
  cases hbit : x.toNat.testBit k with
  | true =>
      refine decide_eq_true fun hz => ?_
      rw [hiff.mp hz] at hbit
      cases hbit
  | false => exact decide_eq_false (not_not.mpr (hiff.mpr hbit))

/-- The range before the first entry, and after some. -/
def Begun (key : UInt64) (keybits : Nat) (seen : List Bref) (s : Halves) : Prop :=
  seen = [] ∧ s = ⟨keybits, 0, 0⟩ ∨
    ∃ k, s.keybits = k + 1 ∧ Halved key seen k s.locount s.hicount

/-- **An entry is scanned**, whose range does not have the key. -/
theorem expand_spec {keybits : Nat} {seen : List Bref} {s : Halves} {b : Bref}
    (hbits : keybits ≤ 64) (h : Begun key keybits seen s) (hb : Ranged b)
    (hnew : ¬ Same b.keybits.toNat key.toNat b.lo) :
    ∃ s', expand key s b = some s' ∧
      ∃ k, s'.keybits = k + 1 ∧ Halved key (seen ++ [b]) k s'.locount s'.hicount := by
  obtain ⟨n, hn, hsn, hbn, hn64⟩ : ∃ n, (if s.keybits < b.keybits.toNat then
      if b.keybits.toNat > 64 then none else some b.keybits.toNat
      else some s.keybits) = some n ∧ s.keybits ≤ n ∧ b.keybits.toNat ≤ n ∧ n ≤ 64 := by
    have hb64 := hb.keybits
    by_cases hlt : s.keybits < b.keybits.toNat
    · rw [if_pos hlt, if_neg (Nat.not_lt.mpr (Nat.le_of_lt hb64))]
      exact ⟨_, rfl, Nat.le_of_lt hlt, Nat.le_refl _, Nat.le_of_lt hb64⟩
    · rw [if_neg hlt]
      refine ⟨_, rfl, Nat.le_refl _, Nat.not_lt.mp hlt, ?_⟩
      rcases h with ⟨-, rfl⟩ | ⟨k, hk, hhalf⟩
      · exact hbits
      · rw [hk]
        exact hhalf.bits
  obtain ⟨hwide, hw64, hsame⟩ := @widen_spec key b.key 64 n hn64 (Nat.sub_le _ _)
  unfold expand
  rw [hn, Option.map_some]
  dsimp only
  generalize hw : widen (key ^^^ b.key) 64 n = w at hwide hw64 hsame
  -- the range is larger than the entry, because the key is outside of this
  have hbw : b.keybits.toNat < w := by
    rcases Nat.lt_or_eq_of_le (Nat.le_trans hbn hwide) with hlt | heq
    · exact hlt
    · exact absurd (heq ▸ hsame) hnew
  obtain ⟨k, rfl⟩ : ∃ k, w = k + 1 := Nat.exists_eq_succ_of_ne_zero (by omega)
  have hk : k < 64 := hw64
  obtain ⟨lo, hi, hcol, hhalf⟩ : ∃ lo hi, (if s.keybits ≠ k + 1 then
      s.collapse (k + 1) (topBit (k + 1) &&& key ≠ 0) else s) = ⟨k + 1, lo, hi⟩ ∧
      Halved key seen k lo hi := by
    rw [topBit_and hk]
    rcases h with ⟨rfl, rfl⟩ | ⟨k', hk', hhalf⟩
    · refine ⟨0, 0, ?_, hk, fun b hb => absurd hb List.not_mem_nil,
        fun b hb => absurd hb List.not_mem_nil, rfl, rfl⟩
      unfold Halves.collapse
      split
      · split <;> rfl
      · rename_i heq
        rw [← not_not.mp heq]
    · by_cases heq : s.keybits = k + 1
      · obtain rfl : k' = k := by omega
        refine ⟨s.locount, s.hicount, ?_, hhalf⟩
        rw [if_neg (not_not.mpr heq), ← heq]
      · rw [if_pos heq]
        exact hhalf.collapse (by omega) hk (k + 1) s.keybits
  rw [hcol]
  have hbit : (topBit (k + 1) &&& b.key ≠ 0) ↔ high k b = true := by
    show _ ↔ b.key.toNat.testBit k = true
    rw [← topBit_and hk, decide_eq_true_iff]
  have hsnoc := hhalf.snoc hsame (Nat.lt_succ_iff.mp hbw)
  cases hside : high k b with
  | true =>
      rw [hside] at hsnoc hbit
      rw [if_pos (hbit.mpr rfl)]
      exact ⟨_, rfl, k, rfl, hsnoc⟩
  | false =>
      rw [hside] at hsnoc hbit
      rw [if_neg fun hne => Bool.false_ne_true (hbit.mp hne)]
      exact ⟨_, rfl, k, rfl, hsnoc⟩

theorem foldlM_expand {keybits : Nat} (hbits : keybits ≤ 64) : ∀ {bs seen : List Bref} {s : Halves},
    Begun key keybits seen s → (∀ b ∈ bs, Ranged b ∧ ¬ Same b.keybits.toNat key.toNat b.lo) →
    ∃ s', bs.foldlM (expand key) s = some s' ∧ Begun key keybits (seen ++ bs) s'
  | [], seen, s, h, _ => ⟨s, rfl, by rwa [List.append_nil]⟩
  | b :: bs, seen, s, h, hall => by
      obtain ⟨hb, hnew⟩ := hall b List.mem_cons_self
      obtain ⟨s', hs', hhalf⟩ := expand_spec hbits h hb hnew
      obtain ⟨last, hfold, hlast⟩ := @foldlM_expand keybits hbits bs (seen ++ [b]) s' (.inr hhalf)
        fun v hv => hall v (List.mem_cons_of_mem b hv)
      rw [List.append_assoc] at hlast
      exact ⟨last, by rw [List.foldlM_cons, hs']; exact hfold, hlast⟩

/-- Filling up the range changes no more than the halves. -/
theorem fill_spec {seen : List Bref} {ncount : UInt64} (hcount : ncount ≤ bit 63) :
    ∀ {fuel k lo hi : Nat}, Halved key seen k lo hi → ∃ k' lo' hi',
      fill key ncount fuel ⟨k, lo, hi⟩ = ⟨k', lo', hi'⟩ ∧ Halved key seen k' lo' hi'
  | 0, k, lo, hi, h => ⟨k, lo, hi, rfl, h⟩
  | fuel + 1, k, lo, hi, h => by
      rw [fill]
      by_cases hless : bit k < ncount
      · rw [if_pos hless]
        have hk := h.bits
        have hk' : k + 1 < 64 := by
          refine Nat.lt_of_le_of_ne hk fun heq => ?_
          obtain rfl : k = 63 := by omega
          exact absurd hless (UInt64.not_lt.mpr hcount)
        have hside : decide (key &&& bit (k + 1) ≠ 0) = key.toNat.testBit (k + 1) := by
          rw [UInt64.and_comm, ← topBit_succ hk', topBit_and hk']
        rw [hside]
        obtain ⟨lo', hi', hcol, hhalf⟩ := h.collapse (Nat.lt_succ_self k) hk' (k + 1) k
        rw [hcol]
        exact fill_spec hcount hhalf
      · rw [if_neg hless]
        exact ⟨k, lo, hi, rfl, h⟩

/-- The key of a half. -/
theorem half_key {s : Halves} (hk : s.keybits < 64) (b : Bref)
    (hsame : Same (s.keybits + 1) key.toNat b.lo) :
    Same s.keybits (s.key key).toNat b.lo ↔
      high s.keybits b = decide (s.hicount > s.locount) := by
  -- the bits of the key from that of the half on
  have hbits : ∀ i, s.keybits ≤ i → (s.key key).toNat.testBit i =
      if i = s.keybits then decide (s.hicount > s.locount) else key.toNat.testBit i := by
    intro i hi
    unfold Halves.key
    by_cases hmore : s.hicount > s.locount
    · rw [if_pos hmore, testBit_or_bit hk, decide_eq_true hmore]
      by_cases heq : i = s.keybits
      · rw [if_pos heq, decide_eq_true heq.symm, Bool.or_true]
      · rw [if_neg heq, decide_eq_false fun h => heq h.symm, Bool.or_false]
    · rw [if_neg hmore, testBit_and_shift hk key hi, decide_eq_false hmore]
      by_cases heq : i = s.keybits
      · rw [if_pos heq, decide_eq_false (not_not.mpr heq), Bool.and_false]
      · rw [if_neg heq, decide_eq_true heq, Bool.and_true]
  have hrange : Same (s.keybits + 1) (s.key key).toNat b.lo := by
    refine (same_of_testBit fun i hi => ?_).trans hsame
    rw [hbits i (Nat.le_of_succ_le hi), if_neg (Nat.ne_of_gt hi)]
  rw [same_pred hrange, hbits _ (Nat.le_refl _), if_pos rfl]
  exact eq_comm

/-- **The half with more entries** has at least half of them. -/
theorem indkeyDir_spec (h : Wf parent view) (hne : view ≠ []) (hloops : view.length < maxLoops)
    (hnew : ∀ v ∈ view, ¬ Same v.keybits.toNat key.toNat v.lo) {keybits ncount : Nat}
    (hbits : keybits ≤ 64) (hcount : ncount ≤ 2 ^ 63) :
    ∃ c key' keybits', indkeyDir parent key keybits ncount = some (parent.cache c, key', keybits') ∧
      Chosen view key' keybits' ∧
      view.length ≤ 2 * view.countP fun b => decide (Same keybits' key'.toNat b.lo) := by
  obtain ⟨c, hscan⟩ := scan_spec h (expand key) hloops ⟨keybits, 0, 0⟩
  obtain ⟨s, hfold, hbegun⟩ := @foldlM_expand key keybits hbits view [] ⟨keybits, 0, 0⟩
    (.inl ⟨rfl, rfl⟩) fun v hv => ⟨h.ranged v hv, hnew v hv⟩
  rw [List.nil_append] at hbegun
  rcases hbegun with ⟨hnil, -⟩ | ⟨k, hk, hhalf⟩
  · exact absurd hnil hne
  have hn : UInt64.ofNat ncount ≤ bit 63 := by
    rw [UInt64.le_iff_toNat_le, toNat_bit (by decide), UInt64.toNat_ofNat']
    exact Nat.le_trans (Nat.mod_le _ _) hcount
  obtain ⟨k', lo, hi, hfill, hhalf⟩ := @fill_spec key view _ hn 64 k s.locount s.hicount hhalf
  have hin : ∀ b ∈ view, (Same k' ((⟨k', lo, hi⟩ : Halves).key key).toNat b.lo ↔
      high k' b = decide (hi > lo)) := fun b hb => half_key hhalf.bits b (hhalf.same b hb)
  have hlen := hhalf.sum
  -- the half that is chosen has the larger count
  have hcountP : (view.countP fun b => decide (Same k' ((⟨k', lo, hi⟩ : Halves).key key).toNat b.lo)) =
      max lo hi := by
    by_cases hmore : hi > lo
    · rw [Nat.max_eq_right (Nat.le_of_lt hmore)]
      refine (List.countP_congr fun b hb => ?_).trans hhalf.high.symm
      rw [decide_eq_true_iff, hin b hb, decide_eq_true hmore]
    · rw [Nat.max_eq_left (Nat.not_lt.mp hmore)]
      refine (List.countP_congr fun b hb => ?_).trans hhalf.low.symm
      rw [decide_eq_true_iff, hin b hb, decide_eq_false hmore, Bool.not_eq_true']
  refine ⟨c, (⟨k', lo, hi⟩ : Halves).key key, k', ?_, ⟨hhalf.bits, ?_⟩, ?_⟩
  · unfold indkeyDir
    rw [hscan, hfold, Option.map_some, Option.map_some]
    dsimp only
    rw [hk, Nat.add_sub_cancel, hfill]
  · have hpos : 0 < view.countP fun b =>
        decide (Same k' ((⟨k', lo, hi⟩ : Halves).key key).toNat b.lo) := by
      have hvpos : 0 < view.length := List.length_pos_iff.mpr hne
      omega
    obtain ⟨e, he, hsame⟩ := List.countP_pos_iff.mp hpos
    exact ⟨e, he, hhalf.small e he, decide_eq_true_iff.mp hsame⟩
  · rw [hcountP]
    omega

end Dir

end Hammer2.Chain.Indkey
