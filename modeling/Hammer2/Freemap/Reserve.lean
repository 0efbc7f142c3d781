/-
# `Hammer2.Freemap.Reserve` — where freemap blocks live

Freemap blocks are not allocated from the freemap: `hammer2_freemap_reserve` assigns them
fixed places in the 4MB reserved at the base of each 1GB zone, eight for each block, which
it takes in turn.

    freemapReserve          the next place of a freemap block
    freemapReserve_spec     it is one of the eight places of its block
    freemapReserve_inside   inside the reserved segment, past the volume header
    freemapReserve_apart    two places of different blocks, or different places of one
                            block, do not overlap
-/
import Hammer2.Disk
import Mathlib.Data.Nat.Bitwise
import Mathlib.Tactic.Ring
import Mathlib.Tactic.SplitIfs

namespace Hammer2.Rotation

abbrev nfreemaps : Nat := 8
abbrev zoneFreemap00 : Nat := 1
abbrev zoneFreemapEnd : Nat := 41
abbrev zoneFreemapInc : Nat := 5
abbrev freemapLevel1Radix : Nat := 30
abbrev freemapLevel2Radix : Nat := 38
abbrev freemapLevel3Radix : Nat := 46
abbrev freemapLevel4Radix : Nat := 54
abbrev freemapLevel5Radix : Nat := 62
/-- `HAMMER2_OFF_MASK_RADIX`, the low bits of a data offset. -/
abbrev offRadix : Nat := 64

inductive FreemapType where
  | node
  | leaf
deriving DecidableEq

/-- The fields of a blockref that `hammer2_freemap_reserve` reads. -/
structure FreemapBref where
  type : FreemapType
  key : Nat
  keybits : Nat
  dataOff : Nat
deriving DecidableEq

/-- `H2FMBASE` -/
def fmBase (key radix : Nat) : Nat := key / 2 ^ radix * 2 ^ radix

/-- The rotation index the block goes to: 0 for a new block, else the one after the
present one; `none` for a failed assertion. -/
def nextIndex (dataOff : Nat) : Option Nat :=
  if dataOff / offRadix = 0 then some 0
  else
    let off := dataOff / offRadix * offRadix % segSize / pbufSize
    if zoneFreemap00 ≤ off ∧ off < zoneFreemapEnd then
      let index := (off - zoneFreemap00) / zoneFreemapInc
      if index < nfreemaps then some (if index + 1 = nfreemaps then 0 else index + 1) else none
    else none

/-- One case of the `switch` of `hammer2_freemap_reserve`: `zonefm` is the place of the
level in its set. -/
def reserveAt (bref : FreemapBref) (radix index : Nat) (type : FreemapType) (zonefm : Nat) : Option Nat :=
  if bref.type = type ∧ 2 ^ radix = freemapLevelNPsize then
    some ((fmBase bref.key bref.keybits +
      (index * zoneFreemapInc + zoneFreemap00 + zonefm) * pbufSize) ||| radix)
  else none

/-- `hammer2_freemap_reserve`: the new `data_off`, `none` for a failed assertion or the
panic of a bad radix. -/
def freemapReserve (bref : FreemapBref) (radix : Nat) : Option Nat :=
  (nextIndex bref.dataOff).bind fun index =>
    if bref.keybits = freemapLevel5Radix then reserveAt bref radix index .node 4
    else if bref.keybits = freemapLevel4Radix then reserveAt bref radix index .node 3
    else if bref.keybits = freemapLevel3Radix then reserveAt bref radix index .node 2
    else if bref.keybits = freemapLevel2Radix then reserveAt bref radix index .node 1
    else if bref.keybits = freemapLevel1Radix then reserveAt bref radix index .leaf 0
    else none

/-! ## The places of a block -/

/-- The freemap block of a key and a level. -/
structure BlockId where
  key : Nat
  keybits : Nat
deriving DecidableEq

/-- The places of the levels in a set. -/
def zonefm (keybits : Nat) : Option Nat :=
  if keybits = freemapLevel5Radix then some 4
  else if keybits = freemapLevel4Radix then some 3
  else if keybits = freemapLevel3Radix then some 2
  else if keybits = freemapLevel2Radix then some 1
  else if keybits = freemapLevel1Radix then some 0
  else none

/-- The key of a blockref is a multiple of the size it covers. -/
def BlockId.Aligned (b : BlockId) : Prop := b.key % 2 ^ b.keybits = 0

instance (b : BlockId) : Decidable b.Aligned := inferInstanceAs (Decidable (_ = _))

def BlockId.type (b : BlockId) : FreemapType :=
  if b.keybits = freemapLevel1Radix then .leaf else .node

/-- The blockref of a block that is at `dataOff` now. -/
def BlockId.bref (b : BlockId) (dataOff : Nat) : FreemapBref := ⟨b.type, b.key, b.keybits, dataOff⟩

/-- The place `index` of a block, without the radix. -/
def BlockId.place (b : BlockId) (index : Nat) : Nat :=
  fmBase b.key b.keybits + (index * zoneFreemapInc + zoneFreemap00 + (zonefm b.keybits).getD 0) * pbufSize

/-- The radix of a freemap block of 32KB. -/
abbrev freemapRadix : Nat := 15

theorem zonefm_lt {keybits z : Nat} (h : zonefm keybits = some z) : z < 5 ∧ 30 ≤ keybits := by
  simp only [zonefm, freemapLevel1Radix, freemapLevel2Radix, freemapLevel3Radix, freemapLevel4Radix,
    freemapLevel5Radix] at h
  split_ifs at h with h5 h4 h3 h2 h1 <;> cases h <;> omega

/-- The bits of the level and its place in the set determine each other. -/
theorem zonefm_inj {k k' z : Nat} (h : zonefm k = some z) (h' : zonefm k' = some z) : k = k' := by
  unfold zonefm at h h'
  split_ifs at h h' with h5 h4 h3 h2 h1 <;> first | omega | (cases h; cases h')

theorem nextIndex_lt {dataOff index : Nat} (h : nextIndex dataOff = some index) : index < nfreemaps := by
  unfold nextIndex at h
  split at h
  · obtain rfl := Option.some.inj h
    decide
  · dsimp only at h
    split_ifs at h
    · obtain rfl := Option.some.inj h
      decide
    · obtain rfl := Option.some.inj h
      omega

theorem reserveAt_eq_some {bref : FreemapBref} {radix index z o : Nat} {type : FreemapType}
    (h : reserveAt bref radix index type z = some o) :
    radix = freemapRadix ∧ o = (fmBase bref.key bref.keybits +
      (index * zoneFreemapInc + zoneFreemap00 + z) * pbufSize) ||| freemapRadix := by
  unfold reserveAt at h
  split at h
  · rename_i hc
    obtain rfl : radix = freemapRadix := Nat.pow_right_injective (Nat.le_refl 2) hc.2
    exact ⟨rfl, (Option.some.inj h).symm⟩
  · cases h

/-- The base of a level is the base of a zone. -/
theorem fmBase_dvd {key keybits : Nat} (h : 30 ≤ keybits) : freemapLevel1Size ∣ fmBase key keybits := by
  obtain ⟨k, rfl⟩ := Nat.exists_eq_add_of_le h
  exact ⟨key / 2 ^ (30 + k) * 2 ^ k, by rw [fmBase, Nat.pow_add]; ring⟩

/-- The low bits of a place are free for the radix. -/
theorem or_radix {base n : Nat} (h : freemapLevel1Size ∣ base) :
    (base + n * pbufSize) ||| freemapRadix = base + n * pbufSize + freemapRadix := by
  obtain ⟨k, rfl⟩ := h
  have heq : freemapLevel1Size * k + n * pbufSize = 2 ^ 6 * (16777216 * k + 1024 * n) := by
    simp only [freemapLevel1Size, pbufSize]
    ring
  rw [heq]
  exact (Nat.two_pow_add_eq_or_of_lt (by decide) _).symm

/-- **The next place** of a freemap block is one of the eight of its block. -/
theorem freemapReserve_spec {bref : FreemapBref} {radix o : Nat} (h : freemapReserve bref radix = some o) :
    ∃ index z, nextIndex bref.dataOff = some index ∧ zonefm bref.keybits = some z ∧
      o = (BlockId.mk bref.key bref.keybits).place index + freemapRadix := by
  obtain ⟨index, hindex, h⟩ := Option.bind_eq_some_iff.mp h
  have hz : ∃ z type, zonefm bref.keybits = some z ∧ reserveAt bref radix index type z = some o := by
    unfold zonefm
    split_ifs at h ⊢
    · exact ⟨4, .node, rfl, h⟩
    · exact ⟨3, .node, rfl, h⟩
    · exact ⟨2, .node, rfl, h⟩
    · exact ⟨1, .node, rfl, h⟩
    · exact ⟨0, .leaf, rfl, h⟩
  obtain ⟨z, type, hz, h⟩ := hz
  obtain ⟨-, rfl⟩ := reserveAt_eq_some h
  refine ⟨index, z, hindex, hz, ?_⟩
  rw [or_radix (fmBase_dvd (zonefm_lt hz).2), BlockId.place, hz]
  rfl

/-- The number of a place among the 64KB blocks of its zone. -/
theorem place_slot {b : BlockId} {z : Nat} (hz : zonefm b.keybits = some z) (index : Nat) :
    ∃ zone, b.place index = zone * freemapLevel1Size + (index * 5 + 1 + z) * 65536 ∧
      zone * freemapLevel1Size = fmBase b.key b.keybits := by
  obtain ⟨k, hk⟩ := @fmBase_dvd b.key b.keybits (zonefm_lt hz).2
  refine ⟨k, ?_, by rw [hk, Nat.mul_comm]⟩
  rw [BlockId.place, hk, hz, Nat.mul_comm]
  rfl

/-- Places are apart, whatever the blocks. -/
theorem place_apart {b b' : BlockId} {z z' i i' : Nat} (hz : zonefm b.keybits = some z)
    (hz' : zonefm b'.keybits = some z') (hi : i < nfreemaps) (hi' : i' < nfreemaps)
    (h : b.place i < b'.place i' + pbufSize) (h' : b'.place i' < b.place i + pbufSize) :
    fmBase b.key b.keybits = fmBase b'.key b'.keybits ∧ b.keybits = b'.keybits ∧ i = i' := by
  obtain ⟨k, hk, hbase⟩ := place_slot hz i
  obtain ⟨k', hk', hbase'⟩ := place_slot hz' i'
  have hlt := (zonefm_lt hz).1
  have hlt' := (zonefm_lt hz').1
  rw [hk, hk'] at h h'
  simp only [freemapLevel1Size, pbufSize, nfreemaps] at *
  obtain rfl : k = k' := by omega
  have hset : i * 5 + z = i' * 5 + z' := by omega
  obtain rfl : i = i' := by omega
  obtain rfl : z = z' := by omega
  exact ⟨hbase.symm.trans hbase', zonefm_inj hz hz', rfl⟩

theorem place_inj {b b' : BlockId} {z z' i i' : Nat} (hz : zonefm b.keybits = some z)
    (hz' : zonefm b'.keybits = some z') (ha : b.Aligned) (ha' : b'.Aligned) (hi : i < nfreemaps)
    (hi' : i' < nfreemaps) (h : b.place i = b'.place i') : b = b' ∧ i = i' := by
  obtain ⟨hbase, hbits, rfl⟩ := place_apart hz hz' hi hi' (h ▸ Nat.lt_add_of_pos_right (by decide))
    (h ▸ Nat.lt_add_of_pos_right (by decide))
  have hkey : ∀ {b : BlockId}, b.Aligned → fmBase b.key b.keybits = b.key := fun h =>
    Nat.div_mul_cancel (Nat.dvd_of_mod_eq_zero h)
  rw [hkey ha, hkey ha'] at hbase
  cases b
  cases b'
  cases hbase
  cases hbits
  exact ⟨rfl, rfl⟩

/-- The index after that of a place. -/
theorem nextIndex_place {b : BlockId} {z i : Nat} (hz : zonefm b.keybits = some z) (hi : i < nfreemaps) :
    nextIndex (b.place i + freemapRadix) = some ((i + 1) % nfreemaps) := by
  obtain ⟨k, hk, -⟩ := place_slot hz i
  have hlt := (zonefm_lt hz).1
  simp only [nextIndex, hk, freemapLevel1Size, freemapRadix, offRadix, segSize, pbufSize, zoneFreemap00,
    zoneFreemapEnd, zoneFreemapInc, nfreemaps] at *
  have hoff : (k * 1073741824 + (i * 5 + 1 + z) * 65536 + 15) / 64 * 64 % 4194304 / 65536 = i * 5 + 1 + z := by
    omega
  rw [if_neg (by omega), hoff, if_pos (by omega)]
  have hindex : (i * 5 + 1 + z - 1) / 5 = i := by omega
  rw [hindex, if_pos hi]
  split
  · rename_i h
    rw [h]
  · rw [Nat.mod_eq_of_lt (by omega)]

/-- **Inside the reserved segment** of the zone of its key, and past the volume header. -/
theorem freemapReserve_inside {bref : FreemapBref} {radix o : Nat} (h : freemapReserve bref radix = some o) :
    fmBase bref.key bref.keybits + pbufSize ≤ o / offRadix * offRadix ∧
      o / offRadix * offRadix + freemapLevelNPsize ≤ fmBase bref.key bref.keybits + zoneSeg ∧
      freemapLevel1Size ∣ fmBase bref.key bref.keybits := by
  obtain ⟨index, z, hindex, hz, rfl⟩ := freemapReserve_spec h
  obtain ⟨k, hk, hbase⟩ := place_slot (b := ⟨bref.key, bref.keybits⟩) hz index
  have hi := nextIndex_lt hindex
  have hlt := (zonefm_lt hz).1
  refine ⟨?_, ?_, fmBase_dvd (zonefm_lt hz).2⟩
  all_goals
    rw [← hbase, hk]
    simp only [freemapLevel1Size, pbufSize, nfreemaps, offRadix, freemapLevelNPsize, zoneSeg,
      freemapRadix] at *
    omega

/-- **Different blocks, or different rotation indexes, do not overlap.** -/
theorem freemapReserve_apart {bref bref' : FreemapBref} {radix radix' o o' : Nat}
    (h : freemapReserve bref radix = some o) (h' : freemapReserve bref' radix' = some o')
    (hne : ¬ (fmBase bref.key bref.keybits = fmBase bref'.key bref'.keybits ∧
      bref.keybits = bref'.keybits ∧ nextIndex bref.dataOff = nextIndex bref'.dataOff)) :
    o / offRadix * offRadix + freemapLevelNPsize ≤ o' / offRadix * offRadix ∨
      o' / offRadix * offRadix + freemapLevelNPsize ≤ o / offRadix * offRadix := by
  obtain ⟨i, z, hi, hz, rfl⟩ := freemapReserve_spec h
  obtain ⟨i', z', hi', hz', rfl⟩ := freemapReserve_spec h'
  by_contra hover
  rw [not_or, Nat.not_le, Nat.not_le] at hover
  have hclose := @place_apart ⟨bref.key, bref.keybits⟩ ⟨bref'.key, bref'.keybits⟩ z z' _ _ hz hz'
    (nextIndex_lt hi) (nextIndex_lt hi')
  obtain ⟨k, hk, -⟩ := place_slot (b := ⟨bref.key, bref.keybits⟩) hz i
  obtain ⟨k', hk', -⟩ := place_slot (b := ⟨bref'.key, bref'.keybits⟩) hz' i'
  rw [hk, hk'] at hclose hover
  simp only [freemapLevel1Size, pbufSize, offRadix, freemapLevelNPsize, freemapRadix] at hclose hover
  obtain ⟨hbase, hbits, hindex⟩ := hclose (by omega) (by omega)
  exact hne ⟨hbase, hbits, by rw [hi, hi', hindex]⟩

end Hammer2.Rotation
