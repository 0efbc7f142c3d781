/-
# `Hammer2.Volume.Verify` — the volumes of a filesystem

`initVolumes` is `hammer2_init_volumes`: it puts the devices of a mount into the slots of their
volume ids and verifies what their headers say.  Sizes and offsets are 64 bits wide and wrap.

    Laid            the volumes in the first slots lie end to end
    volumes_laid    what is accepted is laid, if the devices add up to less than 2 ^ 64 bytes
-/
import Hammer2.Lib.Extents
import Mathlib.Algebra.Order.BigOperators.Group.List
import Mathlib.Algebra.Order.Ring.Nat

namespace Hammer2.Volume.Verify

def maxVolumes : Nat := 64
def rootVolume : UInt8 := 0
def level1Size : UInt64 := 1073741824
def level1Mask : UInt64 := level1Size - 1
def volumeAlignMask : UInt64 := 8388607
def versionMin : UInt32 := 1
def versionMultiVolumes : UInt32 := 2
def versionWip : UInt32 := versionMultiVolumes + 1

/-! ## Headers and devices -/

inductive Errno where
  | einval
  | enxio
  /-- A failure of a device. -/
  | io (n : Nat)
  /-- A failed assertion, or a null pointer. -/
  | panic
deriving DecidableEq

structure Uuid where
  low : UInt32
  mid : UInt16
  hi : UInt16
  seq : UInt16
  node : UInt64
deriving DecidableEq

/-- `HAMMER2_UUID_STRING` -/
def hammer2Uuid : Uuid := ⟨0x5cbb9ad1, 0x862d, 0x11dc, 0xa94d, 0x01301bb8a9f5⟩

/-- What is read of `hammer2_volume_data_t`. -/
structure VolumeData where
  voluSize : UInt64
  version : UInt32
  voluId : UInt8
  nvolumes : UInt8
  fsid : Uuid
  fstype : Uuid
  totalSize : UInt64
  voluLoff : Nat → UInt64

structure Disklabel where
  secperunit : UInt32
  secsize : UInt32
deriving DecidableEq

/-- `mediasize` -/
def Disklabel.mediasize (dl : Disklabel) : UInt64 := dl.secperunit.toUInt64 * dl.secsize.toUInt64

/-- `hammer2_devvp_t`, with the answers of `hammer2_read_volume_header` and of `DIOCGDINFO`. -/
structure Devvp where
  devvp : Bool
  header : Except Errno (Nat × VolumeData)
  disklabel : Except Errno Disklabel

/-- `hammer2_volume_t`; the id of a slot that is not used is -1. -/
structure Volume where
  dev : Option Devvp
  id : Int
  offset : UInt64
  size : UInt64

def unset : Volume := ⟨none, -1, -1, -1⟩

def Volume.used (vol : Volume) : Bool := vol.id != -1

/-- The bytes of the device. -/
def Volume.media (vol : Volume) : Nat :=
  match vol.dev with
  | some ⟨_, _, .ok dl⟩ => dl.mediasize.toNat
  | _ => 0

/-! ## Verification -/

/-- The first error, `none` for 0. -/
def each {α : Type} (xs : List α) (check : α → Option Errno) : Option Errno := xs.findSome? check

def fail (c : Prop) [Decidable c] : Option Errno := if c then some .einval else none

/-- A volume in `hammer2_verify_volumes_common`. -/
def verifyCommon (vol : Volume) : Option Errno :=
  if vol.id = -1 then none
  else match vol.dev with
    | none => some .panic
    | some dev =>
        (fail (dev.devvp = false)).or <| (fail (vol.offset = -1)).or <| (fail (vol.size = -1)).or
          (match dev.disklabel with
            | .error e => some e
            | .ok dl => (fail (vol.size > dl.mediasize)).or (fail (vol.size = 0)))

def verifyVolumesCommon (volumes : List Volume) (root : VolumeData) : Option Errno :=
  (fail (root.voluId ≠ rootVolume)).or <| (fail (root.fstype ≠ hammer2Uuid)).or <|
    each volumes verifyCommon

/-- `nvolumes` and `total_size`, over the volumes that are there. -/
def nvolumes (volumes : List Volume) : Nat := (volumes.filter Volume.used).length

def totalSize (volumes : List Volume) : UInt64 :=
  (volumes.filter Volume.used).foldl (fun total vol => total + vol.size) 0

def verifyVolumes1 (volumes : List Volume) (root : VolumeData) : Option Errno :=
  (fail (nvolumes volumes ≠ 1)).or <| (fail (root.nvolumes ≠ 0)).or <|
    (fail (root.totalSize ≠ 0)).or <|
    (each (List.range maxVolumes) fun i => fail (root.voluLoff i ≠ 0)).or <|
    match volumes[0]? with
    | none => some .panic
    | some vol => match vol.dev with
      | none => some .panic
      | some _ => (fail (vol.id ≠ 0)).or <| (fail (vol.offset ≠ 0)).or
          (fail (vol.size &&& volumeAlignMask ≠ 0))

/-- The volume in slot `i` in `hammer2_verify_volumes_2`. -/
def verifyVolume2 (volumes : List Volume) (root : VolumeData) (i : Nat) : Option Errno :=
  let vol := volumes.getD i unset
  if vol.id = -1 then none
  else
    (fail (vol.offset &&& level1Mask ≠ 0)).or <|
    (if i ≠ 0 then
      let prev := volumes.getD (i - 1) unset
      (fail (vol.id ≤ prev.id)).or (fail (vol.offset ≠ prev.offset + prev.size))
    else fail (vol.offset ≠ 0)).or <|
    if (i : Int) ≠ root.nvolumes.toNat - 1 then
      (fail (vol.size < level1Size)).or (fail (vol.size &&& level1Mask ≠ 0))
    else fail (vol.size &&& volumeAlignMask ≠ 0)

def verifyVolumes2 (volumes : List Volume) (root : VolumeData) : Option Errno :=
  (fail (root.nvolumes.toNat ≠ nvolumes volumes)).or <|
    (fail (root.totalSize ≠ totalSize volumes)).or <|
    (each (List.range (nvolumes volumes)) fun i => fail (root.voluLoff i = -1)).or <|
    (each (List.range' (nvolumes volumes) (maxVolumes - nvolumes volumes)) fun i =>
      fail (root.voluLoff i ≠ -1)).or <|
    each (List.range maxVolumes) (verifyVolume2 volumes root)

def verifyVolumes (volumes : List Volume) (root : VolumeData) : Option Errno :=
  (verifyVolumesCommon volumes root).or <|
    if root.version ≥ versionMultiVolumes then verifyVolumes2 volumes root
    else verifyVolumes1 volumes root

/-! ## The devices of a mount -/

/-- The slots, the root header with its zone, and the first header. -/
structure Init where
  volumes : List Volume
  root : Option (Nat × VolumeData)
  first : Option VolumeData

/-- All headers have the same version, count and uuids. -/
def sameHeader (first vd : VolumeData) : Option Errno :=
  if first.version ≠ vd.version then some .enxio
  else if first.nvolumes ≠ vd.nvolumes then some .enxio
  else if first.fsid ≠ vd.fsid then some .enxio
  else if first.fstype ≠ vd.fstype then some .enxio
  else none

/-- One device of `hammer2_init_volumes`. -/
def initDevice (s : Init) (e : Devvp) : Except Errno Init :=
  if e.devvp = false then .error .panic
  else match e.header with
    | .error err => .error err
    | .ok (zone, vd) =>
        if maxVolumes ≤ vd.voluId.toNat then .error .einval
        else if (s.volumes.getD vd.voluId.toNat unset).id ≠ -1 then .error .einval
        else
          let first := s.first.getD vd
          match sameHeader first vd with
          | some err => .error err
          | none =>
              if first.version < versionMin ∨ first.version > versionWip then .error .einval
              else
                let vol := ⟨some e, vd.voluId.toNat, vd.voluLoff vd.voluId.toNat, vd.voluSize⟩
                .ok ⟨s.volumes.set vd.voluId.toNat vol,
                  if vd.voluId = rootVolume then some (zone, vd) else s.root, some first⟩

def initDevices : List Devvp → Init → Except Errno Init
  | [], s => .ok s
  | e :: devvpl, s =>
      match initDevice s e with
      | .error err => .error err
      | .ok s => initDevices devvpl s

/-- `hammer2_init_volumes`: the volumes, and the root header with its zone. -/
def initVolumes (devvpl : List Devvp) : Except Errno (List Volume × Nat × VolumeData) :=
  match initDevices devvpl ⟨List.replicate maxVolumes unset, none, none⟩ with
  | .error err => .error err
  | .ok s => match s.root with
    | none => .error .einval
    | some (zone, root) => match verifyVolumes s.volumes root with
      | some err => .error err
      | none => .ok (s.volumes, zone, root)

/-- `hmp->nvolumes` and `hmp->total_size`, as `hammer2_mountfs` sets them. -/
def hmpNvolumes (root : VolumeData) : Nat :=
  if root.version ≥ versionMultiVolumes then root.nvolumes.toNat else 1

def hmpTotalSize (root : VolumeData) : UInt64 :=
  if root.version ≥ versionMultiVolumes then root.totalSize else root.voluSize

/-- `offset &= ~HAMMER2_OFF_MASK_RADIX` -/
def withoutRadix (offset : UInt64) : UInt64 := offset / 64 * 64

/-- `hammer2_get_volume`, `none` for the panic. -/
def getVolume (volumes : List Volume) (nvolumes : Nat) (offset : UInt64) : Option Volume :=
  let offset := withoutRadix offset
  (volumes.take nvolumes).find? fun vol => offset ≥ vol.offset && offset < vol.offset + vol.size

/-! ## What is laid -/

/-- The place `o` is on the volume. -/
def Volume.Holds (vol : Volume) (o : Nat) : Prop :=
  vol.offset.toNat ≤ o ∧ o < vol.offset.toNat + vol.size.toNat

/-- The volumes in the first `n` slots, and no others, are there; they are aligned, lie end to
end below `total` and are found by what is on them. -/
structure Laid (volumes : List Volume) (n : Nat) (total : UInt64) : Prop where
  used : ∀ i vol, volumes[i]? = some vol → (vol.used = true ↔ i < n)
  aligned : ∀ vol ∈ volumes, vol.used = true → vol.offset.toNat % 1073741824 = 0
  disjoint : ∀ (i j : Nat) (v w : Volume), volumes[i]? = some v → volumes[j]? = some w →
    v.used = true → w.used = true → i < j → v.offset.toNat + v.size.toNat ≤ w.offset.toNat
  sum : ((volumes.filter Volume.used).map fun vol => vol.size.toNat).sum = total.toNat
  lookup : ∀ o : UInt64, o < total → ∃ vol ∈ volumes, getVolume volumes n o = some vol ∧
    vol.used = true ∧ vol.Holds o.toNat ∧
    ∀ w ∈ volumes, w.used = true → w.Holds o.toNat → w = vol
  dio : ∀ base : Nat, base % 65536 = 0 → ∀ vol ∈ volumes, vol.used = true → vol.Holds base →
    base + 65536 ≤ vol.offset.toNat + vol.size.toNat

/-- The sizes of the first `n` volumes. -/
def sizes (volumes : List Volume) (n : Nat) : List Nat :=
  (volumes.take n).map fun vol => vol.size.toNat

/-- What the checks establish. -/
structure Ends (volumes : List Volume) (n : Nat) (total : UInt64) : Prop where
  used : ∀ i vol, volumes[i]? = some vol → (vol.used = true ↔ i < n)
  offset : ∀ i vol, volumes[i]? = some vol → i < n →
    vol.offset.toNat = Extents.start (sizes volumes n) i
  aligned : ∀ vol ∈ volumes, vol.used = true → vol.offset.toNat % 1073741824 = 0
  size : ∀ vol ∈ volumes, vol.used = true → 65536 ∣ vol.size.toNat
  total : total.toNat = (sizes volumes n).sum

variable {volumes : List Volume} {n : Nat} {total : UInt64}

theorem sizes_getElem {i : Nat} {vol : Volume} (hi : volumes[i]? = some vol) (hn : i < n) :
    (sizes volumes n)[i]? = some vol.size.toNat := by
  rw [sizes, List.getElem?_map, List.getElem?_take_of_lt hn, hi]
  rfl

theorem of_sizes_getElem {i m : Nat} (h : (sizes volumes n)[i]? = some m) :
    ∃ vol, volumes[i]? = some vol ∧ i < n ∧ m = vol.size.toNat := by
  rw [sizes, List.getElem?_map] at h
  obtain ⟨vol, hvol, rfl⟩ := Option.map_eq_some_iff.mp h
  have hlt : i < (volumes.take n).length := (List.getElem?_eq_some_iff.mp hvol).1
  rw [List.length_take] at hlt
  have hn : i < n := by omega
  rw [List.getElem?_take_of_lt hn] at hvol
  exact ⟨vol, hvol, hn, rfl⟩

/-- A volume that is there, with its slot. -/
theorem Ends.slot (h : Ends volumes n total) {vol : Volume} (hmem : vol ∈ volumes)
    (hused : vol.used = true) : ∃ i, volumes[i]? = some vol ∧ i < n := by
  obtain ⟨i, hi⟩ := List.mem_iff_getElem?.mp hmem
  exact ⟨i, hi, (h.used i vol hi).mp hused⟩

/-- The volumes that are there come first. -/
theorem filter_used (h : ∀ i vol, volumes[i]? = some vol → (vol.used = true ↔ i < n)) :
    volumes.filter Volume.used = volumes.take n := by
  have hsplit : volumes.filter Volume.used =
      (volumes.take n).filter Volume.used ++ (volumes.drop n).filter Volume.used := by
    rw [← List.filter_append, List.take_append_drop]
  have hall : (volumes.take n).filter Volume.used = volumes.take n := by
    refine List.filter_eq_self.mpr fun vol hvol => ?_
    obtain ⟨i, hi⟩ := List.mem_iff_getElem?.mp hvol
    rw [List.getElem?_take] at hi
    split at hi
    · rename_i hn
      exact (h i vol hi).mpr hn
    · exact absurd hi nofun
  have hnone : (volumes.drop n).filter Volume.used = [] := by
    refine List.filter_eq_nil_iff.mpr fun vol hvol hused => ?_
    obtain ⟨i, hi⟩ := List.mem_iff_getElem?.mp hvol
    rw [List.getElem?_drop] at hi
    have hlt := (h (n + i) vol hi).mp hused
    omega
  rw [hsplit, hall, hnone, List.append_nil]

/-- A volume holds the places of its piece. -/
theorem Ends.holds_iff (h : Ends volumes n total) {i : Nat} {vol : Volume}
    (hi : volumes[i]? = some vol) (hn : i < n) (o : Nat) :
    vol.Holds o ↔ Extents.start (sizes volumes n) i ≤ o ∧
      o < Extents.start (sizes volumes n) i + vol.size.toNat := by
  rw [Volume.Holds, h.offset i vol hi hn]

/-- The end of a volume does not wrap. -/
theorem Ends.toNat_end (h : Ends volumes n total) {i : Nat} {vol : Volume}
    (hi : volumes[i]? = some vol) (hn : i < n) :
    vol.offset.toNat + vol.size.toNat ≤ total.toNat := by
  rw [h.offset i vol hi hn, h.total]
  exact Extents.end_le_sum (sizes_getElem hi hn)

/-- The two comparisons of `hammer2_get_volume`. -/
theorem Ends.inside_iff (h : Ends volumes n total) {i : Nat} {vol : Volume}
    (hi : volumes[i]? = some vol) (hn : i < n) (o : UInt64) (ho : o < total) :
    (o ≥ vol.offset && o < vol.offset + vol.size) = true ↔ vol.Holds o.toNat := by
  have hend := h.toNat_end hi hn
  have hlt := total.toNat_lt
  rw [Bool.and_eq_true, decide_eq_true_eq, decide_eq_true_eq, ge_iff_le, UInt64.le_iff_toNat_le,
    UInt64.lt_iff_toNat_lt, UInt64.toNat_add]
  rw [UInt64.lt_iff_toNat_lt] at ho
  rw [Volume.Holds]
  rcases Nat.lt_or_ge (vol.offset.toNat + vol.size.toNat) (2 ^ 64) with hsmall | hbig
  · rw [Nat.mod_eq_of_lt hsmall]
  · omega

theorem toNat_withoutRadix (o : UInt64) : (withoutRadix o).toNat = o.toNat / 64 * 64 := by
  have hlt := o.toNat_lt
  rw [withoutRadix, UInt64.toNat_mul, UInt64.toNat_div]
  exact Nat.mod_eq_of_lt (by
    show o.toNat / 64 * 64 < 2 ^ 64
    omega)

theorem Ends.dvd_offset (h : Ends volumes n total) {i : Nat} {vol : Volume}
    (hi : volumes[i]? = some vol) (hn : i < n) : 65536 ∣ vol.offset.toNat := by
  rw [h.offset i vol hi hn]
  refine Extents.dvd_start (fun m hm => ?_) i
  obtain ⟨j, hj⟩ := List.mem_iff_getElem?.mp hm
  obtain ⟨w, hw, hjn, rfl⟩ := of_sizes_getElem hj
  exact h.size w (List.mem_iff_getElem?.mpr ⟨j, hw⟩) ((h.used j w hw).mpr hjn)

/-- The radix bits of an offset do not lead to another volume. -/
theorem Ends.holds_withoutRadix (h : Ends volumes n total) {i : Nat} {vol : Volume}
    (hi : volumes[i]? = some vol) (hn : i < n) (o : UInt64) :
    vol.Holds (withoutRadix o).toNat ↔ vol.Holds o.toNat := by
  have hoff := h.dvd_offset hi hn
  have hsize := h.size vol (List.mem_iff_getElem?.mpr ⟨i, hi⟩) ((h.used i vol hi).mpr hn)
  rw [toNat_withoutRadix, Volume.Holds, Volume.Holds]
  omega

theorem Ends.unique (h : Ends volumes n total) {i j : Nat} {v w : Volume} {o : Nat}
    (hi : volumes[i]? = some v) (hj : volumes[j]? = some w) (hin : i < n) (hjn : j < n)
    (hv : v.Holds o) (hw : w.Holds o) : v = w := by
  rw [h.holds_iff hi hin] at hv
  rw [h.holds_iff hj hjn] at hw
  have hij := Extents.piece_unique (sizes_getElem hi hin) (sizes_getElem hj hjn) hv hw
  rw [hij, hj] at hi
  exact (Option.some.inj hi).symm

/-- **The lookup** finds the volume of an offset. -/
theorem Ends.getVolume_eq (h : Ends volumes n total) {i : Nat} {vol : Volume} {o : UInt64}
    (hi : volumes[i]? = some vol) (hn : i < n) (ho : o < total) (hold : vol.Holds o.toNat) :
    getVolume volumes n o = some vol := by
  have hradix : withoutRadix o < total := by
    rw [UInt64.lt_iff_toNat_lt, toNat_withoutRadix]
    rw [UInt64.lt_iff_toNat_lt] at ho
    omega
  have hin : vol ∈ volumes.take n := by
    refine List.mem_iff_getElem?.mpr ⟨i, ?_⟩
    rw [List.getElem?_take_of_lt hn]
    exact hi
  unfold getVolume
  cases hfind : (volumes.take n).find? fun vol =>
      withoutRadix o ≥ vol.offset && withoutRadix o < vol.offset + vol.size with
  | none =>
      have hnot := List.find?_eq_none.mp hfind vol hin
      exact absurd ((h.inside_iff hi hn _ hradix).mpr ((h.holds_withoutRadix hi hn o).mpr hold)) hnot
  | some w =>
      obtain ⟨j, hj⟩ := List.mem_iff_getElem?.mp (List.mem_of_find?_eq_some hfind)
      have hjn : j < n := by
        have hlt := (List.getElem?_eq_some_iff.mp hj).1
        rw [List.length_take] at hlt
        omega
      rw [List.getElem?_take_of_lt hjn] at hj
      have hp := List.find?_some hfind
      have hw := (h.inside_iff hj hjn _ hradix).mp hp
      rw [h.holds_withoutRadix hj hjn] at hw
      exact congrArg some (h.unique hj hi hjn hn hw hold)

theorem Ends.laid (h : Ends volumes n total) : Laid volumes n total where
  used := h.used
  aligned := h.aligned
  disjoint := by
    intro i j v w hi hj hv hw hij
    have hin := (h.used i v hi).mp hv
    have hjn := (h.used j w hj).mp hw
    rw [h.offset i v hi hin, h.offset j w hj hjn]
    exact Extents.end_le_start (sizes_getElem hi hin) hij
  sum := by
    rw [filter_used h.used, h.total]
    rfl
  lookup := by
    intro o ho
    have hlt : o.toNat < (sizes volumes n).sum := by
      rw [← h.total]
      exact UInt64.lt_iff_toNat_lt.mp ho
    obtain ⟨i, m, hm, hle, hlt⟩ := Extents.exists_piece hlt
    obtain ⟨vol, hi, hn, rfl⟩ := of_sizes_getElem hm
    have hold : vol.Holds o.toNat := (h.holds_iff hi hn o.toNat).mpr ⟨hle, hlt⟩
    refine ⟨vol, List.mem_iff_getElem?.mpr ⟨i, hi⟩, h.getVolume_eq hi hn ho hold,
      (h.used i vol hi).mpr hn, hold, fun w hw hused hwold => ?_⟩
    obtain ⟨j, hj, hjn⟩ := h.slot hw hused
    exact h.unique hj hi hjn hn hwold hold
  dio := by
    intro base hbase vol hvol hused hold
    obtain ⟨i, hi, hn⟩ := h.slot hvol hused
    have hoff := h.dvd_offset hi hn
    have hsize := h.size vol hvol hused
    rw [Volume.Holds] at hold
    omega

/-! ## What the checks establish -/

theorem fail_eq_none {c : Prop} [Decidable c] : fail c = none ↔ ¬ c := by
  unfold fail
  split
  · rename_i h
    exact ⟨nofun, fun hc => absurd h hc⟩
  · rename_i h
    exact ⟨fun _ => h, fun _ => rfl⟩

theorem each_eq_none {α : Type} {xs : List α} {check : α → Option Errno} :
    each xs check = none ↔ ∀ x ∈ xs, check x = none := List.findSome?_eq_none_iff

/-- In a list where an element meets `p` only after one that does, those that meet it come first. -/
theorem meets_iff_lt {α : Type} {p : α → Bool} : ∀ {xs : List α},
    (∀ i a b, xs[i]? = some a → xs[i + 1]? = some b → p b = true → p a = true) →
    ∀ i x, xs[i]? = some x → (p x = true ↔ i < (xs.filter p).length)
  | a :: xs, h, i, x, hi => by
      have ih := @meets_iff_lt α p xs fun i a b ha hb => h (i + 1) a b ha hb
      cases ha : p a with
      | true =>
          rw [List.filter_cons_of_pos ha, List.length_cons]
          cases i with
          | zero =>
              obtain rfl := Option.some.inj hi
              exact ⟨fun _ => Nat.succ_pos _, fun _ => ha⟩
          | succ i => exact (ih i x hi).trans Nat.succ_lt_succ_iff.symm
      | false =>
          have hna : ¬ p a = true := by rw [ha]; exact Bool.false_ne_true
          rw [List.filter_cons_of_neg hna]
          have hnil : (xs.filter p).length = 0 := by
            cases xs with
            | nil => rfl
            | cons b xs =>
                refine Nat.eq_zero_of_not_pos fun hpos => hna ?_
                exact h 0 a b rfl rfl ((ih 0 b rfl).mpr hpos)
          rw [hnil]
          cases i with
          | zero =>
              obtain rfl := Option.some.inj hi
              exact ⟨fun hx => absurd hx hna, fun hlt => absurd hlt (Nat.not_lt_zero _)⟩
          | succ i =>
              have hx := ih i x hi
              rw [hnil] at hx
              exact ⟨fun hp => absurd (hx.mp hp) (Nat.not_lt_zero _),
                fun hlt => absurd hlt (Nat.not_lt_zero _)⟩

theorem foldl_size : ∀ (vols : List Volume) (t : UInt64),
    (vols.foldl (fun total vol => total + vol.size) t).toNat =
      (t.toNat + (vols.map fun vol => vol.size.toNat).sum) % 2 ^ 64
  | [], t => by
      have hlt := t.toNat_lt
      exact (Nat.mod_eq_of_lt hlt).symm
  | vol :: vols, t => by
      rw [List.foldl_cons, foldl_size vols, UInt64.toNat_add, List.map_cons, List.sum_cons,
        Nat.mod_add_mod, Nat.add_assoc]

/-- The slots: each is not used, or has the volume of its id. -/
structure Slots (volumes : List Volume) : Prop where
  length : volumes.length = maxVolumes
  slot : ∀ (i : Nat) vol, volumes[i]? = some vol → vol = unset ∨ vol.id = i

theorem Slots.used_iff (h : Slots volumes) {i : Nat} {vol : Volume} (hi : volumes[i]? = some vol) :
    (vol.used = true ↔ vol.id ≠ -1) ∧ (vol.used = false → vol = unset) := by
  unfold Volume.used
  refine ⟨bne_iff_ne, fun hid => ?_⟩
  rcases h.slot i vol hi with rfl | hid'
  · rfl
  · have hne : vol.id ≠ -1 := by omega
    exact absurd (bne_iff_ne.mpr hne) (by rw [hid]; exact Bool.false_ne_true)

theorem mask_aligned {x mask : UInt64} {k : Nat} (hk : mask.toNat = 2 ^ k - 1)
    (h : ¬ x &&& mask ≠ 0) : x.toNat % 2 ^ k = 0 := by
  have hzero : (x &&& mask).toNat = (0 : UInt64).toNat := congrArg _ (not_not.mp h)
  rw [UInt64.toNat_and, hk, Nat.and_two_pow_sub_one_eq_mod] at hzero
  exact hzero

/-- A size is at most that of the device. -/
theorem size_le_media {root : VolumeData} (h : verifyVolumesCommon volumes root = none)
    {vol : Volume} (hvol : vol ∈ volumes) (hused : vol.used = true) :
    vol.size.toNat ≤ vol.media := by
  unfold verifyVolumesCommon at h
  simp only [Option.or_eq_none_iff] at h
  have hvol := each_eq_none.mp h.2.2 vol hvol
  unfold verifyCommon at hvol
  rw [if_neg (bne_iff_ne.mp hused)] at hvol
  unfold Volume.media
  split at hvol
  · exact absurd hvol nofun
  · rename_i dev hdev
    simp only [Option.or_eq_none_iff] at hvol
    obtain ⟨-, -, -, hvol⟩ := hvol
    rw [hdev]
    obtain ⟨devvp, header, label⟩ := dev
    cases label with
    | error e => exact absurd hvol nofun
    | ok dl =>
        simp only [Option.or_eq_none_iff, fail_eq_none] at hvol
        exact UInt64.le_iff_toNat_le.mp (UInt64.not_lt.mp hvol.1)

/-- The sizes do not wrap. -/
theorem sum_lt {root : VolumeData} (h : verifyVolumesCommon volumes root = none)
    (hmedia : ((volumes.filter Volume.used).map Volume.media).sum < 2 ^ 64) :
    ((volumes.filter Volume.used).map fun vol => vol.size.toNat).sum < 2 ^ 64 := by
  refine Nat.lt_of_le_of_lt (List.sum_le_sum fun vol hvol => ?_) hmedia
  obtain ⟨hmem, hused⟩ := List.mem_filter.mp hvol
  exact size_le_media h hmem hused

/-- A volume that passed `hammer2_verify_volumes_2`. -/
structure Passed (volumes : List Volume) (i : Nat) (vol : Volume) : Prop where
  aligned : vol.offset.toNat % 2 ^ 30 = 0
  first : i = 0 → vol.offset = 0
  next : ∀ j prev, i = j + 1 → volumes[j]? = some prev → vol.offset = prev.offset + prev.size
  size : 65536 ∣ vol.size.toNat

theorem passed {root : VolumeData} {i : Nat} {vol : Volume} (hi : volumes[i]? = some vol)
    (hused : vol.id ≠ -1) (h : verifyVolume2 volumes root i = none) : Passed volumes i vol := by
  have hget : volumes.getD i unset = vol := by rw [List.getD_eq_getElem?_getD, hi]; rfl
  unfold verifyVolume2 at h
  simp only [hget, if_neg hused, Option.or_eq_none_iff, fail_eq_none] at h
  obtain ⟨halign, hprev, hsize⟩ := h
  have hmask : level1Mask.toNat = 2 ^ 30 - 1 := rfl
  have hmask' : volumeAlignMask.toNat = 2 ^ 23 - 1 := rfl
  refine ⟨mask_aligned hmask halign, fun h0 => ?_, fun j prev hij hj => ?_, ?_⟩
  · rw [if_neg (not_not.mpr h0), fail_eq_none] at hprev
    exact not_not.mp hprev
  · have hne : i ≠ 0 := by omega
    have hpred : i - 1 = j := by omega
    have hgetj : volumes.getD j unset = prev := by rw [List.getD_eq_getElem?_getD, hj]; rfl
    simp only [if_pos hne, hpred, hgetj, Option.or_eq_none_iff, fail_eq_none] at hprev
    exact not_not.mp hprev.2
  · split at hsize
    · simp only [Option.or_eq_none_iff, fail_eq_none] at hsize
      have hmod := mask_aligned hmask hsize.2
      omega
    · have hmod := mask_aligned hmask' (fail_eq_none.mp hsize)
      omega

/-- Volumes that come first and begin where the one before them ends. -/
theorem ends_of_passed (hused : ∀ i vol, volumes[i]? = some vol → (vol.used = true ↔ i < n))
    (hpass : ∀ i vol, volumes[i]? = some vol → i < n → Passed volumes i vol)
    (htotal : total.toNat = (sizes volumes n).sum) : Ends volumes n total := by
  have hslot : ∀ vol ∈ volumes, vol.used = true → ∃ i, Passed volumes i vol := by
    intro vol hvol hu
    obtain ⟨i, hi⟩ := List.mem_iff_getElem?.mp hvol
    exact ⟨i, hpass i vol hi ((hused i vol hi).mp hu)⟩
  refine ⟨hused, ?_, fun vol hvol hu => ?_, fun vol hvol hu => ?_, htotal⟩
  · intro i
    induction i with
    | zero =>
        intro vol hi hn
        rw [(hpass 0 vol hi hn).first rfl]
        rfl
    | succ i ih =>
        intro vol hi hn
        have hlt : i < volumes.length :=
          Nat.lt_of_succ_lt (List.getElem?_eq_some_iff.mp hi).1
        have hprev : volumes[i]? = some volumes[i] := List.getElem?_eq_getElem hlt
        have hsize := sizes_getElem hprev (Nat.lt_of_succ_lt hn)
        have hle := Extents.end_le_sum hsize
        have hmax := total.toNat_lt
        rw [(hpass (i + 1) vol hi hn).next i _ rfl hprev, UInt64.toNat_add,
          ih _ hprev (Nat.lt_of_succ_lt hn), Extents.start_succ hsize]
        exact Nat.mod_eq_of_lt (by omega)
  · obtain ⟨i, hp⟩ := hslot vol hvol hu
    exact hp.aligned
  · obtain ⟨i, hp⟩ := hslot vol hvol hu
    exact hp.size

/-- The total of the volumes that are there. -/
theorem toNat_totalSize
    (hlt : ((volumes.filter Volume.used).map fun vol => vol.size.toNat).sum < 2 ^ 64) :
    (totalSize volumes).toNat = ((volumes.filter Volume.used).map fun vol => vol.size.toNat).sum := by
  rw [totalSize, foldl_size, UInt64.toNat_zero, Nat.zero_add, Nat.mod_eq_of_lt hlt]

theorem ends_of_verify2 {root : VolumeData} (hslots : Slots volumes)
    (hlt : ((volumes.filter Volume.used).map fun vol => vol.size.toNat).sum < 2 ^ 64)
    (h : verifyVolumes2 volumes root = none) :
    Ends volumes root.nvolumes.toNat root.totalSize := by
  unfold verifyVolumes2 at h
  simp only [Option.or_eq_none_iff, fail_eq_none, each_eq_none, not_not] at h
  obtain ⟨hcount, hsum, -, -, hvols⟩ := h
  have hchecked : ∀ i vol, volumes[i]? = some vol → vol.used = true → Passed volumes i vol := by
    intro i vol hi hu
    have hlen := (List.getElem?_eq_some_iff.mp hi).1
    rw [hslots.length] at hlen
    exact passed hi ((hslots.used_iff hi).1.mp hu) (hvols i (List.mem_range.mpr hlen))
  have hused : ∀ i vol, volumes[i]? = some vol → (vol.used = true ↔ i < nvolumes volumes) := by
    refine meets_iff_lt fun i a b ha hb hub => ?_
    have hnext := (hchecked (i + 1) b hb hub).next i a rfl ha
    have halign := (hchecked (i + 1) b hb hub).aligned
    cases hua : a.used with
    | true => rfl
    | false =>
        -- a slot that is not used ends at -2, where nothing may begin
        rw [hnext, (hslots.used_iff ha).2 hua] at halign
        exact absurd halign (by decide)
  have htotal := toNat_totalSize hlt
  rw [filter_used hused] at htotal
  rw [hcount, hsum]
  exact ends_of_passed hused (fun i vol hi hn => hchecked i vol hi ((hused i vol hi).mpr hn)) htotal

theorem ends_of_verify1 {root : VolumeData} (hslots : Slots volumes)
    (hroot : ∀ vol, volumes[0]? = some vol → vol.size = root.voluSize)
    (h : verifyVolumes1 volumes root = none) : Ends volumes 1 root.voluSize := by
  unfold verifyVolumes1 at h
  simp only [Option.or_eq_none_iff, fail_eq_none, not_not] at h
  obtain ⟨hcount, -, -, -, hvol⟩ := h
  cases h0 : volumes[0]? with
  | none => rw [h0] at hvol; exact absurd hvol nofun
  | some vol =>
      rw [h0] at hvol
      dsimp only at hvol
      split at hvol
      · exact absurd hvol nofun
      · simp only [Option.or_eq_none_iff, fail_eq_none, not_not] at hvol
        obtain ⟨hid, hoff, hsize⟩ := hvol
        have hmod := @mask_aligned vol.size volumeAlignMask 23 rfl (not_not.mpr hsize)
        have hused : ∀ i vol, volumes[i]? = some vol → (vol.used = true ↔ i < 1) := by
          have hu0 : vol.used = true := bne_iff_ne.mpr (by rw [hid]; decide)
          rw [← hcount]
          obtain ⟨vols, rfl⟩ : ∃ vols, volumes = vol :: vols := by
            cases volumes with
            | nil => exact absurd h0 nofun
            | cons v vols => exact ⟨vols, by rw [Option.some.inj h0]⟩
          rw [nvolumes, List.filter_cons_of_pos hu0, List.length_cons] at hcount
          have hnil : vols.filter Volume.used = [] :=
            List.eq_nil_of_length_eq_zero (Nat.succ.inj hcount)
          refine meets_iff_lt fun i a b ha hb hub => ?_
          have hmem : b ∈ vols := List.mem_iff_getElem?.mpr ⟨i, hb⟩
          exact absurd hub (List.filter_eq_nil_iff.mp hnil b hmem)
        have hsizes : sizes volumes 1 = [vol.size.toNat] := by
          cases volumes with
          | nil => exact absurd h0 nofun
          | cons v vols => rw [← Option.some.inj h0]; rfl
        refine ends_of_passed hused (fun i v hi hn => ?_) ?_
        · obtain rfl : i = 0 := by omega
          obtain rfl : vol = v := Option.some.inj (h0.symm.trans hi)
          exact ⟨by rw [hoff]; rfl, fun _ => hoff, nofun, by omega⟩
        · rw [hsizes, ← hroot vol h0]
          exact (Nat.add_zero _).symm

/-! ## The devices of a mount -/

/-- The slots of the devices so far, with the root header in slot 0. -/
structure Ready (s : Init) : Prop extends Slots s.volumes where
  root : ∀ zone root, s.root = some (zone, root) →
    ∃ vol, s.volumes[0]? = some vol ∧ vol.id = 0 ∧ vol.size = root.voluSize

theorem Ready.device {s t : Init} {e : Devvp} (h : Ready s) (hs : initDevice s e = .ok t) :
    Ready t := by
  unfold initDevice at hs
  split at hs
  · exact absurd hs nofun
  · split at hs
    · exact absurd hs nofun
    · rename_i zone vd hhdr
      split at hs
      · exact absurd hs nofun
      · rename_i hmax
        split at hs
        · exact absurd hs nofun
        · rename_i hfree
          dsimp only at hs
          split at hs
          · exact absurd hs nofun
          · split at hs
            · exact absurd hs nofun
            · obtain rfl := Except.ok.inj hs
              have hlt : vd.voluId.toNat < s.volumes.length := by
                rw [h.length]
                omega
              refine ⟨⟨?_, fun i vol hi => ?_⟩, fun zone' root hroot => ?_⟩
              · rw [List.length_set]
                exact h.length
              · rw [List.getElem?_set] at hi
                split at hi
                · rename_i hid
                  obtain rfl := Option.some.inj hi
                  exact .inr (by rw [← hid])
                · exact h.slot i vol hi
              · dsimp only at hroot
                split at hroot
                · rename_i hid
                  obtain ⟨rfl, rfl⟩ := Prod.mk.inj (Option.some.inj hroot)
                  have h0 : vd.voluId.toNat = 0 := by rw [hid]; rfl
                  exact ⟨_, by rw [h0] at hlt ⊢; rw [List.getElem?_set_self hlt], rfl, rfl⟩
                · obtain ⟨vol, hvol, hid, hsize⟩ := h.root zone' root hroot
                  have hne : vd.voluId.toNat ≠ 0 := by
                    intro h0
                    have hget : s.volumes.getD vd.voluId.toNat unset = vol := by
                      rw [h0, List.getD_eq_getElem?_getD, hvol]
                      rfl
                    rw [hget, hid] at hfree
                    exact hfree (by decide)
                  exact ⟨vol, by rw [List.getElem?_set_ne hne]; exact hvol, hid, hsize⟩

theorem Ready.devices : ∀ {devvpl : List Devvp} {s t : Init}, Ready s →
    initDevices devvpl s = .ok t → Ready t
  | [], s, t, h, hs => Except.ok.inj hs ▸ h
  | e :: devvpl, s, t, h, hs => by
      unfold initDevices at hs
      split at hs
      · exact absurd hs nofun
      · rename_i s' he
        exact (h.device he).devices hs

theorem ready_init : Ready ⟨List.replicate maxVolumes unset, none, none⟩ where
  length := List.length_replicate
  slot := fun _ _ hi => .inl (List.eq_of_mem_replicate (List.mem_iff_getElem?.mpr ⟨_, hi⟩))
  root := nofun

/-- **Volumes that are accepted lie end to end**, if the devices add up to less than 2 ^ 64
bytes. -/
theorem volumes_laid {devvpl : List Devvp} {volumes : List Volume} {zone : Nat} {root : VolumeData}
    (h : initVolumes devvpl = .ok (volumes, zone, root))
    (hmedia : ((volumes.filter Volume.used).map Volume.media).sum < 2 ^ 64) :
    Laid volumes (hmpNvolumes root) (hmpTotalSize root) := by
  unfold initVolumes at h
  split at h
  · exact absurd h nofun
  · rename_i s hs
    have hready := ready_init.devices hs
    split at h
    · exact absurd h nofun
    · rename_i zone' root' hroot
      split at h
      · exact absurd h nofun
      · rename_i hverify
        cases Except.ok.inj h
        unfold verifyVolumes at hverify
        rw [Option.or_eq_none_iff] at hverify
        obtain ⟨hcommon, hverify⟩ := hverify
        unfold hmpNvolumes hmpTotalSize
        split at hverify
        · rename_i hversion
          rw [if_pos hversion, if_pos hversion]
          exact (ends_of_verify2 hready.toSlots (sum_lt hcommon hmedia) hverify).laid
        · rename_i hversion
          rw [if_neg hversion, if_neg hversion]
          refine (ends_of_verify1 hready.toSlots (fun vol hvol => ?_) hverify).laid
          obtain ⟨vol', hvol', -, hsize⟩ := hready.root zone root hroot
          rw [hvol] at hvol'
          rw [Option.some.inj hvol']
          exact hsize

/-- A device of a filesystem of version 2. -/
def device (nvolumes voluId : UInt8) (totalSize size : UInt64) (loff : List UInt64)
    (label : Disklabel) : Devvp :=
  ⟨true, .ok (0, ⟨size, 2, voluId, nvolumes, ⟨0, 0, 0, 0, 0⟩, hammer2Uuid, totalSize,
    fun i => loff.getD i (-1)⟩), .ok label⟩

/-- 1GB and 8MB. -/
def twoDisks : List Devvp :=
  [device 2 0 1082130432 1073741824 [0, 1073741824] ⟨2097152, 512⟩,
    device 2 1 1082130432 8388608 [0, 1073741824] ⟨16384, 512⟩]

theorem twoDisks_laid : ∃ volumes zone root, initVolumes twoDisks = .ok (volumes, zone, root) ∧
    Laid volumes 2 1082130432 := by
  have hok : initVolumes twoDisks = .ok (_, _, _) := rfl
  exact ⟨_, _, _, hok, volumes_laid hok (by decide)⟩

/-- Four times 2 ^ 62 bytes, and 8MB, which begin at 0 again. -/
def wrapped : List Devvp :=
  let loff := [0, 4611686018427387904, 9223372036854775808, 13835058055282163712, 0]
  let quarter (voluId : UInt8) :=
    device 5 voluId 8388608 4611686018427387904 loff ⟨2147483648, 2147483648⟩
  [quarter 0, quarter 1, quarter 2, quarter 3, device 5 4 8388608 8388608 loff ⟨16384, 512⟩]

/-- The sum of the sizes wraps, and two volumes overlap. -/
theorem wrapped_overlap : ¬ ∀ devvpl volumes zone root,
    initVolumes devvpl = .ok (volumes, zone, root) →
      Laid volumes (hmpNvolumes root) (hmpTotalSize root) := by
  intro h
  have hok : initVolumes wrapped = .ok (_, _, _) := rfl
  have hle := (h wrapped _ _ _ hok).disjoint 0 4 _ _ rfl rfl rfl rfl (by decide)
  exact absurd hle (by decide)

end Hammer2.Volume.Verify
