/-
# `Hammer2.Freemap.Newfs` — the free space `newfs_hammer2` writes

The options and the volumes a call of `newfs_hammer2` is given, what it checks of them, and
the volume headers it writes.  The free size is the total size less 4MB for each 1GB, rounded
up, and less the boot and aux areas; the kernel counts the free space leaf by leaf, when
`hammer2_freemap_init` makes it.

    newfsHammer2          main, hammer2_mkfs, format_hammer2
    kernelFree            the `avail` of all leaves below the total size
    newfsHammer2_newfs    an accepted call starts the accounts of `Account.newfs`
    newfsHammer2_free     the free size is `kernelFree` and the 4MB segment of the first
                          inodes, and `allocator_free` stays that far above the free blocks

Texts are taken as the numbers they denote; the writes to the volumes succeed, as they do
wherever the call does not exit.
-/
import Hammer2.Freemap.Account

namespace Hammer2.Newfs

open Account Machine Freemap
open Finset (range)

abbrev bootMinBytes : Nat := 8388608
abbrev bootNomBytes : Nat := 67108864
abbrev bootMaxBytes : Nat := 268435456
abbrev auxMinBytes : Nat := 8388608
abbrev auxNomBytes : Nat := 268435456
abbrev auxMaxBytes : Nat := 1073741824
abbrev maxVolumes : Nat := 64
abbrev maxLabels : Nat := 4
abbrev inodeMaxname : Nat := 256
abbrev volVersionMin : Int := 1
abbrev volVersionMultiVolumes : Int := 2
abbrev volVersionWip : Int := 3
abbrev rootVolume : Nat := 0

/-! ## The options -/

abbrev Label := List UInt8

def lower (c : UInt8) : UInt8 := if 65 ≤ c ∧ c ≤ 90 then c + 32 else c

/-- `strcasecmp(a, b) == 0` -/
def sameLabel (a b : Label) : Bool := a.map lower == b.map lower

def labelNone : Label := [110, 111, 110, 101]
def labelLocal : Label := [76, 79, 67, 65, 76]
def labelData : Label := [68, 65, 84, 65]

/-- The fields of `hammer2_mkfs_options_t` that decide the layout.  `NLabels` and
`NFileSystemSizes` are the lengths of the lists. -/
structure Options where
  version : Int
  bootAreaSize : Nat
  auxAreaSize : Nat
  fileSystemSize : List Nat
  label : List Label
deriving DecidableEq

inductive Arg where
  | b (size : Int)
  | r (size : Int)
  | V (version : Int)
  | L (label : Label)
  | s (size : Int) (more : List Int)
  | d

/-- `getsize` on the number the text denotes. -/
def getsize (val minval maxval : Int) (powerof2 : Nat) : Option Nat :=
  let word := BitVec.ofInt 64 val
  if val < minval then none
  else if val > maxval then none
  else if powerof2 &&& 1 ≠ 0 ∧ word ^^^ (word - 1) ≠ word <<< 1 - 1 then none
  else if powerof2 &&& 2 ≠ 0 ∧ val % newfsAlign ≠ 0 then none
  else some val.toNat

/-- `get_hammer2_version`; `supported` is what the kernel reports. -/
def getVersion : Option Int → Int
  | none => volVersionMultiVolumes
  | some version => if version ≥ volVersionWip then volVersionWip - 1 else version

/-- `hammer2_mkfs_init` -/
def mkfsInit (supported : Option Int) : Options :=
  ⟨getVersion supported, 0, 0, [], [labelLocal]⟩

/-- One option of the command line; the flag is `label_specified`. -/
def parseArg (s : Options × Bool) : Arg → Option (Options × Bool)
  | .b size => (getsize size newfsAlign bootMaxBytes 2).map fun v => ({ s.1 with bootAreaSize := v }, s.2)
  | .r size => (getsize size newfsAlign auxMaxBytes 2).map fun v => ({ s.1 with auxAreaSize := v }, s.2)
  | .V version =>
      if version < volVersionMin ∨ version ≥ volVersionWip then none
      else some ({ s.1 with version := version }, s.2)
  | .L label =>
      if sameLabel label labelNone then some (s.1, true)
      else if s.1.label.any (sameLabel · label) then none
      else if s.1.label.length ≥ maxLabels then none
      else if label.length = 0 then none
      else if label.length ≥ inodeMaxname then none
      else some ({ s.1 with label := s.1.label ++ [label] }, true)
  | .s size more =>
      (((size :: more).take maxVolumes).mapM fun v => getsize v freemapLevel1Size 0x7fffffffffffffff 2).map
        fun sizes => ({ s.1 with fileSystemSize := sizes }, s.2)
  | .d => some s

/-! ## The volumes -/

/-- A device or file: its identity and the size `check_volume` finds. -/
structure Device where
  stDev : Nat
  stIno : Nat
  size : Nat

structure Volume where
  id : Nat
  offset : Nat
  size : Nat
deriving DecidableEq

/-- `hammer2_ondisk_t` -/
structure Ondisk where
  version : Int
  nvolumes : Nat
  totalSize : Nat
  volumes : List Volume
deriving DecidableEq

/-- The size of volume `i` and the `resid` after it; `none` where the call exits. -/
def limitSize (opt : Options) (i resid size : Nat) : Option (Nat × Nat) :=
  if opt.fileSystemSize.length = 1 then
    if resid = 0 then none
    else
      let size := if size > resid then resid else size
      some (size, resid - size)
  else if opt.fileSystemSize.length > 1 then
    let resid := opt.fileSystemSize.getD i 0
    if resid < freemapLevel1Size then none
    else some (if size > resid then resid else size, resid)
  else some (size, resid)

/-- The loop over the volumes from number `i` on: what is installed and the total size. -/
def installVolumes (opt : Options) (nvolumes : Nat) : List Device → Nat → Nat → Nat →
    Option (List Volume × Nat)
  | [], _, _, totalSize => some ([], totalSize)
  | dev :: devs, i, resid, totalSize =>
      match limitSize opt i resid dev.size with
      | none => none
      | some (size, resid) =>
          let size :=
            if i = nvolumes - 1 then size / newfsAlign * newfsAlign
            else size / freemapLevel1Size * freemapLevel1Size
          if size = 0 then none
          else
            (installVolumes opt nvolumes devs (i + 1) resid ((totalSize + size) % 2 ^ 64)).map
              fun r => (⟨i, totalSize, size⟩ :: r.1, r.2)

/-- `hammer2_verify_volumes_common`; no device is given twice. -/
def verifyVolumesCommon (fso : Ondisk) (devs : List Device) : Bool :=
  fso.version ≠ -1 ∧ (devs.map fun dev => (dev.stDev, dev.stIno)).Nodup ∧
    ∀ p ∈ fso.volumes.zip devs,
      p.1.offset ≠ 2 ^ 64 - 1 ∧ p.1.size ≠ 2 ^ 64 - 1 ∧ p.1.size ≤ p.2.size ∧ p.1.size ≠ 0

/-- `hammer2_verify_volumes_1` -/
def verifyVolumes1 (fso : Ondisk) : Bool :=
  match fso.volumes with
  | [vol] => vol.id = 0 ∧ vol.offset = 0 ∧ vol.size % newfsAlign = 0
  | _ => false

/-- The volumes after the first one are checked against the one before. -/
def verifyChain (nvolumes : Nat) : Option Volume → List Volume → Nat → Bool
  | _, [], _ => true
  | prev, vol :: vols, i =>
      let placed : Bool :=
        match prev with
        | none => vol.offset = 0
        | some p => vol.id = p.id + 1 ∧ vol.offset = (p.offset + p.size) % 2 ^ 64
      let sized : Bool :=
        if i ≠ nvolumes - 1 then freemapLevel1Size ≤ vol.size ∧ vol.size % freemapLevel1Size = 0
        else vol.size % newfsAlign = 0
      decide (vol.offset % freemapLevel1Size = 0) && placed && sized &&
        verifyChain nvolumes (some vol) vols (i + 1)

/-- `hammer2_verify_volumes_2` -/
def verifyVolumes2 (fso : Ondisk) : Bool :=
  fso.nvolumes = fso.volumes.length ∧ verifyChain fso.nvolumes none fso.volumes 0

def verifyVolumes (fso : Ondisk) (devs : List Device) : Bool :=
  verifyVolumesCommon fso devs &&
    if fso.version ≥ volVersionMultiVolumes then verifyVolumes2 fso else verifyVolumes1 fso

/-! ## The areas -/

/-- `while (size > limit) size >>= 1`, for a size below `2 ^ fuel`. -/
def halve (limit : Nat) : Nat → Nat → Nat
  | 0, size => size
  | fuel + 1, size => if size > limit then halve limit fuel (size / 2) else size

/-- The boot or the aux area of `adjust_options`. -/
def areaSize (nom min totalSize size : Nat) : Nat :=
  let size :=
    if size = 0 then
      let size := halve (totalSize / 20) 64 nom
      if size < min then min else size
    else if size < min then min else size
  alignUp size

/-- `adjust_options`; `DefaultLabelType` is `DATA` where no label was given, else `NONE`. -/
def adjustOptions (totalSize : Nat) (opt : Options) (labelSpecified : Bool) : Options :=
  { opt with
    label := if labelSpecified then opt.label else opt.label ++ [labelData]
    bootAreaSize := areaSize bootNomBytes bootMinBytes totalSize opt.bootAreaSize
    auxAreaSize := areaSize auxNomBytes auxMinBytes totalSize opt.auxAreaSize }

/-! ## The free size -/

def reservedSize (totalSize : Nat) : Nat :=
  (totalSize + (freemapLevel1Size - 1)) % 2 ^ 64 / freemapLevel1Size * zoneSeg

def freeSize (totalSize : Nat) (opt : Options) : BitVec 64 :=
  BitVec.ofNat 64 totalSize - BitVec.ofNat 64 (reservedSize totalSize) -
    BitVec.ofNat 64 opt.bootAreaSize - BitVec.ofNat 64 opt.auxAreaSize

/-! ## The headers -/

/-- The fields of `hammer2_volume_data_t` that tell sizes and places. -/
structure VolumeData where
  bootBeg : Nat
  bootEnd : Nat
  auxBeg : Nat
  auxEnd : Nat
  voluSize : Nat
  version : Int
  voluId : Nat
  nvolumes : Nat
  totalSize : Nat
  voluLoff : List Nat
  allocatorSize : BitVec 64
  allocatorFree : BitVec 64
  allocatorBeg : Nat
deriving DecidableEq

/-- `alloc_direct`: the data offset and the new base. -/
def allocDirect (base bytes : Nat) : Option (Nat × Nat) :=
  let radix := bytes.log2
  if bytes = 2 ^ radix then
    let radix := if radix < radixMin then radixMin else radix
    some (base ||| radix, base + 1 <<< radix)
  else none

/-- The loop over the labels: every root inode is in the block of the super-root inode. -/
def allocLabels (sroot : Nat) : List Label → Nat → Option Nat
  | [], base => some base
  | _ :: labels, base =>
      match allocDirect base inodeBytes with
      | none => none
      | some (dataOff, base) =>
          if sroot / pbufSize = dataOff / pbufSize then allocLabels sroot labels base else none

/-- `format_hammer2_misc` -/
def formatMisc (opt : Options) (auxBase : Nat) : Option Nat :=
  let allocBase := auxBase + opt.auxAreaSize
  if allocBase % pbufSize = 0 ∧ allocBase < freemapLevel1Size then some allocBase else none

/-- `format_hammer2_inode` -/
def formatInode (opt : Options) (allocBase : Nat) : Option Nat :=
  match allocDirect (allocBase / pbufSize * pbufSize) inodeBytes with
  | none => none
  | some (sroot, base) =>
      match allocLabels sroot opt.label base with
      | none => none
      | some base => if sroot / pbufSize = (base - 1) / pbufSize then some base else none

/-- Where `format_hammer2` begins to allocate. -/
def formatBase (opt : Options) (vol : Volume) : Option Nat :=
  if vol.id = rootVolume then (formatMisc opt (zoneSeg + opt.bootAreaSize)).bind (formatInode opt)
  else some 0

/-- `format_hammer2`; a field that is not set is zero. -/
def formatHammer2 (fso : Ondisk) (opt : Options) (vol : Volume) : Option VolumeData :=
  (formatBase opt vol).map fun allocBase =>
    let bootBase := zoneSeg
    let auxBase := bootBase + opt.bootAreaSize
    let root : Bool := vol.id = rootVolume
    let multi : Bool := fso.version ≥ volVersionMultiVolumes
    let free := freeSize fso.totalSize opt
    { bootBeg := if root then bootBase else 0
      bootEnd := if root then bootBase + opt.bootAreaSize else 0
      auxBeg := if root then auxBase else 0
      auxEnd := if root then auxBase + opt.auxAreaSize else 0
      voluSize := vol.size
      version := opt.version
      voluId := if multi then vol.id else 0
      nvolumes := if multi then fso.nvolumes else 0
      totalSize := if multi then fso.totalSize else 0
      voluLoff :=
        if multi then fso.volumes.map Volume.offset ++ List.replicate (maxVolumes - fso.nvolumes) (2 ^ 64 - 1)
        else List.replicate maxVolumes 0
      allocatorSize := free
      allocatorFree := if root then free else 0
      allocatorBeg := if root then allocBase else 0 }

/-- The first `resid` of `hammer2_mkfs`. -/
def firstResid (opt : Options) (ac : Nat) : Option Nat :=
  match opt.fileSystemSize with
  | [] => some 0
  | [size] => if size < freemapLevel1Size then none else some size
  | _ => if ac ≠ opt.fileSystemSize.length then none else some 0

/-- `hammer2_mkfs`: the volumes and the headers. -/
def mkfs (devs : List Device) (opt : Options) (labelSpecified : Bool) :
    Option (Ondisk × List VolumeData) :=
  match firstResid opt devs.length with
  | none => none
  | some resid =>
      match installVolumes opt devs.length devs 0 resid 0 with
      | none => none
      | some (volumes, totalSize) =>
          let fso : Ondisk := ⟨opt.version, devs.length, totalSize, volumes⟩
          if verifyVolumes fso devs = false then none
          else
            let opt := adjustOptions totalSize opt labelSpecified
            if (freeSize totalSize opt).toInt < 0 then none
            else (volumes.mapM (formatHammer2 fso opt)).map fun headers => (fso, headers)

/-- `main` of `newfs_hammer2`. -/
def newfsHammer2 (supported : Option Int) (args : List Arg) (devs : List Device) :
    Option (Ondisk × List VolumeData) :=
  match args.foldlM parseArg (mkfsInit supported, false) with
  | none => none
  | some (opt, labelSpecified) =>
      if devs.length = 0 ∨ devs.length > maxVolumes then none
      else mkfs devs opt labelSpecified

/-! ## What an accepted call establishes -/

theorem halve_le {limit : Nat} : ∀ {fuel size : Nat}, size < 2 ^ fuel → halve limit fuel size ≤ limit
  | 0, size, h => by
      obtain rfl : size = 0 := by simpa using h
      exact Nat.zero_le limit
  | fuel + 1, size, h => by
      unfold halve
      split
      · exact halve_le (by rw [Nat.pow_succ] at h; omega)
      · omega

theorem alignUp_mod (size : Nat) : alignUp size % newfsAlign = 0 := Nat.mul_mod_left ..

theorem alignUp_of_mod {size : Nat} (h : size % newfsAlign = 0) : alignUp size = size := by
  unfold alignUp
  simp only [newfsAlign] at *
  omega

theorem areaSize_mod (nom min totalSize size : Nat) : areaSize nom min totalSize size % newfsAlign = 0 :=
  alignUp_mod _

theorem areaSize_pos {nom min : Nat} (hmin : 0 < min) (totalSize size : Nat) :
    0 < areaSize nom min totalSize size := by
  have hup : ∀ {n : Nat}, 0 < n → 0 < alignUp n := fun {n} h => by
    unfold alignUp
    simp only [newfsAlign]
    omega
  refine hup ?_
  split
  · dsimp only
    split <;> omega
  · split <;> omega

/-- One turn of the loop: the size is 8MB aligned, for every volume but the last one even 1GB. -/
theorem installVolumes_cons {opt : Options} {nvolumes : Nat} {dev : Device} {devs : List Device}
    {i resid total : Nat} {vols : List Volume} {total' : Nat}
    (h : installVolumes opt nvolumes (dev :: devs) i resid total = some (vols, total')) :
    ∃ size resid' vols', size % newfsAlign = 0 ∧ vols = ⟨i, total, size⟩ :: vols' ∧
      installVolumes opt nvolumes devs (i + 1) resid' ((total + size) % 2 ^ 64) = some (vols', total') := by
  unfold installVolumes at h
  split at h
  · cases h
  · rename_i size resid' _
    have hsize : (if i = nvolumes - 1 then size / newfsAlign * newfsAlign
        else size / freemapLevel1Size * freemapLevel1Size) % newfsAlign = 0 := by
      split
      · exact Nat.mul_mod_left ..
      · simp only [newfsAlign, freemapLevel1Size]
        omega
    dsimp only at h
    generalize (if i = nvolumes - 1 then size / newfsAlign * newfsAlign
      else size / freemapLevel1Size * freemapLevel1Size) = size' at h hsize
    split at h
    · cases h
    · obtain ⟨⟨vols', total''⟩, hrest, heq⟩ := Option.map_eq_some_iff.mp h
      obtain ⟨rfl, rfl⟩ := Prod.mk.inj heq
      exact ⟨size', resid', vols', hsize, rfl, hrest⟩

theorem installVolumes_total {opt : Options} {nvolumes : Nat} :
    ∀ {devs : List Device} {i resid total : Nat} {vols : List Volume} {total' : Nat},
    installVolumes opt nvolumes devs i resid total = some (vols, total') →
    total % newfsAlign = 0 → total < 2 ^ 64 → total' % newfsAlign = 0 ∧ total' < 2 ^ 64
  | [], i, resid, total, vols, total', h, hmod, hlt => by
      obtain ⟨-, rfl⟩ := Prod.mk.inj (Option.some.inj h)
      exact ⟨hmod, hlt⟩
  | dev :: devs, i, resid, total, vols, total', h, hmod, hlt => by
      obtain ⟨size, resid', vols', hsize, -, hrest⟩ := installVolumes_cons h
      refine installVolumes_total hrest ?_ (Nat.mod_lt _ (by decide))
      simp only [newfsAlign] at *
      omega

theorem installVolumes_ids {opt : Options} {nvolumes : Nat} :
    ∀ {devs : List Device} {i resid total : Nat} {vols : List Volume} {total' : Nat},
    installVolumes opt nvolumes devs i resid total = some (vols, total') →
    vols.map Volume.id = List.range' i devs.length
  | [], i, resid, total, vols, total', h => by
      obtain ⟨rfl, -⟩ := Prod.mk.inj (Option.some.inj h)
      rfl
  | dev :: devs, i, resid, total, vols, total', h => by
      obtain ⟨size, resid', vols', -, rfl, hrest⟩ := installVolumes_cons h
      rw [List.map_cons, List.length_cons, List.range'_succ, installVolumes_ids hrest]

theorem allocDirect_inode (base : Nat) : allocDirect base inodeBytes = some (base ||| 10, base + inodeBytes) := rfl

theorem allocLabels_spec {sroot : Nat} : ∀ {labels : List Label} {base base' : Nat},
    allocLabels sroot labels base = some base' → base' = base + inodeBytes * labels.length
  | [], base, base', h => (Option.some.inj h).symm
  | _ :: labels, base, base', h => by
      unfold allocLabels at h
      rw [allocDirect_inode] at h
      dsimp only at h
      split at h
      · rw [allocLabels_spec h, List.length_cons]
        simp only [inodeBytes]
        omega
      · cases h

/-- Where the allocator of the root volume begins. -/
theorem formatBase_root {opt : Options} {vol : Volume} {beg : Nat} (hid : vol.id = rootVolume)
    (h : formatBase opt vol = some beg) :
    zoneSeg + opt.bootAreaSize + opt.auxAreaSize < freemapLevel1Size ∧
      beg = zoneSeg + opt.bootAreaSize + opt.auxAreaSize + inodeBytes * (1 + opt.label.length) ∧
      (beg - 1) / pbufSize = (zoneSeg + opt.bootAreaSize + opt.auxAreaSize) / pbufSize := by
  rw [formatBase, if_pos hid] at h
  obtain ⟨allocBase, hmisc, hinode⟩ := Option.bind_eq_some_iff.mp h
  unfold formatMisc at hmisc
  dsimp only at hmisc
  split at hmisc
  · rename_i hbase
    obtain rfl := Option.some.inj hmisc
    generalize zoneSeg + opt.bootAreaSize + opt.auxAreaSize = allocBase at *
    unfold formatInode at hinode
    rw [Nat.div_mul_cancel (Nat.dvd_of_mod_eq_zero hbase.1), allocDirect_inode] at hinode
    dsimp only at hinode
    split at hinode
    · cases hinode
    · rename_i base hlabels
      split at hinode
      · rename_i hblock
        obtain rfl := Option.some.inj hinode
        have hsum := allocLabels_spec hlabels
        -- The radix is in the low bits of the data offset.
        have hlow : (allocBase ||| 10) / pbufSize = allocBase / pbufSize := by
          show (allocBase ||| 10) / 2 ^ 16 = allocBase / 2 ^ 16
          rw [← Nat.shiftRight_eq_div_pow, ← Nat.shiftRight_eq_div_pow, Nat.shiftRight_or_distrib]
          exact Nat.or_zero _
        refine ⟨hbase.2, ?_, hblock.symm.trans hlow⟩
        simp only [inodeBytes] at *
        omega
      · cases hinode
  · cases hmisc

/-- Without a wrap: a free size that is not negative is the total size less what is reserved. -/
theorem freeSize_spec {totalSize : Nat} {opt : Options} (hlt : totalSize < 2 ^ 64)
    (hareas : opt.bootAreaSize + opt.auxAreaSize < freemapLevel1Size)
    (hfree : ¬ (freeSize totalSize opt).toInt < 0) :
    let reserved := (totalSize + (freemapLevel1Size - 1)) / freemapLevel1Size * zoneSeg
    reserved + opt.bootAreaSize + opt.auxAreaSize ≤ totalSize ∧
      totalSize - reserved - opt.bootAreaSize - opt.auxAreaSize < 2 ^ 63 ∧
      freeSize totalSize opt =
        BitVec.ofNat 64 (totalSize - reserved - opt.bootAreaSize - opt.auxAreaSize) := by
  have hword : (freeSize totalSize opt).toNat < 2 ^ 63 := by
    rw [BitVec.toInt_eq_toNat_cond] at hfree
    split at hfree <;> omega
  have hsum : freeSize totalSize opt = BitVec.ofNat 64 totalSize -
      BitVec.ofNat 64 (reservedSize totalSize + opt.bootAreaSize + opt.auxAreaSize) := by
    unfold freeSize
    rw [BitVec.ofNat_add, BitVec.ofNat_add]
    ring
  have hle : reservedSize totalSize ≤ (totalSize + (freemapLevel1Size - 1)) / freemapLevel1Size * zoneSeg :=
    Nat.mul_le_mul_right _ (Nat.div_le_div_right (Nat.mod_le ..))
  have hbound : (totalSize + (freemapLevel1Size - 1)) / freemapLevel1Size * zoneSeg < 2 ^ 57 := by
    simp only [freemapLevel1Size, zoneSeg]
    omega
  have hsmall : reservedSize totalSize + opt.bootAreaSize + opt.auxAreaSize < 2 ^ 64 := by
    simp only [freemapLevel1Size] at *
    omega
  rw [hsum, BitVec.toNat_sub, BitVec.toNat_ofNat, BitVec.toNat_ofNat, Nat.mod_eq_of_lt hlt,
    Nat.mod_eq_of_lt hsmall] at hword
  have hroom : reservedSize totalSize + opt.bootAreaSize + opt.auxAreaSize ≤ totalSize := by
    simp only [freemapLevel1Size] at *
    omega
  -- Hence the sum that is rounded up does not wrap.
  have hwrap : reservedSize totalSize =
      (totalSize + (freemapLevel1Size - 1)) / freemapLevel1Size * zoneSeg := by
    unfold reservedSize
    simp only [freemapLevel1Size] at *
    rw [Nat.mod_eq_of_lt (by omega)]
  rw [hwrap] at hroom hsum hword hsmall
  refine ⟨hroom, by omega, ?_⟩
  rw [hsum, Nat.sub_sub, Nat.sub_sub, ← Nat.add_assoc]
  exact BitVec.ofNat_sub_ofNat_of_le _ _ hsmall hroom

theorem mapM_mem {α β : Type} {f : α → Option β} : ∀ {xs : List α} {ys : List β},
    xs.mapM f = some ys → ∀ y ∈ ys, ∃ x ∈ xs, f x = some y
  | [], ys, h => by
      obtain rfl := Option.some.inj h
      exact fun y hy => absurd hy List.not_mem_nil
  | x :: xs, ys, h => by
      rw [List.mapM_cons] at h
      obtain ⟨y, hy, h⟩ := Option.bind_eq_some_iff.mp h
      obtain ⟨ys', hys, h⟩ := Option.bind_eq_some_iff.mp h
      obtain rfl := Option.some.inj h
      intro z hz
      rcases List.mem_cons.mp hz with rfl | hz
      · exact ⟨x, List.mem_cons_self, hy⟩
      · obtain ⟨x', hx', hfx⟩ := mapM_mem hys z hz
        exact ⟨x', List.mem_cons_of_mem x hx', hfx⟩

/-- The device the kernel mounts: it reads the header of the root volume. -/
def device (fso : Ondisk) (root : VolumeData) : Dev := ⟨root.allocatorBeg, fso.totalSize⟩

/-- No leaf of the freemap exists yet. -/
def mounted (root : VolumeData) : Account.State where
  created := fun _ => false
  freemap := fun _ => reservedBmap
  allocatorFree := root.allocatorFree

/-- **The volumes of an accepted call** carry the accounts of a new filesystem. -/
theorem mkfs_newfs {devs : List Device} {opt : Options} {labelSpecified : Bool} {fso : Ondisk}
    {headers : List VolumeData} (hdevs : devs.length ≠ 0)
    (h : mkfs devs opt labelSpecified = some (fso, headers)) :
    ∃ root rest opt', headers = root :: rest ∧ newfs opt' = some (device fso root, mounted root) ∧
      (∀ hdr ∈ headers, hdr.allocatorSize = root.allocatorFree) ∧ 0 < fso.totalSize := by
  unfold mkfs at h
  split at h
  · cases h
  split at h
  · cases h
  rename_i volumes totalSize hinstall
  dsimp only at h
  split at h
  · cases h
  split at h
  · cases h
  rename_i hfree
  obtain ⟨headers', hformat, heq⟩ := Option.map_eq_some_iff.mp h
  obtain ⟨rfl, rfl⟩ := Prod.mk.inj heq
  obtain ⟨hmod, hlt⟩ := installVolumes_total hinstall rfl (by decide)
  have hids := installVolumes_ids hinstall
  have hboot : (adjustOptions totalSize opt labelSpecified).bootAreaSize % newfsAlign = 0 := areaSize_mod ..
  have haux : (adjustOptions totalSize opt labelSpecified).auxAreaSize % newfsAlign = 0 := areaSize_mod ..
  have hpos : 0 < (adjustOptions totalSize opt labelSpecified).bootAreaSize := areaSize_pos (by decide) ..
  generalize adjustOptions totalSize opt labelSpecified = opt' at *
  have hsizes : ∀ hdr ∈ headers', hdr.allocatorSize = freeSize totalSize opt' := fun hdr hmem => by
    obtain ⟨v, -, hv⟩ := mapM_mem hformat hdr hmem
    obtain ⟨_, _, rfl⟩ := Option.map_eq_some_iff.mp hv
    rfl
  obtain ⟨k, hk⟩ := Nat.exists_eq_succ_of_ne_zero hdevs
  rw [hk, List.range'_succ] at hids
  cases volumes with
  | nil => cases hids
  | cons vol volumes =>
      have hid : vol.id = rootVolume := (List.cons.inj hids).1
      rw [List.mapM_cons] at hformat
      obtain ⟨root, hroot, hformat⟩ := Option.bind_eq_some_iff.mp hformat
      obtain ⟨rest, -, hformat⟩ := Option.bind_eq_some_iff.mp hformat
      obtain rfl := Option.some.inj hformat
      obtain ⟨beg, hbase, hheader⟩ := Option.map_eq_some_iff.mp hroot
      have hbegin : root.allocatorBeg = beg := by
        rw [← hheader]
        exact if_pos (decide_eq_true hid)
      have hfirst : root.allocatorFree = freeSize totalSize opt' := by
        rw [← hheader]
        exact if_pos (decide_eq_true hid)
      obtain ⟨hareas, hbeg, hblock⟩ := formatBase_root hid hbase
      obtain ⟨hroom, hmax, hsize⟩ := @freeSize_spec totalSize opt' hlt (by omega) hfree
      refine ⟨root, rest, ⟨totalSize, opt'.bootAreaSize, opt'.auxAreaSize, opt'.label.length⟩, rfl, ?_, ?_, ?_⟩
      · unfold newfs
        dsimp only
        rw [Nat.div_mul_cancel (Nat.dvd_of_mod_eq_zero hmod), alignUp_of_mod hboot, alignUp_of_mod haux,
          if_neg (by omega), if_neg (by omega), if_neg (by omega), if_neg (by rw [← hbeg]; exact fun h => h hblock),
          device, mounted, hbegin, hfirst, hsize, hbeg]
      · exact fun hdr hmem => (hsizes hdr hmem).trans hfirst.symm
      · show 0 < totalSize
        omega

/-! ## The two figures -/

/-- The `avail` of one leaf as `hammer2_freemap_init` makes it. -/
def leafAvail (dev : Dev) (leaf : Nat) : Nat :=
  ∑ n ∈ range freemapCount, (freemapInit dev (leaf * freemapLevel1Size) n).avail.toNat

/-- The `avail` of the leaves that begin below the total size. -/
def kernelFree (dev : Dev) : Nat :=
  ∑ leaf ∈ range ((dev.totalSize + (freemapLevel1Size - 1)) / freemapLevel1Size), leafAvail dev leaf

/-- A leaf that begins past the total size is all reserved. -/
theorem freemapInit_past {dev : Dev} {key : Nat} (h : dev.totalSize ≤ key) (n : Nat) :
    freemapInit dev key n = reservedBmap := by
  have hdown := Nat.div_mul_le_self dev.totalSize segSize
  have hpast : key + freemapLevel1Size > dev.totalSize := Nat.lt_of_le_of_lt h (Nat.lt_add_of_pos_right (by decide))
  unfold freemapInit
  dsimp only
  rw [if_pos hpast]
  exact if_pos (Or.inr ((hdown.trans h).trans (Nat.le_add_right ..)))

theorem leafAvail_past {dev : Dev} {leaf : Nat} (h : dev.totalSize ≤ leaf * freemapLevel1Size) :
    leafAvail dev leaf = 0 :=
  Finset.sum_eq_zero fun n _ => congrArg (fun bm => bm.avail.toNat) (freemapInit_past h n)

theorem sum_range_mul (f : Nat → Nat) (k : Nat) : ∀ n : Nat,
    ∑ e ∈ range (n * k), f e = ∑ i ∈ range n, ∑ j ∈ range k, f (i * k + j)
  | 0 => by rw [Nat.zero_mul]; rfl
  | n + 1 => by rw [Nat.succ_mul, Finset.sum_range_add, Finset.sum_range_succ, sum_range_mul f k n]

/-- The sum over the leaves is the free space of the accounts before any leaf exists. -/
theorem kernelFree_eq {dev : Dev} {s : Account.State} (hnone : ∀ leaf, s.created leaf = false) :
    kernelFree dev = freeBytes dev s := by
  have hleaves : freeBytes dev s = ∑ leaf ∈ range (dev.totalSize / freemapLevel1Size + 1), leafAvail dev leaf := by
    unfold freeBytes entryCount
    rw [sum_range_mul]
    refine Finset.sum_congr rfl fun leaf _ => Finset.sum_congr rfl fun n hn => ?_
    have hlt := Finset.mem_range.mp hn
    have hleaf : leafOf (leaf * freemapCount + n) = leaf := by
      simp only [leafOf, freemapCount] at *
      omega
    have hpos : (leaf * freemapCount + n) % freemapCount = n := by
      simp only [freemapCount] at *
      omega
    rw [entry, hnone, if_neg Bool.false_ne_true, hleaf, hpos]
  rw [hleaves]
  unfold kernelFree
  by_cases hround : dev.totalSize % freemapLevel1Size = 0
  · -- The leaf at the total size is all reserved.
    have hcount : (dev.totalSize + (freemapLevel1Size - 1)) / freemapLevel1Size =
        dev.totalSize / freemapLevel1Size := by
      simp only [freemapLevel1Size] at *
      omega
    rw [hcount, Finset.sum_range_succ, leafAvail_past, Nat.add_zero]
    simp only [freemapLevel1Size] at *
    omega
  · have hcount : (dev.totalSize + (freemapLevel1Size - 1)) / freemapLevel1Size =
        dev.totalSize / freemapLevel1Size + 1 := by
      simp only [freemapLevel1Size] at *
      omega
    rw [hcount]

/-- A file of 1GB without any option: 956MB are written, the leaf has 952MB. -/
theorem segment_counted : ∃ fso root, newfsHammer2 (some 2) [] [⟨0, 0, 1073741824⟩] = some (fso, [root]) ∧
    root.allocatorFree.toNat = 1002438656 ∧ root.allocatorSize.toNat = 1002438656 ∧
    kernelFree (device fso root) = 998244352 :=
  ⟨_, _, rfl, by decide +kernel, by decide +kernel, by decide +kernel⟩

/-- **The free space of a new filesystem.**  For all options and volumes the call accepts,
`allocator_size` of every header and `allocator_free` are the `avail` of all leaves and the 4MB
segment of the first inodes.  In every run that follows `allocator_free` is that far above the
free blocks: it does not pass zero. -/
theorem newfsHammer2_free {supported : Option Int} {args : List Arg} {devs : List Device} {fso : Ondisk}
    {headers : List VolumeData} (h : newfsHammer2 supported args devs = some (fso, headers)) :
    ∃ root rest, headers = root :: rest ∧
      root.allocatorFree.toNat = kernelFree (device fso root) + zoneSeg ∧
      (∀ hdr ∈ headers, hdr.allocatorSize.toNat = kernelFree (device fso root) + zoneSeg) ∧
      ∀ events s, exec (Account.step (device fso root)) (mounted root) events = some s →
        s.allocatorFree.toNat = freemapBlockSize * freeBlocks (device fso root) s + zoneSeg := by
  unfold newfsHammer2 at h
  split at h
  · cases h
  split at h
  · cases h
  rename_i opt labelSpecified _ hcount
  obtain ⟨root, rest, opt', hheaders, hnew, hsizes, hpos⟩ := mkfs_newfs (by omega) h
  have hfree : root.allocatorFree.toNat = kernelFree (device fso root) + zoneSeg := by
    rw [@kernelFree_eq _ (mounted root) fun _ => rfl]
    rcases newfs_free hnew with hfree | ⟨hzero, -⟩
    · exact hfree
    · exact absurd hzero (Nat.ne_of_gt hpos)
  refine ⟨root, rest, hheaders, hfree, fun hdr hmem => by rw [hsizes hdr hmem, hfree], ?_⟩
  intro events s hrun
  have hstart : (mounted root).allocatorFree.toNat = zoneSeg + freeBytes (device fso root) (mounted root) := by
    rw [← @kernelFree_eq _ (mounted root) fun _ => rfl]
    exact hfree.trans (Nat.add_comm ..)
  obtain ⟨hbal, -⟩ := (newfs_fresh hnew).run hstart hrun
  rw [hbal.free, hbal.inv.freeBytes_eq]
  exact Nat.add_comm ..

/-- Two volumes, the second one without a full last zone, with a boot area of 8MB and no label but
`LOCAL`. -/
theorem newfsHammer2_free_two : ∃ fso root rest,
    newfsHammer2 (some 2) [.b 8388608, .L labelNone] [⟨0, 1, 2147483648⟩, ⟨0, 2, 1086324736⟩] =
      some (fso, root :: rest) ∧
    root.allocatorFree.toNat = kernelFree (device fso root) + zoneSeg ∧
    ∀ hdr ∈ root :: rest, hdr.allocatorSize.toNat = kernelFree (device fso root) + zoneSeg := by
  cases hrun : newfsHammer2 (some 2) [.b 8388608, .L labelNone] [⟨0, 1, 2147483648⟩, ⟨0, 2, 1086324736⟩] with
  | none => exact absurd hrun (by decide)
  | some out =>
      obtain ⟨fso, headers⟩ := out
      obtain ⟨root, rest, rfl, hfree, hsize, -⟩ := newfsHammer2_free hrun
      exact ⟨fso, root, rest, rfl, hfree, hsize⟩

end Hammer2.Newfs
