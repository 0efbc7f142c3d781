/-
# `Hammer2.Recover.Media` — what `hammer2 recover` reads

    InodeEntry       an inode that the media pass has found
    Recovery         what a run is given
    readBlock        a block that a blockref leads to, when its check code is right
    checkFilename    `check_filename`
    cacheRead        `hammer2_cache_read`

A use of a byte outside of its buffer is a panic.
-/
import Hammer2.Fsck.Verify
import Hammer2.File.Decompress
import Hammer2.Lib.Fuel

namespace Hammer2.Fsck.Blockref

def keybits (b : Blockref) : Nat := (b.raw.getD 3 0).toNat
def key (b : Blockref) : Nat := Bytes.decode ((b.raw.drop 8).take 8)

/-- `embed.dirent` -/
def inum (b : Blockref) : Nat := Bytes.decode ((b.raw.drop 0x30).take 8)
def namlen (b : Blockref) : Nat := Bytes.decode ((b.raw.drop 0x38).take 2)
def direntType (b : Blockref) : UInt8 := b.raw.getD 0x3A 0

/-- `HAMMER2_DEC_COMP(methods)` -/
def decComp (b : Blockref) : UInt8 := b.methods &&& 15

end Hammer2.Fsck.Blockref

namespace Hammer2.Recover

open Fuel
open Fsck (Volume Blockref Checks getVolume pbufsize)
open File.Decompress (Lz4Safe Inflate)

abbrev Path := List UInt8

/-- `'/'` -/
def slash : UInt8 := 47

def objtypeDirectory : UInt8 := 1
def objtypeRegfile : UInt8 := 2
def objtypeSoftlink : UInt8 := 7

/-- `HAMMER2_SET_COUNT` -/
def setCount : Nat := 4

/-- What the calls make, in files and in bytes. -/
inductive Event
  | mkdir (path : Path)
  | link (iscan : Nat) (path : Path)
  | openFile (iscan : Nat) (path : Path)
  | write (bytes : List UInt8)
  | pwrite (off : Nat) (bytes : List UInt8)
  | rename (path : Path)
deriving DecidableEq

/-- What a call finds may depend on all that was done before, the latest event first; the second
`link()` is the one after the flags are cleared.  `stack` is what a `hammer2_media_data_t` holds
before anything is read. -/
structure Host where
  mkdir : List Event → Path → Bool
  link : List Event → Bool → Path → Path → Bool
  stack : List Event → Nat → UInt8

/-- `inode_entry_t`, without what a run changes. -/
structure InodeEntry where
  dataOff : Nat
  inum : Nat
  inodeCrc : Nat
  type : UInt8

/-- What a run is given: the volumes, the functions it calls, the command line, and the entries
of `InodeHash`, chain after chain. -/
structure Recovery where
  fso : List Volume
  checks : Checks
  lz4 : Lz4Safe
  zlib : Inflate
  host : Host
  strictMode : Bool
  isafile : Bool
  pathname : Path
  destdir : Path
  inodes : List InodeEntry

/-- The bytes from `off` on are used, of a buffer of `size` bytes. -/
def access {α : Type} (off len size : Nat) (k : Res α) : Res α :=
  if off + len ≤ size then k else .panic

/-! ## Blockrefs -/

/-- `data_off & 0x1F` -/
def radix (off : Nat) : Nat := off % 32

/-- `1 << radix` is an `int`. -/
def psize (off : Nat) : Nat := if radix off = 31 then 2 ^ 64 - 2 ^ 31 else 2 ^ radix off

/-- `(data_off - vol->offset) & ~0x1FL` -/
def poff (vol : Volume) (off : Nat) : Nat := (off - vol.offset) / 32 * 32

/-- `npdata[]` of a block, or the blockset of an inode. -/
def blockrefs (block : List UInt8) : List Blockref :=
  (List.range (block.length / 128)).map fun k => ⟨(block.drop (128 * k)).take 128⟩

namespace Inode

/-- `sizeof(hammer2_inode_data_t)` -/
def bytes : Nat := 1024

def directdata (ino : List UInt8) : Bool := ino.getD 0x51 0 &&& 1 != 0
def size (ino : List UInt8) : Nat := Bytes.decode ((ino.drop 0x60).take 8)

/-- `u.data` -/
def data (ino : List UInt8) : List UInt8 := (ino.drop 0x200).take 0x200

/-- `u.blockset` -/
def blockset (ino : List UInt8) : List Blockref := blockrefs ((ino.drop 0x200).take (setCount * 128))

end Inode

section Code

variable (m : Recovery)

/-- `validate_crc` -/
def validateCrc (b : Blockref) (block : List UInt8) : Bool :=
  if b.decCheck = 0 ∨ b.decCheck = 1 then !m.strictMode
  else if 5 < b.decCheck then false
  else (Fsck.checkBlock m.checks b block).isNone

/-- `hammer2_get_volume`, `pread` and `validate_crc`; the block has at most the size of the
buffer it is read into. -/
def block (b : Blockref) : Option (List UInt8) :=
  match getVolume m.fso b.dataOff with
  | none => none
  | some vol =>
      match vol.read (poff vol b.dataOff) (psize b.dataOff) with
      | none => none
      | some data =>
          let block := (List.range (psize b.dataOff)).map data
          if validateCrc m b block then some block else none

def readBlock (b : Blockref) : Res (Option (List UInt8)) :=
  access 0 (psize b.dataOff) pbufsize (.done (block m b))

/-! ## Names -/

/-- `check_filename`; the name is what is left in `buf`. -/
def checkFilename (b : Blockref) (filename : Option Path) (flen : Nat) : Res (Option Path) :=
  if 1024 < flen then .done none
  else if flen ≤ 64 then
    access 0 flen 64 <| access 0 (flen + 1) 1025 <|
      match filename with
      | none => .done (some (b.check flen))
      | some name => access 0 flen (name.length + 1) <|
          .done (if name.take flen = b.check flen then some (b.check flen) else none)
  else if radix b.dataOff = 0 ∨ 10 < radix b.dataOff then .done none
  else if psize b.dataOff < flen then .done none
  else if m.strictMode ∧ (b.decCheck = 0 ∨ b.decCheck = 1) then .done none
  else
    (readBlock m b).bind fun block =>
      match block with
      | none => .done none
      | some block =>
          access 0 flen block.length <| access 0 (flen + 1) 1025 <|
            match filename with
            | none => .done (some (block.take flen))
            | some name => access 0 flen (name.length + 1) <|
                .done (if name.take flen = block.take flen then some (block.take flen) else none)

/-! ## The path -/

/-- A string ends at its first NUL, or where the list ends. -/
def atEnd (remain : Path) : Bool := remain.headD 0 = 0

/-- `while (*remain == '/') ++remain;` -/
def skipSlashes (remain : Path) : Path := remain.dropWhile (· = slash)

/-- The length of the next component. -/
def flen (remain : Path) : Nat := (remain.takeWhile fun c => c ≠ 0 ∧ c ≠ slash).length

/-- `"%s/%s"` -/
def join (dest name : Path) : Path := dest ++ slash :: name.takeWhile (· ≠ 0)

/-- The name that the entry gives to the next component of the path, if it matches it. -/
def matchEntry (remain : Path) (b : Blockref) : Res (Option Path) :=
  if flen remain = 0 then checkFilename m b none (b.namlen)
  else if flen remain = b.namlen then checkFilename m b (some remain) (flen remain)
  else .done none

end Code

/-! ## The cache of the blocks with inodes -/

/-- `sdccache_t`; the volume is given by its place. -/
structure Sdc where
  vol : Option Nat
  offset : Nat
  last : Nat
  buf : Nat → UInt8

/-- `SDCCOUNT` -/
def sdcCount : Nat := 16

/-- `SDCCache` and `SDCLast` -/
structure Cache where
  sdc : Nat → Sdc
  last : Nat

def Cache.init : Cache := ⟨fun _ => ⟨none, 0, 0, fun _ => 0⟩, 0⟩

def Cache.set (c : Cache) (i : Nat) (x : Sdc) : Cache :=
  ⟨fun k => if k = i then x else c.sdc k, c.last + 1⟩

def Cache.find (c : Cache) (vol pbase : Nat) : Option Nat :=
  (List.range sdcCount).find? fun i => decide ((c.sdc i).vol = some vol ∧ (c.sdc i).offset = pbase)

/-- `sdc_worst`, the first one with the least `last`. -/
def Cache.worst (c : Cache) : Nat :=
  (List.range sdcCount).foldl (fun w i => if (c.sdc i).last < (c.sdc w).last then i else w) 0

/-- The place of `hammer2_get_volume`. -/
def volumeAt (fso : List Volume) (off : Nat) : Option Nat :=
  fso.findIdx? fun vol =>
    decide (vol.offset ≤ off / 64 * 64 ∧ off / 64 * 64 < vol.offset + vol.size)

/-- `hammer2_cache_read`: `*bytesp`, and the buffer with the place in it. -/
def cacheRead (fso : List Volume) (c : Cache) (off : Nat) :
    (Nat × Option ((Nat → UInt8) × Nat)) × Cache :=
  match volumeAt fso off with
  | none => ((0, none), c)
  | some v =>
      match fso[v]? with
      | none => ((0, none), c)
      | some vol =>
          let poff := poff vol off
          let bytes := psize off
          let pbase := poff / pbufsize * pbufsize
          if poff / pbufsize ≠ (poff + bytes - 1) % 2 ^ 64 / pbufsize then ((0, none), c)
          else if poff % bytes ≠ 0 then ((0, none), c)
          else match c.find v pbase with
            | some i =>
                ((bytes, some ((c.sdc i).buf, poff - pbase)),
                  c.set i { c.sdc i with last := c.last + 1 })
            | none =>
                match vol.read pbase pbufsize with
                | none =>
                    ((bytes, none), c.set c.worst
                      { c.sdc c.worst with vol := some v, offset := 2 ^ 64 - 1, last := 0 })
                | some data =>
                    ((bytes, some (data, poff - pbase)),
                      c.set c.worst ⟨some v, pbase, c.last + 1, data⟩)

/-- The buffers hold what is on the volumes. -/
def Cache.Sound (fso : List Volume) (c : Cache) : Prop :=
  ∀ i v, (c.sdc i).vol = some v → (c.sdc i).offset ≠ 2 ^ 64 - 1 →
    ∃ vol, fso[v]? = some vol ∧ vol.read (c.sdc i).offset pbufsize = some (c.sdc i).buf

theorem Cache.sound_init (fso : List Volume) : Cache.init.Sound fso := nofun

theorem Cache.Sound.set {fso : List Volume} {c : Cache} (h : c.Sound fso) {i : Nat} {x : Sdc}
    (hx : ∀ v, x.vol = some v → x.offset ≠ 2 ^ 64 - 1 →
      ∃ vol, fso[v]? = some vol ∧ vol.read x.offset pbufsize = some x.buf) :
    (c.set i x).Sound fso := by
  intro k v hv hoff
  by_cases hk : k = i
  · simp only [Cache.set, if_pos hk] at hv hoff ⊢
    exact hx v hv hoff
  · simp only [Cache.set, if_neg hk] at hv hoff ⊢
    exact h k v hv hoff

/-- Nothing is found in an empty cache. -/
theorem Cache.find_init (vol pbase : Nat) : Cache.init.find vol pbase = none := by
  refine List.find?_eq_none.mpr fun i _ h => ?_
  obtain ⟨hvol, -⟩ := of_decide_eq_true h
  cases hvol

theorem Cache.of_find {c : Cache} {vol pbase i : Nat} (h : c.find vol pbase = some i) :
    (c.sdc i).vol = some vol ∧ (c.sdc i).offset = pbase := by
  have hsome := List.find?_some h
  exact of_decide_eq_true hsome

/-- **What is read does not depend on the cache.** -/
theorem cacheRead_spec {fso : List Volume} {c : Cache} (h : c.Sound fso) (off : Nat) :
    ∃ c', c'.Sound fso ∧ cacheRead fso c off = ((cacheRead fso .init off).1, c') := by
  unfold cacheRead
  cases hat : volumeAt fso off with
  | none => exact ⟨c, h, rfl⟩
  | some v =>
      dsimp only
      cases hvol : fso[v]? with
      | none => exact ⟨c, h, rfl⟩
      | some vol =>
          dsimp only
          split
          · exact ⟨c, h, rfl⟩
          split
          · exact ⟨c, h, rfl⟩
          rw [Cache.find_init]
          generalize hpbase : poff vol off / pbufsize * pbufsize = pbase
          have hne : pbase ≠ 2 ^ 64 - 1 := by
            rw [Fsck.pbufsize] at hpbase
            omega
          cases hfind : c.find v pbase with
          | none =>
              cases hread : vol.read pbase pbufsize with
              | none => exact ⟨_, h.set fun _ _ hoff => absurd rfl hoff, rfl⟩
              | some data =>
                  refine ⟨_, h.set fun v' hv' _ => ?_, rfl⟩
                  cases hv'
                  exact ⟨vol, hvol, hread⟩
          | some i =>
              obtain ⟨hv, hoff⟩ := Cache.of_find hfind
              obtain ⟨vol', hvol', hread⟩ := h i v hv (hoff ▸ hne)
              cases hvol.symm.trans hvol'
              rw [hoff] at hread
              rw [hread]
              exact ⟨c.set i { c.sdc i with last := c.last + 1 }, h.set (h i), rfl⟩

/-- An inode lies in the buffer of the block it is in. -/
theorem cacheRead_fits {fso : List Volume} {c : Cache} {off bytes o : Nat} {buf : Nat → UInt8}
    (h : (cacheRead fso c off).1 = (bytes, some (buf, o))) (hbytes : bytes = Inode.bytes) :
    o + Inode.bytes ≤ pbufsize := by
  have hfits : ∀ {poff bytes : Nat}, poff % bytes = 0 → bytes = 1024 →
      poff - poff / 65536 * 65536 + 1024 ≤ 65536 := by
    intro poff bytes hmod hb
    subst hb
    omega
  unfold cacheRead at h
  cases hat : volumeAt fso off with
  | none => rw [hat] at h; cases h
  | some v =>
      simp only [hat] at h
      cases hvol : fso[v]? with
      | none => rw [hvol] at h; cases h
      | some vol =>
          simp only [hvol] at h
          split at h
          · cases h
          split at h
          · cases h
          next halign =>
          rw [not_not] at halign
          split at h
          · cases h
            exact hfits halign hbytes
          · split at h
            · cases h
            · cases h
              exact hfits halign hbytes

end Hammer2.Recover
