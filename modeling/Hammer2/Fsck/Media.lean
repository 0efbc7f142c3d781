/-
# `Hammer2.Fsck.Media` — blocks as `fsck_hammer2` reads them

    Volume       a volume and the device it is on
    Blockref     the 128 bytes of a blockref
    readMedia    `read_media` of `test.c`

A buffer is what `read()` has put there: a use of any other byte of it is `none`.
-/
import Mathlib.Order.Nat
import Hammer2.Lib.Bytes

namespace Hammer2.Fsck

abbrev pbufsize : Nat := 65536
abbrev lbufsize : Nat := 16384

/-- `fails` are the reads, by position and length, that end in an error of the device. -/
structure Volume where
  offset : Nat
  size : Nat
  devSize : Nat
  data : Nat → UInt8
  fails : Nat → Nat → Bool

/-- `fso.volumes[]`, up to `fso.nvolumes`. -/
abbrev Ondisk := List Volume

/-- `read()` of `n` bytes; a short read counts as a failed one. -/
def Volume.read (vol : Volume) (pos n : Nat) : Option (Nat → UInt8) :=
  if vol.fails pos n then none
  else if pos + n ≤ vol.devSize then some fun i => vol.data (pos + i)
  else none

/-- `hammer2_get_volume` -/
def getVolume (fso : Ondisk) (offset : Nat) : Option Volume :=
  fso.find? fun vol =>
    decide (vol.offset ≤ offset / 64 * 64 ∧ offset / 64 * 64 < vol.offset + vol.size)

/-- `hammer2_get_volume_offset`; outside of all volumes it is `(hammer2_off_t)-1`. -/
def getVolumeOffset (fso : Ondisk) (offset : Nat) : Nat :=
  match getVolume fso offset with
  | some vol => vol.offset
  | none => 2 ^ 64 - 1

/-! ## Blockrefs -/

structure Blockref where
  raw : List UInt8
deriving DecidableEq

namespace Blockref

def type (b : Blockref) : UInt8 := b.raw.getD 0 0
def methods (b : Blockref) : UInt8 := b.raw.getD 1 0
def dataOff (b : Blockref) : Nat := Bytes.decode ((b.raw.drop 32).take 8)

/-- The first `n` bytes of `check`. -/
def check (b : Blockref) (n : Nat) : List UInt8 := (b.raw.drop 64).take n

/-- `data_off & HAMMER2_OFF_MASK_RADIX` -/
def radix (b : Blockref) : Nat := b.dataOff % 64

/-- The size of the block. -/
def bytes (b : Blockref) : Nat := if b.radix = 0 then 0 else 2 ^ b.radix

def ioOff (b : Blockref) : Nat := b.dataOff / 64 * 64
def ioBase (b : Blockref) : Nat := b.ioOff / lbufsize * lbufsize
def boff (b : Blockref) : Nat := b.ioOff - b.ioBase

end Blockref

/-- `while (io_bytes + boff < bytes) io_bytes <<= 1;` -/
def growIo (bytes boff : Nat) : Nat → Nat → Nat
  | 0, ioBytes => ioBytes
  | k + 1, ioBytes => if ioBytes + boff < bytes then growIo bytes boff k (2 * ioBytes) else ioBytes

/-- The loop ends at 2^63 at the latest. -/
def Blockref.ioBytes (b : Blockref) : Nat := growIo b.bytes b.boff 50 lbufsize

/-! ## `read_media` -/

/-- The part of `hammer2_media_data_t` that holds what was read. -/
structure Buf where
  len : Nat
  byte : Nat → UInt8

/-- -1 and -2. -/
inductive ReadErr
  | ioBytes
  | read
deriving DecidableEq

def readAt (fso : Ondisk) (b : Blockref) : Option (Nat → UInt8) := do
  let vol ← getVolume fso b.ioOff
  let pos := (b.ioBase + 2 ^ 64 - getVolumeOffset fso b.ioBase) % 2 ^ 64
  if pos < 2 ^ 63 then vol.read pos b.ioBytes else none

/-- A blockref without a block reads nothing.  The `memmove()` takes `bytes` bytes from `boff`
on, of which the loop has only asked for `bytes - boff`. -/
def readMedia (fso : Ondisk) (b : Blockref) : Option (Except ReadErr (Option Buf)) :=
  if b.bytes = 0 then some (.ok none)
  else if pbufsize < b.ioBytes then some (.error .ioBytes)
  else match readAt fso b with
    | none => some (.error .read)
    | some data =>
        if b.boff + b.bytes ≤ b.ioBytes then
          some (.ok (some ⟨b.ioBytes, fun i => if i < b.bytes then data (b.boff + i) else data i⟩))
        else none

/-- The first `n` bytes of a buffer. -/
def Buf.bytes (buf : Buf) (n : Nat) : List UInt8 := (List.range n).map buf.byte

def Buf.blockref (buf : Buf) (i : Nat) : Blockref := ⟨(List.range 128).map fun k => buf.byte (i + k)⟩

/-- `n` blockrefs in a row. -/
def Buf.blockrefs (buf : Buf) (i n : Nat) : Option (List Blockref) :=
  if i + 128 * n ≤ buf.len then some ((List.range n).map fun k => buf.blockref (i + 128 * k))
  else none

/-! ## What is read -/

theorem growIo_le {bytes boff : Nat} : ∀ k ioBytes, ioBytes ≤ growIo bytes boff k ioBytes
  | 0, _ => le_rfl
  | k + 1, ioBytes => by
      rw [growIo]
      split
      · exact Nat.le_trans (Nat.le_mul_of_pos_left ioBytes Nat.two_pos) (growIo_le k _)
      · exact le_rfl

theorem Blockref.lbufsize_le_ioBytes (b : Blockref) : lbufsize ≤ b.ioBytes := growIo_le 50 _

theorem Blockref.ioBase_le (b : Blockref) : b.ioBase ≤ b.ioOff := Nat.div_mul_le_self _ _

theorem Blockref.ioBase_add_boff (b : Blockref) : b.ioBase + b.boff = b.ioOff :=
  Nat.add_sub_of_le b.ioBase_le

theorem growIo_ge {bytes boff : Nat} : ∀ k ioBytes, bytes ≤ 2 ^ k * ioBytes →
    bytes ≤ growIo bytes boff k ioBytes + boff
  | 0, ioBytes, h => by
      rw [Nat.pow_zero, Nat.one_mul] at h
      exact Nat.le_add_right_of_le h
  | k + 1, ioBytes, h => by
      rw [growIo]
      split
      · refine growIo_ge k _ ?_
        rwa [← Nat.mul_assoc, ← Nat.pow_succ]
      · next hle => exact Nat.le_of_not_lt hle

theorem Blockref.radix_lt (b : Blockref) : b.radix < 64 := Nat.mod_lt _ (by decide)

theorem Blockref.bytes_le (b : Blockref) : b.bytes ≤ 2 ^ 50 * lbufsize := by
  unfold Blockref.bytes
  split
  · exact Nat.zero_le _
  · exact Nat.le_trans (Nat.pow_le_pow_right Nat.two_pos b.radix_lt.le) (by decide)

/-- A block at a multiple of its own size is read whole. -/
theorem Blockref.fits_of_aligned {b : Blockref} (h : b.bytes ∣ b.ioOff) :
    b.boff + b.bytes ≤ b.ioBytes := by
  have hboff : b.boff = b.ioOff % lbufsize := by
    have h₁ := Nat.div_add_mod b.ioOff lbufsize
    have h₂ := b.ioBase_add_boff
    rw [Blockref.ioBase, Nat.mul_comm] at h₂
    exact Nat.add_left_cancel (h₂.trans h₁.symm)
  have hlt : b.boff < lbufsize := hboff ▸ Nat.mod_lt _ (by decide)
  rcases Nat.eq_zero_or_pos b.radix with hr | hr
  · have h0 : b.bytes = 0 := by rw [Blockref.bytes, if_pos hr]
    rw [h0]
    exact hlt.le.trans b.lbufsize_le_ioBytes
  have hbytes : b.bytes = 2 ^ b.radix := by rw [Blockref.bytes, if_neg hr.ne']
  rcases Nat.lt_or_ge b.radix 14 with hsmall | hbig
  · -- such a block ends in the 16KB that it begins in
    have hdvd : b.bytes ∣ lbufsize := hbytes ▸ Nat.pow_dvd_pow 2 hsmall.le
    have hb : b.bytes ∣ b.boff := hboff ▸ (Nat.dvd_mod_iff hdvd).mpr h
    obtain ⟨m, hm⟩ := hdvd
    obtain ⟨k, hk⟩ := hb
    have hkm : k < m := by
      refine Nat.lt_of_mul_lt_mul_left (a := b.bytes) ?_
      rwa [← hk, ← hm]
    calc b.boff + b.bytes = b.bytes * (k + 1) := by rw [hk, Nat.mul_succ]
      _ ≤ b.bytes * m := Nat.mul_le_mul_left _ hkm
      _ = lbufsize := hm.symm
      _ ≤ b.ioBytes := b.lbufsize_le_ioBytes
  · have hdvd : lbufsize ∣ b.ioOff := Nat.dvd_trans (hbytes ▸ Nat.pow_dvd_pow 2 hbig) h
    have h0 : b.boff = 0 := by rw [hboff, Nat.mod_eq_zero_of_dvd hdvd]
    have hge := @growIo_ge b.bytes b.boff 50 lbufsize b.bytes_le
    rw [h0, Nat.zero_add]
    rw [h0] at hge
    rw [Blockref.ioBytes, h0]
    exact hge

end Hammer2.Fsck
