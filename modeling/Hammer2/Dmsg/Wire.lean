/-
# `Hammer2.Dmsg.Wire` — messages and their bytes

A message on the wire is its core header, the rest of its extended header, and its
auxiliary data padded to a multiple of the alignment.  The core header is written in the
byte order of the sender, which its magic number shows; the rest are bytes.

    Head          the core header
    Msg           a message as the sender queues it, and as the receiver delivers it
    bswapHead     `dmsg_bswap_head`
    wire          the bytes of a message, `rev` when the sender has the other byte order
-/
import Hammer2.Lib.Bytes

namespace Hammer2.Dmsg

/-- `DMSG_HDR_MAGIC` -/
abbrev hdrMagic : BitVec 16 := 0x4832#16

/-- `DMSG_HDR_MAGIC_REV` -/
abbrev hdrMagicRev : BitVec 16 := 0x3248#16

/-- `DMSG_ALIGN`, also the size of the core header. -/
abbrev align : Nat := 64

/-- `DMSG_HDR_MAX`, also the size of `union dmsg_any`. -/
abbrev hdrMax : Nat := 2048

/-- `DMSG_AUX_MAX` -/
abbrev auxMax : Nat := 65536

/-- `DMSG_BUF_SIZE` -/
abbrev bufSize : Nat := 8192

/-- `DMSG_DOALIGN` of a `size_t`. -/
def doAlign (bytes : Nat) : Nat := (bytes + 63) / align * align

/-- `struct dmsg_hdr` -/
structure Head where
  magic : BitVec 16
  reserved02 : BitVec 16
  salt : BitVec 32
  msgid : BitVec 64
  circuit : BitVec 64
  linkVerifier : BitVec 64
  cmd : BitVec 32
  auxCrc : BitVec 32
  auxBytes : BitVec 32
  error : BitVec 32
  auxDescr : BitVec 64
  reserved38 : BitVec 32
  hdrCrc : BitVec 32
deriving DecidableEq

/-- `(cmd & DMSGF_SIZE) * DMSG_ALIGN` -/
def hdrSize (cmd : BitVec 32) : Nat := (cmd &&& 0xFF#32).toNat * align

abbrev bswap16 : BitVec 16 → BitVec 16 := Bytes.swap 2

abbrev bswap32 : BitVec 32 → BitVec 32 := Bytes.swap 4

abbrev bswap64 : BitVec 64 → BitVec 64 := Bytes.swap 8

/-- `dmsg_bswap_head` -/
def bswapHead (h : Head) : Head where
  magic := bswap16 h.magic
  reserved02 := bswap16 h.reserved02
  salt := bswap32 h.salt
  msgid := bswap64 h.msgid
  circuit := bswap64 h.circuit
  linkVerifier := bswap64 h.linkVerifier
  cmd := bswap32 h.cmd
  auxCrc := bswap32 h.auxCrc
  auxBytes := bswap32 h.auxBytes
  error := bswap32 h.error
  auxDescr := bswap64 h.auxDescr
  reserved38 := bswap32 h.reserved38
  hdrCrc := bswap32 h.hdrCrc

/-- The core header in memory, on a machine with the byte order of the receiver. -/
def Head.bytes (h : Head) : List UInt8 :=
  Bytes.encode 2 h.magic.toNat ++ Bytes.encode 2 h.reserved02.toNat ++
  Bytes.encode 4 h.salt.toNat ++ Bytes.encode 8 h.msgid.toNat ++
  Bytes.encode 8 h.circuit.toNat ++ Bytes.encode 8 h.linkVerifier.toNat ++
  Bytes.encode 4 h.cmd.toNat ++ Bytes.encode 4 h.auxCrc.toNat ++
  Bytes.encode 4 h.auxBytes.toNat ++ Bytes.encode 4 h.error.toNat ++
  Bytes.encode 8 h.auxDescr.toNat ++ Bytes.encode 4 h.reserved38.toNat ++
  Bytes.encode 4 h.hdrCrc.toNat

/-- The field of `n` bytes at an offset. -/
def field (n : Nat) (bs : List UInt8) (off : Nat) : BitVec (8 * n) :=
  BitVec.ofNat _ (Bytes.decode ((bs.drop off).take n))

/-- The bytes of a core header read as one. -/
def Head.ofBytes (bs : List UInt8) : Head where
  magic := field 2 bs 0x00
  reserved02 := field 2 bs 0x02
  salt := field 4 bs 0x04
  msgid := field 8 bs 0x08
  circuit := field 8 bs 0x10
  linkVerifier := field 8 bs 0x18
  cmd := field 4 bs 0x20
  auxCrc := field 4 bs 0x24
  auxBytes := field 4 bs 0x28
  error := field 4 bs 0x2C
  auxDescr := field 8 bs 0x30
  reserved38 := field 4 bs 0x38
  hdrCrc := field 4 bs 0x3C

/-- A message: `ext` is its header past the core header, `aux` the buffer of its auxiliary
data, of which `auxSize` bytes count. -/
structure Msg where
  head : Head
  ext : List UInt8
  auxSize : Nat
  aux : List UInt8
deriving DecidableEq

/-- A header as the sender has it in memory. -/
def headBytes (rev : Bool) (h : Head) : List UInt8 :=
  if rev then (bswapHead h).bytes else h.bytes

/-- The message as it is written. -/
def wire (rev : Bool) (m : Msg) : List UInt8 := headBytes rev m.head ++ m.ext ++ m.aux

/-! ## Reading back -/

@[simp] theorem Head.length_bytes (h : Head) : h.bytes.length = 64 := by
  simp [Head.bytes]

@[simp] theorem length_headBytes (rev : Bool) (h : Head) : (headBytes rev h).length = 64 := by
  unfold headBytes
  split <;> exact Head.length_bytes _

theorem field_encode {n : Nat} (v : BitVec (8 * n)) (rest : List UInt8) :
    field n (Bytes.encode n v.toNat ++ rest) 0 = v := by
  refine BitVec.eq_of_toNat_eq ?_
  rw [field, List.drop_zero, List.take_left' (Bytes.length_encode ..), BitVec.toNat_ofNat,
    Bytes.decode_encode (Bytes.toNat_lt n v), Nat.mod_eq_of_lt v.isLt]

theorem field_skip {n m k x : Nat} {rest : List UInt8} (hk : m ≤ k) :
    field n (Bytes.encode m x ++ rest) k = field n rest (k - m) := by
  have hnil : (Bytes.encode m x).drop k = [] :=
    List.drop_eq_nil_of_le (by rw [Bytes.length_encode]; exact hk)
  rw [field, field, List.drop_append, hnil, List.nil_append, Bytes.length_encode]

theorem Head.ofBytes_bytes (h : Head) (rest : List UInt8) : Head.ofBytes (h.bytes ++ rest) = h := by
  simp [Head.ofBytes, Head.bytes, List.append_assoc, field_skip, field_encode]

@[simp] theorem bswapHead_bswapHead (h : Head) : bswapHead (bswapHead h) = h := by
  simp [bswapHead]

end Hammer2.Dmsg
