/-
# `Hammer2.Libkern.Icrc32` — `iscsi_crc32`, by eight tables

    crc32cSb864Bit      up to four bytes one by one, then eight at once, then the rest
    multitableCrc32c    how many come first depends on the address of the buffer
    iscsiCrc32          from a register of ones, and inverted
    iscsiCrc32Ext       on from an earlier checksum

A buffer is its bytes; a byte that is read beyond them is `none`.  A length is cut to 32 bits.

    iscsiCrc32_eq       it is the checksum that the boot reader computes bit by bit
    iscsiCrc32_burst    a burst of 32 bits is never missed
-/
import Hammer2.Libkern.Tables
import Hammer2.Boot.Again

namespace Hammer2.Libkern

open Crc

def byteAt (tab : List (BitVec 32)) (x : BitVec 32) : BitVec 32 := tab.getD (x &&& 255#32).toNat 0#32

/-- The loops that take a byte at a time. -/
def byteLoop (tab : List (BitVec 32)) : Nat → BitVec 32 → List UInt8 →
    Option (BitVec 32 × List UInt8)
  | 0, crc, p => some (crc, p)
  | _ + 1, _, [] => none
  | n + 1, crc, b :: p => byteLoop tab n (byteAt tab (crc ^^^ b.toBitVec.setWidth 32) ^^^ crc >>> 8) p

/-- `*(const uint32_t *)p_buf`, on a little-endian machine. -/
def load32 (b0 b1 b2 b3 : UInt8) : BitVec 32 :=
  b3.toBitVec ++ b2.toBitVec ++ b1.toBitVec ++ b0.toBitVec

/-- The loop that takes eight bytes at a time. -/
def sliceLoop : Nat → BitVec 32 → List UInt8 → Option (BitVec 32 × List UInt8)
  | 0, crc, p => some (crc, p)
  | n + 1, crc, b0 :: b1 :: b2 :: b3 :: b4 :: b5 :: b6 :: b7 :: p =>
      let crc := crc ^^^ load32 b0 b1 b2 b3
      let term1 := byteAt sctpCrcTableil8O88 crc ^^^ byteAt sctpCrcTableil8O80 (crc >>> 8)
      let term2 := crc >>> 16
      let crc := term1 ^^^ byteAt sctpCrcTableil8O72 term2 ^^^ byteAt sctpCrcTableil8O64 (term2 >>> 8)
      let next := load32 b4 b5 b6 b7
      let term1 := byteAt sctpCrcTableil8O56 next ^^^ byteAt sctpCrcTableil8O48 (next >>> 8)
      let term2 := next >>> 16
      sliceLoop n (crc ^^^ term1 ^^^ byteAt sctpCrcTableil8O40 term2 ^^^
        byteAt sctpCrcTableil8O32 (term2 >>> 8)) p
  | _ + 1, _, _ => none

/-- `crc32c_sb8_64_bit` -/
def crc32cSb864Bit (crc : BitVec 32) (buf : List UInt8) (length initBytes : Nat) : Option (BitVec 32) :=
  let rest := (length + 2 ^ 32 - initBytes) % 2 ^ 32
  let runningLength := rest / 8 * 8
  let endBytes := rest - runningLength
  (byteLoop sctpCrcTableil8O32 initBytes crc buf).bind fun (crc, p) =>
    (sliceLoop (runningLength / 8) crc p).bind fun (crc, p) =>
      (byteLoop sctpCrcTableil8O32 endBytes crc p).map Prod.fst

/-- `singletable_crc32c` -/
def singletableCrc32c (crc : BitVec 32) (buf : List UInt8) (size : Nat) : Option (BitVec 32) :=
  (byteLoop crc32Table size crc buf).map Prod.fst

/-- `multitable_crc32c`, of a buffer at `addr`. -/
def multitableCrc32c (addr : Nat) (crc32c : BitVec 32) (buffer : List UInt8) (length : Nat) :
    Option (BitVec 32) :=
  if length = 0 then some crc32c
  else
    let toEvenWord := 4 - (addr &&& 3)
    crc32cSb864Bit crc32c buffer length toEvenWord

/-- `calculate_crc32c` -/
def calculateCrc32c (addr : Nat) (crc32c : BitVec 32) (buffer : List UInt8) (length : Nat) :
    Option (BitVec 32) :=
  if length < 4 then singletableCrc32c crc32c buffer length
  else multitableCrc32c addr crc32c buffer length

/-- `iscsi_crc32` of `size` bytes; `calculate_crc32c` takes an `unsigned int`. -/
def iscsiCrc32 (addr : Nat) (buf : List UInt8) (size : Nat) : Option (BitVec 32) :=
  (calculateCrc32c addr (-1#32) buf (size % 2 ^ 32)).map (~~~ ·)

/-- `iscsi_crc32_ext` -/
def iscsiCrc32Ext (addr : Nat) (buf : List UInt8) (size : Nat) (ocrc : BitVec 32) : Option (BitVec 32) :=
  (calculateCrc32c addr (~~~ ocrc) buf (size % 2 ^ 32)).map (~~~ ·)

/-! ## The loops -/

theorem byteAt_slice {k : Nat} (hk : k < 8) (x : BitVec 32) :
    byteAt (slices.getD k []) x = shifts castagnoli (8 * (k + 1)) (x &&& 255#32) :=
  getD_slice hk x

theorem byteLoop_spec (n : Nat) (c : BitVec 32) (p : List UInt8) (h : n ≤ p.length) :
    byteLoop sctpCrcTableil8O32 n c p = some (crc castagnoli c (p.take n), p.drop n) := by
  induction n generalizing c p with
  | zero => rfl
  | succ n ih =>
      cases p with
      | nil => cases h
      | cons b p =>
          have hb : byteAt sctpCrcTableil8O32 (c ^^^ b.toBitVec.setWidth 32) ^^^ c >>> 8 =
              update castagnoli c b := by
            rw [update_table]
            exact congrArg (· ^^^ c >>> 8) (byteAt_slice (k := 0) (by decide) _)
          rw [byteLoop, hb, ih _ _ (Nat.le_of_succ_le_succ h)]
          rfl

/-- Little-endian loads come in as bytes do. -/
theorem load32_eq (b0 b1 b2 b3 : UInt8) :
    load32 b0 b1 b2 b3 = pack 8 ([b0, b1, b2, b3].map fun b => b.toBitVec.setWidth 32) := by
  have hwide : load32 b0 b1 b2 b3 = (load32 b0 b1 b2 b3).setWidth 32 := (BitVec.setWidth_eq _).symm
  rw [hwide, load32, setWidth_append, setWidth_append, setWidth_append]
  simp only [List.map_cons, List.map_nil, pack, BitVec.zero_shiftLeft, BitVec.xor_zero]

/-- Four bytes at once. -/
theorem crc_load32 (c : BitVec 32) (b0 b1 b2 b3 : UInt8) :
    crc castagnoli c [b0, b1, b2, b3] = shifts castagnoli 32 (c ^^^ load32 b0 b1 b2 b3) := by
  have hsmall : ∀ x ∈ [b0, b1, b2, b3].map fun b => b.toBitVec.setWidth 32, Small 8 x := by
    intro x hx i hi
    obtain ⟨b, -, rfl⟩ := List.mem_map.mp hx
    rw [BitVec.getLsbD_setWidth, BitVec.getLsbD_of_ge _ _ hi, Bool.and_false]
  have h := absorb_pack castagnoli hsmall (Nat.le_refl 32) c
  rw [List.foldl_map] at h
  rw [load32_eq]
  exact h

/-- The table `k` takes a byte of the register `k + 1` bytes down. -/
theorem shifts_slice {k : Nat} (hk : k < 8) (x : BitVec 32) :
    shifts castagnoli (8 * (k + 1)) x =
      byteAt (slices.getD k []) x ^^^ shifts castagnoli (8 * k) (x >>> 8) := by
  have h := shifts_byte castagnoli (8 * k) x
  rw [Nat.add_comm 8, ← Nat.mul_succ] at h
  rw [byteAt_slice hk]
  exact h

/-- A register that goes down `k + 4` bytes takes four tables. -/
theorem shifts_slices {k : Nat} (hk : k + 3 < 8) (x : BitVec 32) :
    shifts castagnoli (8 * (k + 4)) x =
      byteAt (slices.getD (k + 3) []) x ^^^ (byteAt (slices.getD (k + 2) []) (x >>> 8) ^^^
        (byteAt (slices.getD (k + 1) []) (x >>> 16) ^^^
          byteAt (slices.getD k []) (x >>> 16 >>> 8))) := by
  have htwo : x >>> 8 >>> 8 = x >>> 16 := (BitVec.shiftRight_add x 8 8).symm
  have hend : x >>> 16 >>> 8 >>> 8 = 0#32 := by
    rw [← BitVec.shiftRight_add, ← BitVec.shiftRight_add]
    exact BitVec.ushiftRight_eq_zero (by decide)
  rw [shifts_slice hk, shifts_slice (by omega : k + 2 < 8), htwo,
    shifts_slice (by omega : k + 1 < 8), shifts_slice (by omega : k < 8), hend, shifts_zero,
    BitVec.xor_zero]

/-- Eight bytes at once. -/
theorem crc_eight (c : BitVec 32) (b0 b1 b2 b3 b4 b5 b6 b7 : UInt8) :
    crc castagnoli c [b0, b1, b2, b3, b4, b5, b6, b7] =
      shifts castagnoli 64 (c ^^^ load32 b0 b1 b2 b3) ^^^
        shifts castagnoli 32 (load32 b4 b5 b6 b7) := by
  have happ : crc castagnoli c [b0, b1, b2, b3, b4, b5, b6, b7] =
      crc castagnoli (crc castagnoli c [b0, b1, b2, b3]) [b4, b5, b6, b7] := rfl
  rw [happ, crc_load32, crc_load32, shifts_xor, ← shifts_add]

theorem sliceLoop_spec (n : Nat) (c : BitVec 32) (p : List UInt8) (h : 8 * n ≤ p.length) :
    sliceLoop n c p = some (crc castagnoli c (p.take (8 * n)), p.drop (8 * n)) := by
  induction n generalizing c p with
  | zero => rfl
  | succ n ih =>
      match p, h with
      | b0 :: b1 :: b2 :: b3 :: b4 :: b5 :: b6 :: b7 :: p, h =>
          have hlen : 8 * n ≤ p.length := by
            simp only [List.length_cons] at h
            omega
          have hfirst := @shifts_slices 4 (by decide) (c ^^^ load32 b0 b1 b2 b3)
          have hsecond := @shifts_slices 0 (by decide) (load32 b4 b5 b6 b7)
          have hval := crc_eight c b0 b1 b2 b3 b4 b5 b6 b7
          rw [hfirst, hsecond] at hval
          simp only [← BitVec.xor_assoc] at hval
          rw [sliceLoop, ih _ _ hlen]
          simp only [← BitVec.xor_assoc]
          exact congrArg (fun d => some (crc castagnoli d (p.take (8 * n)), p.drop (8 * n))) hval.symm

/-! ## The whole -/

theorem crc_append (c : BitVec 32) (as bs : List UInt8) :
    crc castagnoli c (as ++ bs) = crc castagnoli (crc castagnoli c as) bs := List.foldl_append

theorem crc32cSb864Bit_spec (c : BitVec 32) {buf : List UInt8} {length initBytes : Nat}
    (hlen : length ≤ buf.length) (hinit : initBytes ≤ length) (hsmall : length < 2 ^ 32) :
    crc32cSb864Bit c buf length initBytes = some (crc castagnoli c (buf.take length)) := by
  have hrest : (length + 2 ^ 32 - initBytes) % 2 ^ 32 = length - initBytes := by omega
  obtain ⟨r, hr⟩ : ∃ r, r = length - initBytes := ⟨_, rfl⟩
  have hsplit : buf.take length = buf.take initBytes ++
      ((buf.drop initBytes).take (8 * (r / 8)) ++
        ((buf.drop initBytes).drop (8 * (r / 8))).take (r - r / 8 * 8)) := by
    have hsum : length = initBytes + (8 * (r / 8) + (r - r / 8 * 8)) := by omega
    rw [← List.take_add, ← List.take_add, ← hsum]
  rw [crc32cSb864Bit, hrest, ← hr]
  simp only
  rw [byteLoop_spec _ _ _ (by omega), Option.bind_some, Nat.mul_div_cancel _ (by decide),
    sliceLoop_spec _ _ _ (by rw [List.length_drop]; omega), Option.bind_some,
    byteLoop_spec _ _ _ (by rw [List.length_drop, List.length_drop]; omega), Option.map_some,
    hsplit, crc_append, crc_append]

theorem calculateCrc32c_spec (addr : Nat) (c : BitVec 32) {buffer : List UInt8} {length : Nat}
    (hlen : length ≤ buffer.length) (hsmall : length < 2 ^ 32) :
    calculateCrc32c addr c buffer length = some (crc castagnoli c (buffer.take length)) := by
  unfold calculateCrc32c
  split
  · rw [singletableCrc32c, crc32Table_eq, byteLoop_spec _ _ _ hlen]
    rfl
  · have haddr : 4 - (addr &&& 3) ≤ length := by omega
    rw [multitableCrc32c, if_neg (by omega)]
    exact crc32cSb864Bit_spec c hlen haddr hsmall

theorem crcBit_eq (c : BitVec 32) : Boot.crcBit c = shift castagnoli c := by
  rw [Boot.crcBit, shift, BitVec.and_one_eq_setWidth_ofBool_getLsbD]
  cases c.getLsbD 0 with
  | true =>
      show c >>> 1 ^^^ (castagnoli &&& _) = c >>> 1 ^^^ castagnoli
      exact congrArg _ (by decide)
  | false =>
      show c >>> 1 ^^^ (castagnoli &&& _) = c >>> 1
      rw [show castagnoli &&& _ = 0#32 from by decide, BitVec.xor_zero]

theorem h2Icrc32_eq (buf : List UInt8) : Boot.h2Icrc32 buf = ~~~ crc castagnoli (-1#32) buf := by
  have hbyte : Boot.crcByte = update castagnoli := by
    funext c b
    have hstep : Boot.crcBit = shift castagnoli := funext crcBit_eq
    rw [Boot.crcByte, hstep]
    rfl
  have hones : (0xFFFFFFFF#32 : BitVec 32) = BitVec.allOnes 32 := by decide
  rw [Boot.h2Icrc32, hbyte, hones, BitVec.xor_allOnes]
  rfl

theorem iscsiCrc32_spec (addr : Nat) (buf : List UInt8) : iscsiCrc32 addr buf buf.length =
    some (~~~ crc castagnoli (-1#32) (buf.take (buf.length % 2 ^ 32))) := by
  have hlt : buf.length % 2 ^ 32 < 2 ^ 32 := Nat.mod_lt _ (by decide)
  rw [iscsiCrc32, calculateCrc32c_spec addr _ (Nat.mod_le _ _) hlt, Option.map_some]

theorem iscsiCrc32Ext_spec (addr : Nat) {buf : List UInt8} (h : buf.length < 2 ^ 32)
    (ocrc : BitVec 32) : iscsiCrc32Ext addr buf buf.length ocrc =
      some (~~~ crc castagnoli (~~~ ocrc) buf) := by
  rw [iscsiCrc32Ext, Nat.mod_eq_of_lt h, calculateCrc32c_spec addr _ (Nat.le_refl _) h,
    List.take_length, Option.map_some]

/-- **By tables and bit by bit.**  Wherever the buffer lies, no byte outside it is read, and the
checksum is the one that the boot reader computes. -/
theorem iscsiCrc32_eq (addr : Nat) (buf : List UInt8) : iscsiCrc32 addr buf buf.length =
    some (Boot.h2Icrc32 (buf.take (buf.length % 2 ^ 32))) := by
  rw [iscsiCrc32_spec, h2Icrc32_eq]

/-- The register after some pieces. -/
theorem foldlM_ext (pieces : List (Nat × List UInt8))
    (h : ∀ p ∈ pieces, p.2.length < 2 ^ 32) (ocrc : BitVec 32) :
    pieces.foldlM (fun crc p => iscsiCrc32Ext p.1 p.2 p.2.length crc) ocrc =
      some (~~~ crc castagnoli (~~~ ocrc) (pieces.flatMap Prod.snd)) := by
  induction pieces generalizing ocrc with
  | nil => exact congrArg some BitVec.not_not.symm
  | cons p pieces ih =>
      have hp := iscsiCrc32Ext_spec p.1 (h p List.mem_cons_self) ocrc
      rw [List.foldlM_cons, hp, List.flatMap_cons, crc_append]
      have hrest := ih (fun q hq => h q (List.mem_cons_of_mem _ hq))
        (~~~ crc castagnoli (~~~ ocrc) p.2)
      rw [BitVec.not_not] at hrest
      exact hrest

/-- **In pieces.**  However a buffer is cut, and wherever the pieces lie, `iscsi_crc32_ext` over
them one after the other is `iscsi_crc32` of the whole. -/
theorem iscsiCrc32_pieces (addr : Nat) (pieces : List (Nat × List UInt8))
    (h : (pieces.flatMap Prod.snd).length < 2 ^ 32) :
    pieces.foldlM (fun crc p => iscsiCrc32Ext p.1 p.2 p.2.length crc) 0#32 =
      iscsiCrc32 addr (pieces.flatMap Prod.snd) (pieces.flatMap Prod.snd).length := by
  have hpiece : ∀ p ∈ pieces, p.2.length < 2 ^ 32 := by
    intro p hp
    have hle := (List.sublist_flatten_of_mem (List.mem_map_of_mem (f := Prod.snd) hp)).length_le
    exact Nat.lt_of_le_of_lt hle h
  rw [foldlM_ext pieces hpiece, iscsiCrc32_spec, Nat.mod_eq_of_lt h, List.take_length]
  rfl

theorem iscsiCrc32_pieces_split :
    [(0, [0x31, 0x32]), (7, [0x33, 0x34, 0x35])].foldlM
      (fun crc (p : Nat × List UInt8) => iscsiCrc32Ext p.1 p.2 p.2.length crc) 0#32 =
      iscsiCrc32 1 [0x31, 0x32, 0x33, 0x34, 0x35] 5 :=
  iscsiCrc32_pieces 1 [(0, [0x31, 0x32]), (7, [0x33, 0x34, 0x35])] (by decide)

/-- **Bursts.**  Two blocks that differ, but only within 32 bits in a row, never have the same
checksum. -/
theorem iscsiCrc32_burst (addr addr' : Nat) {as bs : List UInt8} {p x y q : List Bool}
    (ha : bits as = p ++ x ++ q) (hb : bits bs = p ++ y ++ q) (hlen : x.length = y.length)
    (hburst : x.length ≤ 32) (hne : x ≠ y) (hsize : as.length < 2 ^ 32)
    (hsize' : bs.length < 2 ^ 32) :
    iscsiCrc32 addr as as.length ≠ iscsiCrc32 addr' bs bs.length := by
  rw [iscsiCrc32_spec, iscsiCrc32_spec, Nat.mod_eq_of_lt hsize, Nat.mod_eq_of_lt hsize',
    List.take_length, List.take_length]
  intro h
  have hcrc := BitVec.not_inj.mp (Option.some.inj h)
  exact crc_burst castagnoli (by decide) (by decide) _ ha hb hlen hburst hne hcrc

/-- The last bit of one byte and the first bits of the next. -/
theorem iscsiCrc32_burst_two : iscsiCrc32 0 [0x80, 0x01] 2 ≠ iscsiCrc32 3 [0x00, 0x02] 2 :=
  @iscsiCrc32_burst 0 3 [0x80, 0x01] [0x00, 0x02] (List.replicate 7 false)
    [true, true, false] [false, false, true] (List.replicate 6 false) (by decide) (by decide) rfl (by decide) (by decide) (by decide) (by decide)

end Hammer2.Libkern
