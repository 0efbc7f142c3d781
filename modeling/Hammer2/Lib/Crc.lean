/-
# `Hammer2.Lib.Crc` — reflected cyclic redundancy checks

The register moves down, and what falls out of it brings the polynomial in.

    shift     one place
    absorb    `k` places, with what comes in
    update    a byte
    feed      a bit
    pack      what comes in at several times, in one register

`shift` is linear in exclusive or.  So what comes in at several times may come in at once
(`absorb_pack`), and a byte of the register may be taken from a table (`shifts_byte`).  It is
injective when the top coefficient is there; then a burst of errors no longer than the register is
never missed (`crc_burst`).
-/
import Mathlib.Algebra.Group.Nat.Defs
import Mathlib.Data.List.Basic

namespace Crc

variable {w : Nat} (poly : BitVec w)

def shift (c : BitVec w) : BitVec w := if c.getLsbD 0 then (c >>> 1) ^^^ poly else c >>> 1

def shifts : Nat → BitVec w → BitVec w
  | 0, c => c
  | n + 1, c => shifts n (shift poly c)

def absorb (k : Nat) (c x : BitVec w) : BitVec w := shifts poly k (c ^^^ x)

def update (c : BitVec w) (b : UInt8) : BitVec w := absorb poly 8 c (b.toBitVec.setWidth w)

/-- `bs`, from the register `c` on. -/
def crc (c : BitVec w) (bs : List UInt8) : BitVec w := bs.foldl (update poly) c

def feed (c : BitVec w) (e : Bool) : BitVec w := absorb poly 1 c ((BitVec.ofBool e).setWidth w)

/-- The first is the lowest. -/
def pack (k : Nat) : List (BitVec w) → BitVec w
  | [] => 0#w
  | x :: xs => x ^^^ pack k xs <<< k

/-- The bits of a byte, the lowest first. -/
def byteBits (b : UInt8) : List Bool := (List.range 8).map b.toBitVec.getLsbD

def bits (bs : List UInt8) : List Bool := bs.flatMap byteBits

/-! ## Linearity -/

theorem xor_xor_cancel (a b p : BitVec w) : a ^^^ p ^^^ (b ^^^ p) = a ^^^ b := by
  rw [BitVec.xor_assoc, ← BitVec.xor_assoc p b p, BitVec.xor_comm p b, BitVec.xor_assoc b p p,
    BitVec.xor_self, BitVec.xor_zero]

theorem shift_xor (a b : BitVec w) : shift poly (a ^^^ b) = shift poly a ^^^ shift poly b := by
  unfold shift
  rw [BitVec.getLsbD_xor, BitVec.ushiftRight_xor_distrib]
  cases a.getLsbD 0 with
  | false =>
      cases b.getLsbD 0 with
      | false => rfl
      | true => exact BitVec.xor_assoc ..
  | true =>
      cases b.getLsbD 0 with
      | false =>
          show (a >>> 1 ^^^ b >>> 1) ^^^ poly = (a >>> 1 ^^^ poly) ^^^ b >>> 1
          rw [BitVec.xor_assoc, BitVec.xor_comm (b >>> 1), BitVec.xor_assoc]
      | true => exact (xor_xor_cancel ..).symm

theorem shift_zero : shift poly 0#w = 0#w := by
  have h := shift_xor poly 0#w 0#w
  rwa [BitVec.xor_self, BitVec.xor_self] at h

theorem shifts_xor (n : Nat) (a b : BitVec w) :
    shifts poly n (a ^^^ b) = shifts poly n a ^^^ shifts poly n b := by
  induction n generalizing a b with
  | zero => rfl
  | succ n ih => rw [shifts, shift_xor, ih, shifts, shifts]

theorem shifts_zero (n : Nat) : shifts poly n 0#w = 0#w := by
  induction n with
  | zero => rfl
  | succ n ih => rw [shifts, shift_zero, ih]

theorem shifts_add (m n : Nat) (c : BitVec w) :
    shifts poly (m + n) c = shifts poly n (shifts poly m c) := by
  induction m generalizing c with
  | zero => rw [Nat.zero_add, shifts]
  | succ m ih => rw [Nat.succ_add, shifts, ih, shifts]

/-- Nothing falls out of a register whose low bits are clear. -/
theorem shifts_clear (n : Nat) {c : BitVec w} (h : ∀ i < n, c.getLsbD i = false) :
    shifts poly n c = c >>> n := by
  induction n generalizing c with
  | zero => rw [shifts, BitVec.ushiftRight_zero]
  | succ n ih =>
      have hlow : c.getLsbD 0 = false := h 0 (Nat.succ_pos n)
      have hrest : ∀ i < n, (c >>> 1).getLsbD i = false := by
        intro i hi
        rw [BitVec.getLsbD_ushiftRight]
        exact h (1 + i) (by omega)
      have hshift : shift poly c = c >>> 1 := by
        rw [shift, hlow]
        rfl
      rw [shifts, hshift, ih hrest, ← BitVec.shiftRight_add, Nat.add_comm]

/-! ## Injectivity -/

theorem shift_eq_zero (hp : poly.msb = true) {c : BitVec w} (h : shift poly c = 0#w) : c = 0#w := by
  cases hlow : c.getLsbD 0 with
  | true =>
      rw [shift, if_pos hlow, BitVec.xor_eq_zero_iff] at h
      have htop : (c >>> 1).msb = false := by
        rw [BitVec.msb_ushiftRight]
        rfl
      rw [h, hp] at htop
      cases htop
  | false =>
      rw [shift, hlow] at h
      apply BitVec.eq_of_getLsbD_eq
      intro i _
      rw [BitVec.getLsbD_zero]
      cases i with
      | zero => exact hlow
      | succ i =>
          have hi := congrArg (BitVec.getLsbD · i) h
          simpa [BitVec.getLsbD_ushiftRight, Nat.add_comm] using hi

theorem shifts_eq_zero (hp : poly.msb = true) {n : Nat} {c : BitVec w}
    (h : shifts poly n c = 0#w) : c = 0#w := by
  induction n generalizing c with
  | zero => exact h
  | succ n ih => exact shift_eq_zero poly hp (ih h)

theorem shifts_inj (hp : poly.msb = true) {n : Nat} {a b : BitVec w}
    (h : shifts poly n a = shifts poly n b) : a = b := by
  have hzero : shifts poly n (a ^^^ b) = 0#w := by
    rw [shifts_xor, h, BitVec.xor_self]
  exact BitVec.xor_eq_zero_iff.mp (shifts_eq_zero poly hp hzero)

theorem foldl_feed_inj (hp : poly.msb = true) {es : List Bool} {a b : BitVec w}
    (h : es.foldl (feed poly) a = es.foldl (feed poly) b) : a = b := by
  induction es generalizing a b with
  | nil => exact h
  | cons e es ih => exact (BitVec.xor_left_inj _).mp (shifts_inj poly hp (ih h))

/-! ## Several at once -/

/-- Only the low `k` bits are used. -/
def Small (k : Nat) (x : BitVec w) : Prop := ∀ i, k ≤ i → x.getLsbD i = false

theorem pack_small {k : Nat} {xs : List (BitVec w)} (h : ∀ x ∈ xs, Small k x) :
    Small (k * xs.length) (pack k xs) := by
  induction xs with
  | nil => exact fun _ _ => BitVec.getLsbD_zero
  | cons x xs ih =>
      intro i hi
      rw [List.length_cons, Nat.mul_succ] at hi
      have hx : x.getLsbD i = false := h x List.mem_cons_self i (by omega)
      have hxs : (pack k xs).getLsbD (i - k) = false :=
        ih (fun y hy => h y (List.mem_cons_of_mem _ hy)) (i - k) (by omega)
      rw [pack, BitVec.getLsbD_xor, BitVec.getLsbD_shiftLeft, hx, hxs]
      simp

/-- What is moved up comes down again. -/
theorem shifts_shiftLeft {k n : Nat} (h : k + n ≤ w) {x : BitVec w} (hx : Small n x) :
    shifts poly k (x <<< k) = x := by
  rw [shifts_clear poly k fun i hi => by
    rw [BitVec.getLsbD_shiftLeft, decide_eq_true hi]
    simp]
  apply BitVec.eq_of_getLsbD_eq
  intro i _
  rw [BitVec.getLsbD_ushiftRight, BitVec.getLsbD_shiftLeft]
  by_cases hi : i < n
  · have hw : k + i < w := by omega
    simp [hw]
  · rw [hx i (Nat.not_lt.mp hi)]
    simp [hx i (Nat.not_lt.mp hi)]

theorem absorb_pack {k : Nat} {xs : List (BitVec w)} (h : ∀ x ∈ xs, Small k x)
    (hw : k * xs.length ≤ w) (c : BitVec w) :
    xs.foldl (absorb poly k) c = absorb poly (k * xs.length) c (pack k xs) := by
  induction xs generalizing c with
  | nil => exact (BitVec.xor_zero).symm
  | cons x xs ih =>
      rw [List.length_cons, Nat.mul_succ] at hw
      have hxs : ∀ y ∈ xs, Small k y := fun y hy => h y (List.mem_cons_of_mem _ hy)
      have hup := shifts_shiftLeft poly (Nat.add_comm _ k ▸ hw) (pack_small hxs)
      rw [List.foldl_cons, ih hxs (by omega), List.length_cons, Nat.mul_succ, Nat.add_comm]
      have hin : shifts poly k (c ^^^ x ^^^ pack k xs <<< k) =
          shifts poly k (c ^^^ x) ^^^ pack k xs := by
        rw [shifts_xor, hup]
      unfold absorb
      rw [shifts_add, pack, ← BitVec.xor_assoc, hin]

theorem setWidth_append {m n : Nat} (w : Nat) (x : BitVec m) (y : BitVec n) :
    (x ++ y).setWidth w = y.setWidth w ^^^ x.setWidth w <<< n := by
  apply BitVec.eq_of_getLsbD_eq
  intro i hi
  rw [BitVec.getLsbD_setWidth, BitVec.getLsbD_append, BitVec.getLsbD_xor, BitVec.getLsbD_setWidth,
    BitVec.getLsbD_shiftLeft, BitVec.getLsbD_setWidth, decide_eq_true hi,
    decide_eq_true (Nat.lt_of_le_of_lt (Nat.sub_le i n) hi)]
  by_cases hn : i < n
  · simp [hn]
  · rw [BitVec.getLsbD_of_ge y i (Nat.not_lt.mp hn)]
    simp [hn]

/-! ## Bits -/

theorem getLsbD_pack_bits (es : List Bool) (hw : es.length ≤ w) (i : Nat) :
    (pack 1 (es.map fun e => (BitVec.ofBool e).setWidth w)).getLsbD i = es.getD i false := by
  induction es generalizing i with
  | nil => exact BitVec.getLsbD_zero
  | cons e es ih =>
      rw [List.length_cons] at hw
      rw [List.map_cons, pack, BitVec.getLsbD_xor, BitVec.getLsbD_shiftLeft,
        BitVec.getLsbD_setWidth, BitVec.getLsbD_ofBool]
      cases i with
      | zero => simp; omega
      | succ i =>
          rw [Nat.add_sub_cancel, ih (Nat.le_of_succ_le hw)]
          by_cases hi : i < es.length
          · simp
            omega
          · simp [hi]

theorem foldl_feed (es : List Bool) (hw : es.length ≤ w) (c : BitVec w) :
    es.foldl (feed poly) c =
      absorb poly es.length c (pack 1 (es.map fun e => (BitVec.ofBool e).setWidth w)) := by
  have hsmall : ∀ x ∈ es.map fun e => (BitVec.ofBool e).setWidth w, Small 1 x := by
    intro x hx i hi
    obtain ⟨e, -, rfl⟩ := List.mem_map.mp hx
    rw [BitVec.getLsbD_setWidth, BitVec.getLsbD_ofBool]
    simp [Nat.ne_of_gt hi]
  have h := absorb_pack poly hsmall (by simpa using hw) c
  rw [List.foldl_map, List.length_map, Nat.one_mul] at h
  exact h

theorem update_eq_feed (hw : 8 ≤ w) (c : BitVec w) (b : UInt8) :
    update poly c b = (byteBits b).foldl (feed poly) c := by
  have hlen : (byteBits b).length = 8 := by simp [byteBits]
  have hpack : pack 1 ((byteBits b).map fun e => (BitVec.ofBool e).setWidth w) =
      b.toBitVec.setWidth w := by
    apply BitVec.eq_of_getLsbD_eq
    intro i hi
    rw [getLsbD_pack_bits _ (hlen ▸ hw), BitVec.getLsbD_setWidth, decide_eq_true hi, Bool.true_and]
    by_cases h8 : i < 8
    · simp [byteBits, h8]
    · rw [BitVec.getLsbD_of_ge _ _ (Nat.not_lt.mp h8)]
      simp [byteBits, h8]
  rw [foldl_feed poly _ (hlen ▸ hw), hlen, hpack, update]

theorem crc_eq_feed (hw : 8 ≤ w) (bs : List UInt8) (c : BitVec w) :
    crc poly c bs = (bits bs).foldl (feed poly) c := by
  induction bs generalizing c with
  | nil => rfl
  | cons b bs ih =>
      rw [bits, List.flatMap_cons, List.foldl_append, ← update_eq_feed poly hw]
      exact ih _

/-- **Bursts.**  Inputs that differ, but within `w` bits in a row only, leave different
registers. -/
theorem crc_burst (hp : poly.msb = true) (hw : 8 ≤ w) (c : BitVec w) {as bs : List UInt8}
    {p x y q : List Bool} (ha : bits as = p ++ x ++ q) (hb : bits bs = p ++ y ++ q)
    (hlen : x.length = y.length) (hburst : x.length ≤ w) (hne : x ≠ y) :
    crc poly c as ≠ crc poly c bs := by
  intro h
  rw [crc_eq_feed poly hw, crc_eq_feed poly hw, ha, hb, List.foldl_append, List.foldl_append,
    List.foldl_append, List.foldl_append] at h
  have hmid := foldl_feed_inj poly hp h
  rw [foldl_feed poly x hburst, foldl_feed poly y (hlen ▸ hburst), hlen] at hmid
  have hpack := (BitVec.xor_right_inj _).mp (shifts_inj poly hp hmid)
  apply hne
  apply List.ext_getElem hlen
  intro i hx hy
  have hbit := congrArg (BitVec.getLsbD · i) hpack
  simpa [getLsbD_pack_bits _ hburst, getLsbD_pack_bits _ (hlen ▸ hburst), hx, hy] using hbit

/-! ## Tables -/

theorem getLsbD_low_byte (i : Nat) : (255#w).getLsbD i = (decide (i < w) && decide (i < 8)) := by
  rw [BitVec.getLsbD_ofNat, show 255 = 2 ^ 8 - 1 from rfl, Nat.testBit_two_pow_sub_one]

/-- The low byte of the register falls out first. -/
theorem shifts_byte (n : Nat) (c : BitVec w) :
    shifts poly (8 + n) c = shifts poly (8 + n) (c &&& 255#w) ^^^ shifts poly n (c >>> 8) := by
  have hsplit : c = (c &&& 255#w) ^^^ (c &&& ~~~255#w) := by
    apply BitVec.eq_of_getLsbD_eq
    intro i hi
    rw [BitVec.getLsbD_xor, BitVec.getLsbD_and, BitVec.getLsbD_and, BitVec.getLsbD_not,
      decide_eq_true hi]
    cases c.getLsbD i <;> cases (255#w).getLsbD i <;> rfl
  have hclear : shifts poly 8 (c &&& ~~~255#w) = c >>> 8 := by
    rw [shifts_clear poly 8 fun i hi => by
      rw [BitVec.getLsbD_and, BitVec.getLsbD_not, getLsbD_low_byte, decide_eq_true hi]
      cases decide (i < w) <;> simp]
    apply BitVec.eq_of_getLsbD_eq
    intro i _
    rw [BitVec.getLsbD_ushiftRight, BitVec.getLsbD_ushiftRight, BitVec.getLsbD_and,
      BitVec.getLsbD_not, getLsbD_low_byte]
    by_cases hi : 8 + i < w
    · simp [hi]
    · simp [BitVec.getLsbD_of_ge c (8 + i) (Nat.not_lt.mp hi)]
  conv_lhs => rw [hsplit]
  rw [shifts_xor, shifts_add poly 8 n (c &&& ~~~255#w), hclear]

/-- All the sums of some registers, as a binary number counts; the first one is its highest
digit. -/
def span : List (BitVec w) → List (BitVec w)
  | [] => [0#w]
  | b :: bs => span bs ++ (span bs).map (b ^^^ ·)

/-- A table needs no more than its powers of two. -/
theorem span_shifts (n : Nat) (bs : List (BitVec w)) :
    span (bs.map (shifts poly n)) = (span bs).map (shifts poly n) := by
  induction bs with
  | nil => exact congrArg (· :: []) (shifts_zero poly n).symm
  | cons b bs ih =>
      rw [List.map_cons, span, ih, span, List.map_append, List.map_map, List.map_map]
      exact congrArg _ (List.map_congr_left fun x _ => (shifts_xor poly n b x).symm)

/-- A byte from a table of all the bytes. -/
theorem update_table (c : BitVec w) (b : UInt8) :
    update poly c b =
      shifts poly 8 ((c ^^^ b.toBitVec.setWidth w) &&& 255#w) ^^^ (c >>> 8) := by
  have hb : b.toBitVec.setWidth w >>> 8 = 0#w := by
    apply BitVec.eq_of_getLsbD_eq
    intro i _
    rw [BitVec.getLsbD_ushiftRight, BitVec.getLsbD_setWidth, BitVec.getLsbD_of_ge _ _ (by omega)]
    simp
  have h := shifts_byte poly 0 (c ^^^ b.toBitVec.setWidth w)
  rw [shifts, BitVec.ushiftRight_xor_distrib, hb, BitVec.xor_zero] at h
  exact h

end Crc
