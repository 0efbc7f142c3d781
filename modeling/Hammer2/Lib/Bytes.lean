/-
# `Hammer2.Lib.Bytes` — numbers as bytes

    encode n v   the `n` bytes of `v`, lowest first
    decode bs    the number a list of bytes stands for
    swap w v     a word of `8 * w` bits with its bytes in the opposite order
-/
import Mathlib.Algebra.Group.Nat.Defs
import Mathlib.Data.List.Basic
import Mathlib.Data.Nat.Basic

namespace Bytes

def encode : Nat → Nat → List UInt8
  | 0, _ => []
  | n + 1, v => UInt8.ofNat v :: encode n (v / 256)

def decode : List UInt8 → Nat
  | [] => 0
  | b :: bs => b.toNat + 256 * decode bs

@[simp] theorem length_encode : ∀ n v, (encode n v).length = n
  | 0, _ => rfl
  | n + 1, v => congrArg (· + 1) (length_encode n (v / 256))

theorem decode_lt : ∀ bs : List UInt8, decode bs < 256 ^ bs.length
  | [] => by decide
  | b :: bs => by
      have hb := b.toNat_lt
      have ih := decode_lt bs
      rw [decode, List.length_cons, Nat.pow_succ]
      omega

theorem decode_encode : ∀ {n v : Nat}, v < 256 ^ n → decode (encode n v) = v
  | 0, v, h => by
      rw [Nat.pow_zero] at h
      exact (Nat.lt_one_iff.mp h).symm
  | n + 1, v, h => by
      have ih : decode (encode n (v / 256)) = v / 256 := by
        refine decode_encode (Nat.div_lt_of_lt_mul ?_)
        rwa [Nat.pow_succ, Nat.mul_comm] at h
      rw [encode, decode, ih, UInt8.toNat_ofNat']
      exact Nat.mod_add_div v 256

theorem encode_decode : ∀ bs : List UInt8, encode bs.length (decode bs) = bs
  | [] => rfl
  | b :: bs => by
      have hb := b.toNat_lt
      have hdiv : (b.toNat + 256 * decode bs) / 256 = decode bs := by omega
      have hmod : UInt8.ofNat (b.toNat + 256 * decode bs) = b := by
        refine UInt8.toNat_inj.mp ?_
        rw [UInt8.toNat_ofNat']
        omega
      rw [List.length_cons, decode, encode, hdiv, hmod, encode_decode bs]

/-- The word with its `w` bytes in the opposite order. -/
def swap (w : Nat) (v : BitVec (8 * w)) : BitVec (8 * w) :=
  BitVec.ofNat _ (decode (encode w v.toNat).reverse)

theorem pow_eight_mul (w : Nat) : 2 ^ (8 * w) = 256 ^ w := by
  rw [Nat.pow_mul]

theorem toNat_lt (w : Nat) (v : BitVec (8 * w)) : v.toNat < 256 ^ w := by
  rw [← pow_eight_mul]
  exact v.isLt

theorem toNat_swap (w : Nat) (v : BitVec (8 * w)) :
    (swap w v).toNat = decode (encode w v.toNat).reverse := by
  rw [swap, BitVec.toNat_ofNat, Nat.mod_eq_of_lt]
  have h := decode_lt (encode w v.toNat).reverse
  rwa [List.length_reverse, length_encode, ← pow_eight_mul] at h

/-- The bytes of the swapped word are those of the word, from the other end. -/
theorem encode_swap (w : Nat) (v : BitVec (8 * w)) :
    encode w (swap w v).toNat = (encode w v.toNat).reverse := by
  rw [toNat_swap]
  have h := encode_decode (encode w v.toNat).reverse
  rwa [List.length_reverse, length_encode] at h

@[simp] theorem swap_swap (w : Nat) (v : BitVec (8 * w)) : swap w (swap w v) = v := by
  refine BitVec.eq_of_toNat_eq ?_
  rw [toNat_swap, encode_swap, List.reverse_reverse, decode_encode (toNat_lt w v)]

end Bytes
