/-
# `Hammer2.Lib.Lz4` — the LZ4 block format

A block is a series of sequences, each of some literals and a match, and the literals that
come last.

    decode    the bytes a block stands for
    encode    the bytes of a block
    Legal     the rules for the end of a block, and for the distances

A decoder is right if it takes `encode qs last` to `decode [] qs last`.
-/
import Mathlib.Data.List.Basic

namespace Lz4

/-- Literals, and a match of `len` bytes that begins `off` bytes back. -/
structure Seq where
  lits : List UInt8
  off : Nat
  len : Nat
deriving DecidableEq

/-- The bytes of a match, one by one: it may run into itself. -/
def copyMatch (off : Nat) : Nat → List UInt8 → List UInt8
  | 0, out => out
  | n + 1, out => copyMatch off n (out ++ [out.getD (out.length - off) 0])

def decode : List UInt8 → List Seq → List UInt8 → List UInt8
  | out, [], last => out ++ last
  | out, q :: qs, last => decode (copyMatch q.off q.len (out ++ q.lits)) qs last

/-- What half a token says about a length. -/
def nibble (n : Nat) : Nat := min n 15

/-- The rest of a length. -/
def more (n : Nat) : List UInt8 :=
  if n < 15 then [] else List.replicate ((n - 15) / 255) 255 ++ [UInt8.ofNat ((n - 15) % 255)]

def token (lits len : Nat) : UInt8 := UInt8.ofNat (16 * nibble lits + nibble len)

def encodeSeq (q : Seq) : List UInt8 :=
  token q.lits.length (q.len - 4) :: (more q.lits.length ++ (q.lits ++
    (UInt8.ofNat (q.off % 256) :: UInt8.ofNat (q.off / 256) :: more (q.len - 4))))

def encodeLast (last : List UInt8) : List UInt8 := token last.length 0 :: (more last.length ++ last)

def encode (qs : List Seq) (last : List UInt8) : List UInt8 :=
  qs.flatMap encodeSeq ++ encodeLast last

theorem encode_cons (q : Seq) (qs : List Seq) (last : List UInt8) :
    encode (q :: qs) last = encodeSeq q ++ encode qs last := by
  rw [encode, List.flatMap_cons, List.append_assoc]
  rfl

/-- The distances are within what has been decoded. -/
def Reaches : List UInt8 → List Seq → Prop
  | _, [] => True
  | out, q :: qs => 1 ≤ q.off ∧ q.off < 65536 ∧ 4 ≤ q.len ∧ q.off ≤ (out ++ q.lits).length ∧
      Reaches (copyMatch q.off q.len (out ++ q.lits)) qs

/-- At least five literals come last, and the last match begins at least twelve bytes before
the end. -/
structure Legal (qs : List Seq) (last : List UInt8) : Prop where
  reaches : Reaches [] qs
  five : qs ≠ [] → 5 ≤ last.length
  twelve : ∀ q, qs.getLast? = some q → 12 ≤ q.len + last.length

/-! ## Lengths -/

theorem length_copyMatch (off : Nat) : ∀ (n : Nat) (out : List UInt8),
    (copyMatch off n out).length = out.length + n
  | 0, _ => rfl
  | n + 1, out => by
      rw [copyMatch, length_copyMatch off n, List.length_append, List.length_singleton]
      omega

/-- Decoding only adds to what has been decoded. -/
theorem length_le_decode : ∀ (qs : List Seq) (out last : List UInt8),
    out.length + last.length ≤ (decode out qs last).length
  | [], out, last => Nat.le_of_eq (List.length_append).symm
  | q :: qs, out, last => by
      have hrest := length_le_decode qs (copyMatch q.off q.len (out ++ q.lits)) last
      rw [length_copyMatch, List.length_append] at hrest
      exact Nat.le_trans (by omega) hrest

theorem nibble_le (n : Nat) : nibble n ≤ 15 := Nat.min_le_right n 15

theorem token_toNat (lits len : Nat) : (token lits len).toNat = 16 * nibble lits + nibble len := by
  have hlits := nibble_le lits
  have hlen := nibble_le len
  rw [token, UInt8.toNat_ofNat', Nat.mod_eq_of_lt (by omega)]

theorem token_div (lits len : Nat) : (token lits len).toNat / 16 = nibble lits := by
  have hlen := nibble_le len
  rw [token_toNat]
  omega

theorem token_mod (lits len : Nat) : (token lits len).toNat % 16 = nibble len := by
  have hlen := nibble_le len
  rw [token_toNat]
  omega

theorem nibble_of_lt {n : Nat} (h : n < 15) : nibble n = n := Nat.min_eq_left (Nat.le_of_lt h)

theorem nibble_of_ge {n : Nat} (h : ¬ n < 15) : nibble n = 15 :=
  Nat.min_eq_right (Nat.not_lt.mp h)

/-- The two bytes of a distance. -/
theorem off_bytes {off : Nat} (h : off < 65536) :
    (UInt8.ofNat (off % 256)).toNat + 256 * (UInt8.ofNat (off / 256)).toNat = off := by
  rw [UInt8.toNat_ofNat', UInt8.toNat_ofNat', Nat.mod_eq_of_lt (by omega : off % 256 < 2 ^ 8),
    Nat.mod_eq_of_lt (by omega : off / 256 < 2 ^ 8)]
  omega

end Lz4
