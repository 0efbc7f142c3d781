/-
# `Hammer2.Boot.Again` — what the reader does its own way

    h2Dirhash_eq              the hash of a name is the one of the kernel
    lz4DecompressBlock_encode a block is decompressed as its format says

The kernel's checksum comes from the iSCSI tables of its library; `Castagnoli` says that it
is the one the reader computes bit by bit.
-/
import Hammer2.Boot.Reader
import Hammer2.Directory.Entry

namespace Hammer2.Boot

/-! ## The hash of a name -/

/-- The checksum is CRC-32C. -/
def Castagnoli (icrc32 : List UInt8 → UInt32) : Prop := ∀ bs, (icrc32 bs).toBitVec = h2Icrc32 bs

section Hash

variable {icrc32 : List UInt8 → UInt32}

/-- The sum over the pieces of a name. -/
def sumPieces (icrc32 : List UInt8 → UInt32) (crcx : UInt32) (pieces : List (List UInt8)) : UInt32 :=
  (pieces.filter (· ≠ [])).foldl (fun crcx piece => crcx + icrc32 piece) crcx

theorem sumPieces_cons (crcx : UInt32) (piece : List UInt8) (pieces : List (List UInt8)) :
    sumPieces icrc32 crcx (piece :: pieces) =
      sumPieces icrc32 (if piece = [] then crcx else crcx + icrc32 piece) pieces := by
  unfold sumPieces
  rcases eq_or_ne piece [] with rfl | hne
  · rfl
  · rw [List.filter_cons_of_pos (by simpa using hne), List.foldl_cons, if_neg hne]

theorem hashPieces_eq (hcrc : Castagnoli icrc32) : ∀ (cs piece : List UInt8) (crcx : UInt32),
    hashPieces cs piece crcx.toBitVec =
      (sumPieces icrc32 crcx ((cs.splitOnP Dir.isSeparator).modifyHead (piece ++ ·))).toBitVec
  | [], piece, crcx => by
      rw [List.splitOnP_nil, List.modifyHead_cons, List.append_nil, sumPieces_cons]
      rcases eq_or_ne piece [] with rfl | hne
      · rfl
      · rw [hashPieces, if_neg hne, if_neg hne, ← hcrc]
        rfl
  | c :: cs, piece, crcx => by
      rw [hashPieces, List.splitOnP_cons_eq_if_modifyHead]
      have hsep : isSeparator c = Dir.isSeparator c := rfl
      rw [hsep]
      cases Dir.isSeparator c with
      | true =>
          have hnext := hashPieces_eq hcrc cs []
            (if piece = [] then crcx else crcx + icrc32 piece)
          rw [if_pos rfl, if_pos rfl, List.modifyHead_cons, List.append_nil, sumPieces_cons]
          have hid : (cs.splitOnP Dir.isSeparator).modifyHead ([] ++ ·) =
              cs.splitOnP Dir.isSeparator := by
            cases cs.splitOnP Dir.isSeparator with
            | nil => rfl
            | cons p ps => rfl
          rw [hid] at hnext
          rw [← hnext]
          rcases eq_or_ne piece [] with rfl | hne
          · rfl
          · rw [if_neg hne, if_neg hne, ← hcrc]
            rfl
      | false =>
          rw [if_neg Bool.false_ne_true, if_neg Bool.false_ne_true,
            hashPieces_eq hcrc cs (piece ++ [c]) crcx]
          cases cs.splitOnP Dir.isSeparator with
          | nil => rfl
          | cons p ps =>
              rw [List.modifyHead_cons, List.modifyHead_cons, List.modifyHead_cons,
                List.append_assoc]
              rfl

/-- **The hash of a name is the one of the kernel.** -/
theorem h2Dirhash_eq (hcrc : Castagnoli icrc32) (name : List UInt8) :
    h2Dirhash name = Dir.dirhash icrc32 name := by
  have hpieces := hashPieces_eq hcrc name [] 0
  have hid : (name.splitOnP Dir.isSeparator).modifyHead ([] ++ ·) =
      name.splitOnP Dir.isSeparator := by
    cases name.splitOnP Dir.isSeparator with
    | nil => rfl
    | cons p ps => rfl
  rw [hid] at hpieces
  have hzero : hashPieces name [] 0#32 = _ := hpieces
  unfold h2Dirhash Dir.dirhash
  dsimp only
  rw [hzero, ← hcrc, Nat.or_assoc]
  rfl

end Hash

/-! ## Decompression -/

theorem readLen_ones : ∀ (k m len : Nat) (rest : List UInt8), m < 255 →
    readLen (List.replicate k 255 ++ UInt8.ofNat m :: rest) len = some (len + 255 * k + m, rest)
  | 0, m, len, rest, hm => by
      have htoNat : (UInt8.ofNat m).toNat = m := by
        rw [UInt8.toNat_ofNat', Nat.mod_eq_of_lt (by omega)]
      have hne : UInt8.ofNat m ≠ 255 := by
        intro heq
        rw [heq] at htoNat
        have h255 : (255 : UInt8).toNat = 255 := rfl
        omega
      rw [List.replicate_zero, List.nil_append, readLen, if_neg hne, htoNat]
      rfl
  | k + 1, m, len, rest, hm => by
      rw [List.replicate_succ, List.cons_append, readLen, if_pos rfl,
        readLen_ones k m (len + 255) rest hm]
      congr 2
      omega

/-- A length is read as it is written. -/
theorem lenOf_more (n : Nat) (rest : List UInt8) :
    lenOf (Lz4.nibble n) (Lz4.more n ++ rest) = some (n, rest) := by
  unfold lenOf Lz4.more
  by_cases h : n < 15
  · rw [Lz4.nibble_of_lt h, if_pos h, if_neg (by omega)]
    rfl
  · rw [Lz4.nibble_of_ge h, if_neg h, if_pos rfl, List.append_assoc, List.singleton_append,
      readLen_ones _ _ _ _ (Nat.mod_lt _ (by decide))]
    congr 2
    omega

variable {dstcap : Nat}

theorem decompressFrom_last (fuel : Nat) (out last : List UInt8)
    (hcap : out.length + last.length ≤ dstcap) :
    decompressFrom dstcap (fuel + 1) (Lz4.encodeLast last) out = some (out ++ last) := by
  rw [Lz4.encodeLast, decompressFrom, Lz4.token_div, lenOf_more]
  dsimp only
  rw [if_neg (by omega), List.drop_length, List.take_length]

/-- One sequence. -/
theorem decompressFrom_seq (fuel : Nat) (q : Lz4.Seq) (out rest : List UInt8) (hoff : 1 ≤ q.off)
    (hoff' : q.off < 65536) (hlen : 4 ≤ q.len) (hreach : q.off ≤ (out ++ q.lits).length)
    (hcap : (out ++ q.lits).length + q.len ≤ dstcap) :
    decompressFrom dstcap (fuel + 1) (Lz4.encodeSeq q ++ rest) out =
      decompressFrom dstcap fuel rest (Lz4.copyMatch q.off q.len (out ++ q.lits)) := by
  have hlits : (out ++ q.lits).length = out.length + q.lits.length := List.length_append
  have hmatch : q.len - 4 + 4 = q.len := Nat.sub_add_cancel hlen
  rw [Lz4.encodeSeq, List.cons_append, List.append_assoc, List.append_assoc, decompressFrom,
    Lz4.token_div, Lz4.token_mod, lenOf_more]
  dsimp only
  rw [if_neg (by rw [List.length_append]; omega), List.drop_left, List.take_left]
  dsimp only [List.cons_append]
  rw [Lz4.off_bytes hoff', if_neg (by omega), lenOf_more]
  dsimp only
  rw [hmatch, if_neg (by omega)]

theorem decompressFrom_encode : ∀ (qs : List Lz4.Seq) (fuel : Nat) (out last : List UInt8),
    Lz4.Reaches out qs → (Lz4.decode out qs last).length ≤ dstcap → qs.length < fuel →
    decompressFrom dstcap fuel (Lz4.encode qs last) out = some (Lz4.decode out qs last)
  | _, 0, _, _, _, _, hfuel => absurd hfuel (Nat.not_lt_zero _)
  | [], fuel + 1, out, last, _, hcap, _ => by
      rw [Lz4.decode, List.length_append] at hcap
      exact decompressFrom_last fuel out last hcap
  | q :: qs, fuel + 1, out, last, hreach, hcap, hfuel => by
      obtain ⟨hoff, hoff', hlen, hback, hrest⟩ := hreach
      have hle := Lz4.length_le_decode qs (Lz4.copyMatch q.off q.len (out ++ q.lits)) last
      rw [Lz4.length_copyMatch] at hle
      have hcap' : (Lz4.decode (Lz4.copyMatch q.off q.len (out ++ q.lits)) qs last).length ≤ dstcap :=
        hcap
      have hencode : Lz4.encode (q :: qs) last = Lz4.encodeSeq q ++ Lz4.encode qs last := by
        rw [Lz4.encode, List.flatMap_cons, List.append_assoc]
        rfl
      rw [hencode, decompressFrom_seq fuel q out _ hoff hoff' hlen hback (by omega)]
      exact decompressFrom_encode qs fuel _ last hrest hcap' (Nat.lt_of_succ_lt_succ hfuel)

/-- Every sequence takes a byte at least. -/
theorem length_lt_encode (qs : List Lz4.Seq) (last : List UInt8) :
    qs.length < (Lz4.encode qs last).length := by
  induction qs with
  | nil => exact Nat.succ_pos _
  | cons q qs ih =>
      rw [Lz4.encode, List.flatMap_cons, List.append_assoc, List.length_append]
      have hseq : 0 < (Lz4.encodeSeq q).length := Nat.succ_pos _
      have ih : qs.length < (qs.flatMap Lz4.encodeSeq ++ Lz4.encodeLast last).length := ih
      rw [List.length_cons]
      omega

/-- **A block is decompressed as its format says.** -/
theorem lz4DecompressBlock_encode {qs : List Lz4.Seq} {last : List UInt8} (h : Lz4.Legal qs last)
    (hcap : (Lz4.decode [] qs last).length ≤ dstcap) :
    lz4DecompressBlock (Lz4.encode qs last) dstcap = some (Lz4.decode [] qs last) :=
  decompressFrom_encode qs _ [] last h.reaches hcap (length_lt_encode qs last)

end Hammer2.Boot
