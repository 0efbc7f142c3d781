/-
# `Hammer2.File.Decompress` — the decompression callbacks of the read path

The callbacks run on a logical buffer `bp`; every range they write is logged, by its distance
from `b_data`.  `none` is a panic.  The decompressors are parameters, with what is documented of
them: a negative error, or no more bytes than they may write.

    decompress_sound_iff    when the callbacks are safe, and give the decoded bytes
-/
import Mathlib.Logic.Basic

namespace Hammer2.File.Decompress

def pbufsize : Nat := 65536

/-- `LZ4_decompress_safe`: what it returns, and the bytes it leaves. -/
structure Lz4Safe where
  run : List UInt8 → Nat → Int × (Nat → UInt8)
  le : ∀ src cap, (run src cap).1 ≤ cap

def zStreamEnd : Int := 1

/-- What `inflate` returns, the room that is left, and the bytes it leaves. -/
structure Inflated where
  result : Int
  availOut : Nat
  out : Nat → UInt8

structure Inflate where
  run : List UInt8 → Nat → Inflated
  le : ∀ src cap, (run src cap).availOut ≤ cap

/-- `struct buf`, with the ranges written to `b_data`. -/
structure Buf where
  bufsize : Nat
  data : Int → UInt8
  resid : Nat
  error : Nat
  writes : List (Int × Nat)

/-- The log begins with the call. -/
def Buf.enter (bp : Buf) : Buf := { bp with writes := [] }

/-- The `len` bytes from `b_data + at` on are written. -/
def Buf.write (bp : Buf) (start : Int) (len : Nat) (bytes : Nat → UInt8) : Buf :=
  { bp with
    data := fun i => if start ≤ i ∧ i < start + len then bytes (i - start).toNat else bp.data i
    writes := (start, len) :: bp.writes }

/-- `bp->b_resid = 0` -/
def Buf.done (bp : Buf) : Buf := { bp with resid := 0 }

/-- `*(const int *)data`, as it is compared. -/
def compressedSize (data : List UInt8) : Nat :=
  (data.getD 0 0).toNat + 256 * (data.getD 1 0).toNat + 65536 * (data.getD 2 0).toNat +
    16777216 * (data.getD 3 0).toNat

/-- The stream behind the size. -/
def stream (data : List UInt8) : List UInt8 := (data.drop 4).take (compressedSize data)

/-- `hammer2_decompress_LZ4_callback`, of a block of `data.length` bytes. -/
def lz4Callback (lz4 : Lz4Safe) (data : List UInt8) (bp : Buf) : Option Buf :=
  if ¬ bp.bufsize ≤ pbufsize then none
  else if ¬ compressedSize data ≤ data.length - 4 then none
  else
    let (result, out) := lz4.run (stream data) bp.bufsize
    let compressedBuffer := if result < 0 then fun _ => 0 else out
    if ¬ result ≤ bp.bufsize then none
    else
      let bp := bp.enter.write 0 bp.bufsize compressedBuffer
      let bp := if result < bp.bufsize then
        bp.write result (bp.bufsize - result).toNat fun _ => 0 else bp
      some bp.done

/-- `hammer2_decompress_ZLIB_callback` -/
def zlibCallback (zlib : Inflate) (data : List UInt8) (bp : Buf) : Option Buf :=
  if ¬ bp.bufsize ≤ pbufsize then none
  else
    let z := zlib.run data bp.bufsize
    let compressedBuffer := if z.result ≠ zStreamEnd then fun _ => 0 else z.out
    let bp := bp.enter.write 0 bp.bufsize compressedBuffer
    let result : Int := bp.bufsize - z.availOut
    let bp := if result < bp.bufsize then bp.write result z.availOut fun _ => 0 else bp
    some bp.done

/-! ## What is asked of a callback -/

/-- The bytes a decompressor gives, `none` when it fails. -/
def lz4Decoded (lz4 : Lz4Safe) (data : List UInt8) (cap : Nat) : Option (Nat × (Nat → UInt8)) :=
  let (result, out) := lz4.run (stream data) cap
  if result < 0 then none else some (result.toNat, out)

def zlibDecoded (zlib : Inflate) (data : List UInt8) (cap : Nat) : Option (Nat × (Nat → UInt8)) :=
  let z := zlib.run data cap
  if z.result ≠ zStreamEnd then none else some (cap - z.availOut, z.out)

/-- The whole buffer holds the decoded bytes, followed by zeros. -/
def Filled (bp : Buf) (decoded : Option (Nat × (Nat → UInt8))) : Prop :=
  ∃ n out, decoded = some (n, out) ∧
    ∀ i : Nat, i < bp.bufsize → bp.data i = if i < n then out i else 0

/-- No panic, no write outside the buffer, and the decoded bytes or an error. -/
def Sound (bufsize : Nat) (decoded : Option (Nat × (Nat → UInt8))) : Option Buf → Prop
  | none => False
  | some bp => (∀ w ∈ bp.writes, 0 ≤ w.1 ∧ w.1 + w.2 ≤ bufsize) ∧
      (bp.error ≠ 0 ∨ Filled bp decoded)

/-! ## Writes -/

/-- A prefix, and zeros up to the end. -/
theorem write_tail {bp : Buf} {n : Nat} {out : Nat → UInt8} (hn : n ≤ bp.bufsize) {i : Nat}
    (hi : i < bp.bufsize) :
    ((bp.write 0 bp.bufsize out).write n (bp.bufsize - n) fun _ => 0).data i =
      if i < n then out i else 0 := by
  by_cases hlt : i < n
  · have hout : ¬ ((n : Int) ≤ i ∧ (i : Int) < n + (bp.bufsize - n : Nat)) := by omega
    have hin : (0 : Int) ≤ i ∧ (i : Int) < 0 + (bp.bufsize : Nat) := by omega
    show (if _ then _ else if _ then out ((i : Int) - 0).toNat else _) = _
    rw [if_neg hout, if_pos hin, if_pos hlt, Int.sub_zero, Int.toNat_natCast]
  · have hin : (n : Int) ≤ i ∧ (i : Int) < n + (bp.bufsize - n : Nat) := by omega
    show (if _ then (0 : UInt8) else _) = _
    rw [if_pos hin, if_neg hlt]

theorem write_all {bp : Buf} {out : Nat → UInt8} {i : Nat} (hi : i < bp.bufsize) :
    (bp.write 0 bp.bufsize out).data i = out i := by
  have hin : (0 : Int) ≤ i ∧ (i : Int) < 0 + (bp.bufsize : Nat) := by omega
  show (if _ then out ((i : Int) - 0).toNat else _) = _
  rw [if_pos hin, Int.sub_zero, Int.toNat_natCast]

/-- What a callback leaves when `n` bytes are good: the buffer is filled and the tail cleared. -/
def Buf.fill (bp : Buf) (n : Nat) (out : Nat → UInt8) : Buf :=
  let bp := bp.enter.write 0 bp.bufsize out
  let bp := if (n : Int) < bp.bufsize then bp.write n (bp.bufsize - n) fun _ => 0 else bp
  bp.done

theorem fill_within {bp : Buf} {n : Nat} (hn : n ≤ bp.bufsize) (out : Nat → UInt8) :
    ∀ w ∈ (bp.fill n out).writes, 0 ≤ w.1 ∧ w.1 + w.2 ≤ bp.bufsize := by
  intro w hw
  have hall : (0 : Int) ≤ 0 ∧ 0 + (bp.bufsize : Int) ≤ bp.bufsize := by omega
  unfold Buf.fill at hw
  dsimp only at hw
  split at hw
  · rcases List.mem_cons.mp hw with rfl | hw
    · show (0 : Int) ≤ n ∧ (n : Int) + (bp.bufsize - n : Nat) ≤ bp.bufsize
      omega
    · obtain rfl := List.mem_singleton.mp hw
      exact hall
  · obtain rfl := List.mem_singleton.mp hw
    exact hall

theorem fill_fields (bp : Buf) (n : Nat) (out : Nat → UInt8) :
    (bp.fill n out).bufsize = bp.bufsize ∧ (bp.fill n out).error = bp.error := by
  unfold Buf.fill
  dsimp only
  split <;> exact ⟨rfl, rfl⟩

theorem fill_data {bp : Buf} {n : Nat} (hn : n ≤ bp.bufsize) (out : Nat → UInt8) {i : Nat}
    (hi : i < bp.bufsize) : (bp.fill n out).data i = if i < n then out i else 0 := by
  unfold Buf.fill
  dsimp only
  split
  · exact @write_tail bp.enter n out hn i hi
  · rename_i hfull
    have hlt : i < n := by
      have hfull : ¬ (n : Int) < bp.bufsize := hfull
      omega
    rw [if_pos hlt]
    exact @write_all bp.enter out i hi

/-! ## The callbacks -/

theorem lz4Callback_spec {lz4 : Lz4Safe} {data : List UInt8} {bp : Buf} {n : Nat}
    {out : Nat → UInt8} (hsize : bp.bufsize ≤ pbufsize)
    (hpre : compressedSize data ≤ data.length - 4)
    (hrun : lz4.run (stream data) bp.bufsize = ((n : Int), out)) :
    n ≤ bp.bufsize ∧ lz4Callback lz4 data bp = some (bp.fill n out) := by
  have hle := lz4.le (stream data) bp.bufsize
  rw [hrun] at hle
  have hn : n ≤ bp.bufsize := Int.ofNat_le.mp hle
  refine ⟨hn, ?_⟩
  have hneg : ¬ (n : Int) < 0 := Int.not_lt.mpr (Int.natCast_nonneg n)
  have hsub : ((bp.bufsize : Int) - n).toNat = bp.bufsize - n := by omega
  unfold lz4Callback
  rw [if_neg (not_not.mpr hsize), if_neg (not_not.mpr hpre), hrun]
  dsimp only
  rw [if_neg hneg, if_neg (not_not.mpr hle)]
  have hbuf : (bp.enter.write 0 bp.bufsize out).bufsize = bp.bufsize := rfl
  rw [hbuf, hsub]
  rfl

/-- An error of the decompressor: the tail begins before the buffer. -/
theorem lz4Callback_error {lz4 : Lz4Safe} {data : List UInt8} {bp : Buf} {r : Int}
    {out : Nat → UInt8} (hsize : bp.bufsize ≤ pbufsize)
    (hpre : compressedSize data ≤ data.length - 4)
    (hrun : lz4.run (stream data) bp.bufsize = (r, out)) (hneg : r < 0) :
    lz4Callback lz4 data bp = some ((bp.enter.write 0 bp.bufsize fun _ => 0).write r
      (bp.bufsize - r).toNat fun _ => 0).done := by
  have hlt : r < (bp.bufsize : Int) := Int.lt_of_lt_of_le hneg (Int.natCast_nonneg _)
  unfold lz4Callback
  rw [if_neg (not_not.mpr hsize), if_neg (not_not.mpr hpre), hrun]
  dsimp only
  rw [if_pos hneg, if_neg (not_not.mpr (Int.le_of_lt hlt))]
  have hbuf : (bp.enter.write 0 bp.bufsize fun _ => 0).bufsize = bp.bufsize := rfl
  rw [hbuf, if_pos hlt]

theorem zlibCallback_spec (zlib : Inflate) (data : List UInt8) {bp : Buf}
    (hsize : bp.bufsize ≤ pbufsize) :
    zlibCallback zlib data bp = some (bp.fill (bp.bufsize - (zlib.run data bp.bufsize).availOut)
      (if (zlib.run data bp.bufsize).result ≠ zStreamEnd then fun _ => 0
        else (zlib.run data bp.bufsize).out)) := by
  have hle := zlib.le data bp.bufsize
  unfold zlibCallback
  rw [if_neg (not_not.mpr hsize)]
  generalize zlib.run data bp.bufsize = z at *
  dsimp only
  have hbuf : ∀ out, (bp.enter.write 0 bp.bufsize out).bufsize = bp.bufsize := fun _ => rfl
  have hsub : (bp.bufsize : Int) - z.availOut = (bp.bufsize - z.availOut : Nat) := by omega
  have hrest : bp.bufsize - (bp.bufsize - z.availOut) = z.availOut := by omega
  unfold Buf.fill
  dsimp only
  rw [hbuf, hsub, hrest]

/-- **When the callbacks are sound**: LZ4 when the size fits the block and the decompressor does
not fail, zlib when the stream ends. -/
theorem decompress_sound_iff (lz4 : Lz4Safe) (zlib : Inflate) (data : List UInt8) (bp : Buf) :
    (Sound bp.bufsize (lz4Decoded lz4 data bp.bufsize) (lz4Callback lz4 data bp) ↔
      bp.bufsize ≤ pbufsize ∧ compressedSize data ≤ data.length - 4 ∧
        0 ≤ (lz4.run (stream data) bp.bufsize).1) ∧
    (Sound bp.bufsize (zlibDecoded zlib data bp.bufsize) (zlibCallback zlib data bp) ↔
      bp.bufsize ≤ pbufsize ∧
        ((zlib.run data bp.bufsize).result = zStreamEnd ∨ bp.error ≠ 0)) := by
  refine ⟨⟨fun h => ?_, ?_⟩, ⟨fun h => ?_, ?_⟩⟩
  · by_cases hsize : bp.bufsize ≤ pbufsize
    · by_cases hpre : compressedSize data ≤ data.length - 4
      · refine ⟨hsize, hpre, ?_⟩
        refine Int.not_lt.mp fun hneg => ?_
        rw [lz4Callback_error hsize hpre rfl hneg] at h
        exact Int.not_le.mpr hneg (h.1 _ List.mem_cons_self).1
      · have hcall : lz4Callback lz4 data bp = none :=
          (if_neg (not_not.mpr hsize)).trans (if_pos hpre)
        rw [hcall] at h
        exact h.elim
    · have hcall : lz4Callback lz4 data bp = none := if_pos hsize
      rw [hcall] at h
      exact h.elim
  · rintro ⟨hsize, hpre, hnonneg⟩
    obtain ⟨n, hn⟩ := Int.eq_ofNat_of_zero_le hnonneg
    have hrun : lz4.run (stream data) bp.bufsize =
        ((n : Int), (lz4.run (stream data) bp.bufsize).2) := by rw [← hn]
    obtain ⟨hle, hcall⟩ := lz4Callback_spec hsize hpre hrun
    rw [hcall]
    refine ⟨fill_within hle _, .inr ⟨n, (lz4.run (stream data) bp.bufsize).2, ?_, fun i hi => ?_⟩⟩
    · unfold lz4Decoded
      rw [hrun]
      exact if_neg (Int.not_lt.mpr (Int.natCast_nonneg n))
    · rw [(fill_fields bp _ _).1] at hi
      exact fill_data hle _ hi
  · by_cases hsize : bp.bufsize ≤ pbufsize
    · refine ⟨hsize, ?_⟩
      rw [zlibCallback_spec zlib data hsize] at h
      rcases h.2 with herr | ⟨n, out, hdec, -⟩
      · rw [(fill_fields bp _ _).2] at herr
        exact .inr herr
      · refine .inl ?_
        unfold zlibDecoded at hdec
        refine not_not.mp fun hne => ?_
        dsimp only at hdec
        rw [if_pos hne] at hdec
        exact absurd hdec nofun
    · have hcall : zlibCallback zlib data bp = none := if_pos hsize
      rw [hcall] at h
      exact h.elim
  · rintro ⟨hsize, hend⟩
    rw [zlibCallback_spec zlib data hsize]
    refine ⟨fill_within (Nat.sub_le _ _) _, ?_⟩
    rcases hend with hend | herr
    · refine .inr ⟨bp.bufsize - (zlib.run data bp.bufsize).availOut,
        (zlib.run data bp.bufsize).out, ?_, fun i hi => ?_⟩
      · unfold zlibDecoded
        exact if_neg (not_not.mpr hend)
      · rw [if_neg (not_not.mpr hend)]
        rw [(fill_fields bp _ _).1] at hi
        exact fill_data (Nat.sub_le _ _) _ hi
    · refine .inl ?_
      rw [(fill_fields bp _ _).2]
      exact herr

/-- The decompressor on a block of zeros: it fails behind the first byte. -/
def failing : Lz4Safe where
  run _ _ := (-2, fun _ => 0)
  le _ cap := Int.le_trans (by decide) (Int.natCast_nonneg cap)

/-- A block of zeros makes the callback write before the buffer. -/
theorem lz4Callback_underrun : ¬ Sound 65536
    (lz4Decoded failing (List.replicate 1024 0) 65536)
    (lz4Callback failing (List.replicate 1024 0) ⟨65536, fun _ => 0, 0, 0, []⟩) := by
  have hzero : compressedSize (List.replicate 1024 0) = 0 := rfl
  rw [lz4Callback_error (by decide) (hzero ▸ Nat.zero_le _) rfl (by decide)]
  exact fun h => absurd (h.1 _ List.mem_cons_self).1 (by decide)

end Hammer2.File.Decompress
