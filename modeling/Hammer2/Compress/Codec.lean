/-
# `Hammer2.Compress.Codec` — the two halves together

What `LZ4_compress_limitedOutput` makes is a legal block, and `LZ4_decompress_safe` and the decoder
of the loader expand legal blocks.

    round_trip          what is compressed is expanded to what it was, by either decoder
    compress_in_buffer  the encoder stays in the buffer the write path gives it
    kernelLz4           the two are a codec as `Hammer2.File.Write` asks for one
    image_restored      what the write path stores is what the read path gives back
-/
import Hammer2.Compress.Exact
import Hammer2.Compress.Encoder
import Hammer2.File.RoundTrip

namespace Hammer2.Compress

open File (Bytes)

/-- The first `r` bytes of a buffer. -/
def bytes (r : Nat) (d : Int → UInt8) : Bytes := (List.range r).map fun i : Nat => d i

theorem bytes_of_held {d : Int → UInt8} {out : Bytes} (h : Lz4.Held d out) : bytes out.length d = out :=
  h.map_range

/-- The block that is returned. -/
theorem block_of_returned {src : Bytes} {maxOutputSize : Nat} {r : Nat × Encoder.State}
    (h : Encoder.Returned src maxOutputSize r) (hne : r.1 ≠ 0) :
    r.1 ≤ maxOutputSize ∧ ∃ qs last, Lz4.Legal qs last ∧ Lz4.decode [] qs last = src ∧
      bytes r.1 r.2.dst = Lz4.encode qs last := by
  rcases h.block with hzero | ⟨hle, qs, last, hlegal, hdec, hlen, hheld⟩
  · exact absurd hzero hne
  · exact ⟨hle, qs, last, hlegal, hdec, by rw [hlen, bytes_of_held hheld]⟩

/-- **The round trip.**  Whatever the block, the limit and the buffers: what the encoder makes is
expanded to the block by the kernel and by the loader. -/
theorem round_trip (src : Bytes) (maxOutputSize : Nat) (dst : Int → UInt8) :
    ∃ r t, Encoder.compress src maxOutputSize dst = some (r, t) ∧ (r ≠ 0 → r ≤ maxOutputSize ∧
      ∀ (cap : Nat) (dst' : Int → UInt8), 0 < cap → src.length ≤ cap →
        (∃ t', Decoder.decompress (bytes r t.dst) cap dst' = some ((src.length : Int), t') ∧
          bytes src.length t'.dst = src) ∧
        Boot.lz4DecompressBlock (bytes r t.dst) cap = some src) := by
  obtain ⟨⟨r, t⟩, hrun, hret⟩ := Encoder.compress_correct src maxOutputSize dst
  refine ⟨r, t, hrun, fun hne => ?_⟩
  obtain ⟨hle, qs, last, hlegal, hdec, hblock⟩ := block_of_returned hret hne
  refine ⟨hle, fun cap dst' hpos hfits => ?_⟩
  rw [← hdec] at hfits
  obtain ⟨t', hexp, hout⟩ := Decoder.decompress_exact qs last cap dst' hlegal hpos hfits
  have hblock : bytes r t.dst = Lz4.encode qs last := hblock
  rw [hblock, ← hdec]
  exact ⟨⟨t', hexp, hout⟩, Boot.lz4DecompressBlock_encode hlegal hfits⟩

/-! ## The write path -/

/-- `HAMMER2_PBUFSIZE / 2`, less the `int` in front. -/
def compRoom : Nat := 32768 - 4

/-- **The encoder stays in `comp_buffer`.**  It may go further than its limit; the eight bytes that
`hammer2_compress_and_write` holds back are enough. -/
theorem compress_in_buffer (data : Bytes) (dst : Int → UInt8) (hmin : 16 ≤ data.length)
    (hmax : data.length ≤ 65536) :
    ∃ r t, Encoder.compress data (data.length / 2 - 8) dst = some (r, t) ∧
      ∀ a ∈ t.log, a.Within data.length compRoom := by
  obtain ⟨⟨r, t⟩, hrun, hret⟩ := Encoder.compress_correct data (data.length / 2 - 8) dst
  refine ⟨r, t, hrun, fun a ha => ?_⟩
  have hin := hret.within a ha
  have hreach : Encoder.reach (data.length / 2 - 8) data.length ≤ compRoom := by
    unfold Encoder.reach compRoom
    omega
  cases a with
  | fetch start len => exact hin
  | load start len => exact ⟨hin.1, hin.2.trans (by exact_mod_cast hreach)⟩
  | store start len => exact ⟨hin.1, hin.2.trans (by exact_mod_cast hreach)⟩

theorem compress_in_buffer_zeros : ∃ r t, Encoder.compress (List.replicate 1024 0)
      ((List.replicate 1024 (0 : UInt8)).length / 2 - 8) (fun _ => 0) = some (r, t) ∧
    ∀ a ∈ t.log, a.Within (List.replicate 1024 (0 : UInt8)).length compRoom :=
  compress_in_buffer (List.replicate 1024 0) (fun _ => 0) (by rw [List.length_replicate]; decide)
    (by rw [List.length_replicate]; decide)

/-- What `LZ4_compress_limitedOutput` leaves in a buffer of zeros; `[]` is its failure.  No block is
empty, and of an empty one there is no round trip: `LZ4_decompress_safe` does not take a buffer
without room. -/
def compressed (data : Bytes) (maxOutputSize : Nat) : Bytes :=
  if data = [] then []
  else match Encoder.compress data maxOutputSize fun _ => 0 with
    | some (r, t) => bytes r t.dst
    | none => []

theorem compressed_spec {data : Bytes} {maxOutputSize : Nat} (h : compressed data maxOutputSize ≠ []) :
    data ≠ [] ∧ ∃ qs last, Lz4.Legal qs last ∧ Lz4.decode [] qs last = data ∧
      compressed data maxOutputSize = Lz4.encode qs last := by
  obtain ⟨⟨r, t⟩, hrun, hret⟩ := Encoder.compress_correct data maxOutputSize fun _ => 0
  have hdata : data ≠ [] := fun hnil => h (if_pos hnil)
  have hbytes : compressed data maxOutputSize = bytes r t.dst := by
    rw [compressed, if_neg hdata, hrun]
  rw [hbytes] at h ⊢
  have hne : r ≠ 0 := by
    rintro rfl
    exact h rfl
  exact ⟨hdata, (block_of_returned hret hne).2⟩

theorem length_compressed_le (data : Bytes) (maxOutputSize : Nat) :
    (compressed data maxOutputSize).length ≤ maxOutputSize := by
  obtain ⟨r, hrun, hret⟩ := Encoder.compress_correct data maxOutputSize fun _ => 0
  unfold compressed
  split
  · exact Nat.zero_le _
  · rw [hrun]
    show (bytes r.1 r.2.dst).length ≤ _
    rw [bytes, List.length_map, List.length_range]
    rcases hret.block with hzero | ⟨hle, -⟩
    · omega
    · exact hle

/-- The codec of the kernel keeps the law the write path relies on. -/
def kernelLz4 : File.Lz4 where
  compress := compressed
  decompress := Decoder.lz4DecompressSafe
  compress_le := length_compressed_le
  inverse data n lim hne hle := by
    obtain ⟨hdata, qs, last, hlegal, hdec, hblock⟩ := compressed_spec hne
    have hpos : 0 < lim := Nat.lt_of_lt_of_le (List.length_pos_iff.mpr hdata) hle
    rw [hblock, Decoder.decodes_lz4DecompressSafe qs last lim hlegal hpos (by rw [hdec]; exact hle), hdec]

section Image

open File File.Decompress

/-- What is read of a block with its size in front. -/
theorem stream_padTo {c : Bytes} {n : Nat} (hlen : c.length < 2 ^ 32) (hn : (le32 c.length ++ c).length ≤ n) :
    compressedSize (padTo n (le32 c.length ++ c)) ≤ (padTo n (le32 c.length ++ c)).length - 4 ∧
      stream (padTo n (le32 c.length ++ c)) = c := by
  have hfour : (le32 c.length).length = 4 := rfl
  have hsize : compressedSize (padTo n (le32 c.length ++ c)) = c.length := by
    have hbyte : ∀ k : Nat, (UInt8.ofNat k).toNat = k % 256 := fun k => UInt8.toNat_ofNat'
    show (UInt8.ofNat c.length).toNat + 256 * (UInt8.ofNat (c.length / 256)).toNat +
      65536 * (UInt8.ofNat (c.length / 65536)).toNat +
      16777216 * (UInt8.ofNat (c.length / 16777216)).toNat = c.length
    rw [hbyte, hbyte, hbyte, hbyte]
    omega
  have hpad : (padTo n (le32 c.length ++ c)).length = n := length_padTo hn
  rw [List.length_append, hfour] at hn
  refine ⟨by rw [hsize, hpad]; omega, ?_⟩
  rw [stream, hsize, padTo, List.append_assoc, List.drop_left' hfour, List.take_left' rfl]

/-- **The write path and the read path.**  What `hammer2_compress_and_write` stores of a block under
LZ4, `hammer2_decompress_LZ4_callback` puts back, and clears what follows. -/
theorem image_restored (t : Tools) (ht : t.lz4 = kernelLz4) (ip : File.Inode) (data bs : Bytes)
    (hmax : data.length ≤ 65536) (himage : image t ip data = some (compLz4, bs))
    (buffer : Int → UInt8) (bp : Buf) (hfits : data.length ≤ bp.bufsize)
    (hsize : bp.bufsize ≤ pbufsize) :
    ∃ bp', lz4Callback (Decoder.safe buffer) bs bp = some bp' ∧ bp'.error = bp.error ∧
      (∀ w ∈ bp'.writes, 0 ≤ w.1 ∧ w.1 + w.2 ≤ bp.bufsize) ∧
      ∀ i : Nat, i < bp.bufsize → bp'.data i = data.getD i 0 := by
  unfold image at himage
  dsimp only at himage
  split at himage
  · have hcomp := (Prod.mk.inj (Option.some.inj himage)).1
    exact absurd hcomp (by decide)
  · rename_i hne
    obtain ⟨n, hn, hbs⟩ := Option.map_eq_some_iff.mp himage
    obtain ⟨hcomp, rfl⟩ := Prod.mk.inj hbs
    obtain ⟨hcn, -⟩ := compBlockSize_spec hn
    unfold File.compressed at hne hcn ⊢
    split at hne
    · rename_i htry
      rw [if_pos htry, if_pos hcomp] at hcn ⊢
      dsimp only at hne hcn ⊢
      rw [ht] at hne hcn ⊢
      split at hne
      · exact absurd rfl hne
      · rename_i hc
        rw [if_neg hc] at hcn ⊢
        have hle := length_compressed_le data (data.length / 2 - 8)
        obtain ⟨hdata, qs, last, hlegal, hdec, hblock⟩ := compressed_spec hc
        have hpos := List.length_pos_iff.mpr hdata
        obtain ⟨hpre, hstream⟩ := stream_padTo (c := kernelLz4.compress data (data.length / 2 - 8))
          (n := n) (by
            show (compressed data (data.length / 2 - 8)).length < 2 ^ 32
            omega) hcn
        have hrestored := Decoder.lz4Callback_restores buffer _ bp qs last hlegal hsize
          (by rw [hdec]; exact hfits) (by omega) hpre (hstream.trans hblock)
        rwa [hdec] at hrestored
    · exact absurd rfl hne

/-- The codec of the kernel, and no zlib. -/
def zeroTools : Tools := { plainTools with lz4 := kernelLz4 }

set_option maxRecDepth 20000 in
theorem image_restored_zeros : ∃ bs,
    image zeroTools ⟨2, 2, 0, 0⟩ (List.replicate 64 0) = some (compLz4, bs) ∧
    ∃ bp', lz4Callback (Decoder.safe fun _ => 1) bs ⟨128, fun _ => 2, 0, 0, []⟩ = some bp' ∧
      bp'.error = 0 ∧ (∀ w ∈ bp'.writes, 0 ≤ w.1 ∧ w.1 + w.2 ≤ (128 : Nat)) ∧
      ∀ i : Nat, i < 128 → bp'.data i = (List.replicate 64 (0 : UInt8)).getD i 0 := by
  have hcomp : (image zeroTools ⟨2, 2, 0, 0⟩ (List.replicate 64 0)).map Prod.fst = some compLz4 := by
    decide
  obtain ⟨⟨comp, bs⟩, himage, hfst⟩ := Option.map_eq_some_iff.mp hcomp
  obtain rfl : comp = compLz4 := hfst
  exact ⟨bs, himage, image_restored zeroTools rfl ⟨2, 2, 0, 0⟩ (List.replicate 64 0) bs (by decide)
    himage (fun _ => 1) ⟨128, fun _ => 2, 0, 0, []⟩ (by decide) (by decide)⟩

end Image

end Hammer2.Compress
