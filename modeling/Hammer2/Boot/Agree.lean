/-
# `Hammer2.Boot.Agree` — the reader agrees with the kernel

    ByteAt       the byte that the kernel reads at a position of a file
    Agrees       what a step of the reader has to do with what the kernel would do
    boot_agrees  every run in which no call inside a scan fails, names that are looked up fit
                 their blockrefs, and compressed blocks hold all that is asked for

A scan that fails looks like one that finds nothing, and a buffer is not cleared before a block is
decompressed into it.
-/
import Hammer2.Lib.Machine
import Hammer2.Boot.Resolve

namespace Hammer2.Boot

/-! ## What the kernel reads -/

/-- A logical block begins here. -/
def lbase (o : Nat) : Nat := o / 65536 * 65536

/-- The compressed bytes of a block. -/
def stream (d : Mem) (br : Blockref) : List UInt8 :=
  bytesAt (block d br.off) 4 (le (block d br.off) 0 4)

section Kernel

variable (lz4Safe : List UInt8 → Nat → Option (List UInt8)) (d : Mem) (n : Nat)

/-- `hammer2_decompress_LZ4_callback` -/
def decompressLz4 (br : Blockref) : Mem :=
  match lz4Safe (stream d br) pbufsize with
  | some bytes => fun i => bytes.getD i 0
  | none => fun _ => 0

/-- `hammer2_strategy_read_completion`, for a data block; `none` is a panic. -/
def readCompletion (br : Blockref) : Option Mem :=
  if br.comp = compLz4 then some (decompressLz4 lz4Safe d br)
  else if br.comp = compNone then
    some fun i => if i < 2 ^ br.radix then block d br.off i else 0
  else none

/-- The kernel reads `b` at the position `o` of a file. -/
def ByteAt (ino : Mem) (o : Nat) (b : UInt8) : Prop :=
  if directdata ino then b = if o < 512 then ino (0x200 + o) else 0
  else (∃ br ∈ leaves d n (inoBlockset ino), br.type = brefTypeData ∧
      br.meets (lbase o) (lbase o) = true ∧
      ∃ buf, readCompletion lz4Safe d br = some buf ∧ b = buf (o % 65536)) ∨
    (∀ br ∈ leaves d n (inoBlockset ino), br.meets (lbase o) (lbase o) = true →
      br.type ≠ brefTypeData) ∧ b = 0

/-- `LZ4_decompress_safe` decompresses legal blocks. -/
def Decodes : Prop := ∀ qs last cap, Lz4.Legal qs last → 0 < cap →
  (Lz4.decode [] qs last).length ≤ cap →
  lz4Safe (Lz4.encode qs last) cap = some (Lz4.decode [] qs last)

/-- A compressed block. -/
structure Compressed (br : Blockref) (qs : List Lz4.Seq) (last : List UInt8) : Prop where
  legal : Lz4.Legal qs last
  encoded : stream d br = Lz4.encode qs last
  fits : le (block d br.off) 0 4 ≤ 2 ^ br.radix - 4
  short : (Lz4.decode [] qs last).length ≤ 65536

/-- A blockref of file data. -/
structure DataRef (br : Blockref) : Prop where
  keybits : br.keybits = 16
  key : br.key % 65536 = 0
  radix : br.radix ≠ 0 ∧ br.radix ≤ 16
  aligned : br.off % 512 = 0
  comp : br.comp = compNone ∨ br.comp = compLz4 ∧ ∃ qs last, Compressed d br qs last

/-- A well-formed image with its files. -/
structure FileImage : Prop extends Image d n where
  data : ∀ ino, Below d n ino → directdata ino = false →
    ∀ br ∈ leaves d n (inoBlockset ino), br.type = brefTypeData → DataRef d br

/-- If the byte at `o` is in a compressed block, the block holds it. -/
def Covered (ino : Mem) (o : Nat) : Prop :=
  ∀ br ∈ leaves d n (inoBlockset ino), br.type = brefTypeData → br.comp = compLz4 →
    br.meets o o = true → ∀ bytes, lz4DecompressBlock (stream d br) pbufsize = some bytes →
      o % 65536 < bytes.length

end Kernel

/-! ## One block -/

section Block

variable {lz4Safe : List UInt8 → Nat → Option (List UInt8)} {d : Mem} {env : Env} {n depth : Nat}
  {w : World} {ino : Mem} {br : Blockref}

/-- A data block covers a logical block. -/
theorem DataRef.meets (h : DataRef d br) (hfits : Fits br) (o : Nat) :
    br.meets o o = true ↔ br.key = lbase o := by
  have hhi := hfits.hi_eq
  have hkey := h.key
  have h16 : (2 : Nat) ^ (16 : UInt8).toNat = 65536 := rfl
  have hlo : br.lo = br.key := rfl
  rw [h.keybits, h16] at hhi
  rw [meets_iff, hhi, hlo, lbase]
  omega

theorem lbase_lbase (o : Nat) : lbase (lbase o) = lbase o := by
  unfold lbase
  omega

theorem strategies_direct : ∀ (k : Nat) (w : World),
    ∃ (ok : Bool) (w' : World), strategies env .direct k w = some (ok, w') ∧ w'.base = w.base
  | 0, w => ⟨true, w, rfl, rfl⟩
  | k + 1, w => by
      obtain ⟨ok, w', hw', hbase⟩ := strategies_direct k { w with reads := w.reads + 1 }
      have hrun : strategies env .direct (k + 1) w =
          (if env.read w.reads = true then strategies env .direct k else pure false)
            { w with reads := w.reads + 1 } := rfl
      rw [hrun]
      cases env.read w.reads with
      | true => exact ⟨ok, w', hw', hbase⟩
      | false => exact ⟨false, _, rfl, rfl⟩

/-- A data block is read, or not. -/
theorem readphys_data (h : DataRef d br) (hw : w.base = 0) :
    ∃ (ok : Bool) (w' : World), readphys d env .direct br pbufsize w =
      some (if ok then some (block d br.off, 2 ^ br.radix) else none, w') ∧ w'.base = 0 := by
  obtain ⟨hpos, hle⟩ := h.radix
  have hsize : ¬ 2 ^ br.radix > pbufsize :=
    Nat.not_lt.mpr (Nat.pow_le_pow_right (by decide) hle)
  have hdiv : br.off / 512 * 512 = br.off := Nat.div_mul_cancel (Nat.dvd_of_mod_eq_zero h.aligned)
  obtain ⟨ok, w', hw', hbase⟩ := @strategies_direct env ((2 ^ br.radix + 8191) / 8192) w
  refine ⟨ok, w', ?_, hbase.trans hw⟩
  rw [readphys, if_neg hpos, if_neg hsize, bind_run]
  have hread : pread d env .direct br.off (2 ^ br.radix) w =
      (strategies env .direct ((2 ^ br.radix + 8191) / 8192) w).bind _ := rfl
  rw [hread, hw', Option.bind_some, hw, Nat.zero_add, hdiv]
  cases ok with
  | true => rfl
  | false => rfl

/-- What `h2_datacb` finds. -/
def dataHit (br : Blockref) : Option Blockref := if br.type ≠ brefTypeData then none else some br

theorem datacb_finds (br : Blockref) : Finds datacb dataHit br := by
  intro w _
  refine ⟨w, ?_, Scanned.refl w⟩
  unfold datacb dataHit
  split
  · rfl
  · rfl

theorem le_lt (m : Mem) : ∀ (k i : Nat), le m i k < 256 ^ k
  | 0, _ => Nat.one_pos
  | k + 1, i => by
      have hrest := le_lt m k (i + 1)
      have hbyte := (m i).toNat_lt
      rw [le, Nat.pow_succ]
      omega

/-- The reader decompresses what the kernel decompresses. -/
theorem Compressed.decompress {qs : List Lz4.Seq} {last : List UInt8}
    (h : Compressed d br qs last) (hsafe : Decodes lz4Safe) :
    lz4DecompressBlock (stream d br) pbufsize = some (Lz4.decode [] qs last) ∧
      decompressLz4 lz4Safe d br = fun i => (Lz4.decode [] qs last).getD i 0 := by
  constructor
  · rw [h.encoded]
    exact lz4DecompressBlock_encode h.legal h.short
  · rw [decompressLz4, h.encoded, hsafe qs last pbufsize h.legal (by decide) h.short]

/-- **One block.** -/
theorem readblock_spec (hsafe : Decodes lz4Safe) (himg : FileImage d n) (h : Quiet env)
    (hle : n ≤ depth) (hino : Below d n ino) (hdata : directdata ino = false) (loff : Nat) (out : Mem)
    (hw : w.base = 0) : ∃ w' res, readblock d env depth ino loff out w = some (res, w') ∧
      w'.base = 0 ∧ ∀ blk lsize, res = .ok (blk, lsize) → lsize = 65536 ∧
        ∀ o, lbase o = lbase loff → Covered d n ino o →
          ByteAt lz4Safe d n ino o (blk (o % 65536)) := by
  obtain ⟨htree, _⟩ := himg.tree ino hino hdata
  obtain ⟨v, hv, hs⟩ := @found_spec d env _ w datacb loff loff dataHit h n depth _ hle htree.table
    (fun c _ _ => datacb_finds c) hw
  have hbase := hs.base.trans hw
  rw [readblock, bind_run, hv, Option.bind_some]
  cases hsearch : search dataHit loff loff (leaves d n (inoBlockset ino)) with
  | none =>
      refine ⟨v, _, rfl, hbase, ?_⟩
      rintro blk lsize ⟨⟩
      refine ⟨rfl, fun o ho _ => ?_⟩
      rw [ByteAt, hdata, if_neg Bool.false_ne_true]
      refine .inr ⟨fun br hbr hmeets htype => ?_, rfl⟩
      have href := himg.data ino hino hdata br hbr htype
      have hfits := (htree.table.leaf hbr).2.2
      have hkey := (href.meets hfits _).mp hmeets
      rw [lbase_lbase, ho] at hkey
      have hnone := search_none hsearch br hbr ((href.meets hfits loff).mpr hkey)
      rw [dataHit, if_neg (not_not.mpr htype)] at hnone
      cases hnone
  | some br =>
      obtain ⟨br', hbr, hmeets, hhit⟩ := search_some hsearch
      unfold dataHit at hhit
      split at hhit
      · cases hhit
      rename_i htype
      have htype := not_not.mp htype
      cases hhit
      have href := himg.data ino hino hdata br hbr htype
      have hfits := (htree.table.leaf hbr).2.2
      have hkey := (href.meets hfits loff).mp hmeets
      have hlsize : (if br.keybits.toNat ≥ 64 then pbufsize else min (2 ^ br.keybits.toNat) pbufsize) =
          65536 := by
        rw [href.keybits]
        rfl
      have hauto : br.comp ≠ compAutozero := by
        rcases href.comp with hc | ⟨hc, _⟩
        · rw [hc]
          decide
        · rw [hc]
          decide
      -- What the kernel reads is in this block.
      have hbyte : ∀ o b, lbase o = lbase loff →
          (∃ buf, readCompletion lz4Safe d br = some buf ∧ b = buf (o % 65536)) →
          ByteAt lz4Safe d n ino o b := by
        intro o b ho hbuf
        rw [ByteAt, hdata, if_neg Bool.false_ne_true]
        refine .inl ⟨br, hbr, htype, (href.meets hfits _).mpr ?_, hbuf⟩
        rw [lbase_lbase, ho, hkey]
      dsimp only
      rw [hlsize, if_neg hauto, bind_run]
      have halloc : alloc env v = some (env.alloc v.allocs, { v with allocs := v.allocs + 1 }) := rfl
      rw [halloc, Option.bind_some]
      cases env.alloc v.allocs with
      | none => exact ⟨_, .error .enomem, rfl, hbase, nofun⟩
      | some raw =>
          obtain ⟨ok, u, hu, hubase⟩ :=
            @readphys_data d env { v with allocs := v.allocs + 1 } br href hbase
          dsimp only
          rw [bind_run, hu, Option.bind_some]
          cases ok with
          | false => exact ⟨u, .error .eio, rfl, hubase, nofun⟩
          | true =>
              dsimp only
              rw [if_pos rfl]
              dsimp only
              rcases href.comp with hc | ⟨hc, qs, last, hcomp⟩
              · rw [if_pos hc]
                refine ⟨u, _, rfl, hubase, ?_⟩
                rintro blk lsize ⟨⟩
                refine ⟨rfl, fun o ho _ => hbyte o _ ho ?_⟩
                have hne : br.comp ≠ compLz4 := by
                  rw [hc]
                  decide
                have hle16 : 2 ^ br.radix ≤ 65536 := Nat.pow_le_pow_right (by decide) href.radix.2
                have hlt : o % 65536 < 65536 := Nat.mod_lt _ (by decide)
                refine ⟨_, by rw [readCompletion, if_neg hne, if_pos hc], ?_⟩
                dsimp only
                rw [Nat.min_eq_right hle16, if_pos hlt]
              · have hne : br.comp ≠ compNone := by
                  rw [hc]
                  decide
                obtain ⟨hboot, hkernel⟩ := hcomp.decompress hsafe
                have hlen : (stream d br).length = le (block d br.off) 0 4 := by
                  rw [stream, bytesAt, List.length_map, List.length_range]
                have hpos : 0 < le (block d br.off) 0 4 := by
                  rw [← hlen, hcomp.encoded]
                  exact Nat.lt_of_le_of_lt (Nat.zero_le _) (length_lt_encode qs last)
                have hle16 : 2 ^ br.radix ≤ 65536 := Nat.pow_le_pow_right (by decide) href.radix.2
                have hsmall := hcomp.fits
                rw [if_neg hne, if_pos hc, if_neg (by omega)]
                have hboot' : lz4DecompressBlock
                    (bytesAt (block d br.off) 4 (le (block d br.off) 0 4)) 65536 =
                    some (Lz4.decode [] qs last) := hboot
                rw [hboot']
                refine ⟨u, _, rfl, hubase, ?_⟩
                rintro blk lsize ⟨⟩
                refine ⟨rfl, fun o ho hcov => hbyte o _ ho ?_⟩
                have hmeetso : br.meets o o = true := (href.meets hfits o).mpr (by rw [hkey, ho])
                have hin := hcov br hbr htype hc hmeetso _ hboot
                refine ⟨_, by rw [readCompletion, if_pos hc], ?_⟩
                rw [hkernel, filled, List.getD_eq_getElem _ _ hin]
                exact (List.getD_eq_getElem _ _ hin).symm

end Block

/-! ## Reading -/

section Read

variable {lz4Safe : List UInt8 → Nat → Option (List UInt8)} {d : Mem} {env : Env} {n depth : Nat}
  {w : World} {ino : Mem} {size pos : Nat}

/-- What has been copied is what the kernel reads from the position `pos` on. -/
def Right (lz4Safe : List UInt8 → Nat → Option (List UInt8)) (d : Mem) (n : Nat) (ino : Mem)
    (pos : Nat) (dst : List UInt8) : Prop :=
  ∀ i b, dst[i]? = some b → ByteAt lz4Safe d n ino (pos + i) b

theorem Right.append {dst : List UInt8} (h : Right lz4Safe d n ino pos dst) {m : Mem}
    {start len : Nat}
    (hm : ∀ i < len, ByteAt lz4Safe d n ino (pos + dst.length + i) (m (start + i))) :
    Right lz4Safe d n ino pos (dst ++ bytesAt m start len) := by
  intro i b hb
  rcases Nat.lt_or_ge i dst.length with hlt | hge
  · rw [List.getElem?_append_left hlt] at hb
    exact h i b hb
  · rw [List.getElem?_append_right hge] at hb
    obtain ⟨hlt, hget⟩ := List.getElem?_eq_some_iff.mp hb
    rw [bytesAt, List.length_map, List.length_range] at hlt
    simp only [bytesAt, List.getElem_map, List.getElem_range] at hget
    have hbyte := hm _ hlt
    rw [hget, Nat.add_assoc, Nat.add_sub_cancel' hge] at hbyte
    exact hbyte

/-- **The loop** of `hammer2_read`. -/
theorem readLoop_spec (hsafe : Decodes lz4Safe) (himg : FileImage d n) (h : Quiet env)
    (hle : n ≤ depth) (hino : Below d n ino) (hdata : directdata ino = false)
    (hcov : ∀ o, pos ≤ o → o < pos + size → o < inoSize ino → Covered d n ino o) :
    ∀ (rounds : Nat) (dst : List UInt8) (w : World), w.base = 0 → Right lz4Safe d n ino pos dst →
    dst.length ≤ size → dst.length ≤ inoSize ino - pos → size ≤ dst.length + rounds →
    ∃ w' e dst', readLoop d env depth ino size rounds (pos + dst.length) dst w =
        some ((e, pos + dst'.length, dst'), w') ∧ w'.base = 0 ∧ Right lz4Safe d n ino pos dst' ∧
      (e = none → dst'.length = min size (inoSize ino - pos))
  | 0, dst, w, hw, hright, hsize, hfile, hrounds => by
      refine ⟨w, none, dst, rfl, hw, hright, fun _ => ?_⟩
      omega
  | rounds + 1, dst, w, hw, hright, hsize, hfile, hrounds => by
      rw [readLoop]
      split
      · rename_i hmore
        have halloc : alloc env w = some (env.alloc w.allocs, { w with allocs := w.allocs + 1 }) := rfl
        rw [bind_run, halloc, Option.bind_some]
        cases env.alloc w.allocs with
        | none => exact ⟨_, some .enomem, dst, rfl, hw, hright, nofun⟩
        | some blk =>
            obtain ⟨v, res, hv, hbase, hblock⟩ := @readblock_spec lz4Safe d env n depth
              { w with allocs := w.allocs + 1 } ino hsafe himg h hle hino hdata (pos + dst.length) blk
              hw
            dsimp only
            rw [bind_run, hv, Option.bind_some]
            cases res with
            | error e => exact ⟨v, some e, dst, rfl, hbase, hright, nofun⟩
            | ok p =>
                obtain ⟨blk', lsize⟩ := p
                obtain ⟨rfl, hbytes⟩ := hblock blk' lsize rfl
                -- A round copies what is left of the block, of the request and of the file.
                let boff := (pos + dst.length) % 65536
                let chunk := min (min (size - dst.length) (65536 - boff))
                  (inoSize ino - (pos + dst.length))
                have hboff : boff < 65536 := Nat.mod_lt _ (by decide)
                have hchunk : 1 ≤ chunk ∧ chunk ≤ size - dst.length ∧ chunk ≤ 65536 - boff ∧
                    chunk ≤ inoSize ino - (pos + dst.length) := by omega
                obtain ⟨hpos, hleft, hblk, hend⟩ := hchunk
                have hmore' : Right lz4Safe d n ino pos (dst ++ bytesAt blk' boff chunk) := by
                  refine hright.append fun i hi => ?_
                  have hmod : (pos + dst.length + i) % 65536 = boff + i := by omega
                  rw [← hmod]
                  refine hbytes _ ?_ (hcov _ (by omega) (by omega) (by omega))
                  unfold lbase
                  omega
                have hlen : (dst ++ bytesAt blk' boff chunk).length = dst.length + chunk := by
                  rw [List.length_append, bytesAt, List.length_map, List.length_range]
                obtain ⟨u, e, dst', hu, hubase, hright', hdone⟩ :=
                  readLoop_spec hsafe himg h hle hino hdata hcov rounds _ v hbase hmore'
                    (by rw [hlen]; omega) (by rw [hlen]; omega) (by rw [hlen]; omega)
                rw [hlen, ← Nat.add_assoc] at hu
                refine ⟨u, e, dst', ?_, hubase, hright', hdone⟩
                have hgo : ¬ chunk = 0 := by omega
                dsimp only
                rw [if_neg hgo]
                exact hu
      · rename_i hend
        refine ⟨w, none, dst, rfl, hw, hright, fun _ => ?_⟩
        omega

/-- **One read.** -/
theorem read_spec (hsafe : Decodes lz4Safe) (himg : FileImage d n) (h : Quiet env)
    (hle : n ≤ depth) (f : File) (hino : Below d n f.ino)
    (hcov : directdata f.ino = false → ∀ o, f.seek ≤ o → o < f.seek + size → o < inoSize f.ino →
      Covered d n f.ino o) (hw : w.base = 0) :
    ∃ w' e dst, read d env depth f size w =
        some ((e, dst, { f with seek := f.seek + dst.length }), w') ∧ w'.base = 0 ∧
      Right lz4Safe d n f.ino f.seek dst ∧
      (e = none → dst.length = min size (inoSize f.ino - f.seek)) := by
  unfold read
  cases hdata : directdata f.ino with
  | true =>
      have hlen : (bytesAt f.ino (0x200 + f.seek) (min size (inoSize f.ino - f.seek))).length =
          min size (inoSize f.ino - f.seek) := by
        rw [bytesAt, List.length_map, List.length_range]
      have hsmall := (himg.embedded f.ino hino hdata).1
      refine ⟨w, none, bytesAt f.ino (0x200 + f.seek) (min size (inoSize f.ino - f.seek)), ?_, hw, ?_,
        fun _ => hlen⟩
      · rw [hlen]
        rfl
      · have hright := @Right.append lz4Safe d n f.ino f.seek [] nofun f.ino (0x200 + f.seek)
          (min size (inoSize f.ino - f.seek))
        refine hright fun i hi => ?_
        have hpos : f.seek + ([] : List UInt8).length + i = f.seek + i := rfl
        rw [ByteAt, hdata, if_pos rfl, hpos, if_pos (by omega), Nat.add_assoc]
  | false =>
      obtain ⟨v, e, dst, hv, hbase, hright, hdone⟩ := @readLoop_spec lz4Safe d env n depth f.ino size
        f.seek hsafe himg h hle hino hdata (hcov hdata) size [] w hw nofun (Nat.zero_le _)
        (Nat.zero_le _) (by rw [List.length_nil]; omega)
      refine ⟨v, e, dst, ?_, hbase, hright, hdone⟩
      have hpos : f.seek + ([] : List UInt8).length = f.seek := rfl
      rw [hpos] at hv
      rw [if_neg Bool.false_ne_true, bind_run, hv, Option.bind_some]
      rfl

/-- The kernel reads one byte at a position. -/
theorem ByteAt.unique (himg : FileImage d n) (hino : Below d n ino) {o : Nat} {b b' : UInt8}
    (h : ByteAt lz4Safe d n ino o b) (h' : ByteAt lz4Safe d n ino o b') : b = b' := by
  unfold ByteAt at h h'
  cases hdata : directdata ino with
  | true =>
      rw [hdata, if_pos rfl] at h h'
      rw [h, h']
  | false =>
      obtain ⟨htree, _⟩ := himg.tree ino hino hdata
      rw [hdata, if_neg Bool.false_ne_true] at h h'
      rcases h with ⟨br, hbr, htype, hmeets, buf, hbuf, rfl⟩ | ⟨hnone, rfl⟩
      · rcases h' with ⟨br', hbr', _, hmeets', buf', hbuf', rfl⟩ | ⟨hnone, _⟩
        · have hin := meets_iff.mp hmeets
          have hin' := meets_iff.mp hmeets'
          cases htree.table.unique hbr hbr' ⟨hin.2, hin.1⟩ ⟨hin'.2, hin'.1⟩
          cases hbuf.symm.trans hbuf'
          rfl
        · exact absurd htype (hnone br hbr hmeets)
      · rcases h' with ⟨br', hbr', htype, hmeets, _⟩ | ⟨_, rfl⟩
        · exact absurd htype (hnone br' hbr' hmeets)
        · rfl

end Read

/-! ## Runs -/

/-- What a call returns. -/
inductive Outcome
  | none
  | opened
  | moved
  | data (bs : List UInt8)
  | failed (e : Errno)
deriving DecidableEq

def readOutcome : Option Errno → List UInt8 → Outcome
  | some e, _ => .failed e
  | none, bs => .data bs

/-- The open files; `base` is `h2_base`. -/
structure Sys where
  base : Nat
  files : Nat → Option File
  out : Outcome

def Sys.start : Sys := ⟨0, fun _ => none, .none⟩

def Sys.put (s : Sys) (fd : Nat) (f : Option File) : Nat → Option File :=
  fun k => if k = fd then f else s.files k

/-- A call, and what fails in it. -/
inductive Ev
  | open_ (fd : Nat) (path : List UInt8) (env : Env)
  | seek (fd : Nat) (offset : Int) (whence : Whence)
  | read (fd size : Nat) (env : Env)

section Step

variable (lz4Safe : List UInt8 → Nat → Option (List UInt8)) (icrc32 : List UInt8 → UInt32) (d : Mem)
  (n depth : Nat)

def step (s : Sys) : Ev → Option Sys
  | .open_ fd path env => do
      let (res, w) ← open_ d env depth path ⟨s.base, 0, 0, 0, 0⟩
      match res with
      | .ok f => some ⟨w.base, s.put fd (some f), .opened⟩
      | .error e => some ⟨w.base, s.put fd none, .failed e⟩
  | .seek fd offset whence => do
      let f ← s.files fd
      if seekTo f offset whence < 0 then none
      else some ⟨s.base, s.put fd (some { f with seek := (seekTo f offset whence).toNat }), .moved⟩
  | .read fd size env => do
      let f ← s.files fd
      let ((e, bs, f), w) ← read d env depth f size ⟨s.base, 0, 0, 0, 0⟩
      some ⟨w.base, s.put fd (some f), readOutcome e bs⟩

/-- The calls that there are: on open files, with offsets in range and components of legal
length. -/
def Ok (s : Sys) : Ev → Prop
  | .open_ _ path _ => ∀ c ∈ splitPath path, c.length ≤ 255
  | .seek fd offset whence => ∃ f, s.files fd = some f ∧ 0 ≤ seekTo f offset whence
  | .read fd _ _ => ∃ f, s.files fd = some f

/-- No call inside a scan fails, nor the read of the volume header to mount; a long name is not
there; blocks hold what is asked for. -/
def Safe (s : Sys) : Ev → Prop
  | .open_ _ path env => Quiet env ∧ (∀ b, Best d b → env.read b = true) ∧
      ∀ root, RootInode icrc32 d n root → LongAbsent icrc32 d n root (splitPath path) root
  | .seek _ _ _ => True
  | .read fd size env => Quiet env ∧ ∀ f, s.files fd = some f → directdata f.ino = false →
      ∀ o, f.seek ≤ o → o < f.seek + size → o < inoSize f.ino → Covered d n f.ino o

/-- The step from `s` to `t` does what the kernel would do. -/
def Agrees (s : Sys) : Ev → Sys → Prop
  | .open_ fd path _, t =>
      match t.out with
      | .opened => ∃ f, t.files fd = some f ∧ f.seek = 0 ∧
          ∀ ino, Resolves icrc32 d n path ino ↔ ino = f.ino
      | .failed e => e = .enoent → ∀ ino, ¬ Resolves icrc32 d n path ino
      | _ => False
  | .seek fd offset whence, t => ∃ f f', s.files fd = some f ∧ t.files fd = some f' ∧
      f'.ino = f.ino ∧ f'.seek = seekTo f offset whence
  | .read fd size _, t => ∃ f f', s.files fd = some f ∧ t.files fd = some f' ∧ f'.ino = f.ino ∧
      match t.out with
      | .data bs => bs.length = min size (inoSize f.ino - f.seek) ∧ f'.seek = f.seek + bs.length ∧
          ∀ i b, bs[i]? = some b → ∀ b', ByteAt lz4Safe d n f.ino (f.seek + i) b' ↔ b' = b
      | .failed _ => True
      | _ => False

end Step

section Run

variable {lz4Safe : List UInt8 → Nat → Option (List UInt8)} {icrc32 : List UInt8 → UInt32} {d : Mem}
  {n depth : Nat} {s t : Sys} {e : Ev}

/-- What holds between two calls. -/
structure Inv (d : Mem) (n : Nat) (s : Sys) : Prop where
  base : s.base = 0
  below : ∀ fd f, s.files fd = some f → Below d n f.ino

theorem Sys.put_same (s : Sys) (fd : Nat) (f : Option File) : s.put fd f fd = f := if_pos rfl

theorem Inv.put (h : Inv d n s) {fd : Nat} {f : Option File} (hf : ∀ g, f = some g → Below d n g.ino)
    (out : Outcome) : Inv d n ⟨0, s.put fd f, out⟩ := by
  refine ⟨rfl, fun k g hg => ?_⟩
  rcases eq_or_ne k fd with rfl | hne
  · exact hf g ((s.put_same k f).symm.trans hg)
  · exact h.below k g ((if_neg hne).symm.trans hg)

/-- **One call.** -/
theorem step_agrees (hcrc : Castagnoli icrc32) (hsafe : Decodes lz4Safe) (himg : FileImage d n)
    (hle : n ≤ depth) (h : Inv d n s) (hok : Ok s e) (hgood : Safe icrc32 d n s e) :
    ∃ t, step d depth s e = some t ∧ Inv d n t ∧ Agrees lz4Safe icrc32 d n s e t := by
  cases e with
  | open_ fd path env =>
      obtain ⟨hquiet, hbest, hlong⟩ := hgood
      obtain ⟨w, res, hw, hbase, hfound, hnone⟩ := @open_spec icrc32 d env n depth ⟨s.base, 0, 0, 0, 0⟩
        hcrc himg.toImage hquiet hle hbest path hok hlong h.base rfl
      rw [step, hw]
      cases res with
      | error e =>
          refine ⟨⟨w.base, s.put fd none, .failed e⟩, rfl, ?_, ?_⟩
          · rw [hbase]
            exact h.put (fun g hg => by cases hg) _
          · rintro rfl
            exact hnone rfl
      | ok f =>
          obtain ⟨hres, hbelow, hseek⟩ := hfound f rfl
          refine ⟨⟨w.base, s.put fd (some f), .opened⟩, rfl, ?_, f, s.put_same fd _, hseek, fun ino => ?_⟩
          · rw [hbase]
            refine h.put ?_ _
            rintro _ ⟨⟩
            exact hbelow
          · constructor
            · intro hino
              exact hino.unique himg.toImage hres
            · rintro rfl
              exact hres
  | seek fd offset whence =>
      obtain ⟨f, hf, hpos⟩ := hok
      refine ⟨⟨s.base, s.put fd (some { f with seek := (seekTo f offset whence).toNat }), .moved⟩,
        ?_, ?_, f, _, hf, s.put_same fd _, rfl, Int.toNat_of_nonneg hpos⟩
      · rw [step, hf]
        exact if_neg (Int.not_lt.mpr hpos)
      · rw [h.base]
        refine h.put ?_ _
        rintro _ ⟨⟩
        exact h.below fd f hf
  | read fd size env =>
      obtain ⟨f, hf⟩ := hok
      obtain ⟨hquiet, hcov⟩ := hgood
      obtain ⟨w, e, dst, hw, hbase, hright, hdone⟩ := @read_spec lz4Safe d env n depth
        ⟨s.base, 0, 0, 0, 0⟩ size hsafe himg hquiet hle f (h.below fd f hf) (hcov f hf) h.base
      have hstep : step d depth s (.read fd size env) = some ⟨w.base,
          s.put fd (some { f with seek := f.seek + dst.length }),
          readOutcome e dst⟩ := by
        show (s.files fd).bind (fun f => (read d env depth f size ⟨s.base, 0, 0, 0, 0⟩).bind _) = _
        rw [hf, Option.bind_some, hw]
        rfl
      refine ⟨_, hstep, ?_, f, _, hf, s.put_same fd _, rfl, ?_⟩
      · rw [hbase]
        refine h.put ?_ _
        rintro _ ⟨⟩
        exact h.below fd f hf
      · cases e with
        | some e => trivial
        | none =>
            refine ⟨hdone rfl, rfl, fun i b hb b' => ?_⟩
            have hbyte := hright i b hb
            constructor
            · intro hb'
              exact hb'.unique himg (h.below fd f hf) hbyte
            · rintro rfl
              exact hbyte

end Run

/-! ## One file -/

/-- A device by its bytes that are not zero. -/
def device (segs : List (Nat × List UInt8)) : Mem := fun i =>
  match segs.find? fun s => decide (s.1 ≤ i ∧ i < s.1 + s.2.length) with
  | some s => s.2.getD (i - s.1) 0
  | none => 0

/-- A volume header at 0, the super-root at 0x20000, the inode of `ROOT` after it, and a file
`a` of four bytes. -/
def oneFile : Mem := device [
  (0x0, [0x11, 0x20, 0x17, 0x05, 0x32, 0x4d, 0x41, 0x48]), (0x78, [1]),
  (0x200, [1]), (0x220, [0x0a, 0x00, 0x02]),
  (0x20200, [1]), (0x20208, [0, 128, 11, 109, 220, 221, 215, 176]), (0x20220, [0x0a, 0x04, 0x02]),
  (0x20450, [1]), (0x20458, [1]), (0x20480, [4]), (0x20500, pfsLabel),
  (0x20600, [1]), (0x20608, [2]), (0x20620, [0x0a, 0x08, 0x02]),
  (0x20680, [4]), (0x20688, [0, 128, 224, 130, 48, 67, 208, 193]), (0x206b0, [2]), (0x206b8, [1]),
  (0x206c0, [97]),
  (0x20850, [2]), (0x20858, [2]), (0x20860, [4]),
  (0x20a00, [3]), (0x20a03, [16]), (0x20a20, [0x09, 0x0c, 0x02]),
  (0x20c00, [98, 111, 111, 116])]

def blankRef : Blockref := ⟨0, 0, 0, 0, 0, 0, 0, List.replicate 64 0⟩

def rootRef : Blockref :=
  { blankRef with type := 1, key := 12742897609460121600, dataOff := 0x2040a }

def fileRef : Blockref := { blankRef with type := 1, key := 2, dataOff := 0x2080a }

def nameRef : Blockref :=
  { blankRef with
    type := 4, key := 13965736320109150208, inum := 2, namlen := 1
    check := 97 :: List.replicate 63 0 }

def dataRef : Blockref := { blankRef with type := 3, keybits := 16, dataOff := 0x20c09 }

def rootIno : Mem := block oneFile 0x20400
def fileIno : Mem := block oneFile 0x20800

theorem sroot_blockset : inoBlockset (block oneFile 0x20000) =
    [rootRef, blankRef, blankRef, blankRef] := by
  decide

theorem root_blockset : inoBlockset rootIno = [fileRef, nameRef, blankRef, blankRef] := by
  decide

theorem file_blockset : inoBlockset fileIno = [dataRef, blankRef, blankRef, blankRef] := by
  decide

theorem sroot_leaves : leaves oneFile 0 (inoBlockset (block oneFile 0x20000)) = [rootRef] := by
  rw [sroot_blockset]
  decide

theorem root_leaves : leaves oneFile 0 (inoBlockset rootIno) = [fileRef, nameRef] := by
  rw [root_blockset]
  decide

theorem file_leaves : leaves oneFile 0 (inoBlockset fileIno) = [dataRef] := by
  rw [file_blockset]
  decide

theorem table_of {bs : List Blockref}
    (hfits : ∀ br ∈ bs, br.keybits.toNat ≤ 64 ∧ br.key + 2 ^ br.keybits.toNat ≤ 2 ^ 64)
    (hapart : bs.Pairwise fun a b => a.type ≠ brefTypeEmpty → b.type ≠ brefTypeEmpty →
      a.hi < b.lo ∨ b.hi < a.lo) (hleaf : ∀ br ∈ bs, br.type ≠ brefTypeIndirect) :
    Table oneFile 0 bs :=
  ⟨⟨fun br hbr _ => ⟨(hfits br hbr).1, (hfits br hbr).2⟩, hapart⟩, hleaf⟩

theorem best_oneFile {i : Nat} : Best oneFile i ↔ i = 0 := by
  have hmagic : ∀ j < 4, volMagic (block oneFile (volOff j)) = volumeIdHbo → j = 0 := by
    unfold volOff
    decide
  have hzero : volMagic (block oneFile (volOff 0)) = volumeIdHbo := by
    unfold volOff
    decide
  constructor
  · intro h
    exact hmagic i h.lt h.magic
  · rintro rfl
    refine ⟨by decide, hzero, fun j hj hvalid => ?_, fun j hj => absurd hj (Nat.not_lt_zero j)⟩
    obtain rfl := hmagic j hj hvalid
    exact Nat.le_refl _

theorem superRoot_oneFile : superRoot oneFile 0 = { blankRef with type := 1, dataOff := 0x2000a } := by
  unfold superRoot volOff
  decide

theorem below_oneFile {ino : Mem} (h : Below oneFile 0 ino) : ino = rootIno ∨ ino = fileIno := by
  induction h with
  | pfs hi hbr htype =>
      obtain rfl := best_oneFile.mp hi
      have hoff : (superRoot oneFile 0).off = 0x20000 := by
        rw [superRoot_oneFile]
        decide
      rw [hoff, sroot_leaves] at hbr
      obtain rfl := List.mem_singleton.mp hbr
      exact .inl rfl
  | leaf _ _ hbr htype ih =>
      rcases ih with rfl | rfl
      · rw [root_leaves] at hbr
        rcases List.mem_cons.mp hbr with rfl | hbr
        · exact .inr rfl
        · obtain rfl := List.mem_singleton.mp hbr
          cases htype
      · rw [file_leaves] at hbr
        obtain rfl := List.mem_singleton.mp hbr
        cases htype

theorem image_oneFile : FileImage oneFile 0 where
  best := ⟨0, best_oneFile.mpr rfl⟩
  sroot := by
    intro i hi
    obtain rfl := best_oneFile.mp hi
    have hoff : (superRoot oneFile 0).off = 0x20000 := by
      rw [superRoot_oneFile]
      decide
    have href : InodeRef (superRoot oneFile 0) := by
      rw [superRoot_oneFile]
      exact ⟨by decide, by decide⟩
    refine ⟨by rw [superRoot_oneFile]; rfl, href, ?_⟩
    rw [hoff]
    have hroot : inoType (block oneFile rootRef.off) = objtypeDirectory := by decide
    refine ⟨⟨?_, ?_, ?_⟩, ?_⟩
    · rw [sroot_blockset]
      exact table_of (by decide) (by decide) (by decide)
    · rw [sroot_leaves]
      intro br hbr _
      obtain rfl := List.mem_singleton.mp hbr
      exact ⟨by decide, by decide⟩
    · rw [sroot_leaves]
      intro br hbr br' hbr' _ _ _
      rw [List.mem_singleton.mp hbr, List.mem_singleton.mp hbr']
    · rw [sroot_leaves]
      intro br hbr
      obtain rfl := List.mem_singleton.mp hbr
      exact ⟨rfl, hroot⟩
  tree := by
    intro ino hino _
    rcases below_oneFile hino with rfl | rfl
    · have hnum : inoInum (block oneFile fileRef.off) = fileRef.key := by decide
      have hname : inoNamelen (block oneFile fileRef.off) = 0 := by decide
      refine ⟨⟨?_, ?_, ?_⟩, ⟨?_⟩⟩
      · rw [root_blockset]
        exact table_of (by decide) (by decide) (by decide)
      · rw [root_leaves]
        intro br hbr htype
        rcases List.mem_cons.mp hbr with rfl | hbr
        · exact ⟨by decide, by decide⟩
        · obtain rfl := List.mem_singleton.mp hbr
          cases htype
      · -- The inode has no name, and the entry has one.
        have htest : ∀ name, direntTest oneFile fileRef name = true →
            direntTest oneFile nameRef name = true → False := by
          intro name h h'
          have hino : inoNamed (block oneFile fileRef.off) name = true := h
          have hlen : ((1 : Nat) == name.length) = true := (Bool.and_eq_true_iff.mp h').1
          unfold inoNamed at hino
          rw [hname, Bool.and_eq_true, beq_iff_eq] at hino
          rw [beq_iff_eq] at hlen
          omega
        rw [root_leaves]
        intro br hbr br' hbr' name h h'
        rcases List.mem_cons.mp hbr with rfl | hbr
        · rcases List.mem_cons.mp hbr' with rfl | hbr'
          · rfl
          · obtain rfl := List.mem_singleton.mp hbr'
            exact (htest name h h').elim
        · obtain rfl := List.mem_singleton.mp hbr
          rcases List.mem_cons.mp hbr' with rfl | hbr'
          · exact (htest name h' h).elim
          · exact (List.mem_singleton.mp hbr').symm
      · rw [root_leaves]
        intro br hbr htype
        rcases List.mem_cons.mp hbr with rfl | hbr
        · exact ⟨rfl, by decide, hnum⟩
        · obtain rfl := List.mem_singleton.mp hbr
          cases htype
    · refine ⟨⟨?_, ?_, ?_⟩, ⟨?_⟩⟩
      · rw [file_blockset]
        exact table_of (by decide) (by decide) (by decide)
      · rw [file_leaves]
        intro br hbr htype
        obtain rfl := List.mem_singleton.mp hbr
        cases htype
      · rw [file_leaves]
        intro br hbr br' hbr' _ _ _
        rw [List.mem_singleton.mp hbr, List.mem_singleton.mp hbr']
      · rw [file_leaves]
        intro br hbr htype
        obtain rfl := List.mem_singleton.mp hbr
        cases htype
  embedded := by
    have hroot : directdata rootIno = false := by decide
    have hfile : directdata fileIno = false := by decide
    intro ino hino hdata
    rcases below_oneFile hino with rfl | rfl
    · rw [hroot] at hdata
      cases hdata
    · rw [hfile] at hdata
      cases hdata
  data := by
    intro ino hino _ br hbr htype
    rcases below_oneFile hino with rfl | rfl
    · rw [root_leaves] at hbr
      rcases List.mem_cons.mp hbr with rfl | hbr
      · cases htype
      · obtain rfl := List.mem_singleton.mp hbr
        cases htype
    · rw [file_leaves] at hbr
      obtain rfl := List.mem_singleton.mp hbr
      exact ⟨rfl, rfl, ⟨by decide, by decide⟩, by decide, .inl rfl⟩

/-- Nothing fails. -/
def quiet : Env := ⟨fun _ => true, fun _ => true, fun _ => true, fun _ => some fun _ => 0⟩

/-- Every read inside a scan fails. -/
def blind : Env := { quiet with scanRead := fun _ => false }

def crc32c (bs : List UInt8) : UInt32 := ⟨h2Icrc32 bs⟩

/-- `/a` -/
def pathA : List UInt8 := [47, 97]

theorem decodes_lz4DecompressBlock : Decodes lz4DecompressBlock :=
  fun _ _ _ hlegal _ hfits => lz4DecompressBlock_encode hlegal hfits

theorem longAbsent_of_short {icrc32 : List UInt8 → UInt32} {d : Mem} {n : Nat} {root : Mem} :
    ∀ {comps : List (List UInt8)} {ino : Mem}, (∀ c ∈ comps, c.length ≤ 64) →
    LongAbsent icrc32 d n root comps ino
  | [], _, _ => trivial
  | comp :: comps, ino, h => by
      have hshort := h comp List.mem_cons_self
      refine ⟨fun hlong => absurd hlong (Nat.not_lt.mpr hshort), fun next _ => ?_⟩
      exact longAbsent_of_short fun c hc => h c (List.mem_cons_of_mem _ hc)

theorem resolves_oneFile : Resolves crc32c oneFile 0 pathA fileIno := by
  have hcrc : Castagnoli crc32c := fun _ => rfl
  have hroot : rootRef.meets (Dir.dirhash crc32c pfsLabel)
      (Dir.dirhash crc32c pfsLabel + dirhashLomask) = true := by
    rw [← h2Dirhash_eq hcrc]
    decide
  have hname : nameRef.meets (Dir.dirhash crc32c [97]) (Dir.dirhash crc32c [97] + dirhashLomask) =
      true := by
    rw [← h2Dirhash_eq hcrc]
    decide
  have hsplit : splitPath pathA = [[97]] := by decide
  have hoff : (superRoot oneFile 0).off = 0x20000 := by
    rw [superRoot_oneFile]
    decide
  have htest : direntTest oneFile rootRef pfsLabel = true := by decide
  have htype : inoType rootIno = objtypeDirectory := by decide
  have hsame : inoInum (block oneFile fileRef.off) = nameRef.inum := by decide
  refine ⟨rootIno, ⟨0, best_oneFile.mpr rfl, ?_⟩, ?_⟩
  · rw [hoff]
    have hmem : rootRef ∈ leaves oneFile 0 (inoBlockset (block oneFile 0x20000)) := by
      rw [sroot_leaves]
      exact List.mem_singleton_self _
    exact .inode hmem hroot htest rfl
  · rw [hsplit]
    refine ⟨htype, fileIno, ?_, rfl⟩
    have hmem : nameRef ∈ leaves oneFile 0 (inoBlockset rootIno) := by
      rw [root_leaves]
      decide
    have hino : fileRef ∈ leaves oneFile 0 (inoBlockset rootIno) := by
      rw [root_leaves]
      decide
    exact .dirent hmem hname (by decide) rfl hino (by decide) rfl hsame

end Hammer2.Boot
