/-
# `Hammer2.Dedup.Dio` — the dedup masks of the device buffers

Every 64KB device buffer (DIO) that is in memory carries two masks of 64 bits, one bit for
each 1KB fragment: `dedup_alloc`, set when the freemap hands the fragment out for file data,
and `dedup_valid`, set when its data is known to be on media.  A live dedup may use a range
whose bits are all set in both.

    dedupMask        hammer2_dedup_mask
    dedupSet         hammer2_io_dedup_set
    dedupDelete      hammer2_io_dedup_delete
    dedupAssert      hammer2_io_dedup_assert
    dedupRecord      hammer2_dedup_record
    dedupLookup      hammer2_dedup_lookup
-/
import Hammer2.Disk
import Hammer2.Lib.BitField
import Mathlib.Logic.Function.Basic

namespace Hammer2.Dedup

open BitField

abbrev dedupFrag : Nat := 1024
abbrev dedupHeurSize : Nat := 262144
/-- `HAMMER2_OFF_MASK_RADIX`: the low bits of an offset that carry its radix. -/
abbrev offRadix : Nat := 64

/-! ## The mask of a range -/

/-- The first fragment of a range. -/
def dedupBeg (pbase dataOff : Nat) : Nat := (dataOff / offRadix * offRadix - pbase) / dedupFrag

/-- The number of fragments of a size. -/
def dedupBits (bytes : Nat) : Nat := (bytes + (dedupFrag - 1)) / dedupFrag

/-- `hammer2_dedup_mask`, of a buffer at `pbase`. -/
def dedupMask (pbase dataOff bytes : Nat) : BitVec 64 :=
  fieldMask (dedupBeg pbase dataOff + dedupBits bytes) &&& ~~~((1#64 <<< dedupBeg pbase dataOff) - 1#64)

/-- The range lies in the buffer at `pbase`. -/
structure InDio (pbase dataOff bytes : Nat) : Prop where
  base : pbase ≤ dataOff / offRadix * offRadix
  lt : dataOff / offRadix * offRadix < pbase + pbufSize
  stop : dataOff / offRadix * offRadix + bytes ≤ pbase + pbufSize

theorem InDio.bits {pbase dataOff bytes : Nat} (h : InDio pbase dataOff bytes) :
    dedupBeg pbase dataOff < 64 ∧ dedupBeg pbase dataOff + dedupBits bytes ≤ 64 := by
  obtain ⟨hbase, hlt, hstop⟩ := h
  unfold dedupBeg dedupBits
  generalize dataOff / offRadix * offRadix = off at *
  simp only [pbufSize, dedupFrag] at *
  omega

theorem getLsbD_dedupMask {pbase dataOff bytes : Nat} (h : InDio pbase dataOff bytes) (k : Nat) :
    (dedupMask pbase dataOff bytes).getLsbD k =
      decide (dedupBeg pbase dataOff ≤ k ∧ k < dedupBeg pbase dataOff + dedupBits bytes) := by
  obtain ⟨hlt, hle⟩ := h.bits
  have hlow : (1#64 <<< dedupBeg pbase dataOff) - 1#64 = fieldMask (dedupBeg pbase dataOff) :=
    (if_neg (Nat.ne_of_lt hlt)).symm
  rw [dedupMask, hlow, BitVec.getLsbD_and, BitVec.getLsbD_not, getLsbD_fieldMask hle,
    getLsbD_fieldMask (by omega)]
  by_cases hk : k < 64
  · rw [decide_eq_true hk, Bool.true_and, ← decide_not, ← Bool.decide_and, decide_eq_decide]
    omega
  · rw [decide_eq_false hk, Bool.false_and, Bool.and_false, eq_comm, decide_eq_false_iff_not]
    omega

/-- **The mask covers the range**: every fragment inside it, and when the range begins on a
fragment boundary every fragment it touches. -/
theorem dedupMask_covers {pbase dataOff bytes f : Nat} (h : InDio pbase dataOff bytes)
    (hf : (dataOff / offRadix * offRadix ≤ pbase + f * dedupFrag ∧
        pbase + (f + 1) * dedupFrag ≤ dataOff / offRadix * offRadix + bytes) ∨
      ((dataOff / offRadix * offRadix - pbase) % dedupFrag = 0 ∧
        dataOff / offRadix * offRadix < pbase + (f + 1) * dedupFrag ∧
        pbase + f * dedupFrag < dataOff / offRadix * offRadix + bytes)) :
    (dedupMask pbase dataOff bytes).getLsbD f = true := by
  rw [getLsbD_dedupMask h, decide_eq_true_iff]
  obtain ⟨hbase, hlt, hstop⟩ := h
  unfold dedupBeg dedupBits
  generalize dataOff / offRadix * offRadix = off at *
  simp only [pbufSize, dedupFrag] at *
  omega

/-! ## The masks in the buffers -/

/-- The masks of a buffer. -/
structure Dio where
  dedupAlloc : BitVec 64
  dedupValid : BitVec 64
deriving DecidableEq

/-- The buffers in memory, by their base. -/
abbrev Dios := Nat → Option Dio

/-- The size the radix of an offset says. -/
def offBytes (dataOff : Nat) : Nat := if dataOff % offRadix ≠ 0 then 1 <<< (dataOff % offRadix) else 0

/-- The base of the buffer of a range as `hammer2_io_alloc` computes it; `none` is its panic. -/
def ioBase (dataOff : Nat) : Option Nat :=
  let lbase := dataOff / offRadix * offRadix
  let pbase := lbase / pbufSize * pbufSize
  if pbase = 0 ∨ (lbase + offBytes dataOff - 1) / pbufSize * pbufSize ≠ pbase then none else some pbase

/-- `hammer2_io_dedup_set`; the buffer is created when it is not in memory. -/
def dedupSet (dios : Dios) (dataOff : Nat) : Option Dios :=
  (ioBase dataOff).map fun pbase =>
    let dio := (dios pbase).getD ⟨0, 0⟩
    let mask := dedupMask pbase dataOff (offBytes dataOff)
    Function.update dios pbase (some ⟨dio.dedupAlloc ||| mask, dio.dedupValid &&& ~~~mask⟩)

/-- `hammer2_io_dedup_delete` -/
def dedupDelete (dios : Dios) (btype dataOff bytes : Nat) : Option Dios :=
  if dataOff / offRadix * offRadix = 0 then some dios
  else if btype ≠ brefTypeData then some dios
  else
    (ioBase dataOff).bind fun pbase =>
      match dios pbase with
      | none => some dios
      | some dio =>
          if dataOff < pbase ∨ dataOff / offRadix * offRadix + bytes > pbase + pbufSize then none
          else
            let mask := dedupMask pbase dataOff bytes
            some (Function.update dios pbase
              (some ⟨dio.dedupAlloc &&& ~~~mask, dio.dedupValid &&& ~~~mask⟩))

/-- `hammer2_io_dedup_assert`: whether its assertion holds; `none` is the panic of
`hammer2_io_alloc`. -/
def dedupAssert (dios : Dios) (dataOff bytes : Nat) : Option Bool :=
  (ioBase dataOff).map fun pbase =>
    match dios pbase with
    | none => true
    | some dio => dio.dedupAlloc &&& dedupMask pbase dataOff bytes = 0#64

/-! ## The heuristic table -/

/-- `hammer2_dedup_t` -/
structure DedupEntry where
  dataOff : Nat
  dataCrc : Nat
  ticks : BitVec 32
deriving DecidableEq

abbrev Heur := Nat → DedupEntry

/-- The set of four entries a check code hashes to. -/
def dedupIndex (crc : Nat) : Nat := crc % dedupHeurSize / 4 * 4

/-- The loop that picks the entry to replace, `n` entries of the set still to be looked at. -/
def dedupBest (heur : Heur) (base crc : Nat) (hz : Int) : Nat → Nat → Nat
  | 0, best => best
  | n + 1, best =>
      let i := 3 - n
      if (heur (base + i)).dataCrc = crc then i
      else
        let dticks := ((heur (base + i)).ticks - (heur (base + best)).ticks).toInt
        dedupBest heur base crc hz n (if dticks < 0 ∨ dticks > hz * 60 * 30 then i else best)

/-- What `hammer2_dedup_record` reads of a chain: its check method, its offset and size, and
the check code of its data. -/
structure Recorded where
  check : Nat
  dataOff : Nat
  bytes : Nat
  crc : Nat
deriving DecidableEq

/-- `hammer2_dedup_record`, with dedup enabled. -/
def dedupRecord (dios : Dios) (heur : Heur) (c : Recorded) (getticks : BitVec 32) (hz : Int) : Dios × Heur :=
  let pbase := c.dataOff / offRadix * offRadix / pbufSize * pbufSize
  match dios pbase with
  | none => (dios, heur)
  | some dio =>
      if c.check = checkIscsi32 ∨ c.check = checkXxhash64 ∨ c.check = checkSha192 then
        let base := dedupIndex c.crc
        let best := dedupBest heur base c.crc hz 4 0
        (Function.update dios pbase
            (some { dio with dedupValid := dio.dedupValid ||| dedupMask pbase c.dataOff c.bytes }),
          Function.update heur (base + best) ⟨c.dataOff, c.crc, getticks⟩)
      else (dios, heur)

/-- `hammer2_dedup_clear` -/
def dedupClear (heur : Heur) (getticks : BitVec 32) : Heur :=
  fun i => { heur i with dataOff := 0, ticks := getticks - 1 }

inductive Lookup where
  | panic
  | miss
  | hit (off : Nat)
deriving DecidableEq

/-- The loop of `hammer2_dedup_lookup` over the four entries of the set, `n` of them still to be
looked at.  `bcmp` says whether the data at an offset is the data to be written. -/
def dedupLookupLoop (dios : Dios) (heur : Heur) (bcmp : Nat → Bool) (crc pblksize : Nat) : Nat → Lookup
  | 0 => .miss
  | n + 1 =>
      let e := heur (dedupIndex crc + (3 - n))
      if e.dataCrc ≠ crc then dedupLookupLoop dios heur bcmp crc pblksize n
      else if 1 <<< (e.dataOff % offRadix) ≠ pblksize then dedupLookupLoop dios heur bcmp crc pblksize n
      else
        -- `hammer2_io_getquick` finds buffers that are in memory only.
        (ioBase e.dataOff).elim .panic fun pbase =>
          match dios pbase with
          | none => dedupLookupLoop dios heur bcmp crc pblksize n
          | some dio =>
              let mask := dedupMask pbase e.dataOff pblksize
              if dio.dedupAlloc &&& mask = mask ∧ dio.dedupValid &&& mask = mask ∧ bcmp e.dataOff then
                .hit e.dataOff
              else dedupLookupLoop dios heur bcmp crc pblksize n

/-- `hammer2_dedup_lookup`, with dedup enabled. -/
def dedupLookup (dios : Dios) (heur : Heur) (bcmp : Nat → Bool) (crc pblksize : Nat) : Lookup :=
  dedupLookupLoop dios heur bcmp crc pblksize 4

/-! ## What the operations do to the allocation bits -/

/-- A fragment in memory is a dedup candidate. -/
def Candidate (dios : Dios) (pbase f : Nat) : Prop :=
  ∃ dio, dios pbase = some dio ∧ dio.dedupAlloc.getLsbD f = true

theorem ioBase_spec {dataOff pbase : Nat} (h : ioBase dataOff = some pbase) :
    pbase % pbufSize = 0 ∧ InDio pbase dataOff (offBytes dataOff) := by
  unfold ioBase at h
  dsimp only at h
  split at h
  · cases h
  · rename_i hc
    obtain rfl := Option.some.inj h
    rw [not_or, not_not] at hc
    obtain ⟨hne, hend⟩ := hc
    refine ⟨?_, ⟨?_, ?_, ?_⟩⟩
    all_goals
      generalize offBytes dataOff = lsize at *
      generalize dataOff / offRadix * offRadix = lbase at *
      simp only [pbufSize] at *
      omega

theorem ioBase_ne {dataOff pbase : Nat} (h : ioBase dataOff = some pbase) : pbase ≠ 0 := by
  unfold ioBase at h
  dsimp only at h
  split at h
  · cases h
  · rename_i hc
    intro hzero
    exact hc (Or.inl ((Option.some.inj h).trans hzero))

theorem dedupSet_candidate {dios dios' : Dios} {dataOff pbase f : Nat} (h : dedupSet dios dataOff = some dios')
    (hc : Candidate dios' pbase f) : Candidate dios pbase f ∨
      (ioBase dataOff = some pbase ∧ dedupBeg pbase dataOff ≤ f ∧
        f < dedupBeg pbase dataOff + dedupBits (offBytes dataOff)) := by
  obtain ⟨base, hbase, rfl⟩ := Option.map_eq_some_iff.mp h
  obtain ⟨dio, hdio, hbit⟩ := hc
  by_cases hp : pbase = base
  · subst hp
    rw [Function.update_self] at hdio
    obtain rfl := Option.some.inj hdio
    rw [BitVec.getLsbD_or, getLsbD_dedupMask (ioBase_spec hbase).2, Bool.or_eq_true] at hbit
    rcases hbit with hold | hnew
    · left
      cases hd : dios pbase with
      | none =>
          rw [hd] at hold
          exact absurd hold (by simp)
      | some dio =>
          rw [hd] at hold
          exact ⟨dio, hd, hold⟩
    · exact Or.inr ⟨hbase, of_decide_eq_true hnew⟩
  · rw [Function.update_of_ne hp] at hdio
    exact Or.inl ⟨dio, hdio, hbit⟩

/-- The buffers after a set: one more at most, at the base of the range. -/
theorem dedupSet_base {dios dios' : Dios} {dataOff pbase : Nat} {dio : Dio}
    (h : dedupSet dios dataOff = some dios') (hd : dios' pbase = some dio) :
    (∃ dio', dios pbase = some dio') ∨ ioBase dataOff = some pbase := by
  obtain ⟨base, hbase, rfl⟩ := Option.map_eq_some_iff.mp h
  by_cases hp : pbase = base
  · exact Or.inr (hp ▸ hbase)
  · rw [Function.update_of_ne hp] at hd
    exact Or.inl ⟨dio, hd⟩

/-- A delete clears the bits of the range, and sets none. -/
theorem dedupDelete_candidate {dios dios' : Dios} {btype dataOff bytes pbase f : Nat}
    (h : dedupDelete dios btype dataOff bytes = some dios') (hc : Candidate dios' pbase f) :
    Candidate dios pbase f ∧ (btype = brefTypeData → dataOff / offRadix * offRadix ≠ 0 →
      ioBase dataOff = some pbase →
        ¬ (dedupBeg pbase dataOff ≤ f ∧ f < dedupBeg pbase dataOff + dedupBits bytes)) := by
  unfold dedupDelete at h
  split at h
  · rename_i hzero
    obtain rfl := Option.some.inj h
    exact ⟨hc, fun _ hne _ => absurd hzero hne⟩
  split at h
  · rename_i htype
    obtain rfl := Option.some.inj h
    exact ⟨hc, fun ht _ _ => absurd ht htype⟩
  obtain ⟨base, hbase, h⟩ := Option.bind_eq_some_iff.mp h
  split at h
  · rename_i hnone
    obtain rfl := Option.some.inj h
    refine ⟨hc, fun _ _ hp => ?_⟩
    obtain rfl : base = pbase := Option.some.inj (hbase.symm.trans hp)
    obtain ⟨dio, hdio, -⟩ := hc
    rw [hnone] at hdio
    cases hdio
  · rename_i dio hsome
    split at h
    · cases h
    · rename_i hbound
      obtain rfl := Option.some.inj h
      obtain ⟨dio', hdio, hbit⟩ := hc
      by_cases hp : pbase = base
      · subst hp
        rw [Function.update_self] at hdio
        obtain rfl := Option.some.inj hdio
        have hspec := (ioBase_spec hbase).2
        have hin : InDio pbase dataOff bytes := ⟨hspec.base, hspec.lt, by omega⟩
        rw [BitVec.getLsbD_and, Bool.and_eq_true] at hbit
        refine ⟨⟨dio, hsome, hbit.1⟩, fun _ _ _ hrange => ?_⟩
        have hclear := hbit.2
        rw [BitVec.getLsbD_not, getLsbD_dedupMask hin, decide_eq_true hrange, Bool.not_true,
          Bool.and_false] at hclear
        cases hclear
      · rw [Function.update_of_ne hp] at hdio
        refine ⟨⟨dio', hdio, hbit⟩, fun _ _ hb => ?_⟩
        exact absurd (Option.some.inj (hb.symm.trans hbase)) hp

theorem dedupDelete_base {dios dios' : Dios} {btype dataOff bytes pbase : Nat} {dio : Dio}
    (h : dedupDelete dios btype dataOff bytes = some dios') (hd : dios' pbase = some dio) :
    ∃ dio', dios pbase = some dio' := by
  unfold dedupDelete at h
  split at h
  · obtain rfl := Option.some.inj h
    exact ⟨dio, hd⟩
  split at h
  · obtain rfl := Option.some.inj h
    exact ⟨dio, hd⟩
  obtain ⟨base, hbase, h⟩ := Option.bind_eq_some_iff.mp h
  split at h
  · obtain rfl := Option.some.inj h
    exact ⟨dio, hd⟩
  · rename_i dio' hsome
    split at h
    · cases h
    · obtain rfl := Option.some.inj h
      by_cases hp : pbase = base
      · exact ⟨dio', hp ▸ hsome⟩
      · rw [Function.update_of_ne hp] at hd
        exact ⟨dio, hd⟩

/-- The assertion holds when no fragment of the range is a candidate. -/
theorem dedupAssert_of {dios : Dios} {dataOff bytes pbase : Nat} (hbase : ioBase dataOff = some pbase)
    (hin : InDio pbase dataOff bytes)
    (h : ∀ f, dedupBeg pbase dataOff ≤ f → f < dedupBeg pbase dataOff + dedupBits bytes →
      ¬ Candidate dios pbase f) : dedupAssert dios dataOff bytes = some true := by
  refine Option.map_eq_some_iff.mpr ⟨pbase, hbase, ?_⟩
  split
  · rfl
  · rename_i dio hd
    refine decide_eq_true (BitVec.eq_of_getLsbD_eq fun f _ => ?_)
    rw [BitVec.getLsbD_and, getLsbD_dedupMask hin, BitVec.getLsbD_zero]
    by_cases hf : dedupBeg pbase dataOff ≤ f ∧ f < dedupBeg pbase dataOff + dedupBits bytes
    · have hno := h f hf.1 hf.2
      cases hbit : dio.dedupAlloc.getLsbD f with
      | false => rfl
      | true => exact absurd ⟨dio, hd, hbit⟩ hno
    · rw [decide_eq_false hf, Bool.and_false]

/-- Recording keeps the buffers and sets no allocation bit. -/
theorem dedupRecord_dio {dios : Dios} {heur : Heur} {c : Recorded} {getticks : BitVec 32} {hz : Int}
    {pbase : Nat} {dio : Dio} (h : (dedupRecord dios heur c getticks hz).1 pbase = some dio) :
    ∃ dio', dios pbase = some dio' ∧ dio.dedupAlloc = dio'.dedupAlloc := by
  unfold dedupRecord at h
  dsimp only at h
  split at h
  · exact ⟨dio, h, rfl⟩
  · rename_i dio' hsome
    split at h
    · dsimp only at h
      by_cases hp : pbase = c.dataOff / offRadix * offRadix / pbufSize * pbufSize
      · subst hp
        rw [Function.update_self] at h
        obtain rfl := Option.some.inj h
        exact ⟨dio', hsome, rfl⟩
      · rw [Function.update_of_ne hp] at h
        exact ⟨dio, h, rfl⟩
    · exact ⟨dio, h, rfl⟩

/-- A hit on offset `off`: every fragment of the range is a candidate. -/
structure Hit (dios : Dios) (heur : Heur) (pblksize off : Nat) : Prop where
  entry : ∃ i, (heur i).dataOff = off
  size : 1 <<< (off % offRadix) = pblksize
  mask : ∃ pbase, ioBase off = some pbase ∧
    ∀ f, (dedupMask pbase off pblksize).getLsbD f = true → Candidate dios pbase f

theorem dedupLookupLoop_hit {dios : Dios} {heur : Heur} {bcmp : Nat → Bool} {crc pblksize off : Nat} :
    ∀ n, dedupLookupLoop dios heur bcmp crc pblksize n = .hit off → Hit dios heur pblksize off
  | 0, h => nomatch h
  | n + 1, h => by
      have ih := @dedupLookupLoop_hit dios heur bcmp crc pblksize off n
      unfold dedupLookupLoop at h
      dsimp only at h
      split at h
      · exact ih h
      split at h
      · exact ih h
      rename_i hsize
      cases hbase : ioBase (heur (dedupIndex crc + (3 - n))).dataOff with
      | none =>
          rw [hbase] at h
          cases h
      | some pbase =>
          rw [hbase, Option.elim_some] at h
          split at h
          · exact ih h
          rename_i dio hdio
          split at h
          · rename_i hmask
            obtain rfl := Lookup.hit.inj h
            refine ⟨⟨_, rfl⟩, not_not.mp hsize, pbase, hbase, fun f hf => ⟨dio, hdio, ?_⟩⟩
            have hbit : (dio.dedupAlloc &&& dedupMask pbase (heur (dedupIndex crc + (3 - n))).dataOff
                pblksize).getLsbD f = true := by
              rw [hmask.1]
              exact hf
            rw [BitVec.getLsbD_and, Bool.and_eq_true] at hbit
            exact hbit.1
          · exact ih h

theorem dedupLookup_hit {dios : Dios} {heur : Heur} {bcmp : Nat → Bool} {crc pblksize off : Nat}
    (h : dedupLookup dios heur bcmp crc pblksize = .hit off) : Hit dios heur pblksize off :=
  dedupLookupLoop_hit 4 h

end Hammer2.Dedup
