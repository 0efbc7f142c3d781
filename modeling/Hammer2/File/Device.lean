/-
# `Hammer2.File.Device` — device buffers, chains and the dedup table

The device is one flat memory, as its buffers show it.  Beside it stand what
`hammer2_dev_t` keeps for file data: the device buffers that exist (`dio`), the
dedup masks, one bit for each KB, and the heuristic table of the live dedup.  An
assertion of the source that fails, or a panic, makes a function `none`.

    getblk         hammer2_io_getblk and the bread, new, newnz and getquick forms
    freemapAlloc   hammer2_freemap_alloc: its answers are a list of the device
    dedupRecord    hammer2_dedup_record
    dedupLookup    hammer2_dedup_lookup
-/
import Hammer2.Disk
import Hammer2.Lib.Memory
import Mathlib.Algebra.Group.Nat.Defs
import Mathlib.Data.Nat.Log

namespace Hammer2.File

abbrev errorEio : Nat := 0x00000001
abbrev errorCheck : Nat := 0x00000002
abbrev errorEnospc : Nat := 0x00000020

abbrev zoneBytes : Nat := 2147483648
abbrev dedupFrag : Nat := 1024
abbrev dedupHeurSize : Nat := 262144

abbrev Bytes := List UInt8

inductive BrefType where
  | inode
  | indirect
  | data
  | dirent
deriving DecidableEq

/-- `data_off`: a device offset, and in its low six bits the radix of the size. -/
structure DataOff where
  base : Nat
  radix : Nat
deriving DecidableEq

def DataOff.bytes (off : DataOff) : Nat := if off.radix = 0 then 0 else 2 ^ off.radix

/-- `hammer2_chain_t` with its `bref`.  `chain->bytes` is always the size that the
radix of `data_off` says; `data` tells that the data pointer is set. -/
structure Chain where
  type : BrefType
  dataOff : DataOff
  comp : Nat
  check : Nat
  checkVal : Nat
  mirrorTid : Nat
  modifyTid : Nat
  modified : Bool
  update : Bool
  dedupable : Bool
  initial : Bool
  blkmapped : Bool
  blkmapupd : Bool
  emergMip : Bool
  notTested : Bool
  testedGood : Bool
  data : Bool
  error : Nat
deriving DecidableEq

def Chain.bytes (c : Chain) : Nat := c.dataOff.bytes

/-- `hammer2_dedup_t`. -/
structure Dedup where
  dataOff : DataOff
  dataCrc : Nat
  ticks : Nat

/-- The hash functions of the media format. -/
structure Hashes where
  xxh64 : Bytes → Nat
  icrc32 : Bytes → Nat
  sha192 : Bytes → Nat

/-- What file data needs of `hammer2_dev_t`.  `bad` says which device buffers fail
to be read, `freemap` holds the answers of the allocator to come (`none` when there
is no space). -/
structure Dev where
  mem : Nat → UInt8
  bad : Nat → Bool
  dio : Nat → Bool
  freemap : List (Option DataOff)
  mirrorTid : Nat
  emerg : Bool
  dedupEnable : Bool
  heurDedup : Nat → Dedup
  dedupAlloc : Nat → Bool
  dedupValid : Nat → Bool
  ticks : Nat
  hz : Nat

/-! ## Device buffers -/

/-- The device buffer an offset lies in. -/
def DataOff.pbase (off : DataOff) : Nat := off.base / pbufSize

/-- The assertions of `hammer2_io_getblk` and `hammer2_io_alloc`: a size, not in
the first buffer, and within one buffer. -/
def DataOff.ioOk (off : DataOff) : Prop :=
  off.radix ≠ 0 ∧ off.pbase ≠ 0 ∧ (off.base + off.bytes - 1) / pbufSize = off.pbase

instance (off : DataOff) : Decidable off.ioOk := inferInstanceAs (Decidable (_ ∧ _))

inductive Dop where
  | new
  | newnz
  | read
deriving DecidableEq

/-- `hammer2_io_getblk`: its error and the device after it. -/
def Dev.getblk (h : Dev) (off : DataOff) (op : Dop) : Option (Nat × Dev) :=
  if off.ioOk then
    let h := { h with dio := fun p => decide (p = off.pbase) || h.dio p }
    if h.bad off.pbase ∧ (op = .read ∨ off.radix ≠ pbufRadix) then some (errorEio, h)
    else if op = .new then
      some (0, { h with mem := Memory.write h.mem off.base (List.replicate off.bytes 0) })
    else some (0, h)
  else none

/-- `hammer2_io_data` with the size of the block. -/
def Dev.block (h : Dev) (off : DataOff) : Bytes := Memory.read h.mem off.base off.bytes

def Dev.store (h : Dev) (off : DataOff) (bs : Bytes) : Dev :=
  { h with mem := Memory.write h.mem off.base bs }

/-! ## Dedup masks -/

/-- `hammer2_dedup_mask`: the KBs of a block. -/
def DataOff.mask (off : DataOff) (unit : Nat) : Bool :=
  decide (off.base / dedupFrag ≤ unit ∧
    unit < off.base / dedupFrag + (off.bytes + (dedupFrag - 1)) / dedupFrag)

/-- All the bits of the mask of a block are set in `bits`. -/
def DataOff.covered (off : DataOff) (bits : Nat → Bool) : Bool :=
  (List.range ((off.bytes + (dedupFrag - 1)) / dedupFrag)).all fun i =>
    bits (off.base / dedupFrag + i)

/-- `hammer2_io_dedup_set`. -/
def Dev.dedupSet (h : Dev) (off : DataOff) : Dev :=
  { h with
    dio := fun p => decide (p = off.pbase) || h.dio p
    dedupValid := fun u => h.dedupValid u && !off.mask u
    dedupAlloc := fun u => h.dedupAlloc u || off.mask u }

/-! ## Allocation -/

/-- `hammer2_getradix`. -/
def getradix (bytes : Nat) : Nat := if bytes < allocMin then Nat.clog 2 bytes
  else max radixMin (Nat.clog 2 bytes)

/-- `hammer2_freemap_alloc` for `2 ^ radix` bytes: the next answer, which is a
`data_off` of that size outside the reserved segment of a zone, or no space. -/
def freemapAlloc (h : Dev) (c : Chain) (radix : Nat) : Option (Nat × Chain × Dev) :=
  if radix < radixMin ∨ radixMax < radix then none
  else match h.freemap with
    | [] => none
    | none :: answers => some (errorEnospc, c, { h with freemap := answers })
    | some off :: answers =>
        if off.radix ≠ radix ∨ off.base % zoneBytes < zoneSeg then none
        else
          let h := { h with freemap := answers }
          some (0, { c with dataOff := off }, if c.type = .data then h.dedupSet off else h)

/-! ## Check codes -/

abbrev checkFreemap : Nat := 5

/-- The check code of a block, `none` when the method has none. -/
def Hashes.code (p : Hashes) (check : Nat) (bs : Bytes) : Option Nat :=
  if check = checkIscsi32 ∨ check = checkFreemap then some (p.icrc32 bs)
  else if check = checkXxhash64 then some (p.xxh64 bs)
  else if check = checkSha192 then some (p.sha192 bs)
  else none

/-- `hammer2_chain_setcheck`. -/
def setcheck (p : Hashes) (c : Chain) (bs : Bytes) : Option Chain :=
  if checkFreemap < c.check then none
  else some { c with notTested := false, checkVal := (p.code c.check bs).getD c.checkVal }

/-- `hammer2_chain_testcheck`. -/
def testcheck (p : Hashes) (c : Chain) (bs : Bytes) : Option Bool :=
  if c.notTested then some true
  else if checkFreemap < c.check then none
  else some (match p.code c.check bs with
    | some v => decide (v = c.checkVal)
    | none => true)

/-! ## Live dedup -/

/-- The first of the four table slots of a crc. -/
def dedupIndex (crc : Nat) : Nat := crc % dedupHeurSize / 4 * 4

/-- The slot `hammer2_dedup_record` takes: the one with the crc, else the oldest,
or one not used for half an hour. -/
def dedupBest (h : Dev) (crc : Nat) : Nat → Nat → Nat → Nat
  | 0, _, best => best
  | n + 1, i, best =>
      let d := h.heurDedup (dedupIndex crc + i)
      if d.dataCrc = crc then i
      else
        let b := h.heurDedup (dedupIndex crc + best)
        dedupBest h crc n (i + 1)
          (if d.ticks < b.ticks ∨ b.ticks + h.hz * 60 * 30 < d.ticks then i else best)

/-- The crc a block is recorded with; without a check code it is not. -/
def dedupCrc (p : Hashes) (c : Chain) (bs : Bytes) : Option Nat :=
  if c.check = checkIscsi32 ∨ c.check = checkSha192 then some (p.xxh64 bs)
  else if c.check = checkXxhash64 then some c.checkVal
  else none

/-- `hammer2_dedup_record` of a chain whose block is in a device buffer. -/
def dedupRecord (p : Hashes) (h : Dev) (c : Chain) (bs : Bytes) : Chain × Dev :=
  if h.dedupEnable = false then (c, h)
  else match dedupCrc p c bs with
    | none => (c, h)
    | some crc =>
        let slot := dedupIndex crc + dedupBest h crc 4 0 0
        ({ c with dedupable := true },
          { h with
            heurDedup := fun i => if i = slot then ⟨c.dataOff, crc, h.ticks⟩ else h.heurDedup i
            dedupValid := fun u => h.dedupValid u || c.dataOff.mask u })

/-- The entry of a table slot is usable for the data: crc, size, a buffer that
exists, masks and bytes.  A buffer that fails to be read is not checked for. -/
def dedupUsable (h : Dev) (crc : Nat) (data : Bytes) (d : Dedup) : Option Bool :=
  if d.dataCrc ≠ crc ∨ 2 ^ d.dataOff.radix ≠ data.length then some false
  else if ¬ d.dataOff.ioOk then none
  else if h.dio d.dataOff.pbase = false then some false
  else if h.bad d.dataOff.pbase then none
  else some (d.dataOff.covered h.dedupAlloc && d.dataOff.covered h.dedupValid &&
    decide (data = h.block d.dataOff))

def dedupSearch (h : Dev) (crc : Nat) (data : Bytes) : Nat → Nat → Option (Option DataOff × Dev)
  | 0, _ => some (none, h)
  | n + 1, i =>
      let slot := dedupIndex crc + i
      match dedupUsable h crc data (h.heurDedup slot) with
      | none => none
      | some true =>
          let d := h.heurDedup slot
          some (some d.dataOff,
            { h with heurDedup := fun j => if j = slot then { d with ticks := h.ticks } else h.heurDedup j })
      | some false => dedupSearch h crc data n (i + 1)

/-- `hammer2_dedup_lookup`: the offset of a block with the same bytes. -/
def dedupLookup (p : Hashes) (h : Dev) (data : Bytes) : Option (Option DataOff × Dev) :=
  if h.dedupEnable = false then some (none, h)
  else dedupSearch h (p.xxh64 data) data 4 0

/-! ## What these keep -/

theorem triple_inj {α β γ : Type} {a a' : α} {b b' : β} {c c' : γ}
    (h : (a, b, c) = (a', b', c')) : a = a' ∧ b = b' ∧ c = c' := by
  obtain ⟨ha, hbc⟩ := Prod.mk.inj h
  exact ⟨ha, Prod.mk.inj hbc⟩

/-- Everything but the tables of the dedup is kept. -/
structure SameStorage (h h' : Dev) : Prop where
  mem : h'.mem = h.mem
  bad : h'.bad = h.bad
  freemap : h'.freemap = h.freemap
  mirrorTid : h'.mirrorTid = h.mirrorTid
  emerg : h'.emerg = h.emerg
  dedupEnable : h'.dedupEnable = h.dedupEnable

theorem ioOk_bytes {off : DataOff} (h : off.ioOk) : off.bytes = 2 ^ off.radix := if_neg h.1

@[simp] theorem length_block (h : Dev) (off : DataOff) : (h.block off).length = off.bytes :=
  Memory.length_read ..

theorem store_block (h : Dev) (off : DataOff) {bs : Bytes} (hlen : bs.length = off.bytes) :
    (h.store off bs).block off = bs := by
  unfold Dev.store Dev.block
  rw [← hlen]
  exact Memory.read_write ..

theorem SameStorage.block_eq {h h' : Dev} (hs : SameStorage h h') (off : DataOff) :
    h'.block off = h.block off := by
  unfold Dev.block
  rw [hs.mem]

/-- **A dedup hit** names a readable block with the same bytes. -/
structure HitSpec (h : Dev) (data : Bytes) (off : DataOff) : Prop where
  size : off.bytes = data.length
  ioOk : off.ioOk
  good : h.bad off.pbase = false
  alloc : off.covered h.dedupAlloc = true
  valid : off.covered h.dedupValid = true
  bytes : h.block off = data

theorem dedupUsable_spec {h : Dev} {crc : Nat} {data : Bytes} {d : Dedup}
    (hu : dedupUsable h crc data d = some true) : HitSpec h data d.dataOff := by
  unfold dedupUsable at hu
  split at hu
  · cases hu
  · rename_i hsize
    split at hu
    · cases hu
    · rename_i hio
      split at hu
      · cases hu
      · split at hu
        · cases hu
        · rename_i hbad
          have hio := Decidable.not_not.mp hio
          obtain ⟨⟨ha, hv⟩, hb⟩ : (d.dataOff.covered h.dedupAlloc = true ∧
              d.dataOff.covered h.dedupValid = true) ∧ data = h.block d.dataOff := by
            simpa only [Option.some.injEq, Bool.and_eq_true, decide_eq_true_eq] using hu
          exact ⟨by rw [hb, length_block], hio, Bool.not_eq_true _ ▸ hbad, ha, hv, hb.symm⟩

theorem dedupSearch_spec {h h' : Dev} {crc : Nat} {data : Bytes} {hit : Option DataOff} :
    ∀ {n i : Nat}, dedupSearch h crc data n i = some (hit, h') →
      SameStorage h h' ∧ h'.dedupAlloc = h.dedupAlloc ∧ h'.dedupValid = h.dedupValid ∧
        ∀ off, hit = some off → HitSpec h data off := by
  intro n
  induction n with
  | zero =>
      intro i hs
      obtain ⟨rfl, rfl⟩ := Prod.mk.inj (Option.some.inj hs)
      exact ⟨⟨rfl, rfl, rfl, rfl, rfl, rfl⟩, rfl, rfl, fun _ hc => nomatch hc⟩
  | succ n ih =>
      intro i hs
      unfold dedupSearch at hs
      simp only at hs
      split at hs
      · cases hs
      · rename_i hu
        obtain ⟨rfl, rfl⟩ := Prod.mk.inj (Option.some.inj hs)
        refine ⟨⟨rfl, rfl, rfl, rfl, rfl, rfl⟩, rfl, rfl, fun off hoff => ?_⟩
        obtain rfl := Option.some.inj hoff
        exact dedupUsable_spec hu
      · exact ih hs

/-- **`hammer2_dedup_lookup`** changes no storage, and a hit is usable. -/
theorem dedupLookup_spec {p : Hashes} {h h' : Dev} {data : Bytes} {hit : Option DataOff}
    (hl : dedupLookup p h data = some (hit, h')) :
    SameStorage h h' ∧ h'.dedupAlloc = h.dedupAlloc ∧ h'.dedupValid = h.dedupValid ∧
      ∀ off, hit = some off → HitSpec h data off := by
  unfold dedupLookup at hl
  split at hl
  · obtain ⟨rfl, rfl⟩ := Prod.mk.inj (Option.some.inj hl)
    exact ⟨⟨rfl, rfl, rfl, rfl, rfl, rfl⟩, rfl, rfl, fun _ hc => nomatch hc⟩
  · exact dedupSearch_spec hl

theorem dedupSearch_heur {h h' : Dev} {crc : Nat} {data : Bytes} {hit : Option DataOff} :
    ∀ {n i : Nat}, dedupSearch h crc data n i = some (hit, h') →
      ∀ j, (h'.heurDedup j).dataOff = (h.heurDedup j).dataOff := by
  intro n
  induction n with
  | zero =>
      intro i hs j
      obtain ⟨-, rfl⟩ := Prod.mk.inj (Option.some.inj hs)
      rfl
  | succ n ih =>
      intro i hs j
      unfold dedupSearch at hs
      simp only at hs
      split at hs
      · cases hs
      · obtain ⟨-, rfl⟩ := Prod.mk.inj (Option.some.inj hs)
        show (if j = dedupIndex crc + i then _ else h.heurDedup j).dataOff = _
        split
        · rename_i hj
          rw [hj]
        · rfl
      · exact ih hs j

/-- A lookup only marks the entry it finds as used. -/
theorem dedupLookup_heur {p : Hashes} {h h' : Dev} {data : Bytes} {hit : Option DataOff}
    (hl : dedupLookup p h data = some (hit, h')) (j : Nat) :
    (h'.heurDedup j).dataOff = (h.heurDedup j).dataOff := by
  unfold dedupLookup at hl
  split at hl
  · obtain ⟨-, rfl⟩ := Prod.mk.inj (Option.some.inj hl)
    rfl
  · exact dedupSearch_heur hl j

theorem dedupSearch_entry {h h' : Dev} {crc : Nat} {data : Bytes} {off : DataOff} :
    ∀ {n i : Nat}, dedupSearch h crc data n i = some (some off, h') →
      ∃ j, (h.heurDedup j).dataOff = off := by
  intro n
  induction n with
  | zero =>
      intro i hs
      cases (Prod.mk.inj (Option.some.inj hs)).1
  | succ n ih =>
      intro i hs
      unfold dedupSearch at hs
      simp only at hs
      split at hs
      · cases hs
      · obtain ⟨hoff, -⟩ := Prod.mk.inj (Option.some.inj hs)
        exact ⟨_, Option.some.inj hoff⟩
      · exact ih hs

/-- A hit is the block of a table entry. -/
theorem dedupLookup_entry {p : Hashes} {h h' : Dev} {data : Bytes} {off : DataOff}
    (hl : dedupLookup p h data = some (some off, h')) : ∃ j, (h.heurDedup j).dataOff = off := by
  unfold dedupLookup at hl
  split at hl
  · cases (Prod.mk.inj (Option.some.inj hl)).1
  · exact dedupSearch_entry hl

/-- What recording a block keeps. -/
theorem dedupRecord_spec (p : Hashes) (h : Dev) (c : Chain) (bs : Bytes) :
    SameStorage h (dedupRecord p h c bs).2 ∧
      (dedupRecord p h c bs).1 = { c with dedupable := (dedupRecord p h c bs).1.dedupable } := by
  unfold dedupRecord
  split
  · exact ⟨⟨rfl, rfl, rfl, rfl, rfl, rfl⟩, rfl⟩
  · split
    · exact ⟨⟨rfl, rfl, rfl, rfl, rfl, rfl⟩, rfl⟩
    · exact ⟨⟨rfl, rfl, rfl, rfl, rfl, rfl⟩, rfl⟩

end Hammer2.File
