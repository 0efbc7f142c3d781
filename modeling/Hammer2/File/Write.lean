/-
# `Hammer2.File.Write` — writing a logical block and reading it back

`writeFileCore` is `hammer2_write_file_core`: it stores one block of a file under
the check and compression algorithm of its inode, in one of five ways.

    embedded      into the inode                      (the chain is the inode)
    zero          the chain is deleted                (zeros, with a check code)
    plain         `writeData` of the bytes
    compressed    `writeData` of the padded image
    deduplicated  `finishDedup`: nothing is copied

`readBack` is `hammer2_strategy_read_completion`: what a reader gets from the
chain.  The codecs carry the law that decompression undoes compression.
-/
import Hammer2.File.Modify

namespace Hammer2.File

/-! ## Codecs -/

/-- LZ4: `[]` is the failure of `LZ4_compress_limitedOutput`, `none` that of
`LZ4_decompress_safe`. -/
structure Lz4 where
  compress : Bytes → Nat → Bytes
  decompress : Bytes → Nat → Option Bytes
  compress_le : ∀ d n, (compress d n).length ≤ n
  inverse : ∀ d n lim, compress d n ≠ [] → d.length ≤ lim →
    decompress (compress d n) lim = some d

/-- zlib: `[]` is a deflate that does not end, `none` an inflate that does not.
What follows the end of the stream is not read. -/
structure Zlib where
  deflate : Nat → Bytes → Nat → Bytes
  inflate : Bytes → Nat → Option Bytes
  deflate_le : ∀ level d n, (deflate level d n).length ≤ n
  inverse : ∀ level d n lim pad, deflate level d n ≠ [] → d.length ≤ lim →
    inflate (deflate level d n ++ pad) lim = some d

/-- The functions the write path calls: hashes and codecs, and the tunable
`hammer2_always_compress`. -/
structure Tools extends Hashes where
  lz4 : Lz4
  zlib : Zlib
  alwaysCompress : Bool

/-- What the write path reads of the inode and of its PFS. -/
structure Inode where
  checkAlgo : Nat
  compAlgo : Nat
  compHeuristic : Nat
  lsnapTid : Nat

/-- Errors of the calls that work on the block table above the chain. -/
structure Faults where
  lookupError : Nat
  createError : Nat
  deleteError : Nat

def zeros (n : Nat) : Bytes := List.replicate n 0

/-- Bytes, filled up with zeros. -/
def padTo (n : Nat) (bs : Bytes) : Bytes := bs ++ zeros (n - bs.length)

/-! ## Compression -/

/-- An `int` as it lies in memory. -/
def le32 (n : Nat) : Bytes :=
  [UInt8.ofNat n, UInt8.ofNat (n / 256), UInt8.ofNat (n / 65536), UInt8.ofNat (n / 16777216)]

def readLe32 (bs : Bytes) : Nat :=
  match bs with
  | a :: b :: c :: d :: _ => a.toNat + b.toNat * 256 + c.toNat * 65536 + d.toNat * 16777216
  | _ => 0

/-- The level `hammer2_compress_and_write` passes to zlib. -/
def compLevel (compAlgo : Nat) : Nat :=
  let level := compAlgo / 16 % 16
  if level < 6 then 6 else if 9 < level then 9 else level

/-- `comp_buffer` up to `comp_size`; `[]` when compression failed or was not tried. -/
def compressed (t : Tools) (ip : Inode) (data : Bytes) : Bytes :=
  if ip.compHeuristic < 8 ∨ ip.compHeuristic % 8 = 0 ∨ t.alwaysCompress = true then
    if ip.compAlgo % 16 = compLz4 then
      let c := t.lz4.compress data (data.length / 2 - 8)
      if c = [] then [] else le32 c.length ++ c
    else if ip.compAlgo % 16 = compZlib then
      t.zlib.deflate (compLevel ip.compAlgo) data (data.length / 2)
    else []
  else []

/-- `comp_block_size`, `none` for a weird size. -/
def compBlockSize (n : Nat) : Option Nat :=
  if n ≤ 1024 then some 1024
  else if n ≤ 2048 then some 2048
  else if n ≤ 4096 then some 4096
  else if n ≤ 8192 then some 8192
  else if n ≤ 16384 then some 16384
  else if n ≤ 32768 then some 32768
  else none

/-- What goes to the device: the compression method, and the bytes. -/
def image (t : Tools) (ip : Inode) (data : Bytes) : Option (Nat × Bytes) :=
  let c := compressed t ip data
  if c = [] then some (compNone, data)
  else (compBlockSize c.length).map fun n => (ip.compAlgo % 16, padTo n c)

/-- The compression heuristic after a write. -/
def Inode.tried (ip : Inode) (c : Bytes) : Inode :=
  { ip with
    compHeuristic :=
      if c ≠ [] then 0 else if 128 < ip.compHeuristic + 1 then 8 else ip.compHeuristic + 1 }

/-! ## Physical storage -/

/-- What `hammer2_assign_physical` leaves; `hit` when it cleared `*datap`. -/
structure Assigned where
  errorp : Nat
  chain : Option Chain
  dev : Dev
  hit : Bool

/-- The chain of the block is there and is a data chain. -/
def assignData (t : Tools) (ip : Inode) (errorp : Nat) (h : Dev) (c : Chain) (data : Bytes)
    (mtid : Nat) : Option Assigned :=
  (dedupLookup t.toHashes h data).bind fun (hit, h) =>
    if c.bytes = data.length then
      (chainModify t.toHashes ip.lsnapTid h c mtid hit true).map fun (error, c, h) =>
        ⟨errorp ||| error, some c, h, hit.isSome⟩
    else
      (chainResize t.toHashes ip.lsnapTid h c mtid hit (getradix data.length)).bind
        fun (error, c, h) =>
          if errorp ||| error ≠ 0 then some ⟨errorp ||| error, some c, h, hit.isSome⟩
          else (chainModify t.toHashes ip.lsnapTid h c mtid hit true).map fun (error, c, h) =>
            ⟨error, some c, h, hit.isSome⟩

/-- `hammer2_assign_physical`, with the result of its lookup. -/
def assignPhysical (t : Tools) (ip : Inode) (f : Faults) (h : Dev) (chain : Option Chain)
    (data : Bytes) (mtid : Nat) : Option Assigned :=
  if data.length < allocMin then none
  else match chain with
    | none => (dedupLookup t.toHashes h data).bind fun (hit, h) =>
        (chainCreate t.toHashes ip.lsnapTid h f.createError (ip.checkAlgo % 16)
          (getradix data.length) mtid hit).map fun (error, c, h) =>
            ⟨f.lookupError ||| error, c, h, hit.isSome⟩
    | some c =>
        if c.error ≠ 0 then some ⟨c.error, some c, h, false⟩
        else match c.type with
          | .inode => (chainModify t.toHashes ip.lsnapTid h c mtid none false).map
              fun (error, c, h) => ⟨f.lookupError ||| error, some c, h, false⟩
          | .data => assignData t ip f.lookupError h c data mtid
          | _ => none

/-! ## Writing -/

/-- The file bytes embedded in an inode start after its meta data and its name. -/
abbrev embeddedOff : Nat := 512

def Dev.embed (h : Dev) (c : Chain) (bs : Bytes) : Option Dev :=
  if c.data then
    some { h with mem := Memory.write h.mem (c.dataOff.base + embeddedOff) (bs.take embeddedBytes) }
  else none

/-- Live deduplication: only the methods and the check code are set. -/
def finishDedup (t : Tools) (ip : Inode) (c : Chain) (comp : Nat) (bs : Bytes) : Option Chain :=
  (setcheck t.toHashes { c with comp := comp, check := ip.checkAlgo % 16 } bs).map fun c =>
    { c with initial := false }

/-- The data branch of `hammer2_write_bp` and of `hammer2_compress_and_write`. -/
def writeData (t : Tools) (ip : Inode) (h : Dev) (c : Chain) (comp : Nat) (bs : Bytes) :
    Option (Nat × Chain × Dev) :=
  (h.getblk c.dataOff .newnz).bind fun (error, h) =>
    if error ≠ 0 then some (error, c, h)
    else
      let h := h.store c.dataOff (bs.take c.bytes)
      (setcheck t.toHashes { c with comp := comp, check := ip.checkAlgo % 16 }
        (h.block c.dataOff)).map fun c =>
          let (c, h) := dedupRecord t.toHashes h { c with initial := false } (h.block c.dataOff)
          (0, c, h)

/-- `hammer2_write_bp`. -/
def writeBp (t : Tools) (ip : Inode) (h : Dev) (c : Chain) (data : Bytes) :
    Option (Nat × Chain × Dev) :=
  if c.modified = false then none
  else match c.type with
    | .inode => (h.embed c data).map fun h => (0, c, h)
    | .data => writeData t ip h c compNone data
    | _ => none

/-- What `hammer2_write_file_core` leaves. -/
structure Written where
  errorp : Nat
  chain : Option Chain
  dev : Dev
  ip : Inode

/-- `test_block_zeros`. -/
def testBlockZeros (bs : Bytes) : Bool := bs.all fun b => b = 0

/-- `zero_write`, with the result of its lookup. -/
def zeroWrite (t : Tools) (ip : Inode) (f : Faults) (h : Dev) (chain : Option Chain) (mtid : Nat) :
    Option Written :=
  match chain with
  | none => some ⟨f.lookupError, none, h, ip⟩
  | some c =>
      if c.type = .inode then
        if f.lookupError ≠ 0 then some ⟨f.lookupError, some c, h, ip⟩
        else (chainModify t.toHashes ip.lsnapTid h c mtid none false).bind fun (error, c, h) =>
          if error ≠ 0 then some ⟨error, some c, h, ip⟩
          else (h.embed c (zeros embeddedBytes)).map fun h => ⟨0, some c, h, ip⟩
      else
        -- The error of hammer2_chain_delete is not looked at.
        some ⟨f.lookupError, if f.deleteError = 0 then none else some c, h, ip⟩

/-- The branch of `hammer2_write_file_core` without compression. -/
def writePlain (t : Tools) (ip : Inode) (f : Faults) (h : Dev) (chain : Option Chain)
    (data : Bytes) (mtid : Nat) : Option Written :=
  (assignPhysical t ip f h chain data mtid).bind fun a =>
    if a.errorp ≠ 0 then some ⟨a.errorp, a.chain, a.dev, ip⟩
    else match a.chain with
      | none => none
      | some c =>
          if c.type = .inode then
            (a.dev.embed c data).map fun h => ⟨0, some c, h, ip⟩
          else if a.hit then
            (finishDedup t ip c compNone data).map fun c => ⟨0, some c, a.dev, ip⟩
          else (writeBp t ip a.dev c data).map fun (error, c, h) => ⟨error, some c, h, ip⟩

/-- `hammer2_zero_check_and_write`. -/
def zeroCheckAndWrite (t : Tools) (ip : Inode) (f : Faults) (h : Dev) (chain : Option Chain)
    (data : Bytes) (mtid : Nat) : Option Written :=
  if ip.checkAlgo ≠ checkNone ∧ testBlockZeros data = true then zeroWrite t ip f h chain mtid
  else (assignPhysical t ip f h chain data mtid).bind fun a =>
    if a.errorp ≠ 0 then some ⟨a.errorp, a.chain, a.dev, ip⟩
    else match a.chain with
      | none => none
      | some c =>
          if a.hit then
            (finishDedup t ip c compNone data).map fun c => ⟨0, some c, a.dev, ip⟩
          else (writeBp t ip a.dev c data).map fun (error, c, h) => ⟨error, some c, h, ip⟩

/-- `hammer2_compress_and_write`. -/
def compressAndWrite (t : Tools) (ip : Inode) (f : Faults) (h : Dev) (chain : Option Chain)
    (data : Bytes) (mtid : Nat) : Option Written :=
  if 32768 < data.length / 2 then none
  else if ip.checkAlgo ≠ checkNone ∧ testBlockZeros data = true then zeroWrite t ip f h chain mtid
  else (image t ip data).bind fun (comp, bs) =>
    let ip' := ip.tried (compressed t ip data)
    (assignPhysical t ip f h chain bs mtid).bind fun a =>
      if a.errorp ≠ 0 then some ⟨a.errorp, a.chain, a.dev, ip'⟩
      else match a.chain with
        | none => none
        | some c =>
            if c.type = .inode then
              (chainModify t.toHashes ip.lsnapTid a.dev c mtid none false).bind fun (error, c, h) =>
                if error ≠ 0 then some ⟨error, some c, h, ip'⟩
                else (h.embed c data).map fun h => ⟨0, some c, h, ip'⟩
            else if a.hit then
              (finishDedup t ip c comp bs).map fun c => ⟨0, some c, a.dev, ip'⟩
            else if c.modified = false ∨ c.type ≠ .data then none
            else (writeData t ip a.dev c comp bs).map fun (error, c, h) => ⟨error, some c, h, ip'⟩

/-- `hammer2_write_file_core` of a block of a file: `chain` is what the lookup of
the block finds. -/
def writeFileCore (t : Tools) (ip : Inode) (f : Faults) (h : Dev) (chain : Option Chain)
    (data : Bytes) (mtid : Nat) : Option Written :=
  if ip.compAlgo % 16 = compNone then writePlain t ip f h chain data mtid
  else if ip.compAlgo % 16 = compAutozero then zeroCheckAndWrite t ip f h chain data mtid
  else compressAndWrite t ip f h chain data mtid

/-! ## The paths of a write -/

/-- The write makes a hole. -/
def makesHole (ip : Inode) (data : Bytes) : Bool :=
  decide (ip.compAlgo % 16 ≠ compNone ∧ ip.checkAlgo ≠ checkNone) && testBlockZeros data

/-- The compression method and the bytes of the write. -/
def stored (t : Tools) (ip : Inode) (data : Bytes) : Option (Nat × Bytes) :=
  if ip.compAlgo % 16 = compNone ∨ ip.compAlgo % 16 = compAutozero then some (compNone, data)
  else image t ip data

/-- How a write of a block ends: with a hole, with an error of the assignment of
storage, in an inode, without a copy after a dedup hit, or copied. -/
inductive WritePath (t : Tools) (ip : Inode) (f : Faults) (h : Dev) (chain : Option Chain)
    (data : Bytes) (mtid : Nat) : Written → Prop where
  | hole {w} (hhole : makesHole ip data = true) (hzero : zeroWrite t ip f h chain mtid = some w) :
      WritePath t ip f h chain data mtid w
  | failed {comp bs a ip'} (hno : makesHole ip data = false)
      (hst : stored t ip data = some (comp, bs))
      (ha : assignPhysical t ip f h chain bs mtid = some a) (he : a.errorp ≠ 0) :
      WritePath t ip f h chain data mtid ⟨a.errorp, a.chain, a.dev, ip'⟩
  | embedded {comp bs a c h' ip'} (hno : makesHole ip data = false)
      (hst : stored t ip data = some (comp, bs))
      (ha : assignPhysical t ip f h chain bs mtid = some a) (he : a.errorp = 0)
      (hc : a.chain = some c) (htype : c.type = .inode) (hem : a.dev.embed c data = some h') :
      WritePath t ip f h chain data mtid ⟨0, some c, h', ip'⟩
  | modified {comp bs a c error c' h' w} (hno : makesHole ip data = false)
      (hst : stored t ip data = some (comp, bs))
      (ha : assignPhysical t ip f h chain bs mtid = some a) (he : a.errorp = 0)
      (hc : a.chain = some c) (htype : c.type = .inode)
      (hm : chainModify t.toHashes ip.lsnapTid a.dev c mtid none false = some (error, c', h'))
      (herr : w.errorp = error) (hchain : w.chain = some c')
      (hdev : if error ≠ 0 then w.dev = h' else h'.embed c' data = some w.dev) :
      WritePath t ip f h chain data mtid w
  | shared {comp bs a c c' ip'} (hno : makesHole ip data = false)
      (hst : stored t ip data = some (comp, bs))
      (ha : assignPhysical t ip f h chain bs mtid = some a) (he : a.errorp = 0)
      (hc : a.chain = some c) (hhit : a.hit = true)
      (hfin : finishDedup t ip c comp bs = some c') :
      WritePath t ip f h chain data mtid ⟨0, some c', a.dev, ip'⟩
  | copied {comp bs a c error c' h' ip'} (hno : makesHole ip data = false)
      (hst : stored t ip data = some (comp, bs))
      (ha : assignPhysical t ip f h chain bs mtid = some a) (he : a.errorp = 0)
      (hc : a.chain = some c) (hmiss : a.hit = false) (htype : c.type = .data)
      (hmod : c.modified = true) (hw : writeData t ip a.dev c comp bs = some (error, c', h')) :
      WritePath t ip f h chain data mtid ⟨error, some c', h', ip'⟩

/-- The data branch and the inode branch of `hammer2_write_bp`. -/
theorem writeBp_path {t : Tools} {ip : Inode} {f : Faults} {h : Dev} {chain : Option Chain}
    {data : Bytes} {mtid : Nat} {a : Assigned} {c : Chain} {w : Written}
    (hno : makesHole ip data = false) (hst : stored t ip data = some (compNone, data))
    (ha : assignPhysical t ip f h chain data mtid = some a) (he : a.errorp = 0)
    (hc : a.chain = some c) (hmiss : a.hit = false)
    (hw : (writeBp t ip a.dev c data).map (fun (error, c, h) => ⟨error, some c, h, ip⟩) = some w) :
    WritePath t ip f h chain data mtid w := by
  obtain ⟨⟨error, c', h'⟩, hbp, rfl⟩ := Option.map_eq_some_iff.mp hw
  unfold writeBp at hbp
  split at hbp
  · cases hbp
  · rename_i hmod
    split at hbp
    · rename_i htype
      obtain ⟨h'', hem, hres⟩ := Option.map_eq_some_iff.mp hbp
      obtain ⟨rfl, rfl, rfl⟩ := triple_inj hres
      exact .embedded hno hst ha he hc htype hem
    · rename_i htype
      exact .copied hno hst ha he hc hmiss htype (Bool.not_eq_false _ ▸ hmod) hbp
    · cases hbp

/-- **Every write of a block** ends in one of the six ways. -/
theorem writeFileCore_path {t : Tools} {ip : Inode} {f : Faults} {h : Dev} {chain : Option Chain}
    {data : Bytes} {mtid : Nat} {w : Written}
    (hw : writeFileCore t ip f h chain data mtid = some w) :
    WritePath t ip f h chain data mtid w := by
  have hhole : ip.compAlgo % 16 ≠ compNone →
      (ip.checkAlgo ≠ checkNone ∧ testBlockZeros data = true ↔ makesHole ip data = true) := by
    intro hne
    unfold makesHole
    simp [hne]
  unfold writeFileCore at hw
  split at hw
  · -- Without compression.
    rename_i hnone
    have hno : makesHole ip data = false := by
      unfold makesHole
      simp [hnone]
    have hst : stored t ip data = some (compNone, data) := if_pos (Or.inl hnone)
    unfold writePlain at hw
    obtain ⟨a, ha, hw⟩ := Option.bind_eq_some_iff.mp hw
    simp only at hw
    split at hw
    · rename_i hne
      obtain rfl := Option.some.inj hw
      exact .failed hno hst ha hne
    · rename_i hne
      have he := Decidable.not_not.mp hne
      split at hw
      · cases hw
      · rename_i c hc
        split at hw
        · rename_i htype
          obtain ⟨h', hem, rfl⟩ := Option.map_eq_some_iff.mp hw
          exact .embedded hno hst ha he hc htype hem
        · split at hw
          · rename_i hhit
            obtain ⟨c', hfin, rfl⟩ := Option.map_eq_some_iff.mp hw
            exact .shared hno hst ha he hc hhit hfin
          · rename_i hhit
            exact writeBp_path hno hst ha he hc (Bool.not_eq_true _ ▸ hhit) hw
  · rename_i hnone
    have hhole := hhole hnone
    split at hw
    · -- The check for zeros only.
      rename_i hauto
      have hst : stored t ip data = some (compNone, data) := if_pos (Or.inr hauto)
      unfold zeroCheckAndWrite at hw
      split at hw
      · rename_i hz
        exact .hole (hhole.mp hz) hw
      · rename_i hz
        have hno : makesHole ip data = false := Bool.not_eq_true _ ▸ fun hy => hz (hhole.mpr hy)
        obtain ⟨a, ha, hw⟩ := Option.bind_eq_some_iff.mp hw
        simp only at hw
        split at hw
        · rename_i hne
          obtain rfl := Option.some.inj hw
          exact .failed hno hst ha hne
        · rename_i hne
          have he := Decidable.not_not.mp hne
          split at hw
          · cases hw
          · rename_i c hc
            split at hw
            · rename_i hhit
              obtain ⟨c', hfin, rfl⟩ := Option.map_eq_some_iff.mp hw
              exact .shared hno hst ha he hc hhit hfin
            · rename_i hhit
              exact writeBp_path hno hst ha he hc (Bool.not_eq_true _ ▸ hhit) hw
    · -- With compression.
      rename_i hauto
      have hst : stored t ip data = image t ip data := if_neg (fun hor => hor.elim hnone hauto)
      unfold compressAndWrite at hw
      split at hw
      · cases hw
      split at hw
      · rename_i hz
        exact .hole (hhole.mp hz) hw
      · rename_i hz
        have hno : makesHole ip data = false := Bool.not_eq_true _ ▸ fun hy => hz (hhole.mpr hy)
        obtain ⟨⟨comp, bs⟩, hi, hw⟩ := Option.bind_eq_some_iff.mp hw
        obtain ⟨a, ha, hw⟩ := Option.bind_eq_some_iff.mp hw
        rw [hi] at hst
        simp only at hw
        split at hw
        · rename_i hne
          obtain rfl := Option.some.inj hw
          exact .failed hno hst ha hne
        · rename_i hne
          have he := Decidable.not_not.mp hne
          split at hw
          · cases hw
          · rename_i c hc
            split at hw
            · rename_i htype
              obtain ⟨⟨error, c', h'⟩, hm, hw⟩ := Option.bind_eq_some_iff.mp hw
              simp only at hw
              split at hw
              · rename_i herr
                obtain rfl := Option.some.inj hw
                exact .modified hno hst ha he hc htype hm rfl rfl (by rw [if_pos herr])
              · rename_i herr
                obtain ⟨h'', hem, rfl⟩ := Option.map_eq_some_iff.mp hw
                exact .modified hno hst ha he hc htype hm (Decidable.not_not.mp herr).symm rfl
                  (by rw [if_neg herr]; exact hem)
            · split at hw
              · rename_i hhit
                obtain ⟨c', hfin, rfl⟩ := Option.map_eq_some_iff.mp hw
                exact .shared hno hst ha he hc hhit hfin
              · rename_i hhit
                split at hw
                · cases hw
                · rename_i hbad
                  have hbad := not_or.mp hbad
                  obtain ⟨⟨error, c', h'⟩, hd, rfl⟩ := Option.map_eq_some_iff.mp hw
                  exact .copied hno hst ha he hc (Bool.not_eq_true _ ▸ hhit)
                    (Decidable.not_not.mp hbad.2) (Bool.not_eq_false _ ▸ hbad.1) hd

/-! ## Reading -/

/-- Decompression and copy of a data block into a buffer of `bufsize` bytes.  A
failed LZ4 decompression clears memory in front of the buffer: `none`. -/
def decodeBlock (t : Tools) (comp : Nat) (bs : Bytes) (bufsize : Nat) : Option Bytes :=
  if comp = compLz4 then
    if bs.length - 4 < readLe32 bs then none
    else (t.lz4.decompress ((bs.drop 4).take (readLe32 bs)) bufsize).bind fun r =>
      if bufsize < r.length then none else some (padTo bufsize r)
  else if comp = compZlib then
    match t.zlib.inflate bs bufsize with
    | none => some (zeros bufsize)
    | some r => if bufsize < r.length then none else some (padTo bufsize r)
  else if comp = compNone then
    if bufsize < bs.length then none else some (padTo bufsize bs)
  else none

/-- `hammer2_strategy_read_completion`; a block without a chain reads as zeros. -/
def readBack (t : Tools) (h : Dev) (chain : Option Chain) (bufsize : Nat) : Option Bytes :=
  match chain with
  | none => some (zeros bufsize)
  | some c =>
      match c.type with
      | .inode =>
          some (padTo bufsize (Memory.read h.mem (c.dataOff.base + embeddedOff) embeddedBytes))
      | .data => decodeBlock t c.comp (h.block c.dataOff) bufsize
      | _ => none

end Hammer2.File
