/-
# `Hammer2.Recover.Dump` — the restoration pass

    dumpFileData   the blocks of a file
    dumpInumFile   a version of a file, linked to the one that is there or written
    dumpTree       an inode
    dumpDirData    the entries of a directory
    cmdRecover     every directory that the path may begin at

The recursion is on a fuel; without it a run that does not end could not be told.
-/
import Mathlib.Data.Nat.Digits.Defs
import Hammer2.Recover.Media

namespace Hammer2.Recover

open Fuel
open Fsck (Blockref getVolume pbufsize)

/-! ## The state of a pass -/

/-- The hash tables, by the path of the `topology_entry_t` and the place of the inode; what is
changed of an `inode_entry_t`; and what was made, the latest first. -/
structure St where
  topoInode : List (Path × Nat)
  topoBref : List (Path × Nat)
  iterator : Path → Nat
  encountered : Nat → Bool
  loopcheck : Nat → Bool
  linkFilePath : Nat → Option Path
  cache : Cache
  log : List Event

namespace St

def init : St := ⟨[], [], fun _ => 1, fun _ => false, fun _ => false, fun _ => none, .init, []⟩

def event (s : St) (e : Event) : St := { s with log := e :: s.log }

def setLoop (s : St) (i : Nat) (v : Bool) : St :=
  { s with loopcheck := fun j => if j = i then v else s.loopcheck j }

def meet (s : St) (i : Nat) : St :=
  { s with encountered := fun j => if j = i then true else s.encountered j }

def setLink (s : St) (i : Nat) (path : Path) : St :=
  { s with linkFilePath := fun j => if j = i then some path else s.linkFilePath j }

/-- `++topo->iterator` -/
def iterate (s : St) (dest : Path) : St :=
  { s with iterator := fun p => if p = dest then s.iterator p + 1 else s.iterator p }

def enterInode (s : St) (dest : Path) (i : Nat) : St :=
  { s with topoInode := (dest, i) :: s.topoInode }

def enterBref (s : St) (dest : Path) (off : Nat) : St :=
  { s with topoBref := (dest, off) :: s.topoBref }

end St

/-- `".%05ld"` -/
def versionSuffix (n : Nat) : Path :=
  46 :: List.leftpad 5 48 ((Nat.digits 10 n).reverse.map fun d => UInt8.ofNat (48 + d))

/-- `"%s.%05ld"` -/
def versionPath (dest : Path) (n : Nat) : Path := dest ++ versionSuffix n

/-- `".corrupted"` -/
def corruptedSuffix : Path := [46, 99, 111, 114, 114, 117, 112, 116, 101, 100]

/-- `"%s.corrupted"` -/
def corruptedPath (path : Path) : Path := path ++ corruptedSuffix

section Code

variable (m : Recovery)

/-! ## Data -/

/-- A `hammer2_media_data_t` of which a block was read. -/
def onStack (block : List UInt8) (stack : Nat → UInt8) (i : Nat) : UInt8 :=
  if i < block.length then block.getD i 0 else stack i

/-- `*(const int *)inbuf` -/
def cinsize (inbuf : Nat → UInt8) : Int :=
  (BitVec.ofNat 32 (Bytes.decode [inbuf 0, inbuf 1, inbuf 2, inbuf 3])).toInt

/-- `OutBuf`, of which `n` bytes were decompressed. -/
def outBuf (n : Nat) (out : Nat → UInt8) (i : Nat) : UInt8 := if i < n then out i else 0

/-- `hammer2_decompress_LZ4`; the compressed bytes are behind the size. -/
def decompressLz4 (inbuf : Nat → UInt8) (insize outsize : Nat) : Res ((Nat → UInt8) × Bool) :=
  if pbufsize < outsize then .panic
  else if insize < cinsize inbuf then .done (outBuf 0 inbuf, false)
  else
    access 4 (cinsize inbuf).toNat pbufsize <|
      let (result, out) :=
        m.lz4.run ((List.range (cinsize inbuf).toNat).map fun i => inbuf (4 + i)) outsize
      if result < 0 then .done (outBuf 0 out, false) else .done (outBuf result.toNat out, true)

/-- `hammer2_decompress_ZLIB` -/
def decompressZlib (inbuf : Nat → UInt8) (insize outsize : Nat) : Res ((Nat → UInt8) × Bool) :=
  if pbufsize < outsize then .panic
  else
    let z := m.zlib.run ((List.range insize).map inbuf) outsize
    if z.result ≠ File.Decompress.zStreamEnd then .done (outBuf 0 z.out, false)
    else .done (outBuf (outsize - z.availOut) z.out, true)

/-- `pwrite()`: the kernel refuses a length above `SSIZE_MAX` and an offset below zero before it
looks at the buffer. -/
def pwrite (buf : Nat → UInt8) (size count off : Nat) (s : St) : Res St :=
  if 2 ^ 63 ≤ count ∨ 2 ^ 63 ≤ off then .done s
  else access 0 count size (.done (s.event (.pwrite off ((List.range count).map buf))))

/-- The `psize` bytes at `dptr`, cut at the end of the file; all of it is modulo 2^64. -/
def writeData (fsize : Nat) (b : Blockref) (dptr : Nat → UInt8) (size psize : Nat) (s : St) :
    Res St :=
  if fsize < (b.key + psize) % 2 ^ 64 then
    pwrite dptr size ((fsize + 2 ^ 64 - b.key) % 2 ^ 64) b.key s
  else pwrite dptr size psize b.key s

/-- `sizeof(OutBuf)` -/
def outBufSize : Nat := pbufsize + 128

/-- `HAMMER2_BREF_TYPE_DATA`; `1L << keybits` takes the low six bits. -/
def dumpData (fsize : Nat) (b : Blockref) (block : List UInt8) (res : Bool) (s : St) :
    Res (Bool × St) :=
  let data := onStack block (m.host.stack s.log)
  let nsize := 2 ^ (b.keybits % 64)
  if pbufsize < nsize then .done (false, s)
  else if b.decComp = 2 then
    (decompressLz4 m data block.length nsize).bind fun (dptr, res2) =>
      (writeData fsize b dptr outBufSize nsize s).bind fun s => .done (res && res2, s)
  else if b.decComp = 3 then
    (decompressZlib m data block.length nsize).bind fun (dptr, res2) =>
      (writeData fsize b dptr outBufSize nsize s).bind fun s => .done (res && res2, s)
  else
    (writeData fsize b data pbufsize block.length s).bind fun s => .done (res, s)

/-! ## Files -/

/-- One round of the loop of `dump_file_data`; `down` is the call for an indirect block. -/
def dumpFileBref (down : List Blockref → St → Res (Bool × St)) (fsize : Nat) (r : Bool × St)
    (b : Blockref) : Res (Bool × St) :=
  if b.type = Fsck.brefTypeEmpty ∨ b.dataOff = 0 then .done r
  else if (getVolume m.fso b.dataOff).isNone then .done r
  else if pbufsize < psize b.dataOff then .done (false, r.2)
  else
    (readBlock m b).bind fun block =>
      match block with
      | none => .done (false, r.2)
      | some block =>
          if b.type = Fsck.brefTypeData then dumpData m fsize b block r.1 r.2
          else if b.type = Fsck.brefTypeIndirect then
            (down (blockrefs block) r.2).bind fun (rtmp, s) => .done (r.1 && rtmp, s)
          else .done r

/-- `dump_file_data` -/
def dumpFileData (fsize : Nat) : Nat → List Blockref → St → Res (Bool × St)
  | 0, _, _ => .more
  | n + 1, base, s => foldl (dumpFileBref m (dumpFileData fsize n) fsize) (true, s) base

/-- The bytes of the file, into the file that was opened. -/
def fileContent (n : Nat) (ino : List UInt8) (s : St) : Res (Bool × St) :=
  if Inode.directdata ino then
    if 0 < Inode.size ino ∧ Inode.size ino ≤ 512 then
      access 0 (Inode.size ino) (Inode.data ino).length
        (.done (true, s.event (.write ((Inode.data ino).take (Inode.size ino)))))
    else .done (true, s)
  else dumpFileData m (Inode.size ino) n (Inode.blockset ino) s

/-- The version was dumped before, and can be linked. -/
def linked (iscan : Nat) (path1 : Path) (s : St) : Bool :=
  match s.linkFilePath iscan with
  | none => false
  | some path => m.host.link s.log false path path1 || m.host.link s.log true path path1

/-- `dump_inum_file` -/
def dumpInumFile (n iscan : Nat) (ino : List UInt8) (path1 : Path) (s : St) : Res St :=
  if linked m iscan path1 s then .done (s.event (.link iscan path1))
  else
    (fileContent m n ino (s.event (.openFile iscan path1))).bind fun (res, s) =>
      if res then .done (s.setLink iscan path1)
      else .done ((s.event (.rename (corruptedPath path1))).setLink iscan (corruptedPath path1))

/-! ## The tree -/

/-- What was read is compared with the check code of the media pass. -/
def compareInode (iscan : InodeEntry) (read : Nat × Option ((Nat → UInt8) × Nat)) :
    Res (Option (InodeEntry × List UInt8)) :=
  match read.2 with
  | none => .done none
  | some (buf, off) =>
      if read.1 ≠ Inode.bytes then .done none
      else access off Inode.bytes pbufsize <|
        let ino := (List.range Inode.bytes).map fun k => buf (off + k)
        if iscan.inodeCrc ≠ m.checks.icrc32 ino then .done none else .done (some (iscan, ino))

/-- The inode is read again. -/
def rereadInode (i : Nat) (s : St) : Res (Option (InodeEntry × List UInt8) × St) :=
  match m.inodes[i]? with
  | none => .panic
  | some iscan =>
      let (read, cache) := cacheRead m.fso s.cache iscan.dataOff
      (compareInode m iscan read).bind fun found => .done (found, { s with cache })

/-- `HTABLE_MASK` of an inode number. -/
def inumHash (inum : Nat) : Nat := (inum ^^^ inum / 65536) % (4 * 1024 * 1024)

def inumOf (i : Nat) : Option Nat := m.inodes[i]?.map (·.inum)

def typeOf (i : Nat) : Option UInt8 := m.inodes[i]?.map (·.type)

/-- `find_first_inode`, and those that come after it in the chain. -/
def versions (inum : Nat) : List Nat :=
  ((List.range m.inodes.length).filter fun i => (inumOf m i).map inumHash = some (inumHash inum)).dropWhile
    fun i => inumOf m i ≠ some inum

/-- `mkdir()` of the target, except for the base. -/
def makeDir (depth i : Nat) (dest : Path) (s : St) : St :=
  if depth = 1 then s
  else if m.host.mkdir s.log dest then (s.event (.mkdir dest)).meet i else s

/-- One version of the inode that an entry names; `tree` is the call of `dump_tree`. -/
def dumpVersion (tree : Nat → Path → Path → Nat → St → Res St) (b : Blockref) (path remain : Path)
    (depth : Nat) (s : St) (i : Nat) : Res St :=
  if inumOf m i = some b.inum ∧ s.loopcheck i = false ∧ typeOf m i = some b.direntType then
    (tree i path remain (depth + 1) (s.setLoop i true)).bind fun s => .done (s.setLoop i false)
  else .done s

/-- The blockref does not lead to a block, or to one that can be read into the buffer. -/
def usable (b : Blockref) : Bool :=
  radix b.dataOff = 0 ∨ (getVolume m.fso b.dataOff).isSome ∧ psize b.dataOff ≤ pbufsize

/-- One round of the loop of `dump_dir_data`. -/
def dumpDirBref (tree : Nat → Path → Path → Nat → St → Res St)
    (down : List Blockref → St → Res (Bool × St)) (dest remain : Path) (depth : Nat)
    (r : Bool × St) (b : Blockref) : Res (Bool × St) :=
  if b.type = Fsck.brefTypeEmpty then .done r
  else if ¬ usable m b then .done (false, r.2)
  else if b.type = Fsck.brefTypeDirent then
    (matchEntry m remain b).bind fun name =>
      match name with
      | none => .done r
      | some name =>
          (foldl (dumpVersion m tree b (join dest name) (remain.drop (flen remain)) depth) r.2
            (versions m b.inum)).bind fun s => .done (r.1, s)
  else if b.type = Fsck.brefTypeIndirect then
    if radix b.dataOff = 0 then .done (false, r.2)
    else if (dest, b.dataOff) ∈ r.2.topoBref then .done r
    else
      let s := r.2.enterBref dest b.dataOff
      (readBlock m b).bind fun block =>
        match block with
        | none => .done (false, s)
        | some block =>
            (down (blockrefs block) s).bind fun (rtmp, s) => .done (r.1 && rtmp, s)
  else .done r

/-- `dump_tree` from the check of the depth on; `scan` is the call of `dump_dir_data`. -/
def dumpInode (scan : Path → List Blockref → St → Res (Bool × St)) (n i : Nat) (iscan : InodeEntry)
    (ino : List UInt8) (dest remain : Path) (depth : Nat) (s : St) : Res St :=
  if 256 < depth ∧ s.encountered i then .done s
  else if (dest, i) ∈ s.topoInode then .done s
  else
    let remain := skipSlashes remain
    let s := s.enterInode dest i
    if iscan.type = objtypeDirectory then
      if m.isafile ∧ atEnd remain then .done s
      else (scan remain (Inode.blockset ino) (makeDir m depth i dest s)).bind fun r => .done r.2
    else if iscan.type = objtypeRegfile then
      if atEnd remain then
        dumpInumFile m n i ino (versionPath dest (s.iterator dest)) ((s.iterate dest).meet i)
      else .done s
    else if iscan.type = objtypeSoftlink then
      if atEnd remain then .done (s.iterate dest) else .done s
    else .done s

mutual

/-- `dump_tree` -/
def dumpTree : Nat → Nat → Path → Path → Nat → St → Res St
  | 0, _, _, _, _, _ => .more
  | n + 1, i, dest, remain, depth, s =>
      (rereadInode m i s).bind fun (found, s) =>
        match found with
        | none => .done s
        | some (iscan, ino) =>
            dumpInode m (fun remain base s => dumpDirData n dest remain base depth s) n i iscan ino
              dest remain depth s
termination_by structural n _ _ _ _ _ => n

/-- `dump_dir_data` -/
def dumpDirData : Nat → Path → Path → List Blockref → Nat → St → Res (Bool × St)
  | 0, _, _, _, _, _ => .more
  | n + 1, dest, remain, base, depth, s =>
      foldl (dumpDirBref m (dumpTree n) (fun l s => dumpDirData n dest remain l depth s)
        dest remain depth) (true, s) base
termination_by structural n _ _ _ _ _ => n

end

/-- The path begins at a root inode if it is absolute. -/
def starts (i : Nat) : Bool :=
  typeOf m i = some objtypeDirectory ∧ (m.pathname.headD 0 = slash → inumOf m i = some 1)

/-- The path as it is looked for. -/
def wanted : Path := if m.pathname.headD 0 = slash then skipSlashes m.pathname else m.pathname

/-- The restoration pass of `cmd_recover`. -/
def cmdRecover (n : Nat) : Res St :=
  foldl (fun s i => if starts m i then dumpTree m n i m.destdir (wanted m) 1 s else .done s)
    St.init (List.range m.inodes.length)

end Code

end Hammer2.Recover
