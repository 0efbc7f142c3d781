/-
# `Hammer2.Boot.Reader` — the reader of `boot`

`sys/lib/libsa/hammer2.c`: enough of the file system to load a kernel.

    mount      volume header, super-root, and the PFS to boot from
    open_      from a path to an inode
    read       from a position in the file
    scan       the search in a tree of blockrefs, on which all of this rests

`Env` says which reads of the device and which allocations succeed; those that `h2_scan` and
its callbacks make are counted apart from the others.  `none` is a scan deeper than the stack
goes, and an inode that would be read over the table being scanned.
-/
import Mathlib.Algebra.Group.Nat.Defs
import Mathlib.Logic.Function.Iterate
import Hammer2.Lib.Lz4

namespace Hammer2.Boot

/-- A buffer, or the device, by its bytes. -/
abbrev Mem := Nat → UInt8

/-- An integer of `n` bytes, little-endian. -/
def le (m : Mem) (i : Nat) : Nat → Nat
  | 0 => 0
  | n + 1 => (m i).toNat + 256 * le m (i + 1) n

def bytesAt (m : Mem) (i n : Nat) : List UInt8 := (List.range n).map fun k => m (i + k)

/-! ## On-disk structures -/

def volumeIdHbo : Nat := 0x48414d3205172011
def brefTypeEmpty : UInt8 := 0
def brefTypeInode : UInt8 := 1
def brefTypeIndirect : UInt8 := 2
def brefTypeData : UInt8 := 3
def brefTypeDirent : UInt8 := 4
def compNone : UInt8 := 0
def compAutozero : UInt8 := 1
def compLz4 : UInt8 := 2
def objtypeDirectory : UInt8 := 1
def opflagDirectdata : UInt8 := 1
def pbufsize : Nat := 65536
def dirhashLomask : Nat := 0x7FFF

/-- `struct h2_blockref`; `inum` and `namlen` are the parts of `embed` that a DIRENT uses. -/
structure Blockref where
  type : UInt8
  methods : UInt8
  keybits : UInt8
  key : Nat
  dataOff : Nat
  inum : Nat
  namlen : Nat
  check : List UInt8
deriving DecidableEq

def blockrefAt (m : Mem) (i : Nat) : Blockref where
  type := m i
  methods := m (i + 1)
  keybits := m (i + 3)
  key := le m (i + 8) 8
  dataOff := le m (i + 32) 8
  inum := le m (i + 48) 8
  namlen := le m (i + 56) 2
  check := bytesAt m (i + 64) 64

/-- `n` blockrefs in a row. -/
def blockrefs (m : Mem) (i n : Nat) : List Blockref :=
  (List.range n).map fun k => blockrefAt m (i + 128 * k)

namespace Blockref

/-- `data_off & H2_OFF_MASK` -/
def off (br : Blockref) : Nat := br.dataOff / 64 * 64

/-- `data_off & H2_OFF_RADIX` -/
def radix (br : Blockref) : Nat := br.dataOff % 64

def lo (br : Blockref) : Nat := br.key

def hi (br : Blockref) : Nat :=
  if br.keybits.toNat ≥ 64 then 2 ^ 64 - 1 else (br.key + (2 ^ br.keybits.toNat - 1)) % 2 ^ 64

/-- The key range of the blockref meets the one that is searched. -/
def meets (br : Blockref) (kbeg kend : Nat) : Bool := !(decide (br.hi < kbeg) || decide (br.lo > kend))

/-- `H2_DEC_COMP(methods)` -/
def comp (br : Blockref) : UInt8 := br.methods &&& 15

end Blockref

def inoType (ino : Mem) : UInt8 := ino 0x50
def inoOpflags (ino : Mem) : UInt8 := ino 0x51
def inoSize (ino : Mem) : Nat := le ino 0x60 8
def inoNamelen (ino : Mem) : Nat := le ino 0x80 2
def inoBlockset (ino : Mem) : List Blockref := blockrefs ino 0x200 4

/-- The name of an inode is this one. -/
def inoNamed (ino : Mem) (name : List UInt8) : Bool :=
  inoNamelen ino == name.length && bytesAt ino 0x100 name.length == name

/-- `INO_OPFLAGS(ino) & H2_OPFLAG_DIRECTDATA` -/
def directdata (ino : Mem) : Bool := inoOpflags ino &&& opflagDirectdata != 0

/-! ## Decompression -/

/-- A length goes on while its bytes are 255. -/
def readLen : List UInt8 → Nat → Option (Nat × List UInt8)
  | [], _ => none
  | b :: ip, len => if b = 255 then readLen ip (len + 255) else some (len + b.toNat, ip)

/-- The length that half a token begins. -/
def lenOf (half : Nat) (ip : List UInt8) : Option (Nat × List UInt8) :=
  if half = 15 then readLen ip 15 else some (half, ip)

/-- `lz4_decompress_block` from the token on; every round takes one byte at least. -/
def decompressFrom (dstcap : Nat) : Nat → List UInt8 → List UInt8 → Option (List UInt8)
  | _, [], out => some out
  | 0, _ :: _, _ => none
  | fuel + 1, tok :: ip, out =>
      match lenOf (tok.toNat / 16) ip with
      | none => none
      | some (len, ip) =>
          if out.length + len > dstcap ∨ len > ip.length then none
          else match ip.drop len with
            | [] => some (out ++ ip.take len)
            | [_] => none
            | o₀ :: o₁ :: ip' =>
                let off := o₀.toNat + 256 * o₁.toNat
                if off = 0 ∨ off > (out ++ ip.take len).length then none
                else match lenOf (tok.toNat % 16) ip' with
                  | none => none
                  | some (mlen, ip'') =>
                      if (out ++ ip.take len).length + (mlen + 4) > dstcap then none
                      else decompressFrom dstcap fuel ip''
                        (Lz4.copyMatch off (mlen + 4) (out ++ ip.take len))

/-- `lz4_decompress_block`: the bytes it writes. -/
def lz4DecompressBlock (src : List UInt8) (dstcap : Nat) : Option (List UInt8) :=
  decompressFrom dstcap src.length src []

/-! ## Directory hash -/

def crcBit (crc : BitVec 32) : BitVec 32 :=
  (crc >>> 1) ^^^ (0x82F63B78#32 &&& -(crc &&& 1#32))

def crcByte (crc : BitVec 32) (b : UInt8) : BitVec 32 :=
  crcBit^[8] (crc ^^^ b.toBitVec.setWidth 32)

/-- `h2_icrc32` -/
def h2Icrc32 (buf : List UInt8) : BitVec 32 := buf.foldl crcByte 0xFFFFFFFF#32 ^^^ 0xFFFFFFFF#32

def isSeparator (c : UInt8) : Bool := c == 46 || c == 45 || c == 95 || c == 126

/-- The loop of `h2_dirhash`; `piece` is what lies between `j` and `i`. -/
def hashPieces : List UInt8 → List UInt8 → BitVec 32 → BitVec 32
  | [], piece, crcx => if piece = [] then crcx else crcx + h2Icrc32 piece
  | c :: cs, piece, crcx =>
      if isSeparator c then hashPieces cs [] (if piece = [] then crcx else crcx + h2Icrc32 piece)
      else hashPieces cs (piece ++ [c]) crcx

/-- `h2_dirhash` -/
def h2Dirhash (name : List UInt8) : Nat :=
  let crcx := hashPieces name [] 0#32 ||| 0x80000000#32
  let whole := h2Icrc32 name ^^^ (h2Icrc32 name <<< 16)
  (crcx.toNat <<< 32 ||| (whole &&& 0xFFFF0000#32).toNat) ||| 0x8000

/-! ## Device and heap -/

inductive Errno
  | eio
  | enomem
  | enoent
  | enotdir
  | einval
deriving DecidableEq

/-- Which calls succeed, in their order, and what new memory holds. -/
structure Env where
  scanRead : Nat → Bool
  scanAlloc : Nat → Bool
  read : Nat → Bool
  alloc : Nat → Option Mem

/-- `h2_base`, and how many calls there have been. -/
structure World where
  base : Nat
  scanReads : Nat
  scanAllocs : Nat
  reads : Nat
  allocs : Nat
deriving DecidableEq

abbrev M := StateT World Option

theorem bind_run {α β : Type} (m : M α) (f : α → M β) (w : World) :
    (m >>= f) w = (m w).bind fun p => f p.1 p.2 := rfl

/-- Where a call is made. -/
inductive Site
  | scan
  | direct
deriving DecidableEq

section Code

variable (d : Mem) (env : Env)

def alloc : M (Option Mem) := fun w =>
  some (env.alloc w.allocs, { w with allocs := w.allocs + 1 })

def scanAlloc : M Bool := fun w =>
  some (env.scanAlloc w.scanAllocs, { w with scanAllocs := w.scanAllocs + 1 })

/-- `dv_strategy` -/
def strategy (site : Site) : M Bool := fun w =>
  match site with
  | .scan => some (env.scanRead w.scanReads, { w with scanReads := w.scanReads + 1 })
  | .direct => some (env.read w.reads, { w with reads := w.reads + 1 })

/-- The reads of `h2_pread`, in pieces of 8192 bytes. -/
def strategies (site : Site) : Nat → M Bool
  | 0 => pure true
  | n + 1 => do
      if ← strategy env site then strategies site n else pure false

/-- `h2_pread`: what is in the buffer afterwards. -/
def pread (site : Site) (off bytes : Nat) : M (Option Mem) := do
  let w ← get
  if ← strategies env site ((bytes + 8191) / 8192) then
    pure (some fun i => d ((w.base + off) / 512 * 512 + i))
  else pure none

/-- `h2_readphys`: the block, and its size. -/
def readphys (site : Site) (br : Blockref) (bufsz : Nat) : M (Option (Mem × Nat)) :=
  if br.radix = 0 then pure none
  else if 2 ^ br.radix > bufsz then pure none
  else do
    match ← pread d env site br.off (2 ^ br.radix) with
    | none => pure none
    | some buf => pure (some (buf, 2 ^ br.radix))

/-! ## The scan -/

/-- What a scan returns: 0, the 1 of a callback together with what it has found, or an
error. -/
inductive Rc (ρ : Type)
  | ok
  | stop (r : ρ)
  | err (e : Errno)

section Scan

variable {ρ : Type} (cb : Blockref → M (Option ρ)) (kbeg kend : Nat)

/-- The loop over the blockrefs of a table. -/
def scanList (node : Blockref → M (Rc ρ)) : List Blockref → M (Rc ρ)
  | [] => pure .ok
  | br :: brs =>
      if br.type = brefTypeEmpty then scanList node brs
      else if !br.meets kbeg kend then scanList node brs
      else do
        match ← node br with
        | .ok => scanList node brs
        | rc => pure rc

def scanLeaf (br : Blockref) : M (Rc ρ) := do
  match ← cb br with
  | none => pure .ok
  | some r => pure (.stop r)

/-- The loop over the pieces of an indirect block, `H2_SCANCHUNK` bytes at a time. -/
def scanChunks (sub : List Blockref → M (Rc ρ)) (ioff isz : Nat) : Nat → Nat → M (Rc ρ)
  | 0, _ => pure .ok
  | n + 1, coff => do
      match ← pread d env .scan (ioff + coff) (min (isz - coff) 8192) with
      | none => pure (.err .eio)
      | some ib => do
          match ← sub (blockrefs ib 0 (min (isz - coff) 8192 / 128)) with
          | .ok => scanChunks sub ioff isz n (coff + 8192)
          | rc => pure rc

def scanIndirect (sub : List Blockref → M (Rc ρ)) (br : Blockref) : M (Rc ρ) :=
  if br.radix = 0 then pure (.err .eio)
  else do
    if ← scanAlloc env then
      scanChunks d env sub br.off (2 ^ br.radix) ((2 ^ br.radix + 8191) / 8192) 0
    else pure (.err .enomem)

/-- `h2_scan`, on a stack for `depth` more calls. -/
def scan : Nat → List Blockref → M (Rc ρ)
  | 0 => scanList kbeg kend fun br =>
      if br.type = brefTypeIndirect then fun _ => none else scanLeaf cb br
  | depth + 1 => scanList kbeg kend fun br =>
      if br.type = brefTypeIndirect then scanIndirect d env (scan depth) br else scanLeaf cb br

/-- The callers only look at what a callback has found. -/
def found (depth : Nat) (base : List Blockref) : M (Option ρ) := do
  match ← scan d env cb kbeg kend depth base with
  | .stop r => pure (some r)
  | _ => pure none

end Scan

/-! ## Lookups -/

/-- What `h2_namecb` finds: an inode, or the number of one. -/
inductive Hit
  | inode (ino : Mem)
  | dirent (inum : Nat)

/-- `h2_namecb`; `clobber` says that the inode buffer is the one with the table being scanned. -/
def namecb (clobber : Bool) (name : List UInt8) (br : Blockref) : M (Option Hit) :=
  if br.type = brefTypeInode then
    if clobber then fun _ => none
    else do
      match ← readphys d env .scan br 1024 with
      | none => pure none
      | some (ino, _) => pure (if inoNamed ino name then some (.inode ino) else none)
  else if br.type = brefTypeDirent then
    pure (if br.namlen = name.length ∧ name.length ≤ 64 ∧ br.check.take name.length = name then
      some (.dirent br.inum) else none)
  else pure none

/-- `h2_inumcb` -/
def inumcb (inum : Nat) (br : Blockref) : M (Option Mem) :=
  if br.type ≠ brefTypeInode then pure none
  else if br.key ≠ inum then pure none
  else do
    match ← readphys d env .scan br 1024 with
    | none => pure none
    | some (ino, _) => pure (some ino)

variable (depth : Nat)

/-- `h2_inode_by_inum` -/
def inodeByInum (iroot : Mem) (inum : Nat) : M (Except Errno Mem) := do
  match ← found d env (inumcb d env inum) inum inum depth (inoBlockset iroot) with
  | some ino => pure (.ok ino)
  | none => pure (.error .enoent)

/-- `h2_lookup` -/
def lookup (clobber : Bool) (iroot dir : Mem) (name : List UInt8) : M (Except Errno Mem) := do
  let lhc := h2Dirhash name
  match ← found d env (namecb d env clobber name) lhc (lhc + dirhashLomask) depth (inoBlockset dir) with
  | some (.inode ino) => pure (.ok ino)
  | some (.dirent inum) => inodeByInum d env depth iroot inum
  | none => pure (.error .enoent)

/-! ## Mount -/

def volMagic (m : Mem) : Nat := le m 0 8
def volMirror (m : Mem) : Nat := le m 0x78 8
def volSroot (m : Mem) : Blockref := blockrefAt m 0x200

/-- Where the volume header `i` is. -/
@[irreducible] def volOff (i : Nat) : Nat := i * 2 ^ 31

/-- One more volume header: it is taken if its `mirror_tid` is higher than that of the one at
hand. -/
def newest (best : Option Mem) (cur : Mem) : Option Mem :=
  if volMagic cur ≠ volumeIdHbo then best
  else if best.all fun vh => decide (volMirror cur > volMirror vh) then some cur
  else best

/-- The loop over the volume headers. -/
def headers : List Nat → Option Mem → M (Option Mem)
  | [], best => pure best
  | i :: is, best => do
      match ← pread d env .direct (volOff i) 1024 with
      | none => headers is best
      | some cur => headers is (newest best cur)

/-- The attempts that rebase the device to an entry of the partition table. -/
def mbr : List Nat → M (Option Mem)
  | [] => pure none
  | k :: ks => do
      modify fun w => { w with base := 0 }
      match ← pread d env .direct 0 512 with
      | none => pure none
      | some cur =>
          if le cur (446 + 16 * k + 8) 4 = 0 then mbr ks
          else do
            modify fun w => { w with base := le cur (446 + 16 * k + 8) 4 * 512 }
            match ← headers d env [0, 1, 2, 3] none with
            | some vh => pure (some vh)
            | none => mbr ks

/-- The choice of a volume header. -/
def volume : M (Option Mem) := do
  modify fun w => { w with base := 0 }
  match ← headers d env [0, 1, 2, 3] none with
  | some vh => pure (some vh)
  | none => mbr d env [0, 1, 2, 3]

/-- `BOOT_H2_PFS_LABEL` -/
def pfsLabel : List UInt8 := [0x52, 0x4f, 0x4f, 0x54]

/-- `h2_mount`: the inode of the PFS; `iroot` is what is in its buffer before. -/
def mount (iroot : Mem) : M (Except Errno Mem) := do
  let vh ← alloc env
  let sroot ← alloc env
  if vh.isNone ∨ sroot.isNone then pure (.error .enomem)
  else do
    match ← alloc env with
    | none => pure (.error .enomem)
    | some _ => do
        match ← volume d env with
        | none => pure (.error .einval)
        | some vh =>
            if (volSroot vh).type ≠ brefTypeInode then pure (.error .einval)
            else do
              match ← readphys d env .direct (volSroot vh) 1024 with
              | none => pure (.error .eio)
              | some (sroot, _) => lookup d env depth false iroot sroot pfsLabel

/-! ## Files -/

/-- `struct h2_file` -/
structure File where
  ino : Mem
  iroot : Mem
  seek : Nat

/-- The components of a path; one of more than 255 bytes is cut. -/
def components : List UInt8 → List UInt8 → List (List UInt8)
  | [], comp => if comp = [] then [] else [comp]
  | c :: cs, comp =>
      if c = 47 then (if comp = [] then [] else [comp]) ++ components cs []
      else if comp.length ≥ 255 then comp :: components cs [c]
      else components cs (comp ++ [c])

/-- From one inode to the next, along the components of a path. -/
def walk (iroot : Mem) : List (List UInt8) → Mem → M (Except Errno Mem)
  | [], ino => pure (.ok ino)
  | comp :: comps, ino =>
      if inoType ino ≠ objtypeDirectory then pure (.error .enotdir)
      else do
        match ← lookup d env depth true iroot ino comp with
        | .error e => pure (.error e)
        | .ok ino => walk iroot comps ino

/-- `hammer2_open` -/
def open_ (path : List UInt8) : M (Except Errno File) := do
  match ← alloc env with
  | none => pure (.error .enomem)
  | some _ => do
      match ← mount d env depth fun _ => 0 with
      | .error e => pure (.error e)
      | .ok iroot => do
          match ← walk d env depth iroot (components path []) iroot with
          | .error e => pure (.error e)
          | .ok ino => pure (.ok ⟨ino, iroot, 0⟩)

/-! ## Reading -/

/-- `h2_datacb` -/
def datacb (br : Blockref) : M (Option Blockref) :=
  if br.type ≠ brefTypeData then pure none else pure (some br)

/-- `bytes`, and `rest` after them. -/
def filled (bytes : List UInt8) (rest : Mem) : Mem := fun i => bytes.getD i (rest i)

/-- `h2_readblock`: what is in the buffer `out` afterwards, and the size of the block. -/
def readblock (ino : Mem) (loff : Nat) (out : Mem) : M (Except Errno (Mem × Nat)) := do
  match ← found d env datacb loff loff depth (inoBlockset ino) with
  | none => pure (.ok (fun _ => 0, pbufsize))
  | some br => do
      let lsize := if br.keybits.toNat ≥ 64 then pbufsize else min (2 ^ br.keybits.toNat) pbufsize
      if br.comp = compAutozero then
        pure (.ok (fun i => if i < lsize then 0 else out i, lsize))
      else do
        match ← alloc env with
        | none => pure (.error .enomem)
        | some _ => do
            match ← readphys d env .direct br pbufsize with
            | none => pure (.error .eio)
            | some (raw, psize) =>
                if br.comp = compNone then
                  pure (.ok (fun i => if i < min lsize psize then raw i
                    else if i < lsize then 0 else out i, lsize))
                else if br.comp = compLz4 then
                  let clen := le raw 0 4
                  if clen = 0 ∨ clen ≥ 2 ^ 31 ∨ clen > psize - 4 then pure (.error .eio)
                  else match lz4DecompressBlock (bytesAt raw 4 clen) lsize with
                    | none => pure (.error .eio)
                    | some bytes => pure (.ok (filled bytes out, lsize))
                else pure (.error .einval)

/-- The loop of `hammer2_read`: the error if there is one, the position and what has been
copied.  Every round copies one byte at least. -/
def readLoop (ino : Mem) (size : Nat) : Nat → Nat → List UInt8 →
    M (Option Errno × Nat × List UInt8)
  | 0, seek, dst => pure (none, seek, dst)
  | rounds + 1, seek, dst =>
      if dst.length < size ∧ seek < inoSize ino then do
        match ← alloc env with
        | none => pure (some .enomem, seek, dst)
        | some blk => do
            match ← readblock d env depth ino seek blk with
            | .error e => pure (some e, seek, dst)
            | .ok (blk, lsize) =>
                let boff := seek % lsize
                let chunk := min (min (size - dst.length) (lsize - boff)) (inoSize ino - seek)
                if chunk = 0 then pure (none, seek, dst)
                else readLoop ino size rounds (seek + chunk) (dst ++ bytesAt blk boff chunk)
      else pure (none, seek, dst)

/-- `hammer2_read` -/
def read (f : File) (size : Nat) : M (Option Errno × List UInt8 × File) :=
  if directdata f.ino then
    let n := min size (inoSize f.ino - f.seek)
    pure (none, bytesAt f.ino (0x200 + f.seek) n, { f with seek := f.seek + n })
  else do
    let (e, seek, dst) ← readLoop d env depth f.ino size size f.seek []
    pure (e, dst, { f with seek := seek })

end Code

/-- Where `hammer2_seek` counts from. -/
inductive Whence
  | set
  | cur
  | end_
deriving DecidableEq

/-- `hammer2_seek`: the new position. -/
def seekTo (f : File) (offset : Int) : Whence → Int
  | .set => offset
  | .cur => f.seek + offset
  | .end_ => inoSize f.ino - offset

end Hammer2.Boot
