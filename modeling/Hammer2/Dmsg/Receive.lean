/-
# `Hammer2.Dmsg.Receive` — the receive queue

`dmsg_ioq_read` on an unencrypted link.  Bytes come from the socket in pieces of any size
into the FIFO `buf`, are read there as headers, and are copied to the auxiliary data of the
message under construction.

    beg .. cdx    bytes ready to be parsed; without encryption `cdx = cdn = fin`
    Cut           what a `read()` of the socket answers
    ioqRead       one call; `none` stands for what must not happen: a failing assertion, a
                  `read()` without room, a copy outside of its buffer, or FIFO indices out of
                  order, which are compared after every change
-/
import Hammer2.Lib.Memory
import Hammer2.Dmsg.Wire

namespace Hammer2.Dmsg

/-! ## The socket -/

/-- What the next `read()` answers: some bytes (`n + 1` of them, if there are so many and
there is so much room), EAGAIN, the end of the stream, or an error. -/
inductive Cut
  | bytes (n : Nat)
  | again
  | eof
  | fail
deriving DecidableEq

/-- The bytes on their way, and how they will arrive. -/
structure Sock where
  pending : List UInt8
  cuts : List Cut

inductive ReadResult
  | data (bs : List UInt8)
  | again
  | eof
  | fail

/-- `read()` of at most `nmax` bytes. -/
def Sock.read (s : Sock) (nmax : Nat) : ReadResult × Sock :=
  match s.cuts with
  | [] => (.again, s)
  | .bytes n :: cuts =>
      if s.pending.isEmpty then (.again, ⟨s.pending, cuts⟩)
      else
        let k := min (n + 1) nmax
        (.data (s.pending.take k), ⟨s.pending.drop k, cuts⟩)
  | .again :: cuts => (.again, ⟨s.pending, cuts⟩)
  | .eof :: cuts => (.eof, ⟨s.pending, cuts⟩)
  | .fail :: cuts => (.fail, ⟨s.pending, cuts⟩)

/-! ## The queue -/

inductive QState
  | header1
  | header2
  | auxData1
  | auxData2
  | error
deriving DecidableEq

abbrev ioqErrorSync : Nat := 1
abbrev ioqErrorEof : Nat := 2
abbrev ioqErrorSock : Nat := 3
abbrev ioqErrorField : Nat := 4
abbrev ioqErrorAcrc : Nat := 7
abbrev ioqErrorMsgSeq : Nat := 15

/-- The message under construction: `any` is `head` and `ext`, `hdrSize` and `auxCap` are
the sizes it was allocated with. -/
structure RxMsg where
  head : Head
  ext : List UInt8
  hdrSize : Nat
  auxSize : Nat
  auxData : Nat → UInt8
  auxCap : Nat

/-- The message as it goes on to state processing. -/
def RxMsg.toMsg (m : RxMsg) : Msg := ⟨m.head, m.ext, m.auxSize, Memory.read m.auxData 0 m.auxCap⟩

/-- `struct dmsg_ioq`, with the flags RREQ and RWORK of the iocom; `fin` is `fifo_end`. -/
structure Ioq where
  state : QState
  beg : Nat
  cdx : Nat
  cdn : Nat
  fin : Nat
  hbytes : Nat
  abytes : Nat
  unalignedAuxSize : Nat
  error : Nat
  seq : Nat
  msg : Option RxMsg
  buf : Nat → UInt8
  rreq : Bool
  rwork : Bool

/-- The receive queue of a new iocom. -/
def Ioq.init : Ioq where
  state := .header1
  beg := 0
  cdx := 0
  cdn := 0
  fin := 0
  hbytes := 0
  abytes := 0
  unalignedAuxSize := 0
  error := 0
  seq := 0
  msg := none
  buf _ := 0
  rreq := false
  rwork := false

/-- The indices are in order. -/
def Ioq.Ordered (q : Ioq) : Prop := q.beg ≤ q.cdx ∧ q.cdx ≤ q.cdn ∧ q.cdn ≤ q.fin ∧ q.fin ≤ bufSize

instance (q : Ioq) : Decidable q.Ordered := inferInstanceAs (Decidable (_ ∧ _ ∧ _ ∧ _))

def Ioq.checked (q : Ioq) : Option Ioq := if q.Ordered then some q else none

/-- The queue and the socket it reads from. -/
structure Io where
  q : Ioq
  sock : Sock

/-! ## Moving bytes -/

/-- `bcopy` inside of `buf`, of any bytes there are. -/
def Ioq.bcopy (q : Ioq) (src dst len : Nat) : Option Ioq :=
  if len = 0 then some q
  else if src + len ≤ bufSize ∧ dst + len ≤ bufSize then
    some { q with buf := Memory.write q.buf dst (Memory.read q.buf src len) }
  else none

/-- `bcopy` of the bytes at `fifo_beg` to the auxiliary data, of any there are. -/
def RxMsg.bcopy (m : RxMsg) (q : Ioq) (dst len : Nat) : Option RxMsg :=
  if len = 0 then some m
  else if q.beg + len ≤ bufSize ∧ dst + len ≤ m.auxCap then
    some { m with auxData := Memory.write m.auxData dst (Memory.read q.buf q.beg len) }
  else none

/-- `dmsg_ioq_makeroom` -/
def makeroom (q : Ioq) (needed : Nat) : Option (Ioq × Nat) := do
  let bytes := q.cdx - q.beg
  let nmax := bufSize - q.fin
  if bytes + nmax / 2 < needed then
    let q ← q.bcopy q.beg 0 bytes
    let q := { q with cdx := q.cdx - q.beg, beg := 0 }
    let q ← q.bcopy q.cdn q.cdx (q.fin - q.cdn)
    let q := { q with fin := q.fin - (q.cdn - q.cdx), cdn := q.cdx }
    let q ← q.checked
    return (q, bufSize - q.fin)
  else
    return (q, nmax)

/-- `read()` to the end of the FIFO; the flag says that the switch is left with an error. -/
def fill (io : Io) (nmax : Nat) : Option (Io × Bool) :=
  if nmax = 0 then none
  else
    match io.sock.read nmax with
    | (.data bs, sock) => do
        let q := { io.q with
          buf := Memory.write io.q.buf io.q.fin bs
          fin := io.q.fin + bs.length }
        let q ← q.checked
        return (⟨q, sock⟩, false)
    | (.again, sock) => some (⟨io.q, sock⟩, false)
    | (.eof, sock) => some (⟨{ io.q with error := ioqErrorEof }, sock⟩, true)
    | (.fail, sock) => some (⟨{ io.q with error := ioqErrorSock }, sock⟩, true)

/-- A `read()` when more bytes are needed. -/
def fillIf (more : Bool) (io : Io) (nmax : Nat) : Option (Io × Bool) :=
  if more then fill io nmax else some (io, false)

/-- Without encryption everything that has been read can be parsed. -/
def Ioq.decrypted (q : Ioq) : Ioq := { q with cdx := q.fin, cdn := q.fin }

/-! ## The four states

A state is left with `break`, where the flag says whether the local `msg` is set (it is then
`ioq->msg`), or falls through to the next one with its locals `bytes` and `nmax`. -/

inductive Next
  | brk (msg : Bool)
  | fall (bytes nmax : Nat)

/-- `dmsg_msg_alloc` of a message without state. -/
def msgAlloc (auxSize hdrSize : Nat) : RxMsg where
  head := ⟨hdrMagic, 0, 0, 0, 0, 0, BitVec.ofNat 32 (hdrSize / align), 0, 0, 0, 0, 0, 0⟩
  ext := List.replicate (hdrSize - align) 0
  hdrSize := hdrSize
  auxSize := auxSize
  auxData _ := 0
  auxCap := doAlign auxSize

/-- The command and the auxiliary size of a core header in either byte order. -/
def coreSizes (head : Head) : BitVec 32 × Nat :=
  if head.magic = hdrMagicRev then (bswap32 head.cmd, (bswap32 head.auxBytes).toNat)
  else (head.cmd, head.auxBytes.toNat)

/-- The check of the header CRC and the endian conversion; a bad CRC is an `assert(0)`. -/
def checkHead (icrc32 : List UInt8 → BitVec 32) (head : Head) (ext : List UInt8) : Option Head :=
  let xcrc32 := if head.magic = hdrMagicRev then bswap32 head.hdrCrc else head.hdrCrc
  if icrc32 ({ head with hdrCrc := 0 }.bytes ++ ext) ≠ xcrc32 then none
  else
    let head := { head with hdrCrc := xcrc32 }
    some (if head.magic = hdrMagicRev then bswapHead head else head)

/-- The core header is there: its sizes, and a message to fill. -/
def header1Msg (io : Io) : Option (Io × Next) :=
  let q := io.q
  let head := Head.ofBytes (Memory.read q.buf q.beg align)
  if head.magic ≠ hdrMagic ∧ head.magic ≠ hdrMagicRev then
    some (⟨{ q with error := ioqErrorSync }, io.sock⟩, .brk false)
  else
    let sizes := coreSizes head
    let q := { q with
      hbytes := hdrSize sizes.1
      abytes := doAlign sizes.2 % 2 ^ 32
      unalignedAuxSize := sizes.2 }
    if q.hbytes < align ∨ q.hbytes > hdrMax ∨ q.abytes > auxMax then
      some (⟨{ q with error := ioqErrorField }, io.sock⟩, .brk false)
    else do
      let bytes := q.cdx - q.beg
      let (q, nmax) ← makeroom { q with msg := some (msgAlloc sizes.2 q.hbytes) } q.hbytes
      some (⟨{ q with state := .header2 }, io.sock⟩, .fall bytes nmax)

def header1 (io : Io) : Option (Io × Next) := do
  let bytes := io.q.cdx - io.q.beg
  let (q, nmax) ← makeroom io.q align
  let (io, failed) ← fillIf (bytes < align) ⟨q, io.sock⟩ nmax
  if failed then some (io, .brk false)
  else do
    let q ← io.q.decrypted.checked
    if q.msg.isSome then none
    else if q.cdx - q.beg < align then some (⟨q, io.sock⟩, .brk false)
    else header1Msg ⟨q, io.sock⟩

/-- The extended header is there: it goes to the message. -/
def header2Msg (icrc32 : List UInt8 → BitVec 32) (io : Io) (msg : RxMsg) (nmax : Nat) :
    Option (Io × Next) := do
  let q := io.q
  let bytes := q.cdx - q.beg
  let raw := Memory.read q.buf q.beg q.hbytes
  let head ← checkHead icrc32 (Head.ofBytes raw) (raw.drop align)
  if q.hbytes > msg.hdrSize then none
  else do
    let q ← { q with
      msg := some { msg with head := head, ext := raw.drop align }
      beg := q.beg + q.hbytes }.checked
    if q.abytes = 0 then some (⟨q, io.sock⟩, .brk true)
    else some (⟨{ q with state := .auxData1 }, io.sock⟩, .fall (bytes - q.hbytes) nmax)

def header2 (icrc32 : List UInt8 → BitVec 32) (io : Io) (bytes nmax : Nat) :
    Option (Io × Next) := do
  let msg ← io.q.msg
  let (io, failed) ← fillIf (bytes < io.q.hbytes) io nmax
  if failed then some (io, .brk true)
  else do
    let q ← io.q.decrypted.checked
    if q.cdx - q.beg < q.hbytes then some (⟨q, io.sock⟩, .brk false)
    else header2Msg icrc32 ⟨q, io.sock⟩ msg nmax

def auxData1 (io : Io) (bytes nmax : Nat) : Option (Io × Next) := do
  let msg ← io.q.msg
  -- All of the payload, or what there is of it.
  let len := if bytes ≥ io.q.abytes then io.q.abytes else bytes
  let msg ← msg.bcopy io.q 0 len
  let beg := io.q.beg + len
  let cdx := if bytes < io.q.abytes ∧ io.q.cdx < beg then beg else io.q.cdx
  let q ← { io.q with msg := some { msg with auxSize := len }, beg := beg, cdx := cdx }.checked
  some (⟨{ q with state := .auxData2 }, io.sock⟩, .fall (bytes - len) nmax)

/-- The auxiliary data is complete. -/
def auxData2Msg (icrc32 : List UInt8 → BitVec 32) (io : Io) (msg : RxMsg) : Option (Io × Next) :=
  let q := { io.q with msg := some { msg with auxSize := io.q.unalignedAuxSize } }
  if icrc32 (Memory.read msg.auxData 0 q.abytes) ≠ msg.head.auxCrc then
    some (⟨{ q with error := ioqErrorAcrc }, io.sock⟩, .brk true)
  else some (⟨q, io.sock⟩, .brk true)

def auxData2 (icrc32 : List UInt8 → BitVec 32) (io : Io) (bytes : Nat) : Option (Io × Next) := do
  let msg ← io.q.msg
  let (q, nmax) ← makeroom io.q (io.q.abytes - msg.auxSize)
  if msg.auxSize < q.abytes ∧ bytes ≠ 0 then none
  else do
    let (io, failed) ← fillIf (msg.auxSize < q.abytes) ⟨q, io.sock⟩ nmax
    if failed then some (io, .brk true)
    else do
      let q ← io.q.decrypted.checked
      let bytes := min (q.cdx - q.beg) (q.abytes - msg.auxSize)
      let msg ← msg.bcopy q msg.auxSize bytes
      let msg := { msg with auxSize := msg.auxSize + bytes }
      let q ← { q with msg := some msg, beg := q.beg + bytes }.checked
      if msg.auxSize < q.abytes then some (⟨q, io.sock⟩, .brk false)
      else if msg.auxSize ≠ q.abytes then none
      else auxData2Msg icrc32 ⟨q, io.sock⟩ msg

/-! ## One call -/

/-- What a call comes to: the message for state processing, nothing yet, or an error of the
link. -/
inductive Result
  | handed (m : Msg)
  | wait
  | failed
deriving DecidableEq

/-- After the switch. -/
def complete (io : Io) (msg : Bool) : Option (Io × Result) :=
  let q := io.q
  let q :=
    match q.msg with
    | some m =>
        if msg ∧ q.error = 0 then
          if m.head.salt &&& 255#32 ≠ BitVec.ofNat 32 q.seq &&& 255#32 then
            { q with error := ioqErrorMsgSeq }
          else { q with seq := q.seq + 1 }
        else q
    | none => q
  if q.error ≠ 0 then
    if q.msg.isSome = msg then
      some (⟨{ q with msg := none, state := .error }, io.sock⟩, .failed)
    else none
  else if msg then
    match q.msg with
    | none => none
    | some m =>
        let q :=
          if q.beg = q.cdx ∧ q.cdn = q.fin then
            { q with rreq := true, beg := 0, cdx := 0, cdn := 0, fin := 0 }
          else { q with rwork := true }
        some (⟨{ q with state := .header1, msg := none }, io.sock⟩, .handed m.toMsg)
  else
    some (⟨{ q with rreq := true }, io.sock⟩, .wait)

/-- The states from AUXDATA2 on. -/
def runAux2 (icrc32 : List UInt8 → BitVec 32) (io : Io) (bytes : Nat) : Option (Io × Result) := do
  match ← auxData2 icrc32 io bytes with
  | (io, .brk msg) => complete io msg
  | (_, .fall ..) => none

def runAux1 (icrc32 : List UInt8 → BitVec 32) (io : Io) (bytes nmax : Nat) :
    Option (Io × Result) := do
  match ← auxData1 io bytes nmax with
  | (io, .brk msg) => complete io msg
  | (io, .fall bytes _) => runAux2 icrc32 io bytes

def runHeader2 (icrc32 : List UInt8 → BitVec 32) (io : Io) (bytes nmax : Nat) :
    Option (Io × Result) := do
  match ← header2 icrc32 io bytes nmax with
  | (io, .brk msg) => complete io msg
  | (io, .fall bytes nmax) => runAux1 icrc32 io bytes nmax

def runHeader1 (icrc32 : List UInt8 → BitVec 32) (io : Io) : Option (Io × Result) := do
  match ← header1 io with
  | (io, .brk msg) => complete io msg
  | (io, .fall bytes nmax) => runHeader2 icrc32 io bytes nmax

/-- `dmsg_ioq_read`, up to the hand-over to `dmsg_state_msgrx`. -/
def ioqRead (icrc32 : List UInt8 → BitVec 32) (io : Io) : Option (Io × Result) :=
  let io : Io := ⟨{ io.q with rreq := false, rwork := false }, io.sock⟩
  if io.q.error ≠ 0 then complete io false
  else
    let nmax := bufSize - io.q.fin
    let bytes := io.q.cdx - io.q.beg
    match io.q.state with
    | .header1 => runHeader1 icrc32 io
    | .header2 => runHeader2 icrc32 io bytes nmax
    | .auxData1 => runAux1 icrc32 io bytes nmax
    | .auxData2 => runAux2 icrc32 io bytes
    | .error => if io.q.msg.isSome then none else complete io false

end Hammer2.Dmsg
