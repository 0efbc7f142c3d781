/-
# `Hammer2.Dmsg.Crypt` — the two queues of an encrypted link

`lib/libdmsg/crypto.c`, and `dmsg_iocom_flush2` and `dmsg_ioq_read` with DMSG_IOCOMF_CRYPTED.
The sender stages chunks in its FIFO and writes from there; the receiver decrypts chunks in
its FIFO in place.

    encrypt    `dmsg_crypto_encrypt`
    decrypt    `dmsg_crypto_decrypt`
    flush2     the transmit side
    ioqRead    the receive side

What the cipher itself does is a parameter; `faults` says which of its calls fail.  `none` stands
for what must not happen, as in `Hammer2.Dmsg.Receive`.
-/
import Hammer2.Lib.Chunked
import Hammer2.Dmsg.Receive
import Hammer2.Dmsg.Transmit

namespace Hammer2.Dmsg.Crypt

open Chunked (Cipher)

abbrev ioqErrorIvwrap : Nat := 18
abbrev ioqErrorMacfail : Nat := 19
abbrev ioqErrorAlgo : Nat := 20

/-- The calls of the cipher that can fail. -/
inductive Fault
  | setIv
  | update
deriving DecidableEq

abbrev Faults : Type := Nat → Option Fault

section Crypt

variable (C : Cipher UInt8 align) (faults : Faults)

/-! ## The transmit side -/

/-- `struct dmsg_ioq`, as far as the transmit side uses it; `ops` counts the calls of the
cipher. -/
structure TxIoq where
  q : Dmsg.TxIoq
  beg : Nat
  cdx : Nat
  cdn : Nat
  fin : Nat
  buf : Nat → UInt8
  iv : Nat
  error : Nat
  ops : Nat

def TxIoq.Ordered (t : TxIoq) : Prop :=
  t.beg ≤ t.cdx ∧ t.cdx ≤ t.cdn ∧ t.cdn ≤ t.fin ∧ t.fin ≤ bufSize

instance (t : TxIoq) : Decidable t.Ordered := inferInstanceAs (Decidable (_ ∧ _ ∧ _ ∧ _))

/-- `dmsg_crypto_gcm_encrypt_chunk`: the chunk goes to `ct`; the result is `out_size`. -/
def encryptChunk (t : TxIoq) (ct : Nat) (pt : List UInt8) : Option (TxIoq × Nat) :=
  if ct + align > bufSize then none
  else match faults t.ops with
    | some _ => some ({ t with error := ioqErrorAlgo, ops := t.ops + 1 }, 0)
    | none =>
        let t := { t with buf := Memory.write t.buf ct (C.enc t.iv pt), ops := t.ops + 1 }
        if (t.iv + 1) % 2 ^ 64 = 0 then some ({ t with iv := 0, error := ioqErrorIvwrap }, 0)
        else some ({ t with iv := t.iv + 1 }, align)

/-- The inner loop of `dmsg_crypto_encrypt`, for `n` chunks of an entry; the result are `nmax`
and `nact`. -/
def encryptEntry : Nat → List UInt8 → TxIoq → Nat → Nat → Option (TxIoq × Nat × Nat)
  | 0, _, t, nmax, nact => some (t, nmax, nact)
  | n + 1, pt, t, nmax, nact =>
      if nmax ≥ align then do
        let (t, used) ← encryptChunk C faults t t.cdx (pt.take align)
        encryptEntry n (pt.drop align)
          { t with cdx := t.cdx + used, cdn := t.cdn + used, fin := t.fin + used }
          (nmax - used) (nact + align)
      else some (t, nmax, nact)

/-- The outer loop. -/
def encryptIov : List (List UInt8) → TxIoq → Nat → Nat → Option (TxIoq × Nat)
  | [], t, _, nact => some (t, nact)
  | entry :: iov, t, nmax, nact =>
      if nmax = 0 then some (t, nact)
      else if entry.length % align ≠ 0 then none
      else do
        let (t, nmax, nact) ← encryptEntry C faults (entry.length / align) entry t nmax nact
        encryptIov iov t nmax nact

/-- `dmsg_crypto_encrypt`: the queue, and how many bytes it took. -/
def encrypt (t : TxIoq) (iov : List (List UInt8)) : Option (TxIoq × Nat) :=
  encryptIov C faults iov t (bufSize - t.fin) 0

/-- The FIFO is moved down when it is nearly full. -/
def TxIoq.compact (t : TxIoq) : TxIoq :=
  if t.beg > bufSize / 2 ∧ bufSize - t.fin < align * 2 then
    { t with
      buf := Memory.write t.buf 0 (Memory.read t.buf t.beg (t.fin - t.beg))
      cdx := t.cdx - t.beg
      cdn := t.cdn - t.beg
      fin := t.fin - t.beg
      beg := 0 }
  else t

/-- `dmsg_iocom_drain` -/
def TxIoq.drain (t : TxIoq) : TxIoq := { t with q := { t.q with msgq := [], hbytes := 0, abytes := 0 } }

/-- After the `writev()` of the bytes from `fifo_beg` on. -/
def TxIoq.advance (t : TxIoq) (n : Nat) : TxIoq :=
  if n = 0 then t
  else if t.beg + n = t.fin then { t with beg := 0, cdx := 0, cdn := 0, fin := 0 }
  else { t with beg := t.beg + n }

/-- What a `writev()` takes of the FIFO: `n` bytes, as far as there are so many, or none with
EAGAIN. -/
def TxIoq.writev (t : TxIoq) : Option Nat → List UInt8
  | some n => (Memory.read t.buf t.beg (t.cdx - t.beg)).take n
  | none => []

/-- The write of `dmsg_iocom_flush2`, and the removal of the `nact` bytes that are staged. -/
def flushOut (t : TxIoq) (n : Option Nat) (nact : Nat) : Option (TxIoq × List UInt8) :=
  if t.Ordered then do
    let data := t.writev n
    let (msgq, hbytes, abytes) ← retire t.q.msgq t.q.hbytes t.q.abytes nact
    let t := { t.advance data.length with q := { t.q with msgq, hbytes, abytes } }
    some (if t.error ≠ 0 then t.drain else t, data)
  else none

/-- `dmsg_iocom_flush2` of an encrypted link; the result is what was written. -/
def flush2 (rev : Bool) (t : TxIoq) (n : Option Nat) : Option (TxIoq × List UInt8) :=
  if t.error ≠ 0 then some (t.drain, [])
  else do
    let iov ← iovec rev t.q.msgq t.q.hbytes t.q.abytes 0
    if iov = [] ∧ t.beg = t.cdx then some (t, [])
    else do
      let (t, nact) ← encrypt C faults { t.compact with ops := 0 } iov
      flushOut t n nact

/-! ## The receive side -/

/-- The receive queue and its socket; `ops` counts the calls of the cipher. -/
structure Rx where
  io : Io
  iv : Nat
  ops : Nat

/-- `dmsg_crypto_gcm_decrypt_chunk` of the bytes at `fifo_cdn`, to `fifo_cdx`; the result is
`consume_size`. -/
def decryptChunk (r : Rx) : Option (Rx × Nat) :=
  let q := r.io.q
  if q.cdx + align > bufSize ∨ q.cdn + align > bufSize then none
  else match faults r.ops with
    | some .setIv =>
        some ({ r with io := { r.io with q := { q with error := ioqErrorAlgo } }, ops := r.ops + 1 }, 0)
    | some .update =>
        some ({ r with io := { r.io with q := { q with error := ioqErrorMacfail } }
                       ops := r.ops + 1 }, 0)
    | none =>
        let buf := Memory.write q.buf q.cdx (C.dec r.iv (Memory.read q.buf q.cdn align))
        if (r.iv + 1) % 2 ^ 64 = 0 then
          some (⟨{ r.io with q := { q with buf, error := ioqErrorIvwrap } }, 0, r.ops + 1⟩, 0)
        else some (⟨{ r.io with q := { q with buf } }, r.iv + 1, r.ops + 1⟩, align)

/-- The loop of `dmsg_crypto_decrypt`.  Every round moves `fifo_cdx` up, so that it ends or leaves
the buffer within `bufSize / align + 1` rounds. -/
def decryptLoop : Nat → Nat → Rx → Option Rx
  | 0, _, _ => none
  | rounds + 1, len, r =>
      if len < align then some r
      else do
        let (r, used) ← decryptChunk C faults r
        decryptLoop rounds (len - used)
          { r with io := { r.io with
              q := { r.io.q with cdn := r.io.q.cdn + used, cdx := r.io.q.cdx + align } } }

/-- `dmsg_crypto_decrypt` -/
def decrypt (r : Rx) : Option Rx :=
  decryptLoop C faults (bufSize / align + 1) (r.io.q.fin - r.io.q.cdn) r

/-- What has been read is decrypted, and the indices are compared. -/
def decryptChecked (r : Rx) : Option Rx := do
  let r ← decrypt C faults r
  let q ← r.io.q.checked
  some { r with io := { r.io with q } }

/-- The part of a state after the `read()`, which leaves the encryption alone. -/
def keep (r : Rx) (res : Option (Io × Next)) : Option (Rx × Next) :=
  res.map fun (io, next) => ({ r with io }, next)

def header1 (r : Rx) : Option (Rx × Next) := do
  let bytes := r.io.q.cdx - r.io.q.beg
  let (q, nmax) ← makeroom r.io.q align
  let (io, failed) ← fillIf (bytes < align) ⟨q, r.io.sock⟩ nmax
  if failed then some ({ r with io }, .brk false)
  else do
    let r ← decryptChecked C faults { r with io }
    if r.io.q.msg.isSome then none
    else if r.io.q.cdx - r.io.q.beg < align then some (r, .brk false)
    else keep r (header1Msg r.io)

def header2 (icrc32 : List UInt8 → BitVec 32) (r : Rx) (bytes nmax : Nat) : Option (Rx × Next) := do
  let msg ← r.io.q.msg
  let (io, failed) ← fillIf (bytes < r.io.q.hbytes) r.io nmax
  if failed then some ({ r with io }, .brk true)
  else do
    let r ← decryptChecked C faults { r with io }
    if r.io.q.cdx - r.io.q.beg < r.io.q.hbytes then some (r, .brk false)
    else keep r (header2Msg icrc32 r.io msg nmax)

/-- The end of AUXDATA2: what there is goes to the message. -/
def auxData2Copy (icrc32 : List UInt8 → BitVec 32) (io : Io) (msg : RxMsg) :
    Option (Io × Next) := do
  let q := io.q
  let bytes := min (q.cdx - q.beg) (q.abytes - msg.auxSize)
  let msg ← msg.bcopy q msg.auxSize bytes
  let msg := { msg with auxSize := msg.auxSize + bytes }
  let q ← { q with msg := some msg, beg := q.beg + bytes }.checked
  if msg.auxSize < q.abytes then some (⟨q, io.sock⟩, .brk false)
  else if msg.auxSize ≠ q.abytes then none
  else auxData2Msg icrc32 ⟨q, io.sock⟩ msg

def auxData2 (icrc32 : List UInt8 → BitVec 32) (r : Rx) (bytes : Nat) : Option (Rx × Next) := do
  let msg ← r.io.q.msg
  let (q, nmax) ← makeroom r.io.q (r.io.q.abytes - msg.auxSize)
  if msg.auxSize < q.abytes ∧ bytes ≠ 0 then none
  else do
    let (io, failed) ← fillIf (msg.auxSize < q.abytes) ⟨q, r.io.sock⟩ nmax
    if failed then some ({ r with io }, .brk true)
    else do
      let r ← decryptChecked C faults { r with io }
      keep r (auxData2Copy icrc32 r.io msg)

/-- After the switch. -/
def finish (r : Rx) (msg : Bool) : Option (Rx × Result) :=
  (complete r.io msg).map fun (io, res) => ({ r with io }, res)

def runAux2 (icrc32 : List UInt8 → BitVec 32) (r : Rx) (bytes : Nat) : Option (Rx × Result) := do
  match ← auxData2 C faults icrc32 r bytes with
  | (r, .brk msg) => finish r msg
  | (_, .fall ..) => none

def runAux1 (icrc32 : List UInt8 → BitVec 32) (r : Rx) (bytes nmax : Nat) : Option (Rx × Result) := do
  match ← keep r (auxData1 r.io bytes nmax) with
  | (r, .brk msg) => finish r msg
  | (r, .fall bytes _) => runAux2 C faults icrc32 r bytes

def runHeader2 (icrc32 : List UInt8 → BitVec 32) (r : Rx) (bytes nmax : Nat) :
    Option (Rx × Result) := do
  match ← header2 C faults icrc32 r bytes nmax with
  | (r, .brk msg) => finish r msg
  | (r, .fall bytes nmax) => runAux1 C faults icrc32 r bytes nmax

def runHeader1 (icrc32 : List UInt8 → BitVec 32) (r : Rx) : Option (Rx × Result) := do
  match ← header1 C faults r with
  | (r, .brk msg) => finish r msg
  | (r, .fall bytes nmax) => runHeader2 C faults icrc32 r bytes nmax

/-- `dmsg_ioq_read` of an encrypted link, up to the hand-over to `dmsg_state_msgrx`. -/
def ioqRead (icrc32 : List UInt8 → BitVec 32) (r : Rx) : Option (Rx × Result) :=
  let io : Io := ⟨{ r.io.q with rreq := false, rwork := false }, r.io.sock⟩
  let r : Rx := ⟨io, r.iv, 0⟩
  if io.q.error ≠ 0 then finish r false
  else
    let nmax := bufSize - io.q.fin
    let bytes := io.q.cdx - io.q.beg
    match io.q.state with
    | .header1 => runHeader1 C faults icrc32 r
    | .header2 => runHeader2 C faults icrc32 r bytes nmax
    | .auxData1 => runAux1 C faults icrc32 r bytes nmax
    | .auxData2 => runAux2 C faults icrc32 r bytes
    | .error => if io.q.msg.isSome then none else finish r false

end Crypt

end Hammer2.Dmsg.Crypt
