/-
# `Hammer2.Dmsg.Expect` — where the receiver is

Between two calls the receiver is at some place in the bytes of the messages still to come:
before a header, in one, or in auxiliary data.  Each state of `dmsg_ioq_read` goes on from its
place, however the bytes arrive.

    Expect          the places
    delivered       a message as the receiver delivers it
    ioqRead_spec    a call delivers the next message or waits
-/
import Hammer2.Dmsg.Receive
import Hammer2.Dmsg.Transmit

namespace Hammer2.Dmsg

/-! ## The FIFO -/

/-- The bytes in the FIFO. -/
def Ioq.content (q : Ioq) : List UInt8 := Memory.read q.buf q.beg (q.fin - q.beg)

/-- The queue with another FIFO. -/
def Ioq.refifo (q : Ioq) (buf : Nat → UInt8) (beg fin : Nat) : Ioq :=
  { q with buf, beg, cdx := fin, cdn := fin, fin }

/-- The FIFO of an unencrypted link between two steps. -/
structure Plain (q : Ioq) : Prop where
  cdx : q.cdx = q.fin
  cdn : q.cdn = q.fin
  beg : q.beg ≤ q.fin
  fin : q.fin ≤ bufSize

section Fifo

variable {q : Ioq}

theorem Plain.ordered (h : Plain q) : q.Ordered := by
  refine ⟨?_, ?_, ?_, h.fin⟩
  · rw [h.cdx]
    exact h.beg
  · rw [h.cdx, h.cdn]
  · rw [h.cdn]

theorem Plain.checked (h : Plain q) : q.checked = some q := if_pos h.ordered

theorem refifo_plain {buf : Nat → UInt8} {beg fin : Nat} (hbeg : beg ≤ fin)
    (hfin : fin ≤ bufSize) : Plain (q.refifo buf beg fin) := ⟨rfl, rfl, hbeg, hfin⟩

theorem Plain.refifo_self (h : Plain q) : q.refifo q.buf q.beg q.fin = q := by
  unfold Ioq.refifo
  rw [← h.cdx, h.cdx.trans h.cdn.symm]
  obtain ⟨⟩ := q
  obtain ⟨hx, hn, _, _⟩ := h
  simp_all

theorem Ioq.length_content : q.content.length = q.fin - q.beg := Memory.length_read ..

/-- Moving a range does not change what it reads. -/
theorem read_move (m : Nat → UInt8) (src dst n : Nat) :
    Memory.read (Memory.write m dst (Memory.read m src n)) dst n = Memory.read m src n := by
  have h := Memory.read_write m dst (Memory.read m src n)
  rwa [Memory.length_read] at h

/-- Moving the FIFO to the start of the buffer. -/
theorem compact_spec (h : Plain q) : ∃ buf,
    q.bcopy q.beg 0 (q.fin - q.beg) = some { q with buf } ∧
      Memory.read buf 0 (q.fin - q.beg) = q.content := by
  have hbeg := h.beg
  have hfin := h.fin
  unfold Ioq.bcopy
  split
  case isTrue hz =>
    refine ⟨q.buf, rfl, ?_⟩
    rw [Ioq.content, hz]
    rfl
  case isFalse =>
    rw [if_pos (by omega)]
    exact ⟨_, rfl, read_move q.buf q.beg 0 (q.fin - q.beg)⟩

/-- `dmsg_ioq_makeroom` keeps the bytes, and makes room for what is needed and to read. -/
theorem makeroom_spec (h : Plain q) (needed : Nat) : ∃ buf beg fin,
    makeroom q needed = some (q.refifo buf beg fin, bufSize - fin) ∧ beg ≤ fin ∧ fin ≤ bufSize ∧
      (q.refifo buf beg fin).content = q.content ∧
      (needed ≤ bufSize → beg + needed ≤ bufSize) ∧
      (q.fin - q.beg < needed → q.fin - q.beg < bufSize → fin < bufSize) := by
  have hbeg := h.beg
  have hfin := h.fin
  unfold makeroom
  rw [h.cdx]
  by_cases hroom : q.fin - q.beg + (bufSize - q.fin) / 2 < needed
  · obtain ⟨buf, hbuf, hread⟩ := compact_spec h
    refine ⟨buf, 0, q.fin - q.beg, ?_, Nat.zero_le _, by omega, hread, fun hn => by omega,
      fun _ hb => hb⟩
    have hchecked : (q.refifo buf 0 (q.fin - q.beg)).checked =
        some (q.refifo buf 0 (q.fin - q.beg)) :=
      (refifo_plain (Nat.zero_le _) (by omega)).checked
    have hnone : ∀ q' : Ioq, q'.bcopy q.fin (q.fin - q.beg) (q.fin - q.fin) = some q' :=
      fun q' => if_pos (Nat.sub_self _)
    simp only [if_pos hroom, hbuf, Option.bind_eq_bind, Option.bind_some, h.cdn, h.cdx, hnone,
      Nat.sub_sub_self (Nat.sub_le q.fin q.beg)]
    show (q.refifo buf 0 (q.fin - q.beg)).checked.bind _ = _
    rw [hchecked]
    rfl
  · simp only [if_neg hroom]
    refine ⟨q.buf, q.beg, q.fin, ?_, hbeg, hfin, rfl, fun _ => by omega, fun _ _ => by omega⟩
    rw [h.refifo_self]
    rfl

/-- The stream does not end and has no errors. -/
def NoLoss (cuts : List Cut) : Prop := ∀ c ∈ cuts, c ≠ .eof ∧ c ≠ .fail

instance (cuts : List Cut) : Decidable (NoLoss cuts) :=
  inferInstanceAs (Decidable (∀ c ∈ cuts, _))

theorem Sock.read_spec {s : Sock} (h : NoLoss s.cuts) (nmax : Nat) :
    (∃ bs s', s.read nmax = (.data bs, s') ∧ bs ++ s'.pending = s.pending ∧ bs.length ≤ nmax ∧
      NoLoss s'.cuts) ∨
    ∃ s', s.read nmax = (.again, s') ∧ s'.pending = s.pending ∧ NoLoss s'.cuts := by
  unfold Sock.read
  cases hc : s.cuts with
  | nil => exact .inr ⟨s, rfl, rfl, h⟩
  | cons c cuts =>
      rw [hc] at h
      have hrest : NoLoss cuts := fun d hd => h d (List.mem_cons_of_mem _ hd)
      have hne := h c (List.mem_cons_self ..)
      cases c with
      | bytes n =>
          dsimp only
          split
          · exact .inr ⟨_, rfl, rfl, hrest⟩
          · refine .inl ⟨_, _, rfl, List.take_append_drop _ _, ?_, hrest⟩
            rw [List.length_take]
            exact Nat.le_trans (Nat.min_le_left _ _) (Nat.min_le_right _ _)
      | again => exact .inr ⟨_, rfl, rfl, hrest⟩
      | eof => exact absurd rfl hne.1
      | fail => exact absurd rfl hne.2

/-- A `read()`, if more is needed: the bytes go from the socket to the end of the FIFO. -/
theorem fillIf_spec {io : Io} (h : Plain io.q) (hcuts : NoLoss io.sock.cuts) {more : Bool}
    (hroom : more = true → io.q.fin < bufSize) : ∃ q' buf fin sock,
    fillIf more io (bufSize - io.q.fin) = some (⟨q', sock⟩, false) ∧
      q'.decrypted = io.q.refifo buf io.q.beg fin ∧ io.q.beg ≤ fin ∧ fin ≤ bufSize ∧
      (io.q.refifo buf io.q.beg fin).content ++ sock.pending = io.q.content ++ io.sock.pending ∧
      NoLoss sock.cuts := by
  have hbeg := h.beg
  have hfin := h.fin
  have hsame : io.q.decrypted = io.q.refifo io.q.buf io.q.beg io.q.fin := rfl
  cases more with
  | false => exact ⟨io.q, io.q.buf, io.q.fin, io.sock, rfl, hsame, hbeg, hfin, rfl, hcuts⟩
  | true =>
      have hlt := hroom rfl
      rw [fillIf, if_pos rfl, fill, if_neg (by omega)]
      rcases Sock.read_spec hcuts (bufSize - io.q.fin) with
        ⟨bs, sock, hr, hbs, hlen, hc⟩ | ⟨sock, hr, hbs, hc⟩
      · rw [hr]
        let q' := { io.q with
          buf := Memory.write io.q.buf io.q.fin bs
          fin := io.q.fin + bs.length }
        have hchecked : q'.checked = some q' := by
          refine if_pos ⟨?_, ?_, ?_, ?_⟩
          · show io.q.beg ≤ io.q.cdx
            rw [h.cdx]
            exact hbeg
          · show io.q.cdx ≤ io.q.cdn
            rw [h.cdx, h.cdn]
          · show io.q.cdn ≤ io.q.fin + bs.length
            rw [h.cdn]
            exact Nat.le_add_right _ _
          · show io.q.fin + bs.length ≤ bufSize
            omega
        refine ⟨q', Memory.write io.q.buf io.q.fin bs, io.q.fin + bs.length, sock, ?_, rfl,
          by omega, by omega, ?_, hc⟩
        · show q'.checked.bind _ = _
          rw [hchecked]
          rfl
        · rw [← hbs, ← List.append_assoc]
          congr 1
          show Memory.read (Memory.write io.q.buf io.q.fin bs) io.q.beg
            (io.q.fin + bs.length - io.q.beg) = io.q.content ++ bs
          rw [show io.q.fin + bs.length - io.q.beg = (io.q.fin - io.q.beg) + bs.length by omega,
            Memory.read_add, Nat.add_sub_cancel' hbeg, Memory.read_write,
            Memory.read_write_of_disjoint (.inl (by omega))]
          rfl
      · rw [hr]
        exact ⟨io.q, io.q.buf, io.q.fin, sock, rfl, hsame, hbeg, hfin, by rw [hbs]; rfl, hc⟩

end Fifo

/-! ## The header in either byte order -/

/-- The core header as the receiver finds it in memory. -/
def rawHead (rev : Bool) (h : Head) : Head := if rev then bswapHead h else h

/-- The message as the receiver delivers it. -/
def delivered (rev : Bool) (m : Msg) : Msg :=
  if rev then { m with head := { m.head with hdrCrc := bswap32 m.head.hdrCrc } } else m

section Header

variable {icrc32 : List UInt8 → BitVec 32} {rev : Bool} {seq : Nat} {m : Msg}

theorem headBytes_eq (h : Head) : headBytes rev h = (rawHead rev h).bytes := by
  cases rev <;> rfl

theorem Sent.shaped (h : Sent icrc32 rev seq m) : Shaped m := ⟨h.hdr_ge, h.ext, h.aux⟩

theorem Sent.rawMagic (h : Sent icrc32 rev seq m) :
    (rawHead rev m.head).magic = if rev then hdrMagicRev else hdrMagic := by
  cases rev with
  | false => exact h.magic
  | true =>
      show bswap16 m.head.magic = hdrMagicRev
      rw [h.magic]
      decide

theorem Sent.isRev (h : Sent icrc32 rev seq m) :
    (rawHead rev m.head).magic = hdrMagicRev ↔ rev = true := by
  rw [h.rawMagic]
  cases rev <;> decide

theorem Sent.coreSizes (h : Sent icrc32 rev seq m) :
    coreSizes (rawHead rev m.head) = (m.head.cmd, m.auxSize) := by
  have haux : m.head.auxBytes.toNat = m.auxSize := by
    rw [h.auxBytes, BitVec.toNat_ofNat]
    exact Nat.mod_eq_of_lt (Nat.lt_of_le_of_lt h.aux_le (by decide))
  unfold Dmsg.coreSizes
  simp only [h.isRev]
  cases rev with
  | false => exact Prod.ext rfl haux
  | true =>
      refine Prod.ext (Bytes.swap_swap 4 _) ?_
      show (bswap32 (bswap32 m.head.auxBytes)).toNat = m.auxSize
      rw [bswap32, Bytes.swap_swap, haux]

theorem Sent.checkHead (h : Sent icrc32 rev seq m) :
    checkHead icrc32 (rawHead rev m.head) m.ext = some (delivered rev m).head := by
  have hcrc := h.hdrCrc
  rw [headBytes_eq] at hcrc
  unfold Dmsg.checkHead
  simp only [h.isRev]
  cases rev with
  | false => exact if_neg (Classical.not_not.mpr hcrc.symm)
  | true =>
      have hswap : bswap32 (rawHead true m.head).hdrCrc = m.head.hdrCrc := Bytes.swap_swap 4 _
      have hzero : rawHead true { m.head with hdrCrc := 0 } =
          { rawHead true m.head with hdrCrc := 0 } := by
        simp only [rawHead, if_true, bswapHead, Head.mk.injEq, true_and]
        decide
      rw [hzero] at hcrc
      simp only [if_true, hswap]
      rw [if_neg (Classical.not_not.mpr hcrc.symm)]
      simp only [rawHead, if_true, bswapHead, delivered, Bytes.swap_swap]

theorem doAlign_le {n : Nat} (h : n ≤ auxMax) : doAlign n ≤ auxMax := by
  have h : n ≤ 65536 := h
  show (n + 63) / 64 * 64 ≤ 65536
  omega

theorem Sent.length_wire (h : Sent icrc32 rev seq m) :
    (wire rev m).length = hdrSize m.head.cmd + doAlign m.auxSize := by
  rw [wire_eq, List.length_append, h.shaped.length_hdrBytes, h.aux]

end Header

/-! ## Where the receiver is

`later` are bytes that are not in the socket yet. -/

section Receive

variable {icrc32 : List UInt8 → BitVec 32} {rev : Bool} {upto : Nat} {io : Io} {later : List UInt8}
  {m : Msg} {msgs rest : List Msg} {rx : RxMsg}

/-- The messages are numbered from `seq` on, and the next one is number `upto`. -/
def SentFrom (icrc32 : List UInt8 → BitVec 32) (rev : Bool) (upto : Nat) :
    Nat → List Msg → Prop
  | seq, [] => seq = upto
  | seq, m :: msgs => Sent icrc32 rev seq m ∧ SentFrom icrc32 rev upto (seq + 1) msgs

/-- All the bytes the receiver has not parsed. -/
def Io.stream (io : Io) (later : List UInt8) : List UInt8 :=
  io.q.content ++ (io.sock.pending ++ later)

structure Common (icrc32 : List UInt8 → BitVec 32) (rev : Bool) (upto : Nat) (io : Io)
    (msgs : List Msg) : Prop where
  plain : Plain io.q
  error : io.q.error = 0
  sent : SentFrom icrc32 rev upto io.q.seq msgs
  cuts : NoLoss io.sock.cuts

structure AtHeader1 (icrc32 : List UInt8 → BitVec 32) (rev : Bool) (upto : Nat) (io : Io)
    (later : List UInt8) (msgs : List Msg) : Prop extends Common icrc32 rev upto io msgs where
  state : io.q.state = .header1
  msg : io.q.msg = none
  stream : io.stream later = msgs.flatMap (wire rev)

/-- The sizes are those of the message. -/
structure Sized (q : Ioq) (m : Msg) (rx : RxMsg) : Prop where
  hbytes : q.hbytes = hdrSize m.head.cmd
  abytes : q.abytes = doAlign m.auxSize
  unaligned : q.unalignedAuxSize = m.auxSize
  hdrSize : rx.hdrSize = q.hbytes
  auxSize : rx.auxSize = m.auxSize
  auxCap : rx.auxCap = doAlign m.auxSize

structure AtHeader2 (icrc32 : List UInt8 → BitVec 32) (rev : Bool) (upto : Nat) (io : Io)
    (later : List UInt8) (m : Msg) (rest : List Msg) (rx : RxMsg) : Prop extends
    Common icrc32 rev upto io (m :: rest) where
  state : io.q.state = .header2
  msg : io.q.msg = some rx
  sized : Sized io.q m rx
  room : io.q.beg + io.q.hbytes ≤ bufSize
  stream : io.stream later = (m :: rest).flatMap (wire rev)

/-- The header has been delivered. -/
structure Headed (rev : Bool) (q : Ioq) (m : Msg) (rx : RxMsg) : Prop where
  abytes : q.abytes = doAlign m.auxSize
  unaligned : q.unalignedAuxSize = m.auxSize
  auxCap : rx.auxCap = doAlign m.auxSize
  head : rx.head = (delivered rev m).head
  ext : rx.ext = m.ext

/-- After the header, before the auxiliary data. -/
structure AtAux1 (icrc32 : List UInt8 → BitVec 32) (rev : Bool) (upto : Nat) (io : Io)
    (later : List UInt8) (m : Msg) (rest : List Msg) (rx : RxMsg) : Prop extends
    Common icrc32 rev upto io (m :: rest) where
  state : io.q.state = .auxData1
  msg : io.q.msg = some rx
  headed : Headed rev io.q m rx
  some : doAlign m.auxSize ≠ 0
  stream : io.stream later = m.aux ++ rest.flatMap (wire rev)

/-- The message is whole. -/
structure AtEnd (icrc32 : List UInt8 → BitVec 32) (rev : Bool) (upto : Nat) (io : Io)
    (later : List UInt8) (m : Msg) (rest : List Msg) (rx : RxMsg) : Prop extends
    Common icrc32 rev upto io (m :: rest) where
  msg : io.q.msg = some rx
  whole : rx.toMsg = delivered rev m
  stream : io.stream later = rest.flatMap (wire rev)

/-- Reading a part from the start of the FIFO. -/
theorem content_split {q : Ioq} {part more X : List UInt8} (hlen : part.length ≤ q.fin - q.beg)
    (h : q.content ++ X = part ++ more) :
    Memory.read q.buf q.beg part.length = part ∧
      Memory.read q.buf (q.beg + part.length) (q.fin - (q.beg + part.length)) ++ X = more := by
  have hsplit : q.content = Memory.read q.buf q.beg part.length ++
      Memory.read q.buf (q.beg + part.length) (q.fin - (q.beg + part.length)) := by
    rw [← Memory.read_add, Ioq.content]
    congr 1
    omega
  rw [hsplit, List.append_assoc] at h
  exact List.append_inj h (Memory.length_read ..)

theorem wires_cons (rev : Bool) (m : Msg) (rest : List Msg) : (m :: rest).flatMap (wire rev) =
    headBytes rev m.head ++ (m.ext ++ (m.aux ++ rest.flatMap (wire rev))) := by
  rw [List.flatMap_cons, wire, List.append_assoc, List.append_assoc]

/-- Fewer bytes than a core header, and none on their way: nothing is left to receive. -/
theorem msgs_nil {n : Nat} {X : List UInt8} (hsent : SentFrom icrc32 rev upto n msgs)
    (hlt : X.length < align) (h : X = msgs.flatMap (wire rev)) : msgs = [] := by
  cases msgs with
  | nil => rfl
  | cons m rest =>
      have hlen := congrArg List.length h
      rw [List.flatMap_cons, List.length_append, hsent.1.length_wire] at hlen
      have hge := hsent.1.hdr_ge
      omega

theorem header1Msg_spec (h : AtHeader1 icrc32 rev upto io later (m :: rest))
    (hge : align ≤ io.q.fin - io.q.beg) : ∃ io' rx,
    header1Msg io = some (io', .fall (io'.q.fin - io'.q.beg) (bufSize - io'.q.fin)) ∧
      AtHeader2 icrc32 rev upto io' later m rest rx := by
  have hsent := h.sent.1
  have hstream := h.stream
  rw [Io.stream, wires_cons] at hstream
  obtain ⟨hraw, _⟩ := content_split (by rw [length_headBytes]; exact hge) hstream
  rw [length_headBytes] at hraw
  have hhead : Head.ofBytes (Memory.read io.q.buf io.q.beg align) = rawHead rev m.head := by
    show Head.ofBytes (Memory.read io.q.buf io.q.beg 64) = _
    rw [hraw, headBytes_eq]
    have hparse := Head.ofBytes_bytes (rawHead rev m.head) []
    rwa [List.append_nil] at hparse
  have hmagic : ¬ ((rawHead rev m.head).magic ≠ hdrMagic ∧
      (rawHead rev m.head).magic ≠ hdrMagicRev) := by
    rw [hsent.rawMagic]
    cases rev <;> decide
  have halign : doAlign m.auxSize % 2 ^ 32 = doAlign m.auxSize :=
    Nat.mod_eq_of_lt (Nat.lt_of_le_of_lt (doAlign_le hsent.aux_le) (by decide))
  have hsizes : ¬ (hdrSize m.head.cmd < align ∨ hdrSize m.head.cmd > hdrMax ∨
      doAlign m.auxSize > auxMax) := by
    rintro (hlt | hgt | hgt)
    · exact absurd hsent.hdr_ge (Nat.not_le.mpr hlt)
    · exact absurd hsent.hdr_le (Nat.not_le.mpr hgt)
    · exact absurd (doAlign_le hsent.aux_le) (Nat.not_le.mpr hgt)
  unfold header1Msg
  simp only [hhead, if_neg hmagic, hsent.coreSizes, halign, if_neg hsizes]
  let rx := msgAlloc m.auxSize (hdrSize m.head.cmd)
  let q1 : Ioq := { io.q with
    hbytes := hdrSize m.head.cmd
    abytes := doAlign m.auxSize
    unalignedAuxSize := m.auxSize
    msg := some rx }
  have hp1 : Plain q1 := ⟨h.plain.cdx, h.plain.cdn, h.plain.beg, h.plain.fin⟩
  obtain ⟨buf, beg, fin, hmk, hbf, hf, hcontent, hroom, _⟩ := makeroom_spec hp1 (hdrSize m.head.cmd)
  have hbytes : io.q.cdx - io.q.beg = fin - beg := by
    have hlen := congrArg List.length hcontent
    rw [Ioq.length_content, Ioq.length_content] at hlen
    rw [h.plain.cdx]
    exact hlen.symm
  refine ⟨⟨{ q1.refifo buf beg fin with state := .header2 }, io.sock⟩, rx, ?_, ?_⟩
  · show (makeroom q1 (hdrSize m.head.cmd)).bind _ = _
    rw [hmk, hbytes]
    rfl
  · refine ⟨⟨⟨rfl, rfl, hbf, hf⟩, h.error, h.sent, h.cuts⟩, rfl, rfl,
      ⟨rfl, rfl, rfl, rfl, rfl, rfl⟩, ?_, ?_⟩
    · exact hroom (Nat.le_trans hsent.hdr_le (by decide))
    · have hstream := h.stream
      show (q1.refifo buf beg fin).content ++ _ = _
      rw [hcontent]
      exact hstream

theorem header1_spec (h : AtHeader1 icrc32 rev upto io later msgs) : ∃ io' next,
    header1 io = some (io', next) ∧
      (next = .brk false ∧ AtHeader1 icrc32 rev upto io' later msgs ∧
        (io'.sock.pending = [] → later = [] → msgs = []) ∨
      ∃ m rest rx, msgs = m :: rest ∧ AtHeader2 icrc32 rev upto io' later m rest rx ∧
        next = .fall (io'.q.fin - io'.q.beg) (bufSize - io'.q.fin)) := by
  obtain ⟨buf, beg, fin, hmk, hbf, hf, hcontent, _, hroom⟩ := makeroom_spec h.plain align
  have hp1 := @refifo_plain io.q buf beg fin hbf hf
  have hmore : decide (io.q.cdx - io.q.beg < align) = true → fin < bufSize := by
    intro hlt
    have hlt := of_decide_eq_true hlt
    rw [h.plain.cdx] at hlt
    exact hroom hlt (Nat.lt_trans hlt (by decide))
  obtain ⟨q', buf', fin', sock', hfill, hdec, hbf', hf', hstream, hcuts⟩ :=
    @fillIf_spec ⟨io.q.refifo buf beg fin, io.sock⟩ hp1 h.cuts _ hmore
  have hp2 := @refifo_plain io.q buf' beg fin' hbf' hf'
  have hdec : q'.decrypted = io.q.refifo buf' beg fin' := hdec
  have hfill : fillIf (decide (io.q.cdx - io.q.beg < align)) ⟨io.q.refifo buf beg fin, io.sock⟩
      (bufSize - fin) = some (⟨q', sock'⟩, false) := hfill
  have h1 : AtHeader1 icrc32 rev upto ⟨io.q.refifo buf' beg fin', sock'⟩ later msgs := by
    refine ⟨⟨hp2, h.error, h.sent, hcuts⟩, h.state, h.msg, ?_⟩
    have hs := h.stream
    rw [Io.stream, ← List.append_assoc, ← hcontent] at hs
    rw [Io.stream, ← List.append_assoc, ← hs]
    exact congrArg (· ++ later) hstream
  have hnone : (io.q.refifo buf' beg fin').msg.isSome = false := by
    show io.q.msg.isSome = false
    rw [h.msg]
    rfl
  unfold header1
  simp only [hmk, Option.bind_eq_bind, Option.bind_some, hfill, hdec, hp2.checked, hnone,
    Bool.false_eq_true, if_false]
  show ∃ io' next, (if fin' - beg < align then _ else _) = _ ∧ _
  split
  case isTrue hlt =>
    refine ⟨_, _, rfl, .inl ⟨rfl, h1, fun hp hl => ?_⟩⟩
    have hs := h1.stream
    rw [Io.stream, hp, hl, List.append_nil, List.append_nil] at hs
    exact msgs_nil h.sent (by rw [Ioq.length_content]; exact hlt) hs
  case isFalse hge =>
    have hge := Nat.not_lt.mp hge
    cases hmsgs : msgs with
    | nil =>
        have hs := congrArg List.length h1.stream
        rw [hmsgs, Io.stream, List.length_append, Ioq.length_content] at hs
        have hz : fin' - beg = 0 := Nat.eq_zero_of_add_eq_zero_right hs
        exact absurd hge (by rw [hz]; decide)
    | cons m rest =>
        rw [hmsgs] at h1
        obtain ⟨io', rx, hmsg, h2⟩ := header1Msg_spec h1 hge
        exact ⟨io', _, hmsg, .inr ⟨m, rest, rx, rfl, h2, rfl⟩⟩

theorem delivered_eq (rev : Bool) (m : Msg) :
    delivered rev m = ⟨(delivered rev m).head, m.ext, m.auxSize, m.aux⟩ := by
  cases rev <;> rfl

theorem doAlign_eq_zero {n : Nat} (h : doAlign n = 0) : n = 0 := by
  have h : (n + 63) / 64 * 64 = 0 := h
  omega

theorem header2Msg_spec (h : AtHeader2 icrc32 rev upto io later m rest rx)
    (hge : io.q.hbytes ≤ io.q.fin - io.q.beg) (nmax : Nat) : ∃ io' rx' next,
    header2Msg icrc32 io rx nmax = some (io', next) ∧
      (next = .brk true ∧ AtEnd icrc32 rev upto io' later m rest rx' ∨
      next = .fall (io'.q.fin - io'.q.beg) nmax ∧ AtAux1 icrc32 rev upto io' later m rest rx') := by
  have hsent := h.sent.1
  have hstream := h.stream
  have hhdr : (hdrBytes rev m).length = io.q.hbytes := by
    rw [hsent.shaped.length_hdrBytes, h.sized.hbytes]
  rw [Io.stream, List.flatMap_cons, wire_eq, List.append_assoc] at hstream
  obtain ⟨hraw, hmore⟩ := content_split (by rw [hhdr]; exact hge) hstream
  rw [hhdr] at hraw hmore
  have hparse : Head.ofBytes (hdrBytes rev m) = rawHead rev m.head := by
    rw [hdrBytes, headBytes_eq]
    exact Head.ofBytes_bytes _ _
  have hext : (hdrBytes rev m).drop align = m.ext := List.drop_left' (length_headBytes ..)
  let rx' : RxMsg := { rx with head := (delivered rev m).head, ext := m.ext }
  let q1 : Ioq := { io.q with msg := some rx', beg := io.q.beg + io.q.hbytes }
  have hp1 : Plain q1 := by
    refine ⟨h.plain.cdx, h.plain.cdn, ?_, h.plain.fin⟩
    have hbeg := h.plain.beg
    show io.q.beg + io.q.hbytes ≤ io.q.fin
    omega
  have hheaded : Headed rev q1 m rx' :=
    ⟨h.sized.abytes, h.sized.unaligned, h.sized.auxCap, rfl, rfl⟩
  have hcommon : Common icrc32 rev upto ⟨q1, io.sock⟩ (m :: rest) := ⟨hp1, h.error, h.sent, h.cuts⟩
  have hbytes : io.q.cdx - io.q.beg - io.q.hbytes = q1.fin - q1.beg := by
    rw [h.plain.cdx]
    exact Nat.sub_sub ..
  have hle : ¬ io.q.hbytes > rx.hdrSize := by
    rw [h.sized.hdrSize]
    exact Nat.lt_irrefl _
  unfold header2Msg
  simp only [hraw, hparse, hext, hsent.checkHead, Option.bind_eq_bind, Option.bind_some,
    if_neg hle]
  show ∃ io' rx' next, q1.checked.bind _ = _ ∧ _
  rw [hp1.checked]
  show ∃ io' rx' next, (if io.q.abytes = 0 then _ else _) = _ ∧ _
  split
  case isTrue hz =>
    refine ⟨_, rx', _, rfl, .inl ⟨rfl, hcommon, rfl, ?_, ?_⟩⟩
    · rw [h.sized.abytes] at hz
      have haux : m.aux = [] := List.eq_nil_of_length_eq_zero (by rw [hsent.aux, hz])
      rw [delivered_eq, haux]
      show (⟨_, _, rx.auxSize, Memory.read rx.auxData 0 rx.auxCap⟩ : Msg) = _
      rw [h.sized.auxSize, h.sized.auxCap, hz]
      rfl
    · have haux : m.aux = [] := by
        refine List.eq_nil_of_length_eq_zero ?_
        rw [hsent.aux, ← h.sized.abytes, hz]
      rw [haux] at hmore
      exact hmore
  case isFalse hne =>
    refine ⟨_, rx', _, rfl, .inr ⟨congrArg (Next.fall · nmax) hbytes, ?_, rfl, rfl, ?_, ?_, hmore⟩⟩
    · exact ⟨⟨hp1.cdx, hp1.cdn, hp1.beg, hp1.fin⟩, h.error, h.sent, h.cuts⟩
    · exact ⟨hheaded.abytes, hheaded.unaligned, hheaded.auxCap, rfl, rfl⟩
    · rwa [h.sized.abytes] at hne

theorem header2_spec (h : AtHeader2 icrc32 rev upto io later m rest rx) : ∃ io' rx' next,
    header2 icrc32 io (io.q.fin - io.q.beg) (bufSize - io.q.fin) = some (io', next) ∧
      (next = .brk false ∧ AtHeader2 icrc32 rev upto io' later m rest rx' ∧
        (io'.sock.pending = [] → later = [] → False) ∨
      next = .brk true ∧ AtEnd icrc32 rev upto io' later m rest rx' ∨
      (∃ nmax, next = .fall (io'.q.fin - io'.q.beg) nmax) ∧
        AtAux1 icrc32 rev upto io' later m rest rx') := by
  have hmore : decide (io.q.fin - io.q.beg < io.q.hbytes) = true → io.q.fin < bufSize := by
    intro hlt
    have hlt := of_decide_eq_true hlt
    have hroom := h.room
    omega
  obtain ⟨q', buf', fin', sock', hfill, hdec, hbf', hf', hstream, hcuts⟩ :=
    fillIf_spec h.plain h.cuts hmore
  have hp2 := @refifo_plain io.q buf' io.q.beg fin' hbf' hf'
  have h2 : AtHeader2 icrc32 rev upto ⟨io.q.refifo buf' io.q.beg fin', sock'⟩ later m rest rx := by
    refine ⟨⟨hp2, h.error, h.sent, hcuts⟩, h.state, h.msg, ?_, h.room, ?_⟩
    · exact ⟨h.sized.hbytes, h.sized.abytes, h.sized.unaligned, h.sized.hdrSize, h.sized.auxSize,
        h.sized.auxCap⟩
    · have hs := h.stream
      rw [Io.stream, ← List.append_assoc] at hs
      rw [Io.stream, ← List.append_assoc, ← hs]
      exact congrArg (· ++ later) hstream
  unfold header2
  simp only [h.msg, Option.bind_eq_bind, Option.bind_some, hfill, hdec, hp2.checked,
    Bool.false_eq_true, if_false]
  show ∃ io' rx' next, (if fin' - io.q.beg < io.q.hbytes then _ else _) = _ ∧ _
  split
  case isTrue hlt =>
    refine ⟨_, rx, _, rfl, .inl ⟨rfl, h2, fun hp hl => ?_⟩⟩
    -- The header has more bytes than there are.
    have hs := congrArg List.length h2.stream
    rw [Io.stream, hp, hl, List.append_nil, List.append_nil, Ioq.length_content, List.flatMap_cons,
      List.length_append, h.sent.1.length_wire, ← h.sized.hbytes] at hs
    have hs : fin' - io.q.beg = io.q.hbytes + doAlign m.auxSize + _ := hs
    omega
  case isFalse hge =>
    obtain ⟨io', rx', next, hmsg, hend | ⟨hnext, haux⟩⟩ :=
      header2Msg_spec h2 (Nat.not_lt.mp hge) (bufSize - io.q.fin)
    · exact ⟨io', rx', next, hmsg, .inr (.inl hend)⟩
    · exact ⟨io', rx', next, hmsg, .inr (.inr ⟨⟨_, hnext⟩, haux⟩)⟩

/-- `k` bytes of the auxiliary data are in the message; the FIFO is empty when there are more
to come. -/
structure AtAux2 (icrc32 : List UInt8 → BitVec 32) (rev : Bool) (upto : Nat) (io : Io)
    (later : List UInt8) (m : Msg) (rest : List Msg) (rx : RxMsg) (k : Nat) : Prop extends
    Common icrc32 rev upto io (m :: rest) where
  state : io.q.state = .auxData2
  msg : io.q.msg = some rx
  headed : Headed rev io.q m rx
  some : doAlign m.auxSize ≠ 0
  auxSize : rx.auxSize = k
  le : k ≤ doAlign m.auxSize
  copied : Memory.read rx.auxData 0 k = m.aux.take k
  empty : k < doAlign m.auxSize → io.q.beg = io.q.fin
  stream : io.stream later = m.aux.drop k ++ rest.flatMap (wire rev)

/-- The next bytes of the auxiliary data go to the message. -/
theorem bcopy_spec {q : Ioq} {k n : Nat} (haux : m.aux.length = doAlign m.auxSize)
    (hcap : rx.auxCap = doAlign m.auxSize) (hfifo : q.fin ≤ bufSize) (hn : n ≤ q.fin - q.beg)
    (hk : k + n ≤ doAlign m.auxSize) (hcopied : Memory.read rx.auxData 0 k = m.aux.take k)
    {X : List UInt8} (hstream : q.content ++ X = m.aux.drop k ++ rest.flatMap (wire rev)) :
    ∃ data, rx.bcopy q k n = some { rx with auxData := data } ∧
      Memory.read data 0 (k + n) = m.aux.take (k + n) ∧
      Memory.read q.buf (q.beg + n) (q.fin - (q.beg + n)) ++ X =
        m.aux.drop (k + n) ++ rest.flatMap (wire rev) := by
  have hlen : ((m.aux.drop k).take n).length = n := by
    rw [List.length_take, List.length_drop, haux]
    exact Nat.min_eq_left (Nat.le_sub_of_add_le' hk)
  have hparts : m.aux.drop k = (m.aux.drop k).take n ++ m.aux.drop (k + n) := by
    rw [← List.drop_drop, List.take_append_drop]
  rw [hparts, List.append_assoc] at hstream
  obtain ⟨hread, hmore⟩ := content_split (by rw [hlen]; exact hn) hstream
  rw [hlen] at hread hmore
  have htake : m.aux.take (k + n) = m.aux.take k ++ (m.aux.drop k).take n := List.take_add ..
  unfold RxMsg.bcopy
  rcases Nat.eq_zero_or_pos n with rfl | hpos
  · exact ⟨rx.auxData, if_pos rfl, hcopied, hmore⟩
  · rw [if_neg (Nat.ne_of_gt hpos), if_pos ⟨by omega, by omega⟩]
    refine ⟨_, rfl, ?_, hmore⟩
    have hwrite := Memory.read_write rx.auxData k (Memory.read q.buf q.beg n)
    rw [Memory.length_read] at hwrite
    rw [Memory.read_add, Nat.zero_add, hwrite, hread, htake,
      Memory.read_write_of_disjoint (.inl (by omega)), hcopied]

theorem auxData1_spec (h : AtAux1 icrc32 rev upto io later m rest rx) (nmax : Nat) :
    ∃ io' rx' k next, auxData1 io (io.q.fin - io.q.beg) nmax = some (io', next) ∧
      (∃ nmax, next = .fall (io'.q.fin - io'.q.beg) nmax) ∧
      AtAux2 icrc32 rev upto io' later m rest rx' k := by
  have hsent := h.sent.1
  let bytes := io.q.fin - io.q.beg
  let k := if bytes ≥ io.q.abytes then io.q.abytes else bytes
  have hk : k ≤ bytes ∧ k ≤ io.q.abytes ∧ (k < io.q.abytes → k = bytes) := by
    have hmin : k = min io.q.abytes bytes := (Nat.min_def ..).symm
    rw [hmin]
    exact ⟨Nat.min_le_right .., Nat.min_le_left .., fun hlt => by omega⟩
  obtain ⟨hkb, hka, hkk⟩ := hk
  have hka' : 0 + k ≤ doAlign m.auxSize := by
    rw [Nat.zero_add, ← h.headed.abytes]
    exact hka
  obtain ⟨data, hcopy, hcopied, hmore⟩ := bcopy_spec hsent.aux h.headed.auxCap h.plain.fin hkb hka'
    rfl h.stream
  rw [Nat.zero_add] at hcopied hmore hka'
  let rx' : RxMsg := { rx with auxData := data, auxSize := k }
  have hbeg : io.q.beg + k ≤ io.q.fin := by
    have hle := Nat.add_le_add_left hkb io.q.beg
    rwa [Nat.add_sub_cancel' h.plain.beg] at hle
  have hcdx : ¬ (bytes < io.q.abytes ∧ io.q.cdx < io.q.beg + k) := by
    rw [h.plain.cdx]
    exact fun hlt => Nat.not_lt.mpr hbeg hlt.2
  let q1 : Ioq := { io.q with msg := some rx', beg := io.q.beg + k }
  have hp1 : Plain q1 := ⟨h.plain.cdx, h.plain.cdn, hbeg, h.plain.fin⟩
  have hnext : bytes - k = q1.fin - q1.beg := Nat.sub_sub ..
  refine ⟨⟨{ q1 with state := .auxData2 }, io.sock⟩, rx', k, .fall (bytes - k) nmax, ?_,
    ⟨nmax, congrArg (Next.fall · nmax) hnext⟩, ?_⟩
  · unfold auxData1
    simp only [h.msg, Option.bind_eq_bind, Option.bind_some]
    show (rx.bcopy io.q 0 k).bind _ = _
    rw [hcopy]
    show ({ q1 with cdx := if bytes < io.q.abytes ∧ io.q.cdx < io.q.beg + k then io.q.beg + k
      else io.q.cdx } : Ioq).checked.bind _ = _
    rw [if_neg hcdx]
    show q1.checked.bind _ = _
    rw [hp1.checked]
    rfl
  · refine ⟨⟨⟨hp1.cdx, hp1.cdn, hp1.beg, hp1.fin⟩, h.error, h.sent, h.cuts⟩, rfl, rfl, ?_, h.some,
      rfl, hka', hcopied, fun hlt => ?_, hmore⟩
    · exact ⟨h.headed.abytes, h.headed.unaligned, h.headed.auxCap, h.headed.head, h.headed.ext⟩
    · have hkk := hkk (by rwa [h.headed.abytes])
      show io.q.beg + k = io.q.fin
      rw [hkk]
      exact Nat.add_sub_cancel' h.plain.beg

theorem auxData2Msg_spec (h : AtAux2 icrc32 rev upto io later m rest rx (doAlign m.auxSize)) :
    ∃ io' rx', auxData2Msg icrc32 io rx = some (io', .brk true) ∧
      AtEnd icrc32 rev upto io' later m rest rx' := by
  have hsent := h.sent.1
  have hcopied : Memory.read rx.auxData 0 io.q.abytes = m.aux := by
    rw [h.headed.abytes, h.copied]
    exact List.take_of_length_le (Nat.le_of_eq hsent.aux)
  have hne : m.auxSize ≠ 0 := fun hz => h.some (by rw [hz]; rfl)
  have hcrc : rx.head.auxCrc = icrc32 m.aux := by
    rw [h.headed.head, ← hsent.auxCrc hne]
    cases rev <;> rfl
  let rx' : RxMsg := { rx with auxSize := io.q.unalignedAuxSize }
  refine ⟨⟨{ io.q with msg := some rx' }, io.sock⟩, rx', ?_, ?_⟩
  · unfold auxData2Msg
    dsimp only
    rw [hcopied, hcrc]
    exact if_neg fun hn => hn rfl
  · refine ⟨⟨⟨h.plain.cdx, h.plain.cdn, h.plain.beg, h.plain.fin⟩, h.error, h.sent, h.cuts⟩, rfl,
      ?_, ?_⟩
    · rw [delivered_eq, ← hcopied, ← h.headed.head, ← h.headed.ext, ← h.headed.unaligned,
        h.headed.abytes, ← h.headed.auxCap]
      rfl
    · have hs := h.stream
      rwa [List.drop_eq_nil_of_le (Nat.le_of_eq hsent.aux)] at hs

theorem auxData2_spec {k : Nat} (h : AtAux2 icrc32 rev upto io later m rest rx k) {bytes : Nat}
    (hbytes : k < doAlign m.auxSize → bytes = 0) : ∃ io' rx' k' next,
    auxData2 icrc32 io bytes = some (io', next) ∧
      (next = .brk false ∧ AtAux2 icrc32 rev upto io' later m rest rx' k' ∧
        (io'.sock.pending = [] → later = [] → False) ∨
      next = .brk true ∧ AtEnd icrc32 rev upto io' later m rest rx') := by
  have hsent := h.sent.1
  obtain ⟨buf, beg, fin, hmk, hbf, hf, hcontent, _, hroom⟩ :=
    makeroom_spec h.plain (io.q.abytes - rx.auxSize)
  have hp1 := @refifo_plain io.q buf beg fin hbf hf
  have hmore : decide (rx.auxSize < io.q.abytes) = true → fin < bufSize := by
    intro hlt
    have hlt := of_decide_eq_true hlt
    rw [h.auxSize, h.headed.abytes] at hlt
    have hempty := h.empty hlt
    rw [h.auxSize, h.headed.abytes, hempty, Nat.sub_self] at hroom
    exact hroom (Nat.sub_pos_of_lt hlt) (by decide)
  obtain ⟨q', buf', fin', sock', hfill, hdec, hbf', hf', hstream, hcuts⟩ :=
    @fillIf_spec ⟨io.q.refifo buf beg fin, io.sock⟩ hp1 h.cuts _ hmore
  have hp2 := @refifo_plain io.q buf' beg fin' hbf' hf'
  have hbf' : beg ≤ fin' := hbf'
  have hdec : q'.decrypted = io.q.refifo buf' beg fin' := hdec
  have hfill : fillIf (decide (rx.auxSize < (io.q.refifo buf beg fin).abytes))
      ⟨io.q.refifo buf beg fin, io.sock⟩ (bufSize - fin) = some (⟨q', sock'⟩, false) := hfill
  have hs : (io.q.refifo buf' beg fin').content ++ (sock'.pending ++ later) =
      m.aux.drop k ++ rest.flatMap (wire rev) := by
    have hs := h.stream
    rw [Io.stream, ← List.append_assoc, ← hcontent] at hs
    rw [← List.append_assoc, ← hs]
    exact congrArg (· ++ later) hstream
  -- The bytes copied now.
  let n := min (fin' - beg) (doAlign m.auxSize - k)
  have hn : n ≤ fin' - beg := Nat.min_le_left ..
  have hkn : k + n ≤ doAlign m.auxSize := by
    have hle := Nat.add_le_add_left (Nat.min_le_right (fin' - beg) (doAlign m.auxSize - k)) k
    rwa [Nat.add_sub_cancel' h.le] at hle
  obtain ⟨data, hcopy, hcopied, hrest⟩ := @bcopy_spec rev m rest rx (io.q.refifo buf' beg fin') k n
    hsent.aux h.headed.auxCap hf' hn hkn h.copied _ hs
  let rx' : RxMsg := { rx with auxData := data, auxSize := rx.auxSize + n }
  have hsize : rx.auxSize + n = k + n := by rw [h.auxSize]
  let q2 : Ioq := { io.q.refifo buf' beg fin' with msg := some rx', beg := beg + n }
  have hp3 : Plain q2 := by
    refine ⟨rfl, rfl, ?_, hf'⟩
    have hle := Nat.add_le_add_left hn beg
    rwa [Nat.add_sub_cancel' hbf'] at hle
  have h2 : AtAux2 icrc32 rev upto ⟨q2, sock'⟩ later m rest rx' (k + n) := by
    refine ⟨⟨hp3, h.error, h.sent, hcuts⟩, h.state, rfl, ?_, h.some, hsize, hkn, hcopied,
      fun hlt => ?_, hrest⟩
    · exact ⟨h.headed.abytes, h.headed.unaligned, h.headed.auxCap, h.headed.head, h.headed.ext⟩
    · show beg + n = fin'
      omega
  have hzero : ¬ (rx.auxSize < (io.q.refifo buf beg fin).abytes ∧ bytes ≠ 0) := by
    show ¬ (rx.auxSize < io.q.abytes ∧ bytes ≠ 0)
    rw [h.auxSize, h.headed.abytes]
    exact fun hlt => hlt.2 (hbytes hlt.1)
  unfold auxData2
  simp only [h.msg, Option.bind_eq_bind, Option.bind_some, hmk, if_neg hzero, hfill, hdec,
    hp2.checked, Bool.false_eq_true, if_false]
  have hmin : min ((io.q.refifo buf' beg fin').cdx - (io.q.refifo buf' beg fin').beg)
      ((io.q.refifo buf' beg fin').abytes - rx.auxSize) = n := by
    rw [h.auxSize]
    show min (fin' - beg) (io.q.abytes - k) = n
    rw [h.headed.abytes]
  have hcopy : rx.bcopy (io.q.refifo buf' beg fin') rx.auxSize n =
      some { rx with auxData := data } := (congrArg (rx.bcopy _ · n) h.auxSize).trans hcopy
  rw [hmin, hcopy]
  show ∃ io' rx' k' next, q2.checked.bind _ = _ ∧ _
  rw [hp3.checked]
  show ∃ io' rx' k' next, (if rx.auxSize + n < io.q.abytes then _ else _) = _ ∧ _
  rw [hsize]
  split
  case isTrue hlt =>
    refine ⟨_, rx', k + n, _, rfl, .inl ⟨rfl, h2, fun hp hl => ?_⟩⟩
    -- More of the auxiliary data is to come.
    have hlen := congrArg List.length h2.stream
    rw [Io.stream, hp, hl, List.append_nil, List.append_nil, Ioq.length_content,
      List.length_append, List.length_drop, hsent.aux] at hlen
    rw [h.headed.abytes] at hlt
    have hempty := h2.empty hlt
    omega
  case isFalse hge =>
    rw [h.headed.abytes] at hge
    have hkn : k + n = doAlign m.auxSize := Nat.le_antisymm hkn (Nat.not_lt.mp hge)
    rw [hkn] at h2
    obtain ⟨io', rx'', hmsg, hend⟩ := auxData2Msg_spec h2
    refine ⟨io', rx'', k + n, _, ?_, .inr ⟨rfl, hend⟩⟩
    show (if k + n ≠ io.q.abytes then _ else _) = _
    rw [if_neg fun hne => hne (hkn.trans h.headed.abytes.symm)]
    exact hmsg

/-- Without more work in the FIFO and without bytes on their way everything is received. -/
def Settled (io : Io) (later : List UInt8) (msgs : List Msg) : Prop :=
  io.q.rwork = false → io.sock.pending = [] → later = [] → msgs = []

/-- The message goes on to state processing. -/
theorem complete_spec (h : AtEnd icrc32 rev upto io later m rest rx) : ∃ io',
    complete io true = some (io', .handed (delivered rev m)) ∧
      AtHeader1 icrc32 rev upto io' later rest ∧ Settled io' later rest := by
  have hsent := h.sent.1
  have hmsg := h.msg
  have herror := h.error
  have hwhole := h.whole
  have hsalt : ¬ (rx.head.salt &&& 255#32 ≠ BitVec.ofNat 32 io.q.seq &&& 255#32) := by
    have hhead : rx.head.salt = m.head.salt := by
      have hhead := congrArg (·.head.salt) hwhole
      refine hhead.trans ?_
      cases rev <;> rfl
    rw [hhead, hsent.salt]
    exact fun hne => hne rfl
  unfold complete
  simp only [hmsg, herror, hsalt, and_self, if_true, if_false, ne_eq, not_true_eq_false]
  rw [hwhole]
  refine ⟨_, rfl, ?_⟩
  split
  case isTrue hempty =>
    have hnil : io.q.content = [] := by
      refine List.eq_nil_of_length_eq_zero ?_
      rw [Ioq.length_content, hempty.1, h.plain.cdx, Nat.sub_self]
    have hs := h.stream
    rw [Io.stream, hnil] at hs
    refine ⟨⟨⟨⟨rfl, rfl, Nat.le_refl _, Nat.zero_le _⟩, rfl, h.sent.2, h.cuts⟩, rfl, rfl, hs⟩,
      fun _ hp hl => ?_⟩
    have hp : io.sock.pending = [] := hp
    rw [hp, hl] at hs
    exact msgs_nil h.sent.2 (by decide) hs
  case isFalse =>
    refine ⟨⟨⟨⟨h.plain.cdx, h.plain.cdn, h.plain.beg, h.plain.fin⟩, rfl, h.sent.2, h.cuts⟩, rfl,
      rfl, h.stream⟩, fun hw => ?_⟩
    exact absurd hw Bool.noConfusion

theorem complete_wait (h : io.q.error = 0) :
    complete io false = some (⟨{ io.q with rreq := true }, io.sock⟩, .wait) := by
  rcases hmsg : io.q.msg with _ | m <;> simp [complete, hmsg, h]

/-- The receiver is somewhere in the bytes of the messages still to come. -/
inductive Expect (icrc32 : List UInt8 → BitVec 32) (rev : Bool) (upto : Nat) (io : Io)
    (later : List UInt8) : List Msg → Prop
  | header1 {msgs : List Msg} (h : AtHeader1 icrc32 rev upto io later msgs) :
      Expect icrc32 rev upto io later msgs
  | header2 {m : Msg} {rest : List Msg} (rx : RxMsg)
      (h : AtHeader2 icrc32 rev upto io later m rest rx) :
      Expect icrc32 rev upto io later (m :: rest)
  | aux2 {m : Msg} {rest : List Msg} (rx : RxMsg) (k : Nat)
      (h : AtAux2 icrc32 rev upto io later m rest rx k) :
      Expect icrc32 rev upto io later (m :: rest)

theorem Expect.common (h : Expect icrc32 rev upto io later msgs) :
    Common icrc32 rev upto io msgs := by
  cases h with
  | header1 h => exact h.toCommon
  | header2 rx h => exact h.toCommon
  | aux2 rx k h => exact h.toCommon

/-- The flags, and how the bytes to come are divided, do not matter. -/
theorem Expect.congr (h : Expect icrc32 rev upto io later msgs) (rreq rwork : Bool) {sock : Sock}
    {later' : List UInt8} (hbytes : sock.pending ++ later' = io.sock.pending ++ later)
    (hcuts : NoLoss sock.cuts) :
    Expect icrc32 rev upto ⟨{ io.q with rreq, rwork }, sock⟩ later' msgs := by
  have hcommon : Common icrc32 rev upto ⟨{ io.q with rreq, rwork }, sock⟩ msgs :=
    have hc := h.common
    ⟨⟨hc.plain.cdx, hc.plain.cdn, hc.plain.beg, hc.plain.fin⟩, hc.error, hc.sent, hcuts⟩
  have hstream : Io.stream ⟨{ io.q with rreq, rwork }, sock⟩ later' = io.stream later :=
    congrArg (io.q.content ++ ·) hbytes
  cases h with
  | header1 h => exact .header1 ⟨hcommon, h.state, h.msg, hstream.trans h.stream⟩
  | header2 rx h =>
      refine .header2 rx ⟨hcommon, h.state, h.msg, ?_, h.room, hstream.trans h.stream⟩
      exact ⟨h.sized.hbytes, h.sized.abytes, h.sized.unaligned, h.sized.hdrSize, h.sized.auxSize,
        h.sized.auxCap⟩
  | aux2 rx k h =>
      refine .aux2 rx k ⟨hcommon, h.state, h.msg, ?_, h.some, h.auxSize, h.le, h.copied, h.empty,
        hstream.trans h.stream⟩
      exact ⟨h.headed.abytes, h.headed.unaligned, h.headed.auxCap, h.headed.head, h.headed.ext⟩

theorem SentFrom.append {upto' : Nat} : ∀ {msgs : List Msg} {seq : Nat} {more : List Msg},
    SentFrom icrc32 rev upto seq msgs → SentFrom icrc32 rev upto' upto more →
    SentFrom icrc32 rev upto' seq (msgs ++ more)
  | [], _, _, h, hmore => by
      cases h
      exact hmore
  | _ :: _, _, _, h, hmore => ⟨h.1, SentFrom.append h.2 hmore⟩

/-- More messages go behind those to come. -/
theorem Expect.append (h : Expect icrc32 rev upto io later msgs) {upto' : Nat} {more : List Msg}
    (hmore : SentFrom icrc32 rev upto' upto more) :
    Expect icrc32 rev upto' io (later ++ more.flatMap (wire rev)) (msgs ++ more) := by
  have hc := h.common
  have hcommon : Common icrc32 rev upto' io (msgs ++ more) :=
    ⟨hc.plain, hc.error, hc.sent.append hmore, hc.cuts⟩
  have hstream : io.stream (later ++ more.flatMap (wire rev)) =
      io.stream later ++ more.flatMap (wire rev) := by
    simp only [Io.stream, List.append_assoc]
  cases h with
  | header1 h =>
      refine .header1 ⟨hcommon, h.state, h.msg, ?_⟩
      rw [hstream, h.stream, List.flatMap_append]
  | header2 rx h =>
      refine .header2 rx ⟨hcommon, h.state, h.msg, h.sized, h.room, ?_⟩
      rw [hstream, h.stream, ← List.flatMap_append]
      rfl
  | aux2 rx k h =>
      refine .aux2 rx k ⟨hcommon, h.state, h.msg, h.headed, h.some, h.auxSize, h.le, h.copied,
        h.empty, ?_⟩
      rw [hstream, h.stream, List.append_assoc, ← List.flatMap_append]
      rfl

/-- What a call may come to. -/
inductive Outcome (icrc32 : List UInt8 → BitVec 32) (rev : Bool) (upto : Nat) (io : Io)
    (later : List UInt8) : Result → List Msg → Prop
  | wait {msgs : List Msg} (h : Expect icrc32 rev upto io later msgs) (hs : Settled io later msgs) :
      Outcome icrc32 rev upto io later .wait msgs
  | handed {m : Msg} {rest : List Msg} (h : Expect icrc32 rev upto io later rest)
      (hs : Settled io later rest) :
      Outcome icrc32 rev upto io later (.handed (delivered rev m)) (m :: rest)

theorem complete_outcome (h : AtEnd icrc32 rev upto io later m rest rx) : ∃ io' r,
    complete io true = some (io', r) ∧ Outcome icrc32 rev upto io' later r (m :: rest) := by
  obtain ⟨io', hc, h1, hs⟩ := complete_spec h
  exact ⟨io', _, hc, .handed (.header1 h1) hs⟩

theorem wait_outcome (h : Expect icrc32 rev upto io later msgs)
    (hs : io.sock.pending = [] → later = [] → msgs = []) : ∃ io' r,
    complete io false = some (io', r) ∧ Outcome icrc32 rev upto io' later r msgs := by
  refine ⟨_, _, complete_wait h.common.error, .wait ?_ fun _ => hs⟩
  exact h.congr true io.q.rwork rfl h.common.cuts

theorem runAux2_spec {k bytes : Nat} (h : AtAux2 icrc32 rev upto io later m rest rx k)
    (hbytes : k < doAlign m.auxSize → bytes = 0) : ∃ io' r,
    runAux2 icrc32 io bytes = some (io', r) ∧ Outcome icrc32 rev upto io' later r (m :: rest) := by
  obtain ⟨io1, rx1, k1, next, haux, ⟨rfl, h1, hs⟩ | ⟨rfl, h1⟩⟩ := auxData2_spec h hbytes
  · rw [runAux2, haux]
    exact wait_outcome (.aux2 rx1 k1 h1) fun hp hl => (hs hp hl).elim
  · rw [runAux2, haux]
    exact complete_outcome h1

theorem AtAux2.bytes_zero {k : Nat} (h : AtAux2 icrc32 rev upto io later m rest rx k)
    (hlt : k < doAlign m.auxSize) : io.q.fin - io.q.beg = 0 := by
  rw [h.empty hlt]
  exact Nat.sub_self _

theorem runAux1_spec (h : AtAux1 icrc32 rev upto io later m rest rx) (nmax : Nat) : ∃ io' r,
    runAux1 icrc32 io (io.q.fin - io.q.beg) nmax = some (io', r) ∧
      Outcome icrc32 rev upto io' later r (m :: rest) := by
  obtain ⟨io1, rx1, k1, next, haux, ⟨_, rfl⟩, h1⟩ := auxData1_spec h nmax
  rw [runAux1, haux]
  exact runAux2_spec h1 h1.bytes_zero

theorem runHeader2_spec (h : AtHeader2 icrc32 rev upto io later m rest rx) : ∃ io' r,
    runHeader2 icrc32 io (io.q.fin - io.q.beg) (bufSize - io.q.fin) = some (io', r) ∧
      Outcome icrc32 rev upto io' later r (m :: rest) := by
  obtain ⟨io1, rx1, next, hh, ⟨rfl, h1, hs⟩ | ⟨rfl, h1⟩ | ⟨⟨nmax, rfl⟩, h1⟩⟩ := header2_spec h
  · rw [runHeader2, hh]
    exact wait_outcome (.header2 rx1 h1) fun hp hl => (hs hp hl).elim
  · rw [runHeader2, hh]
    exact complete_outcome h1
  · rw [runHeader2, hh]
    exact runAux1_spec h1 nmax

theorem runHeader1_spec (h : AtHeader1 icrc32 rev upto io later msgs) : ∃ io' r,
    runHeader1 icrc32 io = some (io', r) ∧ Outcome icrc32 rev upto io' later r msgs := by
  obtain ⟨io1, next, hh, ⟨rfl, h1, hs⟩ | ⟨m, rest, rx, rfl, h1, rfl⟩⟩ := header1_spec h
  · rw [runHeader1, hh]
    exact wait_outcome (.header1 h1) hs
  · rw [runHeader1, hh]
    exact runHeader2_spec h1

/-- Without an error a call goes on with what the queue is at. -/
theorem ioqRead_call {io io1 : Io}
    (hio : (⟨{ io.q with rreq := false, rwork := false }, io.sock⟩ : Io) = io1)
    (herror : io1.q.error = 0) : ioqRead icrc32 io =
      match io1.q.state with
      | .header1 => runHeader1 icrc32 io1
      | .header2 => runHeader2 icrc32 io1 (io1.q.cdx - io1.q.beg) (bufSize - io1.q.fin)
      | .auxData1 => runAux1 icrc32 io1 (io1.q.cdx - io1.q.beg) (bufSize - io1.q.fin)
      | .auxData2 => runAux2 icrc32 io1 (io1.q.cdx - io1.q.beg)
      | .error => if io1.q.msg.isSome then none else complete io1 false := by
  subst hio
  exact if_neg fun hne => hne herror

/-- **One call.**  It delivers the next message or waits for more. -/
theorem ioqRead_spec (h : Expect icrc32 rev upto io later msgs) : ∃ io' r,
    ioqRead icrc32 io = some (io', r) ∧ Outcome icrc32 rev upto io' later r msgs := by
  have h1 := h.congr false false rfl h.common.cuts
  generalize hio : (⟨{ io.q with rreq := false, rwork := false }, io.sock⟩ : Io) = io1 at h1
  rw [ioqRead_call hio h1.common.error, h1.common.plain.cdx]
  cases h1 with
  | header1 h1 =>
      rw [h1.state]
      exact runHeader1_spec h1
  | header2 rx h1 =>
      rw [h1.state]
      exact runHeader2_spec h1
  | aux2 rx k h1 =>
      rw [h1.state]
      exact runAux2_spec h1 h1.bytes_zero

end Receive

end Hammer2.Dmsg
