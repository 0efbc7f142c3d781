/-
# `Hammer2.Dmsg.Secure` — an encrypted link

Messages go through the transmit queue, are staged in chunks, written in pieces, read in pieces,
decrypted and put together again.

    Link      the two sides and what is between them
    Safe      when no decryption fails, and encryption only for the last chunk offered
    secure    every run delivers the messages in order; a failure ends the stream at its chunk

Neither loop looks at what its chunk function returns.  A decryption that fails is tried again for
ever, with its output index moving up; an encryption that fails is followed by that of the next
chunk.
-/
import Hammer2.Lib.Machine
import Hammer2.Dmsg.Framing
import Hammer2.Dmsg.Seal
import Hammer2.Dmsg.Unseal

namespace Hammer2.Dmsg.Crypt

open Chunked Machine

/-- `written` are the bytes that `writev()` took, `iv` is the counter of the receiver. -/
structure Link where
  txmsgq : List Msg
  tx : TxIoq
  pending : List UInt8
  rx : Ioq
  iv : Nat
  sent : List Msg
  handed : List Msg
  written : List UInt8

/-- A new link, on which both sides have the counter `iv`. -/
def Link.init (iv : Nat) : Link where
  txmsgq := []
  tx := ⟨⟨[], 0, 0, 0⟩, 0, 0, 0, 0, fun _ => 0, iv, 0, 0⟩
  pending := []
  rx := .init
  iv := iv
  sent := []
  handed := []
  written := []

def Link.io (s : Link) (cuts : List Cut) : Rx := ⟨⟨s.rx, ⟨s.pending, cuts⟩⟩, s.iv, 0⟩

/-- As for an unencrypted link, with the calls of the cipher that fail. -/
inductive Ev
  | queue (m : Msg)
  | flush1 (random : Nat → BitVec 32)
  | flush2 (n : Option Nat) (faults : Faults)
  | read (cuts : List Cut) (faults : Faults)

section Step

variable (C : Cipher UInt8 align) (icrc32 : List UInt8 → BitVec 32) (rev : Bool)

def step (s : Link) : Ev → Option Link
  | .queue m => some { s with txmsgq := s.txmsgq ++ [m] }
  | .flush1 random =>
      let q := flush1 icrc32 rev s.tx.q (s.txmsgq.mapIdx fun i m => (m, random i))
      some { s with
        txmsgq := []
        tx := { s.tx with q }
        sent := s.sent ++ q.msgq.drop s.tx.q.msgq.length }
  | .flush2 n faults => do
      let (tx, data) ← flush2 C faults rev s.tx n
      some { s with tx, pending := s.pending ++ data, written := s.written ++ data }
  | .read cuts faults => do
      let (r, result) ← ioqRead C faults icrc32 (s.io cuts)
      some { s with
        rx := r.io.q
        pending := r.io.sock.pending
        iv := r.iv
        handed := match result with
          | .handed m => s.handed ++ [m]
          | _ => s.handed }

/-- Messages are what `dmsg_msg_alloc` makes, and the stream neither ends nor fails. -/
def Ok (_ : Link) : Ev → Prop
  | .queue m => Queueable icrc32 m
  | .read cuts _ => NoLoss cuts
  | _ => True

/-- No decryption fails, and an encryption fails only if no chunk is offered after it. -/
def Safe (s : Link) : Ev → Prop
  | .flush2 _ faults => Offers faults rev s.tx
  | .read _ faults => ∀ k, faults k = none
  | _ => True

/-- How many bytes have been staged. -/
def Link.staged (s : Link) : Nat := s.written.length + s.tx.raw.length

/-- There is something to send. -/
def Link.busy (s : Link) : Prop := s.tx.q.msgq ≠ [] ∨ s.tx.raw ≠ []

/-- Everything that was sent is written, and the receiver has no reason to go on. -/
def Link.idle (s : Link) : Prop := ¬ s.busy ∧ s.pending = [] ∧ s.rx.rwork = false

/-- What holds of a link in every state. -/
structure Secure (iv : Nat) (s : Link) : Prop where
  -- The indices are in order, and the receiver sees no error.
  tx : s.tx.Ordered
  rx : s.rx.Ordered
  error : s.rx.error = 0
  -- What is staged are the bytes of the messages, enciphered in their order.
  sealed : ∃ n, s.staged = align * n ∧ align * n ≤ (s.sent.flatMap (wire rev)).length ∧
    s.written ++ s.tx.raw = sealAll C iv (toChunks align n (s.sent.flatMap (wire rev)))
  -- What is delivered are the messages in their order, and nothing of what is not staged.
  handed : s.handed = (s.sent.take s.handed.length).map (delivered rev)
  within : ((s.sent.take s.handed.length).flatMap (wire rev)).length ≤ s.staged
  all : s.tx.error = 0 → s.idle → s.handed.length = s.sent.length
  -- What is neither staged nor in the queue is lost to an error.
  kept : s.tx.error = 0 →
    s.staged + (s.tx.q.rest rev).length = (s.sent.flatMap (wire rev)).length
  -- The sender goes on when the socket takes something.
  progress : ∀ k faults, Safe rev s (.flush2 (some (k + 1)) faults) → s.tx.error = 0 → s.busy →
    ∃ t, step C icrc32 rev s (.flush2 (some (k + 1)) faults) = some t ∧
      (t.tx.error = 0 → s.written.length < t.written.length)

end Step

section Run

variable {C : Cipher UInt8 align} {icrc32 : List UInt8 → BitVec 32} {rev : Bool} {iv : Nat}
  {s : Link} {old new : List Msg} {past chunks : List (List UInt8)} {lost : List UInt8}

/-- The messages `old` are delivered and the messages `new` are on their way; the chunks `past` are
decrypted, the chunks `chunks` are staged, and `lost` is not. -/
structure Inv (C : Cipher UInt8 align) (icrc32 : List UInt8 → BitVec 32) (rev : Bool) (iv : Nat)
    (s : Link) (old new : List Msg) (past chunks : List (List UInt8)) (lost : List UInt8) : Prop where
  queueable : ∀ m ∈ s.txmsgq, Queueable icrc32 m
  tx : s.tx.Wf
  sent : s.sent = old ++ new
  handed : s.handed = old.map (delivered rev)
  numbered : SentFrom icrc32 rev s.tx.q.seq 0 s.sent
  fed : Fed C ⟨iv, past ++ chunks⟩ (s.io []) s.tx.raw chunks
  expect : Expect icrc32 rev s.tx.q.seq (openIo (s.io []).io) (chunks.flatten ++ lost) new
  settled : Settled (openIo (s.io []).io) (chunks.flatten ++ lost) new
  plain : s.sent.flatMap (wire rev) = (past ++ chunks).flatten ++ lost
  whole : Whole align past
  mod : lost.length % align = 0
  written : s.written ++ s.tx.raw = sealAll C iv (past ++ chunks)
  counter : s.iv = iv + past.length
  fine : s.tx.error = 0 → s.tx.iv = iv + (past ++ chunks).length ∧ lost = s.tx.q.rest rev

theorem inv_init (hiv : iv < 2 ^ 64) : Inv C icrc32 rev iv (.init iv) [] [] [] [] [] := by
  have hnil : ∀ m : Msg, m ∈ ([] : List Msg) → False := fun m hm => List.not_mem_nil hm
  refine ⟨fun m hm => (hnil m hm).elim, ⟨⟨fun m hm => (hnil m hm).elim, rfl, rfl⟩, rfl, rfl,
    ⟨rfl, rfl, Nat.le_refl _, Nat.zero_le _⟩, fun _ => rfl, fun _ => hiv⟩, rfl, rfl, rfl, ?_, ?_,
    fun _ _ _ => rfl, rfl, fun _ hx => absurd hx List.not_mem_nil, rfl, rfl, rfl,
    fun _ => ⟨rfl, rfl⟩⟩
  · refine ⟨⟨rfl, Nat.le_refl _, Nat.le_refl _, Nat.zero_le _⟩, by show (0 : Nat) < 64; decide,
      fun c hc => absurd hc List.not_mem_nil, ⟨[], rfl, rfl⟩,
      fun _ hx => absurd hx List.not_mem_nil, rfl, hiv⟩
  · refine .header1 ⟨⟨⟨rfl, rfl, Nat.le_refl _, Nat.zero_le _⟩, rfl, rfl, ?_⟩, rfl, rfl, rfl⟩
    exact fun c hc => absurd hc List.not_mem_nil

theorem Inv.queue (h : Inv C icrc32 rev iv s old new past chunks lost) {m : Msg}
    (hm : Queueable icrc32 m) :
    Inv C icrc32 rev iv { s with txmsgq := s.txmsgq ++ [m] } old new past chunks lost := by
  refine ⟨?_, h.tx, h.sent, h.handed, h.numbered, h.fed, h.expect, h.settled, h.plain, h.whole, h.mod,
    h.written, h.counter, h.fine⟩
  intro m' hm'
  rcases List.mem_append.mp hm' with hin | hin
  · exact h.queueable m' hin
  · obtain rfl := List.mem_singleton.mp hin
    exact hm

theorem Inv.flush1 (h : Inv C icrc32 rev iv s old new past chunks lost)
    (random : Nat → BitVec 32) : ∃ t more, step C icrc32 rev s (.flush1 random) = some t ∧
      Inv C icrc32 rev iv t old (new ++ more) past chunks (lost ++ more.flatMap (wire rev)) := by
  obtain ⟨more, heq, hmore⟩ := @flush1_spec icrc32 rev
    (s.txmsgq.mapIdx fun i m => (m, random i)) s.tx.q (by
      intro p hp
      obtain ⟨i, hi, rfl⟩ := List.mem_mapIdx.mp hp
      exact h.queueable _ (List.getElem_mem hi))
  obtain ⟨hwf, hrest⟩ := @TxIoq.Wf.append rev _ h.tx.q _ hmore.shaped (s.tx.q.seq + more.length)
  have hsent : s.sent ++ (s.tx.q.msgq ++ more).drop s.tx.q.msgq.length = s.sent ++ more := by
    rw [List.drop_left]
  have hlater : chunks.flatten ++ (lost ++ more.flatMap (wire rev)) =
      chunks.flatten ++ lost ++ more.flatMap (wire rev) := (List.append_assoc ..).symm
  refine ⟨_, more, rfl, ?_⟩
  rw [heq, hsent]
  constructor
  case queueable => exact fun m hm => absurd hm List.not_mem_nil
  case tx =>
    exact ⟨hwf, h.tx.hbytes, h.tx.abytes, ⟨h.tx.staged.cdx, h.tx.staged.cdn, h.tx.staged.beg,
      h.tx.staged.fin⟩, h.tx.empty, h.tx.iv⟩
  case sent =>
    show s.sent ++ more = _
    rw [h.sent, List.append_assoc]
  case handed => exact h.handed
  case numbered => exact h.numbered.append hmore
  case fed => exact h.fed
  case expect =>
    rw [hlater]
    exact h.expect.append hmore
  case settled =>
    rw [hlater]
    intro hw hp hl
    obtain ⟨hl, hnil⟩ := List.append_eq_nil_iff.mp hl
    rw [h.settled hw hp hl, List.nil_append]
    exact msgs_nil hmore (by decide) hnil.symm
  case plain =>
    show (s.sent ++ more).flatMap (wire rev) = _
    rw [List.flatMap_append, h.plain, List.append_assoc]
  case whole => exact h.whole
  case mod =>
    rw [List.length_append, Nat.add_mod, h.mod, wires_mod hmore]
    rfl
  case written => exact h.written
  case counter => exact h.counter
  case fine =>
    intro herror
    obtain ⟨hiv, hlost⟩ := h.fine herror
    refine ⟨hiv, ?_⟩
    rw [hlost]
    exact hrest.symm

theorem Inv.flush2 (h : Inv C icrc32 rev iv s old new past chunks lost) (n : Option Nat)
    {faults : Faults} (hoffers : Offers faults rev s.tx) : ∃ t chunks' lost' data,
    step C icrc32 rev s (.flush2 n faults) = some t ∧
      Inv C icrc32 rev iv t old new past chunks' lost' ∧ t.written = s.written ++ data ∧
      (s.tx.error = 0 → t.tx.error = 0 → s.busy → ∀ k, n = some (k + 1) → data ≠ []) := by
  rcases eq_or_ne s.tx.error 0 with herror | hne
  · obtain ⟨hiv, hlost⟩ := h.fine herror
    obtain ⟨tx, data, more, lost', hrun, hf⟩ := flush2_spec (C := C) h.tx herror n hoffers
    have hlater : (chunks ++ more).flatten ++ lost' = chunks.flatten ++ lost := by
      rw [List.flatten_append, List.append_assoc, hf.plain, hlost]
    have hpast : (s.io []).iv = iv + past.length := h.counter
    have hcounter : s.tx.iv = s.iv + chunks.length := by
      rw [hiv, h.counter, List.length_append, Nat.add_assoc]
    have hall : past ++ (chunks ++ more) = (past ++ chunks) ++ more := (List.append_assoc ..).symm
    have hflen := length_flatten hf.whole
    have hmod := congrArg List.length hf.plain
    rw [List.length_append, ← hlost, hflen] at hmod
    have hlmod := h.mod
    refine ⟨_, chunks ++ more, lost', data, by rw [step, hrun]; rfl, ?_, rfl,
      fun _ => hf.progress⟩
    constructor
    case queueable => exact h.queueable
    case tx => exact hf.wf
    case sent => exact h.sent
    case handed => exact h.handed
    case numbered =>
      show SentFrom icrc32 rev tx.q.seq 0 s.sent
      rw [hf.seq]
      exact h.numbered
    case fed =>
      refine ⟨h.fed.half, h.fed.tail, h.fed.cuts, ⟨past, rfl, hpast⟩, h.fed.flight.whole.append hf.whole,
        ?_, ?_⟩
      · have hraw := h.fed.flight.raw
        show tail s.rx ++ (s.pending ++ data ++ tx.raw) = sealAll C s.iv (chunks ++ more)
        rw [List.append_assoc, hf.raw, sealAll_append, ← hcounter, ← List.append_assoc s.pending,
          ← List.append_assoc]
        exact congrArg (· ++ _) hraw
      · have hivs := hf.ivs
        show s.iv + (chunks ++ more).length < 2 ^ 64
        rw [List.length_append]
        omega
    case expect =>
      show Expect icrc32 rev tx.q.seq (openIo (s.io []).io) _ new
      rw [hlater, hf.seq]
      exact h.expect
    case settled =>
      rw [hlater]
      exact h.settled
    case plain =>
      show s.sent.flatMap (wire rev) = _
      rw [h.plain, List.flatten_append, List.flatten_append, List.append_assoc, List.append_assoc,
        hlater]
    case whole => exact h.whole
    case mod =>
      unfold align at *
      omega
    case written =>
      show s.written ++ data ++ tx.raw = _
      rw [List.append_assoc, hf.raw, ← List.append_assoc, h.written, hall,
        sealAll_append (past ++ chunks) iv, ← hiv]
    case counter => exact h.counter
    case fine =>
      intro hzero
      obtain ⟨hiv', hrest⟩ := hf.fine hzero
      refine ⟨?_, hrest⟩
      show tx.iv = _
      simp only [hiv', hiv, List.length_append, Nat.add_assoc]
  · have hrun : Crypt.flush2 C faults rev s.tx n = some (s.tx.drain, []) := if_pos hne
    refine ⟨_, chunks, lost, [], by rw [step, hrun]; rfl, ?_, rfl,
      fun hzero => absurd hzero hne⟩
    constructor
    case queueable => exact h.queueable
    case tx => exact drain_wf h.tx
    case sent => exact h.sent
    case handed => exact h.handed
    case numbered => exact h.numbered
    case fed =>
      have hio : Link.io { s with
          tx := s.tx.drain, pending := s.pending ++ [], written := s.written ++ [] } [] =
          s.io [] := by
        show (⟨⟨s.rx, ⟨s.pending ++ [], []⟩⟩, s.iv, 0⟩ : Rx) = _
        rw [List.append_nil]
        rfl
      rw [hio]
      exact h.fed
    case expect => exact h.expect
    case settled => exact h.settled
    case plain => exact h.plain
    case whole => exact h.whole
    case mod => exact h.mod
    case written =>
      show s.written ++ [] ++ s.tx.raw = _
      rw [List.append_nil]
      exact h.written
    case counter => exact h.counter
    case fine => exact fun hzero => absurd hzero hne

theorem Inv.read (h : Inv C icrc32 rev iv s old new past chunks lost) {cuts : List Cut}
    (hcuts : NoLoss cuts) {faults : Faults} (hfaults : ∀ k, faults k = none) :
    ∃ t old' new' past' chunks', step C icrc32 rev s (.read cuts faults) = some t ∧
      Inv C icrc32 rev iv t old' new' past' chunks' lost := by
  have hfed : Fed C ⟨iv, past ++ chunks⟩ (s.io cuts) s.tx.raw chunks :=
    ⟨h.fed.half, h.fed.tail, hcuts, h.fed.flight.past, h.fed.flight.whole, h.fed.flight.raw,
      h.fed.flight.ivs⟩
  obtain ⟨r, result, chunks', hread, hfed', hout⟩ :=
    @ioqRead_half C ⟨iv, past ++ chunks⟩ faults icrc32 rev s.tx.q.seq (s.io cuts) s.tx.raw lost chunks
      new hfaults hfed h.mod h.expect
  obtain ⟨past', hpast, hiv⟩ := hfed'.flight.past
  have hpast : past ++ chunks = past' ++ chunks' := hpast
  have hfed₀ : Fed C ⟨iv, past' ++ chunks'⟩ ⟨⟨r.io.q, ⟨r.io.sock.pending, []⟩⟩, r.iv, 0⟩ s.tx.raw
      chunks' := by
    rw [← hpast]
    exact ⟨hfed'.half, hfed'.tail, fun c hc => absurd hc List.not_mem_nil, hfed'.flight.past,
      hfed'.flight.whole, hfed'.flight.raw, hfed'.flight.ivs⟩
  have hwhole : Whole align past' := by
    have hall := h.whole.append h.fed.flight.whole
    rw [hpast] at hall
    exact fun x hx => hall x (List.mem_append_left _ hx)
  have hplain : s.sent.flatMap (wire rev) = (past' ++ chunks').flatten ++ lost := by
    rw [← hpast]
    exact h.plain
  have hwritten : s.written ++ s.tx.raw = sealAll C iv (past' ++ chunks') := by
    rw [← hpast]
    exact h.written
  have hfine : s.tx.error = 0 → s.tx.iv = iv + (past' ++ chunks').length ∧ lost = s.tx.q.rest rev := by
    rw [← hpast]
    exact h.fine
  cases hout with
  | wait he hs =>
      refine ⟨_, old, new, past', chunks', by rw [step, hread]; rfl, ?_⟩
      exact ⟨h.queueable, h.tx, h.sent, h.handed, h.numbered, hfed₀, he, hs, hplain, hwhole, h.mod,
        hwritten, hiv, hfine⟩
  | @handed m rest he hs =>
      refine ⟨_, old ++ [m], rest, past', chunks', by rw [step, hread]; rfl, ?_⟩
      refine ⟨h.queueable, h.tx, ?_, ?_, h.numbered, hfed₀, he, hs, hplain, hwhole, h.mod, hwritten, hiv,
        hfine⟩
      · exact h.sent.trans (by rw [List.append_assoc]; rfl)
      · show s.handed ++ [delivered rev m] = _
        rw [h.handed, List.map_append]
        rfl

/-- **One step.** -/
theorem Inv.step (h : Inv C icrc32 rev iv s old new past chunks lost) {e : Ev} (hok : Ok icrc32 s e)
    (hsafe : Safe rev s e) : ∃ t old' new' past' chunks' lost', Crypt.step C icrc32 rev s e = some t ∧
      Inv C icrc32 rev iv t old' new' past' chunks' lost' := by
  cases e with
  | queue m => exact ⟨_, old, new, past, chunks, lost, rfl, h.queue hok⟩
  | flush1 random =>
      obtain ⟨t, more, ht, hinv⟩ := h.flush1 random
      exact ⟨t, old, new ++ more, past, chunks, _, ht, hinv⟩
  | flush2 n faults =>
      obtain ⟨t, chunks', lost', _, ht, hinv, _⟩ := h.flush2 n hsafe
      exact ⟨t, old, new, past, chunks', lost', ht, hinv⟩
  | read cuts faults =>
      obtain ⟨t, old', new', past', chunks', ht, hinv⟩ := h.read hok hsafe
      exact ⟨t, old', new', past', chunks', lost, ht, hinv⟩

/-- What is left to parse is part of what is left to deliver. -/
theorem Expect.stream_le {upto : Nat} {io : Io} {later : List UInt8} {msgs : List Msg}
    (h : Expect icrc32 rev upto io later msgs) :
    (io.stream later).length ≤ (msgs.flatMap (wire rev)).length := by
  cases h with
  | header1 h => rw [h.stream]
  | header2 rx h => rw [h.stream]
  | @aux2 m rest rx k h =>
      rw [h.stream, List.flatMap_cons, wire_eq]
      simp only [List.length_append, List.length_drop]
      omega

theorem Inv.delivers (h : Inv C icrc32 rev iv s old new past chunks lost) :
    Secure C icrc32 rev iv s := by
  have hlen : s.handed.length = old.length := by rw [h.handed, List.length_map]
  have htake : s.sent.take s.handed.length = old := by
    rw [hlen, h.sent, List.take_left]
  have hall : Whole align (past ++ chunks) := h.whole.append h.fed.flight.whole
  have hstaged : s.staged = align * (past ++ chunks).length := by
    have hw := congrArg List.length h.written
    rw [List.length_append, length_sealAll iv hall] at hw
    exact hw
  have hplain := congrArg List.length h.plain
  rw [List.length_append, length_flatten hall] at hplain
  constructor
  case tx => exact h.tx.staged.ordered
  case rx => exact h.fed.half.ordered
  case error => exact h.expect.common.error
  case sealed =>
    refine ⟨(past ++ chunks).length, hstaged, by omega, ?_⟩
    rw [h.written, h.plain, toChunks_flatten lost hall]
  case handed =>
    rw [htake]
    exact h.handed
  case within =>
    rw [htake, hstaged]
    have hle := Expect.stream_le h.expect
    rw [stream_open, List.length_append, List.length_append] at hle
    rw [h.sent, List.flatMap_append, List.length_append] at hplain
    have hchunks := length_flatten h.fed.flight.whole
    omega
  case all =>
    rintro herror ⟨hbusy, hpending, hrwork⟩
    obtain ⟨hmsgq, hraw⟩ := not_or.mp hbusy
    have hchunks := h.fed.nil hpending (not_not.mp hraw)
    obtain ⟨_, hlost⟩ := h.fine herror
    have hrest : s.tx.q.rest rev = [] := by
      rw [Dmsg.TxIoq.rest, not_not.mp hmsgq]
      exact List.drop_nil
    have hnew := h.settled hrwork rfl (by rw [hchunks, hlost, hrest]; rfl)
    rw [hlen, h.sent, hnew, List.append_nil]
  case kept =>
    intro herror
    obtain ⟨_, hlost⟩ := h.fine herror
    rw [hstaged, ← hlost]
    omega
  case progress =>
    intro k faults hsafe herror hbusy
    obtain ⟨t, _, _, data, ht, _, hdata, hprog⟩ := h.flush2 (some (k + 1)) hsafe
    refine ⟨t, ht, fun hzero => ?_⟩
    have hne := hprog herror hzero hbusy k rfl
    rw [hdata, List.length_append]
    have hpos := List.length_pos_of_ne_nil hne
    omega

/-- **An encrypted link loses nothing.** -/
theorem secure (hiv : iv < 2 ^ 64) {es : List Ev} (hrun : AllSteps (step C icrc32 rev)
    (fun s e => Ok icrc32 s e ∧ Safe rev s e) (.init iv) es) :
    ∃ s, exec (step C icrc32 rev) (.init iv) es = some s ∧ Secure C icrc32 rev iv s := by
  obtain ⟨s, hs, old, new, past, chunks, lost, h⟩ := exec_total
    (I := fun s => ∃ old new past chunks lost, Inv C icrc32 rev iv s old new past chunks lost)
    (fun s e ⟨_, _, _, _, _, h⟩ ⟨hok, hsafe⟩ => by
      obtain ⟨t, old', new', past', chunks', lost', ht, hinv⟩ := h.step hok hsafe
      exact ⟨t, ht, old', new', past', chunks', lost', hinv⟩)
    ⟨[], [], [], [], [], inv_init hiv⟩ hrun
  exact ⟨s, hs, h.delivers⟩

end Run

/-! ## A ping -/

section Ping

/-- A cipher that adds the counter to each byte. -/
def addCounter : Cipher UInt8 align where
  enc c x := x.map (· + UInt8.ofNat c)
  dec c x := x.map (· - UInt8.ofNat c)
  length_enc _ _ h := by rw [List.length_map, h]
  dec_enc c x _ := by
    have hid : ((· - UInt8.ofNat c) ∘ (· + UInt8.ofNat c) : UInt8 → UInt8) = id :=
      funext fun b => UInt8.add_sub_cancel b _
    rw [List.map_map, hid, List.map_id]

/-- Nothing fails in a call. -/
def noFault : Faults := fun _ => none

theorem offers_noFault {rev : Bool} {t : TxIoq} (hiv : t.iv + 128 < 2 ^ 64) :
    Offers noFault rev t := by
  intro _ iov _ k hk _
  have hle : room (chunksOf iov) (bufSize - t.compact.fin) ≤ 128 :=
    Nat.le_trans (Nat.min_le_right _ _) (by unfold align bufSize; omega)
  exact ⟨rfl, by omega⟩

/-- The ping of `Hammer2.Dmsg.Framing`, until it is written. -/
def pingSent : List Ev := [.queue ping, .flush1 fun _ => 7#32, .flush2 (some 100) noFault]

theorem ping_ok {cuts : List Cut} (hcuts : NoLoss cuts) (faults : Faults) :
    ∀ e ∈ pingSent ++ [.read cuts faults], ∀ s, Ok iscsiCrc32 s e := by
  have hping : Queueable iscsiCrc32 ping := by decide
  simp only [pingSent, List.cons_append, List.nil_append, List.forall_mem_cons]
  exact ⟨fun _ => hping, fun _ => trivial, fun _ => trivial, fun _ => hcuts,
    fun e he => absurd he List.not_mem_nil⟩

theorem secure_ping : ∃ s, exec (step addCounter iscsiCrc32 false) (.init 0)
      (pingSent ++ [.read [.bytes 99] noFault]) = some s ∧
    Secure addCounter iscsiCrc32 false 0 s := by
  have hok := @ping_ok [.bytes 99] (by decide) noFault
  refine secure (by decide) ⟨⟨hok _ (by simp [pingSent]) _, trivial⟩,
    ⟨hok _ (by simp [pingSent]) _, trivial⟩, ⟨trivial, offers_noFault ?_⟩, ?_⟩
  · show 0 + 128 < 2 ^ 64
    decide
  · cases step addCounter iscsiCrc32 false _ (.flush2 (some 100) noFault) with
    | none => trivial
    | some t =>
        refine ⟨⟨hok (.read [.bytes 99] noFault) (by simp) t, fun _ => rfl⟩, ?_⟩
        cases step addCounter iscsiCrc32 false t (.read [.bytes 99] noFault) with
        | none => trivial
        | some u => trivial

set_option maxRecDepth 20000 in
/-- **A decryption that fails runs out of the buffer.** -/
theorem decrypt_runs_on : ¬ ∀ (C : Cipher UInt8 align) (icrc32 : List UInt8 → BitVec 32) (rev : Bool)
    (iv : Nat) (es : List Ev), iv < 2 ^ 64 → AllSteps (step C icrc32 rev) (Ok icrc32) (.init iv) es →
    ∃ s, exec (step C icrc32 rev) (.init iv) es = some s ∧ Secure C icrc32 rev iv s := by
  intro hclaim
  let fail : Faults := fun _ => some .update
  have hnone : (exec (step addCounter iscsiCrc32 false) (.init 0)
      (pingSent ++ [.read [.bytes 99] fail])).isNone = true := by
    decide
  obtain ⟨s, hs, _⟩ := hclaim addCounter iscsiCrc32 false 0 (pingSent ++ [.read [.bytes 99] fail])
    (by decide) (.of_forall _ (@ping_ok [.bytes 99] (by decide) fail))
  rw [hs] at hnone
  cases hnone

end Ping

end Hammer2.Dmsg.Crypt
