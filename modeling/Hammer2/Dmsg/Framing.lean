/-
# `Hammer2.Dmsg.Framing` — what is sent is what is received

Messages go through the transmit queue, a byte stream cut into pieces, and the receive queue.

    Link          the two queues and what is between them
    framing       every run delivers the messages in order, and nothing goes wrong

A header in the other byte order is swapped as a whole after its CRC has been put back in the
order of the receiver, so the delivered CRC is swapped once too often (`crc_swapped_twice`).
-/
import Hammer2.Lib.Machine
import Hammer2.Dmsg.Expect

namespace Hammer2.Dmsg

open Machine

/-- `sent` are the messages with their headers completed, `handed` those that went on to
state processing. -/
structure Link where
  txmsgq : List Msg
  tx : TxIoq
  pending : List UInt8
  rx : Ioq
  sent : List Msg
  handed : List Msg

def Link.init : Link := ⟨[], ⟨[], 0, 0, 0⟩, [], .init, [], []⟩

/-- A message is queued, the headers of the queued messages are completed with a salt for
each, a `writev()` takes some bytes, or `dmsg_ioq_read` is called. -/
inductive Ev
  | queue (m : Msg)
  | flush1 (random : Nat → BitVec 32)
  | flush2 (n : Option Nat)
  | read (cuts : List Cut)

section Step

variable (icrc32 : List UInt8 → BitVec 32) (rev : Bool)

def step (s : Link) : Ev → Option Link
  | .queue m => some { s with txmsgq := s.txmsgq ++ [m] }
  | .flush1 random =>
      let tx := flush1 icrc32 rev s.tx (s.txmsgq.mapIdx fun i m => (m, random i))
      some { s with txmsgq := [], tx, sent := s.sent ++ tx.msgq.drop s.tx.msgq.length }
  | .flush2 n =>
      (flush2 rev s.tx n).map fun (tx, data) => { s with tx, pending := s.pending ++ data }
  | .read cuts =>
      (ioqRead icrc32 ⟨s.rx, ⟨s.pending, cuts⟩⟩).map fun (io, r) =>
        { s with
          rx := io.q
          pending := io.sock.pending
          handed := match r with
            | .handed m => s.handed ++ [m]
            | _ => s.handed }

/-- Messages are what `dmsg_msg_alloc` makes, and the stream neither ends nor fails. -/
def Ok (_ : Link) : Ev → Prop
  | .queue m => Queueable icrc32 m
  | .read cuts => NoLoss cuts
  | _ => True

instance : ∀ s e, Decidable (Ok icrc32 s e)
  | _, .queue m => inferInstanceAs (Decidable (Queueable icrc32 m))
  | _, .flush1 _ => .isTrue trivial
  | _, .flush2 _ => .isTrue trivial
  | _, .read cuts => inferInstanceAs (Decidable (NoLoss cuts))

/-- Everything that was sent is written, and the receiver has no reason to go on. -/
def Idle (s : Link) : Prop := s.tx.msgq = [] ∧ s.pending = [] ∧ s.rx.rwork = false

/-- The checksum of the header. -/
def headCrc (m : Msg) : BitVec 32 := icrc32 (headBytes rev { m.head with hdrCrc := 0 } ++ m.ext)

/-- The sender has the byte order of the receiver, or the checksum of the header is the same
in both. -/
def SameCrc (m : Msg) : Prop :=
  rev = true → bswap32 (headCrc icrc32 rev m) = headCrc icrc32 rev m

end Step

section Run

variable {icrc32 : List UInt8 → BitVec 32} {rev : Bool} {s : Link} {old new : List Msg}

/-- The messages `old` are delivered, the messages `new` are on their way. -/
structure Inv (icrc32 : List UInt8 → BitVec 32) (rev : Bool) (s : Link) (old new : List Msg) :
    Prop where
  queueable : ∀ m ∈ s.txmsgq, Queueable icrc32 m
  tx : s.tx.Wf
  sent : s.sent = old ++ new
  handed : s.handed = old.map (delivered rev)
  numbered : SentFrom icrc32 rev s.tx.seq 0 s.sent
  expect : Expect icrc32 rev s.tx.seq ⟨s.rx, ⟨s.pending, []⟩⟩ (s.tx.rest rev) new
  settled : Settled ⟨s.rx, ⟨s.pending, []⟩⟩ (s.tx.rest rev) new

theorem flush1_spec : ∀ (txmsgq : List (Msg × BitVec 32)) (q : TxIoq),
    (∀ p ∈ txmsgq, Queueable icrc32 p.1) → ∃ more,
      flush1 icrc32 rev q txmsgq = { q with msgq := q.msgq ++ more, seq := q.seq + more.length } ∧
        SentFrom icrc32 rev (q.seq + more.length) q.seq more
  | [], q, _ => ⟨[], by rw [List.append_nil]; rfl, rfl⟩
  | (m, random) :: txmsgq, q, h => by
      have hm := complete1_sent icrc32 rev (h _ (List.mem_cons_self ..)) q.seq random
      obtain ⟨more, heq, hmore⟩ := flush1_spec txmsgq
        { q with msgq := q.msgq ++ [complete1 icrc32 rev q.seq random m], seq := q.seq + 1 }
        fun p hp => h p (List.mem_cons_of_mem _ hp)
      have hlen : q.seq + 1 + more.length = q.seq + (more.length + 1) := by omega
      rw [hlen] at hmore
      refine ⟨complete1 icrc32 rev q.seq random m :: more, ?_, hm, hmore⟩
      rw [flush1, heq, List.append_assoc, List.length_cons, hlen]
      rfl

theorem SentFrom.shaped {upto : Nat} : ∀ {msgs : List Msg} {seq : Nat},
    SentFrom icrc32 rev upto seq msgs → ∀ m ∈ msgs, Shaped m
  | [], _, _ => fun _ hm => absurd hm List.not_mem_nil
  | m :: msgs, _, h => by
      rintro m' (_ | ⟨_, hm'⟩)
      · exact h.1.shaped
      · exact SentFrom.shaped h.2 m' hm'

/-- Messages behind those of the transmit queue. -/
theorem TxIoq.Wf.append {q : TxIoq} (h : q.Wf) {more : List Msg} (hmore : ∀ m ∈ more, Shaped m)
    (seq : Nat) : TxIoq.Wf { q with msgq := q.msgq ++ more, seq } ∧
      TxIoq.rest rev { q with msgq := q.msgq ++ more, seq } =
        q.rest rev ++ more.flatMap (wire rev) := by
  have hall : ∀ m ∈ q.msgq ++ more, Shaped m := fun m hm =>
    (List.mem_append.mp hm).elim (h.shaped m) (hmore m)
  have hpart := h.part
  unfold TxIoq.rest bytesAfter
  cases hq : q.msgq with
  | nil =>
      rw [hq] at hpart
      obtain ⟨hb, ha⟩ := hpart
      rw [hq] at hall
      refine ⟨⟨hall, ?_⟩, ?_⟩
      · show Partial more q.hbytes q.abytes
        rw [hb, ha]
        exact partial_zero hmore
      · show List.drop (q.hbytes + q.abytes) _ = _
        rw [hb, ha]
        rfl
  | cons m msgs =>
      rw [hq] at hpart hall
      refine ⟨⟨hall, hpart⟩, ?_⟩
      show List.drop (q.hbytes + q.abytes) (((m :: msgs) ++ more).flatMap (wire rev)) = _
      rw [List.flatMap_append, List.drop_append_of_le_length]
      have hm := h.shaped m (by rw [hq]; exact List.mem_cons_self ..)
      rw [List.flatMap_cons, List.length_append, wire_eq, List.length_append,
        hm.length_hdrBytes, hm.aux]
      rcases hpart with ⟨hlt, ha⟩ | ⟨hb, hlt⟩
      · omega
      · omega

theorem Inv.queue (h : Inv icrc32 rev s old new) {m : Msg} (hm : Queueable icrc32 m) :
    Inv icrc32 rev { s with txmsgq := s.txmsgq ++ [m] } old new := by
  refine ⟨?_, h.tx, h.sent, h.handed, h.numbered, h.expect, h.settled⟩
  intro m' hm'
  rcases List.mem_append.mp hm' with hin | hin
  · exact h.queueable m' hin
  · obtain rfl := List.mem_singleton.mp hin
    exact hm

theorem Inv.flush1 (h : Inv icrc32 rev s old new) (random : Nat → BitVec 32) :
    ∃ t more, step icrc32 rev s (.flush1 random) = some t ∧ Inv icrc32 rev t old (new ++ more) := by
  obtain ⟨more, heq, hmore⟩ := @flush1_spec icrc32 rev
    (s.txmsgq.mapIdx fun i m => (m, random i)) s.tx (by
      intro p hp
      obtain ⟨i, hi, rfl⟩ := List.mem_mapIdx.mp hp
      exact h.queueable _ (List.getElem_mem hi))
  obtain ⟨hwf, hrest⟩ := @TxIoq.Wf.append rev _ h.tx _ hmore.shaped (s.tx.seq + more.length)
  have hsent : s.sent ++ (s.tx.msgq ++ more).drop s.tx.msgq.length = s.sent ++ more := by
    rw [List.drop_left]
  refine ⟨_, more, rfl, ?_⟩
  rw [heq, hsent]
  constructor
  case queueable => exact fun m hm => absurd hm List.not_mem_nil
  case tx => exact hwf
  case sent =>
    show s.sent ++ more = _
    rw [h.sent, List.append_assoc]
  case handed => exact h.handed
  case numbered => exact h.numbered.append hmore
  case expect =>
    rw [hrest]
    exact h.expect.append hmore
  case settled =>
    rw [hrest]
    intro hw hp hl
    obtain ⟨hl, hnil⟩ := List.append_eq_nil_iff.mp hl
    rw [h.settled hw hp hl, List.nil_append]
    exact msgs_nil hmore (by decide) hnil.symm

theorem Inv.flush2 (h : Inv icrc32 rev s old new) (n : Option Nat) :
    ∃ t, step icrc32 rev s (.flush2 n) = some t ∧ Inv icrc32 rev t old new := by
  obtain ⟨tx, data, hf, hwf, hseq, hdata⟩ := flush2_spec h.tx n
  refine ⟨{ s with tx, pending := s.pending ++ data }, by rw [step, hf]; rfl, ?_⟩
  have hbytes : (s.pending ++ data) ++ tx.rest rev = s.pending ++ s.tx.rest rev := by
    rw [List.append_assoc, hdata]
  refine ⟨h.queueable, hwf, h.sent, h.handed, ?_, ?_, ?_⟩
  · rw [hseq]
    exact h.numbered
  · rw [hseq]
    exact h.expect.congr s.rx.rreq s.rx.rwork hbytes h.expect.common.cuts
  · intro hw hp hl
    obtain ⟨hp, hd⟩ := List.append_eq_nil_iff.mp hp
    refine h.settled hw hp ?_
    rw [← hdata, hd]
    exact hl

theorem Inv.read (h : Inv icrc32 rev s old new) {cuts : List Cut} (hcuts : NoLoss cuts) :
    ∃ t old' new', step icrc32 rev s (.read cuts) = some t ∧ Inv icrc32 rev t old' new' := by
  have hexpect : Expect icrc32 rev s.tx.seq ⟨s.rx, ⟨s.pending, cuts⟩⟩ (s.tx.rest rev) new :=
    h.expect.congr s.rx.rreq s.rx.rwork rfl hcuts
  obtain ⟨io, r, hread, hout⟩ := ioqRead_spec hexpect
  have hsame {new' : List Msg} (he : Expect icrc32 rev s.tx.seq io (s.tx.rest rev) new') :
      Expect icrc32 rev s.tx.seq ⟨io.q, ⟨io.sock.pending, []⟩⟩ (s.tx.rest rev) new' :=
    he.congr io.q.rreq io.q.rwork rfl fun c hc => absurd hc List.not_mem_nil
  cases hout with
  | wait he hs =>
      refine ⟨_, old, new, by rw [step, hread]; rfl, ?_⟩
      exact ⟨h.queueable, h.tx, h.sent, h.handed, h.numbered, hsame he, hs⟩
  | @handed m rest he hs =>
      refine ⟨_, old ++ [m], rest, by rw [step, hread]; rfl, ?_⟩
      refine ⟨h.queueable, h.tx, ?_, ?_, h.numbered, hsame he, hs⟩
      · exact h.sent.trans (by rw [List.append_assoc]; rfl)
      · show s.handed ++ [delivered rev m] = _
        rw [h.handed, List.map_append]
        rfl

theorem inv_init : Inv icrc32 rev .init [] [] := by
  have hwf : TxIoq.Wf ⟨[], 0, 0, 0⟩ := ⟨fun m hm => absurd hm List.not_mem_nil, rfl, rfl⟩
  refine ⟨fun m hm => absurd hm List.not_mem_nil, hwf, rfl, rfl, rfl, ?_, fun _ _ _ => rfl⟩
  refine .header1 ⟨⟨⟨rfl, rfl, Nat.le_refl _, Nat.zero_le _⟩, rfl, rfl, ?_⟩, rfl, rfl, rfl⟩
  exact fun c hc => absurd hc List.not_mem_nil

/-- **One step.** -/
theorem Inv.step (h : Inv icrc32 rev s old new) {e : Ev} (hok : Ok icrc32 s e) :
    ∃ t old' new', step icrc32 rev s e = some t ∧ Inv icrc32 rev t old' new' := by
  cases e with
  | queue m => exact ⟨_, old, new, rfl, h.queue hok⟩
  | flush1 random =>
      obtain ⟨t, more, ht, hinv⟩ := h.flush1 random
      exact ⟨t, old, new ++ more, ht, hinv⟩
  | flush2 n =>
      obtain ⟨t, ht, hinv⟩ := h.flush2 n
      exact ⟨t, old, new, ht, hinv⟩
  | read cuts => exact h.read hok

/-! ## Every run -/

theorem SentFrom.headCrc : ∀ {msgs : List Msg} {upto seq : Nat},
    SentFrom icrc32 rev upto seq msgs → ∀ m ∈ msgs, m.head.hdrCrc = headCrc icrc32 rev m
  | [], _, _, _ => fun _ hm => absurd hm List.not_mem_nil
  | m :: msgs, _, _, h => by
      rintro m' (_ | ⟨_, hm'⟩)
      · exact h.1.hdrCrc
      · exact SentFrom.headCrc h.2 m' hm'

/-- A message is delivered as it was sent exactly when its checksum may be swapped. -/
theorem delivered_eq_self {m : Msg} (h : m.head.hdrCrc = headCrc icrc32 rev m) :
    delivered rev m = m ↔ SameCrc icrc32 rev m := by
  unfold SameCrc
  rw [← h]
  cases rev with
  | false => exact iff_of_true rfl Bool.noConfusion
  | true =>
      constructor
      · intro heq _
        exact congrArg (·.head.hdrCrc) heq
      · intro hsame
        rw [delivered, if_pos rfl, hsame rfl]

theorem map_prefix_iff {α : Type} {f : α → α} {xs ys : List α} :
    xs.map f <+: xs ++ ys ↔ ∀ x ∈ xs, f x = x := by
  have hself : xs.map f = xs ↔ ∀ x ∈ xs, f x = x := by
    have hinj := @List.map_inj_left _ _ xs f id
    rwa [List.map_id] at hinj
  rw [← hself]
  constructor
  · rintro ⟨zs, hzs⟩
    exact (List.append_inj hzs (List.length_map f)).1
  · intro h
    rw [h]
    exact List.prefix_append xs ys

/-- **Framing.**  No run of a link stops at a failing assertion, a `read()` without room or a
copy outside of its buffer; no error is raised; everything that was sent arrives; and what was
delivered is the beginning of what was sent, but for the CRC of a header in the other byte
order. -/
theorem framing {es : List Ev} (hok : AllSteps (step icrc32 rev) (Ok icrc32) .init es) :
    ∃ s, exec (step icrc32 rev) .init es = some s ∧ s.rx.error = 0 ∧ s.rx.Ordered ∧
      s.handed = (s.sent.take s.handed.length).map (delivered rev) ∧
      (Idle s → s.handed.length = s.sent.length) ∧
      (s.handed <+: s.sent ↔ ∀ m ∈ s.sent.take s.handed.length, SameCrc icrc32 rev m) := by
  obtain ⟨s, hs, old, new, h⟩ := @exec_total _ _ _ _ (fun s => ∃ old new, Inv icrc32 rev s old new)
    (fun s e ⟨_, _, h⟩ hok => by
      obtain ⟨t, old', new', ht, h'⟩ := h.step hok
      exact ⟨t, ht, old', new', h'⟩) _ _ ⟨[], [], inv_init⟩ hok
  have hlen : s.handed.length = old.length := by rw [h.handed, List.length_map]
  have htake : s.sent.take s.handed.length = old := by
    rw [hlen, h.sent, List.take_left]
  refine ⟨s, hs, h.expect.common.error, h.expect.common.plain.ordered, ?_, ?_, ?_⟩
  · rw [htake]
    exact h.handed
  · rintro ⟨hmsgq, hpending, hrwork⟩
    have hrest : s.tx.rest rev = [] := by
      rw [TxIoq.rest, hmsgq]
      exact List.drop_nil
    have hnew := h.settled hrwork hpending hrest
    rw [hlen, h.sent, hnew, List.append_nil]
  · rw [htake, h.handed, h.sent, map_prefix_iff]
    refine forall₂_congr fun m hm => delivered_eq_self (h.numbered.headCrc m ?_)
    rw [h.sent]
    exact List.mem_append_left new hm

end Run

/-! ## A header in the other byte order -/

/-- A bit of `iscsi_crc32`, which uses the reflected Castagnoli polynomial. -/
def crcBit (crc : BitVec 32) : BitVec 32 :=
  if crc.getLsbD 0 then crc >>> 1 ^^^ 0x82F63B78#32 else crc >>> 1

def crcByte (crc : BitVec 32) (b : UInt8) : BitVec 32 :=
  (crcBit ∘ crcBit ∘ crcBit ∘ crcBit ∘ crcBit ∘ crcBit ∘ crcBit ∘ crcBit)
    (crc ^^^ b.toBitVec.setWidth 32)

/-- `iscsi_crc32`, without its table. -/
def iscsiCrc32 (bs : List UInt8) : BitVec 32 := ~~~ bs.foldl crcByte 0xFFFFFFFF#32

set_option maxRecDepth 20000 in
example : iscsiCrc32 [0x31, 0x32, 0x33, 0x34, 0x35, 0x36, 0x37, 0x38, 0x39] = 0xE3069283#32 := by
  decide

/-- A ping of a core header without auxiliary data. -/
def ping : Msg where
  head := ⟨0, 0, 0, 1, 0, 0, 0x00000001#32, 0, 0, 0, 0, 0, 0⟩
  ext := []
  auxSize := 0
  aux := []

/-- The ping is written in two parts and read in pieces. -/
def pingRun : List Ev :=
  [.queue ping, .flush1 fun _ => 7#32, .flush2 (some 10), .read [.bytes 4, .again],
    .flush2 (some 100), .read [.bytes 0], .read [.again], .read [.bytes 99]]

set_option maxRecDepth 20000 in
theorem pingRun_ok (rev : Bool) :
    AllSteps (step iscsiCrc32 rev) (Ok iscsiCrc32) .init pingRun := by
  cases rev <;> decide

theorem framing_ping : ∃ s, exec (step iscsiCrc32 true) .init pingRun = some s ∧ s.rx.error = 0 ∧
    s.rx.Ordered ∧ s.handed = (s.sent.take s.handed.length).map (delivered true) ∧
    (Idle s → s.handed.length = s.sent.length) ∧
    (s.handed <+: s.sent ↔ ∀ m ∈ s.sent.take s.handed.length, SameCrc iscsiCrc32 true m) :=
  framing (pingRun_ok true)

set_option maxRecDepth 20000 in
theorem crc_swapped_twice : AllSteps (step iscsiCrc32 true) (Ok iscsiCrc32) .init pingRun ∧
    ((exec (step iscsiCrc32 true) .init pingRun).map fun s =>
      (s.handed.length, s.sent.length, decide (s.handed <+: s.sent))) = some (1, 1, false) :=
  ⟨pingRun_ok true, by decide⟩

end Hammer2.Dmsg
