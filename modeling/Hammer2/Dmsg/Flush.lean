/-
# `Hammer2.Dmsg.Flush` — the transmit queue written by any sequence of writev() calls

`dmsg_iocom_flush1` moves what was queued to the transmit queue and writes as much of it as
the socket takes.  A call of `writev()` may take any part of what it is offered, may ask to be
called again, or may fail for good, which drops what is left.

    Iocom         the queues, and what was sent, written and freed so far
    freed         the messages `dmsg_iocom_flush2` frees
    flush_run     every run writes each byte once and frees each message once
-/
import Hammer2.Lib.Pairs
import Hammer2.Dmsg.Framing

namespace Hammer2.Dmsg.Flush

open Machine

/-- The transmit side of `struct dmsg_iocom`, and its history: the messages that were queued,
those that reached the transmit queue, the bytes `writev()` accepted, and the messages freed. -/
structure Iocom where
  txmsgq : List Msg
  q : TxIoq
  error : Bool
  queued : List Msg
  sent : List Msg
  written : List UInt8
  freed : List Msg

def Iocom.init : Iocom := ⟨[], ⟨[], 0, 0, 0⟩, false, [], [], [], []⟩

/-- What a `writev()` does: it takes some of the bytes, or it answers EINTR, EINPROGRESS or
EAGAIN, or it fails for another reason. -/
inductive Writev
  | wrote (n : Nat)
  | again
  | fatal
deriving DecidableEq

/-- The bytes a `writev()` takes, as far as it is offered so many. -/
def Writev.taken : Writev → Option Nat
  | .wrote n => some n
  | .again => none
  | .fatal => none

/-- `dmsg_iocom_drain` -/
def Iocom.drain (s : Iocom) : Iocom :=
  { s with
    q := { s.q with msgq := [], hbytes := 0, abytes := 0 }
    freed := s.freed ++ s.q.msgq }

/-- The messages `dmsg_msg_free` is called for when `nact` bytes are removed from the queue. -/
def freed : List Msg → Nat → Nat → Nat → List Msg
  | [], _, _, _ => []
  | m :: msgs, hb, ab, nact =>
      let hbytes := hdrSize m.head.cmd
      let abytes := doAlign m.auxSize
      if nact < hbytes - hb then []
      else
        let nact := nact - (hbytes - hb)
        if nact < abytes - ab then [] else m :: freed msgs 0 0 (nact - (abytes - ab))

/-- A message is queued, or `dmsg_iocom_flush1` is called, with a salt for each message and
the answer of its `writev()`. -/
inductive Ev
  | queue (m : Msg)
  | flush (random : Nat → BitVec 32) (r : Writev)

instance (m : Msg) : Decidable (Shaped m) :=
  decidable_of_iff (align ≤ hdrSize m.head.cmd ∧ m.ext.length = hdrSize m.head.cmd - align ∧
      m.aux.length = doAlign m.auxSize)
    ⟨fun ⟨h1, h2, h3⟩ => ⟨h1, h2, h3⟩, fun h => ⟨h.hdr_ge, h.ext, h.aux⟩⟩

/-- A message has the sizes `dmsg_msg_alloc` has given it. -/
def Ok (_ : Iocom) : Ev → Prop
  | .queue m => Shaped m
  | .flush _ _ => True

section Step

variable (icrc32 : List UInt8 → BitVec 32) (rev : Bool)

/-- `dmsg_iocom_flush2`; `none` is a failing assertion. -/
def iocomFlush2 (s : Iocom) (r : Writev) : Option Iocom :=
  if s.error then some s.drain
  else if iovec rev s.q.msgq s.q.hbytes s.q.abytes 0 = some [] then some s
  else (flush2 rev s.q r.taken).map fun (q, data) =>
    let s := { s with
      q
      written := s.written ++ data
      freed := s.freed ++ freed s.q.msgq s.q.hbytes s.q.abytes data.length }
    if r = .fatal then { s with error := true }.drain else s

/-- `dmsg_iocom_flush1`: after an error the messages are no longer completed. -/
def iocomFlush1 (s : Iocom) (random : Nat → BitVec 32) (r : Writev) : Option Iocom :=
  let q :=
    if s.error then { s.q with msgq := s.q.msgq ++ s.txmsgq }
    else flush1 icrc32 rev s.q (s.txmsgq.mapIdx fun i m => (m, random i))
  iocomFlush2 rev
    { s with txmsgq := [], q, sent := s.sent ++ q.msgq.drop s.q.msgq.length } r

def step (s : Iocom) : Ev → Option Iocom
  | .queue m => some { s with txmsgq := s.txmsgq ++ [m], queued := s.queued ++ [m] }
  | .flush random r => iocomFlush1 icrc32 rev s random r

/-- `c` is the queued message `m` with its header completed; after an error it may have been
left as it was. -/
def Completed (error : Bool) (m c : Msg) : Prop :=
  (∃ seq random, c = complete1 icrc32 rev seq random m) ∨ error = true ∧ c = m

end Step

section Run

variable {icrc32 : List UInt8 → BitVec 32} {rev : Bool} {s : Iocom}

/-! ## Messages -/

theorem complete1_shaped {m : Msg} (h : Shaped m) (seq : Nat) (random : BitVec 32) :
    Shaped (complete1 icrc32 rev seq random m) := by
  have hcmd : (complete1 icrc32 rev seq random m).head.cmd = m.head.cmd := by
    unfold complete1
    dsimp only
    split <;> rfl
  constructor
  · rw [hcmd]
    exact h.hdr_ge
  · rw [hcmd]
    exact h.ext
  · exact h.aux

theorem Completed.shaped {error : Bool} {m c : Msg} (h : Completed icrc32 rev error m c)
    (hm : Shaped m) : Shaped c := by
  rcases h with ⟨seq, random, rfl⟩ | ⟨-, rfl⟩
  · exact complete1_shaped hm seq random
  · exact hm

theorem Completed.mono {error error' : Bool} (hle : error = true → error' = true) {m c : Msg}
    (h : Completed icrc32 rev error m c) : Completed icrc32 rev error' m c :=
  h.imp id fun ⟨he, hc⟩ => ⟨hle he, hc⟩

/-- The messages of `txmsgq` go behind those of the transmit queue, one by one. -/
theorem flush1_completed : ∀ (txmsgq : List (Msg × BitVec 32)) (q : TxIoq), ∃ more seq,
    flush1 icrc32 rev q txmsgq = { q with msgq := q.msgq ++ more, seq } ∧
      List.Forall₂ (Completed icrc32 rev false) (txmsgq.map (·.1)) more
  | [], q => ⟨[], q.seq, by rw [List.append_nil]; rfl, .nil⟩
  | (m, random) :: txmsgq, q => by
      obtain ⟨more, seq, heq, hmore⟩ := flush1_completed txmsgq
        { q with msgq := q.msgq ++ [complete1 icrc32 rev q.seq random m], seq := q.seq + 1 }
      refine ⟨complete1 icrc32 rev q.seq random m :: more, seq, ?_, .cons ?_ hmore⟩
      · rw [flush1, heq, List.append_assoc]
        rfl
      · exact .inl ⟨q.seq, random, rfl⟩

/-- What is freed and what stays in the queue are the queue. -/
theorem freed_append : ∀ (msgs : List Msg) (hb ab nact : Nat) {msgs' : List Msg} {hb' ab' : Nat},
    retire msgs hb ab nact = some (msgs', hb', ab') → freed msgs hb ab nact ++ msgs' = msgs
  | [], hb, ab, nact, msgs', hb', ab', h => by
      rw [retire] at h
      split at h
      · cases h
        rfl
      · cases h
  | m :: msgs, hb, ab, nact, msgs', hb', ab', h => by
      rw [retire] at h
      rw [freed]
      dsimp only at h ⊢
      split at h
      case isTrue hlt =>
        cases h
        rw [if_pos hlt]
        rfl
      case isFalse hge =>
        rw [if_neg hge]
        split at h
        case isTrue hlt =>
          cases h
          rw [if_pos hlt]
          rfl
        case isFalse hge' =>
          rw [if_neg hge', List.cons_append, freed_append msgs 0 0 _ h]

/-- The queue is what `retire` leaves of it after the bytes that were written. -/
theorem flush2_retire {q q' : TxIoq} {n : Option Nat} {data : List UInt8}
    (hiov : iovec rev q.msgq q.hbytes q.abytes 0 ≠ some [])
    (h : Dmsg.flush2 rev q n = some (q', data)) :
    retire q.msgq q.hbytes q.abytes data.length = some (q'.msgq, q'.hbytes, q'.abytes) := by
  unfold Dmsg.flush2 at h
  split at h
  case h_1 => cases h
  case h_2 hnil => exact absurd hnil hiov
  case h_3 iov _ _ =>
    dsimp only at h
    generalize hretire : retire q.msgq q.hbytes q.abytes _ = left at h
    cases left with
    | none => cases h
    | some left =>
        cases h
        exact hretire

/-! ## The invariant -/

/-- While there is no error, what was written and what is left in the queue are what was
sent. -/
structure Inv (icrc32 : List UInt8 → BitVec 32) (rev : Bool) (s : Iocom) : Prop where
  wf : s.q.Wf
  waiting : ∀ m ∈ s.txmsgq, Shaped m
  freed : s.freed ++ s.q.msgq = s.sent
  queued : ∃ done, s.queued = done ++ s.txmsgq ∧
    List.Forall₂ (Completed icrc32 rev s.error) done s.sent
  written : s.written <+: s.sent.flatMap (wire rev)
  live : s.error = false → s.written ++ s.q.rest rev = s.sent.flatMap (wire rev)

theorem inv_init : Inv icrc32 rev .init where
  wf := ⟨fun m hm => absurd hm List.not_mem_nil, rfl, rfl⟩
  waiting := fun m hm => absurd hm List.not_mem_nil
  freed := rfl
  queued := ⟨[], rfl, .nil⟩
  written := List.nil_prefix
  live := fun _ => rfl

theorem Inv.queue (h : Inv icrc32 rev s) {m : Msg} (hm : Shaped m) :
    Inv icrc32 rev { s with txmsgq := s.txmsgq ++ [m], queued := s.queued ++ [m] } := by
  obtain ⟨done, hdone, hcomp⟩ := h.queued
  refine ⟨h.wf, ?_, h.freed, ⟨done, ?_, hcomp⟩, h.written, h.live⟩
  · intro m' hm'
    rcases List.mem_append.mp hm' with hin | hin
    · exact h.waiting m' hin
    · obtain rfl := List.mem_singleton.mp hin
      exact hm
  · show s.queued ++ [m] = done ++ (s.txmsgq ++ [m])
    rw [hdone, List.append_assoc]

/-- The messages `more`, which come from those of `txmsgq`, are put behind the queue. -/
theorem Inv.enqueue (h : Inv icrc32 rev s) {more : List Msg}
    (hmore : List.Forall₂ (Completed icrc32 rev s.error) s.txmsgq more) (seq : Nat) :
    Inv icrc32 rev { s with
      txmsgq := []
      q := { s.q with msgq := s.q.msgq ++ more, seq }
      sent := s.sent ++ more } := by
  have hshaped : ∀ c ∈ more, Shaped c := by
    intro c hc
    obtain ⟨m, hm, hcomp⟩ := Pairs.exists_left hmore hc
    exact hcomp.shaped (h.waiting m hm)
  obtain ⟨hwf, hrest⟩ := @TxIoq.Wf.append rev _ h.wf _ hshaped seq
  obtain ⟨done, hdone, hcomp⟩ := h.queued
  refine ⟨hwf, fun m hm => absurd hm List.not_mem_nil, ?_, ⟨s.queued, ?_, ?_⟩, ?_, ?_⟩
  · show s.freed ++ (s.q.msgq ++ more) = _
    rw [← List.append_assoc, h.freed]
  · exact (List.append_nil _).symm
  · show List.Forall₂ _ s.queued (s.sent ++ more)
    rw [hdone]
    exact List.rel_append hcomp hmore
  · show s.written <+: (s.sent ++ more).flatMap (wire rev)
    rw [List.flatMap_append]
    exact h.written.trans (List.prefix_append _ _)
  · intro he
    show s.written ++ TxIoq.rest rev _ = (s.sent ++ more).flatMap (wire rev)
    rw [hrest, ← List.append_assoc, h.live he, List.flatMap_append]

theorem Inv.drain (h : Inv icrc32 rev s) (he : s.error = true) : Inv icrc32 rev s.drain := by
  refine ⟨⟨fun m hm => absurd hm List.not_mem_nil, rfl, rfl⟩, h.waiting, ?_, h.queued, h.written,
    fun hf => absurd (he.symm.trans hf) Bool.noConfusion⟩
  exact (List.append_nil _).trans h.freed

/-- The error is noted. -/
theorem Inv.fail (h : Inv icrc32 rev s) : Inv icrc32 rev { s with error := true } := by
  obtain ⟨done, hdone, hcomp⟩ := h.queued
  refine ⟨h.wf, h.waiting, h.freed, ⟨done, hdone, ?_⟩, h.written, fun hf => absurd hf nofun⟩
  exact hcomp.imp fun m c (hc : Completed icrc32 rev s.error m c) => hc.mono fun _ => rfl

/-- **One call of `dmsg_iocom_flush2`.** -/
theorem Inv.flush2 (h : Inv icrc32 rev s) (r : Writev) :
    ∃ t, iocomFlush2 rev s r = some t ∧ Inv icrc32 rev t := by
  unfold iocomFlush2
  rcases Bool.eq_false_or_eq_true s.error with he | he
  · exact ⟨s.drain, if_pos he, h.drain he⟩
  · rw [if_neg (Bool.eq_false_iff.mp he)]
    by_cases hiov : iovec rev s.q.msgq s.q.hbytes s.q.abytes 0 = some []
    · exact ⟨s, if_pos hiov, h⟩
    · obtain ⟨q, data, hf, hwf, -, hdata⟩ := flush2_spec h.wf r.taken
      have hfreed := freed_append _ _ _ _ (flush2_retire hiov hf)
      have hwrote : Inv icrc32 rev { s with
          q
          written := s.written ++ data
          freed := s.freed ++ Flush.freed s.q.msgq s.q.hbytes s.q.abytes data.length } := by
        have hlive := h.live he
        rw [← hdata, ← List.append_assoc] at hlive
        refine ⟨hwf, h.waiting, ?_, h.queued, ⟨_, hlive⟩, fun _ => hlive⟩
        rw [List.append_assoc, hfreed]
        exact h.freed
      rw [if_neg hiov, hf]
      refine ⟨_, rfl, ?_⟩
      dsimp only
      split
      · exact hwrote.fail.drain rfl
      · exact hwrote

/-- **One call of `dmsg_iocom_flush1`.** -/
theorem Inv.flush (h : Inv icrc32 rev s) (random : Nat → BitVec 32) (r : Writev) :
    ∃ t, iocomFlush1 icrc32 rev s random r = some t ∧ Inv icrc32 rev t := by
  unfold iocomFlush1
  rcases Bool.eq_false_or_eq_true s.error with he | he
  · have hsame : List.Forall₂ (Completed icrc32 rev s.error) s.txmsgq s.txmsgq :=
      List.forall₂_same.mpr fun m _ => .inr ⟨he, rfl⟩
    have hinv := h.enqueue hsame s.q.seq
    rw [if_pos he]
    dsimp only
    rw [List.drop_left]
    exact hinv.flush2 r
  · obtain ⟨more, seq, heq, hmore⟩ := @flush1_completed icrc32 rev
      (s.txmsgq.mapIdx fun i m => (m, random i)) s.q
    have hsalted : (s.txmsgq.mapIdx fun i m => (m, random i)).map (·.1) = s.txmsgq := by
      refine List.ext_getElem (by simp) fun i hi hi' => ?_
      simp
    rw [hsalted, ← he] at hmore
    have hinv := h.enqueue hmore seq
    rw [if_neg (Bool.eq_false_iff.mp he), heq]
    dsimp only
    rw [List.drop_left]
    exact hinv.flush2 r

/-- **One step.** -/
theorem Inv.step (h : Inv icrc32 rev s) {e : Ev} (hok : Ok s e) :
    ∃ t, step icrc32 rev s e = some t ∧ Inv icrc32 rev t := by
  cases e with
  | queue m => exact ⟨_, rfl, h.queue hok⟩
  | flush random r => exact h.flush random r

/-! ## Every run -/

/-- The bytes of the freed messages are among those that were written. -/
theorem Inv.freed_written (h : Inv icrc32 rev s) (he : s.error = false) :
    s.freed.flatMap (wire rev) <+: s.written := by
  have hlive := h.live he
  have hsent : s.sent.flatMap (wire rev) =
      s.freed.flatMap (wire rev) ++ s.q.msgq.flatMap (wire rev) := by
    rw [← h.freed, List.flatMap_append]
  have hrest : (s.q.rest rev).length ≤ (s.q.msgq.flatMap (wire rev)).length := by
    rw [TxIoq.rest, bytesAfter, List.length_drop]
    exact Nat.sub_le _ _
  refine List.prefix_of_prefix_length_le (hsent ▸ List.prefix_append _ _) h.written ?_
  have hlen := congrArg List.length (hlive.trans hsent)
  rw [List.length_append, List.length_append] at hlen
  omega

/-- **Every byte once.**  In every run of a link, whatever the answers of `writev()`: no
assertion fails; the messages that reached the transmit queue are those that were queued, in
that order and with completed headers; each of them is freed once, or still in the queue; and
what was written is the beginning of their bytes.  While no `writev()` has failed for good, all
of it is written once the queue is empty, and a message is freed only after its last byte was
written. -/
theorem flush_run {es : List Ev} (hok : AllSteps (step icrc32 rev) Ok .init es) :
    ∃ s, exec (Flush.step icrc32 rev) .init es = some s ∧
      (∃ done, s.queued = done ++ s.txmsgq ∧
        List.Forall₂ (Completed icrc32 rev s.error) done s.sent) ∧
      s.freed ++ s.q.msgq = s.sent ∧ s.written <+: s.sent.flatMap (wire rev) ∧
      (s.error = false → s.freed.flatMap (wire rev) <+: s.written ∧
        (s.q.msgq = [] → s.written = s.sent.flatMap (wire rev))) := by
  obtain ⟨s, hs, h⟩ := @exec_total _ _ _ _ (Inv icrc32 rev) (fun s e h hok => h.step hok) _ _
    inv_init hok
  refine ⟨s, hs, h.queued, h.freed, h.written, fun he => ⟨h.freed_written he, fun hmsgq => ?_⟩⟩
  have hrest : s.q.rest rev = [] := by
    rw [TxIoq.rest, hmsgq]
    exact List.drop_nil
  rw [← h.live he, hrest, List.append_nil]

end Run

/-! ## A payload over half of the buffer -/

/-- A message with a long header and 5000 bytes of auxiliary data. -/
def bulk : Msg where
  head := { ping.head with cmd := 0x00000003#32 }
  ext := List.replicate 128 0
  auxSize := 5000
  aux := List.replicate 5056 0x5A

theorem bulk_shaped : Shaped bulk where
  hdr_ge := by decide
  ext := List.length_replicate
  aux := List.length_replicate

/-- The socket takes the first message and the beginning of the second one, then nothing, then
the rest in two parts, while another message is queued. -/
def bulkRun : List Ev :=
  [.queue ping, .queue bulk, .flush (fun _ => 7#32) (.wrote 100), .queue ping,
    .flush (fun _ => 7#32) .again, .flush (fun _ => 7#32) (.wrote 4096),
    .flush (fun _ => 7#32) (.wrote 4096)]

theorem bulkRun_ok : AllSteps (step iscsiCrc32 false) Ok .init bulkRun := by
  refine .of_forall _ fun e he s => ?_
  have hping : Shaped ping := by decide
  simp only [bulkRun, List.mem_cons, List.not_mem_nil, or_false] at he
  rcases he with rfl | rfl | rfl | rfl | rfl | rfl | rfl
  · exact hping
  · exact bulk_shaped
  · trivial
  · exact hping
  · trivial
  · trivial
  · trivial

theorem flush_run_bulk : ∃ s, exec (step iscsiCrc32 false) .init bulkRun = some s ∧
    (∃ done, s.queued = done ++ s.txmsgq ∧
      List.Forall₂ (Completed iscsiCrc32 false s.error) done s.sent) ∧
    s.freed ++ s.q.msgq = s.sent ∧ s.written <+: s.sent.flatMap (wire false) ∧
    (s.error = false → s.freed.flatMap (wire false) <+: s.written ∧
      (s.q.msgq = [] → s.written = s.sent.flatMap (wire false))) :=
  flush_run bulkRun_ok

end Hammer2.Dmsg.Flush
