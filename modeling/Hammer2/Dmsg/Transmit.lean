/-
# `Hammer2.Dmsg.Transmit` — the transmit queue

`dmsg_iocom_flush1` completes the headers of the queued messages, `dmsg_iocom_flush2` writes
as much of them as the socket takes, on an unencrypted link.

    Queueable        what a message must be when it is queued
    Sent             what its completed header promises to the receiver
    TxIoq.rest       the bytes of the transmit queue that are not written yet
    flush2_spec      what is written is the beginning of the rest, and the rest goes on there
-/
import Hammer2.Dmsg.Wire

namespace Hammer2.Dmsg

/-- `DMSG_IOQ_MAXIOVEC` -/
abbrev maxIovec : Nat := 16

section Transmit

variable (icrc32 : List UInt8 → BitVec 32) (rev : Bool)

/-! ## Completing the header -/

/-- The header part of `dmsg_iocom_flush1`; `random` is the salt. -/
def complete1 (seq : Nat) (random : BitVec 32) (m : Msg) : Msg :=
  let head := { m.head with
    magic := hdrMagic
    salt := random <<< 8 ||| (BitVec.ofNat 32 seq &&& 255#32) }
  let head :=
    if m.auxSize ≠ 0 ∧ head.auxCrc = 0 then { head with auxCrc := icrc32 m.aux } else head
  let head := { head with auxBytes := BitVec.ofNat 32 m.auxSize }
  { m with head := { head with
      hdrCrc := icrc32 (headBytes rev { head with hdrCrc := 0 } ++ m.ext) } }

/-- A message that `dmsg_msg_alloc` has made and its caller has filled in. -/
structure Queueable (m : Msg) : Prop where
  hdr_ge : align ≤ hdrSize m.head.cmd
  hdr_le : hdrSize m.head.cmd ≤ hdrMax
  ext : m.ext.length = hdrSize m.head.cmd - align
  aux : m.aux.length = doAlign m.auxSize
  aux_le : m.auxSize ≤ auxMax
  /-- A CRC of the auxiliary data that is already there is right. -/
  crc : m.auxSize ≠ 0 → m.head.auxCrc = 0 ∨ m.head.auxCrc = icrc32 m.aux

instance (m : Msg) : Decidable (Queueable icrc32 m) :=
  decidable_of_iff (align ≤ hdrSize m.head.cmd ∧ hdrSize m.head.cmd ≤ hdrMax ∧
      m.ext.length = hdrSize m.head.cmd - align ∧ m.aux.length = doAlign m.auxSize ∧
      m.auxSize ≤ auxMax ∧ (m.auxSize ≠ 0 → m.head.auxCrc = 0 ∨ m.head.auxCrc = icrc32 m.aux))
    ⟨fun ⟨h1, h2, h3, h4, h5, h6⟩ => ⟨h1, h2, h3, h4, h5, h6⟩,
      fun h => ⟨h.hdr_ge, h.hdr_le, h.ext, h.aux, h.aux_le, h.crc⟩⟩

/-- A message with its header completed as number `seq`. -/
structure Sent (seq : Nat) (m : Msg) : Prop where
  magic : m.head.magic = hdrMagic
  salt : m.head.salt &&& 255#32 = BitVec.ofNat 32 seq &&& 255#32
  hdr_ge : align ≤ hdrSize m.head.cmd
  hdr_le : hdrSize m.head.cmd ≤ hdrMax
  ext : m.ext.length = hdrSize m.head.cmd - align
  aux : m.aux.length = doAlign m.auxSize
  aux_le : m.auxSize ≤ auxMax
  auxBytes : m.head.auxBytes = BitVec.ofNat 32 m.auxSize
  auxCrc : m.auxSize ≠ 0 → m.head.auxCrc = icrc32 m.aux
  hdrCrc : m.head.hdrCrc = icrc32 (headBytes rev { m.head with hdrCrc := 0 } ++ m.ext)

/-! ## Writing -/

/-- `struct dmsg_ioq`, as far as the transmit side uses it without encryption: `hbytes` and
`abytes` say how much of the first message is written. -/
structure TxIoq where
  msgq : List Msg
  hbytes : Nat
  abytes : Nat
  seq : Nat

/-- The header of a message in memory. -/
def hdrBytes (m : Msg) : List UInt8 := headBytes rev m.head ++ m.ext

/-- The entries of a part of a message from the offset `off` on; `tail` are those after it. -/
def entries (part : List UInt8) (off : Nat) (tail : Nat → Option (List (List UInt8)))
    (iovcnt : Nat) : Option (List (List UInt8)) :=
  if off < part.length then
    let maxlen := min (part.length - off) (bufSize / 2)
    let entry := (part.drop off).take maxlen
    if iovcnt + 1 = maxIovec ∨ maxlen ≠ part.length - off then some [entry]
    else (tail (iovcnt + 1)).map (entry :: ·)
  else tail iovcnt

/-- The `iovec` of `dmsg_iocom_flush2`, from the entry `iovcnt` on; `none` is a failing
assertion. -/
def iovec : List Msg → Nat → Nat → Nat → Option (List (List UInt8))
  | [], _, _, _ => some []
  | m :: msgs, hoff, aoff, iovcnt =>
      if hoff ≤ hdrSize m.head.cmd ∧ aoff ≤ doAlign m.auxSize then
        entries ((hdrBytes rev m).take (hdrSize m.head.cmd)) hoff
          (entries (m.aux.take (doAlign m.auxSize)) aoff (iovec msgs 0 0)) iovcnt
      else none

/-- Removing what was written from the queue; `none` is a failing assertion. -/
def retire : List Msg → Nat → Nat → Nat → Option (List Msg × Nat × Nat)
  | [], hb, ab, nact => if nact = 0 then some ([], hb, ab) else none
  | m :: msgs, hb, ab, nact =>
      let hbytes := hdrSize m.head.cmd
      let abytes := doAlign m.auxSize
      if nact < hbytes - hb then some (m :: msgs, hb + nact, ab)
      else
        let nact := nact - (hbytes - hb)
        if nact < abytes - ab then some (m :: msgs, hbytes, ab + nact)
        else retire msgs 0 0 (nact - (abytes - ab))

/-- `dmsg_iocom_flush2`: the `writev()` takes `n` bytes, as far as there are so many, or
none and answers EAGAIN.  The result is what was written. -/
def flush2 (q : TxIoq) (n : Option Nat) : Option (TxIoq × List UInt8) :=
  match iovec rev q.msgq q.hbytes q.abytes 0 with
  | none => none
  | some [] => some (q, [])
  | some iov =>
      let data := match n with
        | some n => iov.flatten.take n
        | none => []
      match retire q.msgq q.hbytes q.abytes data.length with
      | none => none
      | some (msgq, hbytes, abytes) => some ({ q with msgq, hbytes, abytes }, data)

/-- `dmsg_iocom_flush1`: the messages of `txmsgq`, with a salt for each, go to the transmit
queue. -/
def flush1 (q : TxIoq) : List (Msg × BitVec 32) → TxIoq
  | [] => q
  | (m, random) :: txmsgq =>
      flush1 { q with msgq := q.msgq ++ [complete1 icrc32 rev q.seq random m], seq := q.seq + 1 }
        txmsgq

/-! ## The completed header -/

theorem salt_seq (random : BitVec 32) (seq : Nat) :
    (random <<< 8 ||| (BitVec.ofNat 32 seq &&& 255#32)) &&& 255#32 =
      BitVec.ofNat 32 seq &&& 255#32 := by
  have hmask : ∀ i < 32, (255#32).getLsbD i = decide (i < 8) := by decide
  refine BitVec.eq_of_getLsbD_eq fun i hi => ?_
  simp only [BitVec.getLsbD_and, BitVec.getLsbD_or, BitVec.getLsbD_shiftLeft, hmask i hi, hi,
    decide_true, Bool.true_and]
  rcases Nat.lt_or_ge i 8 with hlt | hge
  · simp [hlt]
  · simp [Nat.not_lt.mpr hge]

theorem complete1_sent {m : Msg} (h : Queueable icrc32 m) (seq : Nat) (random : BitVec 32) :
    Sent icrc32 rev seq (complete1 icrc32 rev seq random m) := by
  have hcmd : (complete1 icrc32 rev seq random m).head.cmd = m.head.cmd := by
    unfold complete1
    dsimp only
    split <;> rfl
  constructor
  case magic =>
    unfold complete1
    dsimp only
    split <;> rfl
  case salt =>
    unfold complete1
    dsimp only
    split <;> exact salt_seq random seq
  case hdr_ge => rw [hcmd]; exact h.hdr_ge
  case hdr_le => rw [hcmd]; exact h.hdr_le
  case ext => rw [hcmd]; exact h.ext
  case aux => exact h.aux
  case aux_le => exact h.aux_le
  case auxBytes => rfl
  case auxCrc =>
    intro hne
    have hne : m.auxSize ≠ 0 := hne
    unfold complete1
    dsimp only
    by_cases hz : m.head.auxCrc = 0
    · rw [if_pos ⟨hne, hz⟩]
    · rw [if_neg fun hc => hz hc.2]
      exact (h.crc hne).resolve_left hz
  case hdrCrc => rfl

/-! ## The bytes on the wire -/

section Rest

variable {rev : Bool}

/-- The parts of a message have the sizes its header gives. -/
structure Shaped (m : Msg) : Prop where
  hdr_ge : align ≤ hdrSize m.head.cmd
  ext : m.ext.length = hdrSize m.head.cmd - align
  aux : m.aux.length = doAlign m.auxSize

theorem Shaped.length_hdrBytes {m : Msg} (h : Shaped m) :
    (hdrBytes rev m).length = hdrSize m.head.cmd := by
  rw [hdrBytes, List.length_append, length_headBytes, h.ext]
  exact Nat.add_sub_cancel' h.hdr_ge

theorem wire_eq (m : Msg) : wire rev m = hdrBytes rev m ++ m.aux := rfl

/-- `hb` bytes of the header and `ab` of the auxiliary data of the first message are written,
and it is not written whole. -/
def Partial : List Msg → Nat → Nat → Prop
  | [], hb, ab => hb = 0 ∧ ab = 0
  | m :: _, hb, ab => hb < hdrSize m.head.cmd ∧ ab = 0 ∨
      hb = hdrSize m.head.cmd ∧ ab < doAlign m.auxSize

/-- The bytes of the messages after the first `k`. -/
def bytesAfter (rev : Bool) (msgs : List Msg) (k : Nat) : List UInt8 :=
  (msgs.flatMap (wire rev)).drop k

theorem partial_zero {msgs : List Msg} (h : ∀ m ∈ msgs, Shaped m) : Partial msgs 0 0 := by
  cases msgs with
  | nil => exact ⟨rfl, rfl⟩
  | cons m msgs =>
      have hge := (h m (List.mem_cons_self ..)).hdr_ge
      exact .inl ⟨Nat.lt_of_lt_of_le (by decide) hge, rfl⟩

/-- In the middle of a header. -/
theorem bytesAfter_hdr {m : Msg} {msgs : List Msg} {hb : Nat} (h : Shaped m)
    (hlt : hb ≤ hdrSize m.head.cmd) : bytesAfter rev (m :: msgs) hb =
      (hdrBytes rev m).drop hb ++ (m.aux ++ msgs.flatMap (wire rev)) := by
  rw [bytesAfter, List.flatMap_cons, wire_eq, List.append_assoc,
    List.drop_append_of_le_length (by rw [h.length_hdrBytes]; exact hlt)]

/-- In the middle of the auxiliary data. -/
theorem bytesAfter_aux {m : Msg} {msgs : List Msg} {ab : Nat} (h : Shaped m)
    (hle : ab ≤ doAlign m.auxSize) : bytesAfter rev (m :: msgs) (hdrSize m.head.cmd + ab) =
      m.aux.drop ab ++ msgs.flatMap (wire rev) := by
  have hhdr : (hdrBytes rev m).length = hdrSize m.head.cmd := h.length_hdrBytes
  rw [bytesAfter, List.flatMap_cons, wire_eq, List.append_assoc, ← hhdr, List.drop_append,
    List.drop_eq_nil_of_le (Nat.le_add_right _ ab), Nat.add_sub_cancel_left, List.nil_append,
    List.drop_append_of_le_length (by rw [h.aux]; exact hle)]

theorem bytesAfter_drop (msgs : List Msg) (k n : Nat) :
    (bytesAfter rev msgs k).drop n = bytesAfter rev msgs (k + n) := by
  rw [bytesAfter, bytesAfter, List.drop_drop]

/-- Past the first message. -/
theorem bytesAfter_next {m : Msg} {msgs : List Msg} (h : Shaped m) (k : Nat) :
    bytesAfter rev (m :: msgs) (hdrSize m.head.cmd + doAlign m.auxSize + k) =
      bytesAfter rev msgs k := by
  rw [← bytesAfter_drop, bytesAfter_aux h (Nat.le_refl _),
    List.drop_eq_nil_of_le (Nat.le_of_eq h.aux), List.nil_append]
  rfl

theorem entries_spec {part rest : List UInt8} {tail : Nat → Option (List (List UInt8))}
    (htail : ∀ iovcnt, ∃ iov, tail iovcnt = some iov ∧ iov.flatten <+: rest) (off iovcnt : Nat) :
    ∃ iov, entries part off tail iovcnt = some iov ∧ iov.flatten <+: part.drop off ++ rest := by
  unfold entries
  split
  case isFalse hge =>
    obtain ⟨iov, hiov, hprefix⟩ := htail iovcnt
    refine ⟨iov, hiov, ?_⟩
    rwa [List.drop_eq_nil_of_le (Nat.not_lt.mp hge), List.nil_append]
  case isTrue hlt =>
    dsimp only
    split
    case isTrue =>
      refine ⟨_, rfl, ?_⟩
      rw [List.flatten_singleton]
      exact (List.take_prefix _ _).trans (List.prefix_append _ _)
    case isFalse hfull =>
      obtain ⟨iov, hiov, hprefix⟩ := htail (iovcnt + 1)
      have hmax : min (part.length - off) (bufSize / 2) = part.length - off :=
        Classical.not_not.mp fun hne => hfull (.inr hne)
      have hentry : (part.drop off).take (min (part.length - off) (bufSize / 2)) =
          part.drop off := by
        rw [hmax]
        exact List.take_of_length_le (by rw [List.length_drop])
      refine ⟨part.drop off :: iov, ?_, ?_⟩
      · rw [hiov, hentry]
        rfl
      · rw [List.flatten_cons]
        exact (List.prefix_append_right_inj _).mpr hprefix

/-- What is offered to the socket is the beginning of what is not written yet. -/
theorem iovec_spec : ∀ (msgs : List Msg) (hoff aoff iovcnt : Nat), (∀ m ∈ msgs, Shaped m) →
    Partial msgs hoff aoff → ∃ iov, iovec rev msgs hoff aoff iovcnt = some iov ∧
      iov.flatten <+: bytesAfter rev msgs (hoff + aoff)
  | [], _, _, _, _, _ => ⟨[], rfl, List.nil_prefix⟩
  | m :: msgs, hoff, aoff, iovcnt, hall, hpart => by
      have hm := hall m (List.mem_cons_self ..)
      have hrest := fun m' hm' => hall m' (List.mem_cons_of_mem _ hm')
      have ih : ∀ iovcnt, ∃ iov, iovec rev msgs 0 0 iovcnt = some iov ∧
          iov.flatten <+: msgs.flatMap (wire rev) :=
        fun iovcnt => iovec_spec msgs 0 0 iovcnt hrest (partial_zero hrest)
      have hH : (hdrBytes rev m).take (hdrSize m.head.cmd) = hdrBytes rev m :=
        List.take_of_length_le (Nat.le_of_eq hm.length_hdrBytes)
      have hA : m.aux.take (doAlign m.auxSize) = m.aux :=
        List.take_of_length_le (Nat.le_of_eq hm.aux)
      have haux := @entries_spec m.aux _ _ ih aoff
      have hspec := @entries_spec (hdrBytes rev m) _ _ haux hoff iovcnt
      rw [iovec, hH, hA]
      rcases hpart with ⟨hlt, rfl⟩ | ⟨rfl, hlt⟩
      · rw [if_pos ⟨Nat.le_of_lt hlt, Nat.zero_le _⟩, Nat.add_zero,
          bytesAfter_hdr hm (Nat.le_of_lt hlt)]
        exact hspec
      · rw [if_pos ⟨Nat.le_refl _, Nat.le_of_lt hlt⟩, bytesAfter_aux hm (Nat.le_of_lt hlt)]
        rwa [List.drop_eq_nil_of_le (Nat.le_of_eq hm.length_hdrBytes), List.nil_append] at hspec

/-- Removing what was written leaves what was not. -/
theorem retire_spec : ∀ (msgs : List Msg) (hb ab nact : Nat), (∀ m ∈ msgs, Shaped m) →
    Partial msgs hb ab → nact ≤ (bytesAfter rev msgs (hb + ab)).length →
    ∃ msgs' hb' ab', retire msgs hb ab nact = some (msgs', hb', ab') ∧ msgs' <:+ msgs ∧
      Partial msgs' hb' ab' ∧
      bytesAfter rev msgs' (hb' + ab') = (bytesAfter rev msgs (hb + ab)).drop nact
  | [], hb, ab, nact, _, hpart, hle => by
      obtain ⟨rfl, rfl⟩ := hpart
      have hz : nact = 0 := Nat.le_zero.mp hle
      subst hz
      exact ⟨[], 0, 0, rfl, List.suffix_rfl, ⟨rfl, rfl⟩, rfl⟩
  | m :: msgs, hb, ab, nact, hall, hpart, hle => by
      have hm := hall m (List.mem_cons_self ..)
      have hrest := fun m' hm' => hall m' (List.mem_cons_of_mem _ hm')
      have hlen : ∀ k, (bytesAfter rev (m :: msgs) k).length =
          hdrSize m.head.cmd + doAlign m.auxSize + (msgs.flatMap (wire rev)).length - k := by
        intro k
        rw [bytesAfter, List.length_drop, List.flatMap_cons, wire_eq, List.length_append,
          List.length_append, hm.length_hdrBytes, hm.aux]
      have hbounds : hb ≤ hdrSize m.head.cmd ∧ ab ≤ doAlign m.auxSize ∧
          (hb < hdrSize m.head.cmd → ab = 0) := by
        rcases hpart with ⟨hlt, rfl⟩ | ⟨rfl, hlt⟩
        · exact ⟨Nat.le_of_lt hlt, Nat.zero_le _, fun _ => rfl⟩
        · exact ⟨Nat.le_refl _, Nat.le_of_lt hlt, fun h => absurd h (Nat.lt_irrefl _)⟩
      rw [hlen] at hle
      rw [retire]
      simp only [bytesAfter_drop]
      split
      case isTrue hlt =>
        -- still in the header
        have hab := hbounds.2.2 (by omega)
        exact ⟨_, _, _, rfl, List.suffix_rfl, .inl ⟨by omega, hab⟩, by congr 1; omega⟩
      case isFalse hge =>
        split
        case isTrue hlt =>
          -- the header is written
          refine ⟨_, _, _, rfl, List.suffix_rfl, .inr ⟨rfl, by omega⟩, ?_⟩
          congr 1
          omega
        case isFalse hge' =>
          -- the message is written
          have hnext : hb + ab + nact = hdrSize m.head.cmd + doAlign m.auxSize +
              (nact - (hdrSize m.head.cmd - hb) - (doAlign m.auxSize - ab)) := by omega
          rw [hnext, bytesAfter_next hm]
          obtain ⟨msgs', hb', ab', hr, hsuffix, hp, hbytes⟩ := retire_spec msgs 0 0
            (nact - (hdrSize m.head.cmd - hb) - (doAlign m.auxSize - ab)) hrest
            (partial_zero hrest) (by rw [bytesAfter, Nat.add_zero, List.drop_zero]; omega)
          refine ⟨msgs', hb', ab', hr, hsuffix.trans (List.suffix_cons m msgs), hp, ?_⟩
          rw [hbytes, bytesAfter_drop, Nat.add_zero, Nat.zero_add]

/-- The queue is in order. -/
structure TxIoq.Wf (q : TxIoq) : Prop where
  shaped : ∀ m ∈ q.msgq, Shaped m
  part : Partial q.msgq q.hbytes q.abytes

/-- The bytes of the queue that are not written yet. -/
def TxIoq.rest (rev : Bool) (q : TxIoq) : List UInt8 := bytesAfter rev q.msgq (q.hbytes + q.abytes)

/-- **Writing the queue.**  What is written is the beginning of what was left, and what is
left afterwards is the rest of it. -/
theorem flush2_spec {q : TxIoq} (h : q.Wf) (n : Option Nat) :
    ∃ q' data, flush2 rev q n = some (q', data) ∧ q'.Wf ∧ q'.seq = q.seq ∧
      data ++ q'.rest rev = q.rest rev := by
  obtain ⟨iov, hiov, hprefix⟩ := iovec_spec q.msgq q.hbytes q.abytes 0 h.shaped h.part
  unfold flush2
  rw [hiov]
  cases iov with
  | nil => exact ⟨q, [], rfl, h, rfl, rfl⟩
  | cons entry iov =>
      dsimp only
      generalize hdata : (match n with
        | some n => (entry :: iov).flatten.take n
        | none => [] : List UInt8) = data
      have hdp : data <+: q.rest rev := by
        rw [← hdata]
        cases n with
        | none => exact List.nil_prefix
        | some n => exact (List.take_prefix _ _).trans hprefix
      obtain ⟨msgs', hb', ab', hr, hsuffix, hpart, hbytes⟩ :=
        @retire_spec rev q.msgq q.hbytes q.abytes data.length h.shaped h.part hdp.length_le
      rw [hr]
      refine ⟨_, _, rfl, ⟨fun m hm => h.shaped m (hsuffix.subset hm), hpart⟩, rfl, ?_⟩
      obtain ⟨rest, hrest⟩ := hdp
      show data ++ bytesAfter rev msgs' (hb' + ab') = _
      rw [hbytes]
      show data ++ (q.rest rev).drop data.length = _
      rw [← hrest, List.drop_left]

end Rest

end Transmit

end Hammer2.Dmsg
