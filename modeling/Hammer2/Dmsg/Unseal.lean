/-
# `Hammer2.Dmsg.Unseal` — what the receiver decrypts

Decryption is in place and of whole chunks, so part of a chunk may stay behind the bytes that can
be parsed.

    openIo          the queue and the socket as if there were only the decrypted bytes
    Fed             the chunks that are still to be decrypted
    decrypt_spec    whole chunks go over to the decrypted bytes
    ioqRead_spec    a call delivers the next message or waits

Where the receiver is, is said of `openIo` in the terms of `Hammer2.Dmsg.Expect`.
-/
import Hammer2.Dmsg.Crypt
import Hammer2.Dmsg.Expect

namespace Hammer2.Dmsg.Crypt

open Chunked

/-! ## The FIFO -/

/-- The queue with another FIFO. -/
def reseal (q : Ioq) (buf : Nat → UInt8) (beg cdx fin : Nat) : Ioq :=
  { q with buf, beg, cdx, cdn := cdx, fin }

def openQ (q : Ioq) : Ioq := { q with cdn := q.cdx, fin := q.cdx }

/-- Only the decrypted bytes. -/
def openIo (io : Io) : Io := ⟨openQ io.q, ⟨[], []⟩⟩

/-- The bytes that are not decrypted. -/
def tail (q : Ioq) : List UInt8 := Memory.read q.buf q.cdx (q.fin - q.cdx)

/-- The FIFO of an encrypted link between two steps. -/
structure Half (q : Ioq) : Prop where
  cdn : q.cdn = q.cdx
  beg : q.beg ≤ q.cdx
  cdx : q.cdx ≤ q.fin
  fin : q.fin ≤ bufSize

/-- All chunks of the stream so far, and the counter of the first one. -/
structure Stream where
  iv : Nat
  chunks : List (List UInt8)

/-- The chunks on their way to the receiver; `more` has not come to its socket yet. -/
structure Flight (C : Cipher UInt8 align) (o : Stream) (r : Rx) (more : List UInt8)
    (chunks : List (List UInt8)) : Prop where
  past : ∃ past, o.chunks = past ++ chunks ∧ r.iv = o.iv + past.length
  whole : Whole align chunks
  raw : tail r.io.q ++ (r.io.sock.pending ++ more) = sealAll C r.iv chunks
  ivs : r.iv + chunks.length < 2 ^ 64

/-- The receiver between two steps. -/
structure Fed (C : Cipher UInt8 align) (o : Stream) (r : Rx) (more : List UInt8)
    (chunks : List (List UInt8)) : Prop where
  half : Half r.io.q
  tail : r.io.q.fin - r.io.q.cdx < align
  cuts : NoLoss r.io.sock.cuts
  flight : Flight C o r more chunks

section Fifo

variable {C : Cipher UInt8 align} {o : Stream} {faults : Faults} {q : Ioq} {r : Rx} {more : List UInt8}
  {chunks : List (List UInt8)}

theorem Half.open_plain (h : Half q) : Plain (openQ q) :=
  ⟨rfl, rfl, h.beg, Nat.le_trans h.cdx h.fin⟩

theorem Half.ordered (h : Half q) : q.Ordered := by
  refine ⟨h.beg, ?_, ?_, h.fin⟩
  · rw [h.cdn]
  · rw [h.cdn]
    exact h.cdx

theorem Half.checked (h : Half q) : q.checked = some q := if_pos h.ordered

theorem openQ_reseal (buf : Nat → UInt8) (beg cdx fin : Nat) :
    openQ (reseal q buf beg cdx fin) = q.refifo buf beg cdx := rfl

theorem Half.reseal_self (h : Half q) : reseal q q.buf q.beg q.cdx q.fin = q := by
  have hcdn := h.cdn
  cases q with
  | mk state beg cdx cdn =>
      cases hcdn
      rfl

theorem length_tail : (tail q).length = q.fin - q.cdx := Memory.length_read ..

theorem write_nil (m : Nat → UInt8) (b : Nat) : Memory.write m b [] = m := by
  funext a
  unfold Memory.write
  split
  · rfl
  · rfl

theorem bcopy_eq {src dst len : Nat} (hsrc : src + len ≤ bufSize) (hdst : dst + len ≤ bufSize) :
    q.bcopy src dst len = some { q with buf := Memory.write q.buf dst (Memory.read q.buf src len) } := by
  unfold Ioq.bcopy
  split
  · rename_i hz
    have hnil : Memory.read q.buf src 0 = [] := rfl
    rw [hz, hnil, write_nil]
  · exact if_pos ⟨hsrc, hdst⟩

/-- `dmsg_ioq_makeroom` keeps the bytes, and makes room for what is needed and to read. -/
theorem makeroom_half (h : Half q) (needed : Nat) : ∃ buf beg cdx fin,
    makeroom q needed = some (reseal q buf beg cdx fin, bufSize - fin) ∧
      Half (reseal q buf beg cdx fin) ∧ (q.refifo buf beg cdx).content = (openQ q).content ∧
      tail (reseal q buf beg cdx fin) = tail q ∧ cdx - beg = q.cdx - q.beg ∧
      fin - cdx = q.fin - q.cdx ∧ (needed ≤ bufSize → beg + needed ≤ bufSize) ∧
      (q.cdx - q.beg < needed → q.cdx - q.beg + (q.fin - q.cdx) < bufSize → fin < bufSize) := by
  have hbeg := h.beg
  have hcdx := h.cdx
  have hfin := h.fin
  unfold makeroom
  by_cases hroom : q.cdx - q.beg + (bufSize - q.fin) / 2 < needed
  · let buf₁ := Memory.write q.buf 0 (Memory.read q.buf q.beg (q.cdx - q.beg))
    let buf₂ := Memory.write buf₁ (q.cdx - q.beg) (Memory.read buf₁ q.cdx (q.fin - q.cdx))
    have hlen₁ : (Memory.read q.buf q.beg (q.cdx - q.beg)).length = q.cdx - q.beg :=
      Memory.length_read ..
    -- The first copy ends where the second one begins.
    have hkeep : Memory.read buf₁ q.cdx (q.fin - q.cdx) = tail q :=
      Memory.read_write_of_disjoint (.inr (by rw [hlen₁]; omega))
    have hsize : q.fin - (q.cdn - (q.cdx - q.beg)) = q.cdx - q.beg + (q.fin - q.cdx) := by
      rw [h.cdn]
      omega
    have hhalf : Half (reseal q buf₂ 0 (q.cdx - q.beg) (q.cdx - q.beg + (q.fin - q.cdx))) := by
      refine ⟨rfl, Nat.zero_le _, Nat.le_add_right _ _, ?_⟩
      show q.cdx - q.beg + (q.fin - q.cdx) ≤ bufSize
      omega
    refine ⟨buf₂, 0, q.cdx - q.beg, q.cdx - q.beg + (q.fin - q.cdx), ?_, hhalf, ?_, ?_, rfl,
      Nat.add_sub_cancel_left .., fun hn => by omega, fun _ hb => hb⟩
    · have hfirst := @bcopy_eq q q.beg 0 (q.cdx - q.beg) (by omega) (by omega)
      simp only [if_pos hroom, hfirst, Option.bind_eq_bind, Option.bind_some]
      rw [bcopy_eq (by rw [h.cdn]; omega) (by rw [h.cdn]; omega), Option.bind_some]
      dsimp only
      rw [hsize, h.cdn]
      show (reseal q buf₂ 0 (q.cdx - q.beg) (q.cdx - q.beg + (q.fin - q.cdx))).checked.bind _ = _
      rw [hhalf.checked]
      rfl
    · show Memory.read buf₂ 0 (q.cdx - q.beg - 0) = Memory.read q.buf q.beg (q.cdx - q.beg)
      have hread := Memory.read_write q.buf 0 (Memory.read q.buf q.beg (q.cdx - q.beg))
      rw [hlen₁] at hread
      rw [Nat.sub_zero, Memory.read_write_of_disjoint (.inl (by omega))]
      exact hread
    · show Memory.read buf₂ (q.cdx - q.beg) (q.cdx - q.beg + (q.fin - q.cdx) - (q.cdx - q.beg)) = _
      have hread := Memory.read_write buf₁ (q.cdx - q.beg) (Memory.read buf₁ q.cdx (q.fin - q.cdx))
      rw [Memory.length_read, hkeep] at hread
      rw [Nat.add_sub_cancel_left]
      exact (congrArg (fun t => Memory.read (Memory.write buf₁ (q.cdx - q.beg) t) _ _) hkeep).trans hread
  · simp only [if_neg hroom]
    refine ⟨q.buf, q.beg, q.cdx, q.fin, ?_, ?_, rfl, rfl, rfl, rfl, fun _ => by omega,
      fun _ _ => by omega⟩
    · rw [h.reseal_self]
      rfl
    · rw [h.reseal_self]
      exact h

/-! ## Decryption -/

/-- Whole chunks go over to the decrypted bytes. -/
structure Opens (C : Cipher UInt8 align) (o : Stream) (r r' : Rx) (more : List UInt8)
    (chunks chunks' : List (List UInt8)) : Prop where
  fed : Fed C o r' more chunks'
  same : ∃ buf cdx, r'.io.q = reseal r.io.q buf r.io.q.beg cdx r.io.q.fin
  content : (openQ r'.io.q).content ++ chunks'.flatten = (openQ r.io.q).content ++ chunks.flatten

theorem decryptLoop_spec (hfaults : ∀ k, faults k = none) : ∀ (rounds : Nat) (r : Rx)
    (chunks : List (List UInt8)), Half r.io.q → NoLoss r.io.sock.cuts → Flight C o r more chunks →
    r.io.q.fin - r.io.q.cdn < align * rounds → ∃ r' chunks',
    decryptLoop C faults rounds (r.io.q.fin - r.io.q.cdn) r = some r' ∧
      Opens C o r r' more chunks chunks'
  | 0, _, _, _, _, _, hlt => absurd hlt (Nat.not_lt_zero _)
  | rounds + 1, r, chunks, hhalf, hcuts, hflight, hlt => by
      rw [decryptLoop]
      split
      · rename_i hsmall
        rw [hhalf.cdn] at hsmall
        exact ⟨r, chunks, rfl, ⟨hhalf, hsmall, hcuts, hflight⟩,
          ⟨r.io.q.buf, r.io.q.cdx, hhalf.reseal_self.symm⟩, rfl⟩
      · rename_i hge
        have hbeg := hhalf.beg
        have hcdx := hhalf.cdx
        have hfin := hhalf.fin
        rw [hhalf.cdn] at hge hlt ⊢
        have hge := Nat.not_lt.mp hge
        have hfits : ¬ (r.io.q.cdx + align > bufSize ∨ r.io.q.cdn + align > bufSize) := by
          rw [hhalf.cdn]
          omega
        -- The first chunk is there.
        have hsplit : tail r.io.q = Memory.read r.io.q.buf r.io.q.cdx align ++
            Memory.read r.io.q.buf (r.io.q.cdx + align) (r.io.q.fin - (r.io.q.cdx + align)) := by
          rw [← Memory.read_add, tail]
          congr 1
          omega
        have hraw := hflight.raw
        rw [hsplit, List.append_assoc] at hraw
        have hchunk : (Memory.read r.io.q.buf r.io.q.cdx align).length = align :=
          Memory.length_read ..
        cases chunks with
        | nil =>
            have hlen := congrArg List.length hraw
            rw [List.length_append, hchunk] at hlen
            exact absurd hlen (by rw [sealAll, List.length_nil]; unfold align; omega)
        | cons x xs =>
            obtain ⟨hdec, hrest⟩ := dec_sealAll hflight.whole hchunk hraw
            have hx := hflight.whole.head
            have hivs : r.iv + (xs.length + 1) < 2 ^ 64 := hflight.ivs
            let q₁ : Ioq := { r.io.q with
              buf := Memory.write r.io.q.buf r.io.q.cdx x
              cdn := r.io.q.cdx + align
              cdx := r.io.q.cdx + align }
            let r₁ : Rx := ⟨⟨q₁, r.io.sock⟩, r.iv + 1, r.ops + 1⟩
            have hhalf₁ : Half q₁ := by
              refine ⟨rfl, Nat.le_trans hbeg (Nat.le_add_right _ _), ?_, hfin⟩
              show r.io.q.cdx + align ≤ r.io.q.fin
              omega
            have htail₁ : tail q₁ =
                Memory.read r.io.q.buf (r.io.q.cdx + align) (r.io.q.fin - (r.io.q.cdx + align)) :=
              Memory.read_write_of_disjoint (.inr (by rw [hx]))
            have hflight₁ : Flight C o r₁ more xs := by
              obtain ⟨past, hpast, hiv⟩ := hflight.past
              refine ⟨⟨past ++ [x], ?_, ?_⟩, hflight.whole.tail, ?_, ?_⟩
              · rw [hpast, List.append_assoc]
                rfl
              · show r.iv + 1 = _
                rw [hiv, List.length_append]
                rfl
              · show tail q₁ ++ _ = _
                rw [htail₁]
                exact hrest
              · show r.iv + 1 + xs.length < 2 ^ 64
                omega
            have hcontent₁ : (openQ q₁).content = (openQ r.io.q).content ++ x := by
              have hsize : r.io.q.cdx + align - r.io.q.beg = r.io.q.cdx - r.io.q.beg + align := by
                omega
              have hread := Memory.read_write r.io.q.buf r.io.q.cdx x
              rw [hx] at hread
              show Memory.read (Memory.write r.io.q.buf r.io.q.cdx x) r.io.q.beg
                (r.io.q.cdx + align - r.io.q.beg) = _
              rw [hsize, Memory.read_add, Nat.add_sub_cancel' hbeg, hread,
                Memory.read_write_of_disjoint (.inl (by omega))]
              rfl
            have hloop : decryptChunk C faults r = some
                (⟨⟨{ r.io.q with buf := Memory.write r.io.q.buf r.io.q.cdx x }, r.io.sock⟩, r.iv + 1,
                  r.ops + 1⟩, align) := by
              have hwrap : ¬ (r.iv + 1) % 2 ^ 64 = 0 := by
                rw [Nat.mod_eq_of_lt (by omega)]
                omega
              have hread : C.dec r.iv (Memory.read r.io.q.buf r.io.q.cdn align) = x := by
                rw [hhalf.cdn]
                exact hdec
              rw [decryptChunk, if_neg hfits, hfaults]
              dsimp only
              rw [hread, if_neg hwrap]
            have hlen₁ : q₁.fin - q₁.cdn = r.io.q.fin - r.io.q.cdx - align := (Nat.sub_sub ..).symm
            obtain ⟨r', chunks', hr', hopens⟩ := decryptLoop_spec hfaults rounds r₁ xs hhalf₁ hcuts
              hflight₁ (by show q₁.fin - q₁.cdn < align * rounds; rw [hlen₁]; rw [Nat.mul_succ] at hlt; omega)
            have hr' : decryptLoop C faults rounds (q₁.fin - q₁.cdn) r₁ = some r' := hr'
            rw [hlen₁] at hr'
            obtain ⟨buf, cdx, hq⟩ := hopens.same
            refine ⟨r', chunks', ?_, hopens.fed, ⟨buf, cdx, hq⟩, ?_⟩
            · rw [hloop, Option.bind_eq_bind, Option.bind_some]
              dsimp only
              rw [hhalf.cdn]
              exact hr'
            · have hall : (openQ r'.io.q).content ++ chunks'.flatten =
                  (openQ q₁).content ++ xs.flatten := hopens.content
              rw [hall, hcontent₁, List.append_assoc]
              rfl

theorem decrypt_spec (hfaults : ∀ k, faults k = none) (hhalf : Half r.io.q)
    (hcuts : NoLoss r.io.sock.cuts) (hflight : Flight C o r more chunks) : ∃ r' chunks',
    decryptChecked C faults r = some r' ∧ Opens C o r r' more chunks chunks' := by
  have hfin := hhalf.fin
  obtain ⟨r', chunks', hr', hopens⟩ := decryptLoop_spec hfaults (bufSize / align + 1) r chunks hhalf
    hcuts hflight (by unfold align bufSize at *; omega)
  refine ⟨r', chunks', ?_, hopens⟩
  rw [decryptChecked, decrypt, hr', Option.bind_eq_bind, Option.bind_some, hopens.fed.half.checked]
  rfl

/-- **Reading and decrypting.** -/
theorem refill_spec (hfaults : ∀ k, faults k = none) (hhalf : Half r.io.q)
    (hcuts : NoLoss r.io.sock.cuts) (hflight : Flight C o r more chunks) {need : Bool}
    (hroom : need = true → r.io.q.fin < bufSize) : ∃ io r' chunks' buf cdx fin,
    fillIf need r.io (bufSize - r.io.q.fin) = some (io, false) ∧
      decryptChecked C faults { r with io } = some r' ∧ Fed C o r' more chunks' ∧
      r'.io.q = reseal r.io.q buf r.io.q.beg cdx fin ∧
      (openQ r'.io.q).content ++ chunks'.flatten = (openQ r.io.q).content ++ chunks.flatten := by
  have hcdx := hhalf.cdx
  have hfin := hhalf.fin
  cases need with
  | false =>
      obtain ⟨r', chunks', hr', hopens⟩ := decrypt_spec hfaults hhalf hcuts hflight
      obtain ⟨buf, cdx, hq⟩ := hopens.same
      exact ⟨r.io, r', chunks', buf, cdx, r.io.q.fin, rfl, hr', hopens.fed, hq, hopens.content⟩
  | true =>
      have hlt := hroom rfl
      have hsome : ¬ bufSize - r.io.q.fin = 0 := by omega
      rcases Sock.read_spec hcuts (bufSize - r.io.q.fin) with
        ⟨bs, sock, hread, hbs, hlen, hcuts'⟩ | ⟨sock, hread, hpend, hcuts'⟩
      · let q₁ : Ioq := { r.io.q with
          buf := Memory.write r.io.q.buf r.io.q.fin bs
          fin := r.io.q.fin + bs.length }
        have hhalf₁ : Half q₁ := by
          refine ⟨hhalf.cdn, hhalf.beg, ?_, ?_⟩
          · exact Nat.le_trans hcdx (Nat.le_add_right _ _)
          · show r.io.q.fin + bs.length ≤ bufSize
            omega
        have htail₁ : tail q₁ = tail r.io.q ++ bs := by
          have hsize : r.io.q.fin + bs.length - r.io.q.cdx =
              r.io.q.fin - r.io.q.cdx + bs.length := by omega
          show Memory.read (Memory.write r.io.q.buf r.io.q.fin bs) r.io.q.cdx
            (r.io.q.fin + bs.length - r.io.q.cdx) = _
          rw [hsize, Memory.read_add, Nat.add_sub_cancel' hcdx, Memory.read_write,
            Memory.read_write_of_disjoint (.inl (by omega))]
          rfl
        have hopen₁ : (openQ q₁).content = (openQ r.io.q).content :=
          Memory.read_write_of_disjoint (.inl (by
            have hbeg := hhalf.beg
            show r.io.q.beg + (r.io.q.cdx - r.io.q.beg) ≤ r.io.q.fin
            omega))
        have hflight₁ : Flight C o { r with io := ⟨q₁, sock⟩ } more chunks := by
          refine ⟨hflight.past, hflight.whole, ?_, hflight.ivs⟩
          show tail q₁ ++ (sock.pending ++ more) = _
          rw [htail₁, List.append_assoc, ← List.append_assoc bs, hbs]
          exact hflight.raw
        obtain ⟨r', chunks', hr', hopens⟩ :=
          @decrypt_spec C o faults { r with io := ⟨q₁, sock⟩ } more chunks hfaults hhalf₁ hcuts' hflight₁
        obtain ⟨buf, cdx, hq⟩ := hopens.same
        refine ⟨⟨q₁, sock⟩, r', chunks', buf, cdx, r.io.q.fin + bs.length, ?_, hr', hopens.fed, hq,
          ?_⟩
        · rw [fillIf, if_pos rfl, fill, if_neg hsome, hread]
          show q₁.checked.bind _ = _
          rw [hhalf₁.checked]
          rfl
        · rw [← hopen₁]
          exact hopens.content
      · have hflight₁ : Flight C o { r with io := ⟨r.io.q, sock⟩ } more chunks := by
          refine ⟨hflight.past, hflight.whole, ?_, hflight.ivs⟩
          show tail r.io.q ++ (sock.pending ++ more) = _
          rw [hpend]
          exact hflight.raw
        obtain ⟨r', chunks', hr', hopens⟩ :=
          @decrypt_spec C o faults { r with io := ⟨r.io.q, sock⟩ } more chunks hfaults hhalf hcuts' hflight₁
        obtain ⟨buf, cdx, hq⟩ := hopens.same
        refine ⟨⟨r.io.q, sock⟩, r', chunks', buf, cdx, r.io.q.fin, ?_, hr', hopens.fed, hq,
          hopens.content⟩
        rw [fillIf, if_pos rfl, fill, if_neg hsome, hread]

end Fifo

/-! ## Steps that leave the rest alone -/

section Back

variable {icrc32 : List UInt8 → BitVec 32} {fin : Nat} {sock : Sock} {io : Io} {q : Ioq}

/-- The queue with what is behind its decrypted bytes, and the socket. -/
def back (fin : Nat) (sock : Sock) (io : Io) : Io := ⟨{ io.q with fin }, sock⟩

theorem back_open (h : Half io.q) : back io.q.fin io.sock (openIo io) = io := by
  have hcdn := h.cdn
  obtain ⟨q, sock⟩ := io
  cases q with
  | mk state beg cdx cdn =>
      cases hcdn
      rfl

theorem open_back (h : Plain io.q) (hsock : io.sock = ⟨[], []⟩) : openIo (back fin sock io) = io := by
  have hx := h.cdx
  have hn := h.cdn
  obtain ⟨q, s⟩ := io
  cases q with
  | mk state beg cdx cdn end_ =>
      cases hx
      cases hn
      cases hsock
      rfl

theorem checked_back (hx : q.cdx = q.fin) (hn : q.cdn = q.fin) (hle : q.fin ≤ fin)
    (hfin : fin ≤ bufSize) :
    ({ q with fin } : Ioq).checked = q.checked.map fun q => { q with fin } := by
  have hiff : ({ q with fin } : Ioq).Ordered ↔ q.Ordered := by
    unfold Ioq.Ordered
    dsimp only
    omega
  unfold Ioq.checked
  rcases Classical.em q.Ordered with hord | hord
  · rw [if_pos hord, if_pos (hiff.mpr hord)]
    rfl
  · rw [if_neg hord, if_neg fun h => hord (hiff.mp h)]
    rfl

theorem header2Msg_back (h : Plain io.q) (hle : io.q.fin ≤ fin) (hfin : fin ≤ bufSize) (rx : RxMsg)
    (nmax : Nat) : header2Msg icrc32 (back fin sock io) rx nmax =
      (header2Msg icrc32 io rx nmax).map fun p => (back fin sock p.1, p.2) := by
  let raw := Memory.read io.q.buf io.q.beg io.q.hbytes
  unfold header2Msg
  show (checkHead icrc32 (Head.ofBytes raw) (raw.drop align)).bind _ =
    ((checkHead icrc32 (Head.ofBytes raw) (raw.drop align)).bind _).map _
  cases checkHead icrc32 (Head.ofBytes raw) (raw.drop align) with
  | none => rfl
  | some head =>
      let q₁ : Ioq := { io.q with
        msg := some { rx with head := head, ext := raw.drop align }
        beg := io.q.beg + io.q.hbytes }
      have hc := @checked_back fin q₁ h.cdx h.cdn hle hfin
      rw [Option.bind_some, Option.bind_some]
      have hsame : (back fin sock io).q.hbytes = io.q.hbytes := rfl
      rw [hsame]
      split
      · rfl
      · refine (congrArg (Option.bind · _) hc).trans ?_
        show (q₁.checked.map _).bind _ = (q₁.checked.bind _).map _
        cases q₁.checked with
        | none => rfl
        | some q =>
            dsimp only [Option.map_some, Option.bind_some]
            split
            · rfl
            · rfl

theorem auxData1_back (h : Plain io.q) (hle : io.q.fin ≤ fin) (hfin : fin ≤ bufSize) (nmax : Nat) :
    auxData1 (back fin sock io) (io.q.cdx - io.q.beg) nmax =
      (auxData1 io (io.q.cdx - io.q.beg) nmax).map fun p => (back fin sock p.1, p.2) := by
  let len := if io.q.cdx - io.q.beg ≥ io.q.abytes then io.q.abytes else io.q.cdx - io.q.beg
  have hlen : len ≤ io.q.cdx - io.q.beg := by
    show (if io.q.cdx - io.q.beg ≥ io.q.abytes then io.q.abytes else io.q.cdx - io.q.beg) ≤ _
    split
    · assumption
    · exact Nat.le_refl _
  have hcdx : (if io.q.cdx - io.q.beg < io.q.abytes ∧ io.q.cdx < io.q.beg + len then
      io.q.beg + len else io.q.cdx) = io.q.cdx := by
    have hbeg := h.beg
    rw [← h.cdx] at hbeg
    exact if_neg fun hlt => by omega
  unfold auxData1
  show (io.q.msg.bind fun msg => (msg.bcopy io.q 0 len).bind _) =
    (io.q.msg.bind fun msg => (msg.bcopy io.q 0 len).bind _).map _
  cases io.q.msg with
  | none => rfl
  | some msg =>
      rw [Option.bind_some, Option.bind_some]
      cases msg.bcopy io.q 0 len with
      | none => rfl
      | some msg =>
          let q₁ : Ioq := { io.q with
            msg := some { msg with auxSize := len }
            beg := io.q.beg + len
            cdx := if io.q.cdx - io.q.beg < io.q.abytes ∧ io.q.cdx < io.q.beg + len then
              io.q.beg + len else io.q.cdx }
          have hc := @checked_back fin q₁ (hcdx.trans h.cdx) h.cdn hle hfin
          rw [Option.bind_some, Option.bind_some]
          refine (congrArg (Option.bind · _) hc).trans ?_
          show (q₁.checked.map _).bind _ = (q₁.checked.bind _).map _
          cases q₁.checked with
          | none => rfl
          | some q => rfl

theorem auxData2Copy_back (h : Plain io.q) (hle : io.q.fin ≤ fin) (hfin : fin ≤ bufSize)
    (rx : RxMsg) : auxData2Copy icrc32 (back fin sock io) rx =
      (auxData2Copy icrc32 io rx).map fun p => (back fin sock p.1, p.2) := by
  let bytes := min (io.q.cdx - io.q.beg) (io.q.abytes - rx.auxSize)
  unfold auxData2Copy
  show (rx.bcopy io.q rx.auxSize bytes).bind _ = ((rx.bcopy io.q rx.auxSize bytes).bind _).map _
  cases rx.bcopy io.q rx.auxSize bytes with
  | none => rfl
  | some msg =>
      let q₁ : Ioq := { io.q with
        msg := some { msg with auxSize := msg.auxSize + bytes }
        beg := io.q.beg + bytes }
      have hc := @checked_back fin q₁ h.cdx h.cdn hle hfin
      rw [Option.bind_some, Option.bind_some]
      refine (congrArg (Option.bind · _) hc).trans ?_
      show (q₁.checked.map _).bind _ = (q₁.checked.bind _).map _
      cases q₁.checked with
      | none => rfl
      | some q =>
          rw [Option.map_some, Option.bind_some, Option.bind_some]
          show (if msg.auxSize + bytes < q.abytes then _ else if msg.auxSize + bytes ≠ q.abytes then _
            else _) = Option.map _ (if msg.auxSize + bytes < q.abytes then _
            else if msg.auxSize + bytes ≠ q.abytes then _ else _)
          split
          · rfl
          · split
            · rfl
            · unfold auxData2Msg
              dsimp only
              split
              · rfl
              · rfl

/-- The bytes of the FIFO and the socket stay. -/
structure Keeps (io io' : Io) : Prop where
  buf : io'.q.buf = io.q.buf
  cdx : io'.q.cdx = io.q.cdx
  sock : io'.sock = io.sock

theorem checked_eq {q' : Ioq} (h : q.checked = some q') : q' = q := by
  unfold Ioq.checked at h
  split at h
  · exact (Option.some.inj h).symm
  · cases h

theorem header2Msg_keeps {io' : Io} {rx : RxMsg} {nmax : Nat} {next : Next}
    (h : header2Msg icrc32 io rx nmax = some (io', next)) : Keeps io io' := by
  unfold header2Msg at h
  obtain ⟨head, _, h⟩ := Option.bind_eq_some_iff.mp h
  split at h
  · cases h
  · obtain ⟨q, hq, h⟩ := Option.bind_eq_some_iff.mp h
    obtain rfl := checked_eq hq
    split at h
    · cases h
      exact ⟨rfl, rfl, rfl⟩
    · cases h
      exact ⟨rfl, rfl, rfl⟩

theorem auxData1_keeps (hp : Plain io.q) {io' : Io} {nmax : Nat} {next : Next}
    (h : auxData1 io (io.q.cdx - io.q.beg) nmax = some (io', next)) : Keeps io io' := by
  unfold auxData1 at h
  obtain ⟨msg, _, h⟩ := Option.bind_eq_some_iff.mp h
  obtain ⟨msg', _, h⟩ := Option.bind_eq_some_iff.mp h
  obtain ⟨q, hq, h⟩ := Option.bind_eq_some_iff.mp h
  obtain rfl := checked_eq hq
  cases h
  refine ⟨rfl, if_neg ?_, rfl⟩
  have hbeg := hp.beg
  rw [← hp.cdx] at hbeg
  rintro ⟨hlt, hcdx⟩
  rw [if_neg (Nat.not_le.mpr hlt)] at hcdx
  omega

theorem auxData2Copy_keeps {io' : Io} {rx : RxMsg} {next : Next}
    (h : auxData2Copy icrc32 io rx = some (io', next)) : Keeps io io' := by
  unfold auxData2Copy at h
  obtain ⟨msg, _, h⟩ := Option.bind_eq_some_iff.mp h
  obtain ⟨q, hq, h⟩ := Option.bind_eq_some_iff.mp h
  obtain rfl := checked_eq hq
  split at h
  · cases h
    exact ⟨rfl, rfl, rfl⟩
  · split at h
    · cases h
    · unfold auxData2Msg at h
      dsimp only at h
      split at h
      · cases h
        exact ⟨rfl, rfl, rfl⟩
      · cases h
        exact ⟨rfl, rfl, rfl⟩

/-- What is known of a step on the decrypted bytes is known of the step. -/
theorem Fed.carry {C : Cipher UInt8 align} {o : Stream} {r : Rx} {more : List UInt8}
    {chunks : List (List UInt8)}
    (h : Fed C o r more chunks) {f : Io → Option (Io × Next)} {io' : Io} {next : Next}
    (hf : f (openIo r.io) = some (io', next)) (hkeeps : Keeps (openIo r.io) io') (hp : Plain io'.q)
    (hback : f (back r.io.q.fin r.io.sock (openIo r.io)) =
      (f (openIo r.io)).map fun p => (back r.io.q.fin r.io.sock p.1, p.2)) :
    ∃ r', keep r (f r.io) = some (r', next) ∧ Fed C o r' more chunks ∧ openIo r'.io = io' ∧
      r'.io.q.cdx - r'.io.q.beg = io'.q.fin - io'.q.beg := by
  rw [back_open h.half, hf] at hback
  have hcdx : io'.q.cdx = r.io.q.cdx := hkeeps.cdx
  have hbuf : io'.q.buf = r.io.q.buf := hkeeps.buf
  refine ⟨{ r with io := back r.io.q.fin r.io.sock io' }, ?_, ⟨?_, ?_, h.cuts, h.flight.past,
    h.flight.whole, ?_, h.flight.ivs⟩, open_back hp hkeeps.sock, ?_⟩
  · rw [hback]
    rfl
  · refine ⟨?_, ?_, ?_, h.half.fin⟩
    · show io'.q.cdn = io'.q.cdx
      rw [hp.cdn, hp.cdx]
    · show io'.q.beg ≤ io'.q.cdx
      rw [hp.cdx]
      exact hp.beg
    · show io'.q.cdx ≤ r.io.q.fin
      rw [hcdx]
      exact h.half.cdx
  · show r.io.q.fin - io'.q.cdx < align
    rw [hcdx]
    exact h.tail
  · show Memory.read io'.q.buf io'.q.cdx (r.io.q.fin - io'.q.cdx) ++ (r.io.sock.pending ++ more) = _
    rw [hcdx, hbuf]
    exact h.flight.raw
  · show io'.q.cdx - io'.q.beg = _
    rw [hp.cdx]

end Back

/-! ## Where the receiver is -/

section Receive

variable {C : Cipher UInt8 align} {o : Stream} {faults : Faults} {icrc32 : List UInt8 → BitVec 32} {rev : Bool}
  {upto : Nat} {r : Rx} {more lost : List UInt8} {chunks : List (List UInt8)} {m : Msg}
  {msgs rest : List Msg} {rx : RxMsg}

/-- The bytes to parse, with those of the chunks to come. -/
theorem stream_open (io : Io) (later : List UInt8) :
    (openIo io).stream later = (openQ io.q).content ++ later := rfl

theorem common_open (h : Common icrc32 rev upto (openIo r.io) msgs) {q : Ioq} (hq : Half q)
    (herror : q.error = r.io.q.error) (hseq : q.seq = r.io.q.seq) {sock : Sock} :
    Common icrc32 rev upto (openIo ⟨q, sock⟩) msgs := by
  refine ⟨hq.open_plain, herror.trans h.error, ?_, fun _ hc => absurd hc List.not_mem_nil⟩
  have hsent := h.sent
  rw [← show (openIo ⟨q, sock⟩).q.seq = (openIo r.io).q.seq from hseq] at hsent
  exact hsent

/-- Another FIFO with the same bytes. -/
theorem Fed.moved (h : Fed C o r more chunks) {q : Ioq} {buf : Nat → UInt8} {beg cdx fin : Nat}
    (hhalf : Half (reseal q buf beg cdx fin)) (htail : Crypt.tail (reseal q buf beg cdx fin) =
      Crypt.tail r.io.q) (hsize : fin - cdx = r.io.q.fin - r.io.q.cdx) :
    Fed C o { r with io := ⟨reseal q buf beg cdx fin, r.io.sock⟩ } more chunks := by
  refine ⟨hhalf, ?_, h.cuts, h.flight.past, h.flight.whole, ?_,
    h.flight.ivs⟩
  · show fin - cdx < align
    rw [hsize]
    exact h.tail
  · show Crypt.tail (reseal q buf beg cdx fin) ++ _ = _
    rw [htail]
    exact h.flight.raw

/-- Nothing is on its way: no chunk is left. -/
theorem Fed.nil (h : Fed C o r more chunks) (hp : r.io.sock.pending = []) (hm : more = []) :
    chunks = [] := by
  have hlen := congrArg List.length h.flight.raw
  have htail := h.tail
  rw [hp, hm, List.append_nil, List.append_nil, length_tail, length_sealAll _ h.flight.whole] at hlen
  cases chunks with
  | nil => rfl
  | cons x xs =>
      rw [List.length_cons, Nat.mul_succ] at hlen
      omega

theorem header1Msg_half (hfed : Fed C o r more chunks)
    (h : AtHeader1 icrc32 rev upto (openIo r.io) (chunks.flatten ++ lost) (m :: rest))
    (hge : align ≤ r.io.q.cdx - r.io.q.beg) : ∃ r' rx, keep r (header1Msg r.io) =
      some (r', .fall (r'.io.q.cdx - r'.io.q.beg) (bufSize - r'.io.q.fin)) ∧ Fed C o r' more chunks ∧
      AtHeader2 icrc32 rev upto (openIo r'.io) (chunks.flatten ++ lost) m rest rx := by
  have hsent := h.sent.1
  have hstream := h.stream
  rw [stream_open, wires_cons] at hstream
  obtain ⟨hraw, _⟩ := content_split (q := openQ r.io.q) (by rw [length_headBytes]; exact hge) hstream
  rw [length_headBytes] at hraw
  have hhead : Head.ofBytes (Memory.read r.io.q.buf r.io.q.beg align) = rawHead rev m.head := by
    have hraw : Memory.read r.io.q.buf r.io.q.beg 64 = headBytes rev m.head := hraw
    show Head.ofBytes (Memory.read r.io.q.buf r.io.q.beg 64) = _
    rw [hraw, headBytes_eq]
    have hparse := Head.ofBytes_bytes (rawHead rev m.head) []
    rwa [List.append_nil] at hparse
  have hmagic : ¬ ((rawHead rev m.head).magic ≠ hdrMagic ∧
      (rawHead rev m.head).magic ≠ hdrMagicRev) := by
    rw [hsent.rawMagic]
    cases rev <;> decide
  have halign : doAlign m.auxSize % 2 ^ 32 = doAlign m.auxSize :=
    Nat.mod_eq_of_lt (Nat.lt_of_le_of_lt (doAlign_le hsent.aux_le) (by decide))
  have hsizes : ¬ (hdrSize m.head.cmd < align ∨ hdrSize m.head.cmd > hdrMax ∨
      doAlign m.auxSize > auxMax) := by
    rintro (hlt | hgt | hgt)
    · exact absurd hsent.hdr_ge (Nat.not_le.mpr hlt)
    · exact absurd hsent.hdr_le (Nat.not_le.mpr hgt)
    · exact absurd (doAlign_le hsent.aux_le) (Nat.not_le.mpr hgt)
  let rx := msgAlloc m.auxSize (hdrSize m.head.cmd)
  let q₁ : Ioq := { r.io.q with
    hbytes := hdrSize m.head.cmd
    abytes := doAlign m.auxSize
    unalignedAuxSize := m.auxSize
    msg := some rx }
  have hh := hfed.half
  obtain ⟨buf, beg, cdx, fin, hmk, hhalf, hcontent, htail, hbytes, hsize, hroom, _⟩ :=
    makeroom_half (q := q₁) ⟨hh.cdn, hh.beg, hh.cdx, hh.fin⟩ (hdrSize m.head.cmd)
  let q₂ : Ioq := { reseal q₁ buf beg cdx fin with state := .header2 }
  have hhalf₂ : Half q₂ := ⟨hhalf.cdn, hhalf.beg, hhalf.cdx, hhalf.fin⟩
  refine ⟨{ r with io := ⟨q₂, r.io.sock⟩ }, rx, ?_, ?_, ?_⟩
  · unfold header1Msg
    simp only [hhead, if_neg hmagic, hsent.coreSizes, halign, if_neg hsizes]
    show keep r ((makeroom q₁ (hdrSize m.head.cmd)).bind _) = _
    rw [hmk, ← show cdx - beg = r.io.q.cdx - r.io.q.beg from hbytes]
    rfl
  · refine ⟨hhalf₂, ?_, hfed.cuts, hfed.flight.past, hfed.flight.whole, ?_, hfed.flight.ivs⟩
    · show fin - cdx < align
      rw [hsize]
      exact hfed.tail
    · show Crypt.tail (reseal q₁ buf beg cdx fin) ++ _ = _
      rw [htail]
      exact hfed.flight.raw
  · refine ⟨common_open h.toCommon hhalf₂ rfl rfl, rfl, rfl, ⟨rfl, rfl, rfl, rfl, rfl, rfl⟩, ?_, ?_⟩
    · exact hroom (Nat.le_trans hsent.hdr_le (by decide))
    · have hstream := h.stream
      show (q₁.refifo buf beg cdx).content ++ _ = _
      rw [hcontent]
      exact hstream

theorem header1_half (hfaults : ∀ k, faults k = none) (hfed : Fed C o r more chunks)
    (h : AtHeader1 icrc32 rev upto (openIo r.io) (chunks.flatten ++ lost) msgs) :
    ∃ r' next chunks', header1 C faults r = some (r', next) ∧ Fed C o r' more chunks' ∧
      (next = .brk false ∧
        AtHeader1 icrc32 rev upto (openIo r'.io) (chunks'.flatten ++ lost) msgs ∧
        (chunks'.flatten ++ lost = [] → msgs = []) ∨
      ∃ m rest rx, msgs = m :: rest ∧
        AtHeader2 icrc32 rev upto (openIo r'.io) (chunks'.flatten ++ lost) m rest rx ∧
        next = .fall (r'.io.q.cdx - r'.io.q.beg) (bufSize - r'.io.q.fin)) := by
  obtain ⟨buf, beg, cdx, fin, hmk, hhalf, hcontent, htail, hbytes, hsize, _, hroom⟩ :=
    makeroom_half hfed.half align
  have hfed₁ := hfed.moved hhalf htail hsize
  have hneed : decide (r.io.q.cdx - r.io.q.beg < align) = true → fin < bufSize := by
    intro hlt
    have hlt := of_decide_eq_true hlt
    have hpart := hfed.tail
    exact hroom hlt (by unfold align bufSize at *; omega)
  obtain ⟨io, r', chunks', buf', cdx', fin', hfill, hdec, hfed', hq, hbytes'⟩ :=
    @refill_spec C o faults { r with io := ⟨reseal r.io.q buf beg cdx fin, r.io.sock⟩ } more chunks
      hfaults hfed₁.half hfed₁.cuts hfed₁.flight _ hneed
  have hq : r'.io.q = reseal r.io.q buf' beg cdx' fin' := hq
  have hopen : (openQ r'.io.q).content ++ chunks'.flatten =
      (openQ r.io.q).content ++ chunks.flatten := by
    rw [hbytes', ← hcontent]
    rfl
  have h₁ : AtHeader1 icrc32 rev upto (openIo r'.io) (chunks'.flatten ++ lost) msgs := by
    refine ⟨common_open h.toCommon hfed'.half ?_ ?_, ?_, ?_, ?_⟩
    · rw [hq]
      rfl
    · rw [hq]
      rfl
    · show r'.io.q.state = .header1
      rw [hq]
      exact h.state
    · show r'.io.q.msg = none
      rw [hq]
      exact h.msg
    · rw [stream_open, ← List.append_assoc, hopen, List.append_assoc]
      exact h.stream
  have hnone : r'.io.q.msg.isSome = false := by
    have hmsg : r'.io.q.msg = none := h₁.msg
    rw [hmsg]
    rfl
  have hrun : header1 C faults r =
      (if r'.io.q.msg.isSome then none
        else if r'.io.q.cdx - r'.io.q.beg < align then some (r', .brk false)
        else keep r' (header1Msg r'.io)) := by
    unfold header1
    simp only [hmk, Option.bind_eq_bind, Option.bind_some]
    have hfill : fillIf (decide (r.io.q.cdx - r.io.q.beg < align))
        ⟨reseal r.io.q buf beg cdx fin, r.io.sock⟩ (bufSize - fin) = some (io, false) := hfill
    have hdec : decryptChecked C faults { r with io } = some r' := hdec
    rw [hfill, Option.bind_some]
    dsimp only
    rw [if_neg Bool.false_ne_true, hdec]
    rfl
  rw [hrun, hnone, if_neg Bool.false_ne_true]
  split
  · rename_i hlt
    refine ⟨r', _, chunks', rfl, hfed', .inl ⟨rfl, h₁, fun hnil => ?_⟩⟩
    have hs := h₁.stream
    rw [stream_open, hnil, List.append_nil] at hs
    exact msgs_nil h₁.sent (by rw [Ioq.length_content]; exact hlt) hs
  · rename_i hge
    have hge := Nat.not_lt.mp hge
    cases msgs with
    | nil =>
        have hs := congrArg List.length h₁.stream
        rw [stream_open, List.length_append, Ioq.length_content] at hs
        have hz : r'.io.q.cdx - r'.io.q.beg = 0 := Nat.eq_zero_of_add_eq_zero_right hs
        exact absurd hge (by rw [hz]; decide)
    | cons m rest =>
        obtain ⟨r'', rx, hmsg, hfed'', h₂⟩ := header1Msg_half hfed' h₁ hge
        exact ⟨r'', _, chunks', hmsg, hfed'', .inr ⟨m, rest, rx, rfl, h₂, rfl⟩⟩

/-- Messages are in whole chunks. -/
theorem wires_mod : ∀ {msgs : List Msg} {seq : Nat}, SentFrom icrc32 rev upto seq msgs →
    (msgs.flatMap (wire rev)).length % align = 0
  | [], _, _ => rfl
  | m :: msgs, _, h => by
      have hrest := wires_mod h.2
      have hhdr : hdrSize m.head.cmd % align = 0 := Nat.mul_mod_left _ _
      have haux : doAlign m.auxSize % align = 0 := Nat.mul_mod_left _ _
      rw [List.flatMap_cons, List.length_append, h.1.length_wire]
      unfold align at *
      omega

theorem header2_half (hfaults : ∀ k, faults k = none) (hfed : Fed C o r more chunks)
    (hlost : lost.length % align = 0)
    (h : AtHeader2 icrc32 rev upto (openIo r.io) (chunks.flatten ++ lost) m rest rx) :
    ∃ r' rx' next chunks', header2 C faults icrc32 r (r.io.q.cdx - r.io.q.beg) (bufSize - r.io.q.fin) =
        some (r', next) ∧ Fed C o r' more chunks' ∧
      (next = .brk false ∧
        AtHeader2 icrc32 rev upto (openIo r'.io) (chunks'.flatten ++ lost) m rest rx' ∧
        (chunks'.flatten ++ lost = [] → False) ∨
      next = .brk true ∧
        AtEnd icrc32 rev upto (openIo r'.io) (chunks'.flatten ++ lost) m rest rx' ∨
      (∃ nmax, next = .fall (r'.io.q.cdx - r'.io.q.beg) nmax) ∧
        AtAux1 icrc32 rev upto (openIo r'.io) (chunks'.flatten ++ lost) m rest rx') := by
  have hneed : decide (r.io.q.cdx - r.io.q.beg < r.io.q.hbytes) = true → r.io.q.fin < bufSize := by
    intro hlt
    have hlt := of_decide_eq_true hlt
    -- The decrypted bytes are in whole chunks, and so is the header.
    have hwires := congrArg (fun bs => List.length bs % align) h.stream
    have hsized : r.io.q.hbytes = hdrSize m.head.cmd := h.sized.hbytes
    have hhdr : hdrSize m.head.cmd % align = 0 := Nat.mul_mod_left _ _
    have hroom : r.io.q.beg + r.io.q.hbytes ≤ bufSize := h.room
    have hbeg := hfed.half.beg
    have hcdx := hfed.half.cdx
    have htail := hfed.tail
    have hchunks := length_flatten hfed.flight.whole
    have hcontent : (openQ r.io.q).content.length = r.io.q.cdx - r.io.q.beg := Ioq.length_content
    simp only [stream_open, List.length_append, hcontent, wires_mod h.sent, hchunks] at hwires
    rw [hsized] at hlt hroom
    unfold align at *
    omega
  obtain ⟨io, r₁, chunks', buf, cdx, fin, hfill, hdec, hfed₁, hq, hbytes⟩ :=
    refill_spec hfaults hfed.half hfed.cuts hfed.flight hneed
  have h₁ : AtHeader2 icrc32 rev upto (openIo r₁.io) (chunks'.flatten ++ lost) m rest rx := by
    have hs := h.sized
    refine ⟨common_open h.toCommon hfed₁.half ?_ ?_, ?_, ?_, ?_, ?_, ?_⟩
    · rw [hq]
      rfl
    · rw [hq]
      rfl
    · show r₁.io.q.state = .header2
      rw [hq]
      exact h.state
    · show r₁.io.q.msg = some rx
      rw [hq]
      exact h.msg
    · have hopen : (openIo r₁.io).q = r.io.q.refifo buf r.io.q.beg cdx := congrArg openQ hq
      rw [hopen]
      exact ⟨hs.hbytes, hs.abytes, hs.unaligned, hs.hdrSize, hs.auxSize, hs.auxCap⟩
    · show r₁.io.q.beg + r₁.io.q.hbytes ≤ bufSize
      rw [hq]
      exact h.room
    · rw [stream_open, ← List.append_assoc, hbytes, List.append_assoc]
      exact h.stream
  have hmsg : r.io.q.msg = some rx := h.msg
  have hrun : header2 C faults icrc32 r (r.io.q.cdx - r.io.q.beg) (bufSize - r.io.q.fin) =
      (if r₁.io.q.cdx - r₁.io.q.beg < r₁.io.q.hbytes then some (r₁, .brk false)
        else keep r₁ (header2Msg icrc32 r₁.io rx (bufSize - r.io.q.fin))) := by
    unfold header2
    rw [hmsg, Option.bind_eq_bind, Option.bind_some, hfill, Option.bind_eq_bind, Option.bind_some]
    dsimp only
    rw [if_neg Bool.false_ne_true, hdec]
    rfl
  rw [hrun]
  split
  · rename_i hlt
    refine ⟨r₁, rx, _, chunks', rfl, hfed₁, .inl ⟨rfl, h₁, fun hnil => ?_⟩⟩
    -- The header has more bytes than there are.
    have hs := congrArg List.length h₁.stream
    rw [stream_open, hnil, List.append_nil, List.flatMap_cons, List.length_append,
      h₁.sent.1.length_wire, ← h₁.sized.hbytes, Ioq.length_content] at hs
    have hs : r₁.io.q.cdx - r₁.io.q.beg = r₁.io.q.hbytes + doAlign m.auxSize + _ := hs
    omega
  · rename_i hge
    obtain ⟨io', rx', next, hstep, hend⟩ :=
      header2Msg_spec h₁ (Nat.not_lt.mp hge) (bufSize - r.io.q.fin)
    have hplain : Plain io'.q := by
      rcases hend with ⟨_, hend⟩ | ⟨_, haux⟩
      · exact hend.plain
      · exact haux.plain
    obtain ⟨r₂, hkeep, hfed₂, hopen, hsize⟩ := hfed₁.carry
      (f := fun io => header2Msg icrc32 io rx (bufSize - r.io.q.fin)) hstep (header2Msg_keeps hstep)
      hplain (header2Msg_back hfed₁.half.open_plain hfed₁.half.cdx hfed₁.half.fin rx _)
    refine ⟨r₂, rx', next, chunks', hkeep, hfed₂, .inr ?_⟩
    rw [hopen]
    rcases hend with ⟨rfl, hend⟩ | ⟨rfl, haux⟩
    · exact .inl ⟨rfl, hend⟩
    · exact .inr ⟨⟨_, congrArg (Next.fall · _) hsize.symm⟩, haux⟩

theorem auxData1_half (hfed : Fed C o r more chunks)
    (h : AtAux1 icrc32 rev upto (openIo r.io) (chunks.flatten ++ lost) m rest rx) (nmax : Nat) :
    ∃ r' rx' k nmax', keep r (auxData1 r.io (r.io.q.cdx - r.io.q.beg) nmax) =
        some (r', .fall (r'.io.q.cdx - r'.io.q.beg) nmax') ∧ Fed C o r' more chunks ∧
      AtAux2 icrc32 rev upto (openIo r'.io) (chunks.flatten ++ lost) m rest rx' k := by
  obtain ⟨io', rx', k, next, hstep, ⟨nmax', rfl⟩, haux⟩ := auxData1_spec h nmax
  obtain ⟨r', hkeep, hfed', hopen, hsize⟩ := hfed.carry
    (f := fun io => auxData1 io (r.io.q.cdx - r.io.q.beg) nmax) hstep
    (auxData1_keeps hfed.half.open_plain hstep) haux.plain
    (auxData1_back hfed.half.open_plain hfed.half.cdx hfed.half.fin nmax)
  refine ⟨r', rx', k, nmax', ?_, hfed', ?_⟩
  · rw [hkeep, hsize]
  · rw [hopen]
    exact haux

/-- Some of the auxiliary data is copied. -/
theorem auxData2Copy_spec {io : Io} {later : List UInt8} {k : Nat}
    (hc : Common icrc32 rev upto io (m :: rest)) (hstate : io.q.state = .auxData2)
    (hheaded : Headed rev io.q m rx) (hsome : doAlign m.auxSize ≠ 0) (hsize : rx.auxSize = k)
    (hle : k ≤ doAlign m.auxSize) (hcopied : Memory.read rx.auxData 0 k = m.aux.take k)
    (hstream : io.stream later = m.aux.drop k ++ rest.flatMap (wire rev)) :
    ∃ io' rx' k' next, auxData2Copy icrc32 io rx = some (io', next) ∧
      (next = .brk false ∧ AtAux2 icrc32 rev upto io' later m rest rx' k' ∧
        (io.sock.pending ++ later = [] → False) ∨
      next = .brk true ∧ AtEnd icrc32 rev upto io' later m rest rx') := by
  have hsent := hc.sent.1
  have hp := hc.plain
  let n := min (io.q.fin - io.q.beg) (doAlign m.auxSize - k)
  have hn : n ≤ io.q.fin - io.q.beg := Nat.min_le_left ..
  have hkn : k + n ≤ doAlign m.auxSize := by
    have hadd := Nat.add_le_add_left
      (Nat.min_le_right (io.q.fin - io.q.beg) (doAlign m.auxSize - k)) k
    rwa [Nat.add_sub_cancel' hle] at hadd
  obtain ⟨data, hcopy, hcopied', hrest⟩ := @bcopy_spec rev m rest rx io.q k n hsent.aux
    hheaded.auxCap hp.fin hn hkn hcopied _ hstream
  let rx' : RxMsg := { rx with auxData := data, auxSize := rx.auxSize + n }
  have hsize' : rx.auxSize + n = k + n := by rw [hsize]
  let q' : Ioq := { io.q with msg := some rx', beg := io.q.beg + n }
  have hp' : Plain q' := by
    refine ⟨hp.cdx, hp.cdn, ?_, hp.fin⟩
    have hadd := Nat.add_le_add_left hn io.q.beg
    rwa [Nat.add_sub_cancel' hp.beg] at hadd
  have h₂ : AtAux2 icrc32 rev upto ⟨q', io.sock⟩ later m rest rx' (k + n) := by
    refine ⟨⟨hp', hc.error, hc.sent, hc.cuts⟩, hstate, rfl, ?_, hsome, hsize', hkn, hcopied',
      fun hlt => ?_, hrest⟩
    · exact ⟨hheaded.abytes, hheaded.unaligned, hheaded.auxCap, hheaded.head, hheaded.ext⟩
    · show io.q.beg + n = io.q.fin
      have hbeg := hp.beg
      omega
  have hmin : min (io.q.cdx - io.q.beg) (io.q.abytes - rx.auxSize) = n := by
    rw [hp.cdx, hheaded.abytes, hsize]
  have hcopy : rx.bcopy io.q rx.auxSize n = some { rx with auxData := data } :=
    (congrArg (rx.bcopy _ · n) hsize).trans hcopy
  have hrun : auxData2Copy icrc32 io rx =
      (if k + n < io.q.abytes then some (⟨q', io.sock⟩, .brk false)
        else if k + n ≠ io.q.abytes then none else auxData2Msg icrc32 ⟨q', io.sock⟩ rx') := by
    unfold auxData2Copy
    dsimp only
    rw [hmin, hcopy]
    show q'.checked.bind _ = _
    rw [hp'.checked]
    show (if rx.auxSize + n < io.q.abytes then _ else if rx.auxSize + n ≠ io.q.abytes then _ else _) = _
    rw [hsize']
    rfl
  rw [hrun]
  split
  · rename_i hlt
    refine ⟨_, rx', k + n, _, rfl, .inl ⟨rfl, h₂, fun hnil => ?_⟩⟩
    -- More of the auxiliary data is to come.
    have hlen := congrArg List.length h₂.stream
    rw [Io.stream, hnil, List.append_nil, Ioq.length_content, List.length_append, List.length_drop,
      hsent.aux] at hlen
    rw [hheaded.abytes] at hlt
    have hempty : q'.beg = q'.fin := h₂.empty hlt
    rw [hempty, Nat.sub_self] at hlen
    omega
  · rename_i hge
    rw [hheaded.abytes] at hge
    have hkn : k + n = doAlign m.auxSize := Nat.le_antisymm hkn (Nat.not_lt.mp hge)
    rw [hkn] at h₂
    obtain ⟨io', rx'', hmsg, hend⟩ := auxData2Msg_spec h₂
    refine ⟨io', rx'', k + n, _, ?_, .inr ⟨rfl, hend⟩⟩
    rw [if_neg fun hne => hne (hkn.trans hheaded.abytes.symm)]
    exact hmsg

theorem auxData2_half (hfaults : ∀ k, faults k = none) (hfed : Fed C o r more chunks) {k : Nat}
    (h : AtAux2 icrc32 rev upto (openIo r.io) (chunks.flatten ++ lost) m rest rx k) {bytes : Nat}
    (hbytes : k < doAlign m.auxSize → bytes = 0) : ∃ r' rx' k' next chunks',
    auxData2 C faults icrc32 r bytes = some (r', next) ∧ Fed C o r' more chunks' ∧
      (next = .brk false ∧
        AtAux2 icrc32 rev upto (openIo r'.io) (chunks'.flatten ++ lost) m rest rx' k' ∧
        (chunks'.flatten ++ lost = [] → False) ∨
      next = .brk true ∧
        AtEnd icrc32 rev upto (openIo r'.io) (chunks'.flatten ++ lost) m rest rx') := by
  have habytes : r.io.q.abytes = doAlign m.auxSize := h.headed.abytes
  have hmsg : r.io.q.msg = some rx := h.msg
  obtain ⟨buf, beg, cdx, fin, hmk, hhalf, hcontent, htail, hsame, hsize, _, hroom⟩ :=
    makeroom_half hfed.half (r.io.q.abytes - rx.auxSize)
  have hfed₁ := hfed.moved hhalf htail hsize
  have hneed : decide (rx.auxSize < r.io.q.abytes) = true → fin < bufSize := by
    intro hlt
    have hlt := of_decide_eq_true hlt
    have hempty : r.io.q.beg = r.io.q.cdx := h.empty (by rwa [← h.auxSize, ← habytes])
    have hpart := hfed.tail
    rw [hempty, Nat.sub_self] at hroom
    exact hroom (Nat.sub_pos_of_lt hlt) (by unfold align bufSize at *; omega)
  obtain ⟨io, r₁, chunks', buf', cdx', fin', hfill, hdec, hfed₂, hq, hbytes'⟩ :=
    @refill_spec C o faults { r with io := ⟨reseal r.io.q buf beg cdx fin, r.io.sock⟩ } more chunks
      hfaults hfed₁.half hfed₁.cuts hfed₁.flight _ hneed
  have hq : r₁.io.q = reseal r.io.q buf' beg cdx' fin' := hq
  have hopen : (openQ r₁.io.q).content ++ chunks'.flatten =
      (openQ r.io.q).content ++ chunks.flatten := by
    rw [hbytes', ← hcontent]
    rfl
  have hopenq : (openIo r₁.io).q = r.io.q.refifo buf' beg cdx' := congrArg openQ hq
  have hstream : (openIo r₁.io).stream (chunks'.flatten ++ lost) =
      m.aux.drop k ++ rest.flatMap (wire rev) := by
    rw [stream_open, ← List.append_assoc, hopen, List.append_assoc]
    exact h.stream
  have hcommon : Common icrc32 rev upto (openIo r₁.io) (m :: rest) := by
    refine common_open h.toCommon hfed₂.half ?_ ?_
    · rw [hq]
      rfl
    · rw [hq]
      rfl
  have hheaded : Headed rev (openIo r₁.io).q m rx := by
    rw [hopenq]
    exact ⟨h.headed.abytes, h.headed.unaligned, h.headed.auxCap, h.headed.head, h.headed.ext⟩
  have hstate : (openIo r₁.io).q.state = .auxData2 := by
    rw [hopenq]
    exact h.state
  obtain ⟨io', rx', k', next, hstep, hend⟩ := auxData2Copy_spec hcommon hstate hheaded h.some h.auxSize
    h.le h.copied hstream
  have hplain : Plain io'.q := by
    rcases hend with ⟨_, haux, _⟩ | ⟨_, hend⟩
    · exact haux.plain
    · exact hend.plain
  obtain ⟨r₂, hkeep, hfed₃, hopen₂, _⟩ := hfed₂.carry (f := fun io => auxData2Copy icrc32 io rx)
    hstep (auxData2Copy_keeps hstep) hplain
    (auxData2Copy_back hfed₂.half.open_plain hfed₂.half.cdx hfed₂.half.fin rx)
  have hzero : ¬ (rx.auxSize < r.io.q.abytes ∧ bytes ≠ 0) := by
    rw [h.auxSize, habytes]
    exact fun hlt => hlt.2 (hbytes hlt.1)
  refine ⟨r₂, rx', k', next, chunks', ?_, hfed₃, ?_⟩
  · unfold auxData2
    rw [hmsg, Option.bind_eq_bind, Option.bind_some, hmk, Option.bind_eq_bind, Option.bind_some]
    have hfill : fillIf (decide (rx.auxSize < r.io.q.abytes))
        ⟨reseal r.io.q buf beg cdx fin, r.io.sock⟩ (bufSize - fin) = some (io, false) := hfill
    have hdec : decryptChecked C faults { r with io } = some r₁ := hdec
    show (if rx.auxSize < r.io.q.abytes ∧ bytes ≠ 0 then _ else _) = _
    rw [if_neg hzero]
    show (fillIf (decide (rx.auxSize < r.io.q.abytes)) ⟨reseal r.io.q buf beg cdx fin, r.io.sock⟩
      (bufSize - fin)).bind _ = _
    rw [hfill, Option.bind_some]
    dsimp only
    rw [if_neg Bool.false_ne_true, hdec, Option.bind_eq_bind, Option.bind_some]
    exact hkeep
  · rw [hopen₂]
    exact hend

/-! ## One call -/

/-- The message goes on to state processing. -/
theorem finish_half (hfed : Fed C o r more chunks)
    (h : AtEnd icrc32 rev upto (openIo r.io) (chunks.flatten ++ lost) m rest rx) : ∃ r',
    finish r true = some (r', .handed (delivered rev m)) ∧ Fed C o r' more chunks ∧
      AtHeader1 icrc32 rev upto (openIo r'.io) (chunks.flatten ++ lost) rest ∧
      Settled (openIo r'.io) (chunks.flatten ++ lost) rest := by
  have hsent := h.sent.1
  have hmsg : r.io.q.msg = some rx := h.msg
  have herror : r.io.q.error = 0 := h.error
  have hwhole := h.whole
  have hh := hfed.half
  have hnext : SentFrom icrc32 rev upto (r.io.q.seq + 1) rest := h.sent.2
  have hsalt : ¬ (rx.head.salt &&& 255#32 ≠ BitVec.ofNat 32 r.io.q.seq &&& 255#32) := by
    have hhead : rx.head.salt = m.head.salt := by
      have hhead := congrArg (·.head.salt) hwhole
      refine hhead.trans ?_
      cases rev <;> rfl
    have hseq : m.head.salt &&& 255#32 = BitVec.ofNat 32 r.io.q.seq &&& 255#32 := hsent.salt
    rw [hhead, hseq]
    exact fun hne => hne rfl
  unfold finish complete
  simp only [hmsg, herror, hsalt, and_self, if_true, if_false, ne_eq, not_true_eq_false]
  rw [hwhole]
  refine ⟨_, rfl, ?_⟩
  split
  · rename_i hempty
    obtain ⟨hbeg, hend⟩ := hempty
    have hbeg : r.io.q.beg = r.io.q.cdx := hbeg
    have hend : r.io.q.cdn = r.io.q.fin := hend
    have hnil : (openQ r.io.q).content = [] := by
      refine List.eq_nil_of_length_eq_zero ?_
      rw [Ioq.length_content]
      show r.io.q.cdx - r.io.q.beg = 0
      rw [hbeg, Nat.sub_self]
    have htail : Crypt.tail r.io.q = [] := by
      refine List.eq_nil_of_length_eq_zero ?_
      rw [length_tail, ← hend, hh.cdn, Nat.sub_self]
    have hs := h.stream
    rw [stream_open, hnil, List.nil_append] at hs
    have hraw := hfed.flight.raw
    rw [htail] at hraw
    refine ⟨⟨⟨rfl, Nat.le_refl _, Nat.le_refl _, Nat.zero_le _⟩, by show (0 : Nat) < 64; decide,
      hfed.cuts, hfed.flight.past, hfed.flight.whole, hraw, hfed.flight.ivs⟩, ⟨⟨⟨rfl, rfl, Nat.le_refl _,
      Nat.zero_le _⟩, rfl, hnext, fun _ hc => absurd hc List.not_mem_nil⟩, rfl, rfl, hs⟩,
      fun _ _ hl => ?_⟩
    rw [hl] at hs
    exact msgs_nil hnext (by decide) hs
  · refine ⟨⟨⟨hh.cdn, hh.beg, hh.cdx, hh.fin⟩, hfed.tail, hfed.cuts, hfed.flight.past, hfed.flight.whole,
      hfed.flight.raw, hfed.flight.ivs⟩, ⟨⟨⟨rfl, rfl, hh.beg, Nat.le_trans hh.cdx hh.fin⟩, rfl,
      hnext, fun _ hc => absurd hc List.not_mem_nil⟩, rfl, rfl, h.stream⟩, fun hw => ?_⟩
    exact absurd hw Bool.noConfusion

/-- What a call comes to, and what is left of the chunks. -/
def Comes (C : Cipher UInt8 align) (o : Stream) (icrc32 : List UInt8 → BitVec 32) (rev : Bool) (upto : Nat)
    (more lost : List UInt8) (msgs : List Msg) (res : Option (Rx × Result)) : Prop :=
  ∃ r' result chunks', res = some (r', result) ∧ Fed C o r' more chunks' ∧
    Outcome icrc32 rev upto (openIo r'.io) (chunks'.flatten ++ lost) result msgs

theorem finish_comes (hfed : Fed C o r more chunks)
    (h : AtEnd icrc32 rev upto (openIo r.io) (chunks.flatten ++ lost) m rest rx) :
    Comes C o icrc32 rev upto more lost (m :: rest) (finish r true) := by
  obtain ⟨r', hfin, hfed', h₁, hs⟩ := finish_half hfed h
  exact ⟨r', _, chunks, hfin, hfed', .handed (.header1 h₁) hs⟩

theorem wait_comes (hfed : Fed C o r more chunks)
    (h : Expect icrc32 rev upto (openIo r.io) (chunks.flatten ++ lost) msgs)
    (hs : chunks.flatten ++ lost = [] → msgs = []) :
    Comes C o icrc32 rev upto more lost msgs (finish r false) := by
  have herror : r.io.q.error = 0 := h.common.error
  let q' : Ioq := { r.io.q with rreq := true }
  have hh := hfed.half
  refine ⟨{ r with io := ⟨q', r.io.sock⟩ }, .wait, chunks, ?_, ?_, .wait ?_ fun _ _ => hs⟩
  · rw [finish, complete_wait herror]
    rfl
  · exact ⟨⟨hh.cdn, hh.beg, hh.cdx, hh.fin⟩, hfed.tail, hfed.cuts, hfed.flight.past, hfed.flight.whole,
      hfed.flight.raw, hfed.flight.ivs⟩
  · exact h.congr true r.io.q.rwork rfl h.common.cuts

theorem runAux2_half (hfaults : ∀ k, faults k = none) (hfed : Fed C o r more chunks) {k bytes : Nat}
    (h : AtAux2 icrc32 rev upto (openIo r.io) (chunks.flatten ++ lost) m rest rx k)
    (hbytes : k < doAlign m.auxSize → bytes = 0) :
    Comes C o icrc32 rev upto more lost (m :: rest) (runAux2 C faults icrc32 r bytes) := by
  obtain ⟨r₁, rx₁, k₁, next, chunks₁, haux, hfed₁, ⟨rfl, h₁, hs⟩ | ⟨rfl, h₁⟩⟩ :=
    auxData2_half hfaults hfed h hbytes
  · rw [runAux2, haux]
    exact wait_comes hfed₁ (.aux2 rx₁ k₁ h₁) fun hnil => (hs hnil).elim
  · rw [runAux2, haux]
    exact finish_comes hfed₁ h₁

theorem runAux1_half (hfaults : ∀ k, faults k = none) (hfed : Fed C o r more chunks)
    (h : AtAux1 icrc32 rev upto (openIo r.io) (chunks.flatten ++ lost) m rest rx) (nmax : Nat) :
    Comes C o icrc32 rev upto more lost (m :: rest)
      (runAux1 C faults icrc32 r (r.io.q.cdx - r.io.q.beg) nmax) := by
  obtain ⟨r₁, rx₁, k₁, nmax₁, haux, hfed₁, h₁⟩ := auxData1_half hfed h nmax
  rw [runAux1, haux]
  exact runAux2_half hfaults hfed₁ h₁ fun hlt => h₁.bytes_zero hlt

theorem runHeader2_half (hfaults : ∀ k, faults k = none) (hfed : Fed C o r more chunks)
    (hlost : lost.length % align = 0)
    (h : AtHeader2 icrc32 rev upto (openIo r.io) (chunks.flatten ++ lost) m rest rx) :
    Comes C o icrc32 rev upto more lost (m :: rest)
      (runHeader2 C faults icrc32 r (r.io.q.cdx - r.io.q.beg) (bufSize - r.io.q.fin)) := by
  obtain ⟨r₁, rx₁, next, chunks₁, hh, hfed₁, ⟨rfl, h₁, hs⟩ | ⟨rfl, h₁⟩ | ⟨⟨nmax, rfl⟩, h₁⟩⟩ :=
    header2_half hfaults hfed hlost h
  · rw [runHeader2, hh]
    exact wait_comes hfed₁ (.header2 rx₁ h₁) fun hnil => (hs hnil).elim
  · rw [runHeader2, hh]
    exact finish_comes hfed₁ h₁
  · rw [runHeader2, hh]
    exact runAux1_half hfaults hfed₁ h₁ nmax

theorem runHeader1_half (hfaults : ∀ k, faults k = none) (hfed : Fed C o r more chunks)
    (hlost : lost.length % align = 0)
    (h : AtHeader1 icrc32 rev upto (openIo r.io) (chunks.flatten ++ lost) msgs) :
    Comes C o icrc32 rev upto more lost msgs (runHeader1 C faults icrc32 r) := by
  obtain ⟨r₁, next, chunks₁, hh, hfed₁, ⟨rfl, h₁, hs⟩ | ⟨m, rest, rx, rfl, h₁, rfl⟩⟩ :=
    header1_half hfaults hfed h
  · rw [runHeader1, hh]
    exact wait_comes hfed₁ (.header1 h₁) hs
  · rw [runHeader1, hh]
    exact runHeader2_half hfaults hfed₁ hlost h₁

/-- Without an error a call goes on with what the queue is at. -/
theorem ioqRead_call {r₁ : Rx}
    (hr : r₁ = ⟨⟨{ r.io.q with rreq := false, rwork := false }, r.io.sock⟩, r.iv, 0⟩)
    (herror : r₁.io.q.error = 0) : ioqRead C faults icrc32 r =
      match r₁.io.q.state with
      | .header1 => runHeader1 C faults icrc32 r₁
      | .header2 => runHeader2 C faults icrc32 r₁ (r₁.io.q.cdx - r₁.io.q.beg)
          (bufSize - r₁.io.q.fin)
      | .auxData1 => runAux1 C faults icrc32 r₁ (r₁.io.q.cdx - r₁.io.q.beg) (bufSize - r₁.io.q.fin)
      | .auxData2 => runAux2 C faults icrc32 r₁ (r₁.io.q.cdx - r₁.io.q.beg)
      | .error => if r₁.io.q.msg.isSome then none else finish r₁ false := by
  subst hr
  exact if_neg fun hne => hne herror

/-- **One call.**  It delivers the next message or waits for more. -/
theorem ioqRead_half (hfaults : ∀ k, faults k = none) (hfed : Fed C o r more chunks)
    (hlost : lost.length % align = 0)
    (h : Expect icrc32 rev upto (openIo r.io) (chunks.flatten ++ lost) msgs) :
    Comes C o icrc32 rev upto more lost msgs (ioqRead C faults icrc32 r) := by
  let r₁ : Rx := ⟨⟨{ r.io.q with rreq := false, rwork := false }, r.io.sock⟩, r.iv, 0⟩
  have hh := hfed.half
  have hfed₁ : Fed C o r₁ more chunks := ⟨⟨hh.cdn, hh.beg, hh.cdx, hh.fin⟩, hfed.tail, hfed.cuts,
    hfed.flight.past, hfed.flight.whole, hfed.flight.raw, hfed.flight.ivs⟩
  have h₁ : Expect icrc32 rev upto (openIo r₁.io) (chunks.flatten ++ lost) msgs :=
    h.congr false false rfl h.common.cuts
  have herror : r₁.io.q.error = 0 := h₁.common.error
  rw [ioqRead_call rfl herror]
  cases h₁ with
  | header1 h₁ =>
      have hstate : r₁.io.q.state = .header1 := h₁.state
      rw [hstate]
      exact runHeader1_half hfaults hfed₁ hlost h₁
  | header2 rx h₁ =>
      have hstate : r₁.io.q.state = .header2 := h₁.state
      rw [hstate]
      exact runHeader2_half hfaults hfed₁ hlost h₁
  | aux2 rx k h₁ =>
      have hstate : r₁.io.q.state = .auxData2 := h₁.state
      rw [hstate]
      exact runAux2_half hfaults hfed₁ h₁ fun hlt => h₁.bytes_zero hlt

end Receive

end Hammer2.Dmsg.Crypt
