/-
# `Hammer2.Dmsg.Seal` — what the sender stages and writes

    encryptAll_spec    the chunks that fit go to the FIFO, enciphered
    flush2_spec        what is written, and what is left

A chunk whose encryption fails is taken from its message and does not go to the FIFO.  If it is
the last one that is offered, nothing that comes after it does either.
-/
import Hammer2.Dmsg.Crypt
import Hammer2.Dmsg.Expect

namespace Hammer2.Dmsg.Crypt

open Chunked

section Stage

variable {C : Cipher UInt8 align} {faults : Faults}

/-- The loops of `dmsg_crypto_encrypt`, over the chunks of all entries. -/
def encryptAll (C : Cipher UInt8 align) (faults : Faults) :
    List (List UInt8) → TxIoq → Nat → Nat → Option (TxIoq × Nat × Nat)
  | [], t, nmax, nact => some (t, nmax, nact)
  | x :: xs, t, nmax, nact =>
      if nmax ≥ align then do
        let (t, used) ← encryptChunk C faults t t.cdx x
        encryptAll C faults xs { t with cdx := t.cdx + used, cdn := t.cdn + used, fin := t.fin + used }
          (nmax - used) (nact + align)
      else some (t, nmax, nact)

theorem encryptEntry_eq : ∀ (n : Nat) (pt : List UInt8) (t : TxIoq) (nmax nact : Nat),
    encryptEntry C faults n pt t nmax nact = encryptAll C faults (toChunks align n pt) t nmax nact
  | 0, _, _, _, _ => rfl
  | n + 1, pt, t, nmax, nact => by
      rw [encryptEntry, toChunks, encryptAll]
      split
      · cases encryptChunk C faults t t.cdx (pt.take align) with
        | none => rfl
        | some p => exact encryptEntry_eq n (pt.drop align) _ _ _
      · rfl

/-- Without room, nothing more is staged. -/
theorem encryptAll_full {nmax : Nat} (h : nmax < align) (xs : List (List UInt8)) (t : TxIoq)
    (nact : Nat) : encryptAll C faults xs t nmax nact = some (t, nmax, nact) := by
  cases xs with
  | nil => rfl
  | cons x xs => exact if_neg (Nat.not_le.mpr h)

theorem encryptAll_append (ys : List (List UInt8)) :
    ∀ (xs : List (List UInt8)) (t : TxIoq) (nmax nact : Nat),
    encryptAll C faults (xs ++ ys) t nmax nact =
      (encryptAll C faults xs t nmax nact).bind fun p => encryptAll C faults ys p.1 p.2.1 p.2.2
  | [], _, _, _ => rfl
  | x :: xs, t, nmax, nact => by
      rw [List.cons_append, encryptAll, encryptAll]
      split
      · cases encryptChunk C faults t t.cdx x with
        | none => rfl
        | some p => exact encryptAll_append ys xs _ _ _
      · rename_i hfull
        exact (encryptAll_full (Nat.not_le.mp hfull) ys t nact).symm

/-- The entries of an `iovec` in chunks. -/
def chunksOf (iov : List (List UInt8)) : List (List UInt8) :=
  iov.flatMap fun entry => toChunks align (entry.length / align) entry

/-- Every entry is in whole chunks. -/
def Aligned (iov : List (List UInt8)) : Prop := ∀ entry ∈ iov, entry.length % align = 0

theorem Aligned.tail {entry : List UInt8} {iov : List (List UInt8)} (h : Aligned (entry :: iov)) :
    Aligned iov := fun e he => h e (List.mem_cons_of_mem entry he)

theorem encryptIov_eq : ∀ {iov : List (List UInt8)} (t : TxIoq) (nmax nact : Nat), Aligned iov →
    encryptIov C faults iov t nmax nact =
      (encryptAll C faults (chunksOf iov) t nmax nact).map fun p => (p.1, p.2.2)
  | [], _, _, _, _ => rfl
  | entry :: iov, t, nmax, nact, h => by
      have hentry := h entry List.mem_cons_self
      rw [encryptIov]
      split
      · rename_i hz
        have hfull : nmax < align := by
          rw [hz]
          decide
        rw [encryptAll_full hfull]
        rfl
      · rw [if_neg (not_not.mpr hentry), encryptEntry_eq, chunksOf, List.flatMap_cons,
          encryptAll_append]
        cases encryptAll C faults (toChunks align (entry.length / align) entry) t nmax nact with
        | none => rfl
        | some p => exact encryptIov_eq p.1 p.2.1 p.2.2 h.tail

theorem chunksOf_whole {iov : List (List UInt8)} : Whole align (chunksOf iov) := by
  intro x hx
  obtain ⟨entry, _, hx⟩ := List.mem_flatMap.mp hx
  exact whole_toChunks (Nat.mul_div_le _ _) x hx

theorem chunksOf_flatten : ∀ {iov : List (List UInt8)}, Aligned iov →
    (chunksOf iov).flatten = iov.flatten
  | [], _ => rfl
  | entry :: iov, h => by
      rw [chunksOf, List.flatMap_cons, List.flatten_append, List.flatten_cons,
        flatten_toChunks_div (h entry List.mem_cons_self)]
      exact congrArg (entry ++ ·) (chunksOf_flatten h.tail)

/-! ## Staging -/

/-- Everything in the FIFO is encrypted. -/
structure TxIoq.Staged (t : TxIoq) : Prop where
  cdx : t.cdx = t.fin
  cdn : t.cdn = t.fin
  beg : t.beg ≤ t.fin
  fin : t.fin ≤ bufSize

/-- What is staged and not written. -/
def TxIoq.raw (t : TxIoq) : List UInt8 := Memory.read t.buf t.beg (t.fin - t.beg)

theorem TxIoq.Staged.ordered {t : TxIoq} (h : t.Staged) : t.Ordered := by
  refine ⟨?_, ?_, ?_, h.fin⟩
  · rw [h.cdx]
    exact h.beg
  · rw [h.cdx, h.cdn]
  · rw [h.cdn]

/-- How many chunks are staged, if none of them fails. -/
def room (xs : List (List UInt8)) (nmax : Nat) : Nat := min xs.length (nmax / align)

/-- A chunk whose encryption fails is the last one offered. -/
def LastFails (faults : Faults) (xs : List (List UInt8)) (nmax iv ops : Nat) : Prop :=
  ∀ k < room xs nmax, k + 1 < xs.length → faults (ops + k) = none ∧ iv + k + 1 < 2 ^ 64

theorem room_cons {x : List UInt8} {xs : List (List UInt8)} {nmax : Nat} (h : align ≤ nmax) :
    room (x :: xs) nmax = room xs (nmax - align) + 1 := by
  have hdiv : nmax / align = (nmax - align) / align + 1 := Nat.div_eq_sub_div (by decide) h
  unfold room
  rw [List.length_cons, hdiv]
  omega

theorem LastFails.next {x : List UInt8} {xs : List (List UInt8)} {nmax iv ops : Nat}
    (h : LastFails faults (x :: xs) nmax iv ops) (hroom : align ≤ nmax) :
    LastFails faults xs (nmax - align) (iv + 1) (ops + 1) := by
  intro k hk hlast
  obtain ⟨hfault, hiv⟩ := h (k + 1) (by rw [room_cons hroom]; omega)
    (by rw [List.length_cons]; omega)
  rw [Nat.add_assoc, Nat.add_comm 1 k]
  exact ⟨hfault, by omega⟩

/-- A chunk that fails is the last one. -/
theorem LastFails.nil {x : List UInt8} {xs : List (List UInt8)} {nmax iv ops : Nat}
    (h : LastFails faults (x :: xs) nmax iv ops) (hroom : align ≤ nmax)
    (hfail : faults ops ≠ none ∨ ¬ iv + 1 < 2 ^ 64) : xs = [] := by
  cases xs with
  | nil => rfl
  | cons y ys =>
      obtain ⟨hfault, hiv⟩ := h 0 (by rw [room_cons hroom]; omega)
        (by rw [List.length_cons, List.length_cons]; omega)
      rcases hfail with hne | hge
      · exact absurd hfault hne
      · exact absurd hiv hge

/-- What comes of staging `xs` with the room `nmax`: `done` chunks are staged. -/
structure Stages (C : Cipher UInt8 align) (xs : List (List UInt8)) (nmax : Nat) (t t' : TxIoq)
    (done : Nat) : Prop where
  q : t'.q = t.q
  beg : t'.beg = t.beg
  staged : t'.Staged
  fin : t'.fin = t.fin + align * done
  raw : t'.raw = t.raw ++ sealAll C t.iv (xs.take done)
  ivs : t.iv + done < 2 ^ 64
  le : done ≤ room xs nmax
  fine : t'.error = t.error ∧ t'.iv = t.iv + done ∧ done = room xs nmax ∨ t'.error ≠ 0

theorem encryptAll_spec : ∀ (xs : List (List UInt8)) (t : TxIoq) (nmax nact : Nat), Whole align xs →
    t.Staged → t.fin + nmax = bufSize → t.iv < 2 ^ 64 → LastFails faults xs nmax t.iv t.ops →
    ∃ t' nmax' done, encryptAll C faults xs t nmax nact =
      some (t', nmax', nact + align * room xs nmax) ∧ Stages C xs nmax t t' done
  | [], t, nmax, nact, _, ht, _, hiv, _ => by
      have hroom : room [] nmax = 0 := Nat.zero_min _
      refine ⟨t, nmax, 0, ?_, ⟨rfl, rfl, ht, rfl, ?_, hiv, Nat.zero_le _, ?_⟩⟩
      · rw [hroom]
        rfl
      · exact (List.append_nil _).symm
      · exact .inl ⟨rfl, rfl, hroom.symm⟩
  | x :: xs, t, nmax, nact, hwhole, ht, hfin, hiv, hlast => by
      rcases Nat.lt_or_ge nmax align with hfull | hge
      · have hroom : room (x :: xs) nmax = 0 := by
          unfold room
          rw [Nat.div_eq_of_lt hfull]
          exact Nat.min_zero _
        refine ⟨t, nmax, 0, ?_, ⟨rfl, rfl, ht, rfl, ?_, hiv, Nat.zero_le _, ?_⟩⟩
        · rw [encryptAll_full hfull, hroom]
          rfl
        · exact (List.append_nil _).symm
        · exact .inl ⟨rfl, rfl, hroom.symm⟩
      · have hroom := @room_cons x xs nmax hge
        have hfits : ¬ t.cdx + align > bufSize := by
          rw [ht.cdx]
          omega
        rw [encryptAll, if_pos hge, encryptChunk, if_neg hfits]
        -- A failing chunk leaves the FIFO as it is.
        have hfail : ∀ (buf : Nat → UInt8) (iv error : Nat), xs = [] → error ≠ 0 →
            Memory.read buf t.beg (t.fin - t.beg) = t.raw → ∃ t' nmax' done,
            encryptAll C faults xs { t with
              buf, iv, error, ops := t.ops + 1, cdx := t.cdx + 0, cdn := t.cdn + 0, fin := t.fin + 0 }
              (nmax - 0) (nact + align) = some (t', nmax', nact + align * room (x :: xs) nmax) ∧
            Stages C (x :: xs) nmax t t' done := by
          rintro buf iv error rfl herror hraw
          have hone : room [x] nmax = 1 := hroom
          refine ⟨{ t with buf, iv, error, ops := t.ops + 1 }, nmax, 0, ?_,
            ⟨rfl, rfl, ⟨ht.cdx, ht.cdn, ht.beg, ht.fin⟩, rfl, ?_, hiv, Nat.zero_le _, .inr herror⟩⟩
          · rw [hone]
            rfl
          · exact hraw.trans (List.append_nil _).symm
        cases hfault : faults t.ops with
        | some f =>
            have hnil := hlast.nil hge (.inl (by rw [hfault]; exact Option.some_ne_none f))
            exact hfail t.buf t.iv ioqErrorAlgo hnil (by decide) rfl
        | none =>
            have hlen := C.length_enc t.iv x hwhole.head
            dsimp only
            split
            · rename_i hwrap
              have hnil := hlast.nil hge (.inr fun hlt => by rw [Nat.mod_eq_of_lt hlt] at hwrap; omega)
              refine hfail _ 0 ioqErrorIvwrap hnil (by decide) ?_
              refine Memory.read_write_of_disjoint (.inl ?_)
              rw [ht.cdx]
              have hbeg := ht.beg
              omega
            · rename_i hwrap
              have hlt : t.iv + 1 < 2 ^ 64 := by
                rcases Nat.lt_or_ge (t.iv + 1) (2 ^ 64) with hlt | hge
                · exact hlt
                · have heq : t.iv + 1 = 2 ^ 64 := Nat.le_antisymm hiv hge
                  rw [heq, Nat.mod_self] at hwrap
                  exact absurd rfl hwrap
              let t₁ : TxIoq := { t with
                buf := Memory.write t.buf t.cdx (C.enc t.iv x)
                ops := t.ops + 1
                iv := t.iv + 1
                cdx := t.cdx + align
                cdn := t.cdn + align
                fin := t.fin + align }
              have hbeg := ht.beg
              have ht₁ : t₁.Staged := by
                refine ⟨congrArg (· + align) ht.cdx, congrArg (· + align) ht.cdn, ?_, ?_⟩
                · exact Nat.le_trans hbeg (Nat.le_add_right _ _)
                · show t.fin + align ≤ bufSize
                  omega
              have hraw : t₁.raw = t.raw ++ C.enc t.iv x := by
                have hsplit : t.fin + align - t.beg = t.fin - t.beg + align := by omega
                have hend : t.beg + (t.fin - t.beg) = t.fin := Nat.add_sub_cancel' hbeg
                show Memory.read (Memory.write t.buf t.cdx (C.enc t.iv x)) t.beg
                  (t.fin + align - t.beg) = _
                rw [hsplit, Memory.read_add, hend, ht.cdx]
                have hread := Memory.read_write t.buf t.fin (C.enc t.iv x)
                rw [hlen] at hread
                rw [hread, Memory.read_write_of_disjoint (.inl (by omega))]
                rfl
              obtain ⟨t', nmax', done, heq, hs⟩ := encryptAll_spec xs t₁ (nmax - align) (nact + align)
                hwhole.tail ht₁ (by show t.fin + align + (nmax - align) = bufSize; omega) hlt
                (hlast.next hge)
              refine ⟨t', nmax', done + 1, ?_, hs.q, hs.beg, hs.staged, ?_, ?_, ?_, ?_, ?_⟩
              · rw [hroom, Nat.mul_succ, Nat.add_comm (align * _), ← Nat.add_assoc]
                exact heq
              · rw [hs.fin, Nat.mul_succ, Nat.add_comm (align * done), ← Nat.add_assoc]
              · rw [hs.raw, hraw, List.append_assoc]
                rfl
              · have hivs : t.iv + 1 + done < 2 ^ 64 := hs.ivs
                omega
              · rw [hroom]
                exact Nat.succ_le_succ hs.le
              · rcases hs.fine with ⟨herror, hiv', hdone⟩ | herror
                · refine .inl ⟨herror, ?_, ?_⟩
                  · have hiv' : t'.iv = t.iv + 1 + done := hiv'
                    omega
                  · rw [hroom, hdone]
                · exact .inr herror

end Stage

/-! ## What is offered and what is taken -/

section Offer

variable {rev : Bool}

theorem hdrSize_mod (cmd : BitVec 32) : hdrSize cmd % align = 0 := Nat.mul_mod_left _ _

theorem doAlign_mod (n : Nat) : doAlign n % align = 0 := Nat.mul_mod_left _ _

theorem entries_aligned {part : List UInt8} {off : Nat} {tail : Nat → Option (List (List UInt8))}
    (hpart : part.length % align = 0) (hoff : off % align = 0)
    (htail : ∀ k iov, tail k = some iov → Aligned iov) (iovcnt : Nat) {iov : List (List UInt8)}
    (h : entries part off tail iovcnt = some iov) : Aligned iov := by
  unfold entries at h
  split at h
  · dsimp only at h
    have hlen : ((part.drop off).take (min (part.length - off) (bufSize / 2))).length =
        min (part.length - off) (bufSize / 2) := by
      rw [List.length_take, List.length_drop]
      omega
    have hmod : min (part.length - off) (bufSize / 2) % align = 0 := by
      unfold align bufSize at *
      omega
    rw [← hlen] at hmod
    split at h
    · cases h
      rintro entry hentry
      obtain rfl := List.mem_singleton.mp hentry
      exact hmod
    · obtain ⟨iov', htail', rfl⟩ := Option.map_eq_some_iff.mp h
      rintro entry (_ | ⟨_, hentry⟩)
      · exact hmod
      · exact htail _ _ htail' entry hentry
  · exact htail _ _ h

/-- A part that is left is offered. -/
theorem entries_ne_nil {part : List UInt8} {off : Nat} {tail : Nat → Option (List (List UInt8))}
    (hoff : off < part.length) (iovcnt : Nat) {iov : List (List UInt8)}
    (h : entries part off tail iovcnt = some iov) : iov.flatten ≠ [] := by
  have hentry : (part.drop off).take (min (part.length - off) (bufSize / 2)) ≠ [] := by
    intro hnil
    have hlen := congrArg List.length hnil
    rw [List.length_take, List.length_drop, List.length_nil] at hlen
    unfold bufSize at hlen
    omega
  unfold entries at h
  rw [if_pos hoff] at h
  dsimp only at h
  split at h
  · cases h
    rw [List.flatten_singleton]
    exact hentry
  · obtain ⟨iov', _, rfl⟩ := Option.map_eq_some_iff.mp h
    intro hnil
    rw [List.flatten_cons] at hnil
    exact hentry (List.append_eq_nil_iff.mp hnil).1

theorem iovec_aligned : ∀ {msgs : List Msg} {hoff aoff : Nat} (iovcnt : Nat)
    {iov : List (List UInt8)}, (∀ m ∈ msgs, Shaped m) → hoff % align = 0 → aoff % align = 0 →
    iovec rev msgs hoff aoff iovcnt = some iov → Aligned iov
  | [], _, _, _, _, _, _, _, h => by
      cases h
      exact fun _ hentry => absurd hentry List.not_mem_nil
  | m :: msgs, hoff, aoff, iovcnt, iov, hall, hh, ha, h => by
      have hm := hall m List.mem_cons_self
      have hrest := fun m' hm' => hall m' (List.mem_cons_of_mem m hm')
      have hhdr : ((hdrBytes rev m).take (hdrSize m.head.cmd)).length % align = 0 := by
        rw [List.take_of_length_le (Nat.le_of_eq hm.length_hdrBytes), hm.length_hdrBytes]
        exact hdrSize_mod _
      have haux : (m.aux.take (doAlign m.auxSize)).length % align = 0 := by
        rw [List.take_of_length_le (Nat.le_of_eq hm.aux), hm.aux]
        exact doAlign_mod _
      rw [iovec] at h
      split at h
      · refine entries_aligned hhdr hh (fun k iov' hiov' => ?_) iovcnt h
        refine entries_aligned haux ha (fun k' iov'' hiov'' => ?_) k hiov'
        exact iovec_aligned k' hrest (Nat.zero_mod _) (Nat.zero_mod _) hiov''
      · cases h

/-- A queue with messages offers something. -/
theorem iovec_ne_nil {m : Msg} {msgs : List Msg} {hoff aoff iovcnt : Nat}
    {iov : List (List UInt8)} (hm : Shaped m) (hpart : Partial (m :: msgs) hoff aoff)
    (h : iovec rev (m :: msgs) hoff aoff iovcnt = some iov) : iov.flatten ≠ [] := by
  rw [iovec] at h
  split at h
  · rcases hpart with ⟨hlt, _⟩ | ⟨rfl, hlt⟩
    · refine entries_ne_nil ?_ iovcnt h
      rw [List.take_of_length_le (Nat.le_of_eq hm.length_hdrBytes), hm.length_hdrBytes]
      exact hlt
    · have hge : ¬ hdrSize m.head.cmd < ((hdrBytes rev m).take (hdrSize m.head.cmd)).length := by
        rw [List.length_take]
        omega
      unfold entries at h
      rw [if_neg hge] at h
      refine entries_ne_nil ?_ iovcnt h
      rw [List.take_of_length_le (Nat.le_of_eq hm.aux), hm.aux]
      exact hlt
  · cases h

/-- Whole chunks are taken. -/
theorem retire_aligned : ∀ {msgs msgs' : List Msg} {hb ab nact hb' ab' : Nat}, hb % align = 0 →
    ab % align = 0 → nact % align = 0 → retire msgs hb ab nact = some (msgs', hb', ab') →
    hb' % align = 0 ∧ ab' % align = 0
  | [], _, hb, ab, nact, _, _, hh, ha, _, h => by
      rw [retire] at h
      split at h
      · cases h
        exact ⟨hh, ha⟩
      · cases h
  | m :: msgs, _, hb, ab, nact, _, _, hh, ha, hn, h => by
      have hhdr := hdrSize_mod m.head.cmd
      have haux := doAlign_mod m.auxSize
      rw [retire] at h
      dsimp only at h
      unfold align at *
      split at h
      · cases h
        exact ⟨by omega, ha⟩
      · split at h
        · cases h
          exact ⟨hhdr, by omega⟩
        · exact retire_aligned rfl rfl (by unfold align; omega) h

end Offer

/-! ## One call -/

section Flush

variable {C : Cipher UInt8 align} {faults : Faults} {rev : Bool} {t : TxIoq}

/-- The transmit side between two calls. -/
structure TxIoq.Wf (t : TxIoq) : Prop where
  q : t.q.Wf
  hbytes : t.q.hbytes % align = 0
  abytes : t.q.abytes % align = 0
  staged : t.Staged
  empty : t.beg = t.fin → t.fin = 0
  iv : t.error = 0 → t.iv < 2 ^ 64

theorem TxIoq.length_raw (t : TxIoq) : t.raw.length = t.fin - t.beg := Memory.length_read ..

theorem compact_spec (h : t.Staged) (hempty : t.beg = t.fin → t.fin = 0) : t.compact.Staged ∧
    t.compact.raw = t.raw ∧ (t.compact.beg = t.compact.fin → t.compact.fin = 0) ∧
    t.compact.q = t.q ∧ t.compact.iv = t.iv ∧ t.compact.error = t.error := by
  have hbeg := h.beg
  have hfin := h.fin
  unfold TxIoq.compact
  split
  · refine ⟨⟨?_, ?_, Nat.zero_le _, ?_⟩, ?_, ?_, rfl, rfl, rfl⟩
    · rw [h.cdx]
    · rw [h.cdn]
    · exact Nat.le_trans (Nat.sub_le _ _) hfin
    · exact read_move t.buf t.beg 0 (t.fin - t.beg)
    · exact fun heq => heq.symm
  · exact ⟨h, rfl, hempty, rfl, rfl, rfl⟩

theorem advance_spec (h : t.Staged) (hempty : t.beg = t.fin → t.fin = 0) {n : Nat}
    (hn : n ≤ t.fin - t.beg) : (t.advance n).Staged ∧ (t.advance n).raw = t.raw.drop n ∧
    ((t.advance n).beg = (t.advance n).fin → (t.advance n).fin = 0) ∧ (t.advance n).q = t.q ∧
    (t.advance n).iv = t.iv ∧ (t.advance n).error = t.error := by
  have hbeg := h.beg
  have hfin := h.fin
  unfold TxIoq.advance
  split
  · rename_i hz
    rw [hz]
    exact ⟨h, rfl, hempty, rfl, rfl, rfl⟩
  · split
    · rename_i hall
      refine ⟨⟨rfl, rfl, Nat.le_refl _, Nat.zero_le _⟩, ?_, fun _ => rfl, rfl, rfl, rfl⟩
      have hnil : t.raw.drop n = [] := List.drop_eq_nil_of_le (by rw [t.length_raw]; omega)
      rw [hnil]
      rfl
    · rename_i hmore
      refine ⟨⟨h.cdx, h.cdn, ?_, hfin⟩, ?_, fun heq => absurd heq hmore, rfl, rfl, rfl⟩
      · show t.beg + n ≤ t.fin
        omega
      · have hsplit : t.fin - t.beg = n + (t.fin - (t.beg + n)) := by omega
        have hlen : (Memory.read t.buf t.beg n).length = n := Memory.length_read ..
        show Memory.read t.buf (t.beg + n) (t.fin - (t.beg + n)) = t.raw.drop n
        unfold TxIoq.raw
        rw [hsplit, Memory.read_add, List.drop_left' hlen]

theorem writev_prefix (h : t.Staged) (n : Option Nat) : t.writev n <+: t.raw := by
  unfold TxIoq.writev TxIoq.raw
  rw [h.cdx]
  cases n with
  | none => exact List.nil_prefix
  | some n => exact List.take_prefix ..

/-- The failing chunk is the last one that `dmsg_iocom_flush2` offers. -/
def Offers (faults : Faults) (rev : Bool) (t : TxIoq) : Prop :=
  t.error = 0 → ∀ iov, iovec rev t.q.msgq t.q.hbytes t.q.abytes 0 = some iov →
    LastFails faults (chunksOf iov) (bufSize - t.compact.fin) t.iv 0

/-- What a call does: `chunks` are staged, and `lost` is not. -/
structure Flushed (C : Cipher UInt8 align) (rev : Bool) (t t' : TxIoq) (n : Option Nat)
    (data : List UInt8) (chunks : List (List UInt8)) (lost : List UInt8) : Prop where
  wf : t'.Wf
  seq : t'.q.seq = t.q.seq
  whole : Whole align chunks
  raw : data ++ t'.raw = t.raw ++ sealAll C t.iv chunks
  ivs : t.iv + chunks.length < 2 ^ 64
  plain : chunks.flatten ++ lost = t.q.rest rev
  fine : t'.error = 0 → t'.iv = t.iv + chunks.length ∧ lost = t'.q.rest rev
  progress : t'.error = 0 → t.q.msgq ≠ [] ∨ t.raw ≠ [] → ∀ k, n = some (k + 1) → data ≠ []

theorem drain_wf (h : t.Wf) : t.drain.Wf :=
  ⟨⟨fun _ hm => absurd hm List.not_mem_nil, rfl, rfl⟩, rfl, rfl,
    ⟨h.staged.cdx, h.staged.cdn, h.staged.beg, h.staged.fin⟩, h.empty, h.iv⟩

/-- The write, when `chunks` have been staged. -/
theorem flushOut_spec {t₁ : TxIoq} {n : Option Nat} {nact : Nat} (h : t.Wf) (hs : t₁.Staged)
    (hempty : t₁.beg = t₁.fin → t₁.fin = 0) (hq : t₁.q = t.q) (hact : nact % align = 0)
    (hle : nact ≤ (t.q.rest rev).length) (hiv : t₁.error = 0 → t₁.iv < 2 ^ 64) :
    ∃ t', flushOut t₁ n nact = some (t', t₁.writev n) ∧ t'.Wf ∧ t'.q.seq = t.q.seq ∧
      t₁.writev n ++ t'.raw = t₁.raw ∧ t'.error = t₁.error ∧
      (t'.error = 0 → t'.iv = t₁.iv ∧ t'.q.rest rev = (t.q.rest rev).drop nact) := by
  have hpre := writev_prefix hs n
  have hlen : (t₁.writev n).length ≤ t₁.fin - t₁.beg := by
    rw [← t₁.length_raw]
    exact hpre.length_le
  obtain ⟨hadv, hraw, hemp, haq, haiv, haerr⟩ := advance_spec hs hempty hlen
  obtain ⟨msgs', hb', ab', hr, hsuffix, hpart, hbytes⟩ :=
    @retire_spec rev t.q.msgq t.q.hbytes t.q.abytes nact h.q.shaped h.q.part hle
  obtain ⟨hhb, hab⟩ := retire_aligned h.hbytes h.abytes hact hr
  let t' : TxIoq := { t₁.advance (t₁.writev n).length with
    q := { t.q with msgq := msgs', hbytes := hb', abytes := ab' } }
  have hwf : t'.Wf := by
    refine ⟨⟨fun m hm => h.q.shaped m (hsuffix.subset hm), hpart⟩, hhb, hab,
      ⟨hadv.cdx, hadv.cdn, hadv.beg, hadv.fin⟩, hemp, fun herror => ?_⟩
    have herror : (t₁.advance (t₁.writev n).length).error = 0 := herror
    rw [haerr] at herror
    show (t₁.advance (t₁.writev n).length).iv < 2 ^ 64
    rw [haiv]
    exact hiv herror
  have hcat : t₁.writev n ++ t'.raw = t₁.raw := by
    obtain ⟨rest, hrest⟩ := hpre
    have hraw' : t'.raw = t₁.raw.drop (t₁.writev n).length := hraw
    rw [hraw', ← hrest, List.drop_left]
  have hrun : flushOut t₁ n nact = some (if t'.error ≠ 0 then t'.drain else t', t₁.writev n) := by
    rw [flushOut, if_pos hs.ordered, hq, hr]
    rfl
  have herr : t'.error = t₁.error := haerr
  rcases eq_or_ne t'.error 0 with hzero | hne
  · rw [if_neg (not_not.mpr hzero)] at hrun
    exact ⟨t', hrun, hwf, rfl, hcat, herr, fun _ => ⟨haiv, hbytes⟩⟩
  · rw [if_pos hne] at hrun
    exact ⟨t'.drain, hrun, drain_wf hwf, rfl, hcat, herr, fun hzero => absurd hzero hne⟩

/-- **Staging and writing.** -/
theorem flush2_spec (h : t.Wf) (herror : t.error = 0) (n : Option Nat) (hoffers : Offers faults rev t) :
    ∃ t' data chunks lost, flush2 C faults rev t n = some (t', data) ∧
      Flushed C rev t t' n data chunks lost := by
  obtain ⟨iov, hiov, hprefix⟩ := @iovec_spec rev t.q.msgq t.q.hbytes t.q.abytes 0 h.q.shaped h.q.part
  have haligned := iovec_aligned 0 h.q.shaped h.hbytes h.abytes hiov
  have hiv := h.iv herror
  have hrun : flush2 C faults rev t n =
      if iov = [] ∧ t.beg = t.cdx then some (t, []) else
        (encrypt C faults { t.compact with ops := 0 } iov).bind fun p => flushOut p.1 n p.2 := by
    rw [flush2, if_neg (not_not.mpr herror), hiov]
    rfl
  rw [hrun]
  have hnothing : iov.flatten = [] → t.q.msgq = [] := by
    intro hnil
    cases hq : t.q.msgq with
    | nil => rfl
    | cons m msgs =>
        have hpart := h.q.part
        have hm := h.q.shaped m (by rw [hq]; exact List.mem_cons_self)
        rw [hq] at hiov hpart
        exact absurd hnil (iovec_ne_nil hm hpart hiov)
  split
  · rename_i hidle
    obtain ⟨rfl, hbeg⟩ := hidle
    refine ⟨t, [], [], t.q.rest rev, rfl, h, rfl, fun _ hx => absurd hx List.not_mem_nil, ?_, hiv, rfl,
      fun _ => ⟨rfl, rfl⟩, ?_⟩
    · exact (List.append_nil _).symm
    · rintro _ (hmsgq | hraw)
      · exact absurd (hnothing rfl) hmsgq
      · refine absurd (List.eq_nil_of_length_eq_zero ?_) hraw
        rw [t.length_raw, hbeg, h.staged.cdx, Nat.sub_self]
  · obtain ⟨hstaged, hraw, hempty, hq, hivc, herrc⟩ := compact_spec h.staged h.empty
    let t₀ : TxIoq := { t.compact with ops := 0 }
    have hs₀ : t₀.Staged := ⟨hstaged.cdx, hstaged.cdn, hstaged.beg, hstaged.fin⟩
    have hlast : LastFails faults (chunksOf iov) (bufSize - t₀.fin) t₀.iv t₀.ops := by
      have hlast := hoffers herror iov hiov
      rw [← hivc] at hlast
      exact hlast
    have hiv₀ : t₀.iv < 2 ^ 64 := by
      rw [← hivc] at hiv
      exact hiv
    obtain ⟨t₁, nmax, done, henc, hst⟩ := encryptAll_spec (C := C) (chunksOf iov) t₀
      (bufSize - t₀.fin) 0 chunksOf_whole hs₀ (Nat.add_sub_cancel' hstaged.fin) hiv₀ hlast
    have hencrypt : encrypt C faults t₀ iov =
        some (t₁, align * room (chunksOf iov) (bufSize - t₀.fin)) := by
      rw [encrypt, encryptIov_eq _ _ _ haligned, henc, Nat.zero_add]
      rfl
    have hwhole : Whole align (chunksOf iov) := chunksOf_whole
    have hflat := chunksOf_flatten haligned
    have hroomle : room (chunksOf iov) (bufSize - t₀.fin) ≤ (chunksOf iov).length :=
      Nat.min_le_left _ _
    have hlen := length_flatten hwhole
    have hact : align * room (chunksOf iov) (bufSize - t₀.fin) ≤ (t.q.rest rev).length := by
      refine Nat.le_trans ?_ hprefix.length_le
      rw [← hflat, hlen]
      exact Nat.mul_le_mul_left _ hroomle
    have hq₁ : t₁.q = t.q := hst.q.trans hq
    have hempty₁ : t₁.beg = t₁.fin → t₁.fin = 0 := by
      intro heq
      have hbeg := hs₀.beg
      rw [hst.beg, hst.fin] at heq
      have hfin : t₀.fin = 0 := hempty (by show t₀.beg = t₀.fin; omega)
      rw [hst.fin]
      omega
    obtain ⟨t', hout, hwf, hseq, hcat, herr, hfine⟩ := @flushOut_spec rev t t₁ n _ h hst.staged
      hempty₁ hq₁ (Nat.mul_mod_right _ _) hact (fun hzero => by
        rcases hst.fine with ⟨_, hiv₁, _⟩ | hne
        · rw [hiv₁]
          exact hst.ivs
        · exact absurd hzero hne)
    have hdone : done ≤ (chunksOf iov).length := Nat.le_trans hst.le hroomle
    have htake : ((chunksOf iov).take done).length = done := List.length_take_of_le hdone
    obtain ⟨more, hmore⟩ := hprefix
    -- The chunks staged, and the rest of what there is to send.
    have hplain : ((chunksOf iov).take done).flatten ++
        (((chunksOf iov).drop done).flatten ++ more) = t.q.rest rev := by
      rw [← List.append_assoc, ← List.flatten_append, List.take_append_drop, hflat]
      exact hmore
    refine ⟨t', t₁.writev n, (chunksOf iov).take done, ((chunksOf iov).drop done).flatten ++ more,
      ?_, hwf, hseq, hwhole.take done, ?_, ?_, hplain, fun hzero => ?_, fun hzero hwork k hk => ?_⟩
    · have hencrypt : encrypt C faults { t.compact with ops := 0 } iov = _ := hencrypt
      rw [hencrypt]
      exact hout
    · rw [hcat, hst.raw, ← hivc]
      exact congrArg (· ++ _) hraw
    · rw [htake, ← hivc]
      exact hst.ivs
    · obtain ⟨hiv', hrest⟩ := hfine hzero
      rw [herr] at hzero
      rcases hst.fine with ⟨_, hiv₁, hroom⟩ | hne
      · refine ⟨?_, ?_⟩
        · rw [hiv', hiv₁, htake, ← hivc]
        · rw [hrest, ← hroom, ← hplain]
          refine (List.drop_left' ?_).symm
          rw [length_flatten (hwhole.take done), htake]
      · exact absurd hzero hne
    · rw [herr] at hzero
      rcases hst.fine with ⟨_, _, hroom⟩ | hne
      · have hsome : t₁.raw ≠ [] := by
          rw [hst.raw]
          have hraw₀ : t₀.raw = t.raw := hraw
          rcases eq_or_ne t.raw [] with hnil | hne
          · have hmsgq := hwork.resolve_right (not_not.mpr hnil)
            have hlen₀ := congrArg List.length hraw₀
            rw [hnil, TxIoq.length_raw, List.length_nil] at hlen₀
            have hfin : t₀.fin = 0 := hempty (by
              show t₀.beg = t₀.fin
              have hbeg := hs₀.beg
              omega)
            have hchunks : chunksOf iov ≠ [] := by
              intro hcn
              rw [hcn] at hflat
              exact hmsgq (hnothing hflat.symm)
            intro happ
            have hseal := congrArg List.length (List.append_eq_nil_iff.mp happ).2
            have hcpos := List.length_pos_of_ne_nil hchunks
            rw [length_sealAll _ (hwhole.take done), htake, hroom, hfin, room, List.length_nil] at hseal
            unfold align bufSize at hseal
            omega
          · rw [hraw₀]
            exact List.append_ne_nil_of_left_ne_nil hne _
        intro hdata
        rw [hk, TxIoq.writev, hst.staged.cdx, List.take_eq_nil_iff] at hdata
        rcases hdata with hdata | hdata
        · cases hdata
        · exact hsome hdata
      · exact absurd hzero hne

end Flush

end Hammer2.Dmsg.Crypt
