/-
# `Hammer2.Boot.Lz4Block` — the LZ4 decoder of the loader, with its pointers

`Hammer2.Boot.Reader` has `lz4_decompress_block` on lists.  Here it runs on the two buffers, one
basic block of the source a turn, and logs every byte it reads or writes.  A pointer is its
distance from the start of its buffer; lengths are `unsigned`.

    lz4Block_correct    every access is in its buffer, whatever the input, and a block in the
                        LZ4 format is expanded to what it stands for
-/
import Hammer2.Boot.Again
import Hammer2.Lib.Loop

namespace Hammer2.Boot.Lz4Block

/-! ## The decoder -/

/-- `len` bytes from `start` on: of the source, or of the destination. -/
inductive Access where
  | fetch (start : Int) (len : Nat)
  | load (start : Int) (len : Nat)
  | store (start : Int) (len : Nat)

/-- The access is in its buffer. -/
def Access.Within (srclen dstcap : Nat) : Access → Prop
  | .fetch start len => 0 ≤ start ∧ start + len ≤ srclen
  | .load start len => 0 ≤ start ∧ start + len ≤ dstcap
  | .store start len => 0 ≤ start ∧ start + len ≤ dstcap

/-- Where in the round the decoder is. -/
inductive Pc where
  | head
  | litExt (tok len : Nat)
  | lits (tok len : Nat)
  | matchExt (off mlen : Nat)
  | copy (off mlen : Nat)

structure State where
  ip : Int
  op : Int
  dst : Int → UInt8
  log : List Access
  pc : Pc

/-- `unsigned` -/
def u32 (n : Nat) : Nat := n % 2 ^ 32

variable (src : List UInt8) (dstcap : Nat)

def byteAt (i : Int) : Nat := (src.getD i.toNat 0).toNat

/-- `*ip++` -/
def State.fetch (s : State) (pc : Pc) : State :=
  { s with ip := s.ip + 1, log := .fetch s.ip 1 :: s.log, pc := pc }

/-- `memcpy(op, ip, len); op += len; ip += len` -/
def memcpy (s : State) (len : Nat) : State :=
  { s with
    ip := s.ip + len
    op := s.op + len
    dst := fun i =>
      if s.op ≤ i ∧ i < s.op + len then src.getD (s.ip + (i - s.op)).toNat 0 else s.dst i
    log := .store s.op len :: .fetch s.ip len :: s.log }

/-- `*op++ = *m++` -/
def copyByte (m : Int) (s : State) : State :=
  { s with
    op := s.op + 1
    dst := fun i => if i = s.op then s.dst m else s.dst i
    log := .store s.op 1 :: .load m 1 :: s.log }

/-- `while (mlen--) *op++ = *m++` -/
def copyMatch : Int → Nat → State → State
  | _, 0, s => s
  | m, mlen + 1, s => copyMatch (m + 1) mlen (copyByte m s)

/-- One turn of `do { if (ip >= iend) return -1; b = *ip++; len += b; } while (b == 255)`. -/
def extend (s : State) (ext done : Nat → Pc) (len : Nat) : Loop.Turn State (Int × State) :=
  if s.ip ≥ src.length then .stop (-1, s)
  else
    let b := byteAt src s.ip
    .again (s.fetch (if b = 255 then ext (u32 (len + b)) else done (u32 (len + b))))

/-- The literals are copied, and the distance is read. -/
def literals (s : State) (tok len : Nat) : Loop.Turn State (Int × State) :=
  if s.op + len > dstcap ∨ s.ip + len > src.length then .stop (-1, s)
  else
    let s := memcpy src s len
    if s.ip ≥ src.length then .stop (s.op, s)
    else if s.ip + 2 > src.length then .stop (-1, s)
    else
      let off : Nat := byteAt src s.ip + 256 * byteAt src (s.ip + 1)
      let s := { s with ip := s.ip + 2, log := .fetch s.ip 2 :: s.log }
      if off = 0 ∨ s.op - (off : Int) < 0 then .stop (-1, s)
      else .again { s with
        pc := if tok % 16 = 15 then .matchExt off (tok % 16) else .copy off (tok % 16) }

def body (s : State) : Loop.Turn State (Int × State) :=
  match s.pc with
  | .head =>
      if s.ip < src.length then
        let tok := byteAt src s.ip
        .again (s.fetch (if tok / 16 = 15 then .litExt tok (tok / 16) else .lits tok (tok / 16)))
      else .stop (s.op, s)
  | .litExt tok len => extend src s (.litExt tok) (.lits tok) len
  | .lits tok len => literals src dstcap s tok len
  | .matchExt off mlen => extend src s (.matchExt off) (.copy off) mlen
  | .copy off mlen =>
      let mlen := u32 (mlen + 4)
      if s.op + mlen > dstcap then .stop (-1, s)
      else .again { copyMatch (s.op - off) mlen s with pc := .head }

def start (dst : Int → UInt8) : State := ⟨0, 0, dst, [], .head⟩

/-- `lz4_decompress_block`: what it returns, and the state it leaves.  Every turn but the last of
a round takes a byte. -/
def decompress (dst : Int → UInt8) : Option (Int × State) :=
  Loop.loop (body src dstcap) (2 * src.length + 1) (start dst)

/-! ## Safety -/

/-- A match that is copied begins in what has been written. -/
def Pc.Reaches (op : Int) : Pc → Prop
  | .matchExt off _ => 0 < off ∧ (off : Int) ≤ op
  | .copy off _ => 0 < off ∧ (off : Int) ≤ op
  | _ => True

/-- What the log says, and that nothing outside the destination has changed. -/
structure Logged (dst : Int → UInt8) (s : State) : Prop where
  within : ∀ a ∈ s.log, a.Within src.length dstcap
  frame : ∀ i, i < 0 ∨ (dstcap : Int) ≤ i → s.dst i = dst i

structure Safe (dst : Int → UInt8) (s : State) : Prop where
  ip : 0 ≤ s.ip ∧ s.ip ≤ src.length
  op : 0 ≤ s.op ∧ s.op ≤ dstcap
  logged : Logged src dstcap dst s
  reaches : s.pc.Reaches s.op

/-- What may be returned. -/
def Returned (dst : Int → UInt8) (r : Int × State) : Prop :=
  (r.1 = -1 ∨ 0 ≤ r.1 ∧ r.1 ≤ dstcap) ∧ Logged src dstcap dst r.2

/-- A copy takes no byte of the source, and only it. -/
def Pc.pending : Pc → Nat
  | .copy .. => 1
  | _ => 0

def togo (s : State) : Nat := 2 * (src.length - s.ip).toNat + s.pc.pending

variable {src dstcap} {dst : Int → UInt8}

theorem Logged.fetch {s : State} (h : Logged src dstcap dst s) (pc : Pc) (h0 : 0 ≤ s.ip)
    (h1 : s.ip < src.length) : Logged src dstcap dst (s.fetch pc) where
  within := by
    intro a ha
    rcases List.mem_cons.mp ha with rfl | ha
    · exact ⟨h0, by exact_mod_cast h1⟩
    · exact h.within a ha
  frame := h.frame

theorem Logged.memcpy {s : State} (h : Logged src dstcap dst s) {len : Nat} (hip : 0 ≤ s.ip)
    (hop : 0 ≤ s.op) (hip' : s.ip + len ≤ src.length) (hop' : s.op + len ≤ dstcap) :
    Logged src dstcap dst (memcpy src s len) where
  within := by
    intro a ha
    rcases List.mem_cons.mp ha with rfl | ha
    · exact ⟨hop, hop'⟩
    · rcases List.mem_cons.mp ha with rfl | ha
      · exact ⟨hip, hip'⟩
      · exact h.within a ha
  frame := by
    intro i hi
    have hout : ¬ (s.op ≤ i ∧ i < s.op + len) := by omega
    exact (if_neg hout).trans (h.frame i hi)

theorem Logged.copyByte {s : State} (h : Logged src dstcap dst s) {m : Int} (hm : 0 ≤ m)
    (hlt : m < s.op) (hop : s.op < dstcap) : Logged src dstcap dst (copyByte m s) where
  within := by
    intro a ha
    rcases List.mem_cons.mp ha with rfl | ha
    · exact ⟨by omega, by exact_mod_cast hop⟩
    · rcases List.mem_cons.mp ha with rfl | ha
      · exact ⟨hm, by push_cast; omega⟩
      · exact h.within a ha
  frame := by
    intro i hi
    have hne : i ≠ s.op := by omega
    exact (if_neg hne).trans (h.frame i hi)

/-- The whole match. -/
theorem Logged.copyMatch : ∀ {mlen : Nat} {m : Int} {s : State}, Logged src dstcap dst s → 0 ≤ m →
    m < s.op → s.op + mlen ≤ dstcap → Logged src dstcap dst (copyMatch m mlen s)
  | 0, _, _, h, _, _, _ => h
  | mlen + 1, m, s, h, hm, hlt, hop => by
      have hop1 : (Lz4Block.copyByte m s).op = s.op + 1 := rfl
      push_cast at hop
      exact (h.copyByte hm hlt (by omega)).copyMatch (by omega) (by omega) (by omega)

theorem copyMatch_op : ∀ (mlen : Nat) (m : Int) (s : State), (copyMatch m mlen s).op = s.op + mlen
  | 0, _, s => (Int.add_zero s.op).symm
  | mlen + 1, m, s => by
      rw [copyMatch, copyMatch_op mlen, copyByte]
      push_cast
      omega

theorem copyMatch_ip : ∀ (mlen : Nat) (m : Int) (s : State), (copyMatch m mlen s).ip = s.ip
  | 0, _, _ => rfl
  | mlen + 1, m, s => copyMatch_ip mlen (m + 1) (copyByte m s)

/-- A turn that reads on in a length. -/
theorem extend_spec {s : State} {ext done : Nat → Pc} {len : Nat} (h : Safe src dstcap dst s)
    (hext : ∀ n, (ext n).Reaches s.op ∧ (ext n).pending ≤ 1)
    (hdone : ∀ n, (done n).Reaches s.op ∧ (done n).pending ≤ 1) :
    (∀ t, extend src s ext done len = .again t → Safe src dstcap dst t ∧ togo src t < togo src s) ∧
    ∀ r, extend src s ext done len = .stop r → Returned src dstcap dst r := by
  unfold extend
  split
  · exact ⟨nofun, fun r hr => by
      obtain rfl := Loop.Turn.stop.inj hr
      exact ⟨.inl rfl, h.logged⟩⟩
  · refine ⟨fun t ht => ?_, nofun⟩
    obtain rfl := Loop.Turn.again.inj ht
    have hlt : s.ip < src.length := by omega
    have hpc : ∀ pc : Pc, pc.Reaches s.op ∧ pc.pending ≤ 1 →
        Safe src dstcap dst (s.fetch pc) ∧ togo src (s.fetch pc) < togo src s := by
      rintro pc ⟨hreach, hpend⟩
      refine ⟨⟨⟨?_, ?_⟩, h.op, h.logged.fetch pc h.ip.1 hlt, hreach⟩, ?_⟩
      · show 0 ≤ s.ip + 1
        have := h.ip.1
        omega
      · show s.ip + 1 ≤ src.length
        omega
      · show 2 * (src.length - (s.ip + 1)).toNat + pc.pending < 2 * (src.length - s.ip).toNat + _
        omega
    split
    · exact hpc _ (hext _)
    · exact hpc _ (hdone _)

theorem literals_spec {s : State} {tok len : Nat} (h : Safe src dstcap dst s) :
    (∀ t, literals src dstcap s tok len = .again t →
      Safe src dstcap dst t ∧ togo src t < togo src s) ∧
    ∀ r, literals src dstcap s tok len = .stop r → Returned src dstcap dst r := by
  obtain ⟨⟨hip, -⟩, ⟨hop, -⟩, hlog, -⟩ := h
  unfold literals
  split
  · exact ⟨nofun, fun r hr => by
      obtain rfl := Loop.Turn.stop.inj hr
      exact ⟨.inl rfl, hlog⟩⟩
  · rename_i hroom
    rw [not_or, not_lt, not_lt] at hroom
    obtain ⟨hop', hip'⟩ := hroom
    have hcopied := hlog.memcpy hip hop hip' hop'
    have hopm : (memcpy src s len).op = s.op + len := rfl
    have hipm : (memcpy src s len).ip = s.ip + len := rfl
    dsimp only
    split
    · exact ⟨nofun, fun r hr => by
        obtain rfl := Loop.Turn.stop.inj hr
        exact ⟨.inr ⟨by show 0 ≤ (memcpy src s len).op; omega, by
          show (memcpy src s len).op ≤ _; omega⟩, hcopied⟩⟩
    · rename_i hmore
      split
      · exact ⟨nofun, fun r hr => by
          obtain rfl := Loop.Turn.stop.inj hr
          exact ⟨.inl rfl, hcopied⟩⟩
      · rename_i htwo
        -- the two bytes of the distance
        have hlog2 : Logged src dstcap dst { memcpy src s len with
            ip := (memcpy src s len).ip + 2
            log := .fetch (memcpy src s len).ip 2 :: (memcpy src s len).log } :=
          ⟨fun a ha => by
            rcases List.mem_cons.mp ha with rfl | ha
            · exact ⟨by omega, by push_cast; omega⟩
            · exact hcopied.within a ha, hcopied.frame⟩
        generalize byteAt src (memcpy src s len).ip + 256 * byteAt src ((memcpy src s len).ip + 1)
          = off
        split
        · exact ⟨nofun, fun r hr => by
            obtain rfl := Loop.Turn.stop.inj hr
            exact ⟨.inl rfl, hlog2⟩⟩
        · rename_i hoff
          rw [not_or, not_lt] at hoff
          refine ⟨fun t ht => ?_, nofun⟩
          obtain rfl := Loop.Turn.again.inj ht
          refine ⟨⟨⟨?_, ?_⟩, ⟨?_, ?_⟩, ⟨hlog2.within, hlog2.frame⟩, ?_⟩, ?_⟩
          · show 0 ≤ (memcpy src s len).ip + 2
            omega
          · show (memcpy src s len).ip + 2 ≤ src.length
            omega
          · show 0 ≤ (memcpy src s len).op
            omega
          · show (memcpy src s len).op ≤ dstcap
            omega
          · show Pc.Reaches (memcpy src s len).op _
            split
            · exact ⟨by omega, by omega⟩
            · exact ⟨by omega, by omega⟩
          · have hpend : ∀ c : Prop, ∀ [Decidable c], Pc.pending
                (if c then .matchExt off (tok % 16) else .copy off (tok % 16)) ≤ 1 := by
              intro c _
              split
              · exact Nat.zero_le 1
              · exact Nat.le_refl 1
            have hpend := hpend (tok % 16 = 15)
            show 2 * (src.length - ((memcpy src s len).ip + 2)).toNat + Pc.pending
              (if tok % 16 = 15 then .matchExt off (tok % 16) else .copy off (tok % 16)) <
              2 * (src.length - s.ip).toNat + s.pc.pending
            omega

/-- One turn of the decoder. -/
theorem bounded (dst : Int → UInt8) : Loop.Bounded (body src dstcap) (Safe src dstcap dst)
    (Returned src dstcap dst) (togo src) := by
  have hturn : ∀ s, Safe src dstcap dst s →
      (∀ t, body src dstcap s = .again t → Safe src dstcap dst t ∧ togo src t < togo src s) ∧
      ∀ r, body src dstcap s = .stop r → Returned src dstcap dst r := by
    intro s h
    cases hpc : s.pc with
    | head =>
        simp only [body, hpc]
        split
        · rename_i hlt
          refine ⟨fun t ht => ?_, nofun⟩
          obtain rfl := Loop.Turn.again.inj ht
          refine ⟨⟨⟨?_, ?_⟩, h.op, h.logged.fetch _ h.ip.1 hlt, ?_⟩, ?_⟩
          · show 0 ≤ s.ip + 1
            have := h.ip.1
            omega
          · show s.ip + 1 ≤ src.length
            omega
          · show Pc.Reaches s.op _
            split <;> exact trivial
          · have hpend : ∀ tok : Nat, Pc.pending
                (if tok / 16 = 15 then .litExt tok (tok / 16) else .lits tok (tok / 16)) = 0 := by
              intro tok
              split <;> rfl
            show 2 * (src.length - (s.ip + 1)).toNat + Pc.pending (if byteAt src s.ip / 16 = 15 then
              .litExt (byteAt src s.ip) (byteAt src s.ip / 16)
              else .lits (byteAt src s.ip) (byteAt src s.ip / 16)) <
                2 * (src.length - s.ip).toNat + s.pc.pending
            rw [hpend]
            omega
        · exact ⟨nofun, fun r hr => by
            obtain rfl := Loop.Turn.stop.inj hr
            exact ⟨.inr h.op, h.logged⟩⟩
    | litExt tok len =>
        simp only [body, hpc]
        exact extend_spec h (fun _ => ⟨trivial, Nat.zero_le 1⟩) fun _ => ⟨trivial, Nat.zero_le 1⟩
    | lits tok len =>
        simp only [body, hpc]
        exact literals_spec h
    | matchExt off mlen =>
        have hreach : 0 < off ∧ (off : Int) ≤ s.op := by
          have := h.reaches
          rwa [hpc] at this
        simp only [body, hpc]
        exact extend_spec h (fun _ => ⟨hreach, Nat.zero_le 1⟩) fun _ => ⟨hreach, Nat.le_refl 1⟩
    | copy off mlen =>
        have hreach : 0 < off ∧ (off : Int) ≤ s.op := by
          have := h.reaches
          rwa [hpc] at this
        simp only [body, hpc]
        split
        · exact ⟨nofun, fun r hr => by
            obtain rfl := Loop.Turn.stop.inj hr
            exact ⟨.inl rfl, h.logged⟩⟩
        · rename_i hroom
          refine ⟨fun t ht => ?_, nofun⟩
          obtain rfl := Loop.Turn.again.inj ht
          have hlog := h.logged.copyMatch (m := s.op - off) (by omega) (by omega) (not_lt.mp hroom)
          have hop := copyMatch_op (u32 (mlen + 4)) (s.op - off) s
          have hip := copyMatch_ip (u32 (mlen + 4)) (s.op - off) s
          have hop0 := h.op.1
          refine ⟨⟨?_, ⟨?_, ?_⟩, ⟨hlog.within, hlog.frame⟩, trivial⟩, ?_⟩
          · show 0 ≤ (copyMatch _ _ s).ip ∧ (copyMatch _ _ s).ip ≤ src.length
            rw [hip]
            exact h.ip
          · show 0 ≤ (copyMatch _ _ s).op
            omega
          · show (copyMatch _ _ s).op ≤ dstcap
            omega
          · show 2 * (src.length - (copyMatch _ _ s).ip).toNat + 0 <
              2 * (src.length - s.ip).toNat + s.pc.pending
            rw [hip, hpc]
            exact Nat.lt_succ_self _
  exact ⟨fun s t h ht => (hturn s h).1 t ht, fun s r h hr => (hturn s h).2 r hr⟩

theorem safe_start (dst : Int → UInt8) : Safe src dstcap dst (start dst) :=
  ⟨⟨Int.le_refl 0, Int.natCast_nonneg _⟩, ⟨Int.le_refl 0, Int.natCast_nonneg _⟩,
    ⟨nofun, fun _ _ => rfl⟩, trivial⟩

/-- The decoder ends on every input. -/
theorem decompress_total (src : List UInt8) (dstcap : Nat) (dst : Int → UInt8) :
    ∃ r, decompress src dstcap dst = some r ∧ Returned src dstcap dst r :=
  (bounded dst).loop_spec (safe_start dst) (by
    show 2 * (src.length - (0 : Int)).toNat + 0 < 2 * src.length + 1
    omega)

/-! ## Exactness -/

/-- The destination up to `op` holds `out`. -/
structure Holds (s : State) (out : List UInt8) : Prop where
  op : s.op = out.length
  bytes : ∀ (i : Nat) (b : UInt8), out[i]? = some b → s.dst i = b

theorem Holds.append {s : State} {out bs : List UInt8} {d : Int → UInt8} (op : Int)
    (h : Holds s out) (hop : op = (out ++ bs).length)
    (hlow : ∀ i : Int, 0 ≤ i → i < s.op → d i = s.dst i)
    (hnew : ∀ (i : Nat) (b : UInt8), bs[i]? = some b → d (s.op + i) = b) {s' : State}
    (hs : s'.op = op ∧ s'.dst = d) : Holds s' (out ++ bs) := by
  obtain ⟨rfl, rfl⟩ := hs
  refine ⟨hop, fun i b hb => ?_⟩
  rcases Nat.lt_or_ge i out.length with hlt | hge
  · rw [List.getElem?_append_left hlt] at hb
    rw [hlow i (Int.natCast_nonneg i) (by rw [h.op]; exact_mod_cast hlt)]
    exact h.bytes i b hb
  · rw [List.getElem?_append_right hge] at hb
    have hi : (i : Int) = s.op + (i - out.length : Nat) := by
      rw [h.op]
      omega
    rw [hi]
    exact hnew _ b hb

theorem Holds.copyByte {s : State} {out : List UInt8} {off : Nat} (h : Holds s out)
    (hoff : 0 < off) (hle : off ≤ out.length) :
    Holds (copyByte (s.op - off) s) (out ++ [out.getD (out.length - off) 0]) := by
  refine h.append (s.op + 1) ?_ ?_ ?_ ⟨rfl, rfl⟩
  · rw [h.op, List.length_append, List.length_singleton]
    push_cast
    rfl
  · intro i _ hlt
    exact if_neg (by omega)
  · intro i b hb
    cases i with
    | succ i => exact absurd hb nofun
    | zero =>
        obtain rfl := Option.some.inj hb
        have hop := h.op
        have hm : s.op - off = (out.length - off : Nat) := by omega
        show (if s.op + (0 : Nat) = s.op then s.dst (s.op - off) else _) = _
        rw [if_pos (by omega), hm]
        refine h.bytes _ _ ?_
        rw [List.getD_eq_getElem?_getD]
        cases hget : out[out.length - off]? with
        | none =>
            have hlen := List.getElem?_eq_none_iff.mp hget
            omega
        | some b => rfl

/-- A match, as the format says. -/
theorem Holds.copyMatch {off : Nat} (hoff : 0 < off) : ∀ {mlen : Nat} {s : State}
    {out : List UInt8}, Holds s out → off ≤ out.length →
      Holds (copyMatch (s.op - off) mlen s) (Lz4.copyMatch off mlen out)
  | 0, _, _, h, _ => h
  | mlen + 1, s, out, h, hle => by
      have hnext : s.op - off + 1 = (Lz4Block.copyByte (s.op - off) s).op - off := by
        show s.op - off + 1 = s.op + 1 - off
        omega
      rw [Lz4Block.copyMatch, Lz4.copyMatch, hnext]
      exact (h.copyByte hoff hle).copyMatch hoff (by rw [List.length_append]; omega)

theorem Holds.memcpy {s : State} {out rest : List UInt8} {len k : Nat} (h : Holds s out)
    (hip : s.ip = k) (hrest : src.drop k = rest) (hlen : len ≤ rest.length) :
    Holds (memcpy src s len) (out ++ rest.take len) := by
  refine h.append (s.op + len) ?_ ?_ ?_ ⟨rfl, rfl⟩
  · rw [h.op, List.length_append, List.length_take, Nat.min_eq_left hlen]
    push_cast
    rfl
  · intro i _ hlt
    exact if_neg (by omega)
  · intro i b hb
    have hlt : i < len := by
      have := (List.getElem?_eq_some_iff.mp hb).1
      rw [List.length_take] at this
      omega
    rw [List.getElem?_take_of_lt hlt, ← hrest, List.getElem?_drop] at hb
    show (if s.op ≤ s.op + i ∧ s.op + i < s.op + len then _ else _) = _
    have hsrc : (s.ip + (s.op + i - s.op)).toNat = k + i := by omega
    rw [if_pos ⟨by omega, by omega⟩, hsrc, List.getD_eq_getElem?_getD, hb]
    rfl

variable (src) in
/-- The decoder is at `pc`, with `rest` to come and `out` written. -/
structure At (pc : Pc) (rest out : List UInt8) (s : State) : Prop where
  pc : s.pc = pc
  ip : ∃ k : Nat, s.ip = k ∧ k ≤ src.length ∧ src.drop k = rest
  holds : Holds s out

theorem At.togo {pc : Pc} {rest out : List UInt8} {s : State} (h : At src pc rest out s) :
    s.ip + rest.length = src.length := by
  obtain ⟨k, hip, hle, hrest⟩ := h.ip
  rw [hip, ← hrest, List.length_drop]
  omega

theorem byteAt_drop {k : Nat} {i : Int} {b : UInt8} {rest : List UInt8}
    (h : src.drop k = b :: rest) (hi : i = k) : byteAt src i = b.toNat := by
  have hget : src[k]? = some b := by
    have h0 : (src.drop k)[0]? = some b := by rw [h]; rfl
    rwa [List.getElem?_drop, Nat.add_zero] at h0
  rw [hi, byteAt, Int.toNat_natCast, List.getD_eq_getElem?_getD, hget]
  rfl

theorem drop_tail {k : Nat} {b : UInt8} {rest : List UInt8} (h : src.drop k = b :: rest) :
    src.drop (k + 1) = rest ∧ k + 1 ≤ src.length := by
  constructor
  · rw [← List.drop_drop, h]
    rfl
  · have hlen := congrArg List.length h
    rw [List.length_drop, List.length_cons] at hlen
    omega

/-- The byte that is fetched, and the state after it. -/
theorem At.fetch {pc : Pc} {b : UInt8} {rest out : List UInt8} {s : State}
    (h : At src pc (b :: rest) out s) :
    byteAt src s.ip = b.toNat ∧ ∀ pc', At src pc' rest out (s.fetch pc') := by
  obtain ⟨k, hip, hle, hrest⟩ := h.ip
  obtain ⟨htail, hle'⟩ := drop_tail hrest
  exact ⟨byteAt_drop hrest hip, fun pc' => ⟨rfl, ⟨k + 1, by
    show s.ip + 1 = _
    rw [hip]
    rfl, hle', htail⟩, ⟨h.holds.op, h.holds.bytes⟩⟩⟩

theorem le_of_readLen : ∀ {ip : List UInt8} {len l : Nat} {rest : List UInt8},
    readLen ip len = some (l, rest) → len ≤ l
  | b :: ip, len, l, rest, h => by
      unfold readLen at h
      split at h
      · exact Nat.le_trans (Nat.le_add_right len 255) (le_of_readLen h)
      · cases h
        exact Nat.le_add_right len b.toNat

/-- The rest of a length. -/
theorem leads_readLen {ext done : Nat → Pc}
    (hbody : ∀ (s : State) n, s.pc = ext n → body src dstcap s = extend src s ext done n) :
    ∀ {rest rest' out : List UInt8} {len l : Nat} {s : State}, readLen rest len = some (l, rest') →
      l < 2 ^ 32 → At src (ext len) rest out s →
      ∃ t, Loop.Leads (body src dstcap) s t ∧ At src (done l) rest' out t
  | b :: rest, rest', out, len, l, s, hlen, hl, h => by
      obtain ⟨hb, hnext⟩ := h.fetch
      have htogo : s.ip + (rest.length + 1 : Nat) = src.length := h.togo
      have hturn : body src dstcap s = .again (s.fetch
          (if b = 255 then ext (u32 (len + b.toNat)) else done (u32 (len + b.toNat)))) := by
        rw [hbody s len h.pc, extend, if_neg (by omega), hb]
        have hiff : b.toNat = 255 ↔ b = 255 := UInt8.toNat_inj (b := 255)
        simp only [hiff]
      unfold readLen at hlen
      split at hlen
      · rename_i h255
        have hle := le_of_readLen hlen
        rw [if_pos h255, h255] at hturn
        have hu : u32 (len + (255 : UInt8).toNat) = len + 255 := Nat.mod_eq_of_lt (by
          show len + 255 < 2 ^ 32
          omega)
        rw [hu] at hturn
        obtain ⟨t, hleads, ht⟩ := leads_readLen hbody hlen hl (hnext (ext (len + 255)))
        exact ⟨t, .head hturn hleads, ht⟩
      · rename_i h255
        cases hlen
        rw [if_neg h255] at hturn
        have hu : u32 (len + b.toNat) = len + b.toNat := Nat.mod_eq_of_lt hl
        rw [hu] at hturn
        exact ⟨_, .single hturn, hnext _⟩

/-- A length, from the half of the token that begins it. -/
theorem leads_lenOf {ext done : Nat → Pc}
    (hbody : ∀ (s : State) n, s.pc = ext n → body src dstcap s = extend src s ext done n)
    {rest rest' out : List UInt8} {half l : Nat} {s : State} (hlen : lenOf half rest = some (l, rest'))
    (hl : l < 2 ^ 32) (h : At src (if half = 15 then ext half else done half) rest out s) :
    ∃ t, Loop.Leads (body src dstcap) s t ∧ At src (done l) rest' out t := by
  unfold lenOf at hlen
  split at hlen
  · rename_i h15
    rw [if_pos h15, h15] at h
    exact leads_readLen hbody hlen hl h
  · rename_i h15
    cases hlen
    rw [if_neg h15] at h
    exact ⟨s, .refl, h⟩

theorem At.literals_last {tok len : Nat} {rest out : List UInt8} {s : State}
    (h : At src (.lits tok len) rest out s) (hroom : out.length + len ≤ dstcap)
    (hlen : len = rest.length) :
    ∃ t, body src dstcap s = .stop ((out ++ rest.take len).length, t) ∧
      Holds t (out ++ rest.take len) := by
  obtain ⟨k, hip, hle, hrest⟩ := h.ip
  have htogo := h.togo
  have hop := h.holds.op
  have hcopied := h.holds.memcpy hip hrest (Nat.le_of_eq hlen)
  refine ⟨memcpy src s len, ?_, hcopied⟩
  have hipm : (memcpy src s len).ip = s.ip + len := rfl
  simp only [body, h.pc]
  rw [literals, if_neg (by omega)]
  dsimp only
  rw [if_pos (by omega), hcopied.op]

/-- The literals of a sequence with a match. -/
theorem At.literals {tok len : Nat} {rest out : List UInt8} {s : State} {b₀ b₁ : UInt8}
    {rest' : List UInt8} (h : At src (.lits tok len) rest out s)
    (hroom : out.length + len ≤ dstcap) (hlen : len ≤ rest.length)
    (hrest' : rest.drop len = b₀ :: b₁ :: rest') {off : Nat}
    (hoff : off = b₀.toNat + 256 * b₁.toNat) (hpos : 0 < off)
    (hreach : off ≤ (out ++ rest.take len).length) :
    ∃ t, body src dstcap s = .again t ∧
      At src (if tok % 16 = 15 then .matchExt off (tok % 16) else .copy off (tok % 16)) rest'
        (out ++ rest.take len) t := by
  obtain ⟨k, hip, hle, hrest⟩ := h.ip
  have htogo := h.togo
  have hop := h.holds.op
  have hcopied := h.holds.memcpy hip hrest hlen
  have hipm : (memcpy src s len).ip = (k + len : Nat) := by
    show s.ip + len = _
    rw [hip]
    rfl
  have hdrop : src.drop (k + len) = b₀ :: b₁ :: rest' := by
    rw [← List.drop_drop, hrest, hrest']
  obtain ⟨hdrop1, -⟩ := drop_tail hdrop
  obtain ⟨hdrop2, hle2⟩ := drop_tail hdrop1
  have hopm := hcopied.op
  have hb₀ : byteAt src (memcpy src s len).ip = b₀.toNat := byteAt_drop hdrop hipm
  have hb₁ : byteAt src ((memcpy src s len).ip + 1) = b₁.toNat := byteAt_drop hdrop1 (by rw [hipm]; rfl)
  refine ⟨{ memcpy src s len with
    ip := (memcpy src s len).ip + 2
    log := .fetch (memcpy src s len).ip 2 :: (memcpy src s len).log
    pc := if tok % 16 = 15 then .matchExt off (tok % 16) else .copy off (tok % 16) }, ?_, ?_⟩
  · simp only [body, h.pc]
    rw [Lz4Block.literals, if_neg (by omega)]
    dsimp only
    rw [if_neg (by omega), if_neg (by omega), hb₀, hb₁, ← hoff, if_neg (by omega)]
  · exact ⟨rfl, ⟨k + len + 2, by
      show (memcpy src s len).ip + 2 = _
      rw [hipm]
      rfl, hle2, hdrop2⟩, ⟨hcopied.op, hcopied.bytes⟩⟩

theorem At.copy {off mlen : Nat} {rest out : List UInt8} {s : State}
    (h : At src (.copy off mlen) rest out s) (hpos : 0 < off) (hreach : off ≤ out.length)
    (hroom : out.length + (mlen + 4) ≤ dstcap) (hcap : dstcap < 2 ^ 31) :
    ∃ t, body src dstcap s = .again t ∧ At src .head rest (Lz4.copyMatch off (mlen + 4) out) t := by
  have hop := h.holds.op
  have hu : u32 (mlen + 4) = mlen + 4 := Nat.mod_eq_of_lt (by omega)
  have hheld := @Holds.copyMatch off hpos (mlen + 4) s out h.holds hreach
  refine ⟨{ copyMatch (s.op - off) (mlen + 4) s with pc := .head }, ?_, ?_⟩
  · simp only [body, h.pc, hu]
    rw [if_neg (by push_cast; omega)]
  · exact ⟨rfl, by
      show ∃ k : Nat, (copyMatch _ _ s).ip = k ∧ _
      rw [copyMatch_ip]
      exact h.ip, ⟨hheld.op, hheld.bytes⟩⟩

/-- The decoder does what the one on lists does. -/
theorem decompressFrom_refines (hcap : dstcap < 2 ^ 31) : ∀ {fuel : Nat} {rest out res : List UInt8}
    {s : State}, decompressFrom dstcap fuel rest out = some res → At src .head rest out s →
      ∃ t, (∃ fuel, Loop.loop (body src dstcap) fuel s = some ((res.length : Int), t)) ∧ Holds t res
  | fuel, [], out, res, s, hdec, h => by
      have hres : res = out := by
        cases fuel <;> exact (Option.some.inj hdec).symm
      have htogo : s.ip + (0 : Nat) = src.length := h.togo
      rw [hres]
      refine ⟨s, Loop.loop_of_stop ?_, h.holds⟩
      simp only [body, h.pc]
      rw [if_neg (by omega), h.holds.op]
  | fuel + 1, tok :: ip, out, res, s, hdec, h => by
      obtain ⟨htok, hnext⟩ := h.fetch
      have htogo : s.ip + (ip.length + 1 : Nat) = src.length := h.togo
      have hturn : body src dstcap s = .again (s.fetch (if tok.toNat / 16 = 15 then
          .litExt tok.toNat (tok.toNat / 16) else .lits tok.toNat (tok.toNat / 16))) := by
        simp only [body, h.pc]
        rw [if_pos (by omega), htok]
      unfold decompressFrom at hdec
      cases hlit : lenOf (tok.toNat / 16) ip with
      | none => rw [hlit] at hdec; cases hdec
      | some p =>
          obtain ⟨len, ip₁⟩ := p
          rw [hlit] at hdec
          dsimp only at hdec
          split at hdec
          · cases hdec
          · rename_i hfit
            rw [not_or, not_lt, not_lt] at hfit
            obtain ⟨s₁, hleads₁, h₁⟩ := @leads_lenOf src dstcap (.litExt tok.toNat)
              (.lits tok.toNat) (fun s n hpc => by simp only [body, hpc]) _ _ _ _ _ _ hlit (by omega)
              (hnext _)
            have hleads₁ : Loop.Leads (body src dstcap) s s₁ := .head hturn hleads₁
            split at hdec
            · rename_i hlast
              -- the literals that come last
              obtain rfl := Option.some.inj hdec
              obtain ⟨t, ht, hheld⟩ := h₁.literals_last hfit.1
                (Nat.le_antisymm hfit.2 (List.drop_eq_nil_iff.mp hlast))
              exact ⟨t, Loop.Leads.loop_eq hleads₁ (Loop.loop_of_stop ht), hheld⟩
            · cases hdec
            · rename_i b₀ b₁ ip' hrest'
              split at hdec
              · cases hdec
              · rename_i hoff
                rw [not_or, not_lt] at hoff
                cases hmat : lenOf (tok.toNat % 16) ip' with
                | none => rw [hmat] at hdec; cases hdec
                | some p =>
                    obtain ⟨mlen, ip''⟩ := p
                    rw [hmat] at hdec
                    dsimp only at hdec
                    split at hdec
                    · cases hdec
                    · rename_i hroom
                      obtain ⟨s₂, ht₂, h₂⟩ := h₁.literals hfit.1 hfit.2 hrest' rfl
                        (Nat.pos_of_ne_zero hoff.1) hoff.2
                      obtain ⟨s₃, hleads₃, h₃⟩ := @leads_lenOf src dstcap
                        (.matchExt (b₀.toNat + 256 * b₁.toNat)) (.copy (b₀.toNat + 256 * b₁.toNat))
                        (fun s n hpc => by simp only [body, hpc]) _ _ _ _ _ _ hmat (by omega) h₂
                      obtain ⟨s₄, ht₄, h₄⟩ := h₃.copy (Nat.pos_of_ne_zero hoff.1) hoff.2
                        (not_lt.mp hroom) hcap
                      obtain ⟨t, hloop, hheld⟩ := decompressFrom_refines hcap hdec h₄
                      exact ⟨t, Loop.Leads.loop_eq (hleads₁.trans (.head ht₂ (hleads₃.tail ht₄)))
                        hloop, hheld⟩

/-- **The decoder of the loader is exact and safe.** -/
theorem lz4Block_correct (dst : Int → UInt8) :
    (∀ (qs : List Lz4.Seq) (last : List UInt8) (dstcap : Nat), Lz4.Reaches [] qs →
      dstcap < 2 ^ 31 → (Lz4.decode [] qs last).length ≤ dstcap →
      ∃ t, decompress (Lz4.encode qs last) dstcap dst =
          some (((Lz4.decode [] qs last).length : Int), t) ∧
        (List.range (Lz4.decode [] qs last).length).map (fun i : Nat => t.dst i) = Lz4.decode [] qs last) ∧
    ∀ (src : List UInt8) (dstcap : Nat), ∃ ret t, decompress src dstcap dst = some (ret, t) ∧
      (∀ a ∈ t.log, a.Within src.length dstcap) ∧
      (∀ i, i < 0 ∨ (dstcap : Int) ≤ i → t.dst i = dst i) ∧
      (ret = -1 ∨ 0 ≤ ret ∧ ret ≤ dstcap) := by
  constructor
  · intro qs last dstcap hreach hcap hlen
    have hdec := decompressFrom_encode qs _ [] last hreach hlen (length_lt_encode qs last)
    obtain ⟨t, ⟨fuel, hloop⟩, hheld⟩ := @decompressFrom_refines (Lz4.encode qs last) dstcap
      hcap _ _ _ _ (start dst) hdec ⟨rfl, ⟨0, rfl, Nat.zero_le _, rfl⟩, ⟨rfl, nofun⟩⟩
    obtain ⟨r, hr, -⟩ := decompress_total (Lz4.encode qs last) dstcap dst
    refine ⟨t, ?_, ?_⟩
    · rw [hr, Loop.loop_unique hr hloop]
    · refine List.ext_getElem? fun i => ?_
      rcases Nat.lt_or_ge i (Lz4.decode [] qs last).length with hlt | hge
      · rw [List.getElem?_map, List.getElem?_range hlt, Option.map_some,
          List.getElem?_eq_getElem hlt]
        exact congrArg some (hheld.bytes i _ (List.getElem?_eq_getElem hlt))
      · rw [List.getElem?_eq_none_iff.mpr (by simpa using hge), List.getElem?_eq_none_iff.mpr hge]
  · intro src dstcap
    obtain ⟨⟨ret, t⟩, hr, hret, hlog⟩ := decompress_total src dstcap dst
    exact ⟨ret, t, hr, hlog.within, hlog.frame, hret⟩

/-- A match that runs into itself. -/
theorem lz4Block_correct_overlap :
    ∃ t, decompress (Lz4.encode [⟨[97], 1, 5⟩] [98]) 7 (fun _ => 0) = some (7, t) ∧
      (List.range 7).map (fun i : Nat => t.dst i) = [97, 97, 97, 97, 97, 97, 98] :=
  (lz4Block_correct fun _ => 0).1 [⟨[97], 1, 5⟩] [98] 7
    ⟨by decide, by decide, by decide, by decide, trivial⟩ (by decide) (by decide)

end Hammer2.Boot.Lz4Block
