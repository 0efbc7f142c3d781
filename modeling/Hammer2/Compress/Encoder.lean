/-
# `Hammer2.Compress.Encoder` — `LZ4_compress_limitedOutput`

`hammer2_lz4_encoder.h` on the two buffers, with its hash table, for 64 bits.  Both of the functions
in it are this code: `COMPRESS_64K` is not defined.  A turn is a basic block of the source, or a
turn of one of its loops; a pointer is its distance from the start of its buffer, and every byte
that is read or written is logged.

    find           `do { … } while` of a match: `ip` goes on by steps that grow
    catchUp        the match may begin before
    literals       the token, the length, and the literals
    nextMatch      the distance
    count          the match goes on, by eight bytes and by 4, 2 and 1
    matchLength    its length; the next match may follow at once
    lastLiterals   the rest of the block
-/
import Hammer2.Boot.Lz4Block
import Hammer2.Lib.Overlap
import Mathlib.Logic.Function.Basic

namespace Hammer2.Compress.Encoder

open Boot.Lz4Block (Access)

/-! ## The encoder -/

inductive Pc where
  | find (forwardIp forwardH findMatchAttempts : Nat)
  | catchUp (ref : Nat)
  | literals (ref : Nat)
  | nextMatch (token ref : Nat)
  | count (token ref : Nat)
  | countRest (token ref : Nat)
  | matchLength (token : Nat)
  | lastLiterals

structure State where
  ip : Nat
  anchor : Nat
  op : Nat
  dst : Int → UInt8
  hashTable : Nat → Nat
  log : List Access
  pc : Pc

variable (src : List UInt8)

/-- `len` bytes as a number: `A16`, `A32`, `A64`. -/
def word : Nat → Nat → Nat
  | 0, _ => 0
  | len + 1, p => (src.getD p 0).toNat + 256 * word len (p + 1)

/-- `LZ4_HASHVALUE` -/
def hashValue (p : Nat) : Nat := word src 4 p * 2654435761 % 2 ^ 32 / 2 ^ 20

/-- `LZ4_NbCommonBytes` -/
def nbCommonBytes (val : Nat) : Nat := (BitVec.ofNat 64 val).ctz.toNat / 8

/-- `len` bytes at `p` are read. -/
def State.read (s : State) (p len : Nat) : State := { s with log := .fetch p len :: s.log }

/-- `*op++ = b` -/
def State.put (s : State) (b : UInt8) : State :=
  { s with
    op := s.op + 1
    dst := fun i => if i = s.op then b else s.dst i
    log := .store s.op 1 :: s.log }

/-- `*op++ = 255`, so many times. -/
def put255 : Nat → State → State
  | 0, s => s
  | k + 1, s => put255 k (s.put 255)

/-- `for (; len >= 255; len -= 255) *op++ = 255; *op++ = (BYTE)len` -/
def putRun (len : Nat) (s : State) : State := (put255 (len / 255) s).put (UInt8.ofNat (len % 255))

/-- The same by pairs:
`for (; length > 509; length -= 510) { *op++ = 255; *op++ = 255; }`, and at most one more. -/
def putPairs (len : Nat) (s : State) : State :=
  let s := put255 (2 * (len / 510)) s
  let len := len % 510
  if len ≥ 255 then (s.put 255).put (UInt8.ofNat (len - 255)) else s.put (UInt8.ofNat len)

/-- `*token = b` -/
def State.setToken (s : State) (token : Nat) (b : UInt8) : State :=
  { s with
    dst := fun i => if i = token then b else s.dst i
    log := .store token 1 :: s.log }

/-- `*token += b` -/
def State.addToken (s : State) (token : Nat) (b : UInt8) : State :=
  { s with
    dst := fun i => if i = token then s.dst token + b else s.dst i
    log := .store token 1 :: .load token 1 :: s.log }

/-- `len` bytes from `from_` to `op`. -/
def State.copy (s : State) (len from_ : Nat) : State :=
  { s with
    op := s.op + len
    dst := fun i =>
      if s.op ≤ i ∧ i < s.op + len then src.getD (from_ + (i - s.op).toNat) 0 else s.dst i
    log := .store s.op len :: .fetch from_ len :: s.log }

/-- So many packets of eight bytes. -/
def wildCopy : Nat → Nat → State → State
  | 0, _, s => s
  | k + 1, from_, s => wildCopy k (from_ + 8) (s.copy src 8 from_)

/-- `LZ4_BLINDCOPY(anchor, op, length)`: as many packets as reach the end, and one at least. -/
def blindCopy (length : Nat) (s : State) : State :=
  { wildCopy src (max 1 ((length + 7) / 8)) s.anchor s with op := s.op + length }

/-- A step of the end of a match: `len` bytes, if they are before `limit` and are the same. -/
def countStep (len limit : Nat) (s : State × Nat) : State × Nat :=
  let (s, ref) := s
  if s.ip + len ≤ limit then
    let t := (s.read ref len).read s.ip len
    if word src len ref = word src len s.ip then ({ t with ip := s.ip + len }, ref + len)
    else (t, ref)
  else (s, ref)

variable (maxOutputSize : Nat)

/-- The rest of the block, `iend - anchor` bytes. -/
def lastLiterals (s : State) : Nat × State :=
  let lastRun := src.length - s.anchor
  if s.op + lastRun + 1 + (lastRun + 255 - 15) / 255 > maxOutputSize then (0, s)
  else
    let s := if lastRun ≥ 15 then putRun (lastRun - 15) (s.put 0xF0)
      else s.put (UInt8.ofNat (lastRun * 16))
    let s := s.copy src lastRun s.anchor
    (s.op, s)

/-- What comes behind a match: the end of the block, a match at once, or the search. -/
def afterMatch (s : State) : State :=
  if s.ip > src.length - 12 then { s with anchor := s.ip, pc := .lastLiterals }
  else
    let s := { s with
      hashTable := Function.update s.hashTable (hashValue src (s.ip - 2)) (s.ip - 2)
      log := .fetch (s.ip - 2 : Nat) 4 :: s.log }
    let ref : Nat := s.hashTable (hashValue src s.ip)
    let s := { s with
      hashTable := Function.update s.hashTable (hashValue src s.ip) s.ip
      log := .fetch s.ip 4 :: s.log }
    let t := { s.read (s.ip + 1) 4 with
      anchor := s.ip, ip := s.ip + 1, pc := .find (s.ip + 1) (hashValue src (s.ip + 1)) 67 }
    if ref + 65535 ≥ s.ip then
      let s := (s.read ref 4).read s.ip 4
      if word src 4 ref = word src 4 s.ip then { s.put 0 with pc := .nextMatch s.op ref }
      else { t with log := .fetch (s.ip + 1 : Nat) 4 :: s.log }
    else t

def body (s : State) : Loop.Turn State (Nat × State) :=
  match s.pc with
  | .find forwardIp forwardH findMatchAttempts =>
      let h := forwardH
      let step := findMatchAttempts / 64
      let s := { s with ip := forwardIp }
      let forwardIp := s.ip + step
      if forwardIp > src.length - 12 then .again { s with pc := .lastLiterals }
      else
        let ref : Nat := s.hashTable h
        let s := { s.read forwardIp 4 with
          hashTable := Function.update s.hashTable h s.ip
          pc := .find forwardIp (hashValue src forwardIp) (findMatchAttempts + 1) }
        if ref + 65535 < s.ip then .again s
        else
          let s := (s.read ref 4).read s.ip 4
          if word src 4 ref ≠ word src 4 s.ip then .again s
          else .again { s with pc := .catchUp ref }
  | .catchUp ref =>
      if s.ip > s.anchor ∧ ref > 0 then
        let s := (s.read (s.ip - 1) 1).read (ref - 1) 1
        if src.getD (s.ip - 1) 0 = src.getD (ref - 1) 0 then
          .again { s with ip := s.ip - 1, pc := .catchUp (ref - 1) }
        else .again { s with pc := .literals ref }
      else .again { s with pc := .literals ref }
  | .literals ref =>
      let length := s.ip - s.anchor
      let token := s.op
      let s := { s with op := s.op + 1 }
      if s.op + length + 8 + length / 256 > maxOutputSize then .stop (0, s)
      else
        let s := if length ≥ 15 then putRun (length - 15) (s.setToken token 0xF0)
          else s.setToken token (UInt8.ofNat (length * 16))
        .again { blindCopy src length s with pc := .nextMatch token ref }
  | .nextMatch token ref =>
      let off := (s.ip - ref) % 65536
      let s := { s with
        op := s.op + 2
        dst := fun i => if i = s.op then UInt8.ofNat (off % 256)
          else if i = s.op + 1 then UInt8.ofNat (off / 256) else s.dst i
        log := .store s.op 2 :: s.log }
      .again { s with ip := s.ip + 4, anchor := s.ip + 4, pc := .count token (ref + 4) }
  | .count token ref =>
      if s.ip + 12 < src.length then
        let diff := word src 8 ref ^^^ word src 8 s.ip
        let s := (s.read ref 8).read s.ip 8
        if diff = 0 then .again { s with ip := s.ip + 8, pc := .count token (ref + 8) }
        else .again { s with ip := s.ip + nbCommonBytes diff, pc := .matchLength token }
      else .again { s with pc := .countRest token ref }
  | .countRest token ref =>
      let matchlimit := src.length - 5
      let s := countStep src 1 matchlimit (countStep src 2 matchlimit (countStep src 4 matchlimit
        (s, ref)))
      .again { s.1 with pc := .matchLength token }
  | .matchLength token =>
      let length := s.ip - s.anchor
      if s.op + 6 + length / 256 > maxOutputSize then .stop (0, s)
      else
        let s := if length ≥ 15 then putPairs (length - 15) (s.addToken token 15)
          else s.addToken token (UInt8.ofNat length)
        .again (afterMatch src s)
  | .lastLiterals => .stop (lastLiterals src maxOutputSize s)

def start (dst : Int → UInt8) : State := ⟨0, 0, 0, dst, fun _ => 0, [], .lastLiterals⟩

/-- The first byte. -/
def first (dst : Int → UInt8) : State :=
  let s := start dst
  { (s.read 0 4).read 1 4 with
    hashTable := Function.update s.hashTable (hashValue src 0) 0
    ip := 1
    pc := .find 1 (hashValue src 1) 67 }

/-- No sequence has more turns. -/
def turns : Nat := 4 * src.length + 100

/-- `LZ4_compress_limitedOutput`: what it returns, and the state it leaves. -/
def compress (dst : Int → UInt8) : Option (Nat × State) :=
  if src.length < 13 then some (lastLiterals src maxOutputSize (start dst))
  else Loop.loop (body src maxOutputSize) (src.length * turns src + turns src) (first src dst)

/-! ## Words -/

section Words

variable {src}

/-- So many bytes are the same at two places. -/
def Same (src : List UInt8) (p q len : Nat) : Prop := ∀ k < len, src.getD (p + k) 0 = src.getD (q + k) 0

theorem same_of_word : ∀ {len p q : Nat}, word src len p = word src len q → Same src p q len
  | 0, _, _, _ => fun k hk => absurd hk (Nat.not_lt_zero k)
  | len + 1, p, q, h => by
      have hp := (src.getD p 0).toNat_lt
      have hq := (src.getD q 0).toNat_lt
      rw [word, word] at h
      have hhead : src.getD p 0 = src.getD q 0 := UInt8.toNat_inj.mp (by omega)
      have hrest : Same src (p + 1) (q + 1) len := same_of_word (by omega)
      intro k hk
      cases k with
      | zero => exact hhead
      | succ k =>
          have := hrest k (by omega)
          rwa [Nat.add_assoc, Nat.add_assoc, Nat.add_comm 1 k] at this

theorem word_of_same : ∀ {len p q : Nat}, Same src p q len → word src len p = word src len q
  | 0, _, _, _ => rfl
  | len + 1, p, q, h => by
      have hhead : src.getD p 0 = src.getD q 0 := h 0 (Nat.succ_pos len)
      have hrest : Same src (p + 1) (q + 1) len := by
        intro k hk
        have := h (k + 1) (by omega)
        rwa [← Nat.add_assoc, ← Nat.add_assoc, Nat.add_right_comm, Nat.add_right_comm q] at this
      rw [word, word, hhead, word_of_same hrest]

theorem word_mod : ∀ {k len : Nat} (p : Nat), k ≤ len → word src len p % 2 ^ (8 * k) = word src k p
  | 0, _, _, _ => Nat.mod_one _
  | k + 1, len + 1, p, hle => by
      have ih := word_mod (p + 1) (Nat.le_of_succ_le_succ hle)
      have hp := (src.getD p 0).toNat_lt
      have hpow : 2 ^ (8 * (k + 1)) = 256 * 2 ^ (8 * k) := by
        rw [Nat.mul_succ, Nat.add_comm, Nat.pow_add]
      rw [word, word, hpow, Nat.mod_mul, ← ih, Nat.add_mul_mod_self_left, Nat.add_mul_div_left _ _ (by decide),
        Nat.div_eq_of_lt (by omega), Nat.zero_add, Nat.mod_eq_of_lt (by omega : _ < 256)]

theorem word_lt (len p : Nat) : word src len p < 2 ^ (8 * len) := by
  rw [← word_mod p (le_refl len)]
  exact Nat.mod_lt _ (Nat.two_pow_pos _)

theorem hashValue_lt (p : Nat) : hashValue src p < 2 ^ 12 := by
  rw [hashValue, Nat.div_lt_iff_lt_mul (by decide)]
  exact Nat.mod_lt _ (by decide)

/-- The first of eight bytes that differs. -/
theorem nbCommonBytes_spec {p q : Nat} (h : word src 8 p ^^^ word src 8 q ≠ 0) :
    nbCommonBytes (word src 8 p ^^^ word src 8 q) < 8 ∧
      Same src p q (nbCommonBytes (word src 8 p ^^^ word src 8 q)) ∧
      ¬ Same src p q (nbCommonBytes (word src 8 p ^^^ word src 8 q) + 1) := by
  have hlt : word src 8 p ^^^ word src 8 q < 2 ^ 64 :=
    Nat.xor_lt_two_pow (word_lt 8 p) (word_lt 8 q)
  have hne : BitVec.ofNat 64 (word src 8 p ^^^ word src 8 q) ≠ 0#64 := by
    intro heq
    have htoNat := congrArg BitVec.toNat heq
    rw [BitVec.toNat_ofNat, Nat.mod_eq_of_lt hlt] at htoNat
    exact h htoNat
  have hbit : ∀ i, (BitVec.ofNat 64 (word src 8 p ^^^ word src 8 q)).getLsbD i =
      ((word src 8 p).testBit i ^^ (word src 8 q).testBit i) := by
    intro i
    rw [← BitVec.testBit_toNat, BitVec.toNat_ofNat, Nat.mod_eq_of_lt hlt, Nat.testBit_xor]
  have hctz : (BitVec.ofNat 64 (word src 8 p ^^^ word src 8 q)).ctz.toNat < 64 := by
    have := BitVec.ctz_lt_iff_ne_zero.mpr hne
    exact this
  have hfirst := BitVec.getLsbD_true_ctz_of_ne_zero hne
  have hbelow : ∀ i, i < (BitVec.ofNat 64 (word src 8 p ^^^ word src 8 q)).ctz.toNat →
      (word src 8 p).testBit i = (word src 8 q).testBit i := by
    intro i hi
    have hfalse := BitVec.getLsbD_false_of_lt_ctz hi
    rw [hbit] at hfalse
    simpa using hfalse
  rw [hbit] at hfirst
  unfold nbCommonBytes
  generalize (BitVec.ofNat 64 (word src 8 p ^^^ word src 8 q)).ctz.toNat = c at *
  refine ⟨by omega, same_of_word ?_, fun hsame => ?_⟩
  · rw [← word_mod p (by omega : c / 8 ≤ 8), ← word_mod q (by omega : c / 8 ≤ 8)]
    refine Nat.eq_of_testBit_eq fun i => ?_
    rw [Nat.testBit_mod_two_pow, Nat.testBit_mod_two_pow]
    by_cases hi : i < 8 * (c / 8)
    · rw [hbelow i (by omega)]
    · rw [decide_eq_false hi, Bool.false_and, Bool.false_and]
  · have hword := word_of_same hsame
    rw [← word_mod p (by omega : c / 8 + 1 ≤ 8), ← word_mod q (by omega : c / 8 + 1 ≤ 8)] at hword
    have hc := congrArg (fun x => x.testBit c) hword
    rw [Nat.testBit_mod_two_pow, Nat.testBit_mod_two_pow,
      decide_eq_true (by omega : c < 8 * (c / 8 + 1)), Bool.true_and, Bool.true_and] at hc
    rw [hc, Bool.xor_self] at hfirst
    cases hfirst

end Words

/-! ## What is written -/

/-- The output up to `op` is `out`, and every access was in its buffer. -/
structure Wrote (src : List UInt8) (cap : Nat) (out : List UInt8) (s : State) : Prop where
  op : s.op = out.length
  held : Lz4.Held s.dst out
  within : ∀ a ∈ s.log, a.Within src.length cap

/-- The rest of the state. -/
structure Kept (s t : State) : Prop where
  ip : t.ip = s.ip
  anchor : t.anchor = s.anchor
  table : t.hashTable = s.hashTable

theorem Kept.trans {s t u : State} (h : Kept s t) (h' : Kept t u) : Kept s u :=
  ⟨h'.ip.trans h.ip, h'.anchor.trans h.anchor, h'.table.trans h.table⟩

section Wrote

variable {src} {cap : Nat} {out : List UInt8} {s : State}

theorem Wrote.log (h : Wrote src cap out s) {t : State} {a : Access} (hop : t.op = s.op)
    (hdst : t.dst = s.dst) (hlog : t.log = a :: s.log) (ha : a.Within src.length cap) :
    Wrote src cap out t where
  op := hop.trans h.op
  held := hdst ▸ h.held
  within b hb := by
    rw [hlog] at hb
    rcases List.mem_cons.mp hb with rfl | hb
    · exact ha
    · exact h.within b hb

theorem Wrote.read (h : Wrote src cap out s) (p len : Nat) (hle : p + len ≤ src.length) :
    Wrote src cap out (s.read p len) :=
  h.log rfl rfl rfl ⟨Int.natCast_nonneg p, by exact_mod_cast hle⟩

theorem Wrote.put (h : Wrote src cap out s) (b : UInt8) (hroom : s.op + 1 ≤ cap) :
    Wrote src cap (out ++ [b]) (s.put b) := by
  have hop := h.op
  refine ⟨?_, ?_, fun a ha => ?_⟩
  · show s.op + 1 = _
    rw [List.length_append, List.length_singleton, hop]
  · refine (h.held.mono fun i hi => if_neg (by omega)).append fun i c hc => ?_
    cases i with
    | succ i =>
        rw [List.getElem?_cons_succ, List.getElem?_nil] at hc
        cases hc
    | zero =>
        obtain rfl := Option.some.inj hc
        exact if_pos (by omega)
  · rcases List.mem_cons.mp ha with rfl | ha
    · exact ⟨Int.natCast_nonneg _, by exact_mod_cast hroom⟩
    · exact h.within a ha

theorem put255_op : ∀ (k : Nat) (s : State), (put255 k s).op = s.op + k
  | 0, _ => rfl
  | k + 1, s => by
      rw [put255, put255_op k]
      show s.op + 1 + k = _
      omega

theorem put255_kept : ∀ (k : Nat) (s : State), Kept s (put255 k s)
  | 0, _ => ⟨rfl, rfl, rfl⟩
  | k + 1, s => Kept.trans (t := s.put 255) ⟨rfl, rfl, rfl⟩ (put255_kept k (s.put 255))

theorem Wrote.put255 : ∀ {k : Nat} {s : State} {out : List UInt8}, Wrote src cap out s →
    s.op + k ≤ cap → Wrote src cap (out ++ List.replicate k 255) (put255 k s)
  | 0, _, out, h, _ => by
      rw [List.replicate_zero, List.append_nil]
      exact h
  | k + 1, s, out, h, hroom => by
      have hnext := (h.put 255 (by omega)).put255 (k := k) (by
        show s.op + 1 + k ≤ cap
        omega)
      rwa [List.append_assoc, List.singleton_append, ← List.replicate_succ] at hnext

/-- The bytes of a long length. -/
def runBytes (len : Nat) : List UInt8 := List.replicate (len / 255) 255 ++ [UInt8.ofNat (len % 255)]

theorem length_runBytes (len : Nat) : (runBytes len).length = len / 255 + 1 := by
  rw [runBytes, List.length_append, List.length_replicate, List.length_singleton]

theorem more_eq {n : Nat} (h : n ≥ 15) : Lz4.more n = runBytes (n - 15) := if_neg (Nat.not_lt.mpr h)

theorem length_more_le (n : Nat) : (Lz4.more n).length ≤ n / 256 + n / 65280 + 2 := by
  unfold Lz4.more
  split
  · exact Nat.zero_le _
  · rw [List.length_append, List.length_replicate, List.length_singleton]
    omega

theorem Wrote.putRun (h : Wrote src cap out s) (len : Nat) (hroom : s.op + (len / 255 + 1) ≤ cap) :
    Wrote src cap (out ++ runBytes len) (putRun len s) := by
  have hlast := (h.put255 (k := len / 255) (by omega)).put (UInt8.ofNat (len % 255)) (by
    rw [put255_op]
    omega)
  rwa [List.append_assoc] at hlast

theorem putRun_kept (len : Nat) (s : State) : Kept s (putRun len s) :=
  (put255_kept _ s).trans ⟨rfl, rfl, rfl⟩

/-- By pairs or one by one. -/
theorem Wrote.putPairs (h : Wrote src cap out s) (len : Nat) (hroom : s.op + (len / 255 + 1) ≤ cap) :
    Wrote src cap (out ++ runBytes len) (putPairs len s) := by
  have hpairs := h.put255 (k := 2 * (len / 510)) (by omega)
  have hop := put255_op (2 * (len / 510)) s
  unfold Encoder.putPairs
  dsimp only
  split
  · rename_i hmore
    have hone := (hpairs.put 255 (by omega)).put (UInt8.ofNat (len % 510 - 255)) (by
      show (Encoder.put255 (2 * (len / 510)) s).op + 1 + 1 ≤ cap
      omega)
    have hcount : len / 255 = 2 * (len / 510) + 1 := by omega
    have hrest : len % 255 = len % 510 - 255 := by omega
    rw [runBytes, hcount, hrest, List.replicate_succ']
    simpa only [List.append_assoc] using hone
  · have hone := hpairs.put (UInt8.ofNat (len % 510)) (by omega)
    have hcount : len / 255 = 2 * (len / 510) := by omega
    have hrest : len % 255 = len % 510 := by omega
    rw [runBytes, hcount, hrest, ← List.append_assoc]
    exact hone

theorem putPairs_kept (len : Nat) (s : State) : Kept s (putPairs len s) := by
  unfold putPairs
  dsimp only
  split
  · exact (put255_kept _ s).trans ⟨rfl, rfl, rfl⟩
  · exact (put255_kept _ s).trans ⟨rfl, rfl, rfl⟩

/-- The second half of a token. -/
theorem Wrote.addToken {pre post : List UInt8} {b : UInt8} (h : Wrote src cap (pre ++ b :: post) s)
    (x : UInt8) (hroom : pre.length + 1 ≤ cap) :
    Wrote src cap (pre ++ (b + x) :: post) (s.addToken pre.length x) := by
  refine ⟨?_, ?_, fun a ha => ?_⟩
  · show s.op = _
    rw [h.op, List.length_append, List.length_append]
    rfl
  · refine h.held.set rfl ?_ fun i hi => if_neg hi
    have htoken : s.dst pre.length = b :=
      h.held pre.length b (by rw [List.getElem?_append_right le_rfl, Nat.sub_self]; rfl)
    show (if _ then s.dst pre.length + x else _) = _
    rw [if_pos rfl, htoken]
  · rcases List.mem_cons.mp ha with rfl | ha
    · exact ⟨Int.natCast_nonneg _, by exact_mod_cast hroom⟩
    · rcases List.mem_cons.mp ha with rfl | ha
      · exact ⟨Int.natCast_nonneg _, by exact_mod_cast hroom⟩
      · exact h.within a ha

theorem Wrote.copy (h : Wrote src cap out s) (len p : Nat) (hle : p + len ≤ src.length)
    (hroom : s.op + len ≤ cap) :
    Wrote src cap (out ++ (src.drop p).take len) (s.copy src len p) := by
  have hop := h.op
  have hlen : ((src.drop p).take len).length = len := by
    rw [List.length_take, List.length_drop, Nat.min_eq_left (by omega)]
  refine ⟨?_, ?_, fun a ha => ?_⟩
  · show s.op + len = _
    rw [List.length_append, hlen, hop]
  · refine (h.held.mono fun i hi => if_neg (by omega)).append fun i c hc => ?_
    have hlt : i < len := by
      have := (List.getElem?_eq_some_iff.mp hc).1
      omega
    have hfrom : p + ((out.length : Int) + i - s.op).toNat = p + i := by omega
    rw [List.getElem?_take_of_lt hlt, List.getElem?_drop] at hc
    show (if _ then src.getD _ 0 else _) = _
    rw [if_pos (by omega), hfrom, List.getD_eq_getElem?_getD, hc]
    rfl
  · rcases List.mem_cons.mp ha with rfl | ha
    · exact ⟨Int.natCast_nonneg _, by exact_mod_cast hroom⟩
    · rcases List.mem_cons.mp ha with rfl | ha
      · exact ⟨Int.natCast_nonneg _, by exact_mod_cast hle⟩
      · exact h.within a ha

theorem Wrote.wildCopy : ∀ {k p : Nat} {s : State} {out : List UInt8}, Wrote src cap out s →
    p + 8 * k ≤ src.length → s.op + 8 * k ≤ cap →
    Wrote src cap (out ++ (src.drop p).take (8 * k)) (wildCopy src k p s)
  | 0, p, s, out, h, _, _ => by
      rw [Nat.mul_zero, List.take_zero, List.append_nil]
      exact h
  | k + 1, p, s, out, h, hle, hroom => by
      have hnext := (h.copy 8 p (by omega) (by omega)).wildCopy (k := k) (p := p + 8)
        (by omega) (by
          show s.op + 8 + 8 * k ≤ cap
          omega)
      have hsum : 8 * (k + 1) = 8 + 8 * k := by omega
      rw [hsum, List.take_add, List.drop_drop, ← List.append_assoc]
      exact hnext

theorem wildCopy_kept : ∀ (k p : Nat) (s : State), Kept s (wildCopy src k p s)
  | 0, _, _ => ⟨rfl, rfl, rfl⟩
  | k + 1, p, s =>
      Kept.trans (t := s.copy src 8 p) ⟨rfl, rfl, rfl⟩ (wildCopy_kept k (p + 8) (s.copy src 8 p))

/-- The literals are copied, and more: up to the next multiple of eight. -/
theorem Wrote.blindCopy (h : Wrote src cap out s) (length : Nat)
    (hle : s.anchor + length + 8 ≤ src.length) (hroom : s.op + max 8 (length + 7) ≤ cap) :
    Wrote src cap (out ++ (src.drop s.anchor).take length) (blindCopy src length s) := by
  have hpackets : length ≤ 8 * max 1 ((length + 7) / 8) ∧
      8 * max 1 ((length + 7) / 8) ≤ max 8 (length + 7) := by omega
  have hwild := h.wildCopy (k := max 1 ((length + 7) / 8)) (p := s.anchor) (by omega) (by omega)
  refine ⟨?_, hwild.held.of_prefix ?_, hwild.within⟩
  · show s.op + length = _
    rw [List.length_append, List.length_take, List.length_drop, Nat.min_eq_left (by omega), h.op]
  · exact (List.prefix_append_right_inj out).mpr (List.take_prefix_take_left hpackets.1)

end Wrote

/-! ## The invariant -/

/-- The sequences that are complete stand for the first `a` bytes, and the block may end as it
should. -/
structure Done (src : List UInt8) (qs : List Lz4.Seq) (a : Nat) : Prop where
  reaches : Lz4.Reaches [] qs
  expand : Lz4.decode [] qs [] = src.take a
  le : a ≤ src.length
  five : qs ≠ [] → a + 5 ≤ src.length
  twelve : ∀ q, qs.getLast? = some q → a + 12 ≤ q.len + src.length

/-- The bytes of some sequences. -/
def seqBytes (qs : List Lz4.Seq) : List UInt8 := qs.flatMap Lz4.encodeSeq

/-- A match: how far back, and that no entry of the table is beyond what is known to be the same. -/
structure Matched (src : List UInt8) (s : State) (ref known : Nat) : Prop where
  back : ref < s.ip
  near : s.ip ≤ ref + 65535
  four : s.ip + 4 ≤ known
  limit : known + 8 ≤ src.length
  same : Same src s.ip ref (known - s.ip)
  table : ∀ h, s.hashTable h < known

/-- A sequence without its distance. -/
def opened (lits : List UInt8) : List UInt8 :=
  UInt8.ofNat (16 * Lz4.nibble lits.length) :: (Lz4.more lits.length ++ lits)

/-- A sequence with its distance. -/
def openedOff (lits : List UInt8) (off : Nat) : List UInt8 :=
  UInt8.ofNat (16 * Lz4.nibble lits.length) :: (Lz4.more lits.length ++
    (lits ++ [UInt8.ofNat (off % 256), UInt8.ofNat (off / 256)]))

/-- A match of the distance `off` is being measured; it began at `m`. -/
structure Measuring (src : List UInt8) (cap : Nat) (s : State) (token off m : Nat)
    (qs : List Lz4.Seq) (a : Nat) : Prop where
  done : Done src qs a
  le : a ≤ m
  anchor : s.anchor = m + 4
  ip : m + 4 ≤ s.ip
  far : 1 ≤ off ∧ off < 65536 ∧ off ≤ m
  start : m + 12 ≤ src.length
  limit : s.ip + 5 ≤ src.length
  same : ∀ j, m ≤ j → j < s.ip → src.getD j 0 = src.getD (j - off) 0
  token : token = (seqBytes qs).length
  wrote : Wrote src cap (seqBytes qs ++ openedOff ((src.take m).drop a) off) s

/-- The match goes on, as far as is known. -/
structure Counting (src : List UInt8) (s : State) (off ref known : Nat) : Prop where
  ref : ref + off = s.ip
  limit : known + 8 ≤ src.length
  same : ∀ j, s.ip ≤ j → j < known → src.getD j 0 = src.getD (j - off) 0
  table : ∀ h, s.hashTable h < known

/-- What holds at each place. -/
def Place (src : List UInt8) (cap : Nat) (s : State) (qs : List Lz4.Seq) (a : Nat) : Pc → Prop
  | .find forwardIp _ attempts => Done src qs a ∧ a = s.anchor ∧ Wrote src cap (seqBytes qs) s ∧
      a ≤ forwardIp ∧ 64 ≤ attempts ∧ ∀ h, s.hashTable h < forwardIp
  | .lastLiterals => Done src qs a ∧ a = s.anchor ∧ Wrote src cap (seqBytes qs) s
  | .catchUp ref | .literals ref => Done src qs a ∧ a = s.anchor ∧ Wrote src cap (seqBytes qs) s ∧
      a ≤ s.ip ∧ s.ip + 12 ≤ src.length ∧ ∃ known, Matched src s ref known
  | .nextMatch token ref => Done src qs a ∧ a ≤ s.ip ∧ s.ip + 12 ≤ src.length ∧ s.anchor ≤ a ∧
      s.op + 2 ≤ cap ∧ token = (seqBytes qs).length ∧
      Wrote src cap (seqBytes qs ++ opened ((src.take s.ip).drop a)) s ∧
      ∃ known, Matched src s ref known
  | .count token ref => ∃ off m known, Measuring src cap s token off m qs a ∧
      Counting src s off ref known
  | .countRest token ref => ∃ off m known, Measuring src cap s token off m qs a ∧
      Counting src s off ref known ∧ src.length ≤ s.ip + 12
  | .matchLength token => ∃ off m, Measuring src cap s token off m qs a ∧
      ∀ h, s.hashTable h < s.ip

/-- How far the writes go: the check of the literals does not see all of their length. -/
def reach (maxOutputSize inputSize : Nat) : Nat := maxOutputSize + 1 + inputSize / 65280

def Safe (src : List UInt8) (maxOutputSize : Nat) (s : State) : Prop :=
  ∃ qs a, Place src (reach maxOutputSize src.length) s qs a s.pc

/-- What may be returned: nothing, or a block that stands for the input. -/
structure Returned (src : List UInt8) (maxOutputSize : Nat) (r : Nat × State) : Prop where
  within : ∀ b ∈ r.2.log, b.Within src.length (reach maxOutputSize src.length)
  block : r.1 = 0 ∨ r.1 ≤ maxOutputSize ∧ ∃ qs last, Lz4.Legal qs last ∧
    Lz4.decode [] qs last = src ∧ r.1 = (Lz4.encode qs last).length ∧
    Lz4.Held r.2.dst (Lz4.encode qs last)

/-! ## Progress -/

/-- How far the block is done. -/
def ahead (s : State) : Nat :=
  match s.pc with
  | .count .. | .countRest .. | .matchLength .. => s.anchor - 2
  | _ => s.anchor

/-- What is left of a sequence. -/
def inner (s : State) : Nat :=
  match s.pc with
  | .find forwardIp _ _ => 3 * src.length + 50 + (src.length - forwardIp)
  | .catchUp _ => 2 * src.length + 40 + s.ip
  | .literals _ => 2 * src.length + 30
  | .nextMatch .. => 2 * src.length + 20
  | .count .. => src.length + 10 + (src.length - s.ip)
  | .countRest .. => src.length + 5
  | .matchLength .. => src.length + 4
  | .lastLiterals => 0

def togo (s : State) : Nat := (src.length - ahead s) * turns src + inner src s

variable {src maxOutputSize} in
/-- A turn is nearer to the end of its sequence, or the next one begins. -/
theorem togo_lt {s t : State} (h : inner src t < turns src ∧ ahead s < ahead t ∧
    ahead s < src.length ∨ inner src t < inner src s ∧ ahead s ≤ ahead t) :
    togo src t < togo src s := by
  unfold togo
  rcases h with ⟨hin, hlt, hend⟩ | ⟨hin, hle⟩
  · have hbyte : src.length - ahead t + 1 ≤ src.length - ahead s := by omega
    have hmul := Nat.mul_le_mul_right (turns src) hbyte
    rw [Nat.succ_mul] at hmul
    omega
  · have hsame : src.length - ahead t ≤ src.length - ahead s := by omega
    have hmul := Nat.mul_le_mul_right (turns src) hsame
    omega

/-! ## The turns -/

/-- A turn from `s` keeps what holds and does not go round for ever, or it returns as it may. -/
def Good (src : List UInt8) (maxOutputSize : Nat) (s : State) : Loop.Turn State (Nat × State) → Prop
  | .again t => Safe src maxOutputSize t ∧ togo src t < togo src s
  | .stop r => Returned src maxOutputSize r

section Turns

variable {src maxOutputSize} {qs : List Lz4.Seq} {a : Nat} {s : State}

theorem good_find {forwardIp forwardH attempts : Nat} (hpc : s.pc = .find forwardIp forwardH attempts)
    (h : Place src (reach maxOutputSize src.length) s qs a s.pc) :
    Good src maxOutputSize s (body src maxOutputSize s) := by
  rw [hpc] at h
  obtain ⟨hdone, rfl, hwrote, hle, hstep, htable⟩ := h
  have hahead : ahead s = s.anchor := by simp only [ahead, hpc]
  have hinner : inner src s = 3 * src.length + 50 + (src.length - forwardIp) := by
    simp only [inner, hpc]
  have hdle := hdone.le
  have hone : 1 ≤ attempts / 64 := by omega
  simp only [body, hpc]
  split
  · refine ⟨⟨qs, s.anchor, hdone, rfl, ⟨hwrote.op, hwrote.held, hwrote.within⟩⟩,
      togo_lt (.inr ⟨?_, hahead.le⟩)⟩
    rw [hinner]
    show 0 < _
    omega
  · rename_i hroom
    rw [not_lt] at hroom
    have htable' : ∀ k, Function.update s.hashTable forwardH forwardIp k < forwardIp + 1 := by
      intro k
      rw [Function.update_apply]
      split
      · exact Nat.lt_succ_self _
      · exact Nat.lt_succ_of_lt (htable k)
    have hread₁ := hwrote.read (forwardIp + attempts / 64) 4 (by omega)
    have hread₂ := hread₁.read (s.hashTable forwardH) 4 (by
      have := htable forwardH
      omega)
    have hread₃ := hread₂.read forwardIp 4 (by omega)
    have hturn : 3 * src.length + 50 + (src.length - (forwardIp + attempts / 64)) < inner src s := by
      rw [hinner]
      omega
    split
    · refine ⟨⟨qs, s.anchor, hdone, rfl, ⟨hread₁.op, hread₁.held, hread₁.within⟩, ?_, ?_, ?_⟩,
        togo_lt (.inr ⟨hturn, hahead.le⟩)⟩
      · omega
      · omega
      · exact fun k => Nat.lt_of_lt_of_le (htable' k) (by omega)
    · rename_i hnear
      split
      · refine ⟨⟨qs, s.anchor, hdone, rfl, ⟨hread₃.op, hread₃.held, hread₃.within⟩, ?_, ?_, ?_⟩,
          togo_lt (.inr ⟨hturn, hahead.le⟩)⟩
        · omega
        · omega
        · exact fun k => Nat.lt_of_lt_of_le (htable' k) (by omega)
      · rename_i hword
        rw [not_not] at hword
        refine ⟨⟨qs, s.anchor, hdone, rfl, ⟨hread₃.op, hread₃.held, hread₃.within⟩, hle, ?_,
          forwardIp + 4, ⟨htable forwardH, ?_, le_rfl, ?_, ?_, ?_⟩⟩, togo_lt (.inr ⟨?_, hahead.le⟩)⟩
        · show forwardIp + 12 ≤ _
          omega
        · show forwardIp ≤ s.hashTable forwardH + 65535
          exact not_lt.mp hnear
        · omega
        · show Same src forwardIp (s.hashTable forwardH) (forwardIp + 4 - forwardIp)
          rw [Nat.add_sub_cancel_left]
          exact same_of_word hword.symm
        · exact fun k => Nat.lt_of_lt_of_le (htable' k) (by omega)
        · rw [hinner]
          show 2 * src.length + 40 + forwardIp < _
          omega

theorem good_catchUp {ref : Nat} (hpc : s.pc = .catchUp ref)
    (h : Place src (reach maxOutputSize src.length) s qs a s.pc) :
    Good src maxOutputSize s (body src maxOutputSize s) := by
  rw [hpc] at h
  obtain ⟨hdone, rfl, hwrote, hle, hstart, known, hmatch⟩ := h
  have hahead : ahead s = s.anchor := by simp only [ahead, hpc]
  have hinner : inner src s = 2 * src.length + 40 + s.ip := by simp only [inner, hpc]
  simp only [body, hpc]
  have hlits : 2 * src.length + 30 < inner src s := by
    rw [hinner]
    omega
  have hback := hmatch.back
  split
  · rename_i hmore
    have hread := (hwrote.read (s.ip - 1) 1 (by omega)).read (ref - 1) 1
      (by omega)
    split
    · rename_i hbyte
      refine ⟨⟨qs, s.anchor, hdone, rfl, ⟨hread.op, hread.held, hread.within⟩, ?_, ?_, known,
        ⟨?_, ?_, ?_, hmatch.limit, ?_, hmatch.table⟩⟩, togo_lt (.inr ⟨?_, hahead.le⟩)⟩
      · show s.anchor ≤ s.ip - 1
        omega
      · show s.ip - 1 + 12 ≤ _
        omega
      · show ref - 1 < s.ip - 1
        omega
      · have := hmatch.near
        show s.ip - 1 ≤ ref - 1 + 65535
        omega
      · have := hmatch.four
        show s.ip - 1 + 4 ≤ known
        omega
      · intro k hk
        have hk : k < known - (s.ip - 1) := hk
        show src.getD (s.ip - 1 + k) 0 = src.getD (ref - 1 + k) 0
        cases k with
        | zero => exact hbyte
        | succ k =>
            have hold := hmatch.same k (by omega)
            rwa [show s.ip - 1 + (k + 1) = s.ip + k by omega,
              show ref - 1 + (k + 1) = ref + k by omega]
      · rw [hinner]
        show 2 * src.length + 40 + (s.ip - 1) < _
        omega
    · exact ⟨⟨qs, s.anchor, hdone, rfl, ⟨hread.op, hread.held, hread.within⟩, hle, hstart, known,
        ⟨hback, hmatch.near, hmatch.four, hmatch.limit, hmatch.same, hmatch.table⟩⟩,
        togo_lt (.inr ⟨hlits, hahead.le⟩)⟩
  · exact ⟨⟨qs, s.anchor, hdone, rfl, ⟨hwrote.op, hwrote.held, hwrote.within⟩, hle, hstart, known,
      ⟨hback, hmatch.near, hmatch.four, hmatch.limit, hmatch.same, hmatch.table⟩⟩,
      togo_lt (.inr ⟨hlits, hahead.le⟩)⟩

/-- The first half of a token. -/
theorem tokenByte (n : Nat) :
    (if n ≥ 15 then 0xF0 else UInt8.ofNat (n * 16)) = UInt8.ofNat (16 * Lz4.nibble n) := by
  split
  · rename_i h
    rw [Lz4.nibble_of_ge (Nat.not_lt.mpr h)]
    rfl
  · rename_i h
    rw [Lz4.nibble_of_lt (not_le.mp h), Nat.mul_comm]

/-- The token and the length of some literals. -/
theorem Wrote.litLength {cap : Nat} {out : List UInt8} (h : Wrote src cap out s) (length : Nat)
    (hroom : s.op + 1 + (Lz4.more length).length ≤ cap) :
    let t := if length ≥ 15 then Encoder.putRun (length - 15) (s.put 0xF0)
      else s.put (UInt8.ofNat (length * 16))
    Wrote src cap (out ++ UInt8.ofNat (16 * Lz4.nibble length) :: Lz4.more length) t ∧ Kept s t ∧
      t.op = s.op + 1 + (Lz4.more length).length := by
  have htoken := tokenByte length
  dsimp only
  split
  · rename_i hlong
    rw [if_pos hlong] at htoken
    rw [more_eq hlong, length_runBytes] at hroom ⊢
    have hput := (h.put 0xF0 (by omega)).putRun (length - 15) hroom
    rw [List.append_assoc, List.singleton_append] at hput
    rw [← htoken]
    refine ⟨hput, (Kept.trans (t := s.put 0xF0) ⟨rfl, rfl, rfl⟩ (putRun_kept _ _)), ?_⟩
    show (Encoder.put255 _ (s.put 0xF0)).op + 1 = _
    rw [put255_op]
    rfl
  · rename_i hshort
    rw [if_neg hshort] at htoken
    have hmore : Lz4.more length = [] := if_pos (not_le.mp hshort)
    rw [hmore] at hroom ⊢
    have hput := h.put (UInt8.ofNat (length * 16)) hroom
    rw [← htoken]
    exact ⟨hput, ⟨rfl, rfl, rfl⟩, rfl⟩

theorem good_literals {ref : Nat} (hpc : s.pc = .literals ref)
    (h : Place src (reach maxOutputSize src.length) s qs a s.pc) :
    Good src maxOutputSize s (body src maxOutputSize s) := by
  rw [hpc] at h
  obtain ⟨hdone, rfl, hwrote, hle, hstart, known, hmatch⟩ := h
  have hahead : ahead s = s.anchor := by simp only [ahead, hpc]
  have hinner : inner src s = 2 * src.length + 30 := by simp only [inner, hpc]
  simp only [body, hpc]
  split
  · exact ⟨hwrote.within, .inl rfl⟩
  · rename_i hroom
    rw [not_lt] at hroom
    have hlen := length_more_le (s.ip - s.anchor)
    have hshort : s.ip - s.anchor < 15 → Lz4.more (s.ip - s.anchor) = [] := fun h => if_pos h
    have hshort' : (Lz4.more (s.ip - s.anchor)).length = 0 ∨ 15 ≤ s.ip - s.anchor := by
      rcases Nat.lt_or_ge (s.ip - s.anchor) 15 with hlt | hge
      · exact .inl (by rw [hshort hlt]; rfl)
      · exact .inr hge
    have hdiv : (s.ip - s.anchor) / 65280 ≤ src.length / 65280 := Nat.div_le_div_right (by omega)
    obtain ⟨hput, hkept, hop⟩ := hwrote.litLength (s.ip - s.anchor) (by
      unfold reach
      omega)
    -- the token is written where the pointer was
    have hsame : ({ s with pc := .literals ref } : State) = s := by rw [← hpc]
    have hset : ∀ b, ({ s with op := s.op + 1, pc := .literals ref } : State).setToken s.op b =
        s.put b := by
      intro b
      conv_rhs => rw [← hsame]
      rfl
    simp only [hset]
    generalize (if s.ip - s.anchor ≥ 15 then putRun (s.ip - s.anchor - 15) (s.put 0xF0)
      else s.put (UInt8.ofNat ((s.ip - s.anchor) * 16))) = t at hput hkept hop
    have hcopied := hput.blindCopy (s.ip - s.anchor) (by
      rw [hkept.anchor]
      omega) (by
      unfold reach
      omega)
    have hwild : Kept t (wildCopy src (max 1 ((s.ip - s.anchor + 7) / 8)) t.anchor t) :=
      wildCopy_kept _ _ _
    have hip : (blindCopy src (s.ip - s.anchor) t).ip = s.ip := hwild.ip.trans hkept.ip
    have htake : (src.drop t.anchor).take (s.ip - s.anchor) = (src.take s.ip).drop s.anchor := by
      rw [hkept.anchor, List.drop_take]
    have hlits : ((src.take s.ip).drop s.anchor).length = s.ip - s.anchor := by
      rw [List.length_drop, List.length_take, Nat.min_eq_left (by omega)]
    rw [htake] at hcopied
    refine ⟨⟨qs, s.anchor, hdone, ?_, ?_, ?_, ?_, hwrote.op, ?_, known, ?_⟩,
      togo_lt (.inr ⟨?_, ?_⟩)⟩
    · show s.anchor ≤ (blindCopy src (s.ip - s.anchor) t).ip
      omega
    · show (blindCopy src (s.ip - s.anchor) t).ip + 12 ≤ _
      omega
    · exact (hwild.anchor.trans hkept.anchor).le
    · show t.op + (s.ip - s.anchor) + 2 ≤ _
      unfold reach
      omega
    · show Wrote src _ (seqBytes qs ++ opened ((src.take (blindCopy src _ t).ip).drop s.anchor)) _
      rw [hip, opened, hlits, ← List.cons_append, ← List.append_assoc]
      exact ⟨hcopied.op, hcopied.held, hcopied.within⟩
    · refine ⟨?_, ?_, ?_, hmatch.limit, ?_, ?_⟩
      · show ref < (blindCopy src _ t).ip
        rw [hip]
        exact hmatch.back
      · show (blindCopy src _ t).ip ≤ _
        rw [hip]
        exact hmatch.near
      · show (blindCopy src _ t).ip + 4 ≤ _
        rw [hip]
        exact hmatch.four
      · show Same src (blindCopy src _ t).ip ref (known - (blindCopy src _ t).ip)
        rw [hip]
        exact hmatch.same
      · intro k
        show (wildCopy src _ _ t).hashTable k < known
        rw [hwild.table, hkept.table]
        exact hmatch.table k
    · rw [hinner]
      show 2 * src.length + 20 < _
      omega
    · rw [hahead]
      exact (hwild.anchor.trans hkept.anchor).ge

theorem opened_append (lits : List UInt8) (off : Nat) :
    opened lits ++ [UInt8.ofNat (off % 256), UInt8.ofNat (off / 256)] = openedOff lits off := by
  simp only [opened, openedOff, List.cons_append, List.append_assoc]

/-- The two bytes of a distance. -/
theorem Wrote.offset {cap : Nat} {out : List UInt8} {b₀ b₁ : UInt8} {t : State}
    (h : Wrote src cap out s) (hroom : s.op + 2 ≤ cap) (hop : t.op = s.op + 2)
    (hdst : t.dst = fun i : Int => if i = s.op then b₀ else if i = s.op + 1 then b₁ else s.dst i)
    (hlog : t.log = .store s.op 2 :: s.log) : Wrote src cap (out ++ [b₀, b₁]) t := by
  have hsop := h.op
  refine ⟨?_, ?_, fun a ha => ?_⟩
  · rw [hop, hsop, List.length_append]
    rfl
  · rw [hdst]
    refine (h.held.mono fun i hi => ?_).append fun i c hc => ?_
    · show (if _ then _ else if _ then _ else _) = _
      rw [if_neg (by omega), if_neg (by omega)]
    · rcases i with _ | _ | i
      · obtain rfl := Option.some.inj hc
        exact if_pos (by omega)
      · obtain rfl := Option.some.inj hc
        show (if _ then _ else if _ then _ else _) = _
        rw [if_neg (by omega), if_pos (by omega)]
      · rw [List.getElem?_cons_succ, List.getElem?_cons_succ, List.getElem?_nil] at hc
        cases hc
  · rw [hlog] at ha
    rcases List.mem_cons.mp ha with rfl | ha
    · exact ⟨Int.natCast_nonneg _, by exact_mod_cast hroom⟩
    · exact h.within a ha

theorem good_nextMatch {token ref : Nat} (hpc : s.pc = .nextMatch token ref)
    (h : Place src (reach maxOutputSize src.length) s qs a s.pc) :
    Good src maxOutputSize s (body src maxOutputSize s) := by
  rw [hpc] at h
  obtain ⟨hdone, hle, hstart, hanchor, hroom, htoken, hwrote, known, hmatch⟩ := h
  have hahead : ahead s = s.anchor := by simp only [ahead, hpc]
  have hoff : (s.ip - ref) % 65536 = s.ip - ref := Nat.mod_eq_of_lt (by
    have := hmatch.near
    omega)
  have hback := hmatch.back
  have hnear := hmatch.near
  have hfour := hmatch.four
  simp only [body, hpc]
  rw [hoff]
  have hsame : ∀ j, s.ip ≤ j → j < known → src.getD j 0 = src.getD (j - (s.ip - ref)) 0 := by
    intro j hge hlt
    have hj := hmatch.same (j - s.ip) (by omega)
    rwa [show s.ip + (j - s.ip) = j by omega, show ref + (j - s.ip) = j - (s.ip - ref) by omega] at hj
  refine ⟨⟨qs, a, s.ip - ref, s.ip, known, ⟨hdone, hle, rfl, le_rfl, ?_, hstart, ?_, ?_, htoken, ?_⟩,
    ⟨?_, hmatch.limit, ?_, hmatch.table⟩⟩, togo_lt (.inl ⟨?_, ?_, ?_⟩)⟩
  · omega
  · show s.ip + 4 + 5 ≤ _
    omega
  · intro j hge hlt
    have hlt : j < s.ip + 4 := hlt
    exact hsame j hge (by omega)
  · rw [← opened_append, ← List.append_assoc]
    exact hwrote.offset hroom rfl rfl rfl
  · show ref + 4 + (s.ip - ref) = s.ip + 4
    omega
  · intro j hge hlt
    have hge : s.ip + 4 ≤ j := hge
    exact hsame j (by omega) hlt
  · show src.length + 10 + (src.length - (s.ip + 4)) < 4 * src.length + 100
    omega
  · rw [hahead]
    show s.anchor < s.ip + 4 - 2
    omega
  · omega

/-- More of a match. -/
theorem Measuring.forward {cap token off m ref known len : Nat} {t : State}
    (h : Measuring src cap s token off m qs a) (hcount : Counting src s off ref known)
    (hsame : Same src ref s.ip len) (hlimit : s.ip + len + 5 ≤ src.length) (hip : t.ip = s.ip + len)
    (hanchor : t.anchor = s.anchor)
    (hwrote : Wrote src cap (seqBytes qs ++ openedOff ((src.take m).drop a) off) t) :
    Measuring src cap t token off m qs a := by
  refine ⟨h.done, h.le, hanchor.trans h.anchor, ?_, h.far, h.start, ?_, fun j hge hlt => ?_, h.token,
    hwrote⟩
  · have := h.ip
    omega
  · omega
  · rcases Nat.lt_or_ge j s.ip with hold | hnew
    · exact h.same j hge hold
    · have hj := hsame (j - s.ip) (by omega)
      have href := hcount.ref
      rw [show s.ip + (j - s.ip) = j by omega, show ref + (j - s.ip) = j - off by omega] at hj
      exact hj.symm

theorem Counting.forward {off ref known len : Nat} {t : State} (h : Counting src s off ref known)
    (hip : t.ip = s.ip + len) (htable : t.hashTable = s.hashTable) :
    Counting src t off (ref + len) known := by
  refine ⟨?_, h.limit, fun j hge hlt => h.same j (by omega) hlt, fun k => htable ▸ h.table k⟩
  have := h.ref
  omega

/-- What is known is the same. -/
theorem Counting.known_same {off ref known len : Nat} (h : Counting src s off ref known)
    (hle : s.ip + len ≤ known) : Same src ref s.ip len := by
  intro k hk
  have hj := h.same (s.ip + k) (by omega) (by omega)
  have href := h.ref
  rw [show s.ip + k - off = ref + k by omega] at hj
  exact hj.symm

theorem good_count {token ref : Nat} (hpc : s.pc = .count token ref)
    (h : Place src (reach maxOutputSize src.length) s qs a s.pc) :
    Good src maxOutputSize s (body src maxOutputSize s) := by
  rw [hpc] at h
  obtain ⟨off, m, known, hmeas, hcount⟩ := h
  have hahead : ahead s = s.anchor - 2 := by simp only [ahead, hpc]
  have hinner : inner src s = src.length + 10 + (src.length - s.ip) := by simp only [inner, hpc]
  have href := hcount.ref
  simp only [body, hpc]
  split
  · rename_i hmore
    have hread := (hmeas.wrote.read ref 8 (by omega)).read s.ip 8
      (by omega)
    split
    · rename_i hdiff
      have hsame : Same src ref s.ip 8 := same_of_word (Nat.xor_eq_zero_iff.mp hdiff)
      refine ⟨⟨qs, a, off, m, known, hmeas.forward hcount hsame (by omega) rfl rfl
        ⟨hread.op, hread.held, hread.within⟩, hcount.forward rfl rfl⟩, togo_lt (.inr ⟨?_, hahead.le⟩)⟩
      rw [hinner]
      show src.length + 10 + (src.length - (s.ip + 8)) < _
      omega
    · rename_i hdiff
      obtain ⟨hlt, hsame, hdiffers⟩ := nbCommonBytes_spec hdiff
      generalize nbCommonBytes (word src 8 ref ^^^ word src 8 s.ip) = k at hlt hsame hdiffers
      refine ⟨⟨qs, a, off, m, hmeas.forward hcount hsame (by omega) rfl rfl
        ⟨hread.op, hread.held, hread.within⟩, fun e => ?_⟩, togo_lt (.inr ⟨?_, hahead.le⟩)⟩
      · -- what is known ends before the byte that differs
        have hknown : known ≤ s.ip + k := by
          by_contra hgt
          exact hdiffers (hcount.known_same (by omega))
        exact Nat.lt_of_lt_of_le (hcount.table e) hknown
      · rw [hinner]
        show src.length + 4 < _
        omega
  · refine ⟨⟨qs, a, off, m, known, ⟨hmeas.done, hmeas.le, hmeas.anchor, hmeas.ip, hmeas.far,
      hmeas.start, hmeas.limit, hmeas.same, hmeas.token,
      ⟨hmeas.wrote.op, hmeas.wrote.held, hmeas.wrote.within⟩⟩,
      ⟨href, hcount.limit, hcount.same, hcount.table⟩, by
        show src.length ≤ s.ip + 12
        omega⟩, togo_lt (.inr ⟨?_, hahead.le⟩)⟩
    rw [hinner]
    show src.length + 5 < _
    omega

/-- A step is taken when it is known to be the same. -/
theorem countStep_spec {cap token off m ref known : Nat} (len : Nat)
    (h : Measuring src cap s token off m qs a) (hcount : Counting src s off ref known) :
    let t := countStep src len (src.length - 5) (s, ref)
    Measuring src cap t.1 token off m qs a ∧ Counting src t.1 off t.2 known ∧
      s.ip ≤ t.1.ip ∧ (s.ip + len ≤ known → s.ip + len ≤ t.1.ip) := by
  have href := hcount.ref
  have hlimit := hcount.limit
  unfold countStep
  dsimp only
  split
  · rename_i hroom
    have hread := (h.wrote.read ref len (by omega)).read s.ip len
      (by omega)
    split
    · rename_i hword
      exact ⟨h.forward hcount (same_of_word hword) (by omega) rfl rfl
        ⟨hread.op, hread.held, hread.within⟩, hcount.forward rfl rfl, Nat.le_add_right _ _,
        fun _ => le_rfl⟩
    · rename_i hword
      exact ⟨⟨h.done, h.le, h.anchor, h.ip, h.far, h.start, h.limit, h.same, h.token, hread⟩,
        ⟨href, hlimit, hcount.same, hcount.table⟩, le_rfl,
        fun hle => absurd (word_of_same (hcount.known_same hle)) hword⟩
  · exact ⟨h, hcount, le_rfl, fun hle => by omega⟩

theorem good_countRest {token ref : Nat} (hpc : s.pc = .countRest token ref)
    (h : Place src (reach maxOutputSize src.length) s qs a s.pc) :
    Good src maxOutputSize s (body src maxOutputSize s) := by
  rw [hpc] at h
  obtain ⟨off, m, known, hmeas, hcount, hend⟩ := h
  have hahead : ahead s = s.anchor - 2 := by simp only [ahead, hpc]
  have hinner : inner src s = src.length + 5 := by simp only [inner, hpc]
  have hlimit := hcount.limit
  have hanchor := hmeas.anchor
  simp only [body, hpc]
  -- four, two and one: what is known is at most four
  obtain ⟨hmeas₁, hcount₁, hle₁, hknown₁⟩ := countStep_spec 4 hmeas hcount
  obtain ⟨hmeas₂, hcount₂, hle₂, hknown₂⟩ := countStep_spec 2 hmeas₁ hcount₁
  obtain ⟨hmeas₃, hcount₃, hle₃, hknown₃⟩ := countStep_spec 1 hmeas₂ hcount₂
  have hpair : ∀ p : State × Nat, (p.1, p.2) = p := fun _ => rfl
  simp only [hpair] at hmeas₂ hcount₂ hle₂ hknown₂ hmeas₃ hcount₃ hle₃ hknown₃
  have hanchor₃ := hmeas₃.anchor
  generalize countStep src 1 (src.length - 5) (countStep src 2 (src.length - 5)
    (countStep src 4 (src.length - 5) (s, ref))) = t₃ at *
  generalize countStep src 2 (src.length - 5) (countStep src 4 (src.length - 5) (s, ref)) = t₂ at *
  generalize countStep src 4 (src.length - 5) (s, ref) = t₁ at *
  refine ⟨⟨qs, a, off, m, ⟨hmeas₃.done, hmeas₃.le, hanchor₃, hmeas₃.ip, hmeas₃.far, hmeas₃.start,
    hmeas₃.limit, hmeas₃.same, hmeas₃.token,
    ⟨hmeas₃.wrote.op, hmeas₃.wrote.held, hmeas₃.wrote.within⟩⟩, fun e => ?_⟩,
    togo_lt (.inr ⟨?_, ?_⟩)⟩
  · exact Nat.lt_of_lt_of_le (hcount₃.table e) (by
      show known ≤ t₃.1.ip
      omega)
  · rw [hinner]
    exact Nat.lt_succ_self _
  · rw [hahead, hanchor]
    show m + 4 - 2 ≤ t₃.1.anchor - 2
    rw [hanchor₃]

/-! ### The end of a match -/

/-- The sequence that is being measured. -/
def Measuring.seq (src : List UInt8) (s : State) (off m a : Nat) : Lz4.Seq :=
  ⟨(src.take m).drop a, off, s.ip - m⟩

theorem Measuring.complete {cap token off m : Nat} (h : Measuring src cap s token off m qs a) :
    Done src (qs ++ [Measuring.seq src s off m a]) s.ip := by
  have hip := h.ip
  have hlimit := h.limit
  have hstart := h.start
  have hle := h.le
  have hlits : Lz4.decode [] qs [] ++ (src.take m).drop a = src.take m := by
    have htake : src.take a = (src.take m).take a := by rw [List.take_take, Nat.min_eq_left hle]
    rw [h.done.expand, htake, List.take_append_drop]
  refine ⟨?_, ?_, by omega, fun _ => hlimit, fun q hq => ?_⟩
  · refine Lz4.reaches_append h.done.reaches h.far.1 h.far.2.1 (by show 4 ≤ s.ip - m; omega) ?_
    show off ≤ (_ ++ (src.take m).drop a).length
    rw [hlits, List.length_take, Nat.min_eq_left (by omega)]
    exact h.far.2.2
  · have hcopy : Lz4.copyMatch off (s.ip - m) (src.take m) = src.take (m + (s.ip - m)) :=
      Lz4.copyMatch_take h.far.2.2 h.far.1 (by omega) fun j hge hlt => h.same j hge (by omega)
    rw [Lz4.decode_append, Lz4.decode, Lz4.decode, List.append_nil]
    show Lz4.copyMatch off (s.ip - m) (_ ++ (src.take m).drop a) = _
    rw [hlits, hcopy]
    congr 1
    omega
  · rw [List.getLast?_append, List.getLast?_singleton] at hq
    obtain rfl := Option.some.inj hq
    show s.ip + 12 ≤ s.ip - m + src.length
    omega

theorem seqBytes_append (qs : List Lz4.Seq) (q : Lz4.Seq) :
    seqBytes (qs ++ [q]) = seqBytes qs ++ Lz4.encodeSeq q := by
  rw [seqBytes, List.flatMap_append, List.flatMap_singleton]
  rfl

/-- Both halves of a token. -/
theorem token_add (lits len : Nat) :
    UInt8.ofNat (16 * Lz4.nibble lits) + UInt8.ofNat (Lz4.nibble len) = Lz4.token lits len :=
  (UInt8.ofNat_add _ _).symm

/-- The token and the length are written. -/
theorem Measuring.close {cap token off m : Nat} (h : Measuring src cap s token off m qs a)
    (hroom : s.op + (Lz4.more (s.ip - s.anchor)).length ≤ cap) :
    let t := if s.ip - s.anchor ≥ 15 then putPairs (s.ip - s.anchor - 15) (s.addToken token 15)
      else s.addToken token (UInt8.ofNat (s.ip - s.anchor))
    Wrote src cap (seqBytes (qs ++ [Measuring.seq src s off m a])) t ∧ Kept s t ∧
      t.op = s.op + (Lz4.more (s.ip - s.anchor)).length := by
  have hlen : s.ip - m - 4 = s.ip - s.anchor := by
    rw [h.anchor]
    omega
  have hwrote := h.wrote
  have htoken : token + 1 ≤ cap := by
    have hop := hwrote.op
    rw [List.length_append, openedOff, List.length_cons, ← h.token] at hop
    omega
  have hopened : openedOff ((src.take m).drop a) off =
      UInt8.ofNat (16 * Lz4.nibble ((src.take m).drop a).length) ::
        (Lz4.more ((src.take m).drop a).length ++ ((src.take m).drop a ++
          [UInt8.ofNat (off % 256), UInt8.ofNat (off / 256)])) := rfl
  rw [hopened] at hwrote
  rw [h.token] at htoken ⊢
  have hbytes : seqBytes (qs ++ [Measuring.seq src s off m a]) =
      seqBytes qs ++ (Lz4.token ((src.take m).drop a).length (s.ip - s.anchor) ::
        (Lz4.more ((src.take m).drop a).length ++ ((src.take m).drop a ++
          [UInt8.ofNat (off % 256), UInt8.ofNat (off / 256)]))) ++ Lz4.more (s.ip - s.anchor) := by
    rw [seqBytes_append, Lz4.encodeSeq, Measuring.seq]
    simp only [hlen, List.cons_append, List.append_assoc, List.nil_append]
  rw [hbytes, ← token_add]
  dsimp only
  split
  · rename_i hlong
    have hadd := hwrote.addToken 15 htoken
    have hn : (15 : UInt8) = UInt8.ofNat (Lz4.nibble (s.ip - s.anchor)) := by
      rw [Lz4.nibble_of_ge (Nat.not_lt.mpr hlong)]
      rfl
    rw [more_eq hlong, length_runBytes] at hroom ⊢
    have hput := hadd.putPairs (s.ip - s.anchor - 15) hroom
    have hkept := Kept.trans (s := s) (t := s.addToken (seqBytes qs).length 15) ⟨rfl, rfl, rfl⟩
      (putPairs_kept (s.ip - s.anchor - 15) _)
    refine ⟨by rw [← hn]; exact hput, hkept, ?_⟩
    rw [hput.op, List.length_append, length_runBytes, ← hadd.op]
    rfl
  · rename_i hshort
    have hmore : Lz4.more (s.ip - s.anchor) = [] := if_pos (not_le.mp hshort)
    have hadd := hwrote.addToken (UInt8.ofNat (s.ip - s.anchor)) htoken
    rw [hmore, List.append_nil, Lz4.nibble_of_lt (not_le.mp hshort)]
    exact ⟨hadd, ⟨rfl, rfl, rfl⟩, rfl⟩

/-- What comes behind a match. -/
theorem afterMatch_spec (hdone : Done src qs s.ip)
    (hwrote : Wrote src (reach maxOutputSize src.length) (seqBytes qs) s)
    (hroom : s.op + 3 ≤ reach maxOutputSize src.length) (hanchor : 4 ≤ s.anchor ∧ s.anchor ≤ s.ip)
    (htable : ∀ h, s.hashTable h < s.ip) :
    Safe src maxOutputSize (afterMatch src s) ∧ inner src (afterMatch src s) < turns src ∧
      s.anchor ≤ ahead (afterMatch src s) := by
  unfold afterMatch
  split
  · refine ⟨⟨qs, s.ip, hdone, rfl, ⟨hwrote.op, hwrote.held, hwrote.within⟩⟩, ?_, hanchor.2⟩
    show 0 < 4 * src.length + 100
    omega
  · rename_i hmid
    rw [not_lt] at hmid
    have hlong : s.ip + 12 ≤ src.length := by
      have := hdone.le
      omega
    -- both places are in the table
    have htable₁ : ∀ k, Function.update s.hashTable (hashValue src (s.ip - 2)) (s.ip - 2) k < s.ip := by
      intro k
      rw [Function.update_apply]
      split
      · omega
      · exact htable k
    generalize Function.update s.hashTable (hashValue src (s.ip - 2)) (s.ip - 2) = h₁ at htable₁
    have htable₂ : ∀ k, Function.update h₁ (hashValue src s.ip) s.ip k < s.ip + 1 := by
      intro k
      rw [Function.update_apply]
      split
      · exact Nat.lt_succ_self _
      · exact Nat.lt_succ_of_lt (htable₁ k)
    have href := htable₁ (hashValue src s.ip)
    dsimp only
    generalize Function.update h₁ (hashValue src s.ip) s.ip = h₂ at htable₂
    have hread := (hwrote.read (s.ip - 2) 4 (by omega)).read s.ip 4
      (by omega)
    have hread₁ := hread.read (s.ip + 1) 4 (by omega)
    have hread₂ := (hread.read (h₁ (hashValue src s.ip)) 4 (by omega)).read s.ip 4 (by omega)
    have hread₃ := hread₂.read (s.ip + 1) 4 (by omega)
    have hinner : 3 * src.length + 50 + (src.length - (s.ip + 1)) < 4 * src.length + 100 := by omega
    split
    · rename_i hnear
      split
      · rename_i hword
        have hput := hread₂.put 0 (by
          show s.op + 1 ≤ _
          omega)
        refine ⟨⟨qs, s.ip, hdone, le_rfl, hlong, hanchor.2, ?_, hwrote.op, ?_, s.ip + 4,
          ⟨href, hnear, le_rfl, ?_, ?_, fun k => Nat.lt_of_lt_of_le (htable₂ k) (by omega)⟩⟩, ?_,
          le_rfl⟩
        · show s.op + 1 + 2 ≤ _
          omega
        · have hnil : (src.take s.ip).drop s.ip = [] := by
            rw [List.drop_eq_nil_iff, List.length_take]
            exact Nat.min_le_left _ _
          show Wrote src _ (seqBytes qs ++ opened ((src.take s.ip).drop s.ip)) _
          rw [hnil]
          exact ⟨hput.op, hput.held, hput.within⟩
        · omega
        · show Same src s.ip (h₁ (hashValue src s.ip)) (s.ip + 4 - s.ip)
          rw [Nat.add_sub_cancel_left]
          exact same_of_word hword.symm
        · show 2 * src.length + 20 < 4 * src.length + 100
          omega
      · exact ⟨⟨qs, s.ip, hdone, rfl, ⟨hread₃.op, hread₃.held, hread₃.within⟩, Nat.le_succ _,
          by decide, htable₂⟩, hinner, hanchor.2⟩
    · exact ⟨⟨qs, s.ip, hdone, rfl, ⟨hread₁.op, hread₁.held, hread₁.within⟩, Nat.le_succ _,
        by decide, htable₂⟩, hinner, hanchor.2⟩

theorem good_matchLength {token : Nat} (hpc : s.pc = .matchLength token)
    (h : Place src (reach maxOutputSize src.length) s qs a s.pc) :
    Good src maxOutputSize s (body src maxOutputSize s) := by
  rw [hpc] at h
  obtain ⟨off, m, hmeas, htable⟩ := h
  have hahead : ahead s = s.anchor - 2 := by simp only [ahead, hpc]
  have hanchor := hmeas.anchor
  have hip := hmeas.ip
  have hlimit := hmeas.limit
  have hlen := length_more_le (s.ip - s.anchor)
  have hdiv : (s.ip - s.anchor) / 65280 ≤ src.length / 65280 := Nat.div_le_div_right (by omega)
  simp only [body, hpc]
  split
  · exact ⟨hmeas.wrote.within, .inl rfl⟩
  · rename_i hroom
    rw [not_lt] at hroom
    obtain ⟨hwrote, hkept, hop⟩ := hmeas.close (by
      unfold reach
      omega)
    generalize (if s.ip - s.anchor ≥ 15 then putPairs (s.ip - s.anchor - 15) (s.addToken token 15)
      else s.addToken token (UInt8.ofNat (s.ip - s.anchor))) = t at hwrote hkept hop
    have hdone := hmeas.complete
    rw [← hkept.ip] at hdone
    obtain ⟨hsafe, hinner, hle⟩ := afterMatch_spec hdone hwrote (by
      unfold reach
      omega) ⟨by rw [hkept.anchor]; omega, by rw [hkept.anchor, hkept.ip]; omega⟩ (by
        rw [hkept.table, hkept.ip]
        exact htable)
    refine ⟨hsafe, togo_lt (.inl ⟨hinner, ?_, ?_⟩)⟩
    · rw [hkept.anchor] at hle
      omega
    · omega

/-! ### The end of the block -/

theorem lastLiterals_spec (hdone : Done src qs s.anchor)
    (hwrote : Wrote src (reach maxOutputSize src.length) (seqBytes qs) s) :
    Returned src maxOutputSize (lastLiterals src maxOutputSize s) := by
  have hle := hdone.le
  unfold lastLiterals
  dsimp only
  split
  · exact ⟨hwrote.within, .inl rfl⟩
  · rename_i hroom
    rw [not_lt] at hroom
    have hlast : (src.drop s.anchor).length = src.length - s.anchor := List.length_drop
    have hmore : (Lz4.more (src.length - s.anchor)).length =
        (src.length - s.anchor + 255 - 15) / 255 := by
      unfold Lz4.more
      split
      · rw [List.length_nil]
        omega
      · rw [List.length_append, List.length_replicate, List.length_singleton]
        omega
    obtain ⟨hput, hkept, hop⟩ := hwrote.litLength (src.length - s.anchor) (by
      unfold reach
      omega)
    generalize (if src.length - s.anchor ≥ 15 then putRun (src.length - s.anchor - 15) (s.put 0xF0)
      else s.put (UInt8.ofNat ((src.length - s.anchor) * 16))) = t at hput hkept hop
    have hcopied := hput.copy (src.length - s.anchor) t.anchor (by
      rw [hkept.anchor]
      omega) (by
      unfold reach
      omega)
    have hall : (src.drop t.anchor).take (src.length - s.anchor) = src.drop s.anchor := by
      rw [hkept.anchor, ← hlast, List.take_length]
    have hzero : Lz4.token (src.length - s.anchor) 0 =
        UInt8.ofNat (16 * Lz4.nibble (src.length - s.anchor)) := rfl
    have hblock : seqBytes qs ++ UInt8.ofNat (16 * Lz4.nibble (src.length - s.anchor)) ::
        Lz4.more (src.length - s.anchor) ++ src.drop s.anchor =
          Lz4.encode qs (src.drop s.anchor) := by
      rw [Lz4.encode, Lz4.encodeLast, hlast, hzero, seqBytes, List.append_assoc, List.cons_append]
    rw [hall, hblock] at hcopied
    refine ⟨hcopied.within, .inr ⟨?_, qs, src.drop s.anchor, ⟨hdone.reaches, fun hne => ?_, ?_⟩, ?_,
      hcopied.op, hcopied.held⟩⟩
    · show t.op + (src.length - s.anchor) ≤ maxOutputSize
      omega
    · have := hdone.five hne
      omega
    · intro q hq
      have := hdone.twelve q hq
      omega
    · rw [Lz4.decode_last, hdone.expand, List.take_append_drop]

theorem good_lastLiterals (hpc : s.pc = .lastLiterals)
    (h : Place src (reach maxOutputSize src.length) s qs a s.pc) :
    Good src maxOutputSize s (body src maxOutputSize s) := by
  rw [hpc] at h
  obtain ⟨hdone, rfl, hwrote⟩ := h
  simp only [body, hpc]
  exact lastLiterals_spec hdone hwrote

theorem good_body (h : Safe src maxOutputSize s) : Good src maxOutputSize s (body src maxOutputSize s) := by
  obtain ⟨qs, a, h⟩ := h
  cases hpc : s.pc with
  | find => exact good_find hpc h
  | catchUp => exact good_catchUp hpc h
  | literals => exact good_literals hpc h
  | nextMatch => exact good_nextMatch hpc h
  | count => exact good_count hpc h
  | countRest => exact good_countRest hpc h
  | matchLength => exact good_matchLength hpc h
  | lastLiterals => exact good_lastLiterals hpc h

theorem bounded : Loop.Bounded (body src maxOutputSize) (Safe src maxOutputSize)
    (Returned src maxOutputSize) (togo src) where
  again s t hs ht := by
    have hgood := good_body hs
    rwa [ht] at hgood
  stop s r hs hr := by
    have hgood := good_body hs
    rwa [hr] at hgood

end Turns

/-- Nothing is done. -/
theorem done_nil (src : List UInt8) : Done src [] 0 :=
  ⟨trivial, rfl, Nat.zero_le _, fun h => absurd rfl h, fun q hq => by cases hq⟩

/-- **What the encoder returns stands for its input.**  For every block and every limit it ends,
reads nothing outside of the block, and writes nothing further than `reach`; it returns 0, or the
length of a legal block within the limit that is expanded to the input. -/
theorem compress_correct (src : List UInt8) (maxOutputSize : Nat) (dst : Int → UInt8) :
    ∃ r, compress src maxOutputSize dst = some r ∧ Returned src maxOutputSize r := by
  have hwrote : ∀ cap, Wrote src cap (seqBytes []) (start dst) := fun cap =>
    ⟨rfl, Lz4.Held.nil dst, fun a ha => absurd ha List.not_mem_nil⟩
  unfold compress
  split
  · exact ⟨_, rfl, lastLiterals_spec (done_nil src) (hwrote _)⟩
  · rename_i hlong
    have hread := ((hwrote (reach maxOutputSize src.length)).read 0 4 (by omega)).read 1 4 (by omega)
    refine bounded.loop_spec (s := first src dst) ⟨[], 0, done_nil src, rfl,
      ⟨hread.op, hread.held, hread.within⟩, Nat.zero_le _, by decide, fun h => ?_⟩ ?_
    · show Function.update (fun _ => 0) (hashValue src 0) 0 h < 1
      rw [Function.update_apply]
      split <;> exact Nat.one_pos
    · show (src.length - 0) * turns src + (3 * src.length + 50 + (src.length - 1)) < _
      rw [Nat.sub_zero]
      unfold turns
      omega

set_option maxRecDepth 20000 in
example : (compress (List.replicate 30 7) 20 fun _ => 0).map Prod.fst = some 11 := by decide

end Hammer2.Compress.Encoder
