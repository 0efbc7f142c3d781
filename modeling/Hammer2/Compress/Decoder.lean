/-
# `Hammer2.Compress.Decoder` — `LZ4_decompress_safe`

`LZ4_decompress_generic` as `LZ4_decompress_safe` has it: the end of the input is the end of the
block, there is no prefix, and the whole block is decoded.  It copies eight bytes at a time, and
often more than there are to copy.  A turn is a basic block of the source; a pointer is its distance
from the start of its buffer, and every byte that is read or written is logged.

    matchStart    the first eight bytes of a match, one by one when it is near
    wild          `LZ4_WILDCOPY` of the rest
    secure        the same near the end of the buffer, and `tail` byte by byte

`decompress_within` is that no access is outside of its buffer.
-/
import Hammer2.Boot.Lz4Block
import Hammer2.Lib.Overlap

namespace Hammer2.Compress.Decoder

open Boot.Lz4Block (Access byteAt)

/-! ## The decoder -/

inductive Pc where
  | token
  | litLength (tok length : Nat)
  | literals (tok length : Nat)
  | wildLits (tok : Nat) (cpy : Int)
  | offset (tok : Nat)
  | matchLength (ref : Int) (length : Nat)
  | matchStart (ref : Int) (length : Nat)
  | wild (ref cpy : Int)
  | secure (ref cpy : Int)
  | tail (ref cpy : Int)

structure State where
  ip : Int
  op : Int
  dst : Int → UInt8
  log : List Access
  pc : Pc

def dec32table : List Int := [0, 3, 2, 3, 0, 0, 0, 0]
def dec64table : List Int := [0, 0, 0, -1, 0, 1, 2, 3]

variable (src : List UInt8) (cap : Nat)

/-- `*ip++` -/
def State.fetch (s : State) (pc : Pc) : State :=
  { s with ip := s.ip + 1, log := .fetch s.ip 1 :: s.log, pc := pc }

/-- `len` bytes from `ip` to `op`; both move on. -/
def copyIn (len : Nat) (s : State) : State :=
  { s with
    ip := s.ip + len
    op := s.op + len
    dst := fun i =>
      if s.op ≤ i ∧ i < s.op + len then src.getD (s.ip + (i - s.op)).toNat 0 else s.dst i
    log := .store s.op len :: .fetch s.ip len :: s.log }

/-- `len` bytes from `ref` to `op`, all of them read before one is written. -/
def copyBack (len : Nat) (ref : Int) (s : State) : State :=
  { s with
    op := s.op + len
    dst := Lz4.blit len ref s.op s.dst
    log := .store s.op len :: .load ref len :: s.log }

/-- The first eight bytes of a match, and where the rest comes from. -/
def first (ref : Int) (s : State) : State × Int :=
  if s.op - ref < 8 then
    let dec64 := dec64table.getD (s.op - ref).toNat 0
    let dec32 := dec32table.getD (s.op - ref).toNat 0
    let s := copyBack 1 (ref + 3) (copyBack 1 (ref + 2) (copyBack 1 (ref + 1) (copyBack 1 ref s)))
    let ref := ref + 4 - dec32
    (copyBack 4 ref s, ref - dec64)
  else (copyBack 8 ref s, ref + 8)

/-- `_output_error` -/
def outputError (s : State) : Loop.Turn State (Int × State) := .stop (-s.ip - 1, s)

def body (s : State) : Loop.Turn State (Int × State) :=
  match s.pc with
  | .token =>
      let tok := byteAt src s.ip
      let length := tok / 16
      .again (s.fetch (if length = 15 then .litLength tok length else .literals tok length))
  | .litLength tok length =>
      if s.ip < src.length then
        let b := byteAt src s.ip
        .again (s.fetch (if b = 255 then .litLength tok (length + b) else .literals tok (length + b)))
      else .again { s with pc := .literals tok length }
  | .literals tok length =>
      let cpy := s.op + length
      if cpy > cap - 12 ∨ s.ip + length > src.length - 8 then
        if s.ip + length ≠ src.length ∨ cpy > cap then outputError s
        else
          let s := copyIn src length s
          .stop (s.op, s)
      else .again { s with pc := .wildLits tok cpy }
  | .wildLits tok cpy =>
      let s := copyIn src 8 s
      if s.op < cpy then .again { s with pc := .wildLits tok cpy }
      else .again { s with ip := s.ip - (s.op - cpy), op := cpy, pc := .offset tok }
  | .offset tok =>
      let ref : Int := s.op - (byteAt src s.ip + 256 * byteAt src (s.ip + 1) : Nat)
      let s := { s with ip := s.ip + 2, log := .fetch s.ip 2 :: s.log }
      if ref < 0 then outputError s
      else
        let length := tok % 16
        .again { s with pc := if length = 15 then .matchLength ref length else .matchStart ref length }
  | .matchLength ref length =>
      if s.ip < src.length - 6 then
        let b := byteAt src s.ip
        .again (s.fetch
          (if b = 255 then .matchLength ref (length + b) else .matchStart ref (length + b)))
      else .again { s with pc := .matchStart ref length }
  | .matchStart ref length =>
      let (s, ref) := first ref s
      let cpy := s.op + length - 4
      if cpy > cap - 12 then
        if cpy > cap - 5 then outputError s
        else .again { s with pc := if s.op < cap - 8 then .secure ref cpy else .tail ref cpy }
      else .again { s with pc := .wild ref cpy }
  | .wild ref cpy =>
      let s := copyBack 8 ref s
      if s.op < cpy then .again { s with pc := .wild (ref + 8) cpy }
      else .again { s with op := cpy, pc := .token }
  | .secure ref cpy =>
      let s := copyBack 8 ref s
      .again { s with pc := if s.op < cap - 8 then .secure (ref + 8) cpy else .tail (ref + 8) cpy }
  | .tail ref cpy =>
      if s.op < cpy then .again { copyBack 1 ref s with pc := .tail (ref + 1) cpy }
      else .again { s with op := cpy, pc := .token }

def start (dst : Int → UInt8) : State := ⟨0, 0, dst, [], .token⟩

/-- No round has more turns. -/
def turns : Nat := 4 * cap + 100

/-- `LZ4_decompress_safe`: what it returns, and the state it leaves. -/
def decompress (dst : Int → UInt8) : Option (Int × State) :=
  if cap = 0 then some (-1, start dst)
  else Loop.loop (body src cap) (src.length * turns cap + 1) (start dst)

/-! ## Safety -/

/-- What the log says, and that nothing outside the destination has changed. -/
structure Logged (dst : Int → UInt8) (s : State) : Prop where
  within : ∀ a ∈ s.log, a.Within src.length cap
  frame : ∀ i, i < 0 ∨ (cap : Int) ≤ i → s.dst i = dst i

/-- How far the pointers may be, place by place. -/
def Room (ip op : Int) : Pc → Prop
  | .token => ip < src.length ∧ op ≤ cap
  | .litLength .. | .literals .. => ip ≤ src.length ∧ op ≤ cap
  | .wildLits _ cpy => op ≤ cpy ∧ cpy ≤ cap - 12 ∧ ip + (cpy - op) ≤ src.length - 8
  | .offset _ => ip ≤ src.length - 8 ∧ op ≤ cap - 12
  | .matchLength ref _ | .matchStart ref _ =>
      ip ≤ src.length - 6 ∧ op ≤ cap - 12 ∧ 0 ≤ ref ∧ ref ≤ op
  | .wild ref cpy =>
      ip ≤ src.length - 6 ∧ 0 ≤ ref ∧ ref ≤ op ∧ op ≤ cpy + 4 ∧ 0 ≤ cpy ∧ cpy ≤ cap - 12
  | .secure ref cpy =>
      ip ≤ src.length - 6 ∧ 0 ≤ ref ∧ ref ≤ op ∧ op < cap - 8 ∧ 0 ≤ cpy ∧ cpy ≤ cap - 5
  | .tail ref cpy =>
      ip ≤ src.length - 6 ∧ 0 ≤ ref ∧ ref ≤ op ∧ op ≤ cap ∧ 0 ≤ cpy ∧ cpy ≤ cap - 5

structure Safe (dst : Int → UInt8) (s : State) : Prop where
  ip : 0 ≤ s.ip
  op : 0 ≤ s.op
  room : Room src cap s.ip s.op s.pc
  logged : Logged src cap dst s

/-- What may be returned. -/
def Returned (dst : Int → UInt8) (r : Int × State) : Prop :=
  (r.1 < 0 ∨ 0 ≤ r.1 ∧ r.1 ≤ cap) ∧ Logged src cap dst r.2

/-- Where the input will be read on, when what is being copied has been. -/
def ahead (s : State) : Int :=
  match s.pc with
  | .wildLits _ cpy => s.ip + (cpy - s.op)
  | _ => s.ip

/-- What is left of a round. -/
def inner (s : State) : Nat :=
  match s.pc with
  | .token => 0
  | .litLength .. => 4 * cap + 99
  | .literals .. => 4 * cap + 98
  | .wildLits _ cpy => 2 * cap + 50 + (cpy - s.op).toNat
  | .offset _ => 2 * cap + 49
  | .matchLength .. => 2 * cap + 48
  | .matchStart .. => 2 * cap + 47
  | .wild _ cpy => 1 + (cpy + 8 - s.op).toNat
  | .secure .. => cap + 2 + (cap - s.op).toNat
  | .tail .. => 1 + (cap - s.op).toNat

def togo (s : State) : Nat := (src.length - ahead s).toNat * turns cap + inner cap s

variable {src cap} {dst : Int → UInt8}

/-- A turn takes a byte, or is nearer to the end of its round. -/
theorem togo_lt {s t : State} (h : inner cap t < turns cap ∧ ahead s < ahead t ∧ ahead s < src.length ∨
    inner cap t < inner cap s ∧ ahead s ≤ ahead t) : togo src cap t < togo src cap s := by
  unfold togo
  rcases h with ⟨hin, hlt, hend⟩ | ⟨hin, hle⟩
  · have hbyte : (src.length - ahead t).toNat + 1 ≤ (src.length - ahead s).toNat := by omega
    have hmul := Nat.mul_le_mul_right (turns cap) hbyte
    rw [Nat.succ_mul] at hmul
    omega
  · have hsame : (src.length - ahead t).toNat ≤ (src.length - ahead s).toNat := by omega
    have hmul := Nat.mul_le_mul_right (turns cap) hsame
    omega

theorem Logged.fetch {s : State} (h : Logged src cap dst s) (pc : Pc) (h0 : 0 ≤ s.ip)
    (h1 : s.ip < src.length) : Logged src cap dst (s.fetch pc) where
  within := by
    intro a ha
    rcases List.mem_cons.mp ha with rfl | ha
    · exact ⟨h0, by exact_mod_cast h1⟩
    · exact h.within a ha
  frame := h.frame

theorem Logged.copyIn {s : State} (h : Logged src cap dst s) (len : Nat) (hip : 0 ≤ s.ip)
    (hop : 0 ≤ s.op) (hip' : s.ip + len ≤ src.length) (hop' : s.op + len ≤ cap) :
    Logged src cap dst (copyIn src len s) where
  within := by
    intro a ha
    rcases List.mem_cons.mp ha with rfl | ha
    · exact ⟨hop, hop'⟩
    · rcases List.mem_cons.mp ha with rfl | ha
      · exact ⟨hip, hip'⟩
      · exact h.within a ha
  frame := by
    intro i hi
    have hout : ¬ (s.op ≤ i ∧ i < s.op + len) := by omega
    exact (if_neg hout).trans (h.frame i hi)

theorem Logged.copyBack {s : State} (h : Logged src cap dst s) (len : Nat) (ref : Int) (href : 0 ≤ ref)
    (hle : ref ≤ s.op) (hop : s.op + len ≤ cap) : Logged src cap dst (copyBack len ref s) where
  within := by
    intro a ha
    rcases List.mem_cons.mp ha with rfl | ha
    · exact ⟨by omega, hop⟩
    · rcases List.mem_cons.mp ha with rfl | ha
      · exact ⟨href, by omega⟩
      · exact h.within a ha
  frame := by
    intro i hi
    have hout : ¬ (s.op ≤ i ∧ i < s.op + len) := by omega
    exact (if_neg hout).trans (h.frame i hi)

/-! ### The turns -/

theorem dec_bounds : ∀ d < 8, 0 ≤ dec32table.getD d 0 ∧ dec32table.getD d 0 ≤ 4 ∧
    dec32table.getD d 0 + dec64table.getD d 0 ≤ 4 ∧ -1 ≤ dec64table.getD d 0 := by decide

/-- The first eight bytes of a match. -/
theorem first_spec {s : State} {ref : Int} (hlog : Logged src cap dst s) (href : 0 ≤ ref)
    (hle : ref ≤ s.op) (hop : s.op ≤ cap - 12) :
    (first ref s).1.ip = s.ip ∧ (first ref s).1.op = s.op + 8 ∧
      Logged src cap dst (first ref s).1 ∧ 0 ≤ (first ref s).2 ∧ (first ref s).2 ≤ s.op + 8 := by
  unfold first
  split
  · rename_i hnear
    obtain ⟨h32, h32', hsum, h64⟩ := dec_bounds (s.op - ref).toNat (by omega)
    have h1 := hlog.copyBack 1 ref href hle (by omega)
    have h2 := h1.copyBack 1 (ref + 1) (by omega) (by show _ ≤ s.op + 1; omega)
      (by show s.op + 1 + 1 ≤ _; omega)
    have h3 := h2.copyBack 1 (ref + 2) (by omega) (by show _ ≤ s.op + 1 + 1; omega)
      (by show s.op + 1 + 1 + 1 ≤ _; omega)
    have h4 := h3.copyBack 1 (ref + 3) (by omega)
      (by show _ ≤ s.op + 1 + 1 + 1; omega) (by show s.op + 1 + 1 + 1 + 1 ≤ _; omega)
    have h5 := h4.copyBack 4 (ref + 4 - dec32table.getD (s.op - ref).toNat 0)
      (by omega) (by show _ ≤ s.op + 1 + 1 + 1 + 1; omega)
      (by show s.op + 1 + 1 + 1 + 1 + 4 ≤ _; omega)
    refine ⟨rfl, ?_, h5, ?_, ?_⟩
    · show s.op + 1 + 1 + 1 + 1 + 4 = s.op + 8
      omega
    · show 0 ≤ ref + 4 - _ - _
      omega
    · show ref + 4 - _ - _ ≤ s.op + 8
      omega
  · exact ⟨rfl, rfl, hlog.copyBack 8 ref href hle (by omega), by show 0 ≤ ref + 8; omega,
      by show ref + 8 ≤ s.op + 8; omega⟩

/-- A turn from `s` is safe and does not go round for ever, or it returns as it may. -/
def Good (src : List UInt8) (cap : Nat) (dst : Int → UInt8) (s : State) :
    Loop.Turn State (Int × State) → Prop
  | .again t => Safe src cap dst t ∧ togo src cap t < togo src cap s
  | .stop r => Returned src cap dst r

theorem good_error {s t : State} (h : Logged src cap dst t) (hip : 0 ≤ t.ip) :
    Good src cap dst s (outputError t) := by
  refine ⟨.inl ?_, h⟩
  show -t.ip - 1 < 0
  omega

theorem good_token {s : State} (h : Safe src cap dst s) (hpc : s.pc = .token) :
    Good src cap dst s (body src cap s) := by
  have hroom : s.ip < src.length ∧ s.op ≤ cap := by
    have := h.room
    rwa [hpc] at this
  have hip := h.ip
  have hahead : ahead s = s.ip := by simp only [ahead, hpc]
  simp only [body, hpc]
  have hlog := fun pc => h.logged.fetch pc hip hroom.1
  split
  · refine ⟨⟨by show 0 ≤ s.ip + 1; omega, h.op, ⟨by show s.ip + 1 ≤ _; omega, hroom.2⟩, hlog _⟩,
      togo_lt (.inl ⟨?_, by rw [hahead]; show s.ip < s.ip + 1; omega, by omega⟩)⟩
    show 4 * cap + 99 < 4 * cap + 100
    omega
  · refine ⟨⟨by show 0 ≤ s.ip + 1; omega, h.op, ⟨by show s.ip + 1 ≤ _; omega, hroom.2⟩, hlog _⟩,
      togo_lt (.inl ⟨?_, by rw [hahead]; show s.ip < s.ip + 1; omega, by omega⟩)⟩
    show 4 * cap + 98 < 4 * cap + 100
    omega

theorem good_litLength {s : State} {tok length : Nat} (h : Safe src cap dst s)
    (hpc : s.pc = .litLength tok length) : Good src cap dst s (body src cap s) := by
  have hroom : s.ip ≤ src.length ∧ s.op ≤ cap := by
    have := h.room
    rwa [hpc] at this
  have hip := h.ip
  have hahead : ahead s = s.ip := by simp only [ahead, hpc]
  have hinner : inner cap s = 4 * cap + 99 := by simp only [inner, hpc]
  simp only [body, hpc]
  split
  · rename_i hlt
    have hlog := fun pc => h.logged.fetch pc hip hlt
    split
    · refine ⟨⟨by show 0 ≤ s.ip + 1; omega, h.op, ⟨by show s.ip + 1 ≤ _; omega, hroom.2⟩, hlog _⟩,
        togo_lt (.inl ⟨?_, by rw [hahead]; show s.ip < s.ip + 1; omega, by omega⟩)⟩
      show 4 * cap + 99 < 4 * cap + 100
      omega
    · refine ⟨⟨by show 0 ≤ s.ip + 1; omega, h.op, ⟨by show s.ip + 1 ≤ _; omega, hroom.2⟩, hlog _⟩,
        togo_lt (.inl ⟨?_, by rw [hahead]; show s.ip < s.ip + 1; omega, by omega⟩)⟩
      show 4 * cap + 98 < 4 * cap + 100
      omega
  · refine ⟨⟨hip, h.op, hroom, ⟨h.logged.within, h.logged.frame⟩⟩, togo_lt (.inr ⟨?_, hahead.le⟩)⟩
    rw [hinner]
    show 4 * cap + 98 < 4 * cap + 99
    omega

theorem good_literals {s : State} {tok length : Nat} (h : Safe src cap dst s)
    (hpc : s.pc = .literals tok length) : Good src cap dst s (body src cap s) := by
  have hip := h.ip
  have hop := h.op
  have hahead : ahead s = s.ip := by simp only [ahead, hpc]
  have hinner : inner cap s = 4 * cap + 98 := by simp only [inner, hpc]
  simp only [body, hpc]
  split
  · split
    · exact good_error h.logged hip
    · rename_i hend
      have hcopied := h.logged.copyIn length hip hop (by omega) (by omega)
      refine ⟨.inr ⟨?_, ?_⟩, hcopied⟩
      · show 0 ≤ s.op + length
        omega
      · show s.op + length ≤ cap
        omega
  · rename_i hmid
    refine ⟨⟨hip, hop, ⟨?_, by omega, ?_⟩, ⟨h.logged.within, h.logged.frame⟩⟩,
      togo_lt (.inr ⟨?_, ?_⟩)⟩
    · show s.op ≤ s.op + length
      omega
    · show s.ip + (s.op + length - s.op) ≤ src.length - 8
      omega
    · rw [hinner]
      show 2 * cap + 50 + (s.op + length - s.op).toNat < _
      omega
    · rw [hahead]
      show s.ip ≤ s.ip + (s.op + length - s.op)
      omega

theorem good_wildLits {s : State} {tok : Nat} {cpy : Int} (h : Safe src cap dst s)
    (hpc : s.pc = .wildLits tok cpy) : Good src cap dst s (body src cap s) := by
  obtain ⟨hle, hroom, hin⟩ : s.op ≤ cpy ∧ cpy ≤ cap - 12 ∧ s.ip + (cpy - s.op) ≤ src.length - 8 := by
    have := h.room
    rwa [hpc] at this
  have hip := h.ip
  have hop := h.op
  have hahead : ahead s = s.ip + (cpy - s.op) := by simp only [ahead, hpc]
  have hinner : inner cap s = 2 * cap + 50 + (cpy - s.op).toNat := by simp only [inner, hpc]
  have hcopied := h.logged.copyIn 8 hip hop (by omega) (by omega)
  have hip' : (copyIn src 8 s).ip = s.ip + 8 := rfl
  have hop' : (copyIn src 8 s).op = s.op + 8 := rfl
  simp only [body, hpc]
  split
  · refine ⟨⟨by show 0 ≤ s.ip + 8; omega, by show 0 ≤ s.op + 8; omega, ⟨?_, hroom, ?_⟩,
      ⟨hcopied.within, hcopied.frame⟩⟩, togo_lt (.inr ⟨?_, ?_⟩)⟩
    · show s.op + 8 ≤ cpy
      omega
    · show s.ip + 8 + (cpy - (s.op + 8)) ≤ src.length - 8
      omega
    · rw [hinner]
      show 2 * cap + 50 + (cpy - (s.op + 8)).toNat < _
      omega
    · rw [hahead]
      show _ ≤ s.ip + 8 + (cpy - (s.op + 8))
      omega
  · refine ⟨⟨?_, by show 0 ≤ cpy; omega, ⟨?_, hroom⟩, ⟨hcopied.within, hcopied.frame⟩⟩,
      togo_lt (.inr ⟨?_, ?_⟩)⟩
    · show 0 ≤ s.ip + 8 - (s.op + 8 - cpy)
      omega
    · show s.ip + 8 - (s.op + 8 - cpy) ≤ src.length - 8
      omega
    · rw [hinner]
      show 2 * cap + 49 < _
      omega
    · rw [hahead]
      show _ ≤ s.ip + 8 - (s.op + 8 - cpy)
      omega

theorem good_offset {s : State} {tok : Nat} (h : Safe src cap dst s) (hpc : s.pc = .offset tok) :
    Good src cap dst s (body src cap s) := by
  obtain ⟨hin, hroom⟩ : s.ip ≤ src.length - 8 ∧ s.op ≤ cap - 12 := by
    have := h.room
    rwa [hpc] at this
  have hip := h.ip
  have hop := h.op
  have hahead : ahead s = s.ip := by simp only [ahead, hpc]
  have hlog : ∀ pc, Logged src cap dst { s with
      ip := s.ip + 2, log := .fetch s.ip 2 :: s.log, pc := pc } := by
    refine fun pc => ⟨fun a ha => ?_, h.logged.frame⟩
    rcases List.mem_cons.mp ha with rfl | ha
    · exact ⟨hip, by push_cast; omega⟩
    · exact h.logged.within a ha
  have hnext : 0 ≤ s.ip + 2 ∧ s.ip + 2 ≤ src.length - 6 := by omega
  simp only [body, hpc]
  generalize byteAt src s.ip + 256 * byteAt src (s.ip + 1) = off
  split
  · exact good_error (hlog (.offset tok)) hnext.1
  · rename_i href
    have hreach : 0 ≤ s.op - (off : Int) ∧ s.op - (off : Int) ≤ s.op := by omega
    split
    · refine ⟨⟨hnext.1, hop, ⟨hnext.2, hroom, hreach⟩, hlog _⟩, togo_lt (.inl ⟨?_, ?_, by omega⟩)⟩
      · show 2 * cap + 48 < 4 * cap + 100
        omega
      · rw [hahead]
        show s.ip < s.ip + 2
        omega
    · refine ⟨⟨hnext.1, hop, ⟨hnext.2, hroom, hreach⟩, hlog _⟩, togo_lt (.inl ⟨?_, ?_, by omega⟩)⟩
      · show 2 * cap + 47 < 4 * cap + 100
        omega
      · rw [hahead]
        show s.ip < s.ip + 2
        omega

theorem good_matchLength {s : State} {ref : Int} {length : Nat} (h : Safe src cap dst s)
    (hpc : s.pc = .matchLength ref length) : Good src cap dst s (body src cap s) := by
  obtain ⟨hin, hroom, hreach⟩ : s.ip ≤ src.length - 6 ∧ s.op ≤ cap - 12 ∧ 0 ≤ ref ∧ ref ≤ s.op := by
    have := h.room
    rwa [hpc] at this
  have hip := h.ip
  have hahead : ahead s = s.ip := by simp only [ahead, hpc]
  have hinner : inner cap s = 2 * cap + 48 := by simp only [inner, hpc]
  simp only [body, hpc]
  split
  · rename_i hlt
    have hlog := fun pc => h.logged.fetch pc hip (by omega)
    have hnext : 0 ≤ s.ip + 1 ∧ s.ip + 1 ≤ src.length - 6 := by omega
    split
    · refine ⟨⟨hnext.1, h.op, ⟨hnext.2, hroom, hreach⟩, hlog _⟩, togo_lt (.inl ⟨?_, ?_, by omega⟩)⟩
      · show 2 * cap + 48 < 4 * cap + 100
        omega
      · rw [hahead]
        show s.ip < s.ip + 1
        omega
    · refine ⟨⟨hnext.1, h.op, ⟨hnext.2, hroom, hreach⟩, hlog _⟩, togo_lt (.inl ⟨?_, ?_, by omega⟩)⟩
      · show 2 * cap + 47 < 4 * cap + 100
        omega
      · rw [hahead]
        show s.ip < s.ip + 1
        omega
  · refine ⟨⟨hip, h.op, ⟨hin, hroom, hreach⟩, ⟨h.logged.within, h.logged.frame⟩⟩,
      togo_lt (.inr ⟨?_, hahead.le⟩)⟩
    rw [hinner]
    show 2 * cap + 47 < 2 * cap + 48
    omega

theorem good_matchStart {s : State} {ref : Int} {length : Nat} (h : Safe src cap dst s)
    (hpc : s.pc = .matchStart ref length) : Good src cap dst s (body src cap s) := by
  obtain ⟨hin, hroom, href, hle⟩ :
      s.ip ≤ src.length - 6 ∧ s.op ≤ cap - 12 ∧ 0 ≤ ref ∧ ref ≤ s.op := by
    have := h.room
    rwa [hpc] at this
  have hip := h.ip
  have hop := h.op
  have hahead : ahead s = s.ip := by simp only [ahead, hpc]
  have hinner : inner cap s = 2 * cap + 47 := by simp only [inner, hpc]
  obtain ⟨hfip, hfop, hlog, hfref, hfle⟩ := first_spec h.logged href hle hroom
  simp only [body, hpc]
  generalize first ref s = f at hfip hfop hlog hfref hfle
  obtain ⟨t, ref'⟩ := f
  dsimp only at hfip hfop hlog hfref hfle ⊢
  split
  · split
    · exact good_error hlog (by omega)
    · split
      · refine ⟨⟨by show 0 ≤ t.ip; omega, by show 0 ≤ t.op; omega, ⟨?_, hfref, ?_, ?_, ?_, ?_⟩,
          ⟨hlog.within, hlog.frame⟩⟩, togo_lt (.inr ⟨?_, ?_⟩)⟩
        · show t.ip ≤ src.length - 6
          omega
        · show ref' ≤ t.op
          omega
        · show t.op < cap - 8
          omega
        · omega
        · omega
        · rw [hinner]
          show cap + 2 + (cap - t.op).toNat < _
          omega
        · rw [hahead]
          exact hfip.ge
      · refine ⟨⟨by show 0 ≤ t.ip; omega, by show 0 ≤ t.op; omega, ⟨?_, hfref, ?_, ?_, ?_, ?_⟩,
          ⟨hlog.within, hlog.frame⟩⟩, togo_lt (.inr ⟨?_, ?_⟩)⟩
        · show t.ip ≤ src.length - 6
          omega
        · show ref' ≤ t.op
          omega
        · show t.op ≤ cap
          omega
        · omega
        · omega
        · rw [hinner]
          show 1 + (cap - t.op).toNat < _
          omega
        · rw [hahead]
          exact hfip.ge
  · refine ⟨⟨by show 0 ≤ t.ip; omega, by show 0 ≤ t.op; omega, ⟨?_, hfref, ?_, ?_, ?_, ?_⟩,
      ⟨hlog.within, hlog.frame⟩⟩, togo_lt (.inr ⟨?_, ?_⟩)⟩
    · show t.ip ≤ src.length - 6
      omega
    · show ref' ≤ t.op
      omega
    · show t.op ≤ t.op + length - 4 + 4
      omega
    · omega
    · omega
    · rw [hinner]
      show 1 + (t.op + length - 4 + 8 - t.op).toNat < _
      omega
    · rw [hahead]
      exact hfip.ge

theorem good_wild {s : State} {ref cpy : Int} (h : Safe src cap dst s) (hpc : s.pc = .wild ref cpy) :
    Good src cap dst s (body src cap s) := by
  obtain ⟨hin, href, hle, hnear, hcpy, hroom⟩ : s.ip ≤ src.length - 6 ∧ 0 ≤ ref ∧ ref ≤ s.op ∧
      s.op ≤ cpy + 4 ∧ 0 ≤ cpy ∧ cpy ≤ cap - 12 := by
    have := h.room
    rwa [hpc] at this
  have hip := h.ip
  have hop := h.op
  have hahead : ahead s = s.ip := by simp only [ahead, hpc]
  have hinner : inner cap s = 1 + (cpy + 8 - s.op).toNat := by simp only [inner, hpc]
  have hcopied := h.logged.copyBack 8 ref href hle (by omega)
  have hop' : (copyBack 8 ref s).op = s.op + 8 := rfl
  simp only [body, hpc]
  split
  · refine ⟨⟨hip, by show 0 ≤ s.op + 8; omega, ⟨hin, by omega, ?_, ?_, hcpy, hroom⟩,
      ⟨hcopied.within, hcopied.frame⟩⟩, togo_lt (.inr ⟨?_, hahead.le⟩)⟩
    · show ref + 8 ≤ s.op + 8
      omega
    · show s.op + 8 ≤ cpy + 4
      omega
    · rw [hinner]
      show 1 + (cpy + 8 - (s.op + 8)).toNat < _
      omega
  · refine ⟨⟨hip, hcpy, ⟨?_, ?_⟩, ⟨hcopied.within, hcopied.frame⟩⟩,
      togo_lt (.inr ⟨?_, hahead.le⟩)⟩
    · show s.ip < src.length
      omega
    · show cpy ≤ cap
      omega
    · rw [hinner]
      show 0 < _
      omega

theorem good_secure {s : State} {ref cpy : Int} (h : Safe src cap dst s)
    (hpc : s.pc = .secure ref cpy) : Good src cap dst s (body src cap s) := by
  obtain ⟨hin, href, hle, hlt, hcpy, hroom⟩ : s.ip ≤ src.length - 6 ∧ 0 ≤ ref ∧ ref ≤ s.op ∧
      s.op < cap - 8 ∧ 0 ≤ cpy ∧ cpy ≤ cap - 5 := by
    have := h.room
    rwa [hpc] at this
  have hop := h.op
  have hahead : ahead s = s.ip := by simp only [ahead, hpc]
  have hinner : inner cap s = cap + 2 + (cap - s.op).toNat := by simp only [inner, hpc]
  have hcopied := h.logged.copyBack 8 ref href hle (by omega)
  have hop' : (copyBack 8 ref s).op = s.op + 8 := rfl
  have hreach : 0 ≤ ref + 8 ∧ ref + 8 ≤ s.op + 8 := by omega
  simp only [body, hpc]
  split
  · rename_i hmore
    refine ⟨⟨h.ip, by show 0 ≤ s.op + 8; omega, ⟨hin, hreach.1, hreach.2, hmore, hcpy, hroom⟩,
      ⟨hcopied.within, hcopied.frame⟩⟩, togo_lt (.inr ⟨?_, hahead.le⟩)⟩
    rw [hinner]
    show cap + 2 + (cap - (s.op + 8)).toNat < _
    omega
  · refine ⟨⟨h.ip, by show 0 ≤ s.op + 8; omega, ⟨hin, hreach.1, hreach.2, ?_, hcpy, hroom⟩,
      ⟨hcopied.within, hcopied.frame⟩⟩, togo_lt (.inr ⟨?_, hahead.le⟩)⟩
    · show s.op + 8 ≤ cap
      omega
    · rw [hinner]
      show 1 + (cap - (s.op + 8)).toNat < _
      omega

theorem good_tail {s : State} {ref cpy : Int} (h : Safe src cap dst s) (hpc : s.pc = .tail ref cpy) :
    Good src cap dst s (body src cap s) := by
  obtain ⟨hin, href, hle, hend, hcpy, hroom⟩ : s.ip ≤ src.length - 6 ∧ 0 ≤ ref ∧ ref ≤ s.op ∧
      s.op ≤ cap ∧ 0 ≤ cpy ∧ cpy ≤ cap - 5 := by
    have := h.room
    rwa [hpc] at this
  have hop := h.op
  have hahead : ahead s = s.ip := by simp only [ahead, hpc]
  have hinner : inner cap s = 1 + (cap - s.op).toNat := by simp only [inner, hpc]
  simp only [body, hpc]
  split
  · have hcopied := h.logged.copyBack 1 ref href hle (by omega)
    refine ⟨⟨h.ip, by show 0 ≤ s.op + 1; omega, ⟨hin, by omega, ?_, ?_, hcpy, hroom⟩,
      ⟨hcopied.within, hcopied.frame⟩⟩, togo_lt (.inr ⟨?_, hahead.le⟩)⟩
    · show ref + 1 ≤ s.op + 1
      omega
    · show s.op + 1 ≤ cap
      omega
    · rw [hinner]
      show 1 + (cap - (s.op + 1)).toNat < _
      omega
  · refine ⟨⟨h.ip, hcpy, ⟨?_, ?_⟩, ⟨h.logged.within, h.logged.frame⟩⟩,
      togo_lt (.inr ⟨?_, hahead.le⟩)⟩
    · show s.ip < src.length
      omega
    · show cpy ≤ cap
      omega
    · rw [hinner]
      show 0 < _
      omega

theorem good_body {s : State} (h : Safe src cap dst s) : Good src cap dst s (body src cap s) := by
  cases hpc : s.pc with
  | token => exact good_token h hpc
  | litLength => exact good_litLength h hpc
  | literals => exact good_literals h hpc
  | wildLits => exact good_wildLits h hpc
  | offset => exact good_offset h hpc
  | matchLength => exact good_matchLength h hpc
  | matchStart => exact good_matchStart h hpc
  | wild => exact good_wild h hpc
  | secure => exact good_secure h hpc
  | tail => exact good_tail h hpc

theorem bounded : Loop.Bounded (body src cap) (Safe src cap dst) (Returned src cap dst)
    (togo src cap) where
  again s t hs ht := by
    have hgood := good_body hs
    rwa [ht] at hgood
  stop s r hs hr := by
    have hgood := good_body hs
    rwa [hr] at hgood

theorem safe_start (hsrc : src ≠ []) : Safe src cap dst (start dst) where
  ip := le_rfl
  op := le_rfl
  room := ⟨by
    show (0 : Int) < src.length
    exact_mod_cast List.length_pos_iff.mpr hsrc, Int.natCast_nonneg cap⟩
  logged := ⟨fun a ha => absurd ha List.not_mem_nil, fun _ _ => rfl⟩

/-- Whatever the input, decoding ends, reads nothing outside of it and nothing outside of the
output buffer, writes nothing outside of the output buffer, and returns a length that fits or an
error. -/
theorem decompress_within (src : List UInt8) (cap : Nat) (dst : Int → UInt8) (hsrc : src ≠ []) :
    ∃ r, decompress src cap dst = some r ∧ Returned src cap dst r := by
  have hstart : Safe src cap dst (start dst) := safe_start hsrc
  unfold decompress
  split
  · exact ⟨_, rfl, .inl (by show (-1 : Int) < 0; decide), hstart.logged⟩
  · refine bounded.loop_spec hstart ?_
    have hinner : inner cap (start dst) = 0 := rfl
    have hahead : ahead (start dst) = 0 := rfl
    rw [togo, hinner, hahead]
    simp

theorem decompress_within_garbage : ∃ r, decompress [0xff, 0xff, 1, 0] 9 (fun _ => 0) = some r ∧
    Returned [0xff, 0xff, 1, 0] 9 (fun _ => 0) r :=
  decompress_within _ _ _ (by decide)

end Hammer2.Compress.Decoder
