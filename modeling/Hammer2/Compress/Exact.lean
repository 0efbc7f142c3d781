/-
# `Hammer2.Compress.Exact` — a legal block is expanded to what it stands for

`LZ4_decompress_safe` copies more than it has to, and goes back to where it should have ended.  The
bytes of a near match come from further back than the match says; `dec32table` and `dec64table` keep
what is between a multiple of the match's distance.

    decompress_exact    of a legal block, the bytes that the format says
-/
import Hammer2.Compress.Decoder
import Hammer2.Boot.Agree
import Hammer2.File.Decompress

namespace Hammer2.Compress.Decoder

open Boot (readLen lenOf)
open Boot.Lz4Block (byteAt byteAt_drop drop_tail)

variable {src : List UInt8} (cap : Nat)

variable (src) in
/-- The decoder is at `pc`, with `rest` to come and `out` written. -/
structure At (pc : Pc) (rest out : List UInt8) (s : State) : Prop where
  pc : s.pc = pc
  ip : ∃ k : Nat, s.ip = k ∧ k ≤ src.length ∧ src.drop k = rest
  op : s.op = out.length
  held : Lz4.Held s.dst out

theorem At.togo {pc : Pc} {rest out : List UInt8} {s : State} (h : At src pc rest out s) :
    s.ip + rest.length = src.length := by
  obtain ⟨k, hip, hle, hrest⟩ := h.ip
  rw [hip, ← hrest, List.length_drop]
  omega

/-- The byte that is fetched, and the state after it. -/
theorem At.fetch {pc : Pc} {b : UInt8} {rest out : List UInt8} {s : State}
    (h : At src pc (b :: rest) out s) :
    byteAt src s.ip = b.toNat ∧ ∀ pc', At src pc' rest out (s.fetch pc') := by
  obtain ⟨k, hip, hle, hrest⟩ := h.ip
  obtain ⟨htail, hle'⟩ := drop_tail hrest
  refine ⟨byteAt_drop hrest hip, fun pc' => ⟨rfl, ⟨k + 1, ?_, hle', htail⟩, h.op, h.held⟩⟩
  show s.ip + 1 = _
  rw [hip]
  rfl

/-! ## Lengths -/

/-- The rest of a length, of which no byte is among the last `slack`. -/
theorem leads_readLen {ext done : Nat → Pc} (slack : Nat)
    (hbody : ∀ (s : State) n, s.pc = ext n → s.ip < src.length - slack → body src cap s =
      .again (s.fetch (if byteAt src s.ip = 255 then ext (n + byteAt src s.ip)
        else done (n + byteAt src s.ip)))) :
    ∀ {rest rest' out : List UInt8} {len l : Nat} {s : State}, readLen rest len = some (l, rest') →
      slack ≤ rest'.length → At src (ext len) rest out s →
      ∃ t, Loop.Leads (body src cap) s t ∧ At src (done l) rest' out t
  | b :: rest, rest', out, len, l, s, hlen, hslack, h => by
      obtain ⟨hb, hnext⟩ := h.fetch
      have htogo : s.ip + (rest.length + 1 : Nat) = src.length := h.togo
      have hiff : b.toNat = 255 ↔ b = 255 := UInt8.toNat_inj (b := 255)
      have hturn := hbody s len h.pc
      rw [hb] at hturn
      simp only [hiff] at hturn
      unfold readLen at hlen
      split at hlen
      · rename_i h255
        have hle := length_of_readLen hlen
        rw [if_pos h255, h255] at hturn
        obtain ⟨t, hleads, ht⟩ := leads_readLen slack hbody hlen hslack (hnext (ext (len + 255)))
        exact ⟨t, .head (hturn (by omega)) hleads, ht⟩
      · rename_i h255
        cases hlen
        rw [if_neg h255] at hturn
        exact ⟨_, .single (hturn (by omega)), hnext _⟩
where
  length_of_readLen : ∀ {ip : List UInt8} {len l : Nat} {rest : List UInt8},
      readLen ip len = some (l, rest) → rest.length < ip.length
    | b :: ip, len, l, rest, h => by
        unfold readLen at h
        split at h
        · exact Nat.lt_succ_of_lt (length_of_readLen h)
        · cases h
          exact Nat.lt_succ_self _

/-- A length, from the half of the token that begins it. -/
theorem leads_lenOf {ext done : Nat → Pc} (slack : Nat)
    (hbody : ∀ (s : State) n, s.pc = ext n → s.ip < src.length - slack → body src cap s =
      .again (s.fetch (if byteAt src s.ip = 255 then ext (n + byteAt src s.ip)
        else done (n + byteAt src s.ip))))
    {rest rest' out : List UInt8} {half l : Nat} {s : State} (hlen : lenOf half rest = some (l, rest'))
    (hslack : slack ≤ rest'.length)
    (h : At src (if half = 15 then ext half else done half) rest out s) :
    ∃ t, Loop.Leads (body src cap) s t ∧ At src (done l) rest' out t := by
  unfold lenOf at hlen
  split at hlen
  · rename_i h15
    rw [if_pos h15, h15] at h
    exact leads_readLen cap slack hbody hlen hslack h
  · rename_i h15
    cases hlen
    rw [if_neg h15] at h
    exact ⟨s, .refl, h⟩

/-! ## Literals -/

/-- The literals that come last. -/
theorem At.literals_last {tok len : Nat} {rest out : List UInt8} {s : State}
    (h : At src (.literals tok len) rest out s) (hroom : out.length + len ≤ cap)
    (hlen : len = rest.length) :
    ∃ t, body src cap s = .stop (((out ++ rest).length : Nat), t) ∧ Lz4.Held t.dst (out ++ rest) := by
  obtain ⟨k, hip, hle, hrest⟩ := h.ip
  have htogo := h.togo
  have hop := h.op
  refine ⟨copyIn src len s, ?_, ?_⟩
  · have hop' : (copyIn src len s).op = (out ++ rest).length := by
      show s.op + len = _
      rw [List.length_append]
      omega
    simp only [body, h.pc]
    rw [if_pos (by omega), if_neg (by omega), hop']
  · refine (h.held.mono fun i hi => if_neg (by omega)).append fun i b hb => ?_
    have hlt : i < rest.length := (List.getElem?_eq_some_iff.mp hb).1
    have hsrc : (s.ip + ((out.length : Int) + i - s.op)).toNat = k + i := by omega
    rw [← hrest, List.getElem?_drop] at hb
    show (if s.op ≤ (out.length : Int) + i ∧ _ then src.getD _ 0 else _) = b
    rw [if_pos (by omega), hsrc, List.getD_eq_getElem?_getD, hb]
    rfl

variable (src) in
/-- The literals of a sequence are being copied, to `cpy`. -/
structure Filling (tok len : Nat) (rest out : List UInt8) (s : State) : Prop where
  pc : s.pc = .wildLits tok (out.length + len)
  ip : ∃ k : Nat, s.ip - (s.op - out.length) = k ∧ k ≤ src.length ∧ src.drop k = rest
  op : (out.length : Int) ≤ s.op
  held : Lz4.Held s.dst out
  bytes : ∀ i : Nat, (out.length : Int) + i < s.op → s.dst (out.length + i) = rest.getD i 0

/-- Eight bytes of literals, or some of what follows. -/
theorem Filling.copyIn {tok len : Nat} {rest out : List UInt8} {s : State}
    (h : Filling src tok len rest out s) : Filling src tok len rest out (copyIn src 8 s) := by
  obtain ⟨hpc, ⟨k, hip, hle, hrest⟩, hop, hheld, hbytes⟩ := h
  have hfrom : ∀ i : Int, i < s.op → (Decoder.copyIn src 8 s).dst i = s.dst i :=
    fun i hi => if_neg (by omega)
  refine ⟨hpc, ⟨k, ?_, hle, hrest⟩, ?_, hheld.mono fun i hi => hfrom i (by omega), ?_⟩
  · show s.ip + 8 - (s.op + 8 - out.length) = k
    omega
  · show (out.length : Int) ≤ s.op + 8
    omega
  · intro i hi
    rcases lt_or_ge ((out.length : Int) + i) s.op with hold | hnew
    · rw [hfrom _ hold]
      exact hbytes i hold
    · have hlt : (out.length : Int) + i < s.op + (8 : Nat) := hi
      have hsrc : (s.ip + ((out.length : Int) + i - s.op)).toNat = k + i := by omega
      show (if s.op ≤ (out.length : Int) + i ∧ _ then src.getD _ 0 else _) = _
      rw [if_pos ⟨hnew, hlt⟩, hsrc, ← hrest, List.getD_eq_getElem?_getD, List.getD_eq_getElem?_getD,
        List.getElem?_drop]

/-- The pointers go back to the end of the literals. -/
theorem Filling.done {tok len : Nat} {rest out : List UInt8} {s : State}
    (h : Filling src tok len rest out s) (hlen : len ≤ rest.length)
    (hop : (out.length : Int) + len ≤ s.op) :
    At src (.offset tok) (rest.drop len) (out ++ rest.take len) { s with
      ip := s.ip - (s.op - (out.length + len)), op := out.length + len, pc := .offset tok } := by
  obtain ⟨-, ⟨k, hip, hle, hrest⟩, -, hheld, hbytes⟩ := h
  have hlong : rest.length = src.length - k := by rw [← hrest, List.length_drop]
  have htake : (rest.take len).length = len := by rw [List.length_take, Nat.min_eq_left hlen]
  refine ⟨rfl, ⟨k + len, ?_, by omega, by rw [← List.drop_drop, hrest]⟩, ?_,
    hheld.append fun i b hb => ?_⟩
  · show s.ip - (s.op - (out.length + len)) = (k + len : Nat)
    omega
  · show (out.length : Int) + len = (out ++ rest.take len).length
    rw [List.length_append, htake]
    rfl
  · have hlt : i < len := by
      have := (List.getElem?_eq_some_iff.mp hb).1
      omega
    rw [List.getElem?_take_of_lt hlt] at hb
    show s.dst _ = b
    rw [hbytes i (by omega), List.getD_eq_getElem?_getD, hb]
    rfl

theorem leads_wildLits {tok len : Nat} {rest out : List UInt8} (hlen : len ≤ rest.length) :
    ∀ (todo : Nat) {s : State}, (out.length : Int) + len - s.op ≤ 8 * todo →
      Filling src tok len rest out s →
      ∃ t, Loop.Leads (body src cap) s t ∧ At src (.offset tok) (rest.drop len) (out ++ rest.take len) t := by
  have hturn : ∀ s : State, Filling src tok len rest out s → body src cap s =
      if s.op + 8 < out.length + len then .again (copyIn src 8 s)
      else .again { copyIn src 8 s with
        ip := s.ip + 8 - (s.op + 8 - (out.length + len)), op := out.length + len,
        pc := .offset tok } := by
    intro s h
    have hsame : ({ copyIn src 8 s with pc := .wildLits tok (out.length + len) } : State) =
        copyIn src 8 s := by
      have hpc : (copyIn src 8 s).pc = .wildLits tok (out.length + len) := h.pc
      rw [← hpc]
    simp only [body, h.pc]
    rw [hsame]
    rfl
  intro todo
  induction todo with
  | zero =>
      intro s htodo h
      exact ⟨_, .single ((hturn s h).trans (if_neg (by omega))),
        h.copyIn.done hlen (by show _ ≤ s.op + (8 : Nat); omega)⟩
  | succ todo ih =>
      intro s htodo h
      by_cases hmore : s.op + 8 < out.length + len
      · have hop : (copyIn src 8 s).op = s.op + (8 : Nat) := rfl
        obtain ⟨t, hleads, ht⟩ := ih (by omega) h.copyIn
        exact ⟨t, .head ((hturn s h).trans (if_pos hmore)) hleads, ht⟩
      · exact ⟨_, .single ((hturn s h).trans (if_neg hmore)),
          h.copyIn.done hlen (by show _ ≤ s.op + (8 : Nat); omega)⟩

/-- The literals of a sequence with a match. -/
theorem At.leads_literals {tok len : Nat} {rest out : List UInt8} {s : State}
    (h : At src (.literals tok len) rest out s) (hlen : len + 8 ≤ rest.length)
    (hroom : out.length + len + 12 ≤ cap) :
    ∃ t, Loop.Leads (body src cap) s t ∧
      At src (.offset tok) (rest.drop len) (out ++ rest.take len) t := by
  obtain ⟨k, hip, hle, hrest⟩ := h.ip
  have htogo := h.togo
  have hop := h.op
  have hturn : body src cap s = .again { s with pc := .wildLits tok (out.length + len) } := by
    simp only [body, h.pc]
    rw [if_neg (by omega), hop]
  have hfill : Filling src tok len rest out { s with pc := .wildLits tok (out.length + len) } := by
    refine ⟨rfl, ⟨k, ?_, hle, hrest⟩, hop.ge, h.held, fun i hi => ?_⟩
    · show s.ip - (s.op - out.length) = k
      omega
    · have hlt : (out.length : Int) + i < s.op := hi
      omega
  obtain ⟨t, hleads, ht⟩ := leads_wildLits cap (by omega) len (by
    show (out.length : Int) + len - s.op ≤ 8 * len
    omega) hfill
  exact ⟨t, .head hturn hleads, ht⟩

/-! ## Matches -/

/-- The distance. -/
theorem At.offset {tok off : Nat} {b₀ b₁ : UInt8} {rest out : List UInt8} {s : State}
    (h : At src (.offset tok) (b₀ :: b₁ :: rest) out s) (hoff : off = b₀.toNat + 256 * b₁.toNat)
    (hreach : off ≤ out.length) :
    ∃ t, body src cap s = .again t ∧
      At src (if tok % 16 = 15 then .matchLength ((out.length : Int) - off) (tok % 16)
        else .matchStart ((out.length : Int) - off) (tok % 16)) rest out t := by
  obtain ⟨k, hip, hle, hrest⟩ := h.ip
  obtain ⟨hdrop1, -⟩ := drop_tail hrest
  obtain ⟨hdrop2, hle2⟩ := drop_tail hdrop1
  have hop := h.op
  have hb₀ : byteAt src s.ip = b₀.toNat := byteAt_drop hrest hip
  have hb₁ : byteAt src (s.ip + 1) = b₁.toNat := byteAt_drop hdrop1 (by rw [hip]; rfl)
  refine ⟨{ s with ip := s.ip + 2, log := .fetch s.ip 2 :: s.log
                   pc := if tok % 16 = 15 then .matchLength ((out.length : Int) - off) (tok % 16)
                    else .matchStart ((out.length : Int) - off) (tok % 16) }, ?_, ?_⟩
  · simp only [body, h.pc]
    rw [hb₀, hb₁, ← hoff, if_neg (by omega), hop]
  · refine ⟨rfl, ⟨k + 2, ?_, hle2, hdrop2⟩, hop, h.held⟩
    show s.ip + 2 = (k + 2 : Nat)
    omega

/-- The tables keep a near match at a multiple of its distance. -/
theorem dec_multiple : ∀ d : Nat, d < 8 → 0 < d → ∃ j : Nat, j < 8 ∧ ∃ j' : Nat, j' < 9 ∧ 0 < j ∧ 0 < j' ∧
    (d : Int) + dec32table.getD d 0 = (j * d : Nat) ∧ 4 ≤ j * d ∧ j * d ≤ 4 + d ∧
    (d : Int) + 4 + dec32table.getD d 0 + dec64table.getD d 0 = (j' * d : Nat) ∧ 8 ≤ j' * d ∧
    j' * d ≤ 8 + d := by decide

variable (src) in
/-- A match of the distance `off` is being copied, from `ref` on. -/
structure Copying (off : Nat) (rest out : List UInt8) (ref : Int) (s : State) : Prop where
  ip : ∃ k : Nat, s.ip = k ∧ k ≤ src.length ∧ src.drop k = rest
  op : (out.length : Int) ≤ s.op
  held : Lz4.Held s.dst out
  per : Lz4.Periodic off out.length s.op s.dst
  back : ∃ j : Nat, 0 < j ∧ ref = s.op - (j * off : Nat) ∧ 8 ≤ j * off
  low : (out.length : Int) - off ≤ ref

theorem Copying.copyBack {off : Nat} {rest out : List UInt8} {ref : Int} {s : State}
    (h : Copying src off rest out ref s) (len : Nat) (hlen : len ≤ 8) :
    Copying src off rest out (ref + len) (copyBack len ref s) := by
  obtain ⟨j, hj, href, hfar⟩ := h.back
  refine ⟨h.ip, ?_, ?_, h.per.blit len ref hj href (by omega) h.low, ⟨j, hj, ?_, hfar⟩, ?_⟩
  · have := h.op
    show (out.length : Int) ≤ s.op + len
    omega
  · have := h.op
    exact h.held.mono fun i hi => Lz4.blit_below (by omega)
  · show ref + len = s.op + len - (j * off : Nat)
    omega
  · have := h.low
    omega

/-- The pointer goes back to the end of the match. -/
theorem Copying.done {off n : Nat} {rest out : List UInt8} {ref : Int} {s : State}
    (h : Copying src off rest out ref s) (hpos : 0 < off) (hreach : off ≤ out.length)
    (hend : (out.length : Int) + n ≤ s.op) :
    At src .token rest (Lz4.copyMatch off n out)
      { s with op := (out.length : Int) + n, pc := .token } := by
  refine ⟨rfl, h.ip, ?_, ?_⟩
  · show (out.length : Int) + n = (Lz4.copyMatch off n out).length
    rw [Lz4.length_copyMatch]
    rfl
  · exact h.held.copyMatch hpos hreach fun i hge hlt => h.per i hge (by omega)

/-- The first eight bytes. -/
theorem first_exact {off : Nat} {rest out : List UInt8} {ref : Int} {pc : Pc} {s : State}
    (h : At src pc rest out s) (hpos : 0 < off) (href : ref = (out.length : Int) - off) :
    Copying src off rest out (first ref s).2 (first ref s).1 ∧
      (first ref s).1.op = out.length + 8 := by
  have hop := h.op
  have hdist : s.op - ref = off := by omega
  have hone : off = 1 * off := (Nat.one_mul off).symm
  have hnil := Lz4.Periodic.nil off s.op s.dst
  unfold first
  rw [hdist, Int.toNat_natCast]
  split
  · rename_i hnear
    obtain ⟨j, -, j', -, hj, hj', h32, hfar, hlow, h64, hfar', hlow'⟩ :=
      dec_multiple off (by omega) hpos
    -- four bytes one by one, then four at once
    have h1 := hnil.blit 1 ref Nat.one_pos (by omega) (by omega) (by omega)
    have h2 := h1.blit 1 (ref + 1) Nat.one_pos (by omega) (by omega) (by omega)
    have h3 := h2.blit 1 (ref + 2) Nat.one_pos (by omega) (by omega) (by omega)
    have h4 := h3.blit 1 (ref + 3) Nat.one_pos (by omega) (by omega) (by omega)
    have h5 := h4.blit 4 (ref + 4 - dec32table.getD off 0) hj
      (by omega) hfar (by omega)
    refine ⟨⟨h.ip, ?_, ?_, by rw [← hop]; exact h5, ⟨j', hj', ?_, hfar'⟩, ?_⟩, ?_⟩
    · show (out.length : Int) ≤ s.op + 1 + 1 + 1 + 1 + 4
      omega
    · refine h.held.mono fun i hi => ?_
      exact (Lz4.blit_below (by show i < s.op + 1 + 1 + 1 + 1; omega)).trans
        ((Lz4.blit_below (by show i < s.op + 1 + 1 + 1; omega)).trans
          ((Lz4.blit_below (by show i < s.op + 1 + 1; omega)).trans
            ((Lz4.blit_below (by show i < s.op + 1; omega)).trans
              (Lz4.blit_below (by omega)))))
    · show ref + 4 - _ - _ = s.op + 1 + 1 + 1 + 1 + 4 - _
      omega
    · show _ ≤ ref + 4 - _ - _
      omega
    · show s.op + 1 + 1 + 1 + 1 + 4 = _
      omega
  · have h8 := hnil.blit 8 ref Nat.one_pos (by omega) (by omega) (by omega)
    refine ⟨⟨h.ip, ?_, h.held.mono fun i hi => Lz4.blit_below (by omega), by rw [← hop]; exact h8,
      ⟨1, Nat.one_pos, ?_, by omega⟩, ?_⟩, ?_⟩
    · show (out.length : Int) ≤ s.op + 8
      omega
    · show ref + 8 = s.op + 8 - (1 * off : Nat)
      omega
    · show _ ≤ ref + 8
      omega
    · show s.op + 8 = _
      omega

section Rest

variable {off n : Nat} {rest out : List UInt8} (hpos : 0 < off) (hreach : off ≤ out.length)

theorem Copying.at (pc : Pc) {ref : Int} {s : State} (h : Copying src off rest out ref s) :
    Copying src off rest out ref { s with pc := pc } :=
  ⟨h.ip, h.op, h.held, h.per, h.back, h.low⟩

include hpos hreach

/-- `LZ4_WILDCOPY` of what is left of a match. -/
theorem leads_wild : ∀ (todo : Nat) {ref : Int} {s : State},
    (out.length : Int) + n - s.op ≤ 8 * todo → s.pc = .wild ref (out.length + n) →
    Copying src off rest out ref s →
    ∃ t, Loop.Leads (body src cap) s t ∧ At src .token rest (Lz4.copyMatch off n out) t := by
  intro todo
  induction todo with
  | zero =>
      intro ref s htodo hpc h
      refine ⟨_, .single ?_, (h.copyBack 8 le_rfl).done hpos hreach (by
        show _ ≤ s.op + (8 : Nat)
        omega)⟩
      have hop : (copyBack 8 ref s).op = s.op + (8 : Nat) := rfl
      simp only [body, hpc]
      rw [if_neg (by omega)]
  | succ todo ih =>
      intro ref s htodo hpc h
      have hop : (copyBack 8 ref s).op = s.op + (8 : Nat) := rfl
      by_cases hmore : (copyBack 8 ref s).op < out.length + n
      · obtain ⟨t, hleads, ht⟩ := ih (by
          show (out.length : Int) + n - (s.op + (8 : Nat)) ≤ 8 * todo
          omega) rfl ((h.copyBack 8 le_rfl).at (.wild (ref + 8) (out.length + n)))
        refine ⟨t, .head ?_ hleads, ht⟩
        simp only [body, hpc]
        rw [if_pos hmore]
      · refine ⟨_, .single ?_, (h.copyBack 8 le_rfl).done hpos hreach (by omega)⟩
        simp only [body, hpc]
        rw [if_neg hmore]

theorem leads_tail : ∀ (todo : Nat) {ref : Int} {s : State},
    (out.length : Int) + n - s.op ≤ todo → s.pc = .tail ref (out.length + n) →
    Copying src off rest out ref s →
    ∃ t, Loop.Leads (body src cap) s t ∧ At src .token rest (Lz4.copyMatch off n out) t := by
  intro todo
  induction todo with
  | zero =>
      intro ref s htodo hpc h
      refine ⟨_, .single ?_, h.done hpos hreach (by omega)⟩
      simp only [body, hpc]
      rw [if_neg (by omega)]
  | succ todo ih =>
      intro ref s htodo hpc h
      by_cases hmore : s.op < out.length + n
      · obtain ⟨t, hleads, ht⟩ := ih (by
          show (out.length : Int) + n - (s.op + (1 : Nat)) ≤ todo
          omega) rfl ((h.copyBack 1 (by omega)).at (.tail (ref + 1) (out.length + n)))
        refine ⟨t, .head ?_ hleads, ht⟩
        simp only [body, hpc]
        rw [if_pos hmore]
      · refine ⟨_, .single ?_, h.done hpos hreach (by omega)⟩
        simp only [body, hpc]
        rw [if_neg hmore]

/-- `LZ4_SECURECOPY`, and what it leaves. -/
theorem leads_secure : ∀ (todo : Nat) {ref : Int} {s : State}, cap - 8 - s.op ≤ 8 * todo →
    s.pc = .secure ref (out.length + n) → Copying src off rest out ref s →
    ∃ t, Loop.Leads (body src cap) s t ∧ At src .token rest (Lz4.copyMatch off n out) t := by
  have hlast : ∀ {ref : Int} {s : State}, s.pc = .secure ref (out.length + n) →
      Copying src off rest out ref s → ¬ (copyBack 8 ref s).op < cap - 8 →
      ∃ t, Loop.Leads (body src cap) s t ∧ At src .token rest (Lz4.copyMatch off n out) t := by
    intro ref s hpc h hdone
    have hcopy := (h.copyBack 8 le_rfl).at (.tail (ref + 8) (out.length + n))
    obtain ⟨t, hleads, ht⟩ := leads_tail cap (n := n) hpos hreach
      ((out.length : Int) + n - (s.op + (8 : Nat))).toNat (Int.self_le_toNat _) rfl hcopy
    refine ⟨t, .head ?_ hleads, ht⟩
    simp only [body, hpc]
    rw [if_neg hdone]
  intro todo
  induction todo with
  | zero =>
      intro ref s htodo hpc h
      refine hlast hpc h ?_
      show ¬ s.op + (8 : Nat) < cap - 8
      omega
  | succ todo ih =>
      intro ref s htodo hpc h
      by_cases hmore : (copyBack 8 ref s).op < cap - 8
      · obtain ⟨t, hleads, ht⟩ := ih (by
          show cap - 8 - (s.op + (8 : Nat)) ≤ 8 * todo
          omega) rfl ((h.copyBack 8 le_rfl).at (.secure (ref + 8) (out.length + n)))
        refine ⟨t, .head ?_ hleads, ht⟩
        simp only [body, hpc]
        rw [if_pos hmore]
      · exact hlast hpc h hmore

end Rest

/-- A whole match. -/
theorem At.leads_match {off length : Nat} {rest out : List UInt8} {s : State}
    (h : At src (.matchStart ((out.length : Int) - off) length) rest out s) (hpos : 0 < off)
    (hreach : off ≤ out.length) (hroom : out.length + (length + 4) + 5 ≤ cap) :
    ∃ t, Loop.Leads (body src cap) s t ∧
      At src .token rest (Lz4.copyMatch off (length + 4) out) t := by
  obtain ⟨hcopy, hop⟩ := first_exact h hpos rfl
  have hturn : body src cap s = (let f := first ((out.length : Int) - off) s
      let cpy : Int := out.length + (length + 4 : Nat)
      if cpy > cap - 12 then
        .again { f.1 with pc := if f.1.op < cap - 8 then .secure f.2 cpy else .tail f.2 cpy }
      else .again { f.1 with pc := .wild f.2 cpy }) := by
    have hcpy : (first ((out.length : Int) - off) s).1.op + length - 4 =
        out.length + (length + 4 : Nat) := by omega
    simp only [body, h.pc]
    rw [hcpy]
    split
    · rw [if_neg (by omega)]
    · rfl
  generalize first ((out.length : Int) - off) s = f at hcopy hop hturn
  dsimp only at hturn
  split at hturn
  · split at hturn
    · obtain ⟨t, hleads, ht⟩ := leads_secure cap (n := length + 4) hpos hreach cap (by
        show cap - 8 - f.1.op ≤ 8 * cap
        omega) rfl (hcopy.at (.secure f.2 (out.length + (length + 4 : Nat))))
      exact ⟨t, .head hturn hleads, ht⟩
    · obtain ⟨t, hleads, ht⟩ := leads_tail cap (n := length + 4) hpos hreach (length + 4) (by
        show (out.length : Int) + (length + 4 : Nat) - f.1.op ≤ (length + 4 : Nat)
        omega) rfl (hcopy.at (.tail f.2 (out.length + (length + 4 : Nat))))
      exact ⟨t, .head hturn hleads, ht⟩
  · obtain ⟨t, hleads, ht⟩ := leads_wild cap (n := length + 4) hpos hreach (length + 4) (by
      show (out.length : Int) + (length + 4 : Nat) - f.1.op ≤ 8 * (length + 4 : Nat)
      omega) rfl (hcopy.at (.wild f.2 (out.length + (length + 4 : Nat))))
    exact ⟨t, .head hturn hleads, ht⟩

/-! ## Blocks -/

/-- The token. -/
theorem At.leads_token {b : UInt8} {rest out : List UInt8} {s : State}
    (h : At src .token (b :: rest) out s) :
    ∃ t, body src cap s = .again t ∧ At src (if b.toNat / 16 = 15
      then .litLength b.toNat (b.toNat / 16) else .literals b.toNat (b.toNat / 16)) rest out t := by
  obtain ⟨hb, hnext⟩ := h.fetch
  refine ⟨s.fetch (if b.toNat / 16 = 15 then .litLength b.toNat (b.toNat / 16)
    else .literals b.toNat (b.toNat / 16)), ?_, hnext _⟩
  simp only [body, h.pc]
  rw [hb]

theorem litLength_turn (tok : Nat) (s : State) (n : Nat) (hpc : s.pc = .litLength tok n)
    (hlt : s.ip < src.length - (0 : Nat)) : body src cap s =
      .again (s.fetch (if byteAt src s.ip = 255 then .litLength tok (n + byteAt src s.ip)
        else .literals tok (n + byteAt src s.ip))) := by
  simp only [body, hpc]
  rw [if_pos (by omega)]

theorem matchLength_turn (ref : Int) (s : State) (n : Nat) (hpc : s.pc = .matchLength ref n)
    (hlt : s.ip < src.length - (6 : Nat)) : body src cap s =
      .again (s.fetch (if byteAt src s.ip = 255 then .matchLength ref (n + byteAt src s.ip)
        else .matchStart ref (n + byteAt src s.ip))) := by
  simp only [body, hpc]
  rw [if_pos (by omega)]

/-- A sequence, with enough of the block and of the output behind it. -/
theorem leads_seq {q : Lz4.Seq} {rest out : List UInt8} {s : State}
    (h : At src .token (Lz4.encodeSeq q ++ rest) out s) (hoff : 1 ≤ q.off) (hoff' : q.off < 65536)
    (hlen : 4 ≤ q.len) (hreach : q.off ≤ (out ++ q.lits).length) (hrest : 6 ≤ rest.length)
    (hroom : (out ++ q.lits).length + 12 ≤ cap) (hroom' : (out ++ q.lits).length + q.len + 5 ≤ cap) :
    ∃ t, Loop.Leads (body src cap) s t ∧
      At src .token rest (Lz4.copyMatch q.off q.len (out ++ q.lits)) t := by
  rw [Lz4.encodeSeq, List.cons_append, List.append_assoc, List.append_assoc] at h
  obtain ⟨s₁, h₁, hat₁⟩ := h.leads_token cap
  rw [Lz4.token_div] at hat₁
  obtain ⟨s₂, h₂, hat₂⟩ := leads_lenOf cap 0
    (litLength_turn cap (Lz4.token q.lits.length (q.len - 4)).toNat) (Boot.lenOf_more _ _)
    (Nat.zero_le _) hat₁
  rw [List.length_append] at hroom
  obtain ⟨s₃, h₃, hat₃⟩ := hat₂.leads_literals cap
    (by simp only [List.length_append, List.length_cons]; omega) hroom
  rw [List.drop_left, List.take_left, List.cons_append, List.cons_append] at hat₃
  obtain ⟨s₄, h₄, hat₄⟩ := hat₃.offset cap (Lz4.off_bytes hoff').symm hreach
  rw [Lz4.token_mod] at hat₄
  obtain ⟨s₅, h₅, hat₅⟩ := leads_lenOf cap 6 (matchLength_turn cap _)
    (Boot.lenOf_more _ _) hrest hat₄
  have hmatch : q.len - 4 + 4 = q.len := Nat.sub_add_cancel hlen
  obtain ⟨t, h₆, hat⟩ := hat₅.leads_match cap hoff hreach (by omega)
  rw [hmatch] at hat
  exact ⟨t, .head h₁ (h₂.trans (h₃.trans (.head h₄ (h₅.trans h₆)))), hat⟩

theorem six_le_encode (qs : List Lz4.Seq) {last : List UInt8} (h : 5 ≤ last.length) :
    6 ≤ (Lz4.encode qs last).length := by
  rw [Lz4.encode, Lz4.encodeLast, List.length_append, List.length_cons, List.length_append]
  omega

/-- What is behind the literals of a sequence, when a block ends as it should. -/
theorem twelve_le {q : Lz4.Seq} {last : List UInt8} : ∀ {qs : List Lz4.Seq} {out : List UInt8},
    Lz4.Reaches out (q :: qs) → 5 ≤ last.length →
    (∀ q', (q :: qs).getLast? = some q' → 12 ≤ q'.len + last.length) →
    (out ++ q.lits).length + 12 ≤ (Lz4.decode out (q :: qs) last).length
  | [], out, _, _, htwelve => by
      have hlast := htwelve q rfl
      have hle := Lz4.length_le_decode [] (Lz4.copyMatch q.off q.len (out ++ q.lits)) last
      rw [Lz4.length_copyMatch] at hle
      exact Nat.le_trans (by omega) hle
  | q' :: qs, out, hreach, hfive, _ => by
      obtain ⟨-, -, hlen, -, -, -, hlen', -⟩ := hreach
      have hle := Lz4.length_le_decode qs (Lz4.copyMatch q'.off q'.len
        (Lz4.copyMatch q.off q.len (out ++ q.lits) ++ q'.lits)) last
      rw [Lz4.length_copyMatch, List.length_append, Lz4.length_copyMatch] at hle
      exact Nat.le_trans (by omega) hle

/-- The sequences that are left, and the literals that come last. -/
theorem leads_block {last : List UInt8} : ∀ {qs : List Lz4.Seq} {out : List UInt8} {s : State},
    Lz4.Reaches out qs → (qs ≠ [] → 5 ≤ last.length) →
    (∀ q, qs.getLast? = some q → 12 ≤ q.len + last.length) →
    (Lz4.decode out qs last).length ≤ cap → At src .token (Lz4.encode qs last) out s →
    ∃ t, (∃ fuel, Loop.loop (body src cap) fuel s =
        some (((Lz4.decode out qs last).length : Int), t)) ∧
      Lz4.Held t.dst (Lz4.decode out qs last)
  | [], out, s, _, _, _, hfits, h => by
      have henc : Lz4.encode [] last = Lz4.token last.length 0 :: (Lz4.more last.length ++ last) := rfl
      have hdec : Lz4.decode out [] last = out ++ last := rfl
      rw [hdec, List.length_append] at hfits
      rw [henc] at h
      obtain ⟨s₁, h₁, hat₁⟩ := h.leads_token cap
      rw [Lz4.token_div] at hat₁
      obtain ⟨s₂, h₂, hat₂⟩ := leads_lenOf cap 0
        (litLength_turn cap (Lz4.token last.length 0).toNat) (Boot.lenOf_more _ _) (Nat.zero_le _) hat₁
      obtain ⟨t, ht, hheld⟩ := hat₂.literals_last cap hfits rfl
      exact ⟨t, Loop.Leads.loop_eq (.head h₁ h₂) (Loop.loop_of_stop ht), hheld⟩
  | q :: qs, out, s, hreach, hfive, htwelve, hfits, h => by
      have hlast : 5 ≤ last.length := hfive (List.cons_ne_nil q qs)
      have hroom := twelve_le hreach hlast htwelve
      obtain ⟨hoff, hoff', hlen, hback, hnext⟩ := hreach
      have hle := Lz4.length_le_decode qs (Lz4.copyMatch q.off q.len (out ++ q.lits)) last
      rw [Lz4.length_copyMatch] at hle
      have hfits' : (Lz4.decode (Lz4.copyMatch q.off q.len (out ++ q.lits)) qs last).length ≤ cap :=
        hfits
      rw [Lz4.encode_cons] at h
      obtain ⟨s₁, h₁, hat₁⟩ := leads_seq cap h hoff hoff' hlen hback (six_le_encode qs hlast)
        (Nat.le_trans hroom hfits) (by omega)
      have htwelve' : ∀ q', qs.getLast? = some q' → 12 ≤ q'.len + last.length := by
        intro q' hq'
        refine htwelve q' ?_
        rw [List.getLast?_cons, hq']
        rfl
      obtain ⟨t, hloop, hheld⟩ := leads_block hnext (fun _ => hlast) htwelve' hfits' hat₁
      exact ⟨t, Loop.Leads.loop_eq h₁ hloop, hheld⟩

theorem encode_ne_nil (qs : List Lz4.Seq) (last : List UInt8) : Lz4.encode qs last ≠ [] := by
  rw [Lz4.encode, Lz4.encodeLast]
  exact List.append_ne_nil_of_right_ne_nil _ (List.cons_ne_nil _ _)

/-- **A legal block is expanded to what it stands for**, wherever the output ends. -/
theorem decompress_exact (qs : List Lz4.Seq) (last : List UInt8) (cap : Nat) (dst : Int → UInt8)
    (hlegal : Lz4.Legal qs last) (hpos : 0 < cap) (hfits : (Lz4.decode [] qs last).length ≤ cap) :
    ∃ t, decompress (Lz4.encode qs last) cap dst =
        some (((Lz4.decode [] qs last).length : Int), t) ∧
      (List.range (Lz4.decode [] qs last).length).map (fun i : Nat => t.dst i) =
        Lz4.decode [] qs last := by
  have hstart : At (Lz4.encode qs last) .token (Lz4.encode qs last) [] (start dst) :=
    ⟨rfl, ⟨0, rfl, Nat.zero_le _, rfl⟩, rfl, Lz4.Held.nil dst⟩
  obtain ⟨t, ⟨fuel, hloop⟩, hheld⟩ := leads_block cap hlegal.reaches hlegal.five hlegal.twelve hfits
    hstart
  obtain ⟨r, hr, -⟩ := decompress_within (Lz4.encode qs last) cap dst (encode_ne_nil qs last)
  refine ⟨t, ?_, hheld.map_range⟩
  have hrun := hr
  rw [decompress, if_neg (Nat.ne_of_gt hpos)] at hrun
  rw [hr, Loop.loop_unique hrun hloop]

/-- A match that runs into itself, at the end of the buffer. -/
theorem decompress_exact_near :
    ∃ t, decompress (Lz4.encode [⟨[97, 98, 99], 3, 8⟩] [100, 101, 102, 103, 104]) 16 (fun _ => 0) =
        some (16, t) ∧
      (List.range 16).map (fun i : Nat => t.dst i) =
        [97, 98, 99, 97, 98, 99, 97, 98, 99, 97, 98, 100, 101, 102, 103, 104] :=
  decompress_exact [⟨[97, 98, 99], 3, 8⟩] [100, 101, 102, 103, 104] 16 (fun _ => 0)
    ⟨⟨by decide, by decide, by decide, by decide, trivial⟩, fun _ => by decide, fun q hq => by
      obtain rfl := Option.some.inj hq
      decide⟩ (by decide) (by decide)

/-! ## The callback -/

section Callback

open File.Decompress

/-- The bytes it returns, from a buffer of zeros. -/
def lz4DecompressSafe (src : List UInt8) (cap : Nat) : Option (List UInt8) :=
  match decompress src cap fun _ => 0 with
  | some (ret, t) => if ret < 0 then none else some ((List.range ret.toNat).map fun i : Nat => t.dst i)
  | none => none

/-- The loader and the kernel have decoders that agree. -/
theorem decodes_lz4DecompressSafe : Boot.Decodes lz4DecompressSafe := by
  intro qs last cap hlegal hpos hfits
  obtain ⟨t, hrun, hout⟩ := decompress_exact qs last cap (fun _ => 0) hlegal hpos hfits
  have hneg : ¬ ((Lz4.decode [] qs last).length : Int) < 0 := by omega
  rw [lz4DecompressSafe, hrun]
  dsimp only
  rw [if_neg hneg, Int.toNat_natCast, hout]

/-- What it returns never exceeds the room it is given. -/
theorem decompress_le {src : List UInt8} {cap : Nat} {dst : Int → UInt8} {r : Int × State}
    (h : decompress src cap dst = some r) : r.1 ≤ cap := by
  cases src with
  | cons b src =>
      obtain ⟨r', hr', hret, -⟩ := decompress_within (b :: src) cap dst (List.cons_ne_nil b src)
      obtain rfl := Option.some.inj (hr'.symm.trans h)
      omega
  | nil =>
      unfold decompress at h
      split at h
      · obtain rfl := Option.some.inj h
        show (-1 : Int) ≤ cap
        omega
      · rw [List.length_nil, Nat.zero_mul] at h
        cases h

/-- `LZ4_decompress_safe` into a buffer that holds `buffer`. -/
def safe (buffer : Int → UInt8) : Lz4Safe where
  run src cap :=
    match decompress src cap buffer with
    | some (ret, t) => (ret, fun i => t.dst i)
    | none => (-1, fun i => buffer i)
  le src cap := by
    cases hrun : decompress src cap buffer with
    | none =>
        show (-1 : Int) ≤ cap
        omega
    | some r => exact decompress_le hrun

/-- **The read path restores a block**: what the callback leaves in the buffer of a block that holds
a legal stream. -/
theorem lz4Callback_restores (buffer : Int → UInt8) (data : List UInt8) (bp : Buf)
    (qs : List Lz4.Seq) (last : List UInt8) (hlegal : Lz4.Legal qs last)
    (hsize : bp.bufsize ≤ pbufsize) (hfits : (Lz4.decode [] qs last).length ≤ bp.bufsize)
    (hpos : 0 < bp.bufsize) (hpre : compressedSize data ≤ data.length - 4)
    (hstream : stream data = Lz4.encode qs last) :
    ∃ bp', lz4Callback (safe buffer) data bp = some bp' ∧ bp'.error = bp.error ∧
      (∀ w ∈ bp'.writes, 0 ≤ w.1 ∧ w.1 + w.2 ≤ bp.bufsize) ∧
      ∀ i : Nat, i < bp.bufsize → bp'.data i = (Lz4.decode [] qs last).getD i 0 := by
  obtain ⟨t, hrun, hout⟩ := decompress_exact qs last bp.bufsize buffer hlegal hpos hfits
  have hsafe : (safe buffer).run (stream data) bp.bufsize =
      (((Lz4.decode [] qs last).length : Int), fun i : Nat => t.dst i) := by
    rw [hstream]
    simp only [safe, hrun]
  obtain ⟨hle, hcall⟩ := lz4Callback_spec hsize hpre hsafe
  refine ⟨_, hcall, (fill_fields bp _ _).2, fill_within hle _, fun i hi => ?_⟩
  rw [fill_data hle _ hi, List.getD_eq_getElem?_getD]
  split
  · rename_i hlt
    have hget := congrArg (fun l => l[i]?) hout
    rw [List.getElem?_map, List.getElem?_range hlt, Option.map_some] at hget
    rw [← hget]
    rfl
  · rename_i hge
    rw [List.getElem?_eq_none_iff.mpr (Nat.not_lt.mp hge)]
    rfl

/-- A block of ten bytes, behind its size. -/
def tenBlock : List UInt8 :=
  [10, 0, 0, 0] ++ Lz4.encode [⟨[97], 1, 8⟩] [98, 99, 100, 101, 102] ++ [0, 0]

theorem lz4Callback_restores_ten :
    ∃ bp', lz4Callback (safe fun _ => 255) tenBlock ⟨16, fun _ => 7, 3, 0, []⟩ = some bp' ∧
      bp'.error = 0 ∧ (∀ w ∈ bp'.writes, 0 ≤ w.1 ∧ w.1 + w.2 ≤ (16 : Nat)) ∧
      ∀ i : Nat, i < 16 → bp'.data i = (Lz4.decode [] [⟨[97], 1, 8⟩] [98, 99, 100, 101, 102]).getD i 0 :=
  lz4Callback_restores (fun _ => 255) tenBlock ⟨16, fun _ => 7, 3, 0, []⟩ [⟨[97], 1, 8⟩]
    [98, 99, 100, 101, 102] ⟨⟨by decide, by decide, by decide, by decide, trivial⟩, fun _ => by decide,
      fun q hq => by
        obtain rfl := Option.some.inj hq
        decide⟩ (by decide) (by decide) (by decide) (by decide) (by decide)

end Callback

end Hammer2.Compress.Decoder
