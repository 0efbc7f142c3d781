/-
# `Hammer2.Lib.Overlap` — a match that is copied in chunks

A match may run into itself: every byte of it is the one `off` bytes before, and `Lz4.copyMatch`
takes them one by one.  A decoder takes them in chunks, from further back than `off`.

    Periodic.blit      a chunk may come from any multiple of `off` back, if it does not reach the
                       bytes it is written to, and if it does not begin before the match's source
    Held.copyMatch     the bytes that come out are those of the match
-/
import Hammer2.Lib.Lz4
import Mathlib.Order.Basic
import Mathlib.Algebra.Order.Ring.Int

namespace Lz4

/-! ## Chunks -/

/-- `len` bytes from `ref` to `op`, all of them read before one is written. -/
def blit {α : Type} (len : Nat) (ref op : Int) (d : Int → α) : Int → α :=
  fun i => if op ≤ i ∧ i < op + len then d (ref + (i - op)) else d i

/-- From `m` up to `op` every byte is the one `off` bytes before. -/
def Periodic {α : Type} (off : Nat) (m op : Int) (d : Int → α) : Prop :=
  ∀ i, m ≤ i → i < op → d i = d (i - off)

section Chunks

variable {α : Type} {off len : Nat} {m op ref : Int} {d : Int → α}

theorem blit_below {i : Int} (h : i < op) : blit len ref op d i = d i :=
  if_neg fun hin => absurd hin.1 (not_le.mpr h)

theorem blit_at {i : Int} (h : op ≤ i) (h' : i < op + len) :
    blit len ref op d i = d (ref + (i - op)) :=
  if_pos ⟨h, h'⟩

theorem Periodic.nil (off : Nat) (m : Int) (d : Int → α) : Periodic off m m d := by
  intro i hge hlt
  omega

/-- Any number of times `off` back. -/
theorem Periodic.back (h : Periodic off m op d) : ∀ (j : Nat) {i : Int}, i < op →
    m - off ≤ i - (j * off : Nat) → d i = d (i - (j * off : Nat))
  | 0, i, _, _ => by rw [Nat.zero_mul, Int.natCast_zero, Int.sub_zero]
  | j + 1, i, hlt, hle => by
      have hrest := h.back j (i := i - off) (by omega)
      rw [Nat.succ_mul] at hle ⊢
      generalize j * off = back at hle hrest ⊢
      have hsum : i - off - (back : Nat) = i - (back + off : Nat) := by omega
      rw [h i (by omega) hlt, hrest (by omega), hsum]

/-- A chunk. -/
theorem Periodic.blit (h : Periodic off m op d) (len : Nat) (ref : Int) {j : Nat} (hj : 0 < j)
    (href : ref = op - (j * off : Nat)) (hlen : len ≤ j * off) (hm : m - off ≤ ref) :
    Periodic off m (op + len) (blit len ref op d) := by
  obtain ⟨j, rfl⟩ := Nat.exists_eq_succ_of_ne_zero (Nat.ne_of_gt hj)
  have hdist : (j + 1) * off = j * off + off := Nat.succ_mul j off
  rw [Nat.succ_eq_add_one, hdist] at href
  rw [Nat.succ_eq_add_one, hdist] at hlen
  intro i hge hlt
  rcases lt_or_ge i op with hold | hnew
  · rw [blit_below hold, blit_below (by omega)]
    exact h i hge hold
  · rw [blit_at hnew hlt]
    -- what is copied, and what is `off` before it
    have hfrom : ref + (i - op) = i - (j * off + off : Nat) := by omega
    rw [hfrom]
    rcases lt_or_ge (i - off) op with hlow | hhigh
    · rw [blit_below hlow, h.back j hlow (by omega)]
      congr 1
      omega
    · rw [blit_at hhigh (by omega)]
      have hone := h (i - (j * off + off : Nat)) (by omega) (by omega)
      rw [hone]
      congr 1
      omega

end Chunks

/-! ## Matches -/

/-- The bytes up to the length of `out` are those of `out`. -/
def Held (d : Int → UInt8) (out : List UInt8) : Prop := ∀ (i : Nat) (b : UInt8), out[i]? = some b → d i = b

section Held

variable {off : Nat} {d d' : Int → UInt8} {out : List UInt8}

theorem Held.nil (d : Int → UInt8) : Held d [] := by
  intro i b h
  rw [List.getElem?_nil] at h
  cases h

/-- Bytes further up do not matter. -/
theorem Held.mono (h : Held d out) (hlow : ∀ i : Int, i < out.length → d' i = d i) : Held d' out := by
  intro i b hb
  have hlt : i < out.length := (List.getElem?_eq_some_iff.mp hb).1
  rw [hlow i (by omega)]
  exact h i b hb

theorem Held.append {bs : List UInt8} (h : Held d out)
    (hnew : ∀ (i : Nat) (b : UInt8), bs[i]? = some b → d ((out.length : Int) + i) = b) :
    Held d (out ++ bs) := by
  intro i b hb
  rcases Nat.lt_or_ge i out.length with hlt | hge
  · rw [List.getElem?_append_left hlt] at hb
    exact h i b hb
  · rw [List.getElem?_append_right hge] at hb
    have hi : (i : Int) = out.length + (i - out.length : Nat) := by omega
    rw [hi]
    exact hnew _ b hb

/-- The bytes of a match, from those before it. -/
theorem Held.copyMatch (hoff : 0 < off) : ∀ {n : Nat} {out : List UInt8}, Held d out → off ≤ out.length →
    Periodic off out.length ((out.length : Int) + n) d → Held d (copyMatch off n out)
  | 0, _, h, _, _ => h
  | n + 1, out, h, hle, hper => by
      have hnext : Held d (out ++ [out.getD (out.length - off) 0]) := by
        refine h.append fun i b hb => ?_
        cases i with
        | succ i =>
            rw [List.getElem?_cons_succ, List.getElem?_nil] at hb
            cases hb
        | zero =>
            obtain rfl := Option.some.inj hb
            have hback : (out.length : Int) + (0 : Nat) - off = (out.length - off : Nat) := by omega
            obtain ⟨b, hget⟩ : ∃ b, out[out.length - off]? = some b :=
              ⟨out.get ⟨out.length - off, by omega⟩, List.getElem?_eq_getElem _⟩
            rw [hper _ (by omega) (by omega), hback, List.getD_eq_getElem?_getD, hget]
            exact h _ _ hget
      refine hnext.copyMatch hoff (by rw [List.length_append]; omega) fun i hge hlt => ?_
      rw [List.length_append, List.length_singleton] at hge hlt
      exact hper i (by omega) (by omega)

/-- The bytes that are held, as a list. -/
theorem Held.map_range (h : Held d out) :
    (List.range out.length).map (fun i : Nat => d i) = out := by
  refine List.ext_getElem? fun i => ?_
  rcases Nat.lt_or_ge i out.length with hlt | hge
  · rw [List.getElem?_map, List.getElem?_range hlt, Option.map_some, List.getElem?_eq_getElem hlt]
    exact congrArg some (h i _ (List.getElem?_eq_getElem hlt))
  · rw [List.getElem?_eq_none_iff.mpr (by simpa using hge), List.getElem?_eq_none_iff.mpr hge]

theorem Held.of_prefix {out' : List UInt8} (h : Held d out) (hpre : out' <+: out) : Held d out' := by
  intro i b hb
  obtain ⟨post, rfl⟩ := hpre
  refine h i b ?_
  rw [List.getElem?_append_left (List.getElem?_eq_some_iff.mp hb).1, hb]

/-- A byte in its place. -/
theorem Held.set (h : Held d out) {pre post : List UInt8} {b b' : UInt8} (hout : out = pre ++ b :: post)
    (hat : d' pre.length = b') (hother : ∀ i : Int, i ≠ pre.length → d' i = d i) :
    Held d' (pre ++ b' :: post) := by
  intro i c hc
  rcases Nat.lt_trichotomy i pre.length with hlt | rfl | hgt
  · rw [List.getElem?_append_left hlt] at hc
    rw [hother i (by omega)]
    exact h i c (by rw [hout, List.getElem?_append_left hlt, hc])
  · rw [List.getElem?_append_right le_rfl, Nat.sub_self] at hc
    rw [hat]
    exact Option.some.inj hc
  · rw [hother i (by omega)]
    refine h i c ?_
    obtain ⟨k, rfl⟩ := Nat.exists_eq_add_of_lt hgt
    rw [hout, ← hc, List.getElem?_append_right (by omega), List.getElem?_append_right (by omega),
      Nat.add_assoc, Nat.add_sub_cancel_left]
    rfl

end Held

/-! ## Blocks from the left -/

/-- A match that is found in the data. -/
theorem copyMatch_take {src : List UInt8} {off : Nat} : ∀ {len m : Nat}, off ≤ m → 1 ≤ off →
    m + len ≤ src.length → (∀ j, m ≤ j → j < m + len → src.getD j 0 = src.getD (j - off) 0) →
    copyMatch off len (src.take m) = src.take (m + len)
  | 0, _, _, _, _, _ => rfl
  | len + 1, m, hle, hoff, hend, hsame => by
      have hlen : (src.take m).length = m := by
        rw [List.length_take, Nat.min_eq_left (by omega)]
      have hget : (src.take m).getD (m - off) 0 = src.getD m 0 := by
        rw [hsame m le_rfl (by omega), List.getD_eq_getElem?_getD, List.getD_eq_getElem?_getD,
          List.getElem?_take_of_lt (by omega)]
      have hnext : src.take m ++ [src.getD m 0] = src.take (m + 1) := by
        have hm : src[m]? = some (src.get ⟨m, by omega⟩) := List.getElem?_eq_getElem _
        rw [List.take_add_one, List.getD_eq_getElem?_getD, hm]
        rfl
      have hsum : m + (len + 1) = m + 1 + len := by omega
      rw [copyMatch, hlen, hget, hnext, hsum]
      exact copyMatch_take (by omega) hoff (by omega) fun j hge hlt => hsame j (by omega) (by omega)

theorem decode_append (out : List UInt8) (qs qs' : List Seq) (last : List UInt8) :
    decode out (qs ++ qs') last = decode (decode out qs []) qs' last := by
  induction qs generalizing out with
  | nil => rw [List.nil_append, decode, List.append_nil]
  | cons q qs ih => exact ih _

theorem decode_last (out : List UInt8) (qs : List Seq) (last : List UInt8) :
    decode out qs last = decode out qs [] ++ last := by
  have happ := decode_append out qs [] last
  rwa [List.append_nil] at happ

theorem reaches_append {out : List UInt8} {qs : List Seq} {q : Seq} (h : Reaches out qs)
    (hoff : 1 ≤ q.off) (hoff' : q.off < 65536) (hlen : 4 ≤ q.len)
    (hback : q.off ≤ (decode out qs [] ++ q.lits).length) : Reaches out (qs ++ [q]) := by
  induction qs generalizing out with
  | nil =>
      rw [decode, List.append_nil] at hback
      exact ⟨hoff, hoff', hlen, hback, trivial⟩
  | cons q' qs ih =>
      obtain ⟨h₁, h₂, h₃, h₄, hrest⟩ := h
      exact ⟨h₁, h₂, h₃, h₄, ih hrest hback⟩

end Lz4
