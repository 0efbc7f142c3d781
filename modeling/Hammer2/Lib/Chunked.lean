/-
# `Hammer2.Lib.Chunked` — a cipher of chunks under a counter

Each chunk of a stream is enciphered by itself, under a counter that goes up by one.

    sealAll     the enciphered chunks, one after the other
    toChunks    a text cut into chunks
-/
import Mathlib.Data.List.Basic

namespace Chunked

universe u
variable {α : Type u}

/-- A cipher of chunks of `size` letters; the key is part of it. -/
structure Cipher (α : Type u) (size : Nat) where
  enc : Nat → List α → List α
  dec : Nat → List α → List α
  length_enc : ∀ c x, x.length = size → (enc c x).length = size
  dec_enc : ∀ c x, x.length = size → dec c (enc c x) = x

variable {size : Nat}

/-- The chunks enciphered under the counters from `c` on. -/
def sealAll (C : Cipher α size) : Nat → List (List α) → List α
  | _, [] => []
  | c, x :: xs => C.enc c x ++ sealAll C (c + 1) xs

/-- The first `n` chunks of a text. -/
def toChunks (size : Nat) : Nat → List α → List (List α)
  | 0, _ => []
  | n + 1, xs => xs.take size :: toChunks size n (xs.drop size)

/-- Every chunk is whole. -/
def Whole (size : Nat) (xs : List (List α)) : Prop := ∀ x ∈ xs, x.length = size

section Seal

variable {C : Cipher α size} {c : Nat} {x : List α} {xs ys : List (List α)}

theorem Whole.tail (h : Whole size (x :: xs)) : Whole size xs :=
  fun y hy => h y (List.mem_cons_of_mem x hy)

theorem Whole.head (h : Whole size (x :: xs)) : x.length = size := h x List.mem_cons_self

theorem Whole.append (h : Whole size xs) (h' : Whole size ys) : Whole size (xs ++ ys) := by
  intro y hy
  rcases List.mem_append.mp hy with hy | hy
  · exact h y hy
  · exact h' y hy

theorem Whole.take (h : Whole size xs) (n : Nat) : Whole size (xs.take n) :=
  fun y hy => h y (List.mem_of_mem_take hy)

theorem Whole.drop (h : Whole size xs) (n : Nat) : Whole size (xs.drop n) :=
  fun y hy => h y (List.mem_of_mem_drop hy)

theorem sealAll_append : ∀ (xs : List (List α)) (c : Nat),
    sealAll C c (xs ++ ys) = sealAll C c xs ++ sealAll C (c + xs.length) ys
  | [], _ => rfl
  | x :: xs, c => by
      rw [List.cons_append, sealAll, sealAll_append xs (c + 1), sealAll, List.append_assoc,
        List.length_cons, Nat.add_right_comm c 1, Nat.add_assoc c]

theorem length_sealAll : ∀ {xs : List (List α)} (c : Nat), Whole size xs →
    (sealAll C c xs).length = size * xs.length
  | [], _, _ => rfl
  | x :: xs, c, h => by
      rw [sealAll, List.length_append, C.length_enc c x h.head, length_sealAll (c + 1) h.tail,
        List.length_cons, Nat.mul_succ, Nat.add_comm]

/-- The first chunk comes back, and the others stay. -/
theorem dec_sealAll (h : Whole size (x :: xs)) {chunk rest : List α} (hchunk : chunk.length = size)
    (heq : chunk ++ rest = sealAll C c (x :: xs)) :
    C.dec c chunk = x ∧ rest = sealAll C (c + 1) xs := by
  obtain ⟨rfl, hrest⟩ := List.append_inj heq (hchunk.trans (C.length_enc c x h.head).symm)
  exact ⟨C.dec_enc c x h.head, hrest⟩

end Seal

section Cut

variable {xs : List α}

@[simp] theorem length_toChunks : ∀ (n : Nat) (xs : List α), (toChunks size n xs).length = n
  | 0, _ => rfl
  | n + 1, xs => congrArg (· + 1) (length_toChunks n (xs.drop size))

theorem whole_toChunks : ∀ {n : Nat} {xs : List α}, size * n ≤ xs.length →
    Whole size (toChunks size n xs)
  | 0, _, _ => fun _ hx => absurd hx List.not_mem_nil
  | n + 1, xs, h => by
      rw [Nat.mul_succ] at h
      rintro x (_ | ⟨_, hx⟩)
      · exact List.length_take_of_le (Nat.le_trans (Nat.le_add_left ..) h)
      · exact whole_toChunks (by rw [List.length_drop]; exact Nat.le_sub_of_add_le h) x hx

theorem flatten_toChunks : ∀ (n : Nat) (xs : List α),
    (toChunks size n xs).flatten = xs.take (size * n)
  | 0, _ => rfl
  | n + 1, xs => by
      rw [toChunks, List.flatten_cons, flatten_toChunks n, Nat.mul_succ, Nat.add_comm, List.take_add]

/-- A text of whole chunks. -/
theorem flatten_toChunks_div (h : xs.length % size = 0) :
    (toChunks size (xs.length / size) xs).flatten = xs := by
  rw [flatten_toChunks, Nat.mul_div_cancel' (Nat.dvd_of_mod_eq_zero h), List.take_length]

theorem length_flatten : ∀ {xs : List (List α)}, Whole size xs → xs.flatten.length = size * xs.length
  | [], _ => rfl
  | x :: xs, h => by
      rw [List.flatten_cons, List.length_append, h.head, length_flatten h.tail, List.length_cons,
        Nat.mul_succ, Nat.add_comm]

/-- Whole chunks come back when their text is cut. -/
theorem toChunks_flatten (ys : List α) : ∀ {xs : List (List α)}, Whole size xs →
    toChunks size xs.length (xs.flatten ++ ys) = xs
  | [], _ => rfl
  | x :: xs, h => by
      rw [List.length_cons, toChunks, List.flatten_cons, List.append_assoc, List.take_left' h.head,
        List.drop_left' h.head, toChunks_flatten ys h.tail]

end Cut

end Chunked
