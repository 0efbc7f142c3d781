/-
# `Hammer2.Lib.Memory` — a flat memory read and written in ranges

A memory gives each address a value.  `read m b n` is the list of the `n` values
from `b` on, `write m b vs` is the memory with the list `vs` stored from `b` on.

    read_write          a range reads back what was stored in it
    read_write_of_disjoint
                        a range reads as before when nothing of it was stored to
    AgreeOn m m' b n    the two memories read the same everywhere in the range
-/
import Mathlib.Data.List.Basic

namespace Memory

universe u
variable {α : Type u}

/-- The values of a range. -/
def read (m : Nat → α) (b n : Nat) : List α := (List.range n).map fun i => m (b + i)

/-- The memory with a list of values stored from an address on. -/
def write (m : Nat → α) (b : Nat) (vs : List α) : Nat → α := fun a =>
  if b ≤ a then (vs[a - b]?).getD (m a) else m a

/-- The ranges `[b, b + n)` and `[c, c + k)` have no address in common. -/
def Disjoint (b n c k : Nat) : Prop := b + n ≤ c ∨ c + k ≤ b

instance (b n c k : Nat) : Decidable (Disjoint b n c k) := inferInstanceAs (Decidable (_ ∨ _))

/-- The memories agree on a range. -/
def AgreeOn (m m' : Nat → α) (b n : Nat) : Prop := ∀ a, b ≤ a → a < b + n → m' a = m a

theorem Disjoint.symm {b n c k : Nat} (h : Disjoint b n c k) : Disjoint c k b n := Or.symm h

@[simp] theorem length_read (m : Nat → α) (b n : Nat) : (read m b n).length = n := by
  simp [read]

theorem getElem?_read {m : Nat → α} {b n i : Nat} (h : i < n) : (read m b n)[i]? = some (m (b + i)) := by
  simp [read, h]

/-- A range read in two parts. -/
theorem read_add (m : Nat → α) (b n k : Nat) : read m b (n + k) = read m b n ++ read m (b + n) k := by
  rw [read, List.range_add, List.map_append, List.map_map]
  refine congrArg (read m b n ++ ·) (List.map_congr_left fun i _ => ?_)
  rw [Function.comp_apply, Nat.add_assoc]

theorem write_below {m : Nat → α} {b a : Nat} {vs : List α} (h : a < b) : write m b vs a = m a :=
  if_neg (Nat.not_le.mpr h)

theorem write_above {m : Nat → α} {b a : Nat} {vs : List α} (h : b + vs.length ≤ a) :
    write m b vs a = m a := by
  unfold write
  split
  · rw [List.getElem?_eq_none (by omega)]
    rfl
  · rfl

theorem write_inside {m : Nat → α} {b i : Nat} {vs : List α} {v : α} (h : vs[i]? = some v) :
    write m b vs (b + i) = v := by
  unfold write
  rw [if_pos (Nat.le_add_right b i), Nat.add_sub_cancel_left, h]
  rfl

/-- Storing one value all over a range. -/
theorem write_replicate (m : Nat → α) (b n : Nat) (v : α) :
    write m b (List.replicate n v) = fun a => if b ≤ a ∧ a < b + n then v else m a := by
  funext a
  unfold write
  by_cases h : b ≤ a
  · rw [if_pos h, List.getElem?_replicate]
    by_cases hn : a < b + n
    · rw [if_pos (by omega), if_pos ⟨h, hn⟩]
      rfl
    · rw [if_neg (by omega), if_neg (fun hc => hn hc.2)]
      rfl
  · rw [if_neg h, if_neg (fun hc => h hc.1)]

/-- **A range reads back what was stored in it.** -/
theorem read_write (m : Nat → α) (b : Nat) (vs : List α) : read (write m b vs) b vs.length = vs := by
  refine List.ext_getElem? fun i => ?_
  rcases Nat.lt_or_ge i vs.length with hlt | hge
  · rw [getElem?_read hlt, List.getElem?_eq_getElem hlt]
    exact congrArg some (write_inside (List.getElem?_eq_getElem hlt))
  · rw [List.getElem?_eq_none hge, List.getElem?_eq_none]
    rw [length_read]
    exact hge

theorem AgreeOn.refl (m : Nat → α) (b n : Nat) : AgreeOn m m b n := fun _ _ _ => rfl

theorem AgreeOn.trans {m m' m'' : Nat → α} {b n : Nat} (h : AgreeOn m m' b n)
    (h' : AgreeOn m' m'' b n) : AgreeOn m m'' b n := fun a hl hu => (h' a hl hu).trans (h a hl hu)

/-- Storing outside a range changes nothing in it. -/
theorem agreeOn_write {m : Nat → α} {b n c : Nat} {vs : List α} (h : Disjoint b n c vs.length) :
    AgreeOn m (write m c vs) b n := by
  intro a hl hu
  rcases h with h | h
  · exact write_below (by omega)
  · exact write_above (by omega)

/-- Memories that agree on a range read the same there. -/
theorem AgreeOn.read_eq {m m' : Nat → α} {b n : Nat} (h : AgreeOn m m' b n) :
    read m' b n = read m b n := by
  refine List.map_congr_left fun i hi => ?_
  have hlt := List.mem_range.mp hi
  exact h (b + i) (by omega) (by omega)

theorem read_write_of_disjoint {m : Nat → α} {b n c : Nat} {vs : List α}
    (h : Disjoint b n c vs.length) : read (write m c vs) b n = read m b n :=
  (agreeOn_write h).read_eq

/-- Storing all of a range is all that counts there. -/
theorem read_write_sub {m : Nat → α} {b c n : Nat} {vs : List α} (hl : b ≤ c)
    (hu : c + n ≤ b + vs.length) : read (write m b vs) c n = (vs.drop (c - b)).take n := by
  refine List.ext_getElem? fun i => ?_
  rcases Nat.lt_or_ge i n with hlt | hge
  · have hi : c - b + i < vs.length := by omega
    rw [getElem?_read hlt, List.getElem?_take_of_lt hlt, List.getElem?_drop,
      List.getElem?_eq_getElem hi]
    have haddr : c + i = b + (c - b + i) := by omega
    rw [haddr]
    exact congrArg some (write_inside (List.getElem?_eq_getElem hi))
  · rw [List.getElem?_eq_none (by rw [length_read]; exact hge), List.getElem?_eq_none]
    rw [List.length_take]
    omega

end Memory
