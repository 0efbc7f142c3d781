/-
# `Hammer2.Lib.Holes` — arrays with holes

Some elements of an array are holes, the others are live.  An element is put in by moving a run of
elements over the nearest hole, on either side of its place.

    live         the live elements, in order
    EndsAt       the place behind the last of them
    findSlot     the nearest hole, looking to both sides in turn
    close_left   moving a run to the left and putting an element behind it
    close_right  moving a run to the right and putting an element before it
-/
import Mathlib.Data.List.Basic

namespace Holes

universe u
variable {α : Type u} (hole : α → Bool)

def live (base : List α) : List α := base.filter fun b => !hole b

/-- Behind `z` there are holes only, and before it an element that is none. -/
structure EndsAt (base : List α) (z : Nat) : Prop where
  le : z ≤ base.length
  holes : ∀ x ∈ base.drop z, hole x = true
  last : 0 < z → ∃ x, base[z - 1]? = some x ∧ hole x = false

/-- A store, if it is in the array. -/
def put (base : List α) (i : Nat) (x : α) : Option (List α) :=
  if i < base.length then some (base.set i x) else none

/-- A move of `n` elements, if both runs are in the array. -/
def memmove (base : List α) (dst src n : Nat) : Option (List α) :=
  if dst + n ≤ base.length ∧ src + n ≤ base.length then
    some (base.take dst ++ (base.drop src).take n ++ base.drop (dst + n))
  else none

inductive Slot where
  | before (j : Nat)
  | after (k : Nat)

/-- Is there a hole at `i`? -/
def holeAt (base : List α) (i : Nat) : Bool := (base[i]?.map hole).getD false

/-- The nearest hole, `d` elements from `i` having been looked at on both sides; `none` when
there is no room. -/
def findSlot (base : List α) (i : Nat) : Nat → Nat → Option Slot
  | 0, _ => none
  | fuel + 1, d =>
      if ¬ (d < i ∨ i + d < base.length) then none
      else if d < i ∧ holeAt hole base (i - (d + 1)) = true then some (.before (i - (d + 1)))
      else if i + (d + 1) < base.length ∧ holeAt hole base (i + (d + 1)) = true then
        some (.after (i + (d + 1)))
      else findSlot base i fuel (d + 1)

variable {hole}

theorem holeAt_iff {base : List α} {i : Nat} :
    holeAt hole base i = true ↔ ∃ x, base[i]? = some x ∧ hole x = true := by
  unfold holeAt
  cases base[i]? with
  | none => exact ⟨nofun, nofun⟩
  | some x => exact ⟨fun h => ⟨x, rfl, h⟩, fun ⟨y, hy, h⟩ => Option.some.inj hy ▸ h⟩

theorem live_append (A B : List α) : live hole (A ++ B) = live hole A ++ live hole B :=
  List.filter_append ..

theorem live_hole {x : α} (h : hole x = true) (C : List α) : live hole (x :: C) = live hole C :=
  List.filter_cons_of_neg (by simp [h])

theorem live_cons {x : α} (h : hole x = false) (C : List α) :
    live hole (x :: C) = x :: live hole C :=
  List.filter_cons_of_pos (by simp [h])

theorem mem_live {base : List α} {x : α} : x ∈ live hole base ↔ x ∈ base ∧ hole x = false := by
  rw [live, List.mem_filter, Bool.not_eq_true']

/-! ## Moves -/

/-- A run of elements moves over the hole before it, and `x` comes behind it. -/
theorem close_left (A B C : List α) (e x : α) :
    (memmove (A ++ e :: (B ++ C)) A.length (A.length + 1) B.length).bind
      (fun base => put base (A.length + B.length) x) = some (A ++ (B ++ x :: C)) := by
  have hlen : (A ++ e :: (B ++ C)).length = A.length + (B.length + C.length + 1) := by
    rw [List.length_append, List.length_cons, List.length_append]
  have hsrc : (A ++ e :: (B ++ C)).drop (A.length + 1) = B ++ C := by
    rw [List.drop_append, List.drop_of_length_le (by omega)]
    have hone : A.length + 1 - A.length = 1 := by omega
    rw [hone]
    rfl
  -- the element that stands where `x` is put
  obtain ⟨l, hl⟩ : ∃ l, (e :: (B ++ C)).drop B.length = l :: C := by
    cases hlast : (e :: B).drop B.length with
    | nil =>
        have := congrArg List.length hlast
        rw [List.length_drop, List.length_cons] at this
        exact absurd this (by simp)
    | cons l rest =>
        have hrest : rest = [] := by
          have := congrArg List.length hlast
          rw [List.length_drop, List.length_cons, List.length_cons] at this
          exact List.eq_nil_of_length_eq_zero (by omega)
        refine ⟨l, ?_⟩
        have hle : B.length ≤ (e :: B).length := Nat.le_succ _
        rw [← List.cons_append, List.drop_append_of_le_length hle, hlast, hrest]
        rfl
  have hrest : (A ++ e :: (B ++ C)).drop (A.length + B.length) = l :: C := by
    rw [← List.drop_drop, List.drop_left, hl]
  rw [memmove, if_pos (by omega), hsrc, hrest, List.take_left, List.take_left, Option.bind_some,
    put, if_pos (by simp), List.append_assoc]
  have hset : (A ++ (B ++ l :: C)).set (A.length + B.length) x = A ++ (B ++ x :: C) := by
    rw [List.set_append_right _ _ (Nat.le_add_right _ _), Nat.add_sub_cancel_left,
      List.set_append_right _ _ (Nat.le_refl _), Nat.sub_self]
    rfl
  rw [hset]

/-- A run of elements moves over the hole behind it, and `x` comes before it. -/
theorem close_right (P B C : List α) (e x : α) :
    (memmove (P ++ (B ++ e :: C)) (P.length + 1) P.length B.length).bind
      (fun base => put base P.length x) = some (P ++ x :: (B ++ C)) := by
  have hlen : (P ++ (B ++ e :: C)).length = P.length + (B.length + (C.length + 1)) := by
    rw [List.length_append, List.length_append, List.length_cons]
  obtain ⟨f, F, hf⟩ : ∃ f F, B ++ e :: C = f :: F := by
    cases B with
    | nil => exact ⟨e, C, rfl⟩
    | cons b B => exact ⟨b, B ++ e :: C, rfl⟩
  have htake : (P ++ (B ++ e :: C)).take (P.length + 1) = P ++ [f] := by
    have hone : P.length + 1 - P.length = 1 := by omega
    rw [List.take_append, List.take_of_length_le (Nat.le_succ _), hone, hf]
    rfl
  have hsrc : ((P ++ (B ++ e :: C)).drop P.length).take B.length = B := by
    rw [List.drop_left, List.take_left]
  have hrest : (P ++ (B ++ e :: C)).drop (P.length + 1 + B.length) = C := by
    have hsum : P.length + 1 + B.length = P.length + (B.length + 1) := by omega
    rw [hsum, ← List.drop_drop, List.drop_left, ← List.drop_drop, List.drop_left]
    rfl
  rw [memmove, if_pos (by omega), htake, hsrc, hrest, Option.bind_some, put, if_pos (by simp)]
  have hset : (P ++ [f] ++ B ++ C).set P.length x = P ++ x :: (B ++ C) := by
    rw [List.append_assoc, List.append_assoc, List.set_append_right _ _ (Nat.le_refl _),
      Nat.sub_self]
    rfl
  rw [hset]

/-! ## The nearest hole -/

/-- What was found, and that there is no hole in between. -/
def Nearest (hole : α → Bool) (base : List α) (i : Nat) : Slot → Prop
  | .before j => j < i ∧ holeAt hole base j = true
  | .after k => i < k ∧ k < base.length ∧ holeAt hole base k = true ∧
      ∀ t, i < t → t < k → holeAt hole base t = false

theorem findSlot_spec {base : List α} {i : Nat} : ∀ {fuel d : Nat} {slot : Slot},
    (∀ t, i < t → t ≤ i + d → holeAt hole base t = false) →
    findSlot hole base i fuel d = some slot → Nearest hole base i slot
  | fuel + 1, d, slot, hno, h => by
      unfold findSlot at h
      split at h
      · exact absurd h nofun
      · split at h
        · rename_i hb
          obtain rfl := Option.some.inj h
          exact ⟨by omega, hb.2⟩
        · split at h
          · rename_i ha
            obtain rfl := Option.some.inj h
            exact ⟨by omega, ha.1, ha.2, fun t ht hlt => hno t ht (by omega)⟩
          · rename_i ha
            refine findSlot_spec (fun t ht hle => ?_) h
            rcases Nat.lt_or_ge (i + d) t with hlt | hge
            · have ht' : t = i + (d + 1) := by omega
              rw [ht']
              rcases Nat.lt_or_ge (i + (d + 1)) base.length with hin | hout
              · exact Bool.eq_false_iff.mpr fun hh => ha ⟨hin, hh⟩
              · refine Bool.eq_false_iff.mpr fun hh => ?_
                obtain ⟨x, hx, -⟩ := holeAt_iff.mp hh
                rw [List.getElem?_eq_none hout] at hx
                exact absurd hx nofun
            · exact hno t ht hge

/-- Where there is a hole, other than at `i`, one is found. -/
theorem findSlot_isSome {base : List α} {i p : Nat} (hp : holeAt hole base p = true)
    (hne : p ≠ i) : ∀ {fuel d : Nat}, (p < i → d < i - p) → (i < p → d < p - i) →
      i - p + (p - i) ≤ fuel + d → (findSlot hole base i fuel d).isSome
  | 0, d, hlo, hhi, hfuel => by
      rcases Nat.lt_or_gt_of_ne hne with hlt | hgt
      · have := hlo hlt
        omega
      · have := hhi hgt
        omega
  | fuel + 1, d, hlo, hhi, hfuel => by
      obtain ⟨x, hx, -⟩ := holeAt_iff.mp hp
      have hlen : p < base.length := (List.getElem?_eq_some_iff.mp hx).1
      unfold findSlot
      split
      · rename_i hend
        rcases Nat.lt_or_gt_of_ne hne with hlt | hgt
        · have := hlo hlt
          omega
        · have := hhi hgt
          omega
      · split
        · rfl
        · rename_i hb
          split
          · rfl
          · rename_i ha
            refine findSlot_isSome hp hne (fun hlt => ?_) (fun hgt => ?_) (by omega)
            · have hd := hlo hlt
              rcases Nat.lt_or_ge (d + 1) (i - p) with hlt' | hge
              · exact hlt'
              · have hp' : p = i - (d + 1) := by omega
                exact absurd ⟨by omega, hp' ▸ hp⟩ hb
            · have hd := hhi hgt
              rcases Nat.lt_or_ge (d + 1) (p - i) with hlt' | hge
              · exact hlt'
              · have hp' : p = i + (d + 1) := by omega
                exact absurd ⟨hp' ▸ hlen, hp' ▸ hp⟩ ha

/-! ## Ends -/

/-- The end is the same in an array that agrees from a place before it on. -/
theorem EndsAt.congr {base base' : List α} {z i : Nat} (h : EndsAt hole base z) (hi : i < z)
    (hlen : base'.length = base.length) (hdrop : base'.drop i = base.drop i) :
    EndsAt hole base' z := by
  refine ⟨hlen ▸ h.le, ?_, fun hpos => ?_⟩
  · have hsplit : base'.drop z = base.drop z := by
      have hz : i + (z - i) = z := Nat.add_sub_cancel' (Nat.le_of_lt hi)
      rw [← hz, ← List.drop_drop, hdrop, List.drop_drop]
    rw [hsplit]
    exact h.holes
  · obtain ⟨x, hx, hlive⟩ := h.last hpos
    refine ⟨x, ?_, hlive⟩
    have hz : i + (z - 1 - i) = z - 1 := Nat.add_sub_cancel' (Nat.le_sub_one_of_lt hi)
    rw [← hz, ← List.getElem?_drop, hdrop, List.getElem?_drop, hz]
    exact hx

/-- An element that is live, with holes behind it. -/
theorem endsAt_append {A C : List α} {x : α} (hx : hole x = false) (hC : ∀ y ∈ C, hole y = true) :
    EndsAt hole (A ++ x :: C) (A.length + 1) := by
  refine ⟨?_, fun y hy => hC y ?_, fun _ => ⟨x, ?_, hx⟩⟩
  · rw [List.length_append, List.length_cons]
    omega
  · rwa [← List.drop_drop, List.drop_left] at hy
  · rw [Nat.add_sub_cancel, List.getElem?_append_right (Nat.le_refl _), Nat.sub_self]
    rfl

/-- A live element is before the end. -/
theorem EndsAt.lt {base : List α} {z i : Nat} {b : α} (h : EndsAt hole base z)
    (hi : base[i]? = some b) (hb : hole b = false) : i < z := by
  refine Nat.lt_of_not_le fun hle => ?_
  have hmem : b ∈ base.drop z := by
    refine List.mem_iff_getElem?.mpr ⟨i - z, ?_⟩
    rw [List.getElem?_drop, Nat.add_sub_cancel' hle]
    exact hi
  rw [h.holes b hmem] at hb
  exact absurd hb nofun

/-- A hole is not the last live element. -/
theorem EndsAt.ne_succ {base : List α} {z k : Nat} (h : EndsAt hole base z)
    (hk : holeAt hole base k = true) : z ≠ k + 1 := by
  rintro rfl
  obtain ⟨x, hx, hlive⟩ := h.last (Nat.succ_pos k)
  obtain ⟨y, hy, hhole⟩ := holeAt_iff.mp hk
  rw [Nat.add_sub_cancel, hy] at hx
  rw [Option.some.inj hx, hlive] at hhole
  exact absurd hhole nofun

/-! ## Taking an array apart -/

/-- At a hole before `i`, and at `i`. -/
theorem split_before {base : List α} {i j : Nat} (hj : holeAt hole base j = true) (hji : j < i)
    (hi : i ≤ base.length) : ∃ A e B C, base = A ++ e :: (B ++ C) ∧ hole e = true ∧
      A.length = j ∧ A.length + B.length + 1 = i := by
  obtain ⟨e, he, hhole⟩ := holeAt_iff.mp hj
  obtain ⟨hlt, rfl⟩ := List.getElem?_eq_some_iff.mp he
  refine ⟨base.take j, base[j], (base.drop (j + 1)).take (i - j - 1),
    (base.drop (j + 1)).drop (i - j - 1), ?_, hhole, ?_, ?_⟩
  · rw [List.take_append_drop, ← List.drop_eq_getElem_cons hlt, List.take_append_drop]
  · rw [List.length_take]
    omega
  · rw [List.length_take, List.length_take, List.length_drop]
    omega

/-- At `i`, and at a hole behind it. -/
theorem split_after {base : List α} {i k : Nat} (hk : holeAt hole base k = true) (hik : i < k) :
    ∃ P B e C, base = P ++ (B ++ e :: C) ∧ hole e = true ∧ P.length = i ∧
      P.length + B.length = k := by
  obtain ⟨e, he, hhole⟩ := holeAt_iff.mp hk
  obtain ⟨hlt, rfl⟩ := List.getElem?_eq_some_iff.mp he
  refine ⟨base.take i, (base.drop i).take (k - i), base[k], base.drop (k + 1), ?_, hhole, ?_, ?_⟩
  · have hrun : (base.drop i).drop (k - i) = base.drop k := by
      rw [List.drop_drop, Nat.add_sub_cancel' (Nat.le_of_lt hik)]
    rw [← List.drop_eq_getElem_cons hlt, ← hrun, List.take_append_drop, List.take_append_drop]
  · rw [List.length_take]
    omega
  · rw [List.length_take, List.length_take, List.length_drop]
    omega

/-- The end after a run has moved over the hole before it. -/
theorem EndsAt.close_left {A B C : List α} {e x : α} {z : Nat} (hx : hole x = false)
    (h : EndsAt hole (A ++ e :: (B ++ C)) z)
    (hz : A.length + B.length + 1 < z ∨ C = [] ∧ z = A.length + B.length + 1) :
    EndsAt hole (A ++ (B ++ x :: C)) z := by
  rcases hz with hlt | ⟨rfl, rfl⟩
  · refine h.congr hlt ?_ ?_
    · rw [List.length_append, List.length_append, List.length_cons, List.length_append,
        List.length_cons, List.length_append]
      omega
    · have hlen : (A ++ e :: B).length = A.length + B.length + 1 := by
        rw [List.length_append, List.length_cons]
        rfl
      have hlen' : (A ++ (B ++ [x])).length = A.length + B.length + 1 := by
        rw [List.length_append, List.length_append]
        rfl
      have hl : A ++ e :: (B ++ C) = (A ++ e :: B) ++ C := by rw [List.append_assoc]; rfl
      have hr : A ++ (B ++ x :: C) = (A ++ (B ++ [x])) ++ C := by
        rw [List.append_assoc, List.append_assoc]
        rfl
      rw [hl, hr, ← hlen, List.drop_left, hlen, ← hlen', List.drop_left]
  · have happ := @endsAt_append _ hole (A ++ B) [] x hx nofun
    rwa [List.length_append, List.append_assoc] at happ

/-- The end after a run whose last element is live has moved over the hole behind it. -/
theorem EndsAt.close_right {P B C : List α} {e x : α} {z : Nat} (hhole : hole e = true)
    (hB : ∃ D b, B = D ++ [b] ∧ hole b = false) (h : EndsAt hole (P ++ (B ++ e :: C)) z) :
    EndsAt hole (P ++ x :: (B ++ C)) (if z ≤ P.length + B.length then P.length + B.length + 1
      else z) := by
  obtain ⟨D, b, rfl, hb⟩ := hB
  have hlenB : (D ++ [b]).length = D.length + 1 := List.length_append
  have hgetb : (P ++ ((D ++ [b]) ++ e :: C))[P.length + D.length]? = some b := by
    rw [List.getElem?_append_right (Nat.le_add_right _ _), Nat.add_sub_cancel_left,
      List.append_assoc, List.getElem?_append_right (Nat.le_refl _), Nat.sub_self]
    rfl
  have hgete : holeAt hole (P ++ ((D ++ [b]) ++ e :: C)) (P.length + (D ++ [b]).length) = true := by
    refine holeAt_iff.mpr ⟨e, ?_, hhole⟩
    rw [List.getElem?_append_right (Nat.le_add_right _ _), Nat.add_sub_cancel_left,
      List.getElem?_append_right (Nat.le_refl _), Nat.sub_self]
    rfl
  have hlt := h.lt hgetb hb
  split
  · rename_i hle
    -- behind the hole there are holes only
    have hz : z = P.length + (D ++ [b]).length := by omega
    have hC : ∀ y ∈ C, hole y = true := by
      intro y hy
      refine h.holes y ?_
      rw [hz, ← List.drop_drop, List.drop_left, List.drop_left]
      exact List.mem_cons_of_mem e hy
    have happ := @endsAt_append _ hole (P ++ x :: D) C b hb hC
    have hlen : (P ++ x :: D).length = P.length + (D ++ [b]).length := by
      rw [List.length_append, List.length_cons, hlenB]
    have hassoc : P ++ x :: D ++ b :: C = P ++ x :: ((D ++ [b]) ++ C) := by
      rw [List.append_assoc, List.append_assoc]
      rfl
    rwa [hlen, hassoc] at happ
  · rename_i hnle
    have hne := h.ne_succ hgete
    have hlt : P.length + (D ++ [b]).length + 1 < z := by omega
    refine h.congr hlt ?_ ?_
    · simp only [List.length_append, List.length_cons]
      omega
    · have hlen : (P ++ x :: (D ++ [b])).length = P.length + (D ++ [b]).length + 1 := by
        rw [List.length_append, List.length_cons]
        rfl
      have hlen' : (P ++ ((D ++ [b]) ++ [e])).length = P.length + (D ++ [b]).length + 1 := by
        rw [List.length_append, List.length_append]
        rfl
      have hl : P ++ x :: ((D ++ [b]) ++ C) = (P ++ x :: (D ++ [b])) ++ C := by simp
      have hr : P ++ ((D ++ [b]) ++ e :: C) = (P ++ ((D ++ [b]) ++ [e])) ++ C := by simp
      rw [hl, hr, ← hlen, List.drop_left, hlen, ← hlen', List.drop_left]

end Holes
