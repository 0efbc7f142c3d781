/-
# `Hammer2.Lib.OrdTree` — search trees of linked objects

A search tree is the list of its elements in their order.  The elements are handles of
objects, and a key is read through the handle each time it is compared, so reading may fail,
and an element must not change its key while it is in the tree.

    find        the element with a given key
    insert      a new element at its place, unless the tree has its key
    next        the element after another one
    Ordered     every key can be read, and the keys increase
-/
import Mathlib.Data.List.Basic

namespace OrdTree

universe u
variable {α κ : Type u} (cmp : κ → κ → Ordering) (key : α → Option κ)

/-- The element with the key `k`; `none` is a key that cannot be read. -/
def find (k : κ) : List α → Option (Option α)
  | [] => some none
  | y :: ys => do
      let ky ← key y
      match cmp k ky with
      | .lt => some none
      | .eq => some (some y)
      | .gt => find k ys

/-- The tree with the new element `x`; an element with its key stays alone. -/
def insert (x : α) : List α → Option (List α)
  | [] => some [x]
  | y :: ys => do
      let kx ← key x
      let ky ← key y
      match cmp kx ky with
      | .lt => some (x :: y :: ys)
      | .eq => some (y :: ys)
      | .gt => (insert x ys).map (y :: ·)

/-- The elements from `x` on. -/
def startingAt [DecidableEq α] (l : List α) (x : α) : List α := l.dropWhile fun y => decide (y ≠ x)

/-- The element after `x`. -/
def next [DecidableEq α] (l : List α) (x : α) : Option α := (startingAt l x).tail.head?

/-- The key of `x` comes before the key of `y`. -/
def Lt (x y : α) : Prop := ∃ kx ky, key x = some kx ∧ key y = some ky ∧ cmp kx ky = .lt

structure Ordered (l : List α) : Prop where
  readable : ∀ x ∈ l, (key x).isSome
  increasing : l.Pairwise (Lt cmp key)

variable {cmp key} {l l' : List α} {x y : α} {k : κ}

theorem ordered_nil : Ordered cmp key [] := ⟨fun _ hx => absurd hx List.not_mem_nil, .nil⟩

theorem Ordered.sublist (h : Ordered cmp key l) (hl : l'.Sublist l) : Ordered cmp key l' :=
  ⟨fun x hx => h.readable x (hl.subset hx), h.increasing.sublist hl⟩

theorem Ordered.erase [DecidableEq α] (h : Ordered cmp key l) (x : α) :
    Ordered cmp key (l.erase x) := h.sublist List.erase_sublist

theorem ordered_cons : Ordered cmp key (x :: l) ↔
    (key x).isSome ∧ (∀ y ∈ l, Lt cmp key x y) ∧ Ordered cmp key l := by
  constructor
  · intro h
    obtain ⟨hx, hl⟩ := List.pairwise_cons.mp h.increasing
    exact ⟨h.readable x List.mem_cons_self, hx,
      fun y hy => h.readable y (List.mem_cons_of_mem x hy), hl⟩
  · rintro ⟨hk, hx, hl⟩
    refine ⟨fun y hy => ?_, List.pairwise_cons.mpr ⟨hx, hl.increasing⟩⟩
    rcases List.mem_cons.mp hy with rfl | hy
    · exact hk
    · exact hl.readable y hy

/-- Only the keys of the elements matter. -/
theorem Ordered.congr {key' : α → Option κ} (h : Ordered cmp key l)
    (hkey : ∀ x ∈ l, key' x = key x) : Ordered cmp key' l := by
  refine ⟨fun x hx => by rw [hkey x hx]; exact h.readable x hx, ?_⟩
  refine h.increasing.imp_of_mem fun {x y} hx hy hlt => ?_
  unfold Lt
  rw [hkey x hx, hkey y hy]
  exact hlt

/-- What comes from an element on, and what comes next. -/
theorem startingAt_middle [DecidableEq α] {before after : List α}
    (h : (before ++ x :: after).Nodup) :
    startingAt (before ++ x :: after) x = x :: after ∧
      next (before ++ x :: after) x = after.head? := by
  have hstart : startingAt (before ++ x :: after) x = x :: after := by
    unfold startingAt
    rw [List.dropWhile_append_of_pos fun y hy => ?_]
    · exact List.dropWhile_cons_of_neg (by simp)
    · have hne := (List.nodup_append.mp h).2.2 y hy x List.mem_cons_self
      exact decide_eq_true hne
  exact ⟨hstart, by rw [next, hstart]; rfl⟩

section Lawful

variable [Std.TransCmp cmp]

variable (cmp) in
theorem compare_refl (k : κ) : cmp k k = .eq := Std.ReflCmp.compare_self

variable (cmp) in
theorem compare_swap (k k' : κ) : cmp k k' = (cmp k' k).swap := Std.OrientedCmp.eq_swap

theorem Lt.trans {z : α} (hxy : Lt cmp key x y) (hyz : Lt cmp key y z) : Lt cmp key x z := by
  obtain ⟨kx, ky, hx, hy, hlt⟩ := hxy
  obtain ⟨ky', kz, hy', hz, hlt'⟩ := hyz
  cases hy.symm.trans hy'
  exact ⟨kx, kz, hx, hz, Std.TransCmp.lt_trans hlt hlt'⟩

theorem Lt.key_ne (h : Lt cmp key x y) : key x ≠ key y := by
  obtain ⟨kx, ky, hx, hy, hlt⟩ := h
  intro heq
  cases hx.symm.trans (heq.trans hy)
  exact absurd hlt (by rw [compare_refl cmp]; exact Ordering.noConfusion)

theorem Ordered.nodup (h : Ordered cmp key l) : l.Nodup :=
  h.increasing.imp fun hlt heq => hlt.key_ne (congrArg key heq)

/-- An element is found by its key. -/
theorem Ordered.key_inj (h : Ordered cmp key l) (hx : x ∈ l) (hy : y ∈ l)
    (heq : key x = key y) : x = y := by
  induction l with
  | nil => cases hx
  | cons z l ih =>
      obtain ⟨_, hz, hl⟩ := ordered_cons.mp h
      rcases List.mem_cons.mp hx with rfl | hxl
      · rcases List.mem_cons.mp hy with rfl | hyl
        · rfl
        · exact absurd heq (hz y hyl).key_ne
      · rcases List.mem_cons.mp hy with rfl | hyl
        · exact absurd heq.symm (hz x hxl).key_ne
        · exact ih hl hxl hyl

variable [Std.LawfulEqCmp cmp]

theorem find_spec (h : Ordered cmp key l) (k : κ) :
    (∃ x ∈ l, key x = some k ∧ find cmp key k l = some (some x)) ∨
      find cmp key k l = some none ∧ ∀ x ∈ l, key x ≠ some k := by
  induction l with
  | nil => exact .inr ⟨rfl, fun _ hx => absurd hx List.not_mem_nil⟩
  | cons y l ih =>
      obtain ⟨hk, hy, hl⟩ := ordered_cons.mp h
      obtain ⟨ky, hky⟩ := Option.isSome_iff_exists.mp hk
      simp only [find, hky, Option.bind_eq_bind, Option.bind_some]
      cases hc : cmp k ky with
      | lt =>
          refine .inr ⟨rfl, fun x hx heq => ?_⟩
          rcases List.mem_cons.mp hx with rfl | hx
          · cases hky.symm.trans heq
            rw [compare_refl cmp] at hc
            cases hc
          · obtain ⟨ky', kx, hy', hx', hlt⟩ := hy x hx
            cases hky.symm.trans hy'
            cases heq.symm.trans hx'
            rw [compare_swap cmp, hlt] at hc
            cases hc
      | eq =>
          rw [Std.LawfulEqCmp.eq_of_compare hc]
          exact .inl ⟨y, List.mem_cons_self, hky, rfl⟩
      | gt =>
          rcases ih hl with ⟨x, hx, hkx, hf⟩ | ⟨hf, hne⟩
          · exact .inl ⟨x, List.mem_cons_of_mem y hx, hkx, hf⟩
          · refine .inr ⟨hf, fun x hx heq => ?_⟩
            rcases List.mem_cons.mp hx with rfl | hx
            · cases hky.symm.trans heq
              rw [compare_refl cmp] at hc
              cases hc
            · exact hne x hx heq

/-- A new element goes between those before it and those after it. -/
theorem insert_spec (h : Ordered cmp key l) (hx : key x = some k)
    (hnew : ∀ y ∈ l, key y ≠ some k) : ∃ before after, l = before ++ after ∧
      insert cmp key x l = some (before ++ x :: after) ∧ (∀ y ∈ before, Lt cmp key y x) ∧
      ∀ y ∈ after, Lt cmp key x y := by
  induction l with
  | nil =>
      exact ⟨[], [], rfl, rfl, fun _ hy => absurd hy List.not_mem_nil,
        fun _ hy => absurd hy List.not_mem_nil⟩
  | cons y l ih =>
      obtain ⟨hk, hy, hl⟩ := ordered_cons.mp h
      obtain ⟨ky, hky⟩ := Option.isSome_iff_exists.mp hk
      simp only [insert, hx, hky, Option.bind_eq_bind, Option.bind_some]
      cases hc : cmp k ky with
      | lt =>
          have hxy : Lt cmp key x y := ⟨k, ky, hx, hky, hc⟩
          refine ⟨[], y :: l, rfl, rfl, fun _ hz => absurd hz List.not_mem_nil, fun z hz => ?_⟩
          rcases List.mem_cons.mp hz with rfl | hz
          · exact hxy
          · exact hxy.trans (hy z hz)
      | eq =>
          have heq := Std.LawfulEqCmp.eq_of_compare hc
          exact absurd (hky.trans (by rw [heq])) (hnew y List.mem_cons_self)
      | gt =>
          obtain ⟨before, after, hsplit, hins, hb, ha⟩ :=
            ih hl fun z hz => hnew z (List.mem_cons_of_mem y hz)
          have hyx : Lt cmp key y x := by
            refine ⟨ky, k, hky, hx, ?_⟩
            rw [compare_swap cmp, hc]
            rfl
          refine ⟨y :: before, after, by rw [hsplit]; rfl, by rw [hins]; rfl, ?_, ha⟩
          intro z hz
          rcases List.mem_cons.mp hz with rfl | hz
          · exact hyx
          · exact hb z hz

omit [Std.TransCmp cmp] [Std.LawfulEqCmp cmp] in
theorem Ordered.insert {before after : List α} (h : Ordered cmp key (before ++ after))
    (hk : (key x).isSome) (hb : ∀ y ∈ before, Lt cmp key y x) (ha : ∀ y ∈ after, Lt cmp key x y) :
    Ordered cmp key (before ++ x :: after) := by
  have hpair := List.pairwise_append.mp h.increasing
  refine ⟨fun y hy => ?_, List.pairwise_append.mpr ⟨hpair.1,
    List.pairwise_cons.mpr ⟨ha, hpair.2.1⟩, fun y hy z hz => ?_⟩⟩
  · rcases List.mem_append.mp hy with hy | hy
    · exact h.readable y (List.mem_append_left _ hy)
    · rcases List.mem_cons.mp hy with rfl | hy
      · exact hk
      · exact h.readable y (List.mem_append_right _ hy)
  · rcases List.mem_cons.mp hz with rfl | hz
    · exact hb y hy
    · exact hpair.2.2 y hy z hz

end Lawful

end OrdTree
