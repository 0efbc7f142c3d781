/-
# `Hammer2.Lib.Fuel` — functions that recurse on a fuel

A function that calls itself through several others is given a fuel, which every call lowers.
It is done with a result, or it panics, or it needs more fuel.

    Refines x y   `y` is `x`, or what `x` comes to with more fuel
    Mono f        more fuel refines
    Ends f a      with some fuel `f` is done with `a`
    Panics f      with some fuel `f` panics
    Runs f Q      with some fuel `f` is done, with a result of which `Q` holds
    foldl         a loop over a list, whose body may call on the fuel
    AtMost P u    no more than `u` numbers have the property, as those that are still to be marked

`Ends.bind` and `Panics.bind` are the rules for two calls one after the other, `Runs.foldl` is
the invariant rule of a loop.
-/
import Mathlib.Order.Basic

namespace Fuel

universe u
variable {α β : Type u}

/-- What a call comes to. -/
inductive Res (α : Type u) where
  | done (a : α)
  | panic
  | more

def Res.bind : Res α → (α → Res β) → Res β
  | .done a, k => k a
  | .panic, _ => .panic
  | .more, _ => .more

@[simp] theorem Res.bind_done (a : α) (k : α → Res β) : (Res.done a).bind k = k a := rfl

@[simp] theorem Res.bind_panic (k : α → Res β) : Res.panic.bind k = .panic := rfl

/-- Two calls one after the other that are done. -/
theorem Res.bind_eq_done {x : Res α} {k : α → Res β} {b : β} (h : x.bind k = .done b) :
    ∃ a, x = .done a ∧ k a = .done b := by
  cases x with
  | done a => exact ⟨a, rfl, h⟩
  | panic => cases h
  | more => cases h

def Refines (x y : Res α) : Prop := x = .more ∨ x = y

theorem Refines.refl (x : Res α) : Refines x x := .inr rfl

theorem Refines.trans {x y z : Res α} (h : Refines x y) (h' : Refines y z) : Refines x z := by
  rcases h with h | rfl
  · exact .inl h
  · exact h'

theorem Refines.bind {x y : Res α} {f g : α → Res β} (h : Refines x y)
    (hk : ∀ a, Refines (f a) (g a)) : Refines (x.bind f) (y.bind g) := by
  rcases h with rfl | rfl
  · exact .inl rfl
  · cases x with
    | done a => exact hk a
    | panic => exact .inr rfl
    | more => exact .inr rfl

def Mono (f : Nat → Res α) : Prop := ∀ n, Refines (f n) (f (n + 1))

def Ends (f : Nat → Res α) (a : α) : Prop := ∃ n, f n = .done a

def Panics (f : Nat → Res α) : Prop := ∃ n, f n = .panic

variable {f : Nat → Res α} {k : Nat → α → Res β} {a a' : α} {b : β}

theorem Mono.le (hf : Mono f) {n m : Nat} (hle : n ≤ m) : Refines (f n) (f m) := by
  induction hle with
  | refl => exact .refl _
  | step _ ih => exact ih.trans (hf _)

theorem Mono.done (hf : Mono f) {n m : Nat} (hle : n ≤ m) (h : f n = .done a) :
    f m = .done a := by
  rcases hf.le hle with hmore | heq
  · rw [h] at hmore
    cases hmore
  · rw [← heq, h]

theorem Mono.panic (hf : Mono f) {n m : Nat} (hle : n ≤ m) (h : f n = .panic) :
    f m = .panic := by
  rcases hf.le hle with hmore | heq
  · rw [h] at hmore
    cases hmore
  · rw [← heq, h]

theorem Mono.bind (hf : Mono f) (hk : ∀ a, Mono fun n => k n a) :
    Mono fun n => (f n).bind (k n) := fun n => (hf n).bind fun a => hk a n

theorem Mono.const (x : Res α) : Mono fun _ => x := fun _ => .refl x

theorem Ends.const (a : α) : Ends (fun _ => Res.done a) a := ⟨0, rfl⟩

/-- One result. -/
theorem Ends.unique (hf : Mono f) (h : Ends f a) (h' : Ends f a') : a = a' := by
  obtain ⟨n, hn⟩ := h
  obtain ⟨m, hm⟩ := h'
  have hmax := hf.done (Nat.le_max_left n m) hn
  rw [hf.done (Nat.le_max_right n m) hm] at hmax
  cases hmax
  rfl

theorem Ends.not_panics (hf : Mono f) (h : Ends f a) : ¬ Panics f := by
  rintro ⟨m, hm⟩
  obtain ⟨n, hn⟩ := h
  have hmax := hf.done (Nat.le_max_left n m) hn
  rw [hf.panic (Nat.le_max_right n m) hm] at hmax
  cases hmax

/-- One call after the other. -/
theorem Ends.bind (hf : Mono f) (hk : ∀ a, Mono fun n => k n a) (h : Ends f a)
    (h' : Ends (fun n => k n a) b) : Ends (fun n => (f n).bind (k n)) b := by
  obtain ⟨n, hn⟩ := h
  obtain ⟨m, hm⟩ := h'
  refine ⟨max n m, ?_⟩
  show (f (max n m)).bind (k (max n m)) = .done b
  rw [hf.done (Nat.le_max_left n m) hn, Res.bind_done]
  exact (hk a).done (Nat.le_max_right n m) hm

theorem Panics.bind_left (h : Panics f) : Panics fun n => (f n).bind (k n) := by
  obtain ⟨n, hn⟩ := h
  refine ⟨n, ?_⟩
  show (f n).bind (k n) = .panic
  rw [hn, Res.bind_panic]

theorem Panics.bind (hf : Mono f) (hk : ∀ a, Mono fun n => k n a) (h : Ends f a)
    (h' : Panics fun n => k n a) : Panics fun n => (f n).bind (k n) := by
  obtain ⟨n, hn⟩ := h
  obtain ⟨m, hm⟩ := h'
  refine ⟨max n m, ?_⟩
  show (f (max n m)).bind (k (max n m)) = .panic
  rw [hf.done (Nat.le_max_left n m) hn, Res.bind_done]
  exact (hk a).panic (Nat.le_max_right n m) hm

/-- A function is done when its body is. -/
theorem Ends.body {g : Nat → Res α} (hg : ∀ n, f (n + 1) = g n) (h : Ends g a) : Ends f a := by
  obtain ⟨n, hn⟩ := h
  exact ⟨n + 1, by rw [hg, hn]⟩

theorem Panics.body {g : Nat → Res α} (hg : ∀ n, f (n + 1) = g n) (h : Panics g) : Panics f := by
  obtain ⟨n, hn⟩ := h
  exact ⟨n + 1, by rw [hg, hn]⟩

/-! ## Results of which something holds -/

def Runs (f : Nat → Res α) (Q : α → Prop) : Prop := ∃ a, Ends f a ∧ Q a

theorem Runs.const {Q : α → Prop} {a : α} (h : Q a) : Runs (fun _ => Res.done a) Q :=
  ⟨a, Ends.const a, h⟩

theorem Runs.imp {Q R : α → Prop} (h : Runs f Q) (hQR : ∀ a, Q a → R a) : Runs f R := by
  obtain ⟨a, ha, hq⟩ := h
  exact ⟨a, ha, hQR a hq⟩

theorem Runs.bind {Q : α → Prop} {R : β → Prop} (hf : Mono f) (hk : ∀ a, Mono fun n => k n a)
    (h : Runs f Q) (h' : ∀ a, Q a → Runs (fun n => k n a) R) :
    Runs (fun n => (f n).bind (k n)) R := by
  obtain ⟨a, ha, hq⟩ := h
  obtain ⟨b, hb, hr⟩ := h' a hq
  exact ⟨b, Ends.bind hf hk ha hb, hr⟩

theorem Runs.body {Q : α → Prop} {g : Nat → Res α} (hg : ∀ n, f (n + 1) = g n) (h : Runs g Q) :
    Runs f Q := by
  obtain ⟨a, ha, hq⟩ := h
  exact ⟨a, ha.body hg, hq⟩

/-! ## Loops -/

/-- A loop over a list. -/
def foldl {γ : Type*} (step : β → γ → Res β) : β → List γ → Res β
  | b, [] => .done b
  | b, c :: cs => (step b c).bind fun b => foldl step b cs

section Loop

variable {γ : Type*} {step step' : β → γ → Res β} {body : Nat → β → γ → Res β}

theorem Refines.foldl (h : ∀ b c, Refines (step b c) (step' b c)) :
    ∀ (cs : List γ) (b : β), Refines (foldl step b cs) (foldl step' b cs)
  | [], _ => .refl _
  | c :: cs, b => (h b c).bind fun b => Refines.foldl h cs b

theorem Mono.foldl (h : ∀ b c, Mono fun n => body n b c) (cs : List γ) (b : β) :
    Mono fun n => foldl (body n) b cs := fun n => Refines.foldl (fun b c => h b c n) cs b

/-- **The invariant rule.**  What a round is given may depend on the rounds before it. -/
theorem Runs.foldl {I : List γ → β → Prop} {l : List γ} (hm : ∀ b c, Mono fun n => body n b c)
    (h : ∀ pre c post b, l = pre ++ c :: post → I pre b →
      Runs (fun n => body n b c) (I (pre ++ [c]))) :
    ∀ (cs pre : List γ) (b : β), l = pre ++ cs → I pre b →
      Runs (fun n => Fuel.foldl (body n) b cs) (I l)
  | [], pre, b, hl, hb => Runs.const (by rwa [hl, List.append_nil])
  | c :: cs, pre, b, hl, hb => by
      refine Runs.bind (hm b c) (Mono.foldl hm cs) (h pre c cs b hl hb) fun b' hb' => ?_
      exact Runs.foldl hm h cs (pre ++ [c]) b' (by rw [hl, List.append_assoc, List.singleton_append]) hb'

/-- A first round that is done, and the rounds after it. -/
theorem foldl_cons_done {b b' : β} {c : γ} {cs : List γ}
    (h : Fuel.foldl step b (c :: cs) = .done b') :
    ∃ b₁, step b c = .done b₁ ∧ Fuel.foldl step b₁ cs = .done b' := Res.bind_eq_done h

/-- A loop that is done has kept what every round keeps. -/
theorem foldl_done {I : β → Prop} : ∀ (cs : List γ) (b b' : β),
    (∀ c ∈ cs, ∀ b b', I b → step b c = .done b' → I b') → I b →
      Fuel.foldl step b cs = .done b' → I b'
  | [], b, b', _, hb, hdone => by
      cases hdone
      exact hb
  | c :: cs, b, b', h, hb, hdone => by
      obtain ⟨b₁, hstep, hrest⟩ := foldl_cons_done hdone
      exact foldl_done cs b₁ b' (fun c hc => h c (List.mem_cons_of_mem _ hc))
        (h c List.mem_cons_self b b₁ hb hstep) hrest

/-- Every round of a loop that is done is done. -/
theorem foldl_done_each : ∀ (cs : List γ) (b b' : β), Fuel.foldl step b cs = .done b' →
    ∀ c ∈ cs, ∃ b₁ b₂, step b₁ c = .done b₂
  | [], _, _, _, c, hc => by cases hc
  | c :: cs, b, b', hdone, x, hx => by
      obtain ⟨b₁, hstep, hrest⟩ := foldl_cons_done hdone
      rcases List.mem_cons.mp hx with rfl | hx
      · exact ⟨b, b₁, hstep⟩
      · exact foldl_done_each cs b₁ b' hrest x hx

end Loop

/-! ## What is left to be marked -/

/-- No more than `u` numbers have the property. -/
def AtMost (P : Nat → Prop) (u : Nat) : Prop := ∃ l : List Nat, l.length ≤ u ∧ ∀ x, P x → x ∈ l

theorem AtMost.range {P : Nat → Prop} {n : Nat} (h : ∀ x, P x → x < n) : AtMost P n :=
  ⟨List.range n, Nat.le_of_eq List.length_range, fun x hx => List.mem_range.mpr (h x hx)⟩

theorem AtMost.imp {P Q : Nat → Prop} {u : Nat} (h : AtMost P u) (hQP : ∀ x, Q x → P x) :
    AtMost Q u := by
  obtain ⟨l, hl, hmem⟩ := h
  exact ⟨l, hl, fun x hx => hmem x (hQP x hx)⟩

/-- One of them is marked. -/
theorem AtMost.mark {P : Nat → Prop} {u x : Nat} (h : AtMost P u) (hx : P x) :
    ∃ v, u = v + 1 ∧ AtMost (fun y => P y ∧ y ≠ x) v := by
  obtain ⟨l, hl, hmem⟩ := h
  have hlen := List.length_erase_of_mem (hmem x hx)
  have hpos := List.length_pos_of_mem (hmem x hx)
  refine ⟨u - 1, by omega, l.erase x, by omega, fun y hy => ?_⟩
  exact (List.mem_erase_of_ne hy.2).mpr (hmem y hy.1)

end Fuel
