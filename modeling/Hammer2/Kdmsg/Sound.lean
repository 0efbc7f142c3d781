/-
# `Hammer2.Kdmsg.Sound` — a link at the moment it dies

What holds of the states and of the queue while the link is drained.

    Below    the transactions under a transaction
    Settled  a transaction that the walks can pass by
    Sane     one transaction and its messages
    Inv      all of them
    Grows    what the walks may change

`Inv` makes an exception for the transaction of the message in hand.
-/
import Hammer2.Kdmsg.Iocom
import Mathlib.Data.List.Basic
import Mathlib.Data.List.Nodup

namespace Hammer2.Kdmsg

open Fuel

/-! ## Fuel -/

theorem stateDying_refines (n : Nat) :
    (∀ σ s, Refines (stateDying n σ s) (stateDying (n + 1) σ s)) ∧
      ∀ σ ks, Refines (dyingSubq n σ ks) (dyingSubq (n + 1) σ ks) := by
  induction n with
  | zero => exact ⟨fun _ _ => .inl rfl, fun _ _ => .inl rfl⟩
  | succ n ih =>
      refine ⟨fun σ s => ?_, fun σ ks => ?_⟩
      · rw [stateDying, stateDying]
        split
        · exact .refl _
        · exact ih.2 _ _
      · cases ks with
        | nil => exact .refl _
        | cons k ks => exact (ih.1 σ k).bind fun σ => ih.2 σ ks

/-- More fuel refines. -/
structure Refined (n : Nat) : Prop where
  simulate : ∀ σ s meto, Refines (simulateFailure n σ s meto) (simulateFailure (n + 1) σ s meto)
  scan : ∀ σ s ks, Refines (scanSubq n σ s ks) (scanSubq (n + 1) σ s ks)
  abort : ∀ σ s, Refines (stateAbort n σ s) (stateAbort (n + 1) σ s)
  receive : ∀ σ s cmd, Refines (receiveHandling n σ s cmd) (receiveHandling (n + 1) σ s cmd)
  func : ∀ σ s cmd, Refines (stateFunc n σ s cmd) (stateFunc (n + 1) σ s cmd)
  reply : ∀ σ s, Refines (msgReply n σ s) (msgReply (n + 1) σ s)
  write : ∀ σ m, Refines (msgWrite n σ m) (msgWrite (n + 1) σ m)
  drain : ∀ σ m, Refines (drainMsg n σ m) (drainMsg (n + 1) σ m)
  tx : ∀ σ m, Refines (cleanuptx n σ m) (cleanuptx (n + 1) σ m)
  rx : ∀ σ s cmd, Refines (cleanuprx n σ s cmd) (cleanuprx (n + 1) σ s cmd)

theorem refined (n : Nat) : Refined n := by
  induction n with
  | zero => constructor <;> intros <;> exact .inl rfl
  | succ n ih =>
      constructor
      case simulate =>
        intro σ s meto
        refine Refines.bind ?_ fun σ => ih.scan _ _ _
        cases meto with
        | true => exact ih.abort _ _
        | false => exact .refl _
      case scan =>
        intro σ s ks
        cases ks with
        | nil => exact .refl _
        | cons k ks =>
            rw [scanSubq, scanSubq]
            split
            · exact ih.scan _ _ _
            · refine (ih.simulate _ _ _).bind fun σ => ?_
              split
              · exact ih.scan _ _ _
              · exact ih.scan _ _ _
      case abort =>
        intro σ s
        rw [stateAbort, stateAbort]
        split
        · exact .refl _
        · refine ((stateDying_refines n).1 _ _).bind fun σ => ?_
          dsimp only
          split
          · exact .refl _
          · split
            · exact .refl _
            · split
              · exact .refl _
              · exact ih.receive _ _ _
      case receive =>
        intro σ s cmd
        refine (Refines.refl _).bind fun (bad, σ) => ?_
        dsimp only
        split
        · exact .refl _
        · exact (ih.func _ _ _).bind fun σ => ih.rx _ _ _
      case func =>
        intro σ s cmd
        rw [stateFunc, stateFunc]
        generalize (if cmd.delete then { σ with seen := s :: σ.seen } else σ) = σ'
        split
        · exact ih.reply _ _
        · exact .refl _
      case reply =>
        intro σ s
        rw [msgReply, msgReply]
        split
        · exact .refl _
        · exact (Refines.refl _).bind fun (σ, t) => ih.write _ _
      case write =>
        intro σ m
        rw [msgWrite, msgWrite]
        split
        · exact .refl _
        · split
          · exact ih.tx _ _
          · split
            · exact ih.drain _ _
            · exact .refl _
      case drain =>
        intro σ m
        rw [drainMsg, drainMsg]
        split
        · exact .refl _
        · exact (ih.simulate _ _ _).bind fun σ => ih.tx _ _
      case tx =>
        intro σ m
        refine (Refines.refl _).bind fun σ => ?_
        dsimp only
        split
        · exact ih.abort _ _
        · exact .refl _
      case rx =>
        intro σ s cmd
        rw [cleanuprx, cleanuprx]
        split
        · exact .refl _
        · refine Refines.bind ?_ fun σ => .refl _
          split
          · exact ih.simulate _ _ _
          · exact .refl _

theorem simulate_mono (σ : Iocom) (s : Nat) (meto : Bool) :
    Mono fun n => simulateFailure n σ s meto := fun n => (refined n).simulate σ s meto

theorem scan_mono (σ : Iocom) (s : Nat) (ks : List Nat) : Mono fun n => scanSubq n σ s ks :=
  fun n => (refined n).scan σ s ks

theorem abort_mono (σ : Iocom) (s : Nat) : Mono fun n => stateAbort n σ s :=
  fun n => (refined n).abort σ s

/-! ## The transactions under a transaction -/

section Tree

/-- `up` is the transaction a transaction was opened under. -/
inductive Below (up : Nat → Nat) (a : Nat) : Nat → Prop
  | child {k : Nat} : k ≠ 0 → up k = a → Below up a k
  | deeper {k : Nat} : k ≠ 0 → Below up a (up k) → Below up a k

variable {up : Nat → Nat} {a b d k s : Nat}

theorem Below.ne_zero (h : Below up a d) : d ≠ 0 := by
  cases h with
  | child hk _ => exact hk
  | deeper hk _ => exact hk

theorem Below.trans (h : Below up a b) (h' : Below up b d) : Below up a d := by
  induction h' with
  | child hk heq => exact .deeper hk (heq ▸ h)
  | deeper hk _ ih => exact .deeper hk ih

/-- The one in between that is next. -/
theorem Below.first (h : Below up a d) :
    ∃ k, k ≠ 0 ∧ up k = a ∧ (d = k ∨ Below up k d) := by
  induction h with
  | child hk heq => exact ⟨_, hk, heq, .inl rfl⟩
  | deeper hk h ih =>
      obtain ⟨j, hj, hup, heq | hbelow⟩ := ih
      · exact ⟨j, hj, hup, .inr (.child hk heq)⟩
      · exact ⟨j, hj, hup, .inr (.deeper hk hbelow)⟩

/-- Transactions are opened under earlier ones. -/
def Earlier (up : Nat → Nat) : Prop := ∀ k, k ≠ 0 → up k < k

theorem Below.lt (hup : Earlier up) (h : Below up a d) : a < d := by
  induction h with
  | child hk heq => exact heq ▸ hup _ hk
  | deeper hk _ ih => exact Nat.lt_trans ih (hup _ hk)

theorem Below.irrefl (hup : Earlier up) : ¬ Below up a a := fun h => Nat.lt_irrefl a (h.lt hup)

/-- What is over a transaction is the one it was opened under, or over that one. -/
theorem below_iff (hk : k ≠ 0) : Below up a k ↔ up k = a ∨ Below up a (up k) := by
  constructor
  · intro h
    cases h with
    | child _ heq => exact .inl heq
    | deeper _ h => exact .inr h
  · rintro (heq | h)
    · exact .child hk heq
    · exact .deeper hk h

theorem below_zero (hup : Earlier up) {d : Nat} (hd : d ≠ 0) : Below up 0 d := by
  induction d using Nat.strongRecOn with
  | _ d ih =>
      rw [below_iff hd]
      by_cases hz : up d = 0
      · exact .inl hz
      · exact .inr (ih _ (hup d hd) hz)

end Tree

/-! ## States -/

section States

variable {σ : Iocom} {s t : Nat} {f : State → State}

@[simp] theorem state_modify : (σ.modify s f).state t = if t = s then f (σ.state s) else σ.state t :=
  rfl

theorem modify_same : (σ.modify s f).state s = f (σ.state s) := if_pos rfl

theorem modify_other (h : t ≠ s) : (σ.modify s f).state t = σ.state t := if_neg h

/-- What a state is apart from the states under it. -/
def core (x : State) : State := { x with subq := [], scan := none }

/-- A state that has been made. -/
def Known (σ : Iocom) (s : Nat) : Prop := s ≠ 0 ∧ s < σ.next

/-- A walk has been there, or the transaction is closed. -/
def Settled (σ : Iocom) (s : Nat) : Prop :=
  (σ.state s).aborting = true ∨ (σ.state s).rbInserted = false

/-- A terminating message is due. -/
def Due (x : State) : Prop := x.isNew = false ∧ x.rxcmd.delete = false

/-- **One transaction and the messages that are queued for it.** -/
structure Sane (ex : Prop) (s : Nat) (x : State) (q : List Msg) : Prop where
  half : x.rbInserted = true → ¬ (x.rxcmd.delete = true ∧ x.txcmd.delete = true)
  closed : x.rbInserted = false → x.rxcmd.delete = true
  fresh : x.isNew = true → x.opposite = false ∧ x.rxcmd.delete = false ∧ x.txcmd.delete = false
  mine : x.isNew = false → x.opposite = false →
    x.rxcmd.reply = true ∧ x.txcmd.reply = false ∧ x.txcmd.create = true
  theirs : x.opposite = true →
    x.rxcmd.reply = false ∧ x.txcmd.reply = true ∧ x.rxcmd.create = true
  aborted : ¬ ex → x.aborting = true → x.rbInserted = true →
    x.isNew = true ∨ x.rxcmd.delete = true
  dying : x.aborting = true → x.dying = true
  first : x.isNew = true → ∃ pre m post, q = pre ++ m :: post ∧ m.state = s ∧
    m.cmd.create = true ∧ (∀ m' ∈ pre, m'.state ≠ s) ∧
    ∀ m' ∈ post, m'.state = s → m'.cmd.create = false
  once : x.isNew = false → x.opposite = false → ∀ m ∈ q, m.state = s → m.cmd.create = false
  replies : x.opposite = true →
    (∀ m ∈ q, m.state = s → m.cmd.delete = true → m.cmd.create = true) ∨
      (x.txcmd.create = true ∧ ∀ m ∈ q, m.state = s → m.cmd.create = false)
  answered : ¬ ex → x.rbInserted = true → x.rxcmd.delete = true →
    ∃ m ∈ q, m.state = s ∧ m.cmd.delete = true

/-- A message of the link itself, or of a transaction. -/
def Framed (σ : Iocom) (m : Msg) : Prop :=
  m.cmd.abort = false ∧
    ((m.state = 0 ∧ m.cmd.create = false ∧ m.cmd.delete = false) ∨
      (Known σ m.state ∧ m.cmd.reply = (σ.state m.state).opposite))

/-- **The link** while it is drained; `ex` is the transaction of the message in hand. -/
structure Inv (up : Nat → Nat) (ex : Nat → Prop) (σ : Iocom) : Prop where
  root : (σ.state 0).aborting = false ∧ (σ.state 0).dying = false
  attached : ∀ s, Known σ s → (σ.state s).subInserted = true →
    (σ.state s).parent = some (up s) ∧ s ∈ (σ.state (up s)).subq
  detached : ∀ s, Known σ s → (σ.state s).subInserted = false →
    (σ.state s).parent = none ∧ (σ.state s).rbInserted = false ∧
      ∀ d, Below up s d → Known σ d → Settled σ d
  under : ∀ p k, k ∈ (σ.state p).subq →
    Known σ k ∧ up k = p ∧ (σ.state k).subInserted = true
  nodup : ∀ p, (σ.state p).subq.Nodup
  rd : ∀ s, s ∈ σ.staterd ↔
    Known σ s ∧ (σ.state s).rbInserted = true ∧ (σ.state s).opposite = true
  wr : ∀ s, s ∈ σ.statewr ↔
    Known σ s ∧ (σ.state s).rbInserted = true ∧ (σ.state s).opposite = false
  rdNodup : σ.staterd.Nodup
  wrNodup : σ.statewr.Nodup
  sane : ∀ s, Known σ s → Sane (ex s) s (core (σ.state s)) σ.msgq
  framed : ∀ m ∈ σ.msgq, Framed σ m
  seen : ∀ s, Known σ s → σ.seen.count s = if (σ.state s).rxcmd.delete then 1 else 0
  conn : ∀ c, σ.connState = some c → Known σ c ∧ (σ.state c).conn = true ∧
    (σ.state c).opposite = false ∧ (σ.state c).rbInserted = true ∧
    (σ.state c).rxcmd.delete = false ∧ (σ.state c).txcmd.delete = false ∧
    ∀ m ∈ σ.msgq, m.state = c → m.cmd.delete = false

end States

end Hammer2.Kdmsg
