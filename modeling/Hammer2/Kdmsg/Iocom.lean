/-
# `Hammer2.Kdmsg.Iocom` — the transactions of a link

Every open transaction of a link has a state, on one of two trees by the side that opened it and
on the queue of the transaction it was opened under.  When the link is dead the transmitting
thread drains its messages and simulates the terminating message of every open transaction.

    simulateFailure   the walk over the transactions under one
    stateAbort        the terminating message of one
    cleanuptx         what is left to do after a message is transmitted
    drainMsg          a message that was still queued
    iocomThreadWr     the loop at the end of the thread

States are numbered in the order they are made, and `0` is `state0`.  A state stays while it is
referred to, so that the counts of the references are left out.  The receiving thread is gone, so
that nothing waits for `KDMSG_STATE_INTERLOCK`.  A handler answers a terminating message by
closing its side, and that of `conn_state` drops it first.
-/
import Hammer2.Lib.Fuel

namespace Hammer2.Kdmsg

open Fuel

/-- The flags of a command. -/
structure Cmd where
  create : Bool
  delete : Bool
  reply : Bool
  abort : Bool
deriving DecidableEq

/-- `struct kdmsg_state`; `conn` if `func` is `kdmsg_lnk_conn_reply`. -/
structure State where
  parent : Option Nat
  subq : List Nat
  scan : Option Nat
  rxcmd : Cmd
  txcmd : Cmd
  rbInserted : Bool
  subInserted : Bool
  opposite : Bool
  isNew : Bool
  aborting : Bool
  dying : Bool
  conn : Bool

structure Msg where
  state : Nat
  cmd : Cmd

/-- `struct kdmsg_iocom`, the states, and the transactions whose handler has seen a terminating
message. -/
structure Iocom where
  state : Nat → State
  next : Nat
  msgq : List Msg
  staterd : List Nat
  statewr : List Nat
  connState : Option Nat
  exitNoAcc : Bool
  seen : List Nat

namespace Iocom

def modify (σ : Iocom) (s : Nat) (f : State → State) : Iocom :=
  { σ with state := fun t => if t = s then f (σ.state s) else σ.state t }

/-- `RB_REMOVE` -/
def rbRemove (σ : Iocom) (s : Nat) (wr : Bool) : Iocom :=
  let σ := if wr then { σ with statewr := σ.statewr.erase s }
    else { σ with staterd := σ.staterd.erase s }
  σ.modify s fun x => { x with rbInserted := false }

/-- `kdmsg_msg_alloc`: the state of the message, a new one for a new transaction. -/
def msgAlloc (σ : Iocom) (s : Nat) (cmd : Cmd) : Res (Iocom × Nat) :=
  if cmd.create ∧ ¬ cmd.reply then
    let t := σ.next
    let new : State :=
      { parent := some s, subq := [], scan := none
        rxcmd := ⟨false, false, false, false⟩, txcmd := ⟨false, false, false, false⟩
        rbInserted := true, subInserted := true, opposite := false, isNew := true
        aborting := false, dying := (σ.state s).dying, conn := false }
    let σ := { σ with next := t + 1, statewr := t :: σ.statewr }
    let σ := σ.modify s fun x => { x with subq := x.subq ++ [t] }
    .done (σ.modify t fun _ => new, t)
  else if (σ.state s).parent = none then .panic
  else .done (σ, s)

/-- `kdmsg_subq_delete` -/
def subqDelete (σ : Iocom) (s : Nat) : Res Iocom :=
  if (σ.state s).subInserted then
    match (σ.state s).parent with
    | none => .panic
    | some p =>
        let σ := σ.modify p fun x => { x with
          scan := if x.scan = some s then none else x.scan
          subq := x.subq.erase s }
        .done (σ.modify s fun x => { x with subInserted := false, parent := none })
  else if (σ.state s).parent = none then .done σ
  else .panic

/-- `kdmsg_state_msgtx`; `none` if the message is bad. -/
def msgtx (σ : Iocom) (m : Msg) : Option Iocom :=
  let s := m.state
  let cmd := m.cmd
  if ¬ (cmd.create ∨ cmd.delete ∨ cmd.abort) then some σ
  else
    match cmd.create, cmd.delete, cmd.reply with
    | true, _, false =>
        some (σ.modify s fun x => { x with
          txcmd := { cmd with delete := false }
          rxcmd := ⟨false, false, true, false⟩
          isNew := false })
    | true, _, true =>
        if s = 0 then none
        else some (σ.modify s fun x => { x with txcmd := { cmd with delete := false } })
    | false, true, _ => if s = 0 ∨ ¬ (σ.state s).txcmd.create then none else some σ
    | false, false, _ =>
        if cmd.abort ∧ (s = 0 ∨ ¬ (σ.state s).txcmd.create) then none else some σ

/-- `kdmsg_state_msgrx`, of a message that has its state: whether it is bad. -/
def msgrx (σ : Iocom) (s : Nat) (cmd : Cmd) : Res (Bool × Iocom) :=
  let bad :=
    match cmd.create, cmd.delete, cmd.reply with
    | true, _, false => true
    | true, _, true => false
    | false, true, _ => !(σ.state s).rxcmd.create
    | false, false, _ => cmd.abort && !(σ.state s).rxcmd.create
  if bad then .done (true, σ)
  else
    let σ :=
      if cmd.create then σ.modify s fun x => { x with rxcmd := { cmd with delete := false } }
      else σ
    if ¬ cmd.delete then .done (false, σ)
    else if (σ.state s).rxcmd.delete then .panic
    else
      let σ := σ.modify s fun x => { x with rxcmd := { x.rxcmd with delete := true } }
      let x := σ.state s
      if ¬ x.txcmd.delete then .done (false, σ)
      else if x.rbInserted ∧ x.rxcmd.reply = cmd.reply then .done (false, σ.rbRemove s cmd.reply)
      else .panic

/-- The part of `kdmsg_state_cleanuptx` that closes the transmitting side. -/
def closetx (σ : Iocom) (m : Msg) : Res Iocom :=
  let s := m.state
  if ¬ m.cmd.delete then .done σ
  else if (σ.state s).txcmd.delete then .panic
  else
    let σ := σ.modify s fun x => { x with txcmd := { x.txcmd with delete := true } }
    let x := σ.state s
    if ¬ x.rxcmd.delete then .done σ
    else if x.rbInserted ∧ x.txcmd.reply = m.cmd.reply then
      let σ := σ.rbRemove s (!m.cmd.reply)
      if (σ.state s).subq = [] then σ.subqDelete s else .done σ
    else .panic

end Iocom

/-! ## Aborting -/

mutual

/-- `kdmsg_state_dying` -/
def stateDying : Nat → Iocom → Nat → Res Iocom
  | 0, _, _ => .more
  | n + 1, σ, s =>
      if (σ.state s).dying then .done σ
      else dyingSubq n (σ.modify s fun x => { x with dying := true }) (σ.state s).subq
termination_by structural n _ _ => n

def dyingSubq : Nat → Iocom → List Nat → Res Iocom
  | 0, _, _ => .more
  | _ + 1, σ, [] => .done σ
  | n + 1, σ, k :: ks => (stateDying n σ k).bind fun σ => dyingSubq n σ ks
termination_by structural n _ _ => n

end

/-- `TAILQ_NEXT`, and what is behind it. -/
def after (k : Nat) : List Nat → List Nat
  | [] => []
  | j :: js => if j = k then js else after k js

mutual

/-- `kdmsg_simulate_failure` -/
def simulateFailure : Nat → Iocom → Nat → Bool → Res Iocom
  | 0, _, _, _ => .more
  | n + 1, σ, s, meto =>
      (if meto then stateAbort n σ s else .done σ).bind fun σ =>
        scanSubq n σ s (σ.state s).subq
termination_by structural n _ _ _ => n

/-- Its loop, from an entry of the queue on. -/
def scanSubq : Nat → Iocom → Nat → List Nat → Res Iocom
  | 0, _, _, _ => .more
  | _ + 1, σ, _, [] => .done σ
  | n + 1, σ, s, k :: ks =>
      if (σ.state k).aborting then scanSubq n σ s ks
      else
        (simulateFailure n (σ.modify s fun x => { x with scan := some k }) k true).bind fun σ =>
          if (σ.state s).scan ≠ some k then scanSubq n σ s (σ.state s).subq
          else scanSubq n σ s (after k (σ.state s).subq)
termination_by structural n _ _ _ => n

/-- `kdmsg_state_abort` -/
def stateAbort : Nat → Iocom → Nat → Res Iocom
  | 0, _, _ => .more
  | n + 1, σ, s =>
      if (σ.state s).aborting then .panic
      else
        (stateDying n (σ.modify s fun x => { x with aborting := true }) s).bind fun σ =>
          let x := σ.state s
          if x.isNew then .done σ
          else if x.rxcmd.delete then .done σ
          else
            let cmd : Cmd := ⟨!x.rxcmd.create, true, x.rxcmd.reply, false⟩
            if x.parent = none then .panic else receiveHandling n σ s cmd
termination_by structural n _ _ => n

/-- `kdmsg_msg_receive_handling`, of a message that has its state. -/
def receiveHandling : Nat → Iocom → Nat → Cmd → Res Iocom
  | 0, _, _, _ => .more
  | n + 1, σ, s, cmd =>
      (σ.msgrx s cmd).bind fun (bad, σ) =>
        if bad then .done σ
        else (stateFunc n σ s cmd).bind fun σ => cleanuprx n σ s cmd
termination_by structural n _ _ _ => n

/-- `state->func`: `kdmsg_lnk_conn_reply`, or another one that closes its side. -/
def stateFunc : Nat → Iocom → Nat → Cmd → Res Iocom
  | 0, _, _, _ => .more
  | n + 1, σ, s, cmd =>
      let σ := if cmd.delete then { σ with seen := s :: σ.seen } else σ
      let x := σ.state s
      if ¬ x.txcmd.delete ∧ cmd.delete then
        msgReply n (if x.conn then { σ with connState := none } else σ) s
      else .done σ
termination_by structural n _ _ _ => n

/-- `kdmsg_msg_reply` -/
def msgReply : Nat → Iocom → Nat → Res Iocom
  | 0, _, _ => .more
  | n + 1, σ, s =>
      let x := σ.state s
      if x.txcmd.delete then .done σ
      else
        let cmd : Cmd := ⟨!x.txcmd.create, true, x.txcmd.reply, false⟩
        (σ.msgAlloc s cmd).bind fun (σ, t) => msgWrite n σ ⟨t, cmd⟩
termination_by structural n _ _ => n

/-- `kdmsg_msg_write` -/
def msgWrite : Nat → Iocom → Msg → Res Iocom
  | 0, _, _ => .more
  | n + 1, σ, m =>
      let x := σ.state m.state
      if x.txcmd.delete then .panic
      else if x.dying then cleanuptx n ((σ.msgtx m).getD σ) m
      else if σ.exitNoAcc then drainMsg n σ m
      else .done { σ with msgq := σ.msgq ++ [m] }
termination_by structural n _ _ => n

/-- `kdmsg_drain_msg` -/
def drainMsg : Nat → Iocom → Msg → Res Iocom
  | 0, _, _ => .more
  | n + 1, σ, m =>
      match σ.msgtx m with
      | none => .done σ
      | some σ => (simulateFailure n σ m.state false).bind fun σ => cleanuptx n σ m
termination_by structural n _ _ => n

/-- `kdmsg_state_cleanuptx` -/
def cleanuptx : Nat → Iocom → Msg → Res Iocom
  | 0, _, _ => .more
  | n + 1, σ, m =>
      (σ.closetx m).bind fun σ =>
        let x := σ.state m.state
        if (x.aborting ∨ x.dying) ∧ ¬ x.rxcmd.delete then
          stateAbort n (σ.modify m.state fun x => { x with aborting := false }) m.state
        else .done σ
termination_by structural n _ _ => n

/-- `kdmsg_state_cleanuprx` -/
def cleanuprx : Nat → Iocom → Nat → Cmd → Res Iocom
  | 0, _, _, _ => .more
  | n + 1, σ, s, cmd =>
      if s = 0 then .done σ
      else
        (if cmd.delete ∧ (σ.state s).subq ≠ [] then simulateFailure n σ s false
          else .done σ).bind fun σ =>
          let x := σ.state s
          if x.subInserted ∧ x.rxcmd.delete ∧ x.txcmd.delete then σ.subqDelete s else .done σ
termination_by structural n _ _ _ => n

end

/-- `kdmsg_drain_msgq` -/
def drainMsgq : Nat → Iocom → Res Iocom
  | 0, _ => .more
  | n + 1, σ =>
      match σ.msgq with
      | [] => .done σ
      | m :: ms => (drainMsg n { σ with msgq := ms } m).bind fun σ => drainMsgq n σ

/-- What is left to drain. -/
def Iocom.left (σ : Iocom) : Bool :=
  !σ.msgq.isEmpty || !σ.staterd.isEmpty || !σ.statewr.isEmpty || σ.connState.isSome

/-- The rounds of `kdmsg_iocom_thread_wr`. -/
def drainRounds : Nat → Iocom → Res Iocom
  | 0, _ => .more
  | n + 1, σ =>
      if σ.left then
        (drainMsgq n σ).bind fun σ =>
          (simulateFailure n σ 0 false).bind fun σ => drainRounds n σ
      else .done σ

/-- The end of `kdmsg_iocom_thread_wr`. -/
def iocomThreadWr (n : Nat) (σ : Iocom) : Res Iocom := drainRounds n { σ with exitNoAcc := true }

end Hammer2.Kdmsg
