/-
# `Hammer2.Xop.Order` — the order in which XOPs run

    Inode        all that the scheduling looks at is `ihash`
    start        `hammer2_xop_start_except`
    nextXop      `hammer2_xop_next`, with its hash of inodes
    Worker       where `hammer2_primary_xops_thread` is in its loop over the queue
    run_ordered  XOPs on a common inode run one after the other, as they were started

Nothing in the source ever sets `ihash`: `hammer2_inode_get` takes the inode zeroed from its
pool.  So all XOPs of a PFS go to the first worker group, and each node has one queue.
-/
import Mathlib.Data.List.Pairwise
import Mathlib.Logic.Function.Basic
import Mathlib.Order.Nat
import Hammer2.Lib.Machine

namespace Hammer2.Xop.Order

open Machine

abbrev Addr := BitVec 64

structure Inode where
  ihash : BitVec 32
deriving DecidableEq

/-- What is fixed: the number of groups, where the threads and their nodes are, and the size of
an inode in memory. -/
structure Config where
  nthreads : Nat
  thr : Nat → Nat → Addr
  sizeofInode : BitVec 64
  master : Nat → Bool

/-- The inodes of an XOP, and what it does: `everyNode` are the flush and chain-sync operations. -/
structure Request where
  ip1 : Addr
  ip2 : Option Addr
  ip3 : Option Addr
  ip4 : Option Addr
  modifying : Bool
  everyNode : Bool
deriving DecidableEq

def Request.ips (r : Request) : List Addr :=
  r.ip1 :: (r.ip2.toList ++ r.ip3.toList ++ r.ip4.toList)

/-- `run_mask` is the frontend and the nodes that have not left; `chk_mask` stays. -/
structure Head extends Request where
  vop : Bool
  runMask : List Nat
  chkMask : List Nat

/-- Where a worker is with an XOP: it has taken it, runs its `storage_func`, has come back from
that, has taken it off the queue. -/
inductive Pc
  | next
  | taken (x : Nat)
  | storage (x : Nat)
  | done (x : Nat)
  | dequeued (x : Nat)
deriving DecidableEq

structure Worker where
  xopq : List Nat
  pc : Pc

/-- What a node did. -/
inductive Mark
  | start (x : Nat)
  | finish (x : Nat)
deriving DecidableEq

/-- XOPs are numbered as they are started; `fifoRun` is `HAMMER2_XOP_FIFO_RUN` by node and XOP. -/
structure State where
  inodes : Addr → Option Inode
  xops : List Head
  workers : Nat → Nat → Worker
  fifoRun : Nat → Nat → Bool
  log : Nat → List Mark

def init : State where
  inodes := fun _ => none
  xops := []
  workers := fun _ _ => ⟨[], .next⟩
  fifoRun := fun _ _ => false
  log := fun _ => []

/-! ## The hash of inodes -/

/-- `XOP_HASH_SIZE` words. -/
abbrev Hash := Nat → BitVec 32

/-- `hv`: the sum of the addresses is cut to an `int`, which the division then takes for a
`size_t`. -/
def hashValue (sizeofInode : BitVec 64) (thr ip : Addr) : BitVec 32 :=
  (((ip + thr).setWidth 32).signExtend 64 / sizeofInode).setWidth 32

def hashMask (hv : BitVec 32) : BitVec 32 := 1#32 <<< (hv &&& 31#32).toNat

def hashIndex (hv : BitVec 32) : Nat := (hv.sshiftRight 5 &&& 15#32).toNat

/-- `xop_testhash` -/
def testhash (sizeofInode : BitVec 64) (thr ip : Addr) (hash : Hash) : Bool :=
  let hv := hashValue sizeofInode thr ip
  hash (hashIndex hv) &&& hashMask hv != 0#32

/-- `xop_sethash` -/
def sethash (sizeofInode : BitVec 64) (thr ip : Addr) (hash : Hash) : Hash :=
  let hv := hashValue sizeofInode thr ip
  Function.update hash (hashIndex hv) (hash (hashIndex hv) ||| hashMask hv)

/-- The loop of `hammer2_xop_next` over the queue. -/
def nextLoop (sizeofInode : BitVec 64) (thr : Addr) (ips : Nat → List Addr) (fifoRun : Nat → Bool) :
    List Nat → Hash → Option Nat
  | [], _ => none
  | x :: xopq, hash =>
      if (ips x).any fun ip => testhash sizeofInode thr ip hash then
        nextLoop sizeofInode thr ips fifoRun xopq hash
      else
        let hash := (ips x).foldl (fun hash ip => sethash sizeofInode thr ip hash) hash
        if fifoRun x then nextLoop sizeofInode thr ips fifoRun xopq hash else some x

/-! ## Steps -/

namespace State

def ips (s : State) (x : Nat) : List Addr :=
  match s.xops[x]? with
  | some h => h.ips
  | none => []

def setWorker (s : State) (i j : Nat) (w : Worker) : State :=
  { s with workers := Function.update s.workers i (Function.update (s.workers i) j w) }

def setPc (s : State) (i j : Nat) (pc : Pc) : State := s.setWorker i j { s.workers i j with pc }

def setHead (s : State) (x : Nat) (f : Head → Head) : State := { s with xops := s.xops.modify x f }

def setRun (s : State) (i x : Nat) (b : Bool) : State :=
  { s with fifoRun := Function.update s.fifoRun i (Function.update (s.fifoRun i) x b) }

def mark (s : State) (i : Nat) (m : Mark) : State :=
  { s with log := Function.update s.log i (s.log i ++ [m]) }

end State

section Steps

variable (cfg : Config)

/-- The nodes that get the XOP: all with a chain, but slaves only if nothing is modified there
from the frontend. -/
def targets (r : Request) (nchains : Nat) (notidx : Option Nat) (chain : Nat → Bool) : List Nat :=
  (List.range nchains).filter fun i =>
    !decide (notidx = some i) && chain i &&
      !(decide (2 ≤ nchains) && r.modifying && !r.everyNode && !cfg.master i)

/-- `hammer2_xop_start_except`; the worker group comes from the hash of `ip1`. -/
def start (s : State) (r : Request) (nchains : Nat) (notidx : Option Nat) (chain : Nat → Bool) :
    Option State := do
  let ip ← s.inodes r.ip1
  if cfg.nthreads = 0 then none
  else
    let ng := ip.ihash.toNat % cfg.nthreads
    let nodes := targets cfg r nchains notidx chain
    some { s with
      xops := s.xops ++ [{ r with vop := true, runMask := nodes, chkMask := nodes }]
      workers := fun i j =>
        if i ∈ nodes ∧ j = ng then
          { s.workers i j with xopq := (s.workers i j).xopq ++ [s.xops.length] }
        else s.workers i j }

/-- `hammer2_xop_next` -/
def nextXop (s : State) (i j : Nat) : Option Nat :=
  nextLoop cfg.sizeofInode (cfg.thr i j) s.ips (s.fifoRun i) (s.workers i j).xopq fun _ => 0#32

inductive Event
  | inodeGet (p : Addr)
  | start (r : Request) (nchains : Nat) (notidx : Option Nat) (chain : Nat → Bool)
  | next (i j : Nat)
  | call (i j : Nat)
  | storageDone (i j : Nat)
  | dequeue (i j : Nat)
  | retire (i j : Nat)
  | retireVop (x : Nat)

/-- `none` is an event that cannot happen now, or an assertion that fails. -/
def step (s : State) : Event → Option State
  | .inodeGet p =>
      if (s.inodes p).isSome then none
      else some { s with inodes := Function.update s.inodes p (some ⟨0#32⟩) }
  | .start r nchains notidx chain => start cfg s r nchains notidx chain
  | .next i j =>
      match (s.workers i j).pc with
      | .next =>
          match nextXop cfg s i j with
          | some x => some ((s.setRun i x true).setPc i j (.taken x))
          | none => some s
      | _ => none
  | .call i j =>
      match (s.workers i j).pc with
      | .taken x =>
          match s.xops[x]? with
          | some h =>
              -- a worker whose frontend is gone only feeds ECONNABORTED
              if h.vop then some ((s.mark i (.start x)).setPc i j (.storage x))
              else some (s.setPc i j (.done x))
          | none => none
      | _ => none
  | .storageDone i j =>
      match (s.workers i j).pc with
      | .storage x => some ((s.mark i (.finish x)).setPc i j (.done x))
      | _ => none
  | .dequeue i j =>
      match (s.workers i j).pc with
      | .done x =>
          some ((s.setRun i x false).setWorker i j ⟨(s.workers i j).xopq.erase x, .dequeued x⟩)
      | _ => none
  | .retire i j =>
      match (s.workers i j).pc with
      | .dequeued x =>
          match s.xops[x]? with
          | some h =>
              if i ∈ h.runMask then
                some ((s.setHead x fun h => { h with runMask := h.runMask.erase i }).setPc i j .next)
              else none
          | none => none
      | _ => none
  | .retireVop x =>
      match s.xops[x]? with
      | some h => if h.vop then some (s.setHead x fun h => { h with vop := false }) else none
      | none => none

end Steps

/-! ## What the claim is -/

/-- Two XOPs name an inode in common. -/
def Common (s : State) (x y : Nat) : Prop := ∃ ip, ip ∈ s.ips x ∧ ip ∈ s.ips y

/-- The XOPs that were executed. -/
def starts (log : List Mark) : List Nat :=
  log.filterMap fun m => match m with
    | .start x => some x
    | .finish _ => none

/-- On every node, what runs and what has run. -/
structure Ordered (s : State) : Prop where
  apart : ∀ i j j' x y, (s.workers i j).pc = .storage x → (s.workers i j').pc = .storage y →
    Common s x y → x = y ∧ j = j'
  inOrder : ∀ i before after x y, s.log i = before ++ .start y :: after → .start x ∈ before →
    Common s x y → x < y ∧ .finish x ∈ before
  once : ∀ i, (starts (s.log i)).Nodup
  gone : ∀ i j x h, s.xops[x]? = some h → i ∉ h.runMask → x ∉ (s.workers i j).xopq

/-! ## The invariant -/

/-- The XOP that is taken and still in the queue. -/
def Pc.holds : Pc → Option Nat
  | .taken x => some x
  | .storage x => some x
  | .done x => some x
  | _ => none

/-- The XOPs of the queue that have not been looked at. -/
def Pc.pending (xopq : List Nat) : Pc → List Nat
  | .done _ => xopq.tail
  | _ => xopq

/-- The last mark of the log, while it stands alone. -/
def Pc.alone : Pc → List Mark
  | .storage x => [.start x]
  | _ => []

/-- XOPs that ran one after the other. -/
def serial (xs : List Nat) : List Mark := xs.flatMap fun x => [.start x, .finish x]

/-- A node, with its one queue: all in it are in the order of their start, the first is the one
that is taken, and all in the log came before those that are pending. -/
structure NodeInv (xops : List Head) (i : Nat) (w : Worker) (fifoRun : Nat → Bool)
    (log : List Mark) : Prop where
  sorted : w.xopq.Pairwise (· < ·)
  bound : ∀ x, x ∈ w.xopq ∨ w.pc = .dequeued x → x < xops.length
  holds : ∀ x, w.pc.holds = some x → w.xopq.head? = some x
  fifoRun : ∀ x, fifoRun x = true ↔ w.pc.holds = some x
  dequeued : ∀ x, w.pc = .dequeued x → x ∉ w.xopq
  masks : ∀ x h, xops[x]? = some h → (i ∈ h.runMask ↔ x ∈ w.xopq ∨ w.pc = .dequeued x)
  log : ∃ xs, log = serial xs ++ w.pc.alone ∧ xs.Pairwise (· < ·) ∧
    (∀ x ∈ xs, x < xops.length) ∧ ∀ x ∈ xs, ∀ y ∈ w.pc.pending w.xopq, x < y

/-- No `ihash` is set, so that all groups but the first are idle. -/
structure Inv (s : State) : Prop where
  ihash : ∀ p ip, s.inodes p = some ip → ip.ihash = 0#32
  idle : ∀ i j, j ≠ 0 → s.workers i j = ⟨[], .next⟩
  node : ∀ i, NodeInv s.xops i (s.workers i 0) (s.fifoRun i) (s.log i)
  nodup : ∀ h ∈ s.xops, h.runMask.Nodup

theorem init_inv : Inv init where
  ihash := nofun
  idle := fun _ _ _ => rfl
  node := by
    intro i
    refine ⟨.nil, ?_, nofun, ?_, nofun, nofun, [], rfl, .nil, nofun, nofun⟩
    · rintro x (hx | hx)
      · exact absurd hx List.not_mem_nil
      · cases hx
    · intro x
      exact ⟨nofun, nofun⟩
  nodup := nofun

/-! ## One queue is served in its order -/

theorem testhash_zero (sizeofInode : BitVec 64) (thr ip : Addr) :
    testhash sizeofInode thr ip (fun _ => 0#32) = false := by
  rw [testhash, BitVec.zero_and]
  rfl

/-- A worker that holds nothing takes the first XOP. -/
theorem nextXop_eq {cfg : Config} {s : State} {i j : Nat}
    (h : ∀ x ∈ (s.workers i j).xopq, s.fifoRun i x = false) :
    nextXop cfg s i j = (s.workers i j).xopq.head? := by
  unfold nextXop
  cases hq : (s.workers i j).xopq with
  | nil => rfl
  | cons x xopq =>
      have hany : ((s.ips x).any fun ip =>
          testhash cfg.sizeofInode (cfg.thr i j) ip fun _ => 0#32) = false := by
        rw [List.any_eq_false]
        intro ip _
        rw [testhash_zero]
        decide
      have hrun : s.fifoRun i x = false := h x (by rw [hq]; exact List.mem_cons_self)
      rw [nextLoop, if_neg (by rw [hany]; decide)]
      dsimp only
      rw [if_neg (by rw [hrun]; decide)]
      rfl

/-! ## Steps of a node -/

section Node

variable {xops : List Head} {i x : Nat} {w : Worker} {fifoRun : Nat → Bool} {log : List Mark}
  {xopq : List Nat}

/-- Only the bit of the node and the number of XOPs matter. -/
theorem NodeInv.congr {xops' : List Head} (h : NodeInv xops i w fifoRun log)
    (hlen : xops'.length = xops.length)
    (hmask : ∀ (x : Nat) (h' : Head), xops'[x]? = some h' →
      ∃ h : Head, xops[x]? = some h ∧ (i ∈ h'.runMask ↔ i ∈ h.runMask)) :
    NodeInv xops' i w fifoRun log where
  sorted := h.sorted
  bound := by
    rw [hlen]
    exact h.bound
  holds := h.holds
  fifoRun := h.fifoRun
  dequeued := h.dequeued
  masks := by
    intro x h' hx
    obtain ⟨h₀, hx₀, hiff⟩ := hmask x h' hx
    rw [hiff]
    exact h.masks x h₀ hx₀
  log := by
    rw [hlen]
    exact h.log

/-- A new XOP, for this node too or not. -/
theorem NodeInv.start (h : NodeInv xops i w fifoRun log) (hd : Head) :
    NodeInv (xops ++ [hd]) i
      (if i ∈ hd.runMask then { w with xopq := w.xopq ++ [xops.length] } else w) fifoRun log := by
  have hlen : (xops ++ [hd]).length = xops.length + 1 := by
    rw [List.length_append, List.length_singleton]
  have hget : ∀ x h', (xops ++ [hd])[x]? = some h' →
      xops[x]? = some h' ∧ x < xops.length ∨ x = xops.length ∧ h' = hd := by
    intro x h' hx
    rcases Nat.lt_or_ge x xops.length with hlt | hge
    · rw [List.getElem?_append_left hlt] at hx
      exact .inl ⟨hx, hlt⟩
    · obtain ⟨hx', rfl⟩ := List.getElem?_eq_some_iff.mp hx
      rw [hlen] at hx'
      obtain rfl : x = xops.length := by omega
      refine .inr ⟨rfl, ?_⟩
      rw [List.getElem_append_right hge, List.getElem_singleton]
  have hnew : xops.length ∉ w.xopq := fun hmem => absurd (h.bound _ (.inl hmem)) (Nat.lt_irrefl _)
  have hnew' : w.pc ≠ .dequeued xops.length :=
    fun hpc => absurd (h.bound _ (.inr hpc)) (Nat.lt_irrefl _)
  obtain ⟨xs, hlog, hsorted, hxs, hbefore⟩ := h.log
  split
  · next hin =>
      have hsub : ∀ y, y ∈ w.pc.pending (w.xopq ++ [xops.length]) →
          y ∈ w.pc.pending w.xopq ∨ y = xops.length := by
        intro y hy
        cases hpc : w.pc with
        | done x =>
            rw [hpc] at hy
            have hhead := h.holds x (by rw [hpc]; rfl)
            cases hq : w.xopq with
            | nil => rw [hq] at hhead; cases hhead
            | cons z q =>
                rw [hq] at hy
                exact (List.mem_append.mp hy).imp_right List.mem_singleton.mp
        | _ =>
            rw [hpc] at hy
            exact (List.mem_append.mp hy).imp_right List.mem_singleton.mp
      refine ⟨?_, ?_, ?_, h.fifoRun, ?_, ?_, xs, hlog, hsorted, ?_, ?_⟩
      · refine List.pairwise_append.mpr ⟨h.sorted, List.pairwise_singleton _ _, ?_⟩
        intro x hx y hy
        cases List.mem_singleton.mp hy
        exact h.bound x (.inl hx)
      · intro x hx
        rw [hlen]
        rcases hx with hx | hx
        · rcases List.mem_append.mp hx with hx | hx
          · exact (h.bound x (.inl hx)).trans (Nat.lt_succ_self _)
          · cases List.mem_singleton.mp hx
            exact Nat.lt_succ_self _
        · exact (h.bound x (.inr hx)).trans (Nat.lt_succ_self _)
      · intro x hx
        have hhead := h.holds x hx
        cases hq : w.xopq with
        | nil => rw [hq] at hhead; cases hhead
        | cons z q => rwa [hq] at hhead
      · intro x hx hmem
        rcases List.mem_append.mp hmem with hmem | hmem
        · exact h.dequeued x hx hmem
        · cases List.mem_singleton.mp hmem
          exact hnew' hx
      · intro x h' hx
        rcases hget x h' hx with ⟨hx, hlt⟩ | ⟨rfl, rfl⟩
        · rw [h.masks x h' hx, List.mem_append, List.mem_singleton]
          have hne : x ≠ xops.length := hlt.ne
          exact or_congr_left ⟨.inl, fun hor => hor.resolve_right hne⟩
        · exact ⟨fun _ => .inl (List.mem_append_right _ (List.mem_singleton_self _)), fun _ => hin⟩
      · intro x hx
        rw [hlen]
        exact (hxs x hx).trans (Nat.lt_succ_self _)
      · intro x hx y hy
        rcases hsub y hy with hy | rfl
        · exact hbefore x hx y hy
        · exact hxs x hx
  · next hout =>
      refine ⟨h.sorted, ?_, h.holds, h.fifoRun, h.dequeued, ?_, xs, hlog, hsorted, ?_, hbefore⟩
      · intro x hx
        rw [hlen]
        exact (h.bound x hx).trans (Nat.lt_succ_self _)
      · intro x h' hx
        rcases hget x h' hx with ⟨hx, -⟩ | ⟨rfl, rfl⟩
        · exact h.masks x h' hx
        · exact ⟨fun hin => absurd hin hout, fun hor => (hor.elim hnew hnew').elim⟩
      · intro x hx
        rw [hlen]
        exact (hxs x hx).trans (Nat.lt_succ_self _)

/-- The first XOP is taken. -/
theorem NodeInv.next (h : NodeInv xops i ⟨xopq, .next⟩ fifoRun log) (hx : xopq.head? = some x) :
    NodeInv xops i ⟨xopq, .taken x⟩ (Function.update fifoRun x true) log where
  sorted := h.sorted
  bound := by
    rintro y (hy | hy)
    · exact h.bound y (.inl hy)
    · cases hy
  holds := by
    intro y hy
    cases hy
    exact hx
  fifoRun := by
    intro y
    rcases eq_or_ne y x with rfl | hne
    · rw [Function.update_self]
      exact ⟨fun _ => rfl, fun _ => rfl⟩
    · rw [Function.update_of_ne hne]
      refine (h.fifoRun y).trans ⟨nofun, fun hy => absurd (Option.some.inj hy).symm hne⟩
  dequeued := nofun
  masks := by
    intro y hd hy
    rw [h.masks y hd hy]
    exact ⟨fun hor => .inl (hor.resolve_right nofun), fun hor => .inl (hor.resolve_right nofun)⟩
  log := h.log

/-- From one place to another with the XOP in hand. -/
theorem NodeInv.move {pc pc' : Pc} {log' : List Mark} (h : NodeInv xops i ⟨xopq, pc⟩ fifoRun log)
    (hheld : pc.holds = some x) (hholds : pc'.holds = some x)
    (hlog : ∃ xs, log' = serial xs ++ pc'.alone ∧ xs.Pairwise (· < ·) ∧
      (∀ x ∈ xs, x < xops.length) ∧ ∀ x ∈ xs, ∀ y ∈ pc'.pending xopq, x < y) :
    NodeInv xops i ⟨xopq, pc'⟩ fifoRun log' where
  sorted := h.sorted
  bound := by
    rintro y (hy | hy)
    · exact h.bound y (.inl hy)
    · dsimp only at hy
      rw [hy] at hholds
      cases hholds
  holds := by
    intro y hy
    exact h.holds y (hheld.trans (hholds.symm.trans hy))
  fifoRun := by
    intro y
    rw [h.fifoRun y]
    dsimp only
    rw [hheld, hholds]
  dequeued := by
    intro y hy
    dsimp only at hy
    rw [hy] at hholds
    cases hholds
  masks := by
    intro y hd hy
    have hnot : ∀ p : Pc, p.holds = some x → p ≠ .dequeued y := by
      rintro p hp rfl
      cases hp
    rw [h.masks y hd hy]
    exact ⟨fun hor => .inl (hor.resolve_right (hnot pc hheld)),
      fun hor => .inl (hor.resolve_right (hnot pc' hholds))⟩
  log := hlog

theorem serial_append (xs ys : List Nat) : serial (xs ++ ys) = serial xs ++ serial ys :=
  List.flatMap_append

/-- Before it is executed, an XOP comes after all that were. -/
theorem NodeInv.storage (h : NodeInv xops i ⟨xopq, .taken x⟩ fifoRun log) :
    NodeInv xops i ⟨xopq, .storage x⟩ fifoRun (log ++ [.start x]) := by
  obtain ⟨xs, hlog, hsorted, hxs, hbefore⟩ := h.log
  refine h.move rfl rfl ⟨xs, ?_, hsorted, hxs, hbefore⟩
  rw [hlog]
  exact congrArg (· ++ [Mark.start x]) (List.append_nil _)

/-- The XOPs after the one in hand. -/
theorem NodeInv.tail_lt {pc : Pc} (h : NodeInv xops i ⟨xopq, pc⟩ fifoRun log)
    (hx : pc.holds = some x) : x ∈ xopq ∧ ∀ y ∈ xopq.tail, x < y := by
  have hhead := h.holds x hx
  have hsorted := h.sorted
  cases xopq with
  | nil => cases hhead
  | cons z q =>
      cases hhead
      exact ⟨List.mem_cons_self, fun y hy => List.rel_of_pairwise_cons hsorted hy⟩

theorem NodeInv.aborted (h : NodeInv xops i ⟨xopq, .taken x⟩ fifoRun log) :
    NodeInv xops i ⟨xopq, .done x⟩ fifoRun log := by
  obtain ⟨xs, hlog, hsorted, hxs, hbefore⟩ := h.log
  exact h.move rfl rfl
    ⟨xs, hlog, hsorted, hxs, fun y hy z hz => hbefore y hy z (List.mem_of_mem_tail hz)⟩

theorem NodeInv.finish (h : NodeInv xops i ⟨xopq, .storage x⟩ fifoRun log) :
    NodeInv xops i ⟨xopq, .done x⟩ fifoRun (log ++ [.finish x]) := by
  obtain ⟨xs, hlog, hsorted, hxs, hbefore⟩ := h.log
  obtain ⟨hmem, htail⟩ := h.tail_lt rfl
  refine h.move rfl rfl ⟨xs ++ [x], ?_, ?_, ?_, ?_⟩
  · rw [hlog, serial_append, List.append_assoc, List.append_assoc]
    rfl
  · refine List.pairwise_append.mpr ⟨hsorted, List.pairwise_singleton _ _, ?_⟩
    intro y hy z hz
    cases List.mem_singleton.mp hz
    exact hbefore y hy x hmem
  · intro y hy
    rcases List.mem_append.mp hy with hy | hy
    · exact hxs y hy
    · cases List.mem_singleton.mp hy
      exact h.bound x (.inl hmem)
  · intro y hy z hz
    rcases List.mem_append.mp hy with hy | hy
    · exact hbefore y hy z (List.mem_of_mem_tail hz)
    · cases List.mem_singleton.mp hy
      exact htail z hz

theorem NodeInv.dequeue (h : NodeInv xops i ⟨xopq, .done x⟩ fifoRun log) :
    NodeInv xops i ⟨xopq.erase x, .dequeued x⟩ (Function.update fifoRun x false) log := by
  have hhead := h.holds x rfl
  have hsorted := h.sorted
  cases xopq with
  | nil => cases hhead
  | cons z q =>
  cases hhead
  rw [List.erase_cons_head]
  have hnot : x ∉ q := fun hmem => absurd (List.rel_of_pairwise_cons hsorted hmem) (Nat.lt_irrefl x)
  refine ⟨hsorted.of_cons, ?_, by rintro _ ⟨⟩, ?_, ?_, ?_, h.log⟩
  · rintro y (hy | hy)
    · exact h.bound y (.inl (List.mem_cons_of_mem x hy))
    · cases hy
      exact h.bound x (.inl List.mem_cons_self)
  · intro y
    rcases eq_or_ne y x with rfl | hne
    · rw [Function.update_self]
      exact ⟨by rintro ⟨⟩, by rintro ⟨⟩⟩
    · rw [Function.update_of_ne hne]
      exact (h.fifoRun y).trans ⟨fun hy => absurd (Option.some.inj hy).symm hne, by rintro ⟨⟩⟩
  · intro y hy
    cases hy
    exact hnot
  · intro y hd hy
    rw [h.masks y hd hy, List.mem_cons]
    constructor
    · rintro ((rfl | hmem) | hpc)
      · exact .inr rfl
      · exact .inl hmem
      · cases hpc
    · rintro (hmem | hpc)
      · exact .inl (.inr hmem)
      · cases hpc
        exact .inl (.inl rfl)

/-- The bit of the node goes. -/
theorem NodeInv.retire (h : NodeInv xops i ⟨xopq, .dequeued x⟩ fifoRun log)
    (hnodup : ∀ h ∈ xops, h.runMask.Nodup) :
    NodeInv (xops.modify x fun h => { h with runMask := h.runMask.erase i }) i ⟨xopq, .next⟩
      fifoRun log := by
  have hlen : (xops.modify x fun h => { h with runMask := h.runMask.erase i }).length =
      xops.length := List.length_modify _ _ _
  refine ⟨h.sorted, ?_, nofun, h.fifoRun, nofun, ?_, ?_⟩
  · rintro y (hy | hy)
    · rw [hlen]
      exact h.bound y (.inl hy)
    · cases hy
  · intro y hd hy
    rw [List.getElem?_modify] at hy
    obtain ⟨h₀, hy₀, rfl⟩ := Option.map_eq_some_iff.mp hy
    have hmask := h.masks y h₀ hy₀
    rcases eq_or_ne x y with rfl | hne
    · rw [if_pos rfl]
      have hno : i ∉ h₀.runMask.erase i :=
        fun hmem => ((hnodup h₀ (List.mem_of_getElem? hy₀)).mem_erase_iff.mp hmem).1 rfl
      exact ⟨fun hmem => absurd hmem hno, fun hor => absurd (hor.resolve_right nofun) (h.dequeued x rfl)⟩
    · rw [if_neg hne]
      dsimp only [id]
      rw [hmask]
      refine ⟨fun hor => .inl (hor.resolve_right fun hpc => ?_),
        fun hor => .inl (hor.resolve_right nofun)⟩
      cases hpc
      exact hne rfl
  · rw [hlen]
    exact h.log

end Node

/-! ## Steps of the system -/

section System

variable {cfg : Config} {s t : State} {i j x : Nat}

@[simp] theorem setWorker_self (s : State) (i j : Nat) (w : Worker) :
    (s.setWorker i j w).workers i j = w := by
  dsimp only [State.setWorker]
  rw [Function.update_self, Function.update_self]

theorem setWorker_of_ne (s : State) {i j i' j' : Nat} (w : Worker) (h : i' ≠ i ∨ j' ≠ j) :
    (s.setWorker i j w).workers i' j' = s.workers i' j' := by
  dsimp only [State.setWorker]
  rcases eq_or_ne i' i with rfl | hi
  · rw [Function.update_self, Function.update_of_ne (h.resolve_left fun hne => hne rfl)]
  · rw [Function.update_of_ne hi]

/-- Only the first worker of a node ever has an XOP in hand. -/
theorem Inv.group (h : Inv s) (hpc : (s.workers i j).pc ≠ .next) : j = 0 := by
  rcases eq_or_ne j 0 with hj | hj
  · exact hj
  · exact absurd (by rw [h.idle i j hj]) hpc

theorem Inv.at (h : Inv s) {pc : Pc} (hpc : (s.workers i 0).pc = pc) :
    NodeInv s.xops i ⟨(s.workers i 0).xopq, pc⟩ (s.fifoRun i) (s.log i) := by
  subst hpc
  exact h.node i

/-- A step of one node. -/
theorem Inv.local (h : Inv s) (i : Nat) (hinodes : t.inodes = s.inodes) (hxops : t.xops = s.xops)
    (hworkers : ∀ i' j, i' ≠ i ∨ j ≠ 0 → t.workers i' j = s.workers i' j)
    (hrun : ∀ i', i' ≠ i → t.fifoRun i' = s.fifoRun i')
    (hlog : ∀ i', i' ≠ i → t.log i' = s.log i')
    (hnode : NodeInv s.xops i (t.workers i 0) (t.fifoRun i) (t.log i)) : Inv t where
  ihash := by
    rw [hinodes]
    exact h.ihash
  idle := by
    intro i' j hj
    rw [hworkers i' j (.inr hj)]
    exact h.idle i' j hj
  node := by
    intro i'
    rw [hxops]
    rcases eq_or_ne i' i with rfl | hne
    · exact hnode
    · rw [hworkers i' 0 (.inl hne), hrun i' hne, hlog i' hne]
      exact h.node i'
  nodup := by
    rw [hxops]
    exact h.nodup

/-- All XOPs go to the first group. -/
theorem start_inv (h : Inv s) {r : Request} {nchains : Nat} {notidx : Option Nat}
    {chain : Nat → Bool} (hstep : start cfg s r nchains notidx chain = some t) : Inv t := by
  obtain ⟨ip, hip, hstep⟩ := Option.bind_eq_some_iff.mp hstep
  split at hstep
  · cases hstep
  · cases hstep
    have hzero : ip.ihash.toNat % cfg.nthreads = 0 := by
      rw [h.ihash r.ip1 ip hip]
      exact Nat.zero_mod _
    refine ⟨h.ihash, ?_, ?_, ?_⟩
    · intro i j hj
      dsimp only
      rw [if_neg fun hc => hj (hc.2.trans hzero)]
      exact h.idle i j hj
    · intro i
      have hnode := (h.node i).start ⟨r, true, targets cfg r nchains notidx chain,
        targets cfg r nchains notidx chain⟩
      dsimp only at hnode ⊢
      rw [hzero]
      by_cases hi : i ∈ targets cfg r nchains notidx chain
      · rw [if_pos hi] at hnode
        rw [if_pos ⟨hi, rfl⟩]
        exact hnode
      · rw [if_neg hi] at hnode
        rw [if_neg fun hc => hi hc.1]
        exact hnode
    · intro hd hmem
      rcases List.mem_append.mp hmem with hmem | hmem
      · exact h.nodup hd hmem
      · cases List.mem_singleton.mp hmem
        exact List.nodup_range.filter _

theorem next_inv (h : Inv s) (hstep : step cfg s (.next i j) = some t) : Inv t := by
  rw [step] at hstep
  split at hstep
  · next hpc =>
      rcases eq_or_ne j 0 with rfl | hj
      · have hnode := h.at hpc
        have hfree : ∀ x ∈ (s.workers i 0).xopq, s.fifoRun i x = false := by
          intro x _
          rw [Bool.eq_false_iff]
          exact fun hrun => nomatch (hnode.fifoRun x).mp hrun
        rw [nextXop_eq hfree] at hstep
        split at hstep
        · next x hx =>
            cases hstep
            refine h.local i rfl rfl (fun i' j' hne => setWorker_of_ne _ _ hne)
              (fun i' hne => Function.update_of_ne hne _ _) (fun _ _ => rfl) ?_
            rw [State.setPc, setWorker_self]
            have hrun : (State.setWorker (s.setRun i x true) i 0
                { (s.setRun i x true).workers i 0 with pc := .taken x }).fifoRun i =
                Function.update (s.fifoRun i) x true := Function.update_self _ _ _
            rw [hrun]
            exact hnode.next hx
        · cases hstep
          exact h
      · have hnone : nextXop cfg s i j = none := by
          rw [nextXop, h.idle i j hj]
          rfl
        rw [hnone] at hstep
        cases hstep
        exact h
  · cases hstep

theorem call_inv (h : Inv s) (hstep : step cfg s (.call i j) = some t) : Inv t := by
  rw [step] at hstep
  split at hstep
  · next x hpc =>
      obtain rfl : j = 0 := h.group (by rw [hpc]; exact nofun)
      have hnode := h.at hpc
      split at hstep
      · split at hstep
        · cases hstep
          refine h.local i rfl rfl (fun i' j' hne => setWorker_of_ne _ _ hne) (fun _ _ => rfl)
            (fun i' hne => Function.update_of_ne hne _ _) ?_
          rw [State.setPc, setWorker_self]
          have hlog : (State.setWorker (s.mark i (.start x)) i 0
              { (s.mark i (.start x)).workers i 0 with pc := .storage x }).log i =
              s.log i ++ [.start x] := Function.update_self _ _ _
          rw [hlog]
          exact hnode.storage
        · cases hstep
          refine h.local i rfl rfl (fun i' j' hne => setWorker_of_ne _ _ hne) (fun _ _ => rfl)
            (fun _ _ => rfl) ?_
          rw [State.setPc, setWorker_self]
          exact hnode.aborted
      · cases hstep
  · cases hstep

theorem storageDone_inv (h : Inv s) (hstep : step cfg s (.storageDone i j) = some t) : Inv t := by
  rw [step] at hstep
  split at hstep
  · next x hpc =>
      obtain rfl : j = 0 := h.group (by rw [hpc]; exact nofun)
      have hnode := h.at hpc
      cases hstep
      refine h.local i rfl rfl (fun i' j' hne => setWorker_of_ne _ _ hne) (fun _ _ => rfl)
        (fun i' hne => Function.update_of_ne hne _ _) ?_
      rw [State.setPc, setWorker_self]
      have hlog : (State.setWorker (s.mark i (.finish x)) i 0
          { (s.mark i (.finish x)).workers i 0 with pc := .done x }).log i =
          s.log i ++ [.finish x] := Function.update_self _ _ _
      rw [hlog]
      exact hnode.finish
  · cases hstep

theorem dequeue_inv (h : Inv s) (hstep : step cfg s (.dequeue i j) = some t) : Inv t := by
  rw [step] at hstep
  split at hstep
  · next x hpc =>
      obtain rfl : j = 0 := h.group (by rw [hpc]; exact nofun)
      have hnode := h.at hpc
      cases hstep
      refine h.local i rfl rfl (fun i' j' hne => setWorker_of_ne _ _ hne)
        (fun i' hne => Function.update_of_ne hne _ _) (fun _ _ => rfl) ?_
      rw [setWorker_self]
      have hrun : (State.setWorker (s.setRun i x false) i 0
          ⟨(s.workers i 0).xopq.erase x, .dequeued x⟩).fifoRun i =
          Function.update (s.fifoRun i) x false := Function.update_self _ _ _
      rw [hrun]
      exact hnode.dequeue
  · cases hstep

/-- What a change of the masks leaves in place. -/
theorem modify_nodup {f : Head → Head} (h : Inv s)
    (hf : ∀ hd : Head, hd.runMask.Nodup → (f hd).runMask.Nodup) :
    ∀ hd ∈ s.xops.modify x f, hd.runMask.Nodup := by
  intro hd hmem
  obtain ⟨y, hy⟩ := List.mem_iff_getElem?.mp hmem
  rw [List.getElem?_modify] at hy
  obtain ⟨h₀, hy₀, rfl⟩ := Option.map_eq_some_iff.mp hy
  have hnodup := h.nodup h₀ (List.mem_of_getElem? hy₀)
  split
  · exact hf h₀ hnodup
  · exact hnodup

theorem retire_inv (h : Inv s) (hstep : step cfg s (.retire i j) = some t) : Inv t := by
  rw [step] at hstep
  split at hstep
  · next x hpc =>
      obtain rfl : j = 0 := h.group (by rw [hpc]; exact nofun)
      have hnode := h.at hpc
      split at hstep
      · split at hstep
        · cases hstep
          refine ⟨h.ihash, ?_, ?_, modify_nodup h fun hd hn => hn.erase i⟩
          · intro i' j hj
            rw [State.setPc, setWorker_of_ne _ _ (.inr hj)]
            exact h.idle i' j hj
          · intro i'
            rw [State.setPc]
            rcases eq_or_ne i' i with rfl | hne
            · rw [setWorker_self]
              exact hnode.retire h.nodup
            · rw [setWorker_of_ne _ _ (.inl hne)]
              refine (h.node i').congr (List.length_modify _ _ _) fun y hd hy => ?_
              rw [State.setWorker, State.setHead, List.getElem?_modify] at hy
              obtain ⟨h₀, hy₀, rfl⟩ := Option.map_eq_some_iff.mp hy
              refine ⟨h₀, hy₀, ?_⟩
              split
              · exact List.mem_erase_of_ne hne
              · exact Iff.rfl
        · cases hstep
      · cases hstep
  · cases hstep

theorem retireVop_inv (h : Inv s) (hstep : step cfg s (.retireVop x) = some t) : Inv t := by
  rw [step] at hstep
  split at hstep
  · split at hstep
    · cases hstep
      refine ⟨h.ihash, h.idle, fun i => ?_, modify_nodup h fun hd hn => hn⟩
      refine (h.node i).congr (List.length_modify _ _ _) fun y hd hy => ?_
      rw [State.setHead, List.getElem?_modify] at hy
      obtain ⟨h₀, hy₀, rfl⟩ := Option.map_eq_some_iff.mp hy
      refine ⟨h₀, hy₀, ?_⟩
      split
      · exact Iff.rfl
      · exact Iff.rfl
    · cases hstep
  · cases hstep

theorem step_inv (a : Event) (h : Inv s) (hstep : step cfg s a = some t) : Inv t := by
  cases a with
  | inodeGet p =>
      rw [step] at hstep
      split at hstep
      · cases hstep
      · cases hstep
        refine ⟨fun q ip hq => ?_, h.idle, h.node, h.nodup⟩
        dsimp only at hq
        rcases eq_or_ne q p with rfl | hne
        · rw [Function.update_self] at hq
          cases hq
          rfl
        · rw [Function.update_of_ne hne] at hq
          exact h.ihash q ip hq
  | start => exact start_inv h hstep
  | next => exact next_inv h hstep
  | call => exact call_inv h hstep
  | storageDone => exact storageDone_inv h hstep
  | dequeue => exact dequeue_inv h hstep
  | retire => exact retire_inv h hstep
  | retireVop => exact retireVop_inv h hstep

end System

/-! ## Every run -/

theorem starts_append (l l' : List Mark) : starts (l ++ l') = starts l ++ starts l' :=
  List.filterMap_append

theorem serial_cons (x : Nat) (xs : List Nat) :
    serial (x :: xs) = .start x :: .finish x :: serial xs := rfl

theorem starts_serial (xs : List Nat) : starts (serial xs) = xs := by
  induction xs with
  | nil => rfl
  | cons x xs ih => exact congrArg (x :: ·) ih

theorem finish_mem_serial {xs : List Nat} {x : Nat} (h : x ∈ xs) : .finish x ∈ serial xs :=
  List.mem_flatMap.mpr ⟨x, h, List.mem_cons_of_mem _ (List.mem_singleton_self _)⟩

theorem start_mem_serial {xs : List Nat} {x : Nat} (h : .start x ∈ serial xs) : x ∈ xs := by
  obtain ⟨y, hy, hmem⟩ := List.mem_flatMap.mp h
  rcases List.mem_cons.mp hmem with hmem | hmem
  · cases hmem
    exact hy
  · cases List.mem_singleton.mp hmem

/-- A start in a serial log comes after whole executions of smaller numbers. -/
theorem serial_split {xs : List Nat} (hsorted : xs.Pairwise (· < ·)) {before after : List Mark}
    {x y : Nat} (h : serial xs = before ++ .start y :: after) (hx : .start x ∈ before) :
    x < y ∧ .finish x ∈ before := by
  induction xs generalizing before with
  | nil =>
      cases before with
      | nil => cases hx
      | cons m before => cases h
  | cons z xs ih =>
      rw [serial_cons] at h
      match before, h, hx with
      | [m], h, _ =>
          injection h with _ h
          injection h with hm _
          cases hm
      | m :: m' :: before, h, hx =>
          injection h with hm h
          injection h with hm' h
          subst hm hm'
          have hy : y ∈ xs := by
            refine start_mem_serial ?_
            rw [h]
            exact List.mem_append_right _ List.mem_cons_self
          rcases List.mem_cons.mp hx with hx | hx
          · cases hx
            exact ⟨List.rel_of_pairwise_cons hsorted hy, .tail _ (.head _)⟩
          rcases List.mem_cons.mp hx with hx | hx
          · cases hx
          · obtain ⟨hlt, hmem⟩ := ih hsorted.of_cons h hx
            exact ⟨hlt, .tail _ (.tail _ hmem)⟩

theorem Inv.ordered {s : State} (h : Inv s) : Ordered s where
  apart := by
    intro i j j' x y hx hy _
    obtain rfl : j = 0 := h.group (by rw [hx]; exact nofun)
    obtain rfl : j' = 0 := h.group (by rw [hy]; exact nofun)
    rw [hx] at hy
    cases hy
    exact ⟨rfl, rfl⟩
  inOrder := by
    intro i before after x y hlog hx _
    obtain ⟨xs, hxs, hsorted, -, hpending⟩ := (h.node i).log
    rw [hxs] at hlog
    cases hpc : (s.workers i 0).pc with
    | storage z =>
        -- the execution that goes on is the last of the log
        have hz : ∀ x ∈ xs, x < z := by
          have hmem := ((h.at hpc).tail_lt rfl).1
          intro x hx
          refine hpending x hx z ?_
          rw [hpc]
          exact hmem
        rw [hpc] at hlog
        rcases List.append_eq_append_iff.mp hlog with ⟨more, hb, hrest⟩ | ⟨more, hserial, hrest⟩
        · cases more with
          | nil =>
              rw [List.append_nil] at hb
              cases hrest
              rw [hb] at hx ⊢
              have hmem := start_mem_serial hx
              exact ⟨hz x hmem, finish_mem_serial hmem⟩
          | cons m more =>
              obtain ⟨-, hnil⟩ := List.cons.inj hrest
              exact absurd hnil.symm (by simp)
        · cases more with
          | nil =>
              rw [List.append_nil] at hserial
              cases hrest
              rw [← hserial] at hx ⊢
              have hmem := start_mem_serial hx
              exact ⟨hz x hmem, finish_mem_serial hmem⟩
          | cons m more =>
              obtain ⟨rfl, -⟩ := List.cons.inj hrest
              exact serial_split hsorted hserial hx
    | _ =>
        rw [hpc] at hlog
        exact serial_split hsorted ((List.append_nil _).symm.trans hlog) hx
  once := by
    intro i
    obtain ⟨xs, hxs, hsorted, -, hpending⟩ := (h.node i).log
    have hnodup : xs.Nodup := hsorted.imp Nat.ne_of_lt
    rw [hxs, starts_append, starts_serial]
    cases hpc : (s.workers i 0).pc with
    | storage z =>
        have hmem := ((h.at hpc).tail_lt rfl).1
        refine List.nodup_append.mpr ⟨hnodup, List.pairwise_singleton _ z, ?_⟩
        intro x hx y hy
        cases List.mem_singleton.mp hy
        refine Nat.ne_of_lt (hpending x hx z ?_)
        rw [hpc]
        exact hmem
    | _ =>
        refine (congrArg List.Nodup (List.append_nil xs)).mpr hnodup
  gone := by
    intro i j x hd hx hmask hmem
    rcases eq_or_ne j 0 with rfl | hj
    · exact hmask (((h.node i).masks x hd hx).mpr (.inl hmem))
    · rw [h.idle i j hj] at hmem
      cases hmem

/-- In every run, on each node, XOPs that name a common inode are executed one after the other
and in the order of their start, none twice, and none stays in a queue after it was retired. -/
theorem run_ordered (cfg : Config) (as : List Event) (s : State)
    (hrun : exec (step cfg) init as = some s) : Ordered s :=
  (exec_invariant' (fun _ a _ h hstep => step_inv a h hstep) init_inv hrun).ordered

/-- Two groups on one node. -/
def twoGroups : Config := ⟨2, fun i j => BitVec.ofNat 64 (0xd000 + 0x400 * i + 0x80 * j), 1024#64,
  fun _ => true⟩

def renameRequest : Request := ⟨0x8400#64, some 0x8000#64, none, none, true, false⟩

def writeRequest : Request := ⟨0x8000#64, none, none, none, true, false⟩

/-- A rename of a file and then a write to it, of which the first is only begun. -/
def renameRun : List Event :=
  [.inodeGet 0x8000#64, .inodeGet 0x8400#64, .start renameRequest 1 none fun _ => true,
    .start writeRequest 1 none fun _ => true, .next 0 1, .next 0 0, .call 0 0, .storageDone 0 0,
    .dequeue 0 0, .next 0 1, .retire 0 0, .next 0 0, .call 0 0]

theorem renameRun_ordered : ∃ s, exec (step twoGroups) init renameRun = some s ∧
    s.log 0 = [.start 0, .finish 0, .start 1] ∧ Ordered s := by
  have hlog : (exec (step twoGroups) init renameRun).map (fun s => s.log 0) =
      some [.start 0, .finish 0, .start 1] := by decide
  obtain ⟨s, hs, hlog⟩ := Option.map_eq_some_iff.mp hlog
  exact ⟨s, hs, hlog, run_ordered twoGroups renameRun s hs⟩

end Hammer2.Xop.Order
