/-
# `Hammer2.Xop.Fifo` — the result queues of a cluster operation

Each backend node `i` of a cluster operation feeds its results into
`collect[i]`, the frontend takes them out in `hammer2_xop_collect` and what is
left is drained in `hammer2_xop_retire`.

    fifoAlloc    hammer2_xop_fifo_alloc
    feed         hammer2_xop_feed
    advance      the read of one element in hammer2_xop_collect
    drain        the loop over one fifo in hammer2_xop_retire

One `fifoSize` serves all nodes, and with it the index mask; a feed that finds
its fifo full doubles it and reallocates its *own* arrays only.  An access
outside an array is the outcome `fault`.

The ring of a node survives a doubling iff each of its positions in flight
stays in its cell (`FeedOk`); every run whose feeds all meet that delivers what
was fed, in order and in bounds (`run_delivered`).  A consumer that is one
element ahead when a fifo grows already loses an entry (`growth_loses_entry`).
-/
import Hammer2.Lib.Machine
import Hammer2.Lib.Ring
import Mathlib.Logic.Function.Basic

namespace Hammer2.Xop

open Machine Ring

/-! ## The queues -/

/-- `HAMMER2_XOPFIFO`, the size every fifo starts with. -/
abbrev xopFifo : Nat := 16

/-- A chain as the queues see it: which chain it is and its `error` field. -/
structure FedChain where
  id : Nat
  error : Nat
deriving DecidableEq

/-- A result: a chain or `NULL`, and an error. -/
abbrev FedItem := Option FedChain × Nat

/-- `hammer2_xop_fifo`: the arrays `array` and `errors`, always allocated
together, as one list of pairs, and the read and write positions. -/
structure Fifo where
  cells : List FedItem
  ri : Nat
  wi : Nat
deriving DecidableEq

/-- The fields of `hammer2_xop_head` the queues use.  `vop` is the frontend's
bit of `run_mask`. -/
structure XopHead where
  nchains : Nat
  fifoSize : Nat
  collect : Nat → Fifo
  vop : Bool

/-- `fifo_mask(xop)` applied to a position. -/
def XopHead.slot (xop : XopHead) (k : Nat) : Nat := k &&& (xop.fifoSize - 1)

/-- The fifo of node `i` replaced. -/
def XopHead.setFifo (xop : XopHead) (i : Nat) (fifo : Fifo) : XopHead :=
  { xop with collect := Function.update xop.collect i fifo }

@[simp] theorem XopHead.setFifo_fifoSize (xop : XopHead) (i : Nat) (fifo : Fifo) :
    (xop.setFifo i fifo).fifoSize = xop.fifoSize := rfl

@[simp] theorem XopHead.setFifo_nchains (xop : XopHead) (i : Nat) (fifo : Fifo) :
    (xop.setFifo i fifo).nchains = xop.nchains := rfl

@[simp] theorem XopHead.setFifo_vop (xop : XopHead) (i : Nat) (fifo : Fifo) :
    (xop.setFifo i fifo).vop = xop.vop := rfl

@[simp] theorem XopHead.setFifo_self (xop : XopHead) (i : Nat) (fifo : Fifo) :
    (xop.setFifo i fifo).collect i = fifo := Function.update_self ..

theorem XopHead.setFifo_ne (xop : XopHead) {i j : Nat} (fifo : Fifo) (h : j ≠ i) :
    (xop.setFifo i fifo).collect j = xop.collect j := Function.update_of_ne h ..

/-- `hammer2_xop_fifo_alloc`: zeroed arrays of `newNmemb` elements whose first
`oldNmemb` are copied from the old ones; `none` when the copy reads outside. -/
def fifoAlloc (fifo : Fifo) (newNmemb oldNmemb : Nat) : Option Fifo :=
  if oldNmemb ≤ fifo.cells.length then
    some { fifo with
      cells := fifo.cells.take oldNmemb ++ List.replicate (newNmemb - oldNmemb) (none, 0) }
  else none

/-- `hammer2_xop_alloc`: every node gets a fifo of the initial size. -/
def xopAlloc (nchains : Nat) : XopHead where
  nchains := nchains
  fifoSize := xopFifo
  collect _ := ⟨List.replicate xopFifo (none, 0), 0, 0⟩
  vop := true

/-- The `while (fifo->ri == fifo->wi - xop->fifo_size)` loop of a feed.  After
one round the fifo is half full, so two units of fuel are enough
(`growLoop_enough`). -/
def growLoop : Nat → XopHead → Nat → Option XopHead
  | 0, xop, _ => some xop
  | fuel + 1, xop, i =>
      if (xop.collect i).ri + xop.fifoSize = (xop.collect i).wi then
        match fifoAlloc (xop.collect i) (xop.fifoSize * 2) xop.fifoSize with
        | some fifo =>
            growLoop fuel { xop.setFifo i fifo with fifoSize := xop.fifoSize * 2 } i
        | none => none
      else some xop

/-- What a feed can do. -/
inductive Feed where
  | aborted
  | fault
  | fed (xop : XopHead) (item : FedItem)

/-- `hammer2_xop_feed`. -/
def feed (xop : XopHead) (chain : Option FedChain) (clindex error : Nat) : Feed :=
  if xop.vop then
    match growLoop 2 xop clindex with
    | none => .fault
    | some xop =>
        let fifo := xop.collect clindex
        let error := match chain with
          | some c => if error = 0 then c.error else error
          | none => error
        if xop.slot fifo.wi < fifo.cells.length then
          .fed (xop.setFifo clindex { fifo with
              cells := fifo.cells.set (xop.slot fifo.wi) (chain, error)
              wi := fifo.wi + 1 })
            (chain, error)
        else .fault
  else .aborted

/-- What reading one element can do. -/
inductive Advance where
  | empty
  | fault
  | item (xop : XopHead) (item : FedItem)

/-- The read of one element of `collect[i]`. -/
def advance (xop : XopHead) (i : Nat) : Advance :=
  let fifo := xop.collect i
  if fifo.ri ≠ fifo.wi then
    match fifo.cells[xop.slot fifo.ri]? with
    | some item => .item (xop.setFifo i { fifo with ri := fifo.ri + 1 }) item
    | none => .fault
  else .empty

/-- The drain of `collect[i]`: the chains met, `none` on an access outside the
array.  `fuel` bounds the rounds by the elements in flight. -/
def drain : Nat → XopHead → Nat → Option (List (Option FedChain))
  | 0, _, _ => some []
  | fuel + 1, xop, i =>
      match advance xop i with
      | .empty => some []
      | .fault => none
      | .item xop item =>
          match drain fuel xop i with
          | some rest => some (item.1 :: rest)
          | none => none

/-! ## The machine

The state carries, besides the queues, what each node fed and what was taken
from its fifo so far. -/

structure Sys where
  xop : XopHead
  fed : Nat → List FedItem
  taken : Nat → List FedItem
  drained : Nat → List (Option FedChain)
  fault : Bool
  retired : Bool

inductive Event where
  | feed (i : Nat) (chain : Option FedChain) (error : Nat)
  | advance (i : Nat)
  | frontendDone
  | retire

/-- A cluster operation on `n` nodes, just allocated. -/
def init (n : Nat) : Sys where
  xop := xopAlloc n
  fed _ := []
  taken _ := []
  drained _ := []
  fault := false
  retired := false

/-- What draining fifo `i` returns. -/
def drainOf (xop : XopHead) (i : Nat) : Option (List (Option FedChain)) :=
  drain ((xop.collect i).wi - (xop.collect i).ri) xop i

/-- One call, or one read.  The frontend reads while it is attached; the last
one to leave drains every fifo. -/
def step (s : Sys) : Event → Option Sys
  | .feed i chain error =>
      if i < s.xop.nchains ∧ s.retired = false then
        match Xop.feed s.xop chain i error with
        | .aborted => some s
        | .fault => some { s with fault := true }
        | .fed xop item =>
            some { s with xop := xop, fed := Function.update s.fed i (s.fed i ++ [item]) }
      else none
  | .advance i =>
      if i < s.xop.nchains ∧ s.retired = false ∧ s.xop.vop = true then
        match Xop.advance s.xop i with
        | .empty => some s
        | .fault => some { s with fault := true }
        | .item xop item =>
            some { s with xop := xop, taken := Function.update s.taken i (s.taken i ++ [item]) }
      else none
  | .frontendDone =>
      if s.xop.vop = true then some { s with xop := { s.xop with vop := false } } else none
  | .retire =>
      if s.xop.vop = false ∧ s.retired = false then
        some { s with
          drained := fun i => (drainOf s.xop i).getD []
          fault := s.fault || (List.range s.xop.nchains).any (fun i => (drainOf s.xop i).isNone)
          retired := true }
      else none

/-- What was taken from a fifo is what its node fed: a prefix of it while the
operation runs, all of it once the fifo is empty, and together with the drain
the whole sequence of chains; and no access was outside an array. -/
structure Delivered (s : Sys) : Prop where
  inBounds : s.fault = false
  order : ∀ i < s.xop.nchains, s.taken i <+: s.fed i
  complete : ∀ i < s.xop.nchains, (s.xop.collect i).ri = (s.xop.collect i).wi →
    s.taken i = s.fed i
  drainedAll : s.retired = true → ∀ i < s.xop.nchains,
    (s.taken i).map Prod.fst ++ s.drained i = (s.fed i).map Prod.fst

/-- The condition on a feed: when it grows its fifo, the fifo is read up to a
multiple of the new size, and every position in flight of another node stays
in its cell; when it does not, its cell is inside the node's own array. -/
def FeedOk (xop : XopHead) (i : Nat) : Prop :=
  ((xop.collect i).ri + xop.fifoSize = (xop.collect i).wi →
    (xop.collect i).ri % (2 * xop.fifoSize) = 0 ∧
      ∀ j < xop.nchains, j ≠ i → ∀ k < (xop.collect j).wi, (xop.collect j).ri ≤ k →
        k % (2 * xop.fifoSize) = k % xop.fifoSize) ∧
  ((xop.collect i).ri + xop.fifoSize ≠ (xop.collect i).wi →
    (xop.collect i).wi % xop.fifoSize < (xop.collect i).cells.length)

instance (xop : XopHead) (i : Nat) : Decidable (FeedOk xop i) :=
  inferInstanceAs (Decidable (_ ∧ _))

/-- Every feed of an attached operation meets the condition. -/
def Ok (s : Sys) : Event → Prop
  | .feed i _ _ => s.xop.vop = true → FeedOk s.xop i
  | _ => True

instance (s : Sys) : ∀ ev, Decidable (Ok s ev)
  | .feed i _ _ => inferInstanceAs (Decidable (_ → FeedOk s.xop i))
  | .advance _ => .isTrue trivial
  | .frontendDone => .isTrue trivial
  | .retire => .isTrue trivial

/-! ## The invariant -/

/-- What holds of every reachable state: the size is a power of two and each
fifo holds, as a ring of that size, what its node fed and nobody took yet. -/
structure Inv (s : Sys) : Prop where
  pow : ∃ g, s.xop.fifoSize = 2 ^ g
  ring : ∀ i < s.xop.nchains, Holds (s.xop.collect i).cells s.xop.fifoSize (s.fed i)
    (s.xop.collect i).ri (s.xop.collect i).wi
  taken : ∀ i < s.xop.nchains, s.taken i = (s.fed i).take (s.xop.collect i).ri
  noFault : s.fault = false
  drainedAll : s.retired = true → s.xop.vop = false ∧ ∀ i < s.xop.nchains,
    (s.taken i).map Prod.fst ++ s.drained i = (s.fed i).map Prod.fst

theorem XopHead.slot_eq {xop : XopHead} (h : ∃ g, xop.fifoSize = 2 ^ g) (k : Nat) :
    xop.slot k = k % xop.fifoSize := and_mask h

theorem pow_pos_of {n : Nat} (h : ∃ g, n = 2 ^ g) : 0 < n := by
  obtain ⟨g, rfl⟩ := h
  exact Nat.two_pow_pos g

theorem Inv.delivered {s : Sys} (h : Inv s) : Delivered s where
  inBounds := h.noFault
  order i hi := by
    rw [h.taken i hi]
    exact List.take_prefix _ _
  complete i hi heq := by
    rw [h.taken i hi, heq, (h.ring i hi).hi_eq, List.take_length]
  drainedAll hr := (h.drainedAll hr).2

theorem init_inv (n : Nat) : Inv (init n) where
  pow := ⟨4, rfl⟩
  ring _ _ := holds_empty _ _
  taken _ _ := rfl
  noFault := rfl
  drainedAll h := by cases h

/-! ## Growth -/

/-- One round of the loop, when the fifo is full. -/
theorem growLoop_full {xop : XopHead} {i n : Nat} {fifo : Fifo} (hpos : 0 < xop.fifoSize)
    (hfull : (xop.collect i).ri + xop.fifoSize = (xop.collect i).wi)
    (halloc : fifoAlloc (xop.collect i) (xop.fifoSize * 2) xop.fifoSize = some fifo) :
    growLoop (n + 2) xop i =
      some { xop.setFifo i fifo with fifoSize := xop.fifoSize * 2 } := by
  have hpos' : fifo.ri = (xop.collect i).ri ∧ fifo.wi = (xop.collect i).wi := by
    unfold fifoAlloc at halloc
    split at halloc
    · obtain rfl := Option.some.inj halloc
      exact ⟨rfl, rfl⟩
    · cases halloc
  have hstop : ¬ fifo.ri + xop.fifoSize * 2 = fifo.wi := by
    rw [hpos'.1, hpos'.2]
    omega
  rw [growLoop, if_pos hfull, halloc]
  show growLoop (n + 1) _ i = _
  rw [growLoop]
  exact if_neg (by rwa [show ({ xop.setFifo i fifo with
    fifoSize := xop.fifoSize * 2 } : XopHead).collect i = fifo from xop.setFifo_self i fifo])

/-- **Two rounds are enough**: with more fuel the loop does the same. -/
theorem growLoop_enough {xop : XopHead} {i n : Nat} (hpos : 0 < xop.fifoSize) :
    growLoop (n + 2) xop i = growLoop 2 xop i := by
  by_cases hfull : (xop.collect i).ri + xop.fifoSize = (xop.collect i).wi
  · cases halloc : fifoAlloc (xop.collect i) (xop.fifoSize * 2) xop.fifoSize with
    | some fifo => rw [growLoop_full hpos hfull halloc, growLoop_full hpos hfull halloc]
    | none => simp only [growLoop, if_pos hfull, halloc]
  · simp only [growLoop, if_neg hfull]

/-- **Growth keeps the rings**, under the condition: the new size holds every
position in flight of every node, and the growing node has room. -/
theorem growLoop_spec {s : Sys} {i : Nat} (h : Inv s) (hi : i < s.xop.nchains)
    (hok : FeedOk s.xop i) :
    ∃ xop, growLoop 2 s.xop i = some xop ∧ xop.nchains = s.xop.nchains ∧ xop.vop = s.xop.vop ∧
      (∃ g, xop.fifoSize = 2 ^ g) ∧
      (∀ j < s.xop.nchains, Holds (xop.collect j).cells xop.fifoSize (s.fed j)
        (xop.collect j).ri (xop.collect j).wi ∧ (xop.collect j).ri = (s.xop.collect j).ri) ∧
      (xop.collect i).wi < (xop.collect i).ri + xop.fifoSize ∧
      (xop.collect i).wi % xop.fifoSize < (xop.collect i).cells.length := by
  have hpos := pow_pos_of h.pow
  have hring := h.ring i hi
  by_cases hfull : (s.xop.collect i).ri + s.xop.fifoSize = (s.xop.collect i).wi
  · obtain ⟨hal, hother⟩ := hok.1 hfull
    have hlen := hring.full_length hfull
    have halloc : fifoAlloc (s.xop.collect i) (s.xop.fifoSize * 2) s.xop.fifoSize =
        some { s.xop.collect i with
          cells := (s.xop.collect i).cells.take s.xop.fifoSize ++
            List.replicate (s.xop.fifoSize * 2 - s.xop.fifoSize) (none, 0) } := if_pos hlen
    have hnew : ∀ cell : List FedItem, cell = (s.xop.collect i).cells.take s.xop.fifoSize ++
        List.replicate (s.xop.fifoSize * 2 - s.xop.fifoSize) (none, 0) →
        cell.length = s.xop.fifoSize * 2 := by
      rintro cell rfl
      rw [List.length_append, List.length_take, List.length_replicate, Nat.min_eq_left hlen]
      omega
    refine ⟨_, growLoop_full hpos hfull halloc, rfl, rfl, ?_, fun j hj => ?_, ?_, ?_⟩
    · obtain ⟨g, hg⟩ := h.pow
      exact ⟨g + 1, by rw [hg, Nat.pow_succ]⟩
    · by_cases hji : j = i
      · subst hji
        simp only [XopHead.setFifo_self, and_true]
        refine hring.resize (by have := hring.room; omega) fun k hk hlt => ?_
        -- The copied half is where the positions in flight are.
        have hmod := mod_double_of_aligned hpos hal hk (by omega)
        rw [Nat.mul_comm 2] at hmod
        have hks := Nat.mod_lt k hpos
        rw [hmod, List.getElem?_append_left (by rw [List.length_take, Nat.min_eq_left hlen]; exact hks),
          List.getElem?_take_of_lt hks]
      · simp only [XopHead.setFifo_ne _ _ hji, and_true]
        have hr := h.ring j hj
        refine hr.resize (by have := hr.room; omega) fun k hk hlt => ?_
        rw [Nat.mul_comm, hother j hj hji k hlt hk]
    · simp only [XopHead.setFifo_self]
      omega
    · simp only [XopHead.setFifo_self]
      rw [hnew _ rfl]
      exact Nat.mod_lt _ (by omega)
  · refine ⟨s.xop, by simp only [growLoop, if_neg hfull], rfl, rfl, h.pow,
      fun j hj => ⟨h.ring j hj, rfl⟩, ?_, hok.2 hfull⟩
    have := hring.room
    omega

/-! ## One step of each kind -/

theorem feed_inv {s : Sys} {i : Nat} (chain : Option FedChain) (error : Nat) (h : Inv s)
    (hi : i < s.xop.nchains) (hret : s.retired = false)
    (hok : s.xop.vop = true → FeedOk s.xop i) :
    match Xop.feed s.xop chain i error with
    | .aborted => True
    | .fault => False
    | .fed xop item =>
        Inv { s with xop := xop, fed := Function.update s.fed i (s.fed i ++ [item]) } := by
  unfold Xop.feed
  by_cases hvop : s.xop.vop = true
  · obtain ⟨xop, hgrow, hn, hv, hpow, hring, hroom, hidx⟩ := growLoop_spec h hi (hok hvop)
    rw [if_pos hvop, hgrow]
    simp only [XopHead.slot_eq hpow]
    rw [if_pos hidx]
    refine ⟨hpow, fun j hj => ?_, fun j hj => ?_, h.noFault, fun hr => ?_⟩
    · have hj : j < s.xop.nchains := hn ▸ hj
      by_cases hji : j = i
      · subst hji
        simp only [XopHead.setFifo_self, XopHead.setFifo_fifoSize, Function.update_self]
        exact (hring j hi).1.push _ hroom hidx
      · simp only [XopHead.setFifo_ne _ _ hji, XopHead.setFifo_fifoSize,
          Function.update_of_ne hji]
        exact (hring j hj).1
    · have hj : j < s.xop.nchains := hn ▸ hj
      obtain ⟨hr, hri⟩ := hring j hj
      have htk := h.taken j hj
      rw [← hri] at htk
      by_cases hji : j = i
      · subst hji
        simp only [XopHead.setFifo_self, Function.update_self]
        rw [List.take_append_of_le_length (by rw [← hr.hi_eq]; exact hr.le), htk]
      · simp only [XopHead.setFifo_ne _ _ hji, Function.update_of_ne hji, htk]
    · exact absurd (show s.retired = true from hr) (by rw [hret]; decide)
  · rw [if_neg hvop]
    trivial

/-- Reading the oldest element of a ring returns what was fed there. -/
theorem advance_spec {xop : XopHead} {seq : List FedItem} {i : Nat}
    (hpow : ∃ g, xop.fifoSize = 2 ^ g)
    (hr : Holds (xop.collect i).cells xop.fifoSize seq (xop.collect i).ri (xop.collect i).wi) :
    match advance xop i with
    | .empty => (xop.collect i).ri = (xop.collect i).wi
    | .fault => False
    | .item xop' item => seq[(xop.collect i).ri]? = some item ∧
        xop' = xop.setFifo i { xop.collect i with ri := (xop.collect i).ri + 1 } ∧
        Holds (xop.collect i).cells xop.fifoSize seq ((xop.collect i).ri + 1)
          (xop.collect i).wi := by
  unfold advance
  simp only [XopHead.slot_eq hpow]
  by_cases hne : (xop.collect i).ri ≠ (xop.collect i).wi
  · rw [if_pos hne]
    have hlt : (xop.collect i).ri < (xop.collect i).wi := Nat.lt_of_le_of_ne hr.le hne
    obtain ⟨hcell, hrest⟩ := hr.pop hlt
    have hin : (xop.collect i).ri < seq.length := by rw [← hr.hi_eq]; exact hlt
    rw [hcell, List.getElem?_eq_getElem hin]
    exact ⟨rfl, rfl, hrest⟩
  · rw [if_neg hne]
    exact Decidable.not_not.mp hne

/-- **The drain** returns the chains nobody took. -/
theorem drain_spec (seq : List FedItem) (i : Nat) : ∀ (fuel : Nat) (xop : XopHead),
    (∃ g, xop.fifoSize = 2 ^ g) →
    Holds (xop.collect i).cells xop.fifoSize seq (xop.collect i).ri (xop.collect i).wi →
    (xop.collect i).wi - (xop.collect i).ri ≤ fuel →
    drain fuel xop i = some ((seq.drop (xop.collect i).ri).map Prod.fst)
  | 0, xop, _, hr, hfuel => by
      have hend : seq.length ≤ (xop.collect i).ri := by
        have := hr.hi_eq
        omega
      rw [List.drop_eq_nil_of_le hend]
      rfl
  | fuel + 1, xop, hpow, hr, hfuel => by
      have hadv := advance_spec hpow hr
      unfold drain
      cases hcase : advance xop i with
      | fault =>
          rw [hcase] at hadv
          exact hadv.elim
      | empty =>
          rw [hcase] at hadv
          have hend : seq.length ≤ (xop.collect i).ri := by
            rw [← hr.hi_eq, hadv]
          rw [List.drop_eq_nil_of_le hend]
          rfl
      | item xop' item =>
          rw [hcase] at hadv
          obtain ⟨hitem, rfl, hrest⟩ := hadv
          obtain ⟨hin, hget⟩ := List.getElem?_eq_some_iff.mp hitem
          have hnext := drain_spec seq i fuel
            (xop.setFifo i { xop.collect i with ri := (xop.collect i).ri + 1 }) hpow
            (by simpa only [XopHead.setFifo_self, XopHead.setFifo_fifoSize] using hrest)
            (by simp only [XopHead.setFifo_self]; omega)
          simp only [XopHead.setFifo_self] at hnext
          simp only [hnext]
          rw [List.drop_eq_getElem_cons hin, hget, List.map_cons]

theorem drainOf_spec {s : Sys} (h : Inv s) {i : Nat} (hi : i < s.xop.nchains) :
    drainOf s.xop i = some (((s.fed i).drop (s.xop.collect i).ri).map Prod.fst) :=
  drain_spec _ _ _ _ h.pow (h.ring i hi) (Nat.le_refl _)

/-- **The step lemma.** -/
theorem step_inv {s t : Sys} {ev : Event} (h : Inv s) (hok : Ok s ev)
    (hstep : step s ev = some t) : Inv t := by
  cases ev with
  | feed i chain error =>
      simp only [step] at hstep
      split at hstep
      · rename_i hi
        have hfeed := feed_inv chain error h hi.1 hi.2 hok
        cases hcase : Xop.feed s.xop chain i error with
        | aborted =>
            rw [hcase] at hstep
            obtain rfl := Option.some.inj hstep
            exact h
        | fault =>
            rw [hcase] at hfeed
            exact hfeed.elim
        | fed xop item =>
            rw [hcase] at hfeed hstep
            obtain rfl := Option.some.inj hstep
            exact hfeed
      · cases hstep
  | advance i =>
      simp only [step] at hstep
      split at hstep
      · rename_i hi
        obtain ⟨hlt, hret, -⟩ := hi
        have hadv := advance_spec h.pow (h.ring i hlt)
        cases hcase : Xop.advance s.xop i with
        | fault =>
            rw [hcase] at hadv
            exact hadv.elim
        | empty =>
            rw [hcase] at hstep
            obtain rfl := Option.some.inj hstep
            exact h
        | item xop item =>
            rw [hcase] at hadv hstep
            obtain ⟨hitem, rfl, hrest⟩ := hadv
            obtain rfl := Option.some.inj hstep
            refine ⟨h.pow, fun j hj => ?_, fun j hj => ?_, h.noFault, fun hr => ?_⟩
            · by_cases hji : j = i
              · subst hji
                simp only [XopHead.setFifo_self]
                exact hrest
              · simp only [XopHead.setFifo_ne _ _ hji]
                exact h.ring j hj
            · have htk := h.taken j hj
              by_cases hji : j = i
              · subst hji
                simp only [XopHead.setFifo_self, Function.update_self]
                rw [htk, List.take_add_one, hitem]
                rfl
              · simp only [XopHead.setFifo_ne _ _ hji, Function.update_of_ne hji]
                exact htk
            · exact absurd (show s.retired = true from hr) (by rw [hret]; decide)
      · cases hstep
  | frontendDone =>
      simp only [step] at hstep
      split at hstep
      · rename_i hvop
        obtain rfl := Option.some.inj hstep
        refine ⟨h.pow, h.ring, h.taken, h.noFault, fun hr => ?_⟩
        have := (h.drainedAll hr).1
        rw [hvop] at this
        cases this
      · cases hstep
  | retire =>
      simp only [step] at hstep
      split at hstep
      · rename_i hc
        obtain rfl := Option.some.inj hstep
        refine ⟨h.pow, h.ring, h.taken, ?_, fun _ => ⟨hc.1, fun i hi => ?_⟩⟩
        · show (s.fault || _) = false
          rw [h.noFault, Bool.false_or, List.any_eq_false]
          intro i hi
          rw [drainOf_spec h (List.mem_range.mp hi)]
          simp
        · show (s.taken i).map Prod.fst ++ (drainOf s.xop i).getD [] = _
          rw [drainOf_spec h hi, h.taken i hi, Option.getD_some, ← List.map_append,
            List.take_append_drop]
      · cases hstep

/-- **Delivery.**  In every run whose feeds all meet the condition, nothing is
lost, repeated, reordered or replaced, and no access leaves its array. -/
theorem run_delivered {n : Nat} {evs : List Event} {s : Sys}
    (hok : AllSteps step Ok (init n) evs) (hrun : exec step (init n) evs = some s) :
    Delivered s :=
  (exec_invariant (fun _ _ _ h ho hs => step_inv h ho hs) (init_inv n) hok hrun).delivered

/-! ## When growth goes wrong -/

/-- Chain number `k`, without an error. -/
def chainNo (k : Nat) : Option FedChain := some ⟨k, 0⟩

/-- One node, one result taken before the seventeenth is fed: sixteen results
fill the fifo, the first is taken, the next goes to the cell it left, and the
one after that doubles the fifo. -/
def aheadRun : List Event :=
  (List.range 16).map (fun k => .feed 0 (chainNo k) 0) ++ [.advance 0] ++
    [.feed 0 (chainNo 16) 0, .feed 0 (chainNo 17) 0] ++ List.replicate 16 (.advance 0)

/-- **Growth loses an entry.**  After `aheadRun` the frontend has been given
`NULL` in the place of chain 16. -/
theorem growth_loses_entry :
    ¬ ∀ (n : Nat) (evs : List Event) (s : Sys),
      exec step (init n) evs = some s → Delivered s := by
  intro hall
  have hend : (exec step (init 1) aheadRun).map (fun s => (s.taken 0, s.fed 0)) =
      some ((List.range 16).map (fun k => (chainNo k, 0)) ++ [(none, 0)],
        (List.range 18).map (fun k => (chainNo k, 0))) := by decide
  obtain ⟨s, hs, hpair⟩ := Option.map_eq_some_iff.mp hend
  obtain ⟨htaken, hfed⟩ := Prod.mk.inj hpair
  have hn : s.xop.nchains = 1 := by
    have hn' : (exec step (init 1) aheadRun).map (fun s => s.xop.nchains) = some 1 := by
      decide
    rw [hs] at hn'
    exact Option.some.inj hn'
  have hpre := (hall 1 aheadRun s hs).order 0 (by rw [hn]; decide)
  rw [htaken, hfed] at hpre
  exact absurd hpre (by decide)

/-- Two nodes on one `fifoSize`: the first grows its fifo, the second then
writes its seventeenth result outside its own, smaller array. -/
def otherNodeRun : List Event :=
  (List.range 17).map (fun k => .feed 0 (chainNo k) 0) ++
    (List.range 17).map (fun k => .feed 1 (chainNo k) 0)

example : (exec step (init 2) otherNodeRun).map Sys.fault = some true := by decide

/-- A run that meets the condition: the fifo grows before anything is taken. -/
def scanRun : List Event :=
  (List.range 20).map (fun k => .feed 0 (chainNo k) 0) ++ [.feed 0 none 0] ++
    List.replicate 5 (.advance 0) ++ [.frontendDone, .retire]

theorem run_delivered_scanRun :
    ∃ s, exec step (init 1) scanRun = some s ∧ s.retired = true ∧ Delivered s := by
  have hok : AllSteps step Ok (init 1) scanRun := by decide
  have hend : (exec step (init 1) scanRun).map Sys.retired = some true := by decide
  obtain ⟨s, hs, hr⟩ := Option.map_eq_some_iff.mp hend
  exact ⟨s, hs, hr, run_delivered hok hs⟩

end Hammer2.Xop
