/-
# `Hammer2.Freemap.Rotation` — freemap blocks and the headers that refer to them

Every modification of a freemap block after a flush takes the next of its eight places, so
that the freemaps of the four headers on the media stay intact.  The machine of this module
modifies freemap blocks, flushes them into their parents and runs the flush cycles of
`Hammer2.Volume.Header`, whose roots are here the freemap blockset.

    Reach        the freemap blocks a header refers to
    Ok           a block that a header refers to is at most seven moves from the place
                 recorded there
    step_frame   such a step changes no block that a header refers to
    run_rotates  so no run does

A cycle that writes no header moves the blocks it modifies like any other: after eight of
them a block is back at the place of the newest header (`rotation_comes_round`).
-/
import Hammer2.Freemap.Reserve
import Hammer2.Volume.Recovery

namespace Hammer2.Rotation

open Machine

/-! ## States -/

/-- A blockref of a freemap block; `rot` counts the moves of the block until then. -/
structure Bref where
  dataOff : Nat
  rot : Nat
deriving DecidableEq

/-- `hammer2_chain_t` of a freemap block. -/
structure Chain where
  bref : Bref
  modified : Bool
  update : Bool
deriving DecidableEq

abbrev Table := BlockId → Option Bref

/-- The content of a freemap block: the bitmaps of a leaf, the block table of a node. -/
structure Node where
  data : Nat
  table : Table

/-- The roots of the volume are here the freemap blockset. -/
structure State where
  vol : Volume.State Table
  chain : BlockId → Option Chain
  node : Nat → Node

def set {β : Type} (f : BlockId → β) (b : BlockId) (x : β) : BlockId → β :=
  fun i => if i = b then x else f i

def setNode (f : Nat → Node) (o : Nat) (x : Node) : Nat → Node :=
  fun i => if i = o then x else f i

theorem set_self {β : Type} {f : BlockId → β} {b : BlockId} {x : β} : set f b x b = x := if_pos rfl

theorem set_ne {β : Type} {f : BlockId → β} {b i : BlockId} {x : β} (h : i ≠ b) : set f b x i = f i :=
  if_neg h

theorem setNode_self {f : Nat → Node} {o : Nat} {x : Node} : setNode f o x o = x := if_pos rfl

theorem setNode_ne {f : Nat → Node} {o i : Nat} {x : Node} (h : i ≠ o) : setNode f o x i = f i :=
  if_neg h

/-! ## Operations -/

/-- `hammer2_chain_create` of a leaf, or the new node of `hammer2_chain_create_indirect`. -/
def createChain (s : State) (b : BlockId) : Option State :=
  match s.chain b with
  | some _ => none
  | none =>
      if b.Aligned then
        (freemapReserve (b.bref freemapRadix) freemapRadix).map fun o =>
          { s with
            chain := set s.chain b (some ⟨⟨o, 0⟩, true, true⟩)
            node := setNode s.node o ⟨0, fun _ => none⟩ }
      else none

/-- `hammer2_chain_modify`.  `emerg` is its emergency test: `HMNT2_EMERG` is set and the
block is newer than the last snapshot. -/
def modifyChain (s : State) (b : BlockId) (emerg : Bool) : Option State :=
  (s.chain b).bind fun c =>
    if c.modified || emerg then
      some { s with chain := set s.chain b (some ⟨c.bref, true, true⟩) }
    else (freemapReserve (b.bref c.bref.dataOff) freemapRadix).map fun o =>
      { s with
        chain := set s.chain b (some ⟨⟨o, c.bref.rot + 1⟩, true, true⟩)
        node := setNode s.node o (s.node c.bref.dataOff) }

/-- A change of the content of a modified block. -/
def State.write (s : State) (b : BlockId) (f : Node → Node) : Option State :=
  (s.chain b).map fun c => { s with node := setNode s.node c.bref.dataOff (f (s.node c.bref.dataOff)) }

/-- A change of the freemap blockset. -/
def State.setRoots (s : State) (f : Table → Table) : Option State :=
  s.vol.dev.map fun d => { s with vol := { s.vol with dev := some (d.setRoots (f d.voldata.roots)) } }

/-- `hammer2_base_insert` and `hammer2_base_delete` in the block table of `p`, the freemap
chain when it is `none`, after `hammer2_chain_modify` of it. -/
def editTable (s : State) (p : Option BlockId) (b : BlockId) (x : Option Bref) (emerg : Bool) : Option State :=
  match p with
  | none => s.setRoots fun t => set t b x
  | some p => (modifyChain s p emerg).bind fun s =>
      s.write p fun n => { n with table := set n.table b x }

/-- A flush cycle whose flush of the freemap is already done: the blockset in it is that
of `s`. -/
def cycleOf (c : Volume.Cycle Unit) (roots : Table) : Volume.Cycle Table where
  sroot := c.sroot.map fun _ => roots
  fchain := c.fchain.map fun f => f.map fun (tid, _) => (tid, roots)
  vchainError := c.vchainError
  flushError := c.flushError
  fsyncError := c.fsyncError

inductive Event where
  /-- A new leaf or node. -/
  | create (b : BlockId)
  /-- A modification of the content, `data` afterwards. -/
  | modify (b : BlockId) (data : Nat) (emerg : Bool)
  /-- `hammer2_flush_core` of a block: its content goes out. -/
  | flushChain (b : BlockId)
  /-- `hammer2_flush_core` of a block: its parent refers to it. -/
  | update (p : Option BlockId) (b : BlockId) (emerg : Bool)
  /-- `hammer2_chain_create_indirect` moves a block out of a table. -/
  | remove (p : Option BlockId) (b : BlockId) (emerg : Bool)
  /-- The flush of the volume and the header write. -/
  | flush (c : Volume.Cycle Unit) (left : Volume.Left Table) (ok : Bool)

def step (s : State) : Event → Option State
  | .create b => createChain s b
  | .modify b data emerg => (modifyChain s b emerg).bind fun s => s.write b fun n => { n with data := data }
  | .flushChain b => s.vol.dev.bind fun d => (s.chain b).bind fun c =>
      if c.modified then
        some { s with
          vol := { s.vol with dev := some d.voldataModify }
          chain := set s.chain b (some { c with modified := false }) }
      else none
  | .update p b emerg => (s.chain b).bind fun c =>
      if c.update && !c.modified && p ≠ some b then
        (editTable s p b (some c.bref) emerg).map fun s =>
          { s with chain := set s.chain b (some { c with update := false }) }
      else none
  | .remove p b emerg => (s.chain b).bind fun c =>
      if p ≠ some b then
        (editTable s p b none emerg).map fun s =>
          { s with chain := set s.chain b (some { c with update := true }) }
      else none
  | .flush c left ok => s.vol.dev.bind fun d =>
      (Volume.step s.vol (.flush (cycleOf c d.voldata.roots) left (if ok then .ok else .error))).map fun vol =>
        { s with vol := vol }

/-- A formatted volume, mounted: no freemap block yet. -/
def format (m : Volume.Media Unit) : Option State :=
  (Volume.start (⟨m.mediaSize, fun i => ⟨(m.block i).magic, (m.block i).sect0, (m.block i).sect1,
    (m.block i).volheader, ⟨(m.block i).data.voluSize, (m.block i).data.mirrorTid,
      (m.block i).data.freemapTid, fun _ => none⟩⟩⟩ : Volume.Media Table)).map fun vol =>
    ⟨vol, fun _ => none, fun _ => ⟨0, fun _ => none⟩⟩

/-! ## What a header refers to -/

/-- The freemap blocks that can be reached from a blockset. -/
inductive Reach (node : Nat → Node) (roots : Table) : BlockId → Bref → Prop
  | root {b : BlockId} {e : Bref} : roots b = some e → Reach node roots b e
  | child {p b : BlockId} {ep e : Bref} : Reach node roots p ep → (node ep.dataOff).table b = some e →
      Reach node roots b e

/-- The blockset of a valid header on the media. -/
def Header (v : Volume.State Table) (roots : Table) : Prop :=
  ∃ j, j < Volume.numVolhdrs ∧ (v.media.block j).Valid ∧ (v.media.block j).data.roots = roots

/-- `b` is modified at a place that is at most seven moves from any recorded in a header. -/
def MoveOk (s : State) (b : BlockId) (emerg : Bool) : Prop :=
  emerg = false ∧ ∀ c, s.chain b = some c → ∀ roots, Header s.vol roots → ∀ e, Reach s.node roots b e →
    (if c.modified then c.bref.rot else c.bref.rot + 1) < e.rot + nfreemaps

def Ok (s : State) : Event → Prop
  | .modify b _ emerg => MoveOk s b emerg
  | .update (some p) _ emerg | .remove (some p) _ emerg => MoveOk s p emerg
  | _ => True

/-! ## The invariant -/

/-- A blockref of `b`: the place it names is one of `b`, taken at most as late as the
present one, and the content there is out when it is the present one. -/
def Fine (s : State) (b : BlockId) (e : Bref) : Prop :=
  ∃ c, s.chain b = some c ∧ e.dataOff = b.place (e.rot % nfreemaps) + freemapRadix ∧
    e.rot ≤ c.bref.rot ∧ (e.rot = c.bref.rot → c.modified = false)

def FineTable (s : State) (t : Table) : Prop := ∀ b e, t b = some e → Fine s b e

/-- `P` holds of every blockset of the device: in memory, and in a valid header. -/
structure AllRoots (P : Table → Prop) (v : Volume.State Table) : Prop where
  dev : ∀ d, v.dev = some d → P d.voldata.roots ∧ P d.volsync.roots
  header : ∀ t, Header v t → P t

structure ChainOk (b : BlockId) (c : Chain) : Prop where
  level : ∃ z, zonefm b.keybits = some z
  aligned : b.Aligned
  place : c.bref.dataOff = b.place (c.bref.rot % nfreemaps) + freemapRadix

structure Inv (s : State) : Prop where
  chain : ∀ b c, s.chain b = some c → ChainOk b c
  node : ∀ o, FineTable s (s.node o).table
  roots : AllRoots (FineTable s) s.vol

/-- Every chain stays, moves on only, and is not modified where it is. -/
def Grows (s s' : State) : Prop :=
  ∀ b c, s.chain b = some c → ∃ c', s'.chain b = some c' ∧ c.bref.rot ≤ c'.bref.rot ∧
    (c'.bref.rot = c.bref.rot → c.modified = false → c'.modified = false)

section
variable {s s' : State} {b p : BlockId} {e : Bref} {emerg : Bool}

theorem Grows.of_set {x : Chain} (hb : ∀ c, s.chain b = some c → c.bref.rot ≤ x.bref.rot ∧
      (x.bref.rot = c.bref.rot → c.modified = false → x.modified = false))
    (h : s'.chain = set s.chain b (some x)) : Grows s s' := by
  intro i c hc
  by_cases hi : i = b
  · subst hi
    exact ⟨x, by rw [h, set_self], hb c hc⟩
  · exact ⟨c, by rw [h, set_ne hi, hc], Nat.le_refl _, fun _ hm => hm⟩

theorem Fine.mono (h : Fine s b e) (hgrow : Grows s s') : Fine s' b e := by
  obtain ⟨c, hc, hplace, hle, hmod⟩ := h
  obtain ⟨c', hc', hle', hmod'⟩ := hgrow b c hc
  refine ⟨c', hc', hplace, hle.trans hle', fun heq => ?_⟩
  have hsame : c'.bref.rot = c.bref.rot := by omega
  exact hmod' hsame (hmod (heq.trans hsame))

theorem AllRoots.mono {P Q : Table → Prop} {v : Volume.State Table} (h : AllRoots P v)
    (hPQ : ∀ t, P t → Q t) : AllRoots Q v where
  dev d hd := ⟨hPQ _ (h.dev d hd).1, hPQ _ (h.dev d hd).2⟩
  header t ht := hPQ t (h.header t ht)

/-- What can be reached from a header is fine. -/
theorem Reach.fine {t : Table} (hs : Inv s) (ht : FineTable s t) (h : Reach s.node t b e) : Fine s b e := by
  cases h with
  | root h => exact ht b e h
  | child _ h => exact hs.node _ b e h

/-- The chains and the contents may change, as long as every blockref stays fine. -/
theorem Inv.update (hs : Inv s) (hgrow : Grows s s') (hvol : s'.vol = s.vol)
    (hchain : ∀ b c, s'.chain b = some c → ChainOk b c)
    (hnode : ∀ o, s'.node o = s.node o ∨ FineTable s' (s'.node o).table) : Inv s' where
  chain := hchain
  node o := by
    rcases hnode o with h | h
    · rw [h]
      exact fun b e he => (hs.node o b e he).mono hgrow
    · exact h
  roots := by
    rw [hvol]
    exact hs.roots.mono fun t ht b e he => (ht b e he).mono hgrow

theorem chainOk_set {f : BlockId → Option Chain} (hf : ∀ b c, f b = some c → ChainOk b c) {x : Chain}
    (hx : ChainOk b x) : ∀ i c, set f b (some x) i = some c → ChainOk i c := by
  intro i c hc
  by_cases hi : i = b
  · subst hi
    rw [set_self] at hc
    obtain rfl := Option.some.inj hc
    exact hx
  · rw [set_ne hi] at hc
    exact hf i c hc

/-! ## The operations -/

/-- The place after the present one. -/
theorem ChainOk.reserve {c : Chain} {o : Nat} (hc : ChainOk b c)
    (h : freemapReserve (b.bref c.bref.dataOff) freemapRadix = some o) :
    o = b.place ((c.bref.rot + 1) % nfreemaps) + freemapRadix := by
  obtain ⟨index, z, hindex, -, rfl⟩ := freemapReserve_spec h
  obtain ⟨z', hz'⟩ := hc.level
  have hnext : nextIndex c.bref.dataOff = some index := hindex
  rw [hc.place, nextIndex_place hz' (Nat.mod_lt _ (by decide)), Nat.mod_add_mod] at hnext
  rw [← Option.some.inj hnext]
  rfl

/-- A new block is at its first place. -/
theorem reserve_new {o : Nat} (h : freemapReserve (b.bref freemapRadix) freemapRadix = some o) :
    o = b.place 0 + freemapRadix ∧ ∃ z, zonefm b.keybits = some z := by
  obtain ⟨index, z, hindex, hz, rfl⟩ := freemapReserve_spec h
  have hnext : nextIndex freemapRadix = some index := hindex
  obtain rfl : 0 = index := Option.some.inj hnext
  exact ⟨rfl, z, hz⟩

theorem createChain_spec (hs : Inv s) (h : createChain s b = some s') :
    Inv s' ∧ s'.vol = s.vol ∧ ∀ t, Header s.vol t → ∀ i e, Reach s.node t i e →
      s'.node e.dataOff = s.node e.dataOff := by
  unfold createChain at h
  split at h
  · cases h
  · rename_i hnone
    split at h
    · rename_i halign
      obtain ⟨o, ho, rfl⟩ := Option.map_eq_some_iff.mp h
      obtain ⟨rfl, z, hz⟩ := reserve_new ho
      have hgrow : Grows s { s with
          chain := set s.chain b (some ⟨⟨b.place 0 + freemapRadix, 0⟩, true, true⟩)
          node := setNode s.node (b.place 0 + freemapRadix) ⟨0, fun _ => none⟩ } :=
        Grows.of_set (fun c hc => nomatch hnone.symm.trans hc) rfl
      refine ⟨hs.update hgrow rfl (chainOk_set hs.chain ⟨⟨z, hz⟩, halign, rfl⟩) fun o => ?_, rfl,
        fun t ht i e hreach => setNode_ne fun heq => ?_⟩
      · by_cases ho : o = b.place 0 + freemapRadix
        · right
          subst ho
          show FineTable _ (setNode _ _ _ _).table
          rw [setNode_self]
          exact fun _ _ he => nomatch he
        · exact Or.inl (setNode_ne ho)
      · -- No header refers to a block that does not exist.
        obtain ⟨c, hc, hplace, -, -⟩ := hreach.fine hs (hs.roots.header t ht)
        obtain ⟨z', hz'⟩ := (hs.chain i c hc).level
        have hsame := place_inj hz' hz (hs.chain i c hc).aligned halign (Nat.mod_lt _ (by decide))
          (by decide) (Nat.add_right_cancel (hplace.symm.trans heq))
        rw [hsame.1] at hc
        cases hnone.symm.trans hc
    · cases h

/-- The block is modified at a place that no header refers to. -/
theorem modifyChain_spec (hs : Inv s) (hok : MoveOk s b emerg) (h : modifyChain s b emerg = some s') :
    Inv s' ∧ s'.vol = s.vol ∧ Grows s s' ∧ (∀ i ≠ b, s'.chain i = s.chain i) ∧
      ∃ c, s'.chain b = some c ∧ (∀ o ≠ c.bref.dataOff, s'.node o = s.node o) ∧
        ∀ t, Header s.vol t → ∀ i e, Reach s.node t i e → e.dataOff ≠ c.bref.dataOff := by
  obtain ⟨rfl, hmove⟩ := hok
  obtain ⟨c, hc, h⟩ := Option.bind_eq_some_iff.mp h
  have hcok := hs.chain b c hc
  obtain ⟨z, hz⟩ := hcok.level
  -- The place `r` moves after the first one is not the one a header refers to.
  have hmiss : ∀ r, c.bref.rot ≤ r → (r = c.bref.rot → c.modified = true) →
      (∀ t, Header s.vol t → ∀ e, Reach s.node t b e → r < e.rot + nfreemaps) →
      ∀ t, Header s.vol t → ∀ i e, Reach s.node t i e →
        e.dataOff ≠ b.place (r % nfreemaps) + freemapRadix := by
    intro r hle hmod hnear t ht i e hreach heq
    obtain ⟨c', hc', hplace, hle', hmod'⟩ := hreach.fine hs (hs.roots.header t ht)
    obtain ⟨z', hz'⟩ := (hs.chain i c' hc').level
    obtain ⟨rfl, hrot⟩ := place_inj hz' hz (hs.chain i c' hc').aligned hcok.aligned
      (Nat.mod_lt _ (by decide)) (Nat.mod_lt _ (by decide)) (Nat.add_right_cancel (hplace.symm.trans heq))
    obtain rfl := Option.some.inj (hc.symm.trans hc')
    have hlt := hnear t ht e hreach
    simp only [nfreemaps] at hrot hlt
    obtain rfl : e.rot = r := by omega
    have hrot : e.rot = c.bref.rot := by omega
    exact absurd (hmod' hrot) (by rw [hmod hrot]; decide)
  cases hm : c.modified with
  | true =>
      rw [hm] at h
      obtain rfl := Option.some.inj h
      have hx : ChainOk b ⟨c.bref, true, true⟩ := ⟨hcok.level, hcok.aligned, hcok.place⟩
      have hgrow : Grows s { s with chain := set s.chain b (some ⟨c.bref, true, true⟩) } :=
        Grows.of_set (fun c' hc' => by
          obtain rfl := Option.some.inj (hc.symm.trans hc')
          exact ⟨Nat.le_refl _, fun _ hf => absurd (hm.symm.trans hf) (by decide)⟩) rfl
      refine ⟨hs.update hgrow rfl (chainOk_set hs.chain hx) fun _ => Or.inl rfl, rfl, hgrow,
        fun i hi => set_ne hi, ⟨c.bref, true, true⟩, set_self, fun _ _ => rfl, ?_⟩
      rw [hcok.place]
      refine hmiss c.bref.rot (Nat.le_refl _) (fun _ => hm) fun t ht e hreach => ?_
      have := hmove c hc t ht e hreach
      rwa [hm] at this
  | false =>
      rw [hm] at h
      obtain ⟨o, ho, rfl⟩ := Option.map_eq_some_iff.mp h
      obtain rfl := hcok.reserve ho
      have hx : ChainOk b ⟨⟨b.place ((c.bref.rot + 1) % nfreemaps) + freemapRadix, c.bref.rot + 1⟩,
          true, true⟩ := ⟨hcok.level, hcok.aligned, rfl⟩
      have hgrow : Grows s { s with
          chain := set s.chain b
            (some ⟨⟨b.place ((c.bref.rot + 1) % nfreemaps) + freemapRadix, c.bref.rot + 1⟩, true, true⟩)
          node := setNode s.node (b.place ((c.bref.rot + 1) % nfreemaps) + freemapRadix)
            (s.node c.bref.dataOff) } :=
        Grows.of_set (fun c' hc' => by
          obtain rfl := Option.some.inj (hc.symm.trans hc')
          exact ⟨Nat.le_succ _, fun heq => absurd heq (Nat.succ_ne_self _)⟩) rfl
      refine ⟨hs.update hgrow rfl (chainOk_set hs.chain hx) fun o => ?_, rfl, hgrow,
        fun i hi => set_ne hi, _, set_self, fun o ho => setNode_ne ho, ?_⟩
      · by_cases ho : o = b.place ((c.bref.rot + 1) % nfreemaps) + freemapRadix
        · right
          subst ho
          show FineTable _ (setNode _ _ _ _).table
          rw [setNode_self]
          exact fun i e he => (hs.node _ i e he).mono hgrow
        · exact Or.inl (setNode_ne ho)
      · refine hmiss (c.bref.rot + 1) (Nat.le_succ _) (fun heq => absurd heq (Nat.succ_ne_self _))
          fun t ht e hreach => ?_
        have := hmove c hc t ht e hreach
        rwa [hm] at this

/-- A change of the content of a block that no header refers to: blockrefs stay fine when
those of the new content are. -/
theorem write_spec {f : Node → Node} (hs : Inv s) {c : Chain} (hc : s.chain b = some c)
    (hf : FineTable s (f (s.node c.bref.dataOff)).table) (h : s.write b f = some s') :
    Inv s' ∧ s'.vol = s.vol ∧ s'.chain = s.chain ∧ ∀ o ≠ c.bref.dataOff, s'.node o = s.node o := by
  unfold State.write at h
  rw [hc] at h
  obtain rfl := Option.some.inj h
  have hgrow : Grows s { s with
      node := setNode s.node c.bref.dataOff (f (s.node c.bref.dataOff)) } :=
    fun i c' hc' => ⟨c', hc', Nat.le_refl _, fun _ hm => hm⟩
  refine ⟨hs.update hgrow rfl hs.chain fun o => ?_, rfl, rfl, fun o ho => setNode_ne ho⟩
  by_cases ho : o = c.bref.dataOff
  · right
    subst ho
    show FineTable _ (setNode _ _ _ _).table
    rw [setNode_self]
    exact fun i e he => (hf i e he).mono hgrow
  · exact Or.inl (setNode_ne ho)

theorem AllRoots.setRoots {P : Table → Prop} {v : Volume.State Table} {d : Volume.Dev Table} {t : Table}
    (h : AllRoots P v) (hd : v.dev = some d) (ht : P t) :
    AllRoots P { v with dev := some (d.setRoots t) } where
  dev d' hd' := by
    obtain rfl := Option.some.inj hd'
    exact ⟨ht, (h.dev d hd).2⟩
  header := h.header

/-- The condition of a change of the table of `p`. -/
def EditOk (s : State) (p : Option BlockId) (emerg : Bool) : Prop :=
  ∀ b, p = some b → MoveOk s b emerg

/-- An entry of a table is changed to a fine one, or taken out. -/
theorem editTable_spec {p : Option BlockId} {x : Option Bref} (hs : Inv s) (hok : EditOk s p emerg)
    (hx : ∀ e, x = some e → Fine s b e) (hne : p ≠ some b) (h : editTable s p b x emerg = some s') :
    Inv s' ∧ s'.chain b = s.chain b ∧
      (∀ t, Header s.vol t → ∀ i e, Reach s.node t i e → s'.node e.dataOff = s.node e.dataOff) ∧
      s'.vol.media = s.vol.media := by
  cases p with
  | none =>
      obtain ⟨d, hd, rfl⟩ := Option.map_eq_some_iff.mp h
      have ht : FineTable s (set d.voldata.roots b x) := by
        intro i e he
        by_cases hi : i = b
        · subst hi
          rw [set_self] at he
          exact hx e he
        · rw [set_ne hi] at he
          exact (hs.roots.dev d hd).1 i e he
      exact ⟨⟨hs.chain, hs.node, hs.roots.setRoots hd ht⟩, rfl, fun _ _ _ _ _ => rfl, rfl⟩
  | some p =>
      obtain ⟨s₁, h₁, h⟩ := Option.bind_eq_some_iff.mp h
      obtain ⟨hs₁, hvol, hgrow, hother, c, hc, hnode, hmiss⟩ := modifyChain_spec hs (hok p rfl) h₁
      have hf : FineTable s₁ (set (s₁.node c.bref.dataOff).table b x) := by
        intro i e he
        by_cases hi : i = b
        · subst hi
          rw [set_self] at he
          exact (hx e he).mono hgrow
        · rw [set_ne hi] at he
          exact hs₁.node _ i e he
      obtain ⟨hs', hvol', hchain', hnode'⟩ := write_spec hs₁ hc hf h
      refine ⟨hs', ?_, fun t ht i e hreach => ?_, by rw [hvol', hvol]⟩
      · rw [hchain']
        exact hother b fun heq => hne (congrArg some heq.symm)
      · have hne := hmiss t ht i e hreach
        rw [hnode' _ hne, hnode _ hne]

/-- The flags of a chain that is not at another place. -/
theorem Inv.setFlags (hs : Inv s) {c : Chain} (hc : s.chain b = some c) {modified update : Bool}
    (hm : c.modified = false → modified = false) :
    Inv { s with chain := set s.chain b (some { c with modified := modified, update := update }) } := by
  refine hs.update (Grows.of_set (fun c' hc' => ?_) rfl) rfl (chainOk_set hs.chain ?_) fun _ => Or.inl rfl
  · obtain rfl := Option.some.inj (hc.symm.trans hc')
    exact ⟨Nat.le_refl _, fun _ => hm⟩
  · have h := hs.chain b c hc
    exact ⟨h.level, h.aligned, h.place⟩

end

/-! ## The header write -/

section
variable {P : Table → Prop} {v v' : Volume.State Table} {d : Volume.Dev Table}

/-- The blocksets of a mounted device. -/
def DevRoots (P : Table → Prop) (d : Volume.Dev Table) : Prop := P d.voldata.roots ∧ P d.volsync.roots

theorem DevRoots.voldataModify (h : DevRoots P d) : DevRoots P d.voldataModify := by
  unfold Volume.Dev.voldataModify
  split
  · exact h
  · exact h

theorem DevRoots.flushVolume (h : DevRoots P d) : DevRoots P d.flushVolume := by
  unfold Volume.Dev.flushVolume
  split
  · exact ⟨h.1, h.1⟩
  · exact h

theorem DevRoots.flushRoots (h : DevRoots P d) (c : Volume.Cycle Unit) :
    DevRoots P (d.flushRoots (cycleOf c d.voldata.roots)) := by
  have hsroot : DevRoots P (d.flushSroot (cycleOf c d.voldata.roots).sroot) := by
    unfold cycleOf
    cases c.sroot with
    | none => exact h
    | some _ => exact h
  have hfchain : DevRoots P ((d.flushSroot (cycleOf c d.voldata.roots).sroot).flushFchain
      (cycleOf c d.voldata.roots).fchain) := by
    generalize d.flushSroot (cycleOf c d.voldata.roots).sroot = d' at hsroot
    unfold cycleOf
    cases c.fchain with
    | none => exact hsroot
    | some f =>
        cases f with
        | none => exact hsroot.voldataModify
        | some _ => exact ⟨h.1, hsroot.voldataModify.2⟩
  unfold Volume.Dev.flushRoots
  split
  · exact hfchain
  · exact hfchain.flushVolume

/-- Writing one block of the header area. -/
theorem header_put {m : Volume.Media Table} {j : Nat} {b : Volume.HeaderBlock Table} {dev : Option (Volume.Dev Table)}
    {completed : List (Nat × Volume.VolumeData Table)} {failed : Nat} {t : Table}
    (h : Header ⟨m.put j b, dev, completed, failed⟩ t) :
    (b.Valid ∧ b.data.roots = t) ∨ ∃ i, i < Volume.numVolhdrs ∧ (m.block i).Valid ∧ (m.block i).data.roots = t := by
  obtain ⟨i, hi, hvalid, hroots⟩ := h
  by_cases hij : i = j
  · simp only [Volume.Media.put, if_pos hij] at hvalid hroots
    exact Or.inl ⟨hvalid, hroots⟩
  · simp only [Volume.Media.put, if_neg hij] at hvalid hroots
    exact Or.inr ⟨i, hi, hvalid, hroots⟩

theorem writeHeader_roots {left : Volume.Left Table} {r : Volume.Report} (hv : AllRoots P v) (hd : DevRoots P d)
    (h : Volume.writeHeader v d left r = some v') : AllRoots P v' := by
  have hdev : ∀ x : Volume.Dev Table, DevRoots P x → ∀ d', (if r = .crash then none else some x) = some d' →
      DevRoots P d' := by
    intro x hx d' hd'
    split at hd'
    · cases hd'
    · obtain rfl := Option.some.inj hd'
      exact hx
  cases left with
  | new =>
      obtain rfl := Option.some.inj h
      refine ⟨hdev _ hd, fun t ht => ?_⟩
      rcases header_put ht with ⟨-, rfl⟩ | h
      · exact hd.2
      · exact hv.header t h
  | old =>
      simp only [Volume.writeHeader] at h
      split at h
      · cases h
      · obtain rfl := Option.some.inj h
        exact ⟨hdev _ hd, hv.header⟩
  | torn b =>
      simp only [Volume.writeHeader] at h
      split at h
      · cases h
      · rename_i hb
        obtain rfl := Option.some.inj h
        refine ⟨hdev _ hd, fun t ht => ?_⟩
        rcases header_put ht with ⟨hvalid, -⟩ | h
        · exact absurd (Or.inr hvalid) hb
        · exact hv.header t h

theorem flush_roots {c : Volume.Cycle Unit} {left : Volume.Left Table} {r : Volume.Report} (hv : AllRoots P v)
    (hd : v.dev = some d) (h : Volume.step v (.flush (cycleOf c d.voldata.roots) left r) = some v') :
    AllRoots P v' := by
  have hflush := DevRoots.flushRoots (hv.dev d hd) c
  simp only [Volume.step, hd, Option.bind_some] at h
  split at h
  · exact writeHeader_roots hv hflush h
  · obtain rfl := Option.some.inj h
    exact ⟨fun d' hd' => by obtain rfl := Option.some.inj hd'; exact hflush, hv.header⟩

end

/-! ## Steps and runs -/

section
variable {s s' : State} {e : Event}

/-- No block that a header refers to is overwritten. -/
def Kept (s s' : State) : Prop :=
  ∀ t, Header s.vol t → ∀ b e, Reach s.node t b e → s'.node e.dataOff = s.node e.dataOff

/-- **Every step** that meets the condition overwrites no block that a header refers to. -/
theorem step_inv (hs : Inv s) (hok : Ok s e) (hstep : step s e = some s') : Inv s' ∧ Kept s s' := by
  cases e with
  | create b =>
      obtain ⟨hs', -, hkept⟩ := createChain_spec hs hstep
      exact ⟨hs', hkept⟩
  | modify b data emerg =>
      obtain ⟨s₁, h₁, h⟩ := Option.bind_eq_some_iff.mp hstep
      obtain ⟨hs₁, -, -, -, c, hc, hnode, hmiss⟩ := modifyChain_spec hs hok h₁
      obtain ⟨hs', -, -, hnode'⟩ := write_spec hs₁ hc (hs₁.node c.bref.dataOff) h
      refine ⟨hs', fun t ht i e hreach => ?_⟩
      have hne := hmiss t ht i e hreach
      rw [hnode' _ hne, hnode _ hne]
  | flushChain b =>
      obtain ⟨d, hd, hstep⟩ := Option.bind_eq_some_iff.mp hstep
      obtain ⟨c, hc, hstep⟩ := Option.bind_eq_some_iff.mp hstep
      split at hstep
      · obtain rfl := Option.some.inj hstep
        have hs₁ : Inv { s with chain := set s.chain b (some { c with modified := false }) } :=
          hs.setFlags hc fun _ => rfl
        refine ⟨⟨hs₁.chain, hs₁.node, ⟨fun d' hd' => ?_, hs₁.roots.header⟩⟩, fun _ _ _ _ _ => rfl⟩
        obtain rfl := Option.some.inj hd'
        exact DevRoots.voldataModify (hs₁.roots.dev d hd)
      · cases hstep
  | update p b emerg =>
      obtain ⟨c, hc, hstep⟩ := Option.bind_eq_some_iff.mp hstep
      split at hstep
      · rename_i hcond
        obtain ⟨s₁, h₁, rfl⟩ := Option.map_eq_some_iff.mp hstep
        simp only [Bool.and_eq_true, Bool.not_eq_true', decide_eq_true_eq] at hcond
        obtain ⟨⟨-, hm⟩, hne⟩ := hcond
        -- The entry names the present place, whose content is out.
        have hfine : ∀ e, some c.bref = some e → Fine s b e := by
          intro e he
          obtain rfl := Option.some.inj he
          exact ⟨c, hc, (hs.chain b c hc).place, Nat.le_refl _, fun _ => hm⟩
        have hedit : EditOk s p emerg := fun q hq => by subst hq; exact hok
        obtain ⟨hs₁, hchain, hkept, -⟩ := editTable_spec hs hedit hfine hne h₁
        exact ⟨hs₁.setFlags (hchain.trans hc) fun _ => hm, hkept⟩
      · cases hstep
  | remove p b emerg =>
      obtain ⟨c, hc, hstep⟩ := Option.bind_eq_some_iff.mp hstep
      split at hstep
      · rename_i hne
        obtain ⟨s₁, h₁, rfl⟩ := Option.map_eq_some_iff.mp hstep
        have hedit : EditOk s p emerg := fun q hq => by subst hq; exact hok
        have hnone : ∀ e, (none : Option Bref) = some e → Fine s b e := fun e he => nomatch he
        obtain ⟨hs₁, hchain, hkept, -⟩ := editTable_spec hs hedit hnone hne h₁
        exact ⟨hs₁.setFlags (hchain.trans hc) fun h => h, hkept⟩
      · cases hstep
  | flush c left ok =>
      obtain ⟨d, hd, hstep⟩ := Option.bind_eq_some_iff.mp hstep
      obtain ⟨v', hv', rfl⟩ := Option.map_eq_some_iff.mp hstep
      exact ⟨⟨hs.chain, hs.node, flush_roots hs.roots hd hv'⟩, fun _ _ _ _ _ => rfl⟩

theorem format_inv {m : Volume.Media Unit} (h : format m = some s) : Inv s := by
  obtain ⟨v, hv, rfl⟩ := Option.map_eq_some_iff.mp h
  obtain ⟨⟨zone, vd⟩, hread, hv⟩ := Option.bind_eq_some_iff.mp hv
  simp only [Option.ite_none_right_eq_some, Option.some.injEq] at hv
  obtain ⟨-, rfl⟩ := hv
  obtain ⟨-, hat, -⟩ := Volume.read_eq_some_iff.mp hread
  obtain ⟨-, -, rfl⟩ := Volume.headerAt_eq_some.mp hat
  refine ⟨fun b c hc => (nomatch hc), fun o b e he => (nomatch he), fun d hd => ?_, fun t ht => ?_⟩
  · obtain rfl := Option.some.inj hd
    exact ⟨fun b e he => (nomatch he), fun b e he => nomatch he⟩
  · obtain ⟨j, -, -, rfl⟩ := ht
    exact fun b e he => nomatch he

/-- **Rotation of freemap blocks.**  The places given out are in the reserved segment of
their zone past the volume header, and do not overlap unless they are the same; and in
every run whose steps meet the condition, no step overwrites a freemap block that a valid
header on the media refers to. -/
theorem run_rotates {m : Volume.Media Unit} {s₀ : State} {es : List Event} (hstart : format m = some s₀)
    (hok : AllSteps step Ok s₀ (es ++ [e])) (hrun : exec step s₀ es = some s)
    (hstep : step s e = some s') :
    (∀ (bref : FreemapBref) (radix o : Nat), freemapReserve bref radix = some o →
      (fmBase bref.key bref.keybits + pbufSize ≤ o / offRadix * offRadix ∧
        o / offRadix * offRadix + freemapLevelNPsize ≤ fmBase bref.key bref.keybits + zoneSeg ∧
        freemapLevel1Size ∣ fmBase bref.key bref.keybits) ∧
      ∀ (bref' : FreemapBref) (radix' o' : Nat), freemapReserve bref' radix' = some o' →
        ¬ (fmBase bref.key bref.keybits = fmBase bref'.key bref'.keybits ∧
          bref.keybits = bref'.keybits ∧ nextIndex bref.dataOff = nextIndex bref'.dataOff) →
        o / offRadix * offRadix + freemapLevelNPsize ≤ o' / offRadix * offRadix ∨
          o' / offRadix * offRadix + freemapLevelNPsize ≤ o / offRadix * offRadix) ∧
    ∀ t, Header s.vol t → ∀ b e, Reach s.node t b e → s'.node e.dataOff = s.node e.dataOff := by
  obtain ⟨hoks, hlast⟩ := hok.of_append hrun
  have hs : Inv s := exec_invariant (fun _ _ _ hs ho hstep => (step_inv hs ho hstep).1)
    (format_inv hstart) hoks hrun
  exact ⟨fun _ _ _ h => ⟨freemapReserve_inside h, fun _ _ _ h' => freemapReserve_apart h h'⟩,
    (step_inv hs hlast.1 hstep).2⟩

end

/-! ## One leaf -/

/-- A formatted volume of 1GB: one header. -/
def oneGb : Volume.Media Unit where
  mediaSize := 1073741824
  block i := if i = 0 then Volume.headerOf ⟨1073741824, 16, 16, ()⟩
    else ⟨0, false, false, false, ⟨0, 0, 0, ()⟩⟩

def leaf : BlockId := ⟨0, freemapLevel1Radix⟩

/-- A cycle that flushes the leaf, and whether it writes the header. -/
def cycle (fsyncError : Bool) : List Event :=
  [.flushChain leaf, .update none leaf false, .flush ⟨none, some (some (17, ())), false, false, fsyncError⟩ .new true]

/-- The leaf is created, flushed and referred to by the header. -/
def firstCycle : List Event := .create leaf :: cycle false

/-- After a first cycle the leaf moves on, and what the header refers to stays. -/
theorem run_rotates_leaf : ∃ s₀ s s', format oneGb = some s₀ ∧ exec step s₀ firstCycle = some s ∧
    step s (.modify leaf 1 false) = some s' ∧
    ∀ t, Header s.vol t → ∀ b e, Reach s.node t b e → s'.node e.dataOff = s.node e.dataOff := by
  obtain ⟨s₀, hstart⟩ : ∃ s₀, format oneGb = some s₀ := ⟨_, rfl⟩
  obtain ⟨s, hrun⟩ : ∃ s, exec step s₀ firstCycle = some s := by
    obtain rfl := Option.some.inj hstart
    exact ⟨_, rfl⟩
  obtain ⟨s', hstep⟩ : ∃ s', step s (.modify leaf 1 false) = some s' := by
    obtain rfl := Option.some.inj hstart
    obtain rfl := Option.some.inj hrun
    exact ⟨_, rfl⟩
  have hmove : MoveOk s leaf false := by
    refine ⟨rfl, fun c hc t _ e _ => ?_⟩
    obtain rfl := Option.some.inj hstart
    obtain rfl := Option.some.inj hrun
    obtain rfl := Option.some.inj hc
    exact Nat.lt_add_left e.rot (by decide : 1 < nfreemaps)
  have hok : AllSteps step Ok s₀ (firstCycle ++ [.modify leaf 1 false]) := by
    refine AllSteps.append hrun ?_ ⟨hmove, ?_⟩
    · obtain rfl := Option.some.inj hstart
      exact ⟨trivial, trivial, trivial, trivial, trivial⟩
    · rw [hstep]
      trivial
  exact ⟨s₀, s, s', hstart, hrun, hstep, (run_rotates hstart hok hrun hstep).2⟩

/-- `n` more cycles modify the leaf, and write no header. -/
def skippedCycles : Nat → List Event
  | 0 => []
  | n + 1 => .modify leaf n false :: cycle true ++ skippedCycles n

/-- **The only good freemap is lost**: seven cycles in a row whose `fsync` fails, then the
eighth modification of the leaf goes to the place that the newest header refers to. -/
theorem rotation_comes_round : ∃ s₀ s s' t, format oneGb = some s₀ ∧
    exec step s₀ (firstCycle ++ skippedCycles 7) = some s ∧ step s (.modify leaf 99 false) = some s' ∧
    Header s.vol t ∧ ∃ e, Reach s.node t leaf e ∧ (s'.node e.dataOff).data ≠ (s.node e.dataOff).data := by
  refine ⟨_, _, _, _, rfl, rfl, rfl, ⟨0, by decide, by decide, rfl⟩, ⟨65551, 0⟩, .root (by decide), by decide⟩

end Hammer2.Rotation
