/-
# `Hammer2.Pfs.Fresh` — ids that are handed out are new

The root of a PFS bounds what is below it: no blockref carries a larger `modify_tid` than
the block that holds it, and no inode number is above the root's `pfs_inum`.  The flush
keeps this on the way up, so what `hammer2_root` primes the counters with is above all that
is on the media.

    Ordered, Numbers   the two bounds, for a blockref and everything below it
    Inv                chains, block tables and media are under the counters
    step_inv           what one event that meets the condition keeps
    run_fresh          so in every run the next ids are new

Two things break it.  `hammer2_ioctl_pfs_snapshot` leaves the new PFS with `inode_tid` set,
so that `hammer2_root` never primes its `modify_tid`, and stamps the new root with an id of
the super-root's counter.  And the upkeep of indirect blocks stamps a parent with the id of
a child, which may be below another child's.
-/
import Mathlib.Logic.Relation
import Mathlib.Order.Basic
import Mathlib.Order.Nat
import Hammer2.Pfs.Ident

namespace Hammer2.Ident

open Machine

/-! ## A blockref and what is below it -/

/-- `e` is an entry of the block `b` points to. -/
def Entry (b e : Bref) : Prop := e ∈ b.blockset

/-- `d` is `b` or a blockref below it. -/
abbrev Held (b d : Bref) : Prop := Relation.ReflTransGen Entry b d

def Everywhere (P : Bref → Prop) (b : Bref) : Prop := ∀ d, Held b d → P d

theorem everywhere_iff {P : Bref → Prop} {b : Bref} :
    Everywhere P b ↔ P b ∧ ∀ e ∈ b.blockset, Everywhere P e := by
  constructor
  · intro h
    exact ⟨h b .refl, fun e he d hd => h d (.head he hd)⟩
  · rintro ⟨hb, hentries⟩ d hd
    rcases hd.cases_head with rfl | ⟨e, he, hd⟩
    · exact hb
    · exact hentries e he d hd

theorem Everywhere.mono {P Q : Bref → Prop} {b : Bref} (h : ∀ d, P d → Q d) (hb : Everywhere P b) :
    Everywhere Q b :=
  fun d hd => h d (hb d hd)

/-- No blockref below `b` has a larger `modify_tid` than the block that holds it. -/
def Ordered (b : Bref) : Prop :=
  Everywhere (fun d => ∀ e ∈ d.blockset, e.modifyTid ≤ d.modifyTid) b

theorem ordered_iff {b : Bref} :
    Ordered b ↔ ∀ e ∈ b.blockset, e.modifyTid ≤ b.modifyTid ∧ Ordered e := by
  rw [Ordered, everywhere_iff, ← forall₂_and]
  rfl

theorem Ordered.le {b d : Bref} (h : Ordered b) (hd : Held b d) : d.modifyTid ≤ b.modifyTid := by
  induction hd with
  | refl => exact Nat.le_refl _
  | tail hbc hcd ih => exact (h _ hbc _ hcd).trans ih

/-- The inode numbers at and below `b` are less than `n`. -/
def Numbers (n : Nat) (b : Bref) : Prop := Everywhere (fun d => d.type = .inode → d.key < n) b

theorem numbers_iff {n : Nat} {b : Bref} :
    Numbers n b ↔ (b.type = .inode → b.key < n) ∧ ∀ e ∈ b.blockset, Numbers n e :=
  everywhere_iff

theorem Numbers.mono {m n : Nat} {b : Bref} (h : Numbers m b) (hmn : m ≤ n) : Numbers n b :=
  Everywhere.mono (fun _ hd hi => (hd hi).trans_le hmn) h

/-- The root of a PFS knows a number above every inode of it. -/
def Numbered (b : Bref) : Prop := Numbers (b.pfsInum + 1) b

/-! ## Block tables -/

theorem slot_key {base : List Bref} {key : Nat} {e : Bref} (h : slot base key = some e) :
    e.key = key :=
  by simpa using List.find?_some h

theorem slot_mem {base : List Bref} {key : Nat} {e : Bref} (h : slot base key = some e) : e ∈ base :=
  List.mem_of_find?_eq_some h

theorem slot_baseInsert {base : List Bref} {b : Bref} {key : Nat} :
    slot (baseInsert base b) key = if b.key = key then some b else slot base key := by
  simp only [slot, baseInsert, baseDelete, List.find?_cons, List.find?_filter]
  rcases eq_or_ne b.key key with rfl | hne
  · simp only [decide_true, if_true]
  · simp only [decide_eq_false hne, if_neg hne]
    congr 1
    funext e
    rcases eq_or_ne e.key key with rfl | he
    · simp [hne.symm]
    · simp [he]

theorem mem_baseInsert {base : List Bref} {b e : Bref} (h : e ∈ baseInsert base b) :
    e = b ∨ e ∈ base := by
  rcases List.mem_cons.mp h with rfl | h
  · exact .inl rfl
  · exact .inr (List.mem_filter.mp h).1

theorem mem_baseDelete {base : List Bref} {key : Nat} {e : Bref} (h : e ∈ baseDelete base key) :
    e ∈ base :=
  (List.mem_filter.mp h).1

/-! ## What the counters are above

The counters of a PFS that was never primed say nothing; its root's chain does. -/

def Dev.tidLimit (s : Dev) (pfs : Nat) : Nat :=
  if (s.pmps pfs).modifyTid = 0 then
    match s.chains (.iroot pfs) with
    | some chain => chain.bref.modifyTid + 1
    | none => 0
  else
    (s.pmps pfs).modifyTid

def Dev.inumLimit (s : Dev) (pfs : Nat) : Nat :=
  if (s.pmps pfs).modifyTid = 0 then
    match s.chains (.iroot pfs) with
    | some chain => chain.bref.pfsInum + 1
    | none => 0
  else
    (s.pmps pfs).inodeTid

theorem Dev.limits_live {s : Dev} {p : Nat} (h : (s.pmps p).modifyTid ≠ 0) :
    s.tidLimit p = (s.pmps p).modifyTid ∧ s.inumLimit p = (s.pmps p).inodeTid :=
  ⟨if_neg h, if_neg h⟩

theorem Dev.limits_idle {s : Dev} {p : Nat} {chain : Chain} (h : (s.pmps p).modifyTid = 0)
    (hc : s.chains (.iroot p) = some chain) :
    s.tidLimit p = chain.bref.modifyTid + 1 ∧ s.inumLimit p = chain.bref.pfsInum + 1 := by
  constructor
  · rw [Dev.tidLimit, if_pos h, hc]
  · rw [Dev.inumLimit, if_pos h, hc]

structure Under (s : Dev) (p : Nat) (b : Bref) : Prop where
  ordered : Ordered b
  tid : b.modifyTid < s.tidLimit p
  inums : Numbers (s.inumLimit p) b

theorem Under.entry {s : Dev} {p : Nat} {b e : Bref} (h : Under s p b) (he : e ∈ b.blockset) :
    Under s p e where
  ordered := (ordered_iff.mp h.ordered e he).2
  tid := (ordered_iff.mp h.ordered e he).1.trans_lt h.tid
  inums := (numbers_iff.mp h.inums).2 e he

/-- A block that keeps its type and key, given new entries and a new id. -/
theorem Under.replace {s : Dev} {p : Nat} {b b' : Bref} (h : Under s p b)
    (htype : b'.type = b.type) (hkey : b'.key = b.key) (htid : b'.modifyTid < s.tidLimit p)
    (hentries : ∀ e ∈ b'.blockset, e.modifyTid ≤ b'.modifyTid ∧ Under s p e) : Under s p b' where
  ordered := ordered_iff.mpr fun e he => ⟨(hentries e he).1, (hentries e he).2.ordered⟩
  tid := htid
  inums := numbers_iff.mpr
    ⟨by rw [htype, hkey]; exact (numbers_iff.mp h.inums).1, fun e he => (hentries e he).2.inums⟩

/-! ## The invariant -/

structure ChainOk (s : Dev) (id : ChainId) (c : Chain) : Prop where
  under : ∀ p, id = .iroot p ∨ c.pmp = some p → Under s p c.bref
  numbered : ∀ p, id = .iroot p → c.modified = false ∨ c.pmp = none ∨ (s.pmps p).modifyTid = 0 →
    Numbered c.bref
  idle : ∀ p, c.pmp = some p → (s.pmps p).modifyTid = 0 →
    id = .iroot p ∧ (c.modified = true → (s.pmps p).inodeTid = c.bref.pfsInum)
  iroot : ∀ p, id = .iroot p → c.bref.key = p ∧ c.bref.type = .pfsroot ∧ (c.pmp = some p ∨ c.pmp = none)
  node : ∀ n, id = .node n → ∃ p, c.pmp = some p ∧
    ∀ pid, c.parent = some pid → ∃ parent, s.chains pid = some parent ∧ parent.pmp = some p

structure PmpOk (s : Dev) (p : Nat) : Prop where
  blockset : ∀ e ∈ (s.pmps p).irootBlockset, Under s p e
  mtids : ∀ m ∈ (s.pmps p).mtids, m < s.tidLimit p
  inums : ∀ n ∈ (s.pmps p).inums, n < s.inumLimit p
  idle : (s.pmps p).modifyTid = 0 → (s.pmps p).mounted = false
  live : (s.pmps p).modifyTid ≠ 0 → inodeStart ≤ (s.pmps p).inodeTid ∧
    ∃ c, s.chains (.iroot p) = some c ∧ c.pmp = some p

/-- A PFS root in a block table of the super-root. -/
structure TopOk (s : Dev) (p : Nat) (e : Bref) : Prop where
  under : Under s p e
  numbered : Numbered e
  type : e.type = .pfsroot

structure Inv (s : Dev) : Prop where
  chains : ∀ id c, s.chains id = some c → ChainOk s id c
  pmps : ∀ p, PmpOk s p
  tops : ∀ t ∈ [s.sroot, s.voldata, s.media], ∀ p e, slot t.blockset p = some e → TopOk s p e

/-! ## What is not touched

`Frame s t`: from `s` to `t` the limits only rise and no chain goes away, so what held of a
chain or a blockref that is left alone still holds. -/

structure Frame (s t : Dev) : Prop where
  tid : ∀ p, s.tidLimit p ≤ t.tidLimit p
  inum : ∀ p, s.inumLimit p ≤ t.inumLimit p
  idle : ∀ p id c, s.chains id = some c → c.pmp = some p → (t.pmps p).modifyTid = 0 →
    (s.pmps p).modifyTid = 0 ∧ (t.pmps p).inodeTid = (s.pmps p).inodeTid
  chains : ∀ id c, s.chains id = some c →
    ∃ c', t.chains id = some c' ∧ ∀ p, c.pmp = some p → c'.pmp = some p

theorem Under.frame {s t : Dev} {p : Nat} {b : Bref} (h : Under s p b) (hf : Frame s t) :
    Under t p b where
  ordered := h.ordered
  tid := h.tid.trans_le (hf.tid p)
  inums := h.inums.mono (hf.inum p)

theorem TopOk.frame {s t : Dev} {p : Nat} {e : Bref} (h : TopOk s p e) (hf : Frame s t) :
    TopOk t p e :=
  ⟨h.under.frame hf, h.numbered, h.type⟩

theorem ChainOk.frame {s t : Dev} {id : ChainId} {c : Chain} (h : ChainOk s id c)
    (hc : s.chains id = some c) (hf : Frame s t) : ChainOk t id c where
  under p hp := (h.under p hp).frame hf
  numbered p hp hcase := by
    refine h.numbered p hp ?_
    rcases hcase with hm | hn | hz
    · exact .inl hm
    · exact .inr (.inl hn)
    · rcases (h.iroot p hp).2.2 with hpmp | hpmp
      · exact .inr (.inr (hf.idle p id c hc hpmp hz).1)
      · exact .inr (.inl hpmp)
  idle p hp hz := by
    obtain ⟨hz', hinum⟩ := hf.idle p id c hc hp hz
    rw [hinum]
    exact h.idle p hp hz'
  iroot := h.iroot
  node n hn := by
    obtain ⟨p, hp, hparent⟩ := h.node n hn
    refine ⟨p, hp, fun pid hpid => ?_⟩
    obtain ⟨parent, hget, hpmp⟩ := hparent pid hpid
    obtain ⟨parent', hget', hpmp'⟩ := hf.chains pid parent hget
    exact ⟨parent', hget', hpmp' p hpmp⟩

/-! ## Replacing a chain -/

@[simp] theorem setChain_pmps {s : Dev} {id : ChainId} {c : Chain} : (s.setChain id c).pmps = s.pmps :=
  rfl

@[simp] theorem setChain_same {s : Dev} {id : ChainId} {c : Chain} :
    (s.setChain id c).chains id = some c :=
  Function.update_self ..

theorem setChain_of_ne {s : Dev} {id id' : ChainId} {c : Chain} (h : id' ≠ id) :
    (s.setChain id c).chains id' = s.chains id' :=
  Function.update_of_ne h ..

/-- The chain `c'` may take the place of what is at `id`: the root of a PFS that was never
primed keeps what the limits are read from, and the PFS stays. -/
structure Fits (s : Dev) (id : ChainId) (c' : Chain) : Prop where
  pmp : ∀ c p, s.chains id = some c → c.pmp = some p → c'.pmp = some p
  idle : ∀ p, id = .iroot p → (s.pmps p).modifyTid = 0 → ∀ c, s.chains id = some c →
    c'.bref.modifyTid = c.bref.modifyTid ∧ c'.bref.pfsInum = c.bref.pfsInum

theorem Fits.frame {s : Dev} {id : ChainId} {c' : Chain} (h : Fits s id c') :
    Frame s (s.setChain id c') := by
  have hlimit : ∀ p, s.tidLimit p ≤ (s.setChain id c').tidLimit p ∧
      s.inumLimit p ≤ (s.setChain id c').inumLimit p := by
    intro p
    rcases eq_or_ne (s.pmps p).modifyTid 0 with hz | hz
    · cases hc : s.chains (.iroot p) with
      | none =>
          simp only [Dev.tidLimit, Dev.inumLimit, if_pos hz, hc]
          exact ⟨Nat.zero_le _, Nat.zero_le _⟩
      | some c =>
          have hl := Dev.limits_idle hz hc
          rcases eq_or_ne (.iroot p) id with rfl | hid
          · obtain ⟨htid, hnum⟩ := h.idle p rfl hz c hc
            have hl' := Dev.limits_idle (s := s.setChain (.iroot p) c') hz setChain_same
            rw [hl.1, hl.2, hl'.1, hl'.2, htid, hnum]
            exact ⟨Nat.le_refl _, Nat.le_refl _⟩
          · have hl' := Dev.limits_idle (s := s.setChain id c') hz ((setChain_of_ne hid).trans hc)
            exact ⟨(hl.1.trans hl'.1.symm).le, (hl.2.trans hl'.2.symm).le⟩
    · have hl := Dev.limits_live hz
      have hl' := Dev.limits_live (s := s.setChain id c') hz
      exact ⟨(hl.1.trans hl'.1.symm).le, (hl.2.trans hl'.2.symm).le⟩
  refine ⟨fun p => (hlimit p).1, fun p => (hlimit p).2, fun p _ _ _ _ hz => ⟨hz, rfl⟩, ?_⟩
  intro id' c hc
  rcases eq_or_ne id' id with rfl | hid
  · exact ⟨c', setChain_same, fun p hp => h.pmp c p hc hp⟩
  · exact ⟨c, (setChain_of_ne hid).trans hc, fun p hp => hp⟩

theorem PmpOk.frame {s t : Dev} {p : Nat} (h : PmpOk s p) (hf : Frame s t)
    (hpmp : t.pmps p = s.pmps p) : PmpOk t p where
  blockset e he := (h.blockset e (hpmp ▸ he)).frame hf
  mtids m hm := (h.mtids m (hpmp ▸ hm)).trans_le (hf.tid p)
  inums n hn := (h.inums n (hpmp ▸ hn)).trans_le (hf.inum p)
  idle hz := by
    rw [hpmp] at hz ⊢
    exact h.idle hz
  live hz := by
    rw [hpmp] at hz ⊢
    obtain ⟨hstart, c, hc, hcp⟩ := h.live hz
    obtain ⟨c', hc', hcp'⟩ := hf.chains _ c hc
    exact ⟨hstart, c', hc', hcp' p hcp⟩

theorem ChainOk.setChain {s : Dev} {id : ChainId} {c' : Chain} (h : ChainOk s id c')
    (hf : Frame s (s.setChain id c')) : ChainOk (s.setChain id c') id c' where
  under p hp := (h.under p hp).frame hf
  numbered := h.numbered
  idle := h.idle
  iroot := h.iroot
  node n hn := by
    obtain ⟨p, hp, hparent⟩ := h.node n hn
    refine ⟨p, hp, fun pid hpid => ?_⟩
    obtain ⟨parent, hget, hpmp⟩ := hparent pid hpid
    obtain ⟨parent', hget', hpmp'⟩ := hf.chains pid parent hget
    exact ⟨parent', hget', hpmp' p hpmp⟩

theorem inv_setChain {s : Dev} {id : ChainId} {c' : Chain} (h : Inv s) (hfit : Fits s id c')
    (hok : ChainOk (s.setChain id c') id c') : Inv (s.setChain id c') where
  chains id' c hc := by
    rcases eq_or_ne id' id with rfl | hid
    · obtain rfl := Option.some.inj (setChain_same.symm.trans hc)
      exact hok
    · rw [setChain_of_ne hid] at hc
      exact (h.chains id' c hc).frame hc hfit.frame
  pmps p := (h.pmps p).frame hfit.frame rfl
  tops t ht p e he := (h.tops t ht p e he).frame hfit.frame

theorem Inv.setChain {s : Dev} {id : ChainId} {c' : Chain} (h : Inv s) (hfit : Fits s id c')
    (hok : ChainOk s id c') : Inv (s.setChain id c') :=
  inv_setChain h hfit (hok.setChain hfit.frame)

theorem Inv.live_of_mounted {s : Dev} (h : Inv s) {p : Nat} (hm : (s.pmps p).mounted = true) :
    (s.pmps p).modifyTid ≠ 0 := by
  intro hz
  rw [(h.pmps p).idle hz] at hm
  cases hm

/-- A chain only exists below a PFS that was primed. -/
theorem Inv.live_of_node {s : Dev} (h : Inv s) {n p : Nat} {c : Chain}
    (hc : s.chains (.node n) = some c) (hp : c.pmp = some p) : (s.pmps p).modifyTid ≠ 0 :=
  fun hz => nomatch ((h.chains _ c hc).idle p hp hz).1

theorem ChainOk.pfs {s : Dev} {c : Chain} {p q : Nat} (h : ChainOk s (.iroot q) c)
    (hp : c.pmp = some p) : q = p := by
  rcases (h.iroot q rfl).2.2 with hq | hq
  · exact Option.some.inj (hq.symm.trans hp)
  · cases hq.symm.trans hp

/-- `c'` is the chain `c` of the PFS `p` with other entries, another id or another parent,
MODIFIED when it is the root. -/
structure Edit (s : Dev) (p : Nat) (id : ChainId) (c c' : Chain) : Prop where
  pmp : c'.pmp = c.pmp
  parent : ∀ pid, c'.parent = some pid →
    c.parent = some pid ∨ ∃ parent, s.chains pid = some parent ∧ parent.pmp = some p
  type : c'.bref.type = c.bref.type
  key : c'.bref.key = c.bref.key
  tid : c'.bref.modifyTid < s.tidLimit p
  entries : ∀ e ∈ c'.bref.blockset, e.modifyTid ≤ c'.bref.modifyTid ∧ Under s p e
  root : ∀ q, id = .iroot q → c'.modified = true

theorem Edit.chainOk {s : Dev} {p : Nat} {id : ChainId} {c c' : Chain} (h : Edit s p id c c')
    (hok : ChainOk s id c) (hp : c.pmp = some p) (hlive : (s.pmps p).modifyTid ≠ 0) :
    ChainOk s id c' where
  under q hq := by
    have hqp : q = p := by
      rcases hq with rfl | hq
      · exact hok.pfs hp
      · exact Option.some.inj (hq.symm.trans (h.pmp.trans hp))
    subst hqp
    exact (hok.under q (.inr hp)).replace h.type h.key h.tid h.entries
  numbered q hq hcase := by
    subst hq
    obtain rfl := hok.pfs hp
    rcases hcase with hm | hn | hz
    · cases hm.symm.trans (h.root _ rfl)
    · cases (h.pmp.trans hp).symm.trans hn
    · exact absurd hz hlive
  idle q hq hz := by
    obtain rfl : q = p := Option.some.inj (hq.symm.trans (h.pmp.trans hp))
    exact absurd hz hlive
  iroot q hq := by
    rw [h.key, h.type, h.pmp]
    exact hok.iroot q hq
  node n hn := by
    refine ⟨p, h.pmp.trans hp, fun pid hpid => ?_⟩
    rcases h.parent pid hpid with hold | hnew
    · obtain ⟨q, hq, hparent⟩ := hok.node n hn
      obtain rfl := Option.some.inj (hq.symm.trans hp)
      exact hparent pid hold
    · exact hnew

theorem Inv.edit {s : Dev} {p : Nat} {id : ChainId} {c c' : Chain} (h : Inv s)
    (hc : s.chains id = some c) (hp : c.pmp = some p) (hlive : (s.pmps p).modifyTid ≠ 0)
    (he : Edit s p id c c') : Inv (s.setChain id c') := by
  have hok := h.chains id c hc
  refine h.setChain ⟨?_, ?_⟩ (he.chainOk hok hp hlive)
  · intro c₀ q hc₀ hq
    obtain rfl := Option.some.inj (hc₀.symm.trans hc)
    exact he.pmp.trans hq
  · rintro q rfl hz
    obtain rfl := hok.pfs hp
    exact absurd hz hlive

theorem Inv.setChain_self {s : Dev} {id : ChainId} {c : Chain} (h : Inv s)
    (hc : s.chains id = some c) : Inv (s.setChain id c) :=
  h.setChain
    ⟨fun c₀ q hc₀ hq => Option.some.inj (hc₀.symm.trans hc) ▸ hq,
      fun q _ _ c₀ hc₀ => by obtain rfl := Option.some.inj (hc₀.symm.trans hc); exact ⟨rfl, rfl⟩⟩
    (h.chains id c hc)

/-! ## Stamps -/

/-- A stamp leaves the chain's id no smaller than those in its block table. -/
def StampOk (tid mtid : Nat) (base : List Bref) : Prop :=
  ∀ e ∈ base, e.modifyTid ≤ if mtid ≠ 0 then mtid else tid

instance (tid mtid : Nat) (base : List Bref) : Decidable (StampOk tid mtid base) :=
  inferInstanceAs (Decidable (∀ e ∈ base, _))

/-- The stamp when the entry of `key` is removed, if there is one. -/
def UnmapOk (parent : Chain) (key mtid : Nat) : Prop :=
  (slot parent.bref.blockset key).isSome →
    StampOk parent.bref.modifyTid mtid (baseDelete parent.bref.blockset key)

instance (parent : Chain) (key mtid : Nat) : Decidable (UnmapOk parent key mtid) :=
  inferInstanceAs (Decidable (_ → _))

/-- The stamp when the entry `obref` is put in. -/
def RemapOk (parent : Chain) (obref : Option Bref) (mtid : Nat) : Prop :=
  ∀ o ∈ obref, StampOk parent.bref.modifyTid mtid (baseInsert parent.bref.blockset o)

instance (parent : Chain) (obref : Option Bref) (mtid : Nat) : Decidable (RemapOk parent obref mtid) :=
  inferInstanceAs (Decidable (∀ o ∈ obref, _))

/-- The chain after a stamp, and with the block table `base`. -/
theorem edit_chainModify {s : Dev} {p mtid : Nat} {id : ChainId} {c : Chain} {base : List Bref}
    (hu : Under s p c.bref) (hm : mtid < s.tidLimit p) (hbase : ∀ e ∈ base, Under s p e)
    (hstamp : StampOk c.bref.modifyTid mtid base) :
    Edit s p id c ((chainModify c mtid).setBlockset base) where
  pmp := rfl
  parent _ hpid := .inl hpid
  type := rfl
  key := rfl
  tid := by
    rcases eq_or_ne mtid 0 with rfl | hz
    · exact hu.tid
    · simp only [Chain.setBlockset, chainModify, if_pos hz]
      exact hm
  entries e he := ⟨hstamp e he, hbase e he⟩
  root _ _ := rfl

section Stamps

variable {s : Dev} {p mtid : Nat} {id : ChainId} {c : Chain}

theorem inv_modify (h : Inv s) (hc : s.chains id = some c) (hp : c.pmp = some p)
    (hlive : (s.pmps p).modifyTid ≠ 0) (hm : mtid < s.tidLimit p)
    (hstamp : StampOk c.bref.modifyTid mtid c.bref.blockset) :
    Inv (s.setChain id (chainModify c mtid)) :=
  have hu := (h.chains id c hc).under p (.inr hp)
  h.edit hc hp hlive (edit_chainModify hu hm (fun _ he => hu.entry he) hstamp)

theorem inv_unmap {key : Nat} (h : Inv s) (hc : s.chains id = some c) (hp : c.pmp = some p)
    (hlive : (s.pmps p).modifyTid ≠ 0) (hm : mtid < s.tidLimit p) (hstamp : UnmapOk c key mtid) :
    Inv (s.setChain id (unmap c key mtid)) := by
  have hu := (h.chains id c hc).under p (.inr hp)
  cases hs : slot c.bref.blockset key with
  | none =>
      simp only [unmap, hs]
      exact h.setChain_self hc
  | some e =>
      simp only [unmap, hs]
      exact h.edit hc hp hlive (edit_chainModify hu hm (fun e he => hu.entry (mem_baseDelete he))
        (hstamp (by rw [hs]; rfl)))

theorem inv_remap {obref : Option Bref} (h : Inv s) (hc : s.chains id = some c)
    (hp : c.pmp = some p) (hlive : (s.pmps p).modifyTid ≠ 0) (hm : mtid < s.tidLimit p)
    (hobref : ∀ o ∈ obref, Under s p o) (hstamp : RemapOk c obref mtid) :
    Inv (s.setChain id (remap c obref mtid)) := by
  have hu := (h.chains id c hc).under p (.inr hp)
  cases obref with
  | none => exact h.setChain_self hc
  | some o =>
      refine h.edit hc hp hlive (edit_chainModify hu hm (fun e he => ?_) (hstamp o rfl))
      rcases mem_baseInsert he with rfl | he
      · exact hobref e rfl
      · exact hu.entry he

/-- A chain is detached, or put under a chain of the same PFS. -/
theorem inv_setParent {n : Nat} {parent : Option ChainId} {update : Bool} (h : Inv s)
    (hc : s.chains (.node n) = some c) (hp : c.pmp = some p)
    (hparent : ∀ pid ∈ parent, ∃ P, s.chains pid = some P ∧ P.pmp = some p) :
    Inv (s.setChain (.node n) { c with parent, update }) := by
  have hu := (h.chains _ c hc).under p (.inr hp)
  refine h.edit hc hp (h.live_of_node hc hp) ⟨rfl, fun pid hpid => .inr (hparent pid hpid), rfl, rfl,
    hu.tid, fun e he => ⟨(ordered_iff.mp hu.ordered e he).1, hu.entry he⟩, nofun⟩

end Stamps

/-! ## Deleting and moving a chain -/

theorem limits_setChain {s : Dev} {p : Nat} {id : ChainId} {c : Chain}
    (hlive : (s.pmps p).modifyTid ≠ 0) : (s.setChain id c).tidLimit p = s.tidLimit p :=
  (Dev.limits_live (s := s.setChain id c) hlive).1.trans (Dev.limits_live hlive).1.symm

theorem inv_chainDelete {s : Dev} {p n mtid : Nat} {pid : ChainId} {chain parent : Chain}
    (h : Inv s) (hc : s.chains (.node n) = some chain) (hp : chain.pmp = some p)
    (hparent : s.chains pid = some parent) (hpp : parent.pmp = some p) (hne : pid ≠ .node n)
    (hm : mtid < s.tidLimit p) (hstamp : UnmapOk parent chain.bref.key mtid) :
    Inv (chainDelete s n mtid chain pid parent) := by
  have hlive := h.live_of_node hc hp
  have hdetached : Inv (s.setChain (.node n) { chain with parent := none }) :=
    inv_setParent h hc hp nofun
  refine inv_unmap hdetached ((setChain_of_ne hne).trans hparent) hpp hlive ?_ hstamp
  rw [limits_setChain hlive]
  exact hm

theorem inv_parent {s : Dev} {p n : Nat} {pid : ChainId} {chain parent : Chain} (h : Inv s)
    (hc : s.chains (.node n) = some chain) (hp : chain.pmp = some p)
    (hpid : chain.parent = some pid) (hparent : s.chains pid = some parent) : parent.pmp = some p := by
  obtain ⟨q, hq, hpar⟩ := (h.chains _ chain hc).node n rfl
  obtain ⟨P, hP, hPp⟩ := hpar pid hpid
  obtain rfl := Option.some.inj (hP.symm.trans hparent)
  exact hPp.trans (hq.symm.trans hp)

theorem inv_move {s : Dev} {p n mtid : Nat} {pid dst : ChainId} {chain parent target : Chain}
    {update : Bool} (h : Inv s) (hc : s.chains (.node n) = some chain) (hp : chain.pmp = some p)
    (hparent : s.chains pid = some parent) (hpp : parent.pmp = some p)
    (htarget : s.chains dst = some target) (htp : target.pmp = some p) (hne : pid ≠ .node n)
    (hdn : dst ≠ .node n) (hdp : dst ≠ pid) (hm : mtid < s.tidLimit p)
    (hunmap : UnmapOk parent chain.bref.key mtid)
    (hremap : RemapOk target (slot parent.bref.blockset chain.bref.key) mtid) :
    Inv ((((chainDelete s n mtid chain pid parent).setChain dst
      (remap target (slot parent.bref.blockset chain.bref.key) mtid))).setChain (.node n)
        { chain with parent := some dst, update }) := by
  have hlive := h.live_of_node hc hp
  have hdeleted := inv_chainDelete h hc hp hparent hpp hne hm hunmap
  have hlim : (chainDelete s n mtid chain pid parent).tidLimit p = s.tidLimit p :=
    Eq.trans (limits_setChain (s := s.setChain _ _) hlive) (limits_setChain hlive)
  have hobref : ∀ o ∈ slot parent.bref.blockset chain.bref.key,
      Under (chainDelete s n mtid chain pid parent) p o := by
    intro o ho
    have hu := ((h.chains pid parent hparent).under p (.inr hpp)).entry (slot_mem ho)
    exact ⟨hu.ordered, hlim.symm ▸ hu.tid, hu.inums.mono
      (((Dev.limits_live hlive).2.trans (Dev.limits_live
        (s := chainDelete s n mtid chain pid parent) hlive).2.symm).le)⟩
  have hmapped := inv_remap hdeleted (((setChain_of_ne hdp).trans (setChain_of_ne hdn)).trans htarget)
    htp hlive (hlim.symm ▸ hm) hobref hremap
  have hget : ((chainDelete s n mtid chain pid parent).setChain dst
      (remap target (slot parent.bref.blockset chain.bref.key) mtid)).chains (.node n) =
        some { chain with parent := none } :=
    (setChain_of_ne hdn.symm).trans ((setChain_of_ne hne.symm).trans setChain_same)
  refine inv_setParent (c := { chain with parent := none }) hmapped hget hp ?_
  intro d hd
  obtain rfl := Option.some.inj hd
  refine ⟨_, setChain_same, ?_⟩
  cases slot parent.bref.blockset chain.bref.key with
  | none => exact htp
  | some o => exact htp

/-! ## The flush of one chain -/

/-- `pfs_inum` and the flags are all that changes. -/
theorem Under.pfsInum {s : Dev} {p k : Nat} {b : Bref} (h : Under s p b) :
    Under s p { b with pfsInum := k } :=
  h.replace rfl rfl h.tid fun e he => ⟨(ordered_iff.mp h.ordered e he).1, h.entry he⟩

theorem Numbers.pfsInum {n k : Nat} {b : Bref} (h : Numbers n b) : Numbers n { b with pfsInum := k } :=
  have h' := numbers_iff.mp h
  numbers_iff.mpr h'

section Flush

variable {s : Dev} {id : ChainId} {c : Chain}

theorem disposeModified_bref (c : Chain) :
    ∃ k, (disposeModified s c).bref = { c.bref with pfsInum := k } := by
  simp only [disposeModified]
  split
  · exact ⟨_, rfl⟩
  · exact ⟨c.bref.pfsInum, by cases c.bref; rfl⟩

@[simp] theorem disposeModified_pmp : (disposeModified s c).pmp = c.pmp := by
  simp only [disposeModified]
  split <;> rfl

@[simp] theorem disposeModified_parent : (disposeModified s c).parent = c.parent := by
  simp only [disposeModified]
  split <;> rfl

@[simp] theorem disposeModified_modified : (disposeModified s c).modified = false := by
  simp only [disposeModified]
  split
  · rfl
  · exact Bool.not_eq_true _ ▸ ‹_›

/-- The number the root is flushed with: the counter of its PFS, or the one it has. -/
theorem disposeModified_pfsInum (h : c.bref.type = .pfsroot) :
    (disposeModified s c).bref.pfsInum =
      if c.modified then c.pmp.elim c.bref.pfsInum (fun q => (s.pmps q).inodeTid)
      else c.bref.pfsInum := by
  simp only [disposeModified]
  split
  · cases hp : c.pmp <;> simp only [h, Option.elim]
  · rfl

theorem disposeModified_numbered (hok : ChainOk s (.iroot p) c) : Numbered (disposeModified s c).bref := by
  obtain ⟨-, htype, hpmp⟩ := hok.iroot p rfl
  obtain ⟨k, hk⟩ := disposeModified_bref (s := s) c
  have hinum := disposeModified_pfsInum (s := s) htype
  rw [hk] at hinum ⊢
  refine Numbers.pfsInum ?_
  simp only at hinum ⊢
  rw [hinum]
  cases hm : c.modified with
  | false => exact hok.numbered p rfl (.inl hm)
  | true =>
      rcases hpmp with hp | hn
      · simp only [hp, Option.elim, if_true]
        rcases eq_or_ne (s.pmps p).modifyTid 0 with hz | hz
        · rw [(hok.idle p hp hz).2 hm]
          exact hok.numbered p rfl (.inr (.inr hz))
        · have hu := (hok.under p (.inl rfl)).inums
          rw [(Dev.limits_live hz).2] at hu
          exact hu.mono (Nat.le_succ _)
      · simp only [hn, Option.elim, if_true]
        exact hok.numbered p rfl (.inr (.inl hn))

theorem disposeModified_ok (u : Bool) (hok : ChainOk s id c) :
    ChainOk s id { disposeModified s c with update := u } := by
  obtain ⟨k, hk⟩ := disposeModified_bref (s := s) c
  refine ⟨?_, ?_, ?_, ?_, ?_⟩
  · intro p hp
    rw [disposeModified_pmp] at hp
    show Under s p (disposeModified s c).bref
    rw [hk]
    exact (hok.under p hp).pfsInum
  · rintro p rfl -
    exact disposeModified_numbered hok
  · intro p hp hz
    rw [disposeModified_pmp] at hp
    refine ⟨(hok.idle p hp hz).1, fun hm => ?_⟩
    cases (disposeModified_modified (s := s) (c := c)).symm.trans hm
  · rintro p rfl
    show (disposeModified s c).bref.key = p ∧ (disposeModified s c).bref.type = .pfsroot ∧ _
    rw [hk, disposeModified_pmp]
    exact hok.iroot p rfl
  · intro n hn
    rw [disposeModified_pmp, disposeModified_parent]
    exact hok.node n hn

theorem inv_dispose (u : Bool) (h : Inv s) (hc : s.chains id = some c) :
    Inv (s.setChain id { disposeModified s c with update := u }) := by
  have hok := h.chains id c hc
  refine h.setChain ⟨?_, ?_⟩ (disposeModified_ok u hok)
  · intro c₀ q hc₀ hq
    obtain rfl := Option.some.inj (hc₀.symm.trans hc)
    exact disposeModified_pmp.trans hq
  · rintro q rfl hz c₀ hc₀
    obtain rfl := Option.some.inj (hc₀.symm.trans hc)
    obtain ⟨k, hk⟩ := disposeModified_bref (s := s) c₀
    obtain ⟨-, htype, hpmp⟩ := hok.iroot q rfl
    have htid : (disposeModified s c₀).bref.modifyTid = c₀.bref.modifyTid := by rw [hk]
    refine ⟨htid, (disposeModified_pfsInum htype).trans ?_⟩
    cases hm : c₀.modified with
    | false => rfl
    | true =>
        rcases hpmp with hp | hn
        · rw [hp]
          exact (hok.idle q hp hz).2 hm
        · rw [hn]
          rfl

/-- A new block table of the super-root, one of whose entries may be new. -/
theorem inv_tops {s t : Dev} (h : Inv s) (hchains : t.chains = s.chains) (hpmps : t.pmps = s.pmps)
    (htops : ∀ x ∈ [t.sroot, t.voldata, t.media], ∀ p e, slot x.blockset p = some e →
      TopOk s p e) : Inv t := by
  have htid : ∀ p, s.tidLimit p = t.tidLimit p := by
    intro p
    rw [Dev.tidLimit, Dev.tidLimit, hchains, hpmps]
  have hinum : ∀ p, s.inumLimit p = t.inumLimit p := by
    intro p
    rw [Dev.inumLimit, Dev.inumLimit, hchains, hpmps]
  have hf : Frame s t := by
    refine ⟨fun p => (htid p).le, fun p => (hinum p).le, fun p _ _ _ _ hz => ?_, fun id c hc => ?_⟩
    · rw [hpmps] at hz ⊢
      exact ⟨hz, rfl⟩
    · exact ⟨c, hchains ▸ hc, fun _ hp => hp⟩
  refine ⟨fun id c hc => ?_, fun p => (h.pmps p).frame hf (congrFun hpmps p), fun x hx p e he => ?_⟩
  · rw [hchains] at hc
    exact (h.chains id c hc).frame hc hf
  · exact (htops x hx p e he).frame hf

/-- The block table of the super-root takes the root of a PFS. -/
theorem inv_flushRoot {p : Nat} {u : Bool} {sroot : Bref} (h : Inv s)
    (hc : s.chains (.iroot p) = some c)
    (hbase : sroot.blockset = baseInsert s.sroot.blockset (disposeModified s c).bref) :
    Inv { s.setChain (.iroot p) { disposeModified s c with update := u } with sroot } := by
  have hd := inv_dispose u h hc
  have hok := hd.chains (.iroot p) _ setChain_same
  refine inv_tops hd rfl rfl ?_
  intro x hx q e he
  rcases List.mem_cons.mp hx with rfl | hx
  · rw [hbase, slot_baseInsert] at he
    split at he
    · rename_i hkey
      obtain rfl := Option.some.inj he
      obtain rfl : p = q := (hok.iroot p rfl).1.symm.trans hkey
      exact ⟨hok.under p (.inl rfl), hok.numbered p rfl (.inl disposeModified_modified),
        (hok.iroot p rfl).2.1⟩
    · exact hd.tops s.sroot (List.mem_cons_self ..) q e he
  · exact hd.tops x (List.mem_cons_of_mem _ hx) q e he

/-- The parent's block table takes the flushed chain. -/
theorem inv_flushNode {n : Nat} {pid : ChainId} {parent : Chain} {u : Bool} (h : Inv s)
    (hc : s.chains (.node n) = some c) (hpid : c.parent = some pid)
    (hparent : s.chains pid = some parent) (hne : pid ≠ .node n) :
    Inv ((s.setChain (.node n) { disposeModified s c with update := u }).setChain pid
      (updateParent parent (disposeModified s c).bref)) := by
  obtain ⟨p, hp, -⟩ := (h.chains _ c hc).node n rfl
  have hpp := inv_parent h hc hp hpid hparent
  have hd := inv_dispose u h hc
  have hget := (setChain_of_ne (s := s) (c := { disposeModified s c with update := u }) hne).trans hparent
  have hu := (hd.chains _ _ hget).under p (.inr hpp)
  have hnew := (hd.chains _ _ setChain_same).under p (.inr (disposeModified_pmp.trans hp))
  refine hd.edit hget hpp (h.live_of_node hc hp) ⟨rfl, fun _ hq => .inl hq, rfl, rfl, ?_, ?_,
    fun _ _ => rfl⟩
  · exact max_lt hu.tid hnew.tid
  · intro e he
    rcases mem_baseInsert he with rfl | he
    · exact ⟨Nat.le_max_right .., hnew⟩
    · exact ⟨(ordered_iff.mp hu.ordered e he).1.trans (Nat.le_max_left ..), hu.entry he⟩

theorem inv_flushCore {t : Dev} {fssync err : Bool} (h : Inv s)
    (hstep : flushCore s id fssync err = some t) : Inv t := by
  cases hc : s.chains id with
  | none => simp only [flushCore, hc, reduceCtorEq] at hstep
  | some c =>
      have hself : Inv (s.setChain id (disposeModified s c)) := inv_dispose _ h hc
      simp only [flushCore, hc] at hstep
      split at hstep
      · cases hstep
        exact hself
      · cases id with
        | iroot p =>
            dsimp only at hstep
            split at hstep
            · cases hstep
              exact hself
            · cases hstep
              exact inv_flushRoot h hc rfl
        | node n =>
            cases hpid : c.parent with
            | none =>
                simp only [disposeModified_parent, hpid] at hstep
                cases hstep
                simpa only [disposeModified_parent, hpid] using inv_dispose false h hc
            | some pid =>
                simp only [disposeModified_parent, hpid] at hstep
                split at hstep
                · cases hstep
                · rename_i parent hparent
                  split at hstep
                  · cases hstep
                  · rename_i hne
                    split at hstep
                    · cases hstep
                      exact hself
                    · cases hstep
                      simpa only [disposeModified_parent, hpid] using
                        inv_flushNode (u := false) h hc hpid hparent hne

end Flush

/-! ## New chains -/

/-- A chain at an unused place. -/
theorem inv_add {s : Dev} {n : Nat} {c : Chain} (h : Inv s) (hnew : s.chains (.node n) = none)
    (hok : ChainOk s (.node n) c) : Inv (s.setChain (.node n) c) :=
  h.setChain ⟨fun _ _ hc => (nomatch hnew.symm.trans hc), nofun⟩ hok

theorem mountedChain_eq_some {s : Dev} {id : ChainId} {c : Chain} {p : Nat}
    (h : mountedChain s id = some (c, p)) :
    s.chains id = some c ∧ c.pmp = some p ∧ (s.pmps p).mounted = true := by
  simp only [mountedChain] at h
  split at h
  · split at h
    · split at h
      · cases h
        exact ⟨‹_›, ‹_›, ‹_›⟩
      · cases h
    · cases h
  · cases h

theorem inv_load {s : Dev} {pid : ChainId} {parent : Chain} {p key n : Nat} {bref : Bref}
    (h : Inv s) (hparent : s.chains pid = some parent) (hpp : parent.pmp = some p)
    (hm : (s.pmps p).mounted = true) (hslot : slot parent.bref.blockset key = some bref)
    (hnew : s.chains (.node n) = none) :
    Inv (s.setChain (.node n)
      { bref, parent := some pid, modified := false, update := false, pmp := some p }) := by
  have hu := ((h.chains pid parent hparent).under p (.inr hpp)).entry (slot_mem hslot)
  refine inv_add h hnew ⟨?_, nofun, ?_, nofun, ?_⟩
  · rintro q (hq | hq)
    · cases hq
    · obtain rfl := Option.some.inj hq
      exact hu
  · intro q hq hz
    obtain rfl := Option.some.inj hq
    exact absurd hz (h.live_of_mounted hm)
  · intro _ _
    exact ⟨p, rfl, fun d hd => ⟨parent, Option.some.inj hd ▸ hparent, hpp⟩⟩

theorem inv_create {s : Dev} {pid : ChainId} {parent : Chain} {type : BrefType} {p key n mtid : Nat}
    (h : Inv s) (hparent : s.chains pid = some parent) (hpp : parent.pmp = some p)
    (hm : (s.pmps p).mounted = true) (hnew : s.chains (.node n) = none)
    (hmtid : mtid ∈ (s.pmps p).mtids) (hinum : type = .inode → key ∈ (s.pmps p).inums) :
    Inv (s.setChain (.node n) (chainModify
      { bref := ⟨type, key, 0, 0, []⟩, parent := some pid, modified := false, update := false,
        pmp := some p } mtid)) := by
  have hlt := (h.pmps p).mtids mtid hmtid
  refine inv_add h hnew ⟨?_, nofun, ?_, nofun, ?_⟩
  · rintro q (hq | hq)
    · cases hq
    · obtain rfl := Option.some.inj hq
      refine ⟨ordered_iff.mpr nofun, ?_, numbers_iff.mpr ⟨fun ht => ?_, nofun⟩⟩
      · rcases eq_or_ne mtid 0 with rfl | hz
        · exact hlt
        · simp only [chainModify, if_pos hz]
          exact hlt
      · exact (h.pmps _).inums key (hinum ht)
  · intro q hq hz
    obtain rfl := Option.some.inj hq
    exact absurd hz (h.live_of_mounted hm)
  · intro _ _
    exact ⟨p, rfl, fun d hd => ⟨parent, Option.some.inj hd ▸ hparent, hpp⟩⟩

/-! ## The counters of a PFS -/

@[simp] theorem setPmp_same {s : Dev} {p : Nat} {pmp : Pmp} : (s.setPmp p pmp).pmps p = pmp :=
  Function.update_self ..

theorem setPmp_of_ne {s : Dev} {p q : Nat} {pmp : Pmp} (h : q ≠ p) :
    (s.setPmp p pmp).pmps q = s.pmps q :=
  Function.update_of_ne h ..

/-- What a change of a PFS has to keep. -/
structure PmpFits (s : Dev) (p : Nat) (pmp : Pmp) : Prop where
  tid : s.tidLimit p ≤ (s.setPmp p pmp).tidLimit p
  inum : s.inumLimit p ≤ (s.setPmp p pmp).inumLimit p
  idle : pmp.modifyTid = 0 → (s.pmps p).modifyTid = 0 ∧ pmp.mounted = false ∧
    ((∃ id c, s.chains id = some c ∧ c.pmp = some p) → pmp.inodeTid = (s.pmps p).inodeTid)
  live : pmp.modifyTid ≠ 0 → inodeStart ≤ pmp.inodeTid ∧
    ∃ c, s.chains (.iroot p) = some c ∧ c.pmp = some p
  blockset : ∀ e ∈ pmp.irootBlockset, Under s p e
  mtids : ∀ m ∈ pmp.mtids, m < (s.setPmp p pmp).tidLimit p
  inums : ∀ n ∈ pmp.inums, n < (s.setPmp p pmp).inumLimit p

theorem setPmp_limits_of_ne {s : Dev} {p q : Nat} {pmp : Pmp} (h : q ≠ p) :
    (s.setPmp p pmp).tidLimit q = s.tidLimit q ∧ (s.setPmp p pmp).inumLimit q = s.inumLimit q := by
  simp only [Dev.tidLimit, Dev.inumLimit, setPmp_of_ne h]
  exact ⟨rfl, rfl⟩

theorem PmpFits.frame {s : Dev} {p : Nat} {pmp : Pmp} (h : PmpFits s p pmp) :
    Frame s (s.setPmp p pmp) := by
  refine ⟨fun q => ?_, fun q => ?_, fun q id c hc hp hz => ?_, fun id c hc => ⟨c, hc, fun _ hp => hp⟩⟩
  · rcases eq_or_ne q p with rfl | hne
    · exact h.tid
    · exact (setPmp_limits_of_ne hne).1.ge
  · rcases eq_or_ne q p with rfl | hne
    · exact h.inum
    · exact (setPmp_limits_of_ne hne).2.ge
  · rcases eq_or_ne q p with rfl | hne
    · rw [setPmp_same] at hz ⊢
      exact ⟨(h.idle hz).1, (h.idle hz).2.2 ⟨id, c, hc, hp⟩⟩
    · rw [setPmp_of_ne hne] at hz ⊢
      exact ⟨hz, rfl⟩

theorem Inv.setPmp {s : Dev} {p : Nat} {pmp : Pmp} (h : Inv s) (hfit : PmpFits s p pmp) :
    Inv (s.setPmp p pmp) where
  chains id c hc := (h.chains id c hc).frame hc hfit.frame
  pmps q := by
    rcases eq_or_ne q p with rfl | hne
    · refine ⟨?_, ?_, ?_, ?_, ?_⟩
      · rw [setPmp_same]
        exact fun e he => (hfit.blockset e he).frame hfit.frame
      · rw [setPmp_same]
        exact hfit.mtids
      · rw [setPmp_same]
        exact hfit.inums
      · rw [setPmp_same]
        exact fun hz => (hfit.idle hz).2.1
      · rw [setPmp_same]
        exact hfit.live
    · exact (h.pmps q).frame hfit.frame (setPmp_of_ne hne)
  tops t ht q e he := (h.tops t ht q e he).frame hfit.frame

theorem setPmp_limits_live {s : Dev} {p : Nat} {pmp : Pmp} (h : pmp.modifyTid ≠ 0) :
    (s.setPmp p pmp).tidLimit p = pmp.modifyTid ∧ (s.setPmp p pmp).inumLimit p = pmp.inodeTid := by
  have hl := Dev.limits_live (s := s.setPmp p pmp) (p := p) (by rw [setPmp_same]; exact h)
  rw [setPmp_same] at hl
  exact hl

/-- A PFS that was primed goes on with larger counters. -/
theorem pmpFits_live {s : Dev} {p : Nat} {pmp : Pmp} (h : Inv s) (hlive : (s.pmps p).modifyTid ≠ 0)
    (htid : (s.pmps p).modifyTid ≤ pmp.modifyTid) (hinum : (s.pmps p).inodeTid ≤ pmp.inodeTid)
    (hblockset : ∀ e ∈ pmp.irootBlockset, Under s p e)
    (hmtids : ∀ m ∈ pmp.mtids, m ∈ (s.pmps p).mtids ∨ m < pmp.modifyTid)
    (hinums : ∀ n ∈ pmp.inums, n ∈ (s.pmps p).inums ∨ n < pmp.inodeTid) : PmpFits s p pmp := by
  have hne : pmp.modifyTid ≠ 0 := Nat.ne_of_gt ((Nat.pos_of_ne_zero hlive).trans_le htid)
  obtain ⟨hl, hl'⟩ := Dev.limits_live hlive
  obtain ⟨hn, hn'⟩ := setPmp_limits_live (s := s) (p := p) hne
  have hp := h.pmps p
  refine ⟨?_, ?_, fun hz => absurd hz hne, fun _ => ?_, hblockset, fun m hm => ?_, fun n hn => ?_⟩
  · rw [hl, hn]
    exact htid
  · rw [hl', hn']
    exact hinum
  · exact ⟨(hp.live hlive).1.trans hinum, (hp.live hlive).2⟩
  · rw [hn]
    rcases hmtids m hm with hold | hnew
    · exact (hl ▸ hp.mtids m hold).trans_le htid
    · exact hnew
  · rw [hn']
    rcases hinums n hn with hold | hnew
    · exact (hl' ▸ hp.inums n hold).trans_le hinum
    · exact hnew

/-- A PFS whose counters and held ids stay. -/
theorem pmpFits_same {s : Dev} {p : Nat} {pmp : Pmp} (h : Inv s)
    (htid : pmp.modifyTid = (s.pmps p).modifyTid) (hinum : pmp.inodeTid = (s.pmps p).inodeTid)
    (hmounted : pmp.mounted = (s.pmps p).mounted ∨ pmp.mounted = false)
    (hmtids : pmp.mtids = (s.pmps p).mtids) (hinums : pmp.inums = (s.pmps p).inums)
    (hblockset : ∀ e ∈ pmp.irootBlockset, Under s p e) : PmpFits s p pmp := by
  have hp := h.pmps p
  have hl : (s.setPmp p pmp).tidLimit p = s.tidLimit p := by
    simp only [Dev.tidLimit, setPmp_same, htid]
    rfl
  have hl' : (s.setPmp p pmp).inumLimit p = s.inumLimit p := by
    simp only [Dev.inumLimit, setPmp_same, htid, hinum]
    rfl
  refine ⟨hl.ge, hl'.ge, fun hz => ?_, fun hz => ?_, hblockset, ?_, ?_⟩
  · rw [htid] at hz
    refine ⟨hz, ?_, fun _ => hinum⟩
    rcases hmounted with hm | hm
    · exact hm.trans (hp.idle hz)
    · exact hm
  · rw [htid] at hz
    rw [hinum]
    exact hp.live hz
  · rw [hl, hmtids]
    exact hp.mtids
  · rw [hl', hinums]
    exact hp.inums

theorem root_inodeTid (pmp : Pmp) (focus : Bref) (h : pmp.inodeTid = 0) :
    (root pmp focus).modifyTid = focus.modifyTid + 1 ∧
      inodeStart ≤ (root pmp focus).inodeTid ∧ focus.pfsInum + 1 ≤ (root pmp focus).inodeTid := by
  simp only [root, if_pos h]
  split
  · exact ⟨trivial, Nat.le_refl _, Nat.le_of_lt ‹_›⟩
  · exact ⟨trivial, Nat.le_of_not_lt ‹_›, Nat.le_refl _⟩

theorem root_frame (pmp : Pmp) (focus : Bref) : (root pmp focus).irootBlockset = pmp.irootBlockset ∧
    (root pmp focus).mtids = pmp.mtids ∧ (root pmp focus).inums = pmp.inums := by
  simp only [root]
  split <;> exact ⟨rfl, rfl, rfl⟩

/-- `hammer2_root` primes the counters from the root, or they were primed before. -/
theorem inv_mount {s : Dev} {p : Nat} {c : Chain} (h : Inv s) (hc : s.chains (.iroot p) = some c)
    (hp : c.pmp = some p) (hok : (s.pmps p).inodeTid = 0 ∨ (s.pmps p).modifyTid ≠ 0) :
    Inv (s.setPmp p { root (s.pmps p) c.bref with mounted := true }) := by
  have hpmp := h.pmps p
  obtain ⟨hblockset, hmtids, hinums⟩ := root_frame (s.pmps p) c.bref
  rcases eq_or_ne (s.pmps p).inodeTid 0 with hz | hne
  · have hidle : (s.pmps p).modifyTid = 0 := by
      rcases eq_or_ne (s.pmps p).modifyTid 0 with hidle | hlive
      · exact hidle
      · have hstart := (hpmp.live hlive).1
        rw [hz] at hstart
        cases hstart
    obtain ⟨htid, hstart, hinum⟩ := root_inodeTid (s.pmps p) c.bref hz
    have hlive : ({ root (s.pmps p) c.bref with mounted := true } : Pmp).modifyTid ≠ 0 := by
      show (root (s.pmps p) c.bref).modifyTid ≠ 0
      rw [htid]
      exact Nat.succ_ne_zero _
    obtain ⟨hl, hl'⟩ := Dev.limits_idle hidle hc
    obtain ⟨hn, hn'⟩ := setPmp_limits_live (s := s) (p := p) hlive
    have htidLe : s.tidLimit p ≤ (root (s.pmps p) c.bref).modifyTid := (hl.trans htid.symm).le
    have hinumLe : s.inumLimit p ≤ (root (s.pmps p) c.bref).inodeTid := hl'.le.trans hinum
    refine h.setPmp ⟨hn ▸ htidLe, hn' ▸ hinumLe, fun hzero => absurd hzero hlive,
      fun _ => ⟨hstart, c, hc, hp⟩, ?_, ?_, ?_⟩
    · exact fun e he => hpmp.blockset e (hblockset ▸ he)
    · intro m hm
      exact (hpmp.mtids m (hmtids ▸ hm)).trans_le (hn ▸ htidLe)
    · intro n hn₀
      exact (hpmp.inums n (hinums ▸ hn₀)).trans_le (hn' ▸ hinumLe)
  · have hlive := hok.resolve_left hne
    have hroot : root (s.pmps p) c.bref = s.pmps p := if_neg hne
    rw [hroot]
    exact h.setPmp (pmpFits_live h hlive (Nat.le_refl _) (Nat.le_refl _) hpmp.blockset
      (fun _ hm => .inl hm) fun _ hn => .inl hn)

/-! ## Snapshots -/

theorem Inv.idle_of_absent {s : Dev} (h : Inv s) {p : Nat} (hc : ∀ c, s.chains (.iroot p) = some c →
    c.pmp = none) : (s.pmps p).modifyTid = 0 := by
  rcases eq_or_ne (s.pmps p).modifyTid 0 with hz | hne
  · exact hz
  · obtain ⟨-, c, hget, hp⟩ := (h.pmps p).live hne
    cases (hc c hget).symm.trans hp

/-- The root of a new PFS bounds what it was given. -/
theorem inv_newRoot {s : Dev} {new : Nat} {c : Chain} (h : Inv s)
    (hnew : s.chains (.iroot new) = none) (hpmp : c.pmp = none) (hkey : c.bref.key = new)
    (htype : c.bref.type = .pfsroot)
    (hentries : ∀ e ∈ c.bref.blockset, e.modifyTid ≤ c.bref.modifyTid ∧ Ordered e ∧
      Numbers (c.bref.pfsInum + 1) e) : Inv (s.setChain (.iroot new) c) := by
  have hidle := h.idle_of_absent (p := new) fun c hc => nomatch hnew.symm.trans hc
  obtain ⟨hl, hl'⟩ := Dev.limits_idle (s := s.setChain (.iroot new) c) hidle setChain_same
  have hnum : Numbered c.bref :=
    numbers_iff.mpr ⟨fun ht => (nomatch htype.symm.trans ht), fun e he => (hentries e he).2.2⟩
  refine inv_setChain h ⟨fun c q hc => ?_, fun q _ _ c hc => ?_⟩ ⟨?_, fun _ _ _ => hnum, ?_, ?_, nofun⟩
  · cases hnew.symm.trans hc
  · cases hnew.symm.trans hc
  · rintro q (hq | hq)
    · cases hq
      refine ⟨ordered_iff.mpr fun e he => ⟨(hentries e he).1, (hentries e he).2.1⟩, ?_, ?_⟩
      · rw [hl]
        exact Nat.lt_succ_self _
      · rw [hl']
        exact hnum
    · cases hpmp.symm.trans hq
  · intro q hq
    cases hpmp.symm.trans hq
  · intro q hq
    cases hq
    exact ⟨hkey, htype, .inr hpmp⟩

theorem inv_snapshot {s t : Dev} {p new : Nat} (h : Inv s)
    (hok : StampOk 0 (s.spmpTid + 2) (s.pmps p).irootBlockset)
    (hstep : pfsSnapshot s p new = some t) : Inv t := by
  simp only [pfsSnapshot] at hstep
  split at hstep
  · rename_i hguard
    obtain ⟨hm, hnew⟩ := hguard
    cases hstep
    have hlive := h.live_of_mounted hm
    have hsub : Inv (s.setPmp p (transSub (s.pmps p)).2) :=
      h.setPmp (pmpFits_live h hlive (Nat.le_succ _) (Nat.le_refl _) (h.pmps p).blockset
        (fun _ hm => .inl hm) fun _ hn => .inl hn)
    have hroot := inv_newRoot hsub hnew
      (c := chainModify
        { bref := ⟨.pfsroot, new, 0, (s.pmps p).inodeTid + 1, (s.pmps p).irootBlockset⟩,
          parent := none, modified := true, update := true, pmp := none } (s.spmpTid + 2))
      rfl rfl rfl (fun e he => by
        have hu := (h.pmps p).blockset e he
        refine ⟨hok e he, hu.ordered, hu.inums.mono ?_⟩
        rw [(Dev.limits_live hlive).2]
        exact Nat.le_add_right _ 2)
    exact inv_tops hroot rfl rfl hroot.tops
  · cases hstep

theorem inv_snapshotAlloc {s t : Dev} {new : Nat} (h : Inv s)
    (hstep : pfsSnapshotAlloc s new = some t) : Inv t := by
  simp only [pfsSnapshotAlloc] at hstep
  cases hc : s.chains (.iroot new) with
  | none => simp only [hc, reduceCtorEq] at hstep
  | some c =>
      simp only [hc] at hstep
      split at hstep
      · rename_i hpmp
        cases hstep
        have hok := h.chains _ c hc
        have hidle := h.idle_of_absent (p := new) fun c' hc' => by
          obtain rfl := Option.some.inj (hc'.symm.trans hc)
          exact hpmp
        have hnone : ∀ id c', s.chains id = some c' → c'.pmp ≠ some new := by
          intro id c' hc' hp'
          obtain ⟨rfl, -⟩ := (h.chains id c' hc').idle new hp' hidle
          obtain rfl := Option.some.inj (hc'.symm.trans hc)
          cases hpmp.symm.trans hp'
        have halloc : Inv (s.setPmp new { pfsalloc c.bref with inodeTid := c.bref.pfsInum }) := by
          have hl : (s.setPmp new { pfsalloc c.bref with inodeTid := c.bref.pfsInum }).tidLimit new =
              s.tidLimit new := by
            simp only [Dev.tidLimit, setPmp_same, hidle]
            rfl
          have hl' : (s.setPmp new { pfsalloc c.bref with inodeTid := c.bref.pfsInum }).inumLimit new =
              s.inumLimit new := by
            simp only [Dev.inumLimit, setPmp_same, hidle]
            rfl
          refine h.setPmp ⟨hl.ge, hl'.ge,
            fun _ => ⟨hidle, rfl, fun hheld => ?_⟩, fun hne => absurd rfl hne,
            fun e he => (hok.under new (.inl rfl)).entry he, by rintro _ ⟨⟩, by rintro _ ⟨⟩⟩
          obtain ⟨id, c', hc', hp'⟩ := hheld
          exact absurd hp' (hnone id c' hc')
        have hok' := halloc.chains _ c hc
        refine halloc.setChain ⟨?_, ?_⟩ ⟨?_, ?_, ?_, ?_, by rintro _ ⟨⟩⟩
        · intro c' q hc' hq
          obtain rfl := Option.some.inj (hc'.symm.trans hc)
          cases hpmp.symm.trans hq
        · intro q _ _ c' hc'
          obtain rfl := Option.some.inj (hc'.symm.trans hc)
          exact ⟨rfl, rfl⟩
        · rintro q (hq | hq)
          · exact hok'.under q (.inl hq)
          · exact hok'.under q (.inl (congrArg ChainId.iroot (Option.some.inj hq)))
        · intro q hq _
          exact hok'.numbered q hq (.inr (.inl hpmp))
        · intro q hq _
          obtain rfl := Option.some.inj hq
          exact ⟨rfl, fun _ => congrArg Pmp.inodeTid setPmp_same⟩
        · intro q hq
          obtain ⟨hkey, htype, -⟩ := hok'.iroot q hq
          cases hq
          exact ⟨hkey, htype, .inl rfl⟩
      · cases hstep

/-! ## Mounting the device -/

theorem inv_mountDevice {m : Bref}
    (h : ∀ p e, slot m.blockset p = some e → Ordered e ∧ Numbered e ∧ e.type = .pfsroot) :
    Inv (mountDevice m) := by
  have hzero : ∀ p, ((mountDevice m).pmps p).modifyTid = 0 := by
    intro p
    simp only [mountDevice]
    split <;> rfl
  have hroot : ∀ p e, slot m.blockset p = some e → ∃ c, (mountDevice m).chains (.iroot p) = some c ∧
      c = { bref := e, parent := none, modified := false, update := false, pmp := some p } := by
    intro p e he
    exact ⟨_, by simp only [mountDevice, he, Option.map_some], rfl⟩
  have hunder : ∀ p e, slot m.blockset p = some e → Under (mountDevice m) p e := by
    intro p e he
    obtain ⟨c, hc, rfl⟩ := hroot p e he
    obtain ⟨hl, hl'⟩ := Dev.limits_idle (hzero p) hc
    obtain ⟨hordered, hnum, -⟩ := h p e he
    refine ⟨hordered, ?_, ?_⟩
    · rw [hl]
      exact Nat.lt_succ_self _
    · rw [hl']
      exact hnum
  refine ⟨?_, fun p => ⟨?_, ?_, ?_, fun _ => ?_, fun hne => absurd (hzero p) hne⟩, ?_⟩
  · intro id c hc
    cases id with
    | node n => cases hc
    | iroot p =>
        obtain ⟨e, he, rfl⟩ := Option.map_eq_some_iff.mp hc
        obtain ⟨hordered, hnum, htype⟩ := h p e he
        refine ⟨?_, fun _ _ _ => hnum, ?_, ?_, nofun⟩
        · rintro q (hq | hq)
          · cases hq
            exact hunder p e he
          · cases hq
            exact hunder p e he
        · intro q hq _
          cases hq
          exact ⟨rfl, nofun⟩
        · intro q hq
          cases hq
          exact ⟨slot_key he, htype, .inl rfl⟩
  · intro e he
    simp only [mountDevice] at he
    split at he
    · rename_i root hslot
      exact (hunder p root hslot).entry he
    · cases he
  · simp only [mountDevice]
    split <;> exact nofun
  · simp only [mountDevice]
    split <;> exact nofun
  · simp only [mountDevice]
    split <;> rfl
  · intro t ht p e he
    have ht : t = m := by
      simpa only [mountDevice, List.mem_cons, List.not_mem_nil, or_false, or_self] using ht
    subst ht
    exact ⟨hunder p e he, (h p e he).2.1, (h p e he).2.2⟩

theorem inv_newfs (labels : List Nat) : Inv (mountDevice (newfs labels)) := by
  refine inv_mountDevice fun p e he => ?_
  obtain ⟨key, -, rfl⟩ := List.mem_map.mp (slot_mem he)
  exact ⟨ordered_iff.mpr nofun, numbers_iff.mpr ⟨nofun, nofun⟩, rfl⟩

theorem inv_reboot {s : Dev} (h : Inv s) : Inv (mountDevice s.media) :=
  inv_mountDevice fun p e he =>
    have ht := h.tops s.media (by simp only [List.mem_cons, or_true, true_or]) p e he
    ⟨ht.under.ordered, ht.numbered, ht.type⟩

/-! ## One step -/

/-- The condition on a step: a PFS is not mounted in the session that made it by a snapshot
(its `inode_tid` is set, its `modify_tid` is not), and no stamp takes a chain's `modify_tid`
below one in its block table. -/
def Ok (s : Dev) : Event → Prop
  | .mount pfs => (s.pmps pfs).inodeTid = 0 ∨ (s.pmps pfs).modifyTid ≠ 0
  | .modify id mtid => ∀ chain ∈ s.chains id, StampOk chain.bref.modifyTid mtid chain.bref.blockset
  | .delete n mtid => ∀ chain ∈ s.chains (.node n), ∀ pid ∈ chain.parent, ∀ parent ∈ s.chains pid,
      UnmapOk parent chain.bref.key mtid
  | .move n dst mtid => ∀ chain ∈ s.chains (.node n), ∀ pid ∈ chain.parent,
      ∀ parent ∈ s.chains pid, UnmapOk parent chain.bref.key mtid ∧
        ∀ target ∈ s.chains dst, RemapOk target (slot parent.bref.blockset chain.bref.key) mtid
  | .snapshot pfs _ => StampOk 0 (s.spmpTid + 2) (s.pmps pfs).irootBlockset
  | _ => True

instance (s : Dev) : ∀ e, Decidable (Ok s e)
  | .mount _ => inferInstanceAs (Decidable (_ ∨ _))
  | .modify id mtid => inferInstanceAs (Decidable (∀ chain ∈ s.chains id,
      StampOk chain.bref.modifyTid mtid chain.bref.blockset))
  | .delete n mtid => inferInstanceAs (Decidable (∀ chain ∈ s.chains (.node n),
      ∀ pid ∈ chain.parent, ∀ parent ∈ s.chains pid, UnmapOk parent chain.bref.key mtid))
  | .move n dst mtid => inferInstanceAs (Decidable (∀ chain ∈ s.chains (.node n),
      ∀ pid ∈ chain.parent, ∀ parent ∈ s.chains pid, UnmapOk parent chain.bref.key mtid ∧
        ∀ target ∈ s.chains dst, RemapOk target (slot parent.bref.blockset chain.bref.key) mtid))
  | .snapshot pfs _ => inferInstanceAs (Decidable (StampOk 0 (s.spmpTid + 2) (s.pmps pfs).irootBlockset))
  | .unmount _ | .transSub _ | .newinum _ | .spmpSub | .load .. | .create .. | .flush ..
  | .setIrootBlockset _ | .snapshotAlloc _ | .flushVolume | .writeHeader | .reboot => .isTrue trivial

/-- A stamp's id comes from the PFS or is the chain's own. -/
theorem Inv.stamp_lt {s : Dev} {p mtid : Nat} {id : ChainId} {c : Chain} (h : Inv s)
    (hc : s.chains id = some c) (hp : c.pmp = some p)
    (hm : mtid ∈ (s.pmps p).mtids ∨ mtid = c.bref.modifyTid) : mtid < s.tidLimit p := by
  rcases hm with hm | rfl
  · exact (h.pmps p).mtids mtid hm
  · exact ((h.chains id c hc).under p (.inr hp)).tid

/-- **The step lemma.** -/
theorem step_inv (s : Dev) (e : Event) (t : Dev) (h : Inv s) (hok : Ok s e)
    (hstep : step s e = some t) : Inv t := by
  cases e with
  | mount p =>
      simp only [step] at hstep
      split at hstep
      · split at hstep
        · cases hstep
          exact inv_mount h ‹_› ‹_› hok
        · cases hstep
      · cases hstep
  | unmount p =>
      cases hstep
      exact h.setPmp (pmpFits_same h rfl rfl (.inr rfl) rfl rfl (h.pmps p).blockset)
  | transSub p =>
      simp only [step] at hstep
      split at hstep
      · rename_i hm
        cases hstep
        refine h.setPmp (pmpFits_live h (h.live_of_mounted hm) (Nat.le_succ _) (Nat.le_refl _)
          (h.pmps p).blockset (fun m hm => ?_) fun _ hn => .inl hn)
        rcases List.mem_cons.mp hm with rfl | hm
        · exact .inr (Nat.lt_succ_self _)
        · exact .inl hm
      · cases hstep
  | newinum p =>
      simp only [step] at hstep
      split at hstep
      · rename_i hm
        cases hstep
        refine h.setPmp (pmpFits_live h (h.live_of_mounted hm) (Nat.le_refl _) (Nat.le_succ _)
          (h.pmps p).blockset (fun _ hm => .inl hm) fun n hn => ?_)
        rcases List.mem_cons.mp hn with rfl | hn
        · exact .inr (Nat.lt_succ_self _)
        · exact .inl hn
      · cases hstep
  | spmpSub =>
      cases hstep
      exact inv_tops h rfl rfl h.tops
  | load pid key n =>
      simp only [step] at hstep
      split at hstep
      · rename_i hmc hnew
        obtain ⟨hparent, hpp, hm⟩ := mountedChain_eq_some hmc
        split at hstep
        · cases hstep
          exact inv_load h hparent hpp hm ‹_› hnew
        · cases hstep
      · cases hstep
  | create pid n type key mtid =>
      simp only [step] at hstep
      split at hstep
      · rename_i hmc hnew
        obtain ⟨hparent, hpp, hm⟩ := mountedChain_eq_some hmc
        split at hstep
        · rename_i hguard
          cases hstep
          exact inv_create h hparent hpp hm hnew hguard.1 hguard.2.2.2
        · cases hstep
      · cases hstep
  | modify id mtid =>
      simp only [step] at hstep
      split at hstep
      · rename_i hmc
        obtain ⟨hc, hp, hm⟩ := mountedChain_eq_some hmc
        split at hstep
        · cases hstep
          exact inv_modify h hc hp (h.live_of_mounted hm) (h.stamp_lt hc hp ‹_›) (hok _ hc)
        · cases hstep
      · cases hstep
  | delete n mtid =>
      simp only [step] at hstep
      split at hstep
      · rename_i hmc
        obtain ⟨hc, hp, hm⟩ := mountedChain_eq_some hmc
        split at hstep
        · rename_i hpid
          split at hstep
          · rename_i hparent
            split at hstep
            · rename_i hguard
              cases hstep
              exact inv_chainDelete h hc hp hparent (inv_parent h hc hp hpid hparent) hguard.1
                (h.stamp_lt hc hp hguard.2) (hok _ hc _ hpid _ hparent)
            · cases hstep
          · cases hstep
        · cases hstep
      · cases hstep
  | move n dst mtid =>
      simp only [step] at hstep
      split at hstep
      · rename_i hmc hmd
        obtain ⟨hc, hp, hm⟩ := mountedChain_eq_some hmc
        obtain ⟨htarget, htp, -⟩ := mountedChain_eq_some hmd
        split at hstep
        · rename_i hpid
          split at hstep
          · rename_i hparent
            split at hstep
            · rename_i hguard
              obtain ⟨hne, hdn, hdp, rfl, hmtid⟩ := hguard
              cases hstep
              obtain ⟨hunmap, hremap⟩ := hok _ hc _ hpid _ hparent
              exact inv_move h hc hp hparent (inv_parent h hc hp hpid hparent) htarget htp hne hdn
                hdp (h.stamp_lt hc hp hmtid) hunmap (hremap _ htarget)
            · cases hstep
          · cases hstep
        · cases hstep
      · cases hstep
  | flush id fssync err => exact inv_flushCore h hstep
  | setIrootBlockset p =>
      simp only [step] at hstep
      split at hstep
      · rename_i hc
        split at hstep
        · cases hstep
          exact h.setPmp (pmpFits_same h rfl rfl (.inl rfl) rfl rfl fun e he =>
            ((h.chains _ _ hc).under p (.inl rfl)).entry he)
        · cases hstep
      · cases hstep
  | snapshot p new => exact inv_snapshot h hok hstep
  | snapshotAlloc new => exact inv_snapshotAlloc h hstep
  | flushVolume =>
      cases hstep
      refine inv_tops h rfl rfl fun x hx => h.tops x ?_
      simp only [List.mem_cons, List.not_mem_nil, or_false] at hx ⊢
      exact hx.elim .inl fun hx => hx.elim .inl fun hx => .inr (.inr hx)
  | writeHeader =>
      cases hstep
      refine inv_tops h rfl rfl fun x hx => h.tops x ?_
      simp only [List.mem_cons, List.not_mem_nil, or_false] at hx ⊢
      exact hx.elim .inl fun hx => .inr (.inl (hx.elim id id))
  | reboot =>
      cases hstep
      exact inv_reboot h

/-! ## Every run -/

/-- A blockref of the PFS on the media. -/
def OnMedia (s : Dev) (p : Nat) (b : Bref) : Prop :=
  ∃ root, slot s.media.blockset p = some root ∧ Held root b

/-- A blockref of the PFS in memory: of a chain, or in a block table a chain holds. -/
def InMemory (s : Dev) (p : Nat) (b : Bref) : Prop :=
  ∃ id c, s.chains id = some c ∧ c.pmp = some p ∧ Held c.bref b

theorem Under.held {s : Dev} {p : Nat} {root b : Bref} (h : Under s p root) (hb : Held root b) :
    b.modifyTid < s.tidLimit p ∧ (b.type = .inode → b.key < s.inumLimit p) :=
  ⟨(h.ordered.le hb).trans_lt h.tid, h.inums b hb⟩

/-- **The ids a mounted PFS hands out are new.**  In every run from a new filesystem whose
steps meet the condition, the next inode number is larger than the number of every inode of
the PFS, and the next modify_tid larger than that of every blockref of the PFS, on the media
and in memory. -/
theorem run_fresh {labels : List Nat} {as : List Event} {s : Dev}
    (hrun : exec step (mountDevice (newfs labels)) as = some s)
    (hok : AllSteps step Ok (mountDevice (newfs labels)) as) {p : Nat}
    (hm : (s.pmps p).mounted = true) :
    1 < (transNewinum (s.pmps p)).1 ∧
      ∀ b, OnMedia s p b ∨ InMemory s p b →
        b.modifyTid < (transSub (s.pmps p)).1 ∧
          (b.type = .inode → b.key < (transNewinum (s.pmps p)).1) := by
  have h := exec_invariant step_inv (inv_newfs labels) hok hrun
  have hlive := h.live_of_mounted hm
  obtain ⟨htid, hinum⟩ := Dev.limits_live hlive
  refine ⟨Nat.lt_of_lt_of_le (by decide) ((h.pmps p).live hlive).1, fun b hb => ?_⟩
  show b.modifyTid < (s.pmps p).modifyTid ∧ (b.type = .inode → b.key < (s.pmps p).inodeTid)
  rw [← htid, ← hinum]
  rcases hb with ⟨root, hroot, hb⟩ | ⟨id, c, hc, hp, hb⟩
  · have ht := h.tops s.media (by simp only [List.mem_cons, or_true, true_or]) p root hroot
    exact ht.under.held hb
  · exact ((h.chains id c hc).under p (.inr hp)).held hb

/-- A file, a sync, a snapshot that is mounted after a reboot, and a crash. -/
def freshRun : List Event :=
  [.mount 7, .newinum 7, .transSub 7, .create (.iroot 7) 0 .inode 1024 1, .flush (.node 0) true false,
    .flush (.iroot 7) true false, .setIrootBlockset 7, .snapshot 7 8, .flush (.iroot 8) true false,
    .snapshotAlloc 8, .flushVolume, .writeHeader, .newinum 7, .reboot, .mount 7, .mount 8]

theorem run_fresh_snapshot : ∃ s, exec step (mountDevice (newfs [7])) freshRun = some s ∧
    1 < (transNewinum (s.pmps 8)).1 ∧
      ∀ b, OnMedia s 8 b ∨ InMemory s 8 b →
        b.modifyTid < (transSub (s.pmps 8)).1 ∧
          (b.type = .inode → b.key < (transNewinum (s.pmps 8)).1) :=
  ⟨_, rfl, @run_fresh [7] freshRun _ rfl (by decide) 8 rfl⟩

/-! ## Where ids repeat -/

/-- After the run the next modify_tid of a mounted PFS is not above a blockref of it on the
media. -/
def Repeats (labels : List Nat) (as : List Event) (p : Nat) : Prop :=
  ∃ s, exec step (mountDevice (newfs labels)) as = some s ∧ (s.pmps p).mounted = true ∧
    ∃ b, OnMedia s p b ∧ (transSub (s.pmps p)).1 ≤ b.modifyTid

/-- A file is created and synced, and a snapshot is taken. -/
def snapshotRun (tids : List Event) : List Event :=
  .mount 7 :: .newinum 7 :: tids ++
    [.create (.iroot 7) 0 .inode 1024 (tids.length), .flush (.node 0) true false,
      .flush (.iroot 7) true false, .setIrootBlockset 7, .snapshot 7 8, .flush (.iroot 8) true false,
      .snapshotAlloc 8, .flushVolume, .writeHeader]

/-- Two entries of the root move into an indirect block, which is collapsed again. -/
def collapseRun : List Event :=
  [.mount 7, .transSub 7, .transSub 7, .transSub 7, .create (.iroot 7) 0 .other 1 2,
    .create (.iroot 7) 1 .other 2 1, .flush (.node 0) true false, .flush (.node 1) true false,
    .create (.iroot 7) 2 .other 0 3, .move 0 (.node 2) 3, .move 1 (.node 2) 3,
    .delete 2 3, .move 0 (.iroot 7) 2, .move 1 (.iroot 7) 1, .flush (.iroot 7) true false,
    .flushVolume, .writeHeader, .reboot, .mount 7]

theorem ids_repeat :
    Repeats [7] (snapshotRun [.transSub 7] ++ [.mount 8]) 8 ∧
      Repeats [7] (snapshotRun (List.replicate 5 (.transSub 7)) ++ [.reboot, .mount 8]) 8 ∧
      Repeats [7] collapseRun 7 := by
  refine ⟨⟨_, rfl, rfl, ?_⟩, ⟨_, rfl, rfl, ?_⟩, ⟨_, rfl, rfl, ?_⟩⟩
  · exact ⟨_, ⟨_, rfl, .refl⟩, by decide⟩
  · exact ⟨_, ⟨_, rfl, .single (List.mem_cons_self ..)⟩, by decide⟩
  · exact ⟨_, ⟨_, rfl, .single (List.mem_cons_of_mem _ (List.mem_cons_self ..))⟩, by decide⟩

end Hammer2.Ident
