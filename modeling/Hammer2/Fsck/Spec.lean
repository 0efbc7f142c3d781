/-
# `Hammer2.Fsck.Spec` — what the verdict of `fsck_hammer2` should be

    good      a blockref by itself: its type, its block, its check code
    Exact     a run that ends, with the verdicts and totals of a walk without a cache
    Comes     from a blockref to one that the walk comes to next
    Walk      the walk below a blockref ends, and all it comes to has some property
    Safe      no assertion, and no byte beyond those read
    Sharp     what a delta has to be like for the cache
-/
import Mathlib.Data.List.Forall2
import Hammer2.Lib.Search
import Hammer2.Fsck.Verify

namespace Hammer2.Fsck

open Search

section Spec

variable (fso : Ondisk) (c : Checks) (o : Opts)

/-- A valid type, a block that can be read, and its check code. -/
def good (b : Blockref) : Bool :=
  (typeCounts o b.type).isSome && match readMedia fso b with
    | some (.ok none) => true
    | some (.ok (some buf)) => (checkBlock c b (buf.bytes b.bytes)).isNone
    | _ => false

/-- The blockrefs in the block. -/
def kids (b : Blockref) : List Blockref :=
  match readMedia fso b with
  | some (.ok (some buf)) => (scan b buf).getD []
  | _ => []

/-- What a blockref adds to the totals by itself. -/
def visitCounts (b : Blockref) : Counts :=
  one .totalBlockref + (typeCounts o b.type).getD 0 + byteCounts b

/-- The report about a root: 0 means that all that is reached through good blockrefs is good,
and then the totals are those of a walk over all paths. -/
structure Verdict (root : Blockref) (report : Bool × BlockrefStats) : Prop where
  exact : report.1 = true ↔ Sound (kids fso) (fun b => good fso c o b = true) root
  totals : report.1 = true →
    Total (kids fso) (fun b => (visitCounts o b).inUnion) root report.2.totals

/-- The scan ends, without a failed assertion, and with the right reports. -/
def Exact (tree : Tree) (roots : List Blockref) : Prop :=
  ∃ fuel reports, scanRoots fso c o tree fuel roots [] = some reports ∧
    List.Forall₂ (Verdict fso c o) roots reports

/-! ## Where the walk comes to -/

/-- A recursion takes place. -/
def recurses (norecurse : Bool) : Bool := o.forceOpt || !norecurse

def Passes (norecurse : Bool) (b : Blockref) : Prop :=
  good fso c o b = true ∧
    (recurses o norecurse = true → Sound (kids fso) (fun b => good fso c o b = true) b)

/-- The loop over the block of `b` comes to `x`: all before it have passed. -/
def Comes (norecurse : Bool) (b x : Blockref) : Prop :=
  recurses o norecurse = true ∧ ∃ before after, kids fso b = before ++ x :: after ∧
    ∀ z ∈ before, Passes fso c o (!good fso c o b) z

/-- The walk from `b` ends, and `P` holds of all that it comes to. -/
inductive Walk (P : Blockref → Prop) : Bool → Blockref → Prop
  | intro {norecurse b} : P b →
      (∀ x, Comes fso c o norecurse b x → Walk P (!good fso c o b) x) → Walk P norecurse b

/-- The walk from `b` comes to `x`. -/
inductive Visits (norecurse : Bool) (b : Blockref) : Bool → Blockref → Prop
  | self : Visits norecurse b norecurse b
  | next {n x y} : Visits norecurse b n x → Comes fso c o n x y →
      Visits norecurse b (!good fso c o x) y

/-- One blockref trips no assertion and makes no use of what was not read. -/
structure Safe (b : Blockref) : Prop where
  inside : (readMedia fso b).isSome
  noBlock : o.countEmpty = false → b.type = brefTypeEmpty → b.bytes ≠ 0 →
    ∃ e, readMedia fso b = some (.error e)
  noEntry : o.blockrefCacheCount = 1 → b.dataOff ≠ 0 → good fso c o b = true → b.bytes ≠ 0

/-- The fields of the other kind of tree are zero. -/
def Counts.Pure (tree : Tree) (d : Counts) : Prop := d.ofTree tree = d.inUnion

/-- A blockref is counted in the fields of its tree; below a bad block, a blockref whose delta
is cached right away has nothing in it. -/
structure SharpAt (tree : Tree) (norecurse : Bool) (b : Blockref) : Prop where
  pure : (visitCounts o b).Pure tree
  whole : recurses o norecurse = false → o.blockrefCacheCount = 1 → b.dataOff ≠ 0 →
    good fso c o b = true → kids fso b = []

/-- Either there is no cache, or its deltas are right. -/
def Sharp (tree : Tree) (roots : List Blockref) : Prop :=
  0 < o.blockrefCacheCount → ∀ root ∈ roots, ∀ n x, Visits fso c o false root n x →
    SharpAt fso c o tree n x

end Spec

/-! ## Counts -/

theorem Counts.inUnion_add (d e : Counts) : (d + e).inUnion = d.inUnion + e.inUnion := by
  funext s
  cases s
  case u0 => exact add_add_add_comm _ _ _ _
  case u1 => exact add_add_add_comm _ _ _ _
  all_goals rfl

@[simp] theorem Counts.inUnion_zero : (0 : Counts).inUnion = 0 := by
  funext s
  cases s <;> rfl

theorem Counts.ofTree_add (tree : Tree) (d e : Counts) :
    (d + e).ofTree tree = d.ofTree tree + e.ofTree tree := by
  funext s
  cases s <;> cases tree <;> rfl

theorem Counts.Pure.add {tree : Tree} {d e : Counts} (hd : d.Pure tree) (he : e.Pure tree) :
    (d + e).Pure tree := by
  unfold Counts.Pure at *
  rw [Counts.ofTree_add, Counts.inUnion_add, hd, he]

theorem Counts.pure_zero (tree : Tree) : (0 : Counts).Pure tree := by
  funext s
  cases s <;> cases tree <;> rfl

/-- The sum over the fields is one over the words. -/
def Counts.toUnion : Counts →+ Totals where
  toFun := Counts.inUnion
  map_zero' := Counts.inUnion_zero
  map_add' := Counts.inUnion_add

/-! ## The tree of messages -/

/-- All messages have a property. -/
def Holds {μ : Type} (P : Blockref → μ → Prop) (t : BlockrefTree μ) : Prop :=
  ∀ e ∈ t, ∀ m ∈ e.2, P m.1 m.2

section Messages

variable {μ : Type} {P : Blockref → μ → Prop} {t : BlockrefTree μ} {b : Blockref} {msg : μ}

theorem Holds.add (h : Holds P t) (hm : P b msg) : Holds P (addBlockrefEntry b msg t) := by
  induction t with
  | nil =>
      intro e he m hmem
      cases List.mem_singleton.mp he
      cases List.mem_singleton.mp hmem
      exact hm
  | cons e t ih =>
      have ht : Holds P t := fun e' he' => h e' (List.mem_cons_of_mem e he')
      rw [addBlockrefEntry]
      split
      · intro e' he' m hmem
        rcases List.mem_cons.mp he' with rfl | he'
        · rcases List.mem_append.mp hmem with hmem | hmem
          · exact h e List.mem_cons_self m hmem
          · cases List.mem_singleton.mp hmem
            exact hm
        · exact ht e' he' m hmem
      · intro e' he'
        rcases List.mem_cons.mp he' with rfl | he'
        · exact h e' List.mem_cons_self
        · exact ih ht e' he'

theorem Holds.find (h : Holds P t) {m : Blockref × μ} (hm : findBlockref t b = some m) :
    m.1 = b ∧ P b m.2 := by
  unfold findBlockref at hm
  split at hm
  · next e he =>
      have hmem := List.mem_of_find?_eq_some he
      have hb : m.1 = b := by simpa using List.find?_some hm
      exact ⟨hb, hb ▸ h e hmem m (List.mem_of_find?_eq_some hm)⟩
  · cases hm

end Messages

/-! ## One blockref -/

/-- `d` is added to both statistics, and the cache stays. -/
structure Adds (d : Counts) (s s' : St) : Prop where
  droot : s'.droot = s.droot
  type : s'.bstats.type = s.bstats.type
  bstats : s'.bstats.totals = s.bstats.totals + d.inUnion
  dstats : s'.dstats.totals = s.dstats.totals + d
  count : s'.dstats.count = s.dstats.count

section Adds

variable {d e : Counts} {s s' s'' : St} {b : Blockref} {msg : String}

theorem adds_add : Adds d s (s.add d) := ⟨rfl, rfl, rfl, rfl, rfl⟩

theorem Adds.report (h : Adds d s s') : Adds d s (s'.report b msg) :=
  ⟨h.droot, h.type, h.bstats, h.dstats, h.count⟩

theorem Adds.trans (h : Adds d s s') (h' : Adds e s' s'') : Adds (d + e) s s'' where
  droot := h'.droot.trans h.droot
  type := h'.type.trans h.type
  bstats := by rw [h'.bstats, h.bstats, Counts.inUnion_add, add_assoc]
  dstats := by rw [h'.dstats, h.dstats, add_assoc]
  count := h'.count.trans h.count

end Adds

section Visit

variable {fso : Ondisk} {c : Checks} {o : Opts} {b : Blockref} {s : St}

theorem countType_spec (o : Opts) (b : Blockref) (s : St) :
    (countType o b s).1 = !(typeCounts o b.type).isSome ∧
      Adds (one .totalBlockref + (typeCounts o b.type).getD 0) s (countType o b s).2 := by
  unfold countType
  cases typeCounts o b.type with
  | none =>
      refine ⟨rfl, Adds.report ?_⟩
      rw [Option.getD_none, add_zero]
      exact adds_add
  | some d => exact ⟨rfl, adds_add⟩

theorem countCheck_spec (c : Checks) (b : Blockref) (buf : Buf) (failed : Bool) (s : St) :
    (countCheck c b buf failed s).1 = (failed || !(checkBlock c b (buf.bytes b.bytes)).isNone) ∧
      Adds 0 s (countCheck c b buf failed s).2 := by
  have h0 : Adds 0 s s := by
    refine ⟨rfl, rfl, ?_, (add_zero _).symm, rfl⟩
    rw [Counts.inUnion_zero, add_zero]
  unfold countCheck
  cases checkBlock c b (buf.bytes b.bytes) with
  | none => exact ⟨(Bool.or_false failed).symm, h0⟩
  | some msg => exact ⟨(Bool.or_true failed).symm, h0.report⟩

/-- What was read holds the table of any block. -/
theorem scan_isSome {buf : Buf} (hread : readMedia fso b = some (.ok (some buf))) :
    (scan b buf).isSome := by
  have hlen : b.bytes ≤ buf.len ∧ lbufsize ≤ buf.len := by
    unfold readMedia at hread
    split at hread
    · cases hread
    split at hread
    · cases hread
    split at hread
    · cases hread
    split at hread
    · next hfit =>
        cases hread
        exact ⟨Nat.le_trans (Nat.le_add_left _ _) hfit, b.lbufsize_le_ioBytes⟩
    · cases hread
  have htable : ∀ i n, i + 128 * n ≤ buf.len → (buf.blockrefs i n).isSome := by
    intro i n h
    rw [Buf.blockrefs, if_pos h]
    rfl
  have hbig : ∀ i, i + 128 * 4 ≤ lbufsize → (buf.blockrefs i 4).isSome :=
    fun i h => htable i 4 (h.trans hlen.2)
  have hall : (buf.blockrefs 0 (b.bytes / 128)).isSome := by
    refine htable 0 _ ?_
    rw [Nat.zero_add]
    exact (Nat.mul_div_le b.bytes 128).trans hlen.1
  unfold scan
  split
  · split
    · rfl
    · exact hbig _ (by decide)
  split
  · exact hall
  split
  · exact hall
  split
  · exact hbig _ (by decide)
  split
  · exact hbig _ (by decide)
  · rfl

/-- What a visit says about a blockref. -/
inductive Visited (fso : Ondisk) (c : Checks) (o : Opts) (b : Blockref) (s : St) :
    Except St (Bool × List Blockref × St) → Prop
  | error {s'} : good fso c o b = false → kids fso b = [] → s'.droot = s.droot →
      s'.bstats.type = s.bstats.type → Visited fso c o b s (.error s')
  | ok {s'} : Adds (visitCounts o b) s s' →
      (b.bytes = 0 → kids fso b = []) →
      Visited fso c o b s (.ok (!good fso c o b, kids fso b, s'))

theorem visit_spec {r : Except St (Bool × List Blockref × St)} (h : visit fso c o b s = some r) :
    (readMedia fso b).isSome ∧ (o.countEmpty = false → b.type = brefTypeEmpty → b.bytes ≠ 0 →
      ∃ e, readMedia fso b = some (.error e)) ∧ Visited fso c o b s r := by
  obtain ⟨hf, hadd⟩ := countType_spec o b s
  unfold visit at h
  generalize countType o b s = p at h hf hadd
  obtain ⟨failed, s₁⟩ := p
  cases hread : readMedia fso b with
  | none => rw [hread] at h; cases h
  | some out =>
  rw [hread] at h
  cases out with
  | error e =>
      cases h
      refine ⟨rfl, fun _ _ _ => ⟨e, rfl⟩, .error ?_ ?_ hadd.droot hadd.type⟩
      · rw [good, hread, Bool.and_false]
      · rw [kids, hread]
  | ok buf =>
      dsimp only at h
      split at h
      · cases h
      · next hempty =>
          have hno : o.countEmpty = false → b.type = brefTypeEmpty → b.bytes ≠ 0 →
              ∃ e : ReadErr, some (Except.ok buf) = some (.error e) :=
            fun h₁ h₂ h₃ => absurd ⟨h₁, h₂, h₃⟩ hempty
          have hadd' := hadd.trans (@adds_add (byteCounts b) s₁)
          refine ⟨rfl, hno, ?_⟩
          cases buf with
          | none =>
              cases h
              have hgood : (!good fso c o b) = failed := by
                rw [good, hread, Bool.and_true]
                exact hf.symm
              have hkids : kids fso b = [] := by rw [kids, hread]
              have hv := @Visited.ok fso c o b s _ hadd' fun _ => hkids
              rwa [hgood, hkids] at hv
          | some buf =>
              obtain ⟨hf', hadd''⟩ := countCheck_spec c b buf failed (s₁.add (byteCounts b))
              obtain ⟨ks, hks, rfl⟩ := Option.map_eq_some_iff.mp h
              have hgood : (!good fso c o b) =
                  (countCheck c b buf failed (s₁.add (byteCounts b))).1 := by
                rw [good, hread, Bool.not_and]
                exact (congrArg (· || _) hf.symm).trans hf'.symm
              have hkids : kids fso b = ks := by
                rw [kids, hread]
                exact congrArg (Option.getD · []) hks
              have hbytes : b.bytes ≠ 0 := by
                intro h0
                rw [readMedia, if_pos h0] at hread
                cases hread
              have hall := hadd'.trans hadd''
              rw [add_zero] at hall
              have hv := @Visited.ok fso c o b s _ hall fun h0 => absurd h0 hbytes
              rwa [hgood, hkids] at hv

/-- A visit of a safe blockref comes to an end. -/
theorem visit_isSome (hsafe : Safe fso c o b) (s : St) : (visit fso c o b s).isSome := by
  unfold visit
  cases hread : readMedia fso b with
  | none => exact absurd hsafe.inside (by rw [hread]; decide)
  | some out =>
  cases out with
  | error e => rfl
  | ok buf =>
      dsimp only
      split
      · next hempty =>
          obtain ⟨e, he⟩ := hsafe.noBlock hempty.1 hempty.2.1 hempty.2.2
          cases hread.symm.trans he
      · cases buf with
        | none => rfl
        | some buf => exact (Option.isSome_map).trans (scan_isSome hread)

end Visit

end Hammer2.Fsck
