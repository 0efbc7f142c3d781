/-
# `Hammer2.Chain.Merged` — a block table and the chains over it

The entries under a chain are partly in its block table and partly in its tree of chains.  A
chain of an entry of the table has its key; the others are not in the table yet.

    Node           a chain with its table, its tree and its counts
    combinedFind   `hammer2_combined_find`
    Wf n view      the entries under `n` are `view`, in the order of their keys
    scan           the loop over them
    moveOne        an entry goes from one chain to another

The chain of an entry that is deleted leaves the tree together with its flag, so that none of
the tree is flagged.  `none` is a panic.
-/
import Hammer2.Chain.Table
import Hammer2.Lib.KeyRange

namespace Hammer2.Chain.Merged

open Table KeyRange

/-- A chain on the tree of its parent. -/
structure Chain where
  bref : Bref
  flags : Flags

/-- A chain with a block table: what it keeps of the table, the table, `core.rbtree` in its
order, `core.live_count`, and whether it is modified. -/
structure Node where
  stats : Parent
  base : List Bref
  tree : List Chain
  liveCount : Int
  modified : Bool

/-- `HAMMER2_KEY_MAX` -/
def keyMax : UInt64 := 0xFFFFFFFFFFFFFFFF

/-! ## Searching -/

/-- `hammer2_chain_find_cmp` answers 0. -/
def findCmp (keyBeg keyEnd : UInt64) (child : Chain) : Bool :=
  !(child.bref.last < keyBeg) && !(child.bref.key > keyEnd)

def lower (keyNext key : UInt64) : UInt64 :=
  if keyNext > key ∨ keyNext = 0 then key else keyNext

/-- `hammer2_chain_find_callback` -/
def findCallback (keyBeg : UInt64) (best : Option Chain × UInt64) (child : Chain) :
    Option (Option Chain × UInt64) :=
  let childEnd := child.bref.key + child.bref.range
  let ended := fun keyNext => if childEnd ≠ 0 then lower keyNext childEnd else keyNext
  match best with
  | (none, keyNext) => some (some child, ended keyNext)
  | (some best, keyNext) =>
      if best.bref.key ≤ keyBeg ∧ child.bref.key ≤ keyBeg then none
      else if child.bref.key < best.bref.key then
        some (some child, ended (lower keyNext best.bref.key))
      else if child.bref.key = best.bref.key then none
      else some (some best, ended (lower keyNext child.bref.key))

/-- `hammer2_chain_find` -/
def chainFind (tree : List Chain) (keyNext keyBeg keyEnd : UInt64) :
    Option (Option Chain × UInt64) :=
  (tree.filter (findCmp keyBeg keyEnd)).foldlM (findCallback keyBeg) (none, keyNext)

/-- The nearer one of the chain and the blockref that were found. -/
def select (keyBeg : UInt64) : Option Chain → Option Bref → Option (Option Chain × Option Bref)
  | none, none => some (none, none)
  | some chain, none => some (some chain, some chain.bref)
  | none, some b => some (none, some b)
  | some chain, some b =>
      if (chain.bref.key ≤ keyBeg ∧ b.key ≤ keyBeg) ∨ chain.bref.key = b.key then
        if chain.bref.key = b.key then some (some chain, some chain.bref) else none
      else if chain.bref.key < b.key then some (some chain, some chain.bref)
      else some (none, some b)

/-- A blockref out of bounds has exhausted the search. -/
def inBounds (keyEnd : UInt64) (chain : Option Chain) : Option Bref → Option Chain × Option Bref
  | none => (none, none)
  | some b => if b.key > keyEnd then (none, none) else (chain, some b)

/-- `hammer2_combined_find`: the chain and the blockref, and the next key. -/
def combinedFind (n : Node) (keyBeg keyEnd : UInt64) :
    Option (Node × Option Chain × Option Bref × UInt64) :=
  (baseFind n.stats n.base (keyEnd + 1) keyBeg).bind fun (i, keyNext, stats) =>
    (chainFind n.tree keyNext keyBeg keyEnd).bind fun (chain, keyNext) =>
      (select keyBeg chain n.base[i]?).map fun (chain, bref) =>
        let (chain, bref) := inBounds keyEnd chain bref
        ({ n with stats }, chain, bref, keyNext)

/-- The loop over the entries from `keyBeg` on, at most so many. -/
def scan {β : Type} (body : β → Bref → Option β) : Nat → Node → UInt64 → β → Option (Node × β)
  | 0, _, _, _ => none
  | loops + 1, n, keyBeg, acc =>
      (combinedFind n keyBeg keyMax).bind fun (n, _, bref, _) =>
        match bref with
        | none => some (n, acc)
        | some b => (body acc b).bind fun acc =>
            let keyNext := b.key + b.range
            if keyNext = 0 then some (n, acc) else scan body loops n keyNext acc

/-! ## Moving an entry -/

/-- `hammer2_chain_cmp`: overlapping ranges match. -/
def chainCmp (a b : Bref) : Ordering :=
  if a.last < b.key then .lt else if a.key > b.last then .gt else .eq

/-- `RB_INSERT`, without a collision. -/
def rbInsert (chain : Chain) : List Chain → Option (List Chain)
  | [] => some [chain]
  | c :: cs =>
      match chainCmp chain.bref c.bref with
      | .lt => some (chain :: c :: cs)
      | .eq => none
      | .gt => (rbInsert chain cs).map (c :: ·)

/-- `hammer2_chain_insert`; `live` is `HAMMER2_CHAIN_INSERT_LIVE`. -/
def chainInsert (parent : Node) (chain : Chain) (live : Bool) : Option Node :=
  (rbInsert chain parent.tree).map fun tree =>
    { parent with
      tree
      liveCount := if live then parent.liveCount + 1 else parent.liveCount }

/-- `hammer2_chain_get`: the chain of an entry of the table. -/
def chainGet (parent : Node) (b : Bref) : Option (Node × Chain) :=
  let chain := ⟨b, ⟨true, false, false⟩⟩
  (chainInsert parent chain false).map fun parent => (parent, chain)

/-- `hammer2_chain_countbrefs` -/
def countbrefs (n : Node) : Node :=
  if n.stats.countedBrefs then n
  else
    { n with
      stats := { n.stats with
        countedBrefs := true
        liveZero := lastLive n.base n.base.length }
      liveCount := n.liveCount + (entries n.base).length }

theorem countbrefs_base (n : Node) : (countbrefs n).base = n.base := by
  unfold countbrefs
  split <;> rfl

/-- `hammer2_chain_delete_obref`, of a chain on the tree of its modified parent: without the
chain and its entry of the table, which comes as the last value, empty when there is none. -/
def deleteObref (parent : Node) (chain : Chain) : Option (Node × Chain × Bref) :=
  let parent := { parent with
    tree := parent.tree.filter fun c => c.bref.key ≠ chain.bref.key
    liveCount := parent.liveCount - 1 }
  if chain.flags.blkmapped then
    (baseDelete parent.stats parent.base chain.flags chain.bref).map fun (stats, base, flags, obref) =>
      ({ parent with stats, base }, { chain with flags }, obref)
  else some (parent, chain, Bref.zero)

/-- `hammer2_chain_rename_obref` under a modified parent, by `hammer2_chain_create`, with a
place left for the chain. -/
def renameObref (parent : Node) (chain : Chain) (obref : Bref) : Option Node :=
  let parent := countbrefs parent
  if ¬ (0 ≤ parent.liveCount ∧ parent.liveCount < parent.base.length) then none
  else if obref.isEmpty then chainInsert parent chain true
  else if chain.flags.blkmapped then none
  else
    (baseInsert parent.stats parent.base (some chain.flags) obref).bind fun (stats, base, flags) =>
      let flags := flags.getD chain.flags
      let flags := if obref ≠ chain.bref then { flags with blkmapupd := true } else flags
      chainInsert { parent with stats, base } { chain with flags } true

/-- An entry of `parent` is moved to `ichain`. -/
def moveOne (parent ichain : Node) (chain : Option Chain) (b : Bref) : Option (Node × Node) :=
  (match chain with
    | some chain => some (parent, chain)
    | none => chainGet parent b).bind fun (parent, chain) =>
      (deleteObref parent chain).bind fun (parent, chain, obref) =>
        (renameObref ichain chain obref).map fun ichain => (parent, ichain)

/-! ## The entries under a chain -/

/-- The range of a blockref is one of the aligned ranges of keys. -/
structure Ranged (b : Bref) : Prop where
  live : b.isEmpty = false
  keybits : b.keybits.toNat < 64
  aligned : 2 ^ b.keybits.toNat ∣ b.lo

theorem Ranged.hi_eq {b : Bref} (h : Ranged b) : b.hi = b.lo + (2 ^ b.keybits.toNat - 1) :=
  Bref.hi_eq h.keybits h.aligned

theorem Ranged.le {b : Bref} (h : Ranged b) : b.lo ≤ b.hi := by
  rw [h.hi_eq]
  exact Nat.le_add_right _ _

/-- There is a chain for the entry. -/
def Node.held (n : Node) (b : Bref) : Bool := n.tree.any fun c => c.bref.key = b.key

/-- The chains, and the entries of the table that have none. -/
def Node.live (n : Node) : List Bref :=
  n.tree.map (·.bref) ++ (entries n.base).filter fun b => !n.held b

/-- **The entries under a chain**, in the order of their keys. -/
structure Wf (n : Node) (view : List Bref) : Prop where
  table : Table n.stats n.base
  perm : view.Perm n.live
  order : view.Pairwise fun a b => a.hi < b.lo
  ranged : ∀ b ∈ view, Ranged b
  sorted : n.tree.Pairwise fun a b => a.bref.hi < b.bref.lo
  mapped : ∀ c ∈ n.tree, c.flags.blkmapped = true ↔ ∃ b ∈ entries n.base, b.key = c.bref.key
  same : ∀ c ∈ n.tree, ∀ b ∈ entries n.base, b.key = c.bref.key → b.keybits = c.bref.keybits
  count : n.liveCount = view.length

section Entries

variable {n : Node} {view : List Bref}

theorem held_iff {b : Bref} : n.held b = true ↔ ∃ c ∈ n.tree, c.bref.key = b.key := by
  unfold Node.held
  rw [List.any_eq_true]
  simp only [decide_eq_true_eq]

theorem mem_live {b : Bref} : b ∈ n.live ↔
    (∃ c ∈ n.tree, c.bref = b) ∨ (b ∈ entries n.base ∧ n.held b = false) := by
  unfold Node.live
  rw [List.mem_append, List.mem_map, List.mem_filter, Bool.not_eq_true']

theorem Wf.mem (h : Wf n view) {b : Bref} : b ∈ view ↔
    (∃ c ∈ n.tree, c.bref = b) ∨ (b ∈ entries n.base ∧ n.held b = false) :=
  h.perm.mem_iff.trans mem_live

theorem Wf.chain_mem (h : Wf n view) {c : Chain} (hc : c ∈ n.tree) : c.bref ∈ view :=
  h.mem.mpr (.inl ⟨c, hc, rfl⟩)

/-- Two entries with a key in common are one. -/
theorem Wf.eq_of_overlap (h : Wf n view) {a b : Bref} (ha : a ∈ view) (hb : b ∈ view)
    (hab : a.lo ≤ b.hi) (hba : b.lo ≤ a.hi) : a = b := by
  rcases List.mem_iff_getElem.mp ha with ⟨i, hi, rfl⟩
  rcases List.mem_iff_getElem.mp hb with ⟨j, hj, rfl⟩
  have hpair := List.pairwise_iff_getElem.mp h.order
  rcases Nat.lt_trichotomy i j with hlt | rfl | hgt
  · have hlt := hpair i j hi hj hlt
    omega
  · rfl
  · have hlt := hpair j i hj hi hgt
    omega

/-- The range of an entry of the table is that of an entry. -/
theorem Wf.media (h : Wf n view) {b : Bref} (hb : b ∈ entries n.base) :
    ∃ v ∈ view, v.key = b.key ∧ v.keybits = b.keybits := by
  cases hheld : n.held b with
  | false => exact ⟨b, h.mem.mpr (.inr ⟨hb, hheld⟩), rfl, rfl⟩
  | true =>
      obtain ⟨c, hc, hkey⟩ := held_iff.mp hheld
      exact ⟨c.bref, h.chain_mem hc, hkey, (h.same c hc b hb hkey.symm).symm⟩

/-- A blockref with the key and the bits of another has its range. -/
theorem Bref.range_congr {a b : Bref} (hkey : a.key = b.key) (hbits : a.keybits = b.keybits) :
    a.lo = b.lo ∧ a.hi = b.hi := by
  unfold Bref.lo Bref.hi Bref.last Bref.range
  rw [hkey, hbits]
  exact ⟨rfl, rfl⟩

theorem Wf.eq_of_key (h : Wf n view) {a b : Bref} (ha : a ∈ view) (hb : b ∈ view)
    (hkey : a.key = b.key) : a = b := by
  have hlo : a.lo = b.lo := congrArg UInt64.toNat hkey
  have hra := (h.ranged a ha).le
  have hrb := (h.ranged b hb).le
  exact h.eq_of_overlap ha hb (hlo ▸ hrb) (hlo ▸ hra)

end Entries

/-! ## What a search finds -/

/-- The hint of the table. -/
def Node.cache (n : Node) (c : Int) : Node := { n with stats := { n.stats with cacheIndex := c } }

/-- The first of the blockrefs that end at `k` or behind it. -/
structure Nearest (bs : List Bref) (k : Nat) (b : Bref) : Prop where
  mem : b ∈ bs
  reach : k ≤ b.hi
  first : ∀ v ∈ bs, k ≤ v.hi → b.lo ≤ v.lo

section Search

variable {n : Node} {view : List Bref} {keyBeg keyEnd : UInt64}

theorem findCmp_iff {c : Chain} : findCmp keyBeg keyEnd c = true ↔
    keyBeg.toNat ≤ c.bref.hi ∧ c.bref.lo ≤ keyEnd.toNat := by
  unfold findCmp
  rw [Bool.and_eq_true, Bool.not_eq_true', Bool.not_eq_true', decide_eq_false_iff_not,
    decide_eq_false_iff_not, UInt64.not_lt, UInt64.not_lt, UInt64.le_iff_toNat_le,
    UInt64.le_iff_toNat_le]
  rfl

/-- The first chain stays the best. -/
theorem foldlM_best {best : Chain} : ∀ {cs : List Chain} (keyNext : UInt64),
    (∀ c ∈ cs, best.bref.lo < c.bref.lo ∧ keyBeg.toNat < c.bref.lo) →
    ∃ kn, cs.foldlM (findCallback keyBeg) (some best, keyNext) = some (some best, kn)
  | [], keyNext, _ => ⟨keyNext, rfl⟩
  | c :: cs, keyNext, h => by
      obtain ⟨hlt, hbeg⟩ := h c List.mem_cons_self
      have hkey : ¬ c.bref.key ≤ keyBeg := fun hle =>
        Nat.not_le_of_lt hbeg (UInt64.le_iff_toNat_le.mp hle)
      have hless : ¬ c.bref.key < best.bref.key := fun hc =>
        Nat.lt_asymm hlt (UInt64.lt_iff_toNat_lt.mp hc)
      have hne : c.bref.key ≠ best.bref.key := fun heq =>
        Nat.ne_of_gt hlt (congrArg UInt64.toNat heq)
      rw [List.foldlM_cons, findCallback]
      dsimp only
      rw [if_neg fun hc => hkey hc.2, if_neg hless, if_neg hne]
      exact foldlM_best _ fun c' hc' => h c' (List.mem_cons_of_mem c hc')

/-- The chains that are looked at, and the nearest one of them. -/
theorem chainFind_spec {tree : List Chain}
    (hsorted : tree.Pairwise fun a b => a.bref.hi < b.bref.lo)
    (hranged : ∀ c ∈ tree, c.bref.lo ≤ c.bref.hi) (keyNext keyBeg keyEnd : UInt64) :
    ∃ best kn, chainFind tree keyNext keyBeg keyEnd = some (best, kn) ∧
      match best with
      | none => ∀ c ∈ tree, keyBeg.toNat ≤ c.bref.hi → keyEnd.toNat < c.bref.lo
      | some c => c ∈ tree ∧ c.bref.lo ≤ keyEnd.toNat ∧
          Nearest (tree.map (·.bref)) keyBeg.toNat c.bref := by
  unfold chainFind
  cases hfound : tree.filter (findCmp keyBeg keyEnd) with
  | nil =>
      refine ⟨none, keyNext, rfl, fun c hc hreach => Nat.lt_of_not_le fun hle => ?_⟩
      have hin : c ∈ tree.filter (findCmp keyBeg keyEnd) :=
        List.mem_filter.mpr ⟨hc, findCmp_iff.mpr ⟨hreach, hle⟩⟩
      rw [hfound] at hin
      exact List.not_mem_nil hin
  | cons c cs =>
      have hmem : ∀ c' ∈ c :: cs, c' ∈ tree ∧ keyBeg.toNat ≤ c'.bref.hi ∧
          c'.bref.lo ≤ keyEnd.toNat := by
        intro c' hc'
        rw [← hfound] at hc'
        obtain ⟨hin, hcmp⟩ := List.mem_filter.mp hc'
        exact ⟨hin, findCmp_iff.mp hcmp⟩
      obtain ⟨hc, hreach, hend⟩ := hmem c List.mem_cons_self
      have hpair : (c :: cs).Pairwise fun a b => a.bref.hi < b.bref.lo := by
        rw [← hfound]
        exact hsorted.filter _
      have hbehind := (List.pairwise_cons.mp hpair).1
      have hself := hranged c hc
      obtain ⟨kn, hkn⟩ := @foldlM_best keyBeg c cs
        (if c.bref.key + c.bref.range ≠ 0 then lower keyNext (c.bref.key + c.bref.range)
          else keyNext)
        (fun c' hc' => by
          have hlt := hbehind c' hc'
          exact ⟨Nat.lt_of_le_of_lt hself hlt, Nat.lt_of_le_of_lt hreach hlt⟩)
      refine ⟨some c, kn, ?_, hc, hend, List.mem_map.mpr ⟨c, hc, rfl⟩, hreach, ?_⟩
      · rw [List.foldlM_cons]
        exact hkn
      · intro v hv hvreach
        obtain ⟨c', hc', rfl⟩ := List.mem_map.mp hv
        rcases Nat.lt_or_ge keyEnd.toNat c'.bref.lo with hlt | hle
        · exact Nat.le_of_lt (Nat.lt_of_le_of_lt hend hlt)
        · have hin : c' ∈ c :: cs := by
            rw [← hfound]
            exact List.mem_filter.mpr ⟨hc', findCmp_iff.mpr ⟨hvreach, hle⟩⟩
          rcases List.mem_cons.mp hin with rfl | hin
          · exact Nat.le_refl _
          · exact Nat.le_of_lt (Nat.lt_of_le_of_lt hself (hbehind c' hin))

/-- The entry of the table that is found. -/
theorem First.nearest {stats : Parent} {base : List Bref} (h : Table stats base) {k i : Nat}
    (hf : First base k i) :
    match base[i]? with
    | none => ∀ b ∈ entries base, b.hi < k
    | some b => Nearest (entries base) k b := by
  have hbefore : ∀ (t : Nat) b, base[t]? = some b → b.isEmpty = false → k ≤ b.hi → i ≤ t := by
    intro t b ht hb hk
    refine Nat.le_of_not_lt fun hlt => ?_
    have hhi := hf.before t b hlt ht hb
    omega
  cases hget : base[i]? with
  | none =>
      intro b hb
      obtain ⟨hmem, hlive⟩ := mem_entries.mp hb
      obtain ⟨t, ht⟩ := List.mem_iff_getElem?.mp hmem
      refine Nat.lt_of_not_le fun hk => ?_
      have hit := hbefore t b ht hlive hk
      have hlt := (List.getElem?_eq_some_iff.mp ht).1
      have hge := List.getElem?_eq_none_iff.mp hget
      omega
  | some b =>
      obtain ⟨hlive, hk⟩ := hf.here b hget
      refine ⟨mem_entries.mpr ⟨mem_of_getElem hget, hlive⟩, hk, fun v hv hvk => ?_⟩
      obtain ⟨hmem, hvlive⟩ := mem_entries.mp hv
      obtain ⟨t, ht⟩ := List.mem_iff_getElem?.mp hmem
      rcases Nat.lt_or_eq_of_le (hbefore t v ht hvlive hvk) with hlt | rfl
      · have hbv := h.lt hget ht hlive hvlive hlt
        have hrange := h.range hget hlive
        omega
      · obtain rfl := Option.some.inj (hget.symm.trans ht)
        exact Nat.le_refl _

/-- What `hammer2_combined_find` answers: nothing, the chain of the nearest entry, or its
blockref when it has no chain. -/
inductive Found (n : Node) (view : List Bref) (keyBeg keyEnd : UInt64) :
    Option Chain → Option Bref → Prop
  | exhausted : (∀ v ∈ view, keyBeg.toNat ≤ v.hi → keyEnd.toNat < v.lo) →
      Found n view keyBeg keyEnd none none
  | chain {c : Chain} : c ∈ n.tree → c.bref.lo ≤ keyEnd.toNat →
      Nearest view keyBeg.toNat c.bref → Found n view keyBeg keyEnd (some c) (some c.bref)
  | media {b : Bref} : b ∈ entries n.base → n.held b = false → b.lo ≤ keyEnd.toNat →
      Nearest view keyBeg.toNat b → Found n view keyBeg keyEnd none (some b)

/-- The blockref is the nearer one. -/
theorem found_media (h : Wf n view) {b : Bref} (hb : Nearest (entries n.base) keyBeg.toNat b)
    (hless : ∀ c ∈ n.tree, keyBeg.toNat ≤ c.bref.hi → keyEnd.toNat < c.bref.lo ∨ b.lo < c.bref.lo) :
    ∃ chain bref, inBounds keyEnd none (some b) = (chain, bref) ∧
      Found n view keyBeg keyEnd chain bref := by
  rw [inBounds]
  split
  · rename_i hgt
    have hgt : keyEnd.toNat < b.lo := UInt64.lt_iff_toNat_lt.mp hgt
    refine ⟨none, none, rfl, .exhausted fun v hv hreach => ?_⟩
    rcases h.mem.mp hv with ⟨c, hc, rfl⟩ | ⟨hv, -⟩
    · rcases hless c hc hreach with hlt | hlt
      · exact hlt
      · exact Nat.lt_trans hgt hlt
    · exact Nat.lt_of_lt_of_le hgt (hb.first v hv hreach)
  · rename_i hle
    have hle : b.lo ≤ keyEnd.toNat := UInt64.le_iff_toNat_le.mp (UInt64.not_lt.mp hle)
    have hfree : n.held b = false := by
      refine Bool.eq_false_iff.mpr fun hheld => ?_
      obtain ⟨c, hc, hkey⟩ := held_iff.mp hheld
      obtain ⟨hlo, hhi⟩ := Bref.range_congr hkey (h.same c hc b hb.mem hkey.symm).symm
      rcases hless c hc (hhi ▸ hb.reach) with hlt | hlt
      · omega
      · omega
    refine ⟨none, some b, rfl, .media hb.mem hfree hle ⟨?_, hb.reach, fun v hv hreach => ?_⟩⟩
    · exact h.mem.mpr (.inr ⟨hb.mem, hfree⟩)
    · rcases h.mem.mp hv with ⟨c, hc, rfl⟩ | ⟨hv, -⟩
      · rcases hless c hc hreach with hlt | hlt
        · omega
        · exact Nat.le_of_lt hlt
      · exact hb.first v hv hreach

/-- The chain is the nearer one. -/
theorem found_chain (h : Wf n view) {c : Chain} (hc : c ∈ n.tree) (hend : c.bref.lo ≤ keyEnd.toNat)
    (hnear : Nearest (n.tree.map (·.bref)) keyBeg.toNat c.bref)
    (hless : ∀ b ∈ entries n.base, keyBeg.toNat ≤ b.hi → c.bref.lo ≤ b.lo) :
    ∃ chain bref, inBounds keyEnd (some c) (some c.bref) = (chain, bref) ∧
      Found n view keyBeg keyEnd chain bref := by
  have hle : ¬ c.bref.key > keyEnd := fun hgt =>
    Nat.not_lt.mpr hend (UInt64.lt_iff_toNat_lt.mp hgt)
  rw [inBounds]
  rw [if_neg hle]
  refine ⟨some c, some c.bref, rfl, .chain hc hend ⟨h.chain_mem hc, hnear.reach, ?_⟩⟩
  intro v hv hreach
  rcases h.mem.mp hv with ⟨c', hc', rfl⟩ | ⟨hv, -⟩
  · exact hnear.first _ (List.mem_map.mpr ⟨c', hc', rfl⟩) hreach
  · exact hless v hv hreach

/-- Of the nearest chain and the nearest entry of the table the nearer one is selected. -/
theorem select_both (h : Wf n view) {c : Chain} {b : Bref} (hc : c ∈ n.tree)
    (hend : c.bref.lo ≤ keyEnd.toNat)
    (hnear : Nearest (n.tree.map (·.bref)) keyBeg.toNat c.bref)
    (hmedia : Nearest (entries n.base) keyBeg.toNat b) :
    ∃ chain bref, select keyBeg (some c) (some b) = some (chain, bref) ∧
      ∃ chain' bref', inBounds keyEnd chain bref = (chain', bref') ∧
        Found n view keyBeg keyEnd chain' bref' := by
  rw [select]
  by_cases hboth : (c.bref.key ≤ keyBeg ∧ b.key ≤ keyBeg) ∨ c.bref.key = b.key
  · -- when both begin before the key they are one entry
    have hkey : c.bref.key = b.key := by
      rcases hboth with ⟨hck, hbk⟩ | hkey
      · obtain ⟨v, hv, hvkey, hvbits⟩ := h.media hmedia.mem
        obtain ⟨hlo, hhi⟩ := Bref.range_congr hvkey hvbits
        have hck : c.bref.lo ≤ keyBeg.toNat := UInt64.le_iff_toNat_le.mp hck
        have hbk : b.lo ≤ keyBeg.toNat := UInt64.le_iff_toNat_le.mp hbk
        have hbr := hmedia.reach
        have hcr := hnear.reach
        have hone := h.eq_of_overlap (h.chain_mem hc) hv (by omega) (by omega)
        rw [hone, hvkey]
      · exact hkey
    have hlo : c.bref.lo = b.lo := congrArg UInt64.toNat hkey
    rw [if_pos hboth, if_pos hkey]
    exact ⟨some c, some c.bref, rfl, found_chain h hc hend hnear
      fun v hv hreach => hlo ▸ hmedia.first v hv hreach⟩
  · rw [if_neg hboth]
    by_cases hlt : c.bref.key < b.key
    · rw [if_pos hlt]
      have hlt : c.bref.lo < b.lo := UInt64.lt_iff_toNat_lt.mp hlt
      exact ⟨some c, some c.bref, rfl, found_chain h hc hend hnear
        fun v hv hreach => Nat.le_trans (Nat.le_of_lt hlt) (hmedia.first v hv hreach)⟩
    · rw [if_neg hlt]
      have hge : b.lo ≤ c.bref.lo := UInt64.le_iff_toNat_le.mp (UInt64.not_lt.mp hlt)
      have hne : b.lo ≠ c.bref.lo := fun heq => hboth (.inr (UInt64.toNat_inj.mp heq.symm))
      refine ⟨none, some b, rfl, found_media h hmedia fun c' hc' hreach => .inr ?_⟩
      have hfirst := hnear.first _ (List.mem_map.mpr ⟨c', hc', rfl⟩) hreach
      exact Nat.lt_of_lt_of_le (Nat.lt_of_le_of_ne hge hne) hfirst

/-- **A combined search** finds the nearest entry. -/
theorem combinedFind_spec (h : Wf n view) (keyBeg keyEnd : UInt64) :
    ∃ c chain bref kn, combinedFind n keyBeg keyEnd = some (n.cache c, chain, bref, kn) ∧
      Found n view keyBeg keyEnd chain bref := by
  obtain ⟨i, kn, c, hbase, hfirst⟩ := baseFind_spec h.table (keyEnd + 1) keyBeg
  obtain ⟨best, kn', hchain, hbest⟩ := chainFind_spec h.sorted
    (fun c hc => (h.ranged _ (h.chain_mem hc)).le) kn keyBeg keyEnd
  have hmedia := First.nearest h.table hfirst
  have hselect : ∃ chain bref, select keyBeg best n.base[i]? = some (chain, bref) ∧
      ∃ chain' bref', inBounds keyEnd chain bref = (chain', bref') ∧
        Found n view keyBeg keyEnd chain' bref' := by
    cases best with
    | none =>
        cases hget : n.base[i]? with
        | none =>
            rw [hget] at hmedia
            refine ⟨none, none, rfl, none, none, rfl, .exhausted fun v hv hreach => ?_⟩
            rcases h.mem.mp hv with ⟨c, hc, rfl⟩ | ⟨hb, -⟩
            · exact hbest c hc hreach
            · exact absurd hreach (Nat.not_le_of_lt (hmedia v hb))
        | some b =>
            rw [hget] at hmedia
            exact ⟨none, some b, rfl,
              found_media h hmedia fun c hc hreach => .inl (hbest c hc hreach)⟩
    | some c =>
        obtain ⟨hc, hend, hnear⟩ := hbest
        cases hget : n.base[i]? with
        | none =>
            rw [hget] at hmedia
            exact ⟨some c, some c.bref, rfl, found_chain h hc hend hnear
              fun b hb hreach => absurd hreach (Nat.not_le_of_lt (hmedia b hb))⟩
        | some b =>
            rw [hget] at hmedia
            exact select_both h hc hend hnear hmedia
  obtain ⟨chain, bref, hsel, chain', bref', hbounds, hfound⟩ := hselect
  refine ⟨c, chain', bref', kn', ?_, hfound⟩
  unfold combinedFind
  rw [hbase, Option.bind_some]
  dsimp only
  rw [hchain, Option.bind_some]
  dsimp only
  rw [hsel, Option.map_some]
  dsimp only
  rw [hbounds]
  rfl

end Search

/-! ## The loop over the entries -/

section Scan

variable {n : Node} {view A B : List Bref}

theorem Wf.cache (h : Wf n view) (c : Int) : Wf (n.cache c) view :=
  ⟨⟨h.table.counted, h.table.order, h.table.ranges, h.table.ends⟩, h.perm, h.order, h.ranged,
    h.sorted, h.mapped, h.same, h.count⟩

theorem Found.cache {keyBeg keyEnd : UInt64} {chain : Option Chain} {bref : Option Bref}
    (h : Found n view keyBeg keyEnd chain bref) (c : Int) :
    Found (n.cache c) view keyBeg keyEnd chain bref := by
  cases h with
  | exhausted hall => exact .exhausted hall
  | chain hc hle hnear => exact .chain hc hle hnear
  | media hb hfree hle hnear => exact .media hb hfree hle hnear

/-- The key behind an entry; 0 behind the last key. -/
theorem next_key (e : Bref) : (e.key + e.range).toNat = (e.hi + 1) % 2 ^ 64 := by
  have hlast : e.key + e.range = e.last + 1 := by
    unfold Bref.last
    rw [UInt64.sub_add_cancel]
  rw [hlast, UInt64.toNat_add, UInt64.toNat_one]
  rfl

/-- The entries before `keyBeg` and those from it on: the search finds the first of these. -/
theorem Found.step (h : Wf n view) {keyBeg : UInt64} {chain : Option Chain} {bref : Option Bref}
    (hf : Found n view keyBeg keyMax chain bref) (hview : view = A ++ B)
    (hA : ∀ a ∈ A, a.hi < keyBeg.toNat) (hB : ∀ b ∈ B, keyBeg.toNat ≤ b.lo) :
    bref = none ∧ B = [] ∨ ∃ e B', bref = some e ∧ B = e :: B' := by
  have hnear : ∀ e, Nearest view keyBeg.toNat e → ∃ B', B = e :: B' := by
    intro e he
    have hmem := he.mem
    rw [hview] at hmem
    have hin : e ∈ B := by
      rcases List.mem_append.mp hmem with hin | hin
      · have hlt := hA e hin
        have hreach := he.reach
        omega
      · exact hin
    cases B with
    | nil => cases hin
    | cons b B' =>
        have hb : b ∈ view := by
          rw [hview]
          exact List.mem_append_right A List.mem_cons_self
        have hreach : keyBeg.toNat ≤ b.hi :=
          Nat.le_trans (hB b List.mem_cons_self) (h.ranged b hb).le
        have hfirst := he.first b hb hreach
        rcases List.mem_cons.mp hin with rfl | hin
        · exact ⟨B', rfl⟩
        · have horder := h.order
          rw [hview] at horder
          have hlt := (List.pairwise_cons.mp (List.pairwise_append.mp horder).2.1).1 e hin
          have hle := (h.ranged b hb).le
          omega
  cases hf with
  | exhausted hall =>
      refine .inl ⟨rfl, ?_⟩
      cases B with
      | nil => rfl
      | cons b B' =>
          have hb : b ∈ view := by
            rw [hview]
            exact List.mem_append_right A List.mem_cons_self
          have hreach := Nat.le_trans (hB b List.mem_cons_self) (h.ranged b hb).le
          have hfar := hall b hb hreach
          have hlt := b.key.toNat_lt
          exact absurd hfar (Nat.not_lt.mpr (Nat.le_of_lt_succ hlt))
  | chain _ _ hn =>
      obtain ⟨B', hB'⟩ := hnear _ hn
      exact .inr ⟨_, B', rfl, hB'⟩
  | media _ _ _ hn =>
      obtain ⟨B', hB'⟩ := hnear _ hn
      exact .inr ⟨_, B', rfl, hB'⟩

/-- Behind an entry: the key wraps when there is none left, else the rest begins there. -/
theorem Wf.behind (h : Wf n view) {e : Bref} (hview : view = A ++ e :: B) :
    (e.key + e.range = 0 → B = []) ∧
      (e.key + e.range ≠ 0 → (∀ a ∈ A ++ [e], a.hi < (e.key + e.range).toNat) ∧
        ∀ b ∈ B, (e.key + e.range).toNat ≤ b.lo) := by
  have horder := h.order
  rw [hview] at horder
  obtain ⟨-, hcons, hA⟩ := List.pairwise_append.mp horder
  have hB := (List.pairwise_cons.mp hcons).1
  have he : e ∈ view := by
    rw [hview]
    exact List.mem_append_right A List.mem_cons_self
  have hle := (h.ranged e he).le
  have hlt : e.hi < 2 ^ 64 := e.last.toNat_lt
  have hnext := next_key e
  constructor
  · intro hz
    rw [hz] at hnext
    have hz : (e.hi + 1) % 2 ^ 64 = 0 := hnext.symm
    cases B with
    | nil => rfl
    | cons b B' =>
        have hbelow := hB b List.mem_cons_self
        have hb : b.lo < 2 ^ 64 := b.key.toNat_lt
        omega
  · intro hne
    have hpos : (e.key + e.range).toNat ≠ 0 := fun hz => hne (UInt64.toNat_inj.mp hz)
    rw [hnext] at hpos ⊢
    have hmod : (e.hi + 1) % 2 ^ 64 = e.hi + 1 := by omega
    rw [hmod]
    refine ⟨fun a ha => ?_, fun b hb => hB b hb⟩
    rcases List.mem_append.mp ha with ha | ha
    · have hae := hA a ha e List.mem_cons_self
      omega
    · obtain rfl := List.mem_singleton.mp ha
      exact Nat.lt_succ_self _

/-- **The loop** is a fold over the entries. -/
theorem scan_from {β : Type} (body : β → Bref → Option β) : ∀ {B A : List Bref} {loops : Nat}
    {n : Node} {keyBeg : UInt64} (acc : β), Wf n view → view = A ++ B → B.length < loops →
    (∀ a ∈ A, a.hi < keyBeg.toNat) → (∀ b ∈ B, keyBeg.toNat ≤ b.lo) →
    ∃ c, scan body loops n keyBeg acc = (B.foldlM body acc).map fun acc => (n.cache c, acc)
  | B, A, 0, n, keyBeg, acc, h, hview, hloops, hA, hB => absurd hloops (Nat.not_lt_zero _)
  | B, A, loops + 1, n, keyBeg, acc, h, hview, hloops, hA, hB => by
      obtain ⟨c, chain, bref, kn, hfind, hfound⟩ := combinedFind_spec h keyBeg keyMax
      unfold scan
      rw [hfind, Option.bind_some]
      dsimp only
      rcases hfound.step h hview hA hB with ⟨rfl, rfl⟩ | ⟨e, B', rfl, rfl⟩
      · exact ⟨c, rfl⟩
      · dsimp only
        rw [List.foldlM_cons]
        cases hbody : body acc e with
        | none => exact ⟨c, rfl⟩
        | some acc =>
            rw [Option.bind_some]
            show ∃ c', _ = (B'.foldlM body acc).map _
            obtain ⟨hlast, hrest⟩ := h.behind hview
            by_cases hz : e.key + e.range = 0
            · rw [if_pos hz, hlast hz]
              exact ⟨c, rfl⟩
            · obtain ⟨hA', hB'⟩ := hrest hz
              rw [if_neg hz]
              obtain ⟨c', hc'⟩ := @scan_from _ body B' (A ++ [e]) loops (n.cache c)
                (e.key + e.range) acc (h.cache c) (by rw [hview, List.append_assoc]; rfl)
                (Nat.lt_of_succ_lt_succ hloops) hA' hB'
              exact ⟨c', hc'⟩

theorem scan_spec {β : Type} (h : Wf n view) (body : β → Bref → Option β) {loops : Nat}
    (hloops : view.length < loops) (acc : β) :
    ∃ c, scan body loops n 0 acc = (view.foldlM body acc).map fun acc => (n.cache c, acc) :=
  @scan_from view β body view [] loops n 0 acc h rfl hloops
    (fun a ha => absurd ha List.not_mem_nil) fun b _ => Nat.zero_le _

end Scan

/-! ## Moving an entry -/

section Move

variable {n : Node} {view A B : List Bref}

/-- Which entries there are is a matter of membership: no two have the same key. -/
theorem Wf.of_mem (table : Table n.stats n.base) (hmem : ∀ b, b ∈ view ↔ b ∈ n.live)
    (order : view.Pairwise fun a b => a.hi < b.lo) (ranged : ∀ b ∈ view, Ranged b)
    (sorted : n.tree.Pairwise fun a b => a.bref.hi < b.bref.lo)
    (mapped : ∀ c ∈ n.tree, c.flags.blkmapped = true ↔ ∃ b ∈ entries n.base, b.key = c.bref.key)
    (same : ∀ c ∈ n.tree, ∀ b ∈ entries n.base, b.key = c.bref.key → b.keybits = c.bref.keybits)
    (count : n.liveCount = view.length) : Wf n view := by
  have hne : ∀ {a b : Bref}, a.lo ≤ a.hi → a.hi < b.lo → a ≠ b := by
    rintro a b hle hlt rfl
    exact absurd hle (Nat.not_le_of_lt hlt)
  have hview : view.Nodup :=
    order.imp_of_mem fun ha _ hlt => hne (ranged _ ha).le hlt
  have hchain : ∀ c ∈ n.tree, c.bref.lo ≤ c.bref.hi := fun c hc =>
    (ranged _ ((hmem _).mpr (mem_live.mpr (.inl ⟨c, hc, rfl⟩)))).le
  have hlive : n.live.Nodup := by
    refine List.Nodup.append ?_ ?_ ?_
    · exact List.pairwise_map.mpr (sorted.imp_of_mem fun hc _ hlt => hne (hchain _ hc) hlt)
    · exact List.Nodup.filter _ (table.order.imp_of_mem fun hb _ hlt => hne (table.ranges _ hb) hlt)
    · intro b hb hb'
      obtain ⟨c, hc, rfl⟩ := List.mem_map.mp hb
      have hfree := (List.mem_filter.mp hb').2
      rw [held_iff.mpr ⟨c, hc, rfl⟩] at hfree
      exact absurd hfree nofun
  exact ⟨table, (List.perm_ext_iff_of_nodup hview hlive).mpr hmem, order, ranged, sorted, mapped,
    same, count⟩

/-- A chain apart from those of the tree is inserted. -/
theorem rbInsert_spec {x : Chain} (hx : x.bref.lo ≤ x.bref.hi) : ∀ {tree : List Chain},
    tree.Pairwise (fun a b => a.bref.hi < b.bref.lo) → (∀ c ∈ tree, c.bref.lo ≤ c.bref.hi) →
    (∀ c ∈ tree, c.bref.hi < x.bref.lo ∨ x.bref.hi < c.bref.lo) →
    ∃ tree', rbInsert x tree = some tree' ∧ (∀ c, c ∈ tree' ↔ c = x ∨ c ∈ tree) ∧
      tree'.Pairwise fun a b => a.bref.hi < b.bref.lo
  | [], _, _, _ => ⟨[x], rfl, fun c => List.mem_cons, List.pairwise_singleton _ _⟩
  | c :: cs, hsorted, hle, hapart => by
      obtain ⟨hc, hcs⟩ := List.pairwise_cons.mp hsorted
      rcases hapart c List.mem_cons_self with hlt | hlt
      · -- behind the first chain
        obtain ⟨tree', htree, hmem, hpair⟩ := rbInsert_spec hx hcs
          (fun c' hc' => hle c' (List.mem_cons_of_mem c hc'))
          (fun c' hc' => hapart c' (List.mem_cons_of_mem c hc'))
        have hcmp : chainCmp x.bref c.bref = .gt := by
          unfold chainCmp
          have hle := hle c List.mem_cons_self
          rw [if_neg, if_pos]
          · exact UInt64.lt_iff_toNat_lt.mpr hlt
          · intro hl
            have hl : x.bref.hi < c.bref.lo := UInt64.lt_iff_toNat_lt.mp hl
            omega
        refine ⟨c :: tree', by rw [rbInsert, hcmp]; dsimp only; rw [htree]; rfl, fun c' => ?_, ?_⟩
        · rw [List.mem_cons, hmem, List.mem_cons]
          exact or_left_comm
        · refine List.pairwise_cons.mpr ⟨fun c' hc' => ?_, hpair⟩
          rcases (hmem c').mp hc' with rfl | hin
          · exact hlt
          · exact hc c' hin
      · have hcmp : chainCmp x.bref c.bref = .lt := by
          unfold chainCmp
          rw [if_pos]
          exact UInt64.lt_iff_toNat_lt.mpr hlt
        refine ⟨x :: c :: cs, by rw [rbInsert, hcmp], fun c' => List.mem_cons, ?_⟩
        refine List.pairwise_cons.mpr ⟨fun c' hc' => ?_, hsorted⟩
        rcases List.mem_cons.mp hc' with rfl | hin
        · exact hlt
        · have hle := hle c List.mem_cons_self
          have hbehind := hc c' hin
          omega

theorem Wf.apart_tree (h : Wf n view) {e : Bref} (hview : ∀ v ∈ view, v.hi < e.lo ∨ e.hi < v.lo) :
    ∀ c ∈ n.tree, c.bref.hi < e.lo ∨ e.hi < c.bref.lo := fun _ hc => hview _ (h.chain_mem hc)

/-- No entry of the table has the key of an entry that is apart from all. -/
theorem Wf.apart_base (h : Wf n view) {e : Bref} (hview : ∀ v ∈ view, v.hi < e.lo ∨ e.hi < v.lo) :
    ∀ b ∈ entries n.base, b.hi < e.lo ∨ e.hi < b.lo := by
  intro b hb
  obtain ⟨v, hv, hkey, hbits⟩ := h.media hb
  obtain ⟨hlo, hhi⟩ := Bref.range_congr hkey hbits
  rw [← hlo, ← hhi]
  exact hview v hv

/-- The view with a new entry at its place. -/
theorem pairwise_insert {e : Bref} (h : (A ++ B).Pairwise fun a b => a.hi < b.lo)
    (hA : ∀ a ∈ A, a.hi < e.lo) (hB : ∀ b ∈ B, e.hi < b.lo) :
    (A ++ e :: B).Pairwise fun a b => a.hi < b.lo := by
  obtain ⟨hpA, hpB, hAB⟩ := List.pairwise_append.mp h
  refine List.pairwise_append.mpr ⟨hpA, List.pairwise_cons.mpr ⟨hB, hpB⟩, fun a ha b hb => ?_⟩
  rcases List.mem_cons.mp hb with rfl | hb
  · exact hA a ha
  · exact hAB a ha b hb

/-- **A chain is inserted**, over a table with the entries `extra` more, which are the chain's. -/
theorem Wf.insert_table (h : Wf n (A ++ B)) {c : Chain} (hc : Ranged c.bref)
    (hA : ∀ a ∈ A, a.hi < c.bref.lo) (hB : ∀ b ∈ B, c.bref.hi < b.lo) {stats : Parent}
    {base : List Bref} {extra : Bref → Prop} (htable : Table stats base)
    (hbase : ∀ b, b ∈ entries base ↔ extra b ∨ b ∈ entries n.base)
    (hextra : ∀ b, extra b → b.key = c.bref.key ∧ b.keybits = c.bref.keybits)
    (hflag : c.flags.blkmapped = true ↔ ∃ b, extra b) :
    ∃ n', chainInsert { n with stats, base } c true = some n' ∧ Wf n' (A ++ c.bref :: B) ∧
      n'.base = base ∧ n'.stats = stats ∧ n'.modified = n.modified := by
  have hapart : ∀ v ∈ A ++ B, v.hi < c.bref.lo ∨ c.bref.hi < v.lo := fun v hv =>
    (List.mem_append.mp hv).imp (hA v) (hB v)
  obtain ⟨tree', htree, hmem, hsorted⟩ := rbInsert_spec hc.le h.sorted
    (fun c hc => (h.ranged _ (h.chain_mem hc)).le) (h.apart_tree hapart)
  have hclo := hc.le
  have hkey : ∀ b ∈ entries n.base, b.key ≠ c.bref.key := by
    intro b hb heq
    have hlo : b.lo = c.bref.lo := congrArg UInt64.toNat heq
    have hle := h.table.ranges b hb
    rcases h.apart_base hapart b hb with hlt | hlt
    · omega
    · omega
  have hkeys : ∀ c' ∈ n.tree, c'.bref.key ≠ c.bref.key := by
    intro c' hc' heq
    have hlo : c'.bref.lo = c.bref.lo := congrArg UInt64.toNat heq
    have hle := (h.ranged _ (h.chain_mem hc')).le
    rcases h.apart_tree hapart c' hc' with hlt | hlt
    · omega
    · omega
  refine ⟨{ n with stats, base, tree := tree', liveCount := n.liveCount + 1 },
    by rw [chainInsert]; dsimp only; rw [htree]; rfl, ?_, rfl, rfl, rfl⟩
  refine .of_mem htable (fun b => ?_) (pairwise_insert h.order hA hB) ?_ hsorted ?_ ?_ ?_
  · have hold : b ∈ A ++ B ↔ _ := h.mem
    rw [List.mem_append] at hold
    rw [List.mem_append, List.mem_cons, or_left_comm, hold, mem_live]
    have hheld : ∀ b, Node.held { n with stats, base, tree := tree', liveCount := n.liveCount + 1 } b =
        true ↔ b.key = c.bref.key ∨ n.held b = true := by
      intro b
      simp only [held_iff, hmem]
      constructor
      · rintro ⟨c', rfl | hc', heq⟩
        · exact .inl heq.symm
        · exact .inr ⟨c', hc', heq⟩
      · rintro (heq | ⟨c', hc', heq⟩)
        · exact ⟨c, .inl rfl, heq.symm⟩
        · exact ⟨c', .inr hc', heq⟩
    have hfree : ∀ b, Node.held { n with stats, base, tree := tree', liveCount := n.liveCount + 1 } b =
        false ↔ b.key ≠ c.bref.key ∧ n.held b = false := by
      intro b
      rw [Bool.eq_false_iff, ne_eq, hheld, not_or, Bool.eq_false_iff]
    dsimp only
    constructor
    · rintro (rfl | ⟨c', hc', rfl⟩ | ⟨hb, hbfree⟩)
      · exact .inl ⟨c, (hmem c).mpr (.inl rfl), rfl⟩
      · exact .inl ⟨c', (hmem c').mpr (.inr hc'), rfl⟩
      · exact .inr ⟨(hbase b).mpr (.inr hb), (hfree b).mpr ⟨hkey b hb, hbfree⟩⟩
    · rintro (⟨c', hc', rfl⟩ | ⟨hb, hbfree⟩)
      · rcases (hmem c').mp hc' with rfl | hc'
        · exact .inl rfl
        · exact .inr (.inl ⟨c', hc', rfl⟩)
      · obtain ⟨hne, hbfree⟩ := (hfree b).mp hbfree
        rcases (hbase b).mp hb with hb | hb
        · exact absurd (hextra b hb).1 hne
        · exact .inr (.inr ⟨hb, hbfree⟩)
  · intro b hb
    rcases List.mem_append.mp hb with hb | hb
    · exact h.ranged b (List.mem_append_left B hb)
    · rcases List.mem_cons.mp hb with rfl | hb
      · exact hc
      · exact h.ranged b (List.mem_append_right A hb)
  · intro c' hc'
    rcases (hmem c').mp hc' with rfl | hc'
    · rw [hflag]
      constructor
      · rintro ⟨b, hb⟩
        exact ⟨b, (hbase b).mpr (.inl hb), (hextra b hb).1⟩
      · rintro ⟨b, hb, heq⟩
        rcases (hbase b).mp hb with hb | hb
        · exact ⟨b, hb⟩
        · exact absurd heq (hkey b hb)
    · refine (h.mapped c' hc').trans ⟨?_, ?_⟩
      · rintro ⟨b, hb, heq⟩
        exact ⟨b, (hbase b).mpr (.inr hb), heq⟩
      · rintro ⟨b, hb, heq⟩
        rcases (hbase b).mp hb with hb | hb
        · exact absurd (heq.symm.trans (hextra b hb).1) (hkeys c' hc')
        · exact ⟨b, hb, heq⟩
  · intro c' hc' b hb heq
    rcases (hbase b).mp hb with hb | hb
    · rcases (hmem c').mp hc' with rfl | hc'
      · exact (hextra b hb).2
      · exact absurd (heq.symm.trans (hextra b hb).1) (hkeys c' hc')
    · rcases (hmem c').mp hc' with rfl | hc'
      · exact absurd heq (hkey b hb)
      · exact h.same c' hc' b hb heq
  · have hcount := h.count
    rw [List.length_append] at hcount
    show n.liveCount + 1 = _
    rw [hcount, List.length_append, List.length_cons]
    push_cast
    omega

/-- A chain that is not in the table. -/
theorem Wf.insert (h : Wf n (A ++ B)) {c : Chain} (hc : Ranged c.bref)
    (hflag : c.flags.blkmapped = false) (hA : ∀ a ∈ A, a.hi < c.bref.lo)
    (hB : ∀ b ∈ B, c.bref.hi < b.lo) :
    ∃ n', chainInsert n c true = some n' ∧ Wf n' (A ++ c.bref :: B) ∧
      n'.base = n.base ∧ n'.stats = n.stats ∧ n'.modified = n.modified :=
  @Wf.insert_table n A B h c hc hA hB n.stats n.base (fun _ => False) h.table
    (fun _ => ⟨.inr, fun hb => hb.resolve_left id⟩) (fun _ hb => False.elim hb)
    (by rw [hflag]; exact iff_of_false Bool.false_ne_true fun ⟨_, hb⟩ => hb)

/-- The chain of an entry of the table comes into the tree. -/
theorem Wf.get (h : Wf n view) {e : Bref} (he : e ∈ entries n.base) (hfree : n.held e = false) :
    ∃ n' c, chainGet n e = some (n', c) ∧ c ∈ n'.tree ∧ c.bref = e ∧ Wf n' view ∧
      n'.base = n.base ∧ n'.modified = n.modified := by
  have hev : e ∈ view := h.mem.mpr (.inr ⟨he, hfree⟩)
  have hle := (h.ranged e hev).le
  have hapart : ∀ c ∈ n.tree, c.bref.hi < e.lo ∨ e.hi < c.bref.lo := by
    intro c hc
    refine Decidable.byContradiction fun hover => ?_
    rw [not_or, Nat.not_lt, Nat.not_lt] at hover
    have hone := h.eq_of_overlap hev (h.chain_mem hc) hover.1 hover.2
    rw [hone, held_iff.mpr ⟨c, hc, rfl⟩] at hfree
    cases hfree
  obtain ⟨tree', htree, hmem, hsorted⟩ := @rbInsert_spec ⟨e, ⟨true, false, false⟩⟩ hle n.tree
    h.sorted (fun c hc => (h.ranged _ (h.chain_mem hc)).le) hapart
  refine ⟨{ n with tree := tree' }, ⟨e, ⟨true, false, false⟩⟩, ?_, (hmem _).mpr (.inl rfl), rfl, ?_,
    rfl, rfl⟩
  · unfold chainGet chainInsert
    dsimp only
    rw [htree]
    rfl
  have hheld : ∀ b, Node.held { n with tree := tree' } b = true ↔ b.key = e.key ∨ n.held b = true := by
    intro b
    simp only [held_iff, hmem]
    constructor
    · rintro ⟨c, rfl | hc, heq⟩
      · exact .inl heq.symm
      · exact .inr ⟨c, hc, heq⟩
    · rintro (heq | ⟨c, hc, heq⟩)
      · exact ⟨_, .inl rfl, heq.symm⟩
      · exact ⟨c, .inr hc, heq⟩
  refine .of_mem h.table (fun b => ?_) h.order h.ranged hsorted ?_ ?_ h.count
  · rw [h.mem, mem_live]
    constructor
    · rintro (⟨c, hc, rfl⟩ | ⟨hb, hbfree⟩)
      · exact .inl ⟨c, (hmem c).mpr (.inr hc), rfl⟩
      · by_cases hkey : b.key = e.key
        · obtain rfl := h.eq_of_key (h.mem.mpr (.inr ⟨hb, hbfree⟩)) hev hkey
          exact .inl ⟨_, (hmem _).mpr (.inl rfl), rfl⟩
        · refine .inr ⟨hb, Bool.eq_false_iff.mpr fun hh => ?_⟩
          rcases (hheld b).mp hh with heq | hh
          · exact hkey heq
          · rw [hbfree] at hh
            cases hh
    · rintro (⟨c, hc, rfl⟩ | ⟨hb, hbfree⟩)
      · rcases (hmem c).mp hc with rfl | hc
        · exact .inr ⟨he, hfree⟩
        · exact .inl ⟨c, hc, rfl⟩
      · refine .inr ⟨hb, Bool.eq_false_iff.mpr fun hh => ?_⟩
        rw [(hheld b).mpr (.inr hh)] at hbfree
        cases hbfree
  · intro c hc
    rcases (hmem c).mp hc with rfl | hc
    · exact iff_of_true rfl ⟨e, he, rfl⟩
    · exact h.mapped c hc
  · intro c hc b hb heq
    rcases (hmem c).mp hc with rfl | hc
    · have hone : b.lo = e.lo := congrArg UInt64.toNat heq
      obtain ⟨v, hv, hvkey, hvbits⟩ := h.media hb
      rw [h.eq_of_key hv hev (hvkey.trans heq)] at hvbits
      exact hvbits.symm
    · exact h.same c hc b hb heq

/-- What `hammer2_base_delete` has saved of the entry `e`: its blockref in the table, or none. -/
def Saved (e obref : Bref) : Prop :=
  obref.isEmpty = true ∨ obref.isEmpty = false ∧ obref.key = e.key ∧ obref.keybits = e.keybits

/-- The table without the entry of a chain, if it has one. -/
theorem Wf.delete_base (h : Wf n view) {c : Chain} (hc : c ∈ n.tree) (liveCount : Int)
    (hcount : liveCount = n.liveCount - 1) :
    ∃ stats base c' obref, deleteObref n c = some ({ n with
        stats, base, tree := n.tree.filter fun c' => c'.bref.key ≠ c.bref.key, liveCount }, c', obref) ∧
      c'.bref = c.bref ∧ c'.flags.blkmapped = false ∧ Saved c.bref obref ∧
      base.length = n.base.length ∧ Table stats base ∧
      ∀ b, b ∈ entries base ↔ b ∈ entries n.base ∧ b.key ≠ c.bref.key := by
  subst hcount
  unfold deleteObref
  cases hflag : c.flags.blkmapped with
  | true =>
      obtain ⟨x, hx, hkey⟩ := (h.mapped c hc).mp hflag
      have hbits := h.same c hc x hx hkey
      obtain ⟨k, z, base', A, B, hdel, hold, hnew, hlen, htable⟩ :=
        baseDelete_spec h.table c.flags hx hkey (.inr hbits)
      refine ⟨_, base', { c with flags := ⟨false, false, c.flags.hintLeafCount || hints n.stats x⟩ },
        x, ?_, rfl, rfl, .inr ⟨(mem_entries.mp hx).2, hkey, hbits⟩, hlen, htable, fun b => ?_⟩
      · rw [if_pos rfl]
        dsimp only
        rw [hdel]
        rfl
      · have horder := h.table.order
        rw [hold] at horder
        obtain ⟨-, hcons, hA⟩ := List.pairwise_append.mp horder
        have hB := (List.pairwise_cons.mp hcons).1
        have hxr := h.table.ranges x hx
        rw [hnew, hold, ← hkey]
        constructor
        · intro hb
          refine ⟨?_, fun heq => ?_⟩
          · rcases List.mem_append.mp hb with hb | hb
            · exact List.mem_append_left _ hb
            · exact List.mem_append_right _ (List.mem_cons_of_mem x hb)
          · have hlo : b.lo = x.lo := congrArg UInt64.toNat heq
            rcases List.mem_append.mp hb with hb | hb
            · have hlt := hA b hb x List.mem_cons_self
              have hle := h.table.ranges b (by rw [hold]; exact List.mem_append_left _ hb)
              omega
            · have hlt := hB b hb
              omega
        · rintro ⟨hb, hne⟩
          rcases List.mem_append.mp hb with hb | hb
          · exact List.mem_append_left _ hb
          · rcases List.mem_cons.mp hb with rfl | hb
            · exact absurd rfl hne
            · exact List.mem_append_right _ hb
  | false =>
      refine ⟨n.stats, n.base, c, Bref.zero, by rw [if_neg Bool.false_ne_true], rfl, hflag, .inl rfl,
        rfl, h.table, fun b => (and_iff_left_of_imp fun hb heq => ?_).symm⟩
      have hmapped := (h.mapped c hc).mpr ⟨b, hb, heq⟩
      rw [hflag] at hmapped
      cases hmapped

/-- **A chain is taken out**, with its entry of the table. -/
theorem Wf.delete {c : Chain} (h : Wf n (A ++ c.bref :: B)) (hc : c ∈ n.tree) :
    ∃ n' c' obref, deleteObref n c = some (n', c', obref) ∧ Wf n' (A ++ B) ∧ c'.bref = c.bref ∧
      c'.flags.blkmapped = false ∧ Saved c.bref obref ∧ n'.base.length = n.base.length ∧
      n'.modified = n.modified := by
  obtain ⟨stats, base, c', obref, hdel, hbref, hflag, hsaved, hlen, htable, hbase⟩ :=
    h.delete_base hc _ rfl
  have hmem : ∀ d, (d ∈ n.tree.filter fun d => d.bref.key ≠ c.bref.key) ↔
      d ∈ n.tree ∧ d.bref.key ≠ c.bref.key := fun d => by
    rw [List.mem_filter, decide_eq_true_eq]
  have hless : (A ++ B).Sublist (A ++ c.bref :: B) := (List.sublist_cons_self _ B).append_left A
  -- the other entries are those with another key
  have hother : ∀ b, b ∈ A ++ B ↔ b ∈ A ++ c.bref :: B ∧ b.key ≠ c.bref.key := by
    intro b
    have horder := h.order
    obtain ⟨-, hcons, hA⟩ := List.pairwise_append.mp horder
    have hB := (List.pairwise_cons.mp hcons).1
    have hcle := (h.ranged c.bref (h.chain_mem hc)).le
    constructor
    · intro hb
      refine ⟨hless.subset hb, fun heq => ?_⟩
      have hlo : b.lo = c.bref.lo := congrArg UInt64.toNat heq
      have hle := (h.ranged b (hless.subset hb)).le
      rcases List.mem_append.mp hb with hb | hb
      · have hlt := hA b hb c.bref List.mem_cons_self
        omega
      · have hlt := hB b hb
        omega
    · rintro ⟨hb, hne⟩
      rcases List.mem_append.mp hb with hb | hb
      · exact List.mem_append_left _ hb
      · rcases List.mem_cons.mp hb with rfl | hb
        · exact absurd rfl hne
        · exact List.mem_append_right _ hb
  refine ⟨_, c', obref, hdel, ?_, hbref, hflag, hsaved, hlen, rfl⟩
  refine .of_mem htable (fun b => ?_) (h.order.sublist hless)
    (fun b hb => h.ranged b (hless.subset hb)) (h.sorted.filter _) ?_ ?_ ?_
  · rw [hother, h.mem, mem_live]
    dsimp only
    have hheld : b.key ≠ c.bref.key → (Node.held { n with
        stats, base, tree := n.tree.filter fun d => d.bref.key ≠ c.bref.key,
        liveCount := n.liveCount - 1 } b = false ↔ n.held b = false) := by
      intro hne
      rw [Bool.eq_false_iff, Bool.eq_false_iff, not_iff_not]
      simp only [ne_eq, held_iff, hmem]
      constructor
      · rintro ⟨d, ⟨hd, -⟩, heq⟩
        exact ⟨d, hd, heq⟩
      · rintro ⟨d, hd, heq⟩
        exact ⟨d, ⟨hd, fun hdc => hne (heq.symm.trans hdc)⟩, heq⟩
    constructor
    · rintro ⟨⟨d, hd, rfl⟩ | ⟨hb, hfree⟩, hne⟩
      · exact .inl ⟨d, (hmem d).mpr ⟨hd, hne⟩, rfl⟩
      · exact .inr ⟨(hbase b).mpr ⟨hb, hne⟩, (hheld hne).mpr hfree⟩
    · rintro (⟨d, hd, rfl⟩ | ⟨hb, hfree⟩)
      · obtain ⟨hd, hne⟩ := (hmem d).mp hd
        exact ⟨.inl ⟨d, hd, rfl⟩, hne⟩
      · obtain ⟨hb, hne⟩ := (hbase b).mp hb
        exact ⟨.inr ⟨hb, (hheld hne).mp hfree⟩, hne⟩
  · intro d hd
    obtain ⟨hd, hne⟩ := (hmem d).mp hd
    refine (h.mapped d hd).trans ⟨?_, ?_⟩
    · rintro ⟨b, hb, heq⟩
      exact ⟨b, (hbase b).mpr ⟨hb, fun hbc => hne (heq.symm.trans hbc)⟩, heq⟩
    · rintro ⟨b, hb, heq⟩
      exact ⟨b, ((hbase b).mp hb).1, heq⟩
  · intro d hd b hb heq
    exact h.same d ((hmem d).mp hd).1 b ((hbase b).mp hb).1 heq
  · have hcount := h.count
    rw [List.length_append, List.length_cons] at hcount
    show n.liveCount - 1 = _
    rw [hcount, List.length_append]
    push_cast
    omega

/-- There is a hole in a table that has fewer entries than there are slots. -/
theorem Wf.room (h : Wf n view) (hlen : view.length < n.base.length) :
    ∃ p, Holes.holeAt Bref.isEmpty n.base p = true := by
  -- the keys of the entries of the table are keys of entries
  have hsub : (entries n.base).length ≤ view.length := by
    have hnodup : ((entries n.base).map (·.key)).Nodup := by
      refine List.pairwise_map.mpr (h.table.order.imp_of_mem fun {a b} ha _ hlt heq => ?_)
      have hlo : a.lo = b.lo := congrArg UInt64.toNat heq
      have hle := h.table.ranges a ha
      omega
    have hincl : (entries n.base).map (·.key) ⊆ view.map (·.key) := by
      intro k hk
      obtain ⟨b, hb, rfl⟩ := List.mem_map.mp hk
      obtain ⟨v, hv, hkey, -⟩ := h.media hb
      exact List.mem_map.mpr ⟨v, hv, hkey⟩
    have hle := (hnodup.subperm hincl).length_le
    rwa [List.length_map, List.length_map] at hle
  by_contra hnone
  have hall : entries n.base = n.base := by
    refine List.filter_eq_self.mpr fun b hb => ?_
    obtain ⟨p, hp⟩ := List.mem_iff_getElem?.mp hb
    cases hempty : b.isEmpty with
    | false => rfl
    | true => exact absurd ⟨p, Holes.holeAt_iff.mpr ⟨b, hp, hempty⟩⟩ hnone
  rw [hall] at hsub
  omega

/-- **A chain is put in** behind the entries, with the entry of the table that was saved. -/
theorem Wf.rename {c : Chain} {obref : Bref} (h : Wf (countbrefs n) A) (hc : Ranged c.bref)
    (hflag : c.flags.blkmapped = false) (hsaved : Saved c.bref obref)
    (hA : ∀ a ∈ A, a.hi < c.bref.lo) (hlen : A.length < n.base.length) :
    ∃ n', renameObref n c obref = some n' ∧ Wf n' (A ++ [c.bref]) ∧
      n'.base.length = n.base.length ∧ n'.modified = n.modified := by
  have hbase := countbrefs_base n
  have hmod : (countbrefs n).modified = n.modified := by
    unfold countbrefs
    split <;> rfl
  generalize hn : countbrefs n = m at h hbase hmod
  have hroom : 0 ≤ m.liveCount ∧ m.liveCount < m.base.length := by
    rw [h.count, hbase]
    omega
  unfold renameObref
  rw [hn]
  dsimp only
  rw [if_neg (not_not.mpr hroom)]
  rw [← List.append_nil A] at h
  have hB : ∀ b ∈ ([] : List Bref), c.bref.hi < b.lo := fun b hb => absurd hb List.not_mem_nil
  rcases hsaved with hempty | ⟨hfull, hkey, hbits⟩
  · -- the chain was not in the table
    obtain ⟨n', hins, hwf, hb, -, hm⟩ := h.insert hc hflag hA hB
    refine ⟨n', by rw [if_pos hempty]; exact hins, hwf, ?_, hm.trans hmod⟩
    rw [hb, hbase]
  · obtain ⟨hlo, hhi⟩ := Bref.range_congr hkey hbits
    have hapart : ∀ v ∈ A ++ [], v.hi < c.bref.lo ∨ c.bref.hi < v.lo := by
      rw [List.append_nil]
      exact fun v hv => .inl (hA v hv)
    have htapart : Apart m.base obref := by
      unfold Apart
      rw [hlo, hhi]
      exact h.apart_base hapart
    obtain ⟨stats, base', hins, hmemb, hlen', htable⟩ : ∃ stats base',
        baseInsert m.stats m.base (some c.flags) obref =
          some (stats, base', some { c.flags with blkmapped := true }) ∧
        (∀ b, b ∈ entries base' ↔ b = obref ∨ b ∈ entries m.base) ∧
        base'.length = m.base.length ∧ Table stats base' := by
      obtain ⟨k, z, base', P, Q, hins, hold, hnew, hlen', htable⟩ :=
        baseInsert_spec h.table (some c.flags) hfull (by rw [hlo, hhi]; exact hc.le) htapart
          (h.room (by rw [List.append_nil, hbase]; exact hlen))
      refine ⟨_, base', hins, fun b => ?_, hlen', htable⟩
      rw [hnew, hold, List.mem_append, List.mem_cons, List.mem_append]
      exact or_left_comm
    rw [if_neg (by rw [hfull]; exact Bool.false_ne_true), hflag, if_neg Bool.false_ne_true, hins,
      Option.bind_some]
    dsimp only [Option.map_some, Option.getD_some]
    have hput : ∀ flags : Flags, flags.blkmapped = true → ∃ n', chainInsert { m with
        stats, base := base' } { c with flags } true = some n' ∧ Wf n' (A ++ [c.bref]) ∧
          n'.base.length = n.base.length ∧ n'.modified = n.modified := by
      intro flags hmapped
      obtain ⟨n', hins', hwf, hb, -, hm⟩ := @Wf.insert_table m A [] h { c with flags } hc hA hB stats
        base' (fun b => b = obref) htable hmemb (fun b hb => hb ▸ ⟨hkey, hbits⟩)
        (iff_of_true hmapped ⟨obref, rfl⟩)
      refine ⟨n', hins', hwf, ?_, hm.trans hmod⟩
      rw [hb, hlen', hbase]
    split
    · exact hput _ rfl
    · exact hput _ rfl

theorem Wf.countbrefs_eq (h : Wf n view) : countbrefs n = n := by
  unfold countbrefs
  rw [if_pos h.table.counted]

/-- **An entry is moved** behind those of another chain. -/
theorem Wf.moveOne {ichain : Node} {M : List Bref} {e : Bref} {keyBeg keyEnd : UInt64}
    {chain : Option Chain} (h : Wf n (A ++ e :: B))
    (hfound : Found n (A ++ e :: B) keyBeg keyEnd chain (some e)) (hi : Wf (countbrefs ichain) M)
    (hM : ∀ a ∈ M, a.hi < e.lo) (hlen : M.length < ichain.base.length) :
    ∃ n' ichain', moveOne n ichain chain e = some (n', ichain') ∧ Wf n' (A ++ B) ∧
      Wf ichain' (M ++ [e]) ∧ n'.base.length = n.base.length ∧ n'.modified = n.modified ∧
      ichain'.base.length = ichain.base.length ∧ ichain'.modified = ichain.modified := by
  -- the chain of the entry, from the tree or from the table
  obtain ⟨m, c, hchain, hc, hce, hwf, hbase, hmod⟩ : ∃ m c, (match chain with
      | some chain => some (n, chain)
      | none => chainGet n e) = some (m, c) ∧ c ∈ m.tree ∧ c.bref = e ∧ Wf m (A ++ e :: B) ∧
      m.base = n.base ∧ m.modified = n.modified := by
    cases hfound with
    | @chain c hc _ _ => exact ⟨n, c, rfl, hc, rfl, h, rfl, rfl⟩
    | media he hfree _ _ => exact h.get he hfree
  subst hce
  obtain ⟨n', c', obref, hdel, hwf', hbref, hflag, hsaved, hlen', hmod'⟩ := hwf.delete hc
  have hranged := h.ranged c.bref (List.mem_append_right A List.mem_cons_self)
  rw [← hbref] at hranged hsaved hM
  obtain ⟨i', hren, hiwf, hilen, himod⟩ := hi.rename hranged hflag hsaved hM hlen
  refine ⟨n', i', ?_, hwf', ?_, ?_, hmod'.trans hmod, hilen, himod⟩
  · unfold Merged.moveOne
    rw [hchain, Option.bind_some]
    dsimp only
    rw [hdel, Option.bind_some]
    dsimp only
    rw [hren]
    rfl
  · rwa [hbref] at hiwf
  · rw [hlen', hbase]

end Move

end Hammer2.Chain.Merged
