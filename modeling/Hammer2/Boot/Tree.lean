/-
# `Hammer2.Boot.Tree` — what a tree of blockrefs holds

    leaves       the blockrefs of inodes, data and directory entries under a table
    Table        a well-formed table, with at most `n` levels of indirect blocks under it
    scan_spec    without failures, a scan comes to all leaves in its range, in their order

The leaves of a table have ranges that are apart, so at most one of them holds a key.
-/
import Mathlib.Data.List.Pairwise
import Mathlib.Order.Nat
import Hammer2.Boot.Reader

namespace Hammer2.Boot

/-! ## Ranges -/

/-- Two blockrefs with no key in common. -/
def Apart (a b : Blockref) : Prop := a.hi < b.lo ∨ b.hi < a.lo

instance : Std.Symm Apart := ⟨fun _ _ h => Or.symm h⟩

theorem Apart.within {a b c e : Blockref} (h : Apart a b) (hc : a.lo ≤ c.lo ∧ c.hi ≤ a.hi)
    (he : b.lo ≤ e.lo ∧ e.hi ≤ b.hi) : Apart c e := by
  rcases h with h | h
  · exact .inl (Nat.lt_of_le_of_lt hc.2 (Nat.lt_of_lt_of_le h he.1))
  · exact .inr (Nat.lt_of_le_of_lt he.2 (Nat.lt_of_lt_of_le h hc.1))

theorem meets_iff {br : Blockref} {kbeg kend : Nat} :
    br.meets kbeg kend = true ↔ kbeg ≤ br.hi ∧ br.lo ≤ kend := by
  unfold Blockref.meets
  rw [Bool.not_eq_true', Bool.or_eq_false_iff, decide_eq_false_iff_not, decide_eq_false_iff_not,
    Nat.not_lt, gt_iff_lt, Nat.not_lt]

/-- The range of a blockref is one of keys, and not empty. -/
structure Fits (br : Blockref) : Prop where
  keybits : br.keybits.toNat ≤ 64
  key : br.key + 2 ^ br.keybits.toNat ≤ 2 ^ 64

theorem Fits.hi_eq {br : Blockref} (h : Fits br) :
    br.hi = br.key + 2 ^ br.keybits.toNat - 1 := by
  have hpos : 0 < 2 ^ br.keybits.toNat := Nat.two_pow_pos _
  have hkey := h.key
  unfold Blockref.hi
  split
  · rename_i hge
    have h64 : br.keybits.toNat = 64 := Nat.le_antisymm h.keybits hge
    rw [h64] at hkey ⊢
    omega
  · rw [Nat.mod_eq_of_lt (by omega)]
    omega

theorem Fits.lo_le {br : Blockref} (h : Fits br) : br.lo ≤ br.hi := by
  have hpos : 0 < 2 ^ br.keybits.toNat := Nat.two_pow_pos _
  have hlo : br.lo = br.key := rfl
  rw [h.hi_eq, hlo]
  omega

/-! ## Tables -/

section Table

variable (d : Mem)

/-- The table that an indirect blockref points at. -/
def table (br : Blockref) : List Blockref := blockrefs d br.off (2 ^ br.radix / 128)

/-- The blockrefs that are not of indirect blocks, under a table with at most `n` levels. -/
def leaves : Nat → List Blockref → List Blockref
  | 0, bs => bs.flatMap fun br => if br.type = brefTypeEmpty then [] else [br]
  | n + 1, bs => bs.flatMap fun br =>
      if br.type = brefTypeEmpty then []
      else if br.type = brefTypeIndirect then leaves n (table d br)
      else [br]

structure Flat (bs : List Blockref) : Prop where
  fits : ∀ br ∈ bs, br.type ≠ brefTypeEmpty → Fits br
  apart : bs.Pairwise fun a b => a.type ≠ brefTypeEmpty → b.type ≠ brefTypeEmpty → Apart a b

/-- An indirect block that can be read, with its entries in its range. -/
structure Inner (br : Blockref) : Prop where
  radix : br.radix ≠ 0
  aligned : br.off % 512 = 0
  within : ∀ c ∈ table d br, c.type ≠ brefTypeEmpty → br.lo ≤ c.lo ∧ c.hi ≤ br.hi

def Table : Nat → List Blockref → Prop
  | 0, bs => Flat bs ∧ ∀ br ∈ bs, br.type ≠ brefTypeIndirect
  | n + 1, bs => Flat bs ∧ ∀ br ∈ bs, br.type = brefTypeIndirect →
      Inner d br ∧ Table n (table d br)

end Table

section Leaves

variable {d : Mem} {n : Nat} {bs bs' : List Blockref} {br c : Blockref}

theorem Flat.sublist (h : Flat bs) (hs : bs'.Sublist bs) : Flat bs' :=
  ⟨fun br hbr => h.fits br (hs.subset hbr), h.apart.sublist hs⟩

theorem Table.flat (h : Table d n bs) : Flat bs := by
  cases n with
  | zero => exact h.1
  | succ n => exact h.1

theorem Table.sublist (h : Table d n bs) (hs : bs'.Sublist bs) : Table d n bs' := by
  cases n with
  | zero => exact ⟨h.1.sublist hs, fun br hbr => h.2 br (hs.subset hbr)⟩
  | succ n => exact ⟨h.1.sublist hs, fun br hbr => h.2 br (hs.subset hbr)⟩

theorem leaves_append (d : Mem) (n : Nat) (bs bs' : List Blockref) :
    leaves d n (bs ++ bs') = leaves d n bs ++ leaves d n bs' := by
  cases n with
  | zero => exact List.flatMap_append
  | succ n => exact List.flatMap_append

/-- What is under a blockref is under its table. -/
theorem leaves_subset (hbr : br ∈ bs) : leaves d n [br] ⊆ leaves d n bs := by
  obtain ⟨before, after, rfl⟩ := List.append_of_mem hbr
  intro c hc
  have hsplit : before ++ br :: after = before ++ ([br] ++ after) := rfl
  rw [hsplit, leaves_append, leaves_append]
  exact List.mem_append_right _ (List.mem_append_left _ hc)

theorem leaves_empty (h : br.type = brefTypeEmpty) : leaves d n [br] = [] := by
  cases n with
  | zero => rw [leaves, List.flatMap_singleton, if_pos h]
  | succ n => rw [leaves, List.flatMap_singleton, if_pos h]

theorem leaves_leaf (h : br.type ≠ brefTypeEmpty) (h' : br.type ≠ brefTypeIndirect) :
    leaves d n [br] = [br] := by
  cases n with
  | zero => rw [leaves, List.flatMap_singleton, if_neg h]
  | succ n => rw [leaves, List.flatMap_singleton, if_neg h, if_neg h']

theorem leaves_indirect (h : br.type = brefTypeIndirect) :
    leaves d (n + 1) [br] = leaves d n (table d br) := by
  have hne : br.type ≠ brefTypeEmpty := by
    rw [h]
    decide
  rw [leaves, List.flatMap_singleton, if_neg hne, if_pos h]

/-- A leaf has its place under one blockref of the table. -/
theorem mem_leaves (hc : c ∈ leaves d n bs) : ∃ br ∈ bs, br.type ≠ brefTypeEmpty ∧
    c ∈ leaves d n [br] := by
  induction bs with
  | nil =>
      cases n with
      | zero => cases hc
      | succ n => cases hc
  | cons b bs ih =>
      have hsplit : b :: bs = [b] ++ bs := rfl
      rw [hsplit, leaves_append] at hc
      rcases List.mem_append.mp hc with hc | hc
      · refine ⟨b, List.mem_cons_self, ?_, hc⟩
        intro hempty
        rw [leaves_empty hempty] at hc
        cases hc
      · obtain ⟨br, hbr, hne, hc⟩ := ih hc
        exact ⟨br, List.mem_cons_of_mem b hbr, hne, hc⟩

/-- A leaf is in the range of the blockref above it. -/
theorem Table.within : ∀ {n : Nat} {bs : List Blockref} {br c : Blockref}, Table d n bs → br ∈ bs →
    c ∈ leaves d n [br] → c.type ≠ brefTypeEmpty ∧ c.type ≠ brefTypeIndirect ∧ Fits c ∧
      br.lo ≤ c.lo ∧ c.hi ≤ br.hi
  | n, bs, br, c, h, hbr, hc => by
      rcases eq_or_ne br.type brefTypeEmpty with hempty | hne
      · rw [leaves_empty hempty] at hc
        cases hc
      rcases eq_or_ne br.type brefTypeIndirect with hind | hleaf
      · cases n with
        | zero => exact absurd hind (h.2 br hbr)
        | succ n =>
            obtain ⟨hinner, htable⟩ := h.2 br hbr hind
            rw [leaves_indirect hind] at hc
            obtain ⟨b, hb, hbne, hcb⟩ := mem_leaves hc
            obtain ⟨hce, hci, hfits, hlo, hhi⟩ := Table.within htable hb hcb
            obtain ⟨hblo, hbhi⟩ := hinner.within b hb hbne
            exact ⟨hce, hci, hfits, Nat.le_trans hblo hlo, Nat.le_trans hhi hbhi⟩
      · rw [leaves_leaf hne hleaf] at hc
        obtain rfl := List.mem_singleton.mp hc
        exact ⟨hne, hleaf, h.flat.fits c hbr hne, Nat.le_refl _, Nat.le_refl _⟩

/-- A leaf is a blockref like those of a table. -/
theorem Table.leaf (h : Table d n bs) (hc : c ∈ leaves d n bs) :
    c.type ≠ brefTypeEmpty ∧ c.type ≠ brefTypeIndirect ∧ Fits c := by
  obtain ⟨br, hbr, _, hc⟩ := mem_leaves hc
  obtain ⟨hce, hci, hfits, _⟩ := h.within hbr hc
  exact ⟨hce, hci, hfits⟩

theorem Table.apart_of (h : Table d n bs) (hone : ∀ b ∈ bs, (leaves d n [b]).Pairwise Apart) :
    (leaves d n bs).Pairwise Apart := by
  induction bs with
  | nil =>
      cases n with
      | zero => exact .nil
      | succ n => exact .nil
  | cons b bs ih =>
      have hsplit : b :: bs = [b] ++ bs := rfl
      rw [hsplit, leaves_append]
      have htail := h.sublist (List.sublist_cons_self b bs)
      refine List.pairwise_append.mpr ⟨hone b List.mem_cons_self,
        ih htail fun b' hb' => hone b' (List.mem_cons_of_mem b hb'), fun x hx y hy => ?_⟩
      obtain ⟨b', hb', hb'ne, hy⟩ := mem_leaves hy
      obtain ⟨_, _, _, hywithin⟩ := htail.within hb' hy
      obtain ⟨_, _, _, hxwithin⟩ := h.within List.mem_cons_self hx
      have hbne : b.type ≠ brefTypeEmpty := by
        intro hempty
        rw [leaves_empty hempty] at hx
        cases hx
      have hpair := (List.pairwise_cons.mp h.flat.apart).1 b' hb' hbne hb'ne
      exact hpair.within hxwithin hywithin

/-- **The leaves are apart.** -/
theorem Table.apart : ∀ {n : Nat} {bs : List Blockref}, Table d n bs →
    (leaves d n bs).Pairwise Apart
  | n, bs, h => by
      refine h.apart_of fun b hb => ?_
      rcases eq_or_ne b.type brefTypeEmpty with hempty | hne
      · rw [leaves_empty hempty]
        exact .nil
      rcases eq_or_ne b.type brefTypeIndirect with hind | hleaf
      · cases n with
        | zero => exact absurd hind (h.2 b hb)
        | succ n =>
            rw [leaves_indirect hind]
            exact Table.apart (h.2 b hb hind).2
      · rw [leaves_leaf hne hleaf]
        exact List.pairwise_singleton _ _

/-- At most one leaf holds a key. -/
theorem Table.unique (h : Table d n bs) {k : Nat} (hbr : br ∈ leaves d n bs)
    (hc : c ∈ leaves d n bs) (hbrk : br.lo ≤ k ∧ k ≤ br.hi) (hck : c.lo ≤ k ∧ k ≤ c.hi) : br = c := by
  by_contra hne
  have hpair := h.apart.forall hbr hc hne
  rcases hpair with hlt | hlt
  · exact absurd (Nat.le_trans hck.1 hbrk.2) (Nat.not_le.mpr hlt)
  · exact absurd (Nat.le_trans hbrk.1 hck.2) (Nat.not_le.mpr hlt)

end Leaves

/-! ## The scan -/

section Scan

variable {d : Mem} {env : Env} {ρ : Type} {w w' w'' : World}

/-- At most calls of a scan have been made. -/
structure Scanned (w w' : World) : Prop where
  base : w'.base = w.base
  reads : w'.reads = w.reads
  allocs : w'.allocs = w.allocs

theorem Scanned.refl (w : World) : Scanned w w := ⟨rfl, rfl, rfl⟩

theorem Scanned.trans (h : Scanned w w') (h' : Scanned w' w'') : Scanned w w'' :=
  ⟨h'.base.trans h.base, h'.reads.trans h.reads, h'.allocs.trans h.allocs⟩

/-- No call that a scan makes fails. -/
structure Quiet (env : Env) : Prop where
  read : ∀ k, env.scanRead k = true
  alloc : ∀ k, env.scanAlloc k = true

theorem strategies_scan (h : Quiet env) : ∀ (n : Nat) (w : World),
    ∃ w', strategies env .scan n w = some (true, w') ∧ Scanned w w'
  | 0, w => ⟨w, rfl, Scanned.refl w⟩
  | n + 1, w => by
      obtain ⟨w', hw', hs⟩ := strategies_scan h n { w with scanReads := w.scanReads + 1 }
      have hfirst : Scanned w { w with scanReads := w.scanReads + 1 } := ⟨rfl, rfl, rfl⟩
      refine ⟨w', ?_, hfirst.trans hs⟩
      show (if env.scanRead w.scanReads = true then strategies env .scan n else pure false)
        { w with scanReads := w.scanReads + 1 } = _
      rw [if_pos (h.read _)]
      exact hw'

theorem pread_scan (h : Quiet env) (hw : w.base = 0) (off bytes : Nat) :
    ∃ w', pread d env .scan off bytes w = some (some fun i => d (off / 512 * 512 + i), w') ∧
      Scanned w w' := by
  obtain ⟨w', hw', hs⟩ := strategies_scan h ((bytes + 8191) / 8192) w
  refine ⟨w', ?_, hs⟩
  show (strategies env .scan ((bytes + 8191) / 8192) w).bind _ = _
  rw [hw', Option.bind_some, hw, Nat.zero_add]
  rfl

theorem le_shift (m : Mem) (off : Nat) : ∀ (n i : Nat), le (fun k => m (off + k)) i n = le m (off + i) n
  | 0, _ => rfl
  | n + 1, i => by
      rw [le, le, le_shift m off n (i + 1)]
      rfl

theorem bytesAt_shift (m : Mem) (off i n : Nat) :
    bytesAt (fun k => m (off + k)) i n = bytesAt m (off + i) n := by
  refine List.map_congr_left fun k _ => ?_
  rw [Nat.add_assoc]

theorem blockrefAt_shift (m : Mem) (off i : Nat) :
    blockrefAt (fun k => m (off + k)) i = blockrefAt m (off + i) := by
  simp only [blockrefAt, le_shift, bytesAt_shift, Nat.add_assoc]

theorem blockrefs_shift (m : Mem) (off i n : Nat) :
    blockrefs (fun k => m (off + k)) i n = blockrefs m (off + i) n := by
  refine List.map_congr_left fun k _ => ?_
  rw [blockrefAt_shift, Nat.add_assoc]

theorem blockrefs_add (m : Mem) (i a b : Nat) :
    blockrefs m i (a + b) = blockrefs m i a ++ blockrefs m (i + 128 * a) b := by
  unfold blockrefs
  rw [List.range_add, List.map_append, List.map_map]
  congr 1
  refine List.map_congr_left fun k _ => ?_
  rw [Function.comp_apply, Nat.mul_add, Nat.add_assoc]

/-- The first thing that is found among the leaves in a range. -/
def search (f : Blockref → Option ρ) (kbeg kend : Nat) (l : List Blockref) : Option ρ :=
  (l.filter (·.meets kbeg kend)).findSome? f

def rcOf : Option ρ → Rc ρ
  | none => .ok
  | some r => .stop r

variable {cb : Blockref → M (Option ρ)} {kbeg kend : Nat} {f : Blockref → Option ρ}

theorem search_append (l l' : List Blockref) :
    search f kbeg kend (l ++ l') = (search f kbeg kend l).or (search f kbeg kend l') := by
  rw [search, List.filter_append, List.findSome?_append]
  rfl

/-- A callback that finds what `f` says, and makes at most calls of a scan. -/
def Finds (cb : Blockref → M (Option ρ)) (f : Blockref → Option ρ) (br : Blockref) : Prop :=
  ∀ w : World, w.base = 0 → ∃ w', cb br w = some (f br, w') ∧ Scanned w w'

/-- A search that comes to the leaves of the table in their order. -/
def Searches (d : Mem) (f : Blockref → Option ρ) (kbeg kend n : Nat) (bs : List Blockref)
    (m : M (Rc ρ)) : Prop :=
  ∀ w : World, w.base = 0 →
    ∃ w', m w = some (rcOf (search f kbeg kend (leaves d n bs)), w') ∧ Scanned w w'

/-- One part of a search after the other. -/
theorem Searches.append {n : Nat} {bs bs' : List Blockref} {m m' : M (Rc ρ)}
    (h : Searches d f kbeg kend n bs m) (h' : Searches d f kbeg kend n bs' m') :
    Searches d f kbeg kend n (bs ++ bs') (do
      match ← m with
      | .ok => m'
      | rc => pure rc) := by
  intro w hw
  obtain ⟨u, hu, hs⟩ := h w hw
  rw [leaves_append, search_append]
  show ∃ w', (m w).bind _ = _ ∧ _
  rw [hu, Option.bind_some]
  cases search f kbeg kend (leaves d n bs) with
  | some r => exact ⟨u, rfl, hs⟩
  | none =>
      obtain ⟨v, hv, hs'⟩ := h' u (hs.base.trans hw)
      exact ⟨v, hv, hs.trans hs'⟩

theorem scanList_spec {n : Nat} {node : Blockref → M (Rc ρ)} : ∀ {bs : List Blockref},
    (∀ br ∈ bs, br.type ≠ brefTypeEmpty → br.meets kbeg kend = true →
      Searches d f kbeg kend n [br] (node br)) →
    (∀ br ∈ bs, br.type ≠ brefTypeEmpty → br.meets kbeg kend = false →
      search f kbeg kend (leaves d n [br]) = none) →
    Searches d f kbeg kend n bs (scanList kbeg kend node bs)
  | [], _, _ => by
      intro w _
      refine ⟨w, ?_, Scanned.refl w⟩
      cases n with
      | zero => rfl
      | succ n => rfl
  | br :: bs, hnode, hskip => by
      have hrest := scanList_spec (fun b hb => hnode b (List.mem_cons_of_mem br hb))
        fun b hb => hskip b (List.mem_cons_of_mem br hb)
      have hnone : search f kbeg kend (leaves d n [br]) = none →
          Searches d f kbeg kend n (br :: bs) (scanList kbeg kend node bs) := by
        intro hn w hw
        have hsplit : br :: bs = [br] ++ bs := rfl
        rw [hsplit, leaves_append, search_append, hn, Option.none_or]
        exact hrest w hw
      unfold scanList
      split
      · rename_i hempty
        refine hnone ?_
        rw [leaves_empty hempty]
        rfl
      · rename_i hne
        cases hmeets : br.meets kbeg kend with
        | false =>
            rw [Bool.not_false, if_pos rfl]
            exact hnone (hskip br List.mem_cons_self hne hmeets)
        | true =>
            rw [Bool.not_true, if_neg Bool.false_ne_true]
            exact (hnode br List.mem_cons_self hne hmeets).append hrest

theorem scanLeaf_spec {n : Nat} {br : Blockref} (hne : br.type ≠ brefTypeEmpty)
    (hleaf : br.type ≠ brefTypeIndirect) (hmeets : br.meets kbeg kend = true)
    (hcb : Finds cb f br) : Searches d f kbeg kend n [br] (scanLeaf cb br) := by
  intro w hw
  obtain ⟨u, hu, hs⟩ := hcb w hw
  refine ⟨u, ?_, hs⟩
  have hfilter : [br].filter (·.meets kbeg kend) = [br] :=
    List.filter_eq_self.mpr fun b hb => by rwa [List.mem_singleton.mp hb]
  rw [leaves_leaf hne hleaf, search, hfilter]
  show (cb br w).bind _ = _
  rw [hu, Option.bind_some, List.findSome?_cons]
  cases f br with
  | none => rfl
  | some r => rfl

/-- The pieces of an indirect block. -/
theorem scanChunks_spec (h : Quiet env) {n ioff isz : Nat} (haligned : ioff % 512 = 0)
    {sub : List Blockref → M (Rc ρ)} : ∀ (k coff : Nat), k = (isz - coff + 8191) / 8192 →
    coff % 8192 = 0 →
    (∀ l, l.Sublist (blockrefs d (ioff + coff) ((isz - coff) / 128)) →
      Searches d f kbeg kend n l (sub l)) →
    Searches d f kbeg kend n (blockrefs d (ioff + coff) ((isz - coff) / 128))
      (scanChunks d env sub ioff isz k coff)
  | 0, coff, hk, _, _ => by
      intro w _
      have hnil : (isz - coff) / 128 = 0 := by omega
      rw [hnil]
      refine ⟨w, ?_, Scanned.refl w⟩
      cases n with
      | zero => rfl
      | succ n => rfl
  | k + 1, coff, hk, hcoff, hsub => by
      have hsplit : (isz - coff) / 128 =
          min (isz - coff) 8192 / 128 + (isz - (coff + 8192)) / 128 := by omega
      have hblocks : blockrefs d (ioff + coff) ((isz - coff) / 128) =
          blockrefs d (ioff + coff) (min (isz - coff) 8192 / 128) ++
            blockrefs d (ioff + (coff + 8192)) ((isz - (coff + 8192)) / 128) := by
        rw [hsplit, blockrefs_add]
        congr 1
        rcases Nat.lt_or_ge (isz - coff) 8192 with hlt | hge
        · have hzero : (isz - (coff + 8192)) / 128 = 0 := by omega
          rw [hzero]
          rfl
        · rw [Nat.min_eq_right hge, Nat.add_assoc]
      rw [hblocks] at hsub ⊢
      have hrest := scanChunks_spec h haligned k (coff + 8192) (by omega)
        (by omega) fun l hl => hsub l (hl.trans (List.sublist_append_right _ _))
      have hone := hsub _ (List.sublist_append_left _ _)
      intro w hw
      obtain ⟨u, hu, hs⟩ := @pread_scan d env w h hw (ioff + coff) (min (isz - coff) 8192)
      have hdiv : (ioff + coff) / 512 * 512 = ioff + coff := by omega
      obtain ⟨v, hv, hs'⟩ := hone.append hrest u (hs.base.trans hw)
      refine ⟨v, ?_, hs.trans hs'⟩
      show (pread d env .scan (ioff + coff) (min (isz - coff) 8192) w).bind _ = _
      rw [hu, Option.bind_some, hdiv]
      dsimp only
      rw [blockrefs_shift]
      exact hv

theorem scanIndirect_spec (h : Quiet env) {n : Nat} {br : Blockref}
    (hind : br.type = brefTypeIndirect) (hinner : Inner d br) {sub : List Blockref → M (Rc ρ)}
    (hsub : ∀ l, l.Sublist (table d br) → Searches d f kbeg kend n l (sub l)) :
    Searches d f kbeg kend (n + 1) [br] (scanIndirect d env sub br) := by
  intro w hw
  have hchunks := scanChunks_spec h hinner.aligned ((2 ^ br.radix + 8191) / 8192) 0 rfl rfl hsub
  have hfirst : Scanned w { w with scanAllocs := w.scanAllocs + 1 } := ⟨rfl, rfl, rfl⟩
  obtain ⟨v, hv, hs⟩ := hchunks { w with scanAllocs := w.scanAllocs + 1 } hw
  refine ⟨v, ?_, hfirst.trans hs⟩
  rw [scanIndirect, if_neg hinner.radix, leaves_indirect hind]
  show (if env.scanAlloc w.scanAllocs = true then
      scanChunks d env sub br.off (2 ^ br.radix) ((2 ^ br.radix + 8191) / 8192) 0
    else pure (.err .enomem)) { w with scanAllocs := w.scanAllocs + 1 } = _
  rw [if_pos (h.alloc _)]
  exact hv

/-- What is not in the range of a blockref is not under it. -/
theorem Table.skip {n : Nat} {bs : List Blockref} {br : Blockref} (h : Table d n bs) (hbr : br ∈ bs)
    (hmeets : br.meets kbeg kend = false) : search f kbeg kend (leaves d n [br]) = none := by
  have hnil : (leaves d n [br]).filter (·.meets kbeg kend) = [] := by
    refine List.filter_eq_nil_iff.mpr fun c hc hcm => ?_
    obtain ⟨_, _, _, hlo, hhi⟩ := h.within hbr hc
    obtain ⟨hbeg, hend⟩ := meets_iff.mp hcm
    rw [meets_iff.mpr ⟨Nat.le_trans hbeg hhi, Nat.le_trans hlo hend⟩] at hmeets
    cases hmeets
  rw [search, hnil]
  rfl

/-- **The scan.**  Without failures it comes to the leaves in its range, in their order. -/
theorem scan_spec (h : Quiet env) : ∀ {n depth : Nat} {bs : List Blockref}, n ≤ depth →
    Table d n bs → (∀ c ∈ leaves d n bs, c.meets kbeg kend = true → Finds cb f c) →
    Searches d f kbeg kend n bs (scan d env cb kbeg kend depth bs)
  | n, depth, bs, hle, htable, hcb => by
      have hskip : ∀ br ∈ bs, br.type ≠ brefTypeEmpty → br.meets kbeg kend = false →
          search f kbeg kend (leaves d n [br]) = none :=
        fun br hbr _ hmeets => htable.skip hbr hmeets
      have hleafs : ∀ br ∈ bs, br.type ≠ brefTypeEmpty → br.meets kbeg kend = true →
          br.type ≠ brefTypeIndirect → Searches d f kbeg kend n [br] (scanLeaf cb br) := by
        intro br hbr hne hmeets hleaf
        refine scanLeaf_spec hne hleaf hmeets (hcb br (leaves_subset hbr ?_) hmeets)
        rw [leaves_leaf hne hleaf]
        exact List.mem_singleton_self br
      cases depth with
      | zero =>
          obtain rfl := Nat.le_zero.mp hle
          refine scanList_spec (fun br hbr hne hmeets => ?_) hskip
          rw [if_neg (htable.2 br hbr)]
          exact hleafs br hbr hne hmeets (htable.2 br hbr)
      | succ depth =>
          refine scanList_spec (fun br hbr hne hmeets => ?_) hskip
          rcases eq_or_ne br.type brefTypeIndirect with hind | hleaf
          · rw [if_pos hind]
            cases n with
            | zero => exact absurd hind (htable.2 br hbr)
            | succ n =>
                obtain ⟨hinner, hsub⟩ := htable.2 br hbr hind
                refine scanIndirect_spec h hind hinner fun l hl => ?_
                refine scan_spec h (Nat.le_of_succ_le_succ hle) (hsub.sublist hl) fun c hc => ?_
                refine hcb c (leaves_subset hbr ?_)
                rw [leaves_indirect hind]
                obtain ⟨b, hb, _, hcb'⟩ := mem_leaves hc
                exact leaves_subset (hl.subset hb) hcb'
          · rw [if_neg hleaf]
            exact hleafs br hbr hne hmeets hleaf

/-- What the callers of a scan make of it. -/
theorem found_spec (h : Quiet env) {n depth : Nat} {bs : List Blockref} (hle : n ≤ depth)
    (htable : Table d n bs)
    (hcb : ∀ c ∈ leaves d n bs, c.meets kbeg kend = true → Finds cb f c) (hw : w.base = 0) :
    ∃ w', found d env cb kbeg kend depth bs w =
      some (search f kbeg kend (leaves d n bs), w') ∧ Scanned w w' := by
  obtain ⟨w', hw', hs⟩ := scan_spec h hle htable hcb w hw
  refine ⟨w', ?_, hs⟩
  show (scan d env cb kbeg kend depth bs w).bind _ = _
  rw [hw', Option.bind_some]
  cases search f kbeg kend (leaves d n bs) with
  | none => rfl
  | some r => rfl

/-- What a search has found, and where. -/
theorem search_some {l : List Blockref} {r : ρ} (h : search f kbeg kend l = some r) :
    ∃ br ∈ l, br.meets kbeg kend = true ∧ f br = some r := by
  obtain ⟨br, hbr, hf⟩ := List.exists_of_findSome?_eq_some h
  obtain ⟨hbr, hmeets⟩ := List.mem_filter.mp hbr
  exact ⟨br, hbr, hmeets, hf⟩

theorem search_none {l : List Blockref} (h : search f kbeg kend l = none) :
    ∀ br ∈ l, br.meets kbeg kend = true → f br = none :=
  fun br hbr hmeets => List.findSome?_eq_none_iff.mp h br (List.mem_filter.mpr ⟨hbr, hmeets⟩)

end Scan

end Hammer2.Boot
