/-
# `Hammer2.Chain.Split` — a full block table is split

`hammer2_chain_create_indirect` makes room in a full block table: the entries of a range of keys
go to a new indirect block, which takes one place.

    createIndirect   the function
    lookup           the leaf of a key
    Splits           what a split has to be
    split_iff        it is one unless the range of a file has 64 bits or more

`indkeyFile` adds the radix of the new block to the bits of the smallest entries; the limit of 63
bits is put on the radix and not on the sum.
-/
import Hammer2.Chain.Indkey

namespace Hammer2.Chain.Split

open Table Merged Indkey KeyRange

/-- The chain of a table. -/
inductive Kind
  | inode (directory : Bool)
  | volume
  | freemap
  | indirect
  | freemapNode
deriving DecidableEq

def isFreemap (forType : BrefType) : Bool := forType = .freemapNode ∨ forType = .freemapLeaf

/-- `nbytes`, for a table of `count` blockrefs. -/
def indBytes (kind : Kind) (forType : BrefType) (count : Nat) : Option Nat :=
  let nbytes := if isFreemap forType then 32768 else if kind = .inode true then 4096 else 16384
  if nbytes < count * 128 then if isFreemap forType then none else some (count * 128)
  else some nbytes

/-- The choice of the range. -/
def indkey (parent : Node) (forType : BrefType) (key : UInt64) (keybits ncount : Nat) :
    Option (Node × UInt64 × Nat) :=
  match forType with
  | .freemapNode | .freemapLeaf => indkeyFreemap parent key
  | .data => indkeyFile parent key ncount
  | .dirent | .inode => indkeyDir parent key keybits ncount
  | _ => none

/-- The loop that moves the entries of the range, at most so many times. -/
def moveLoop (key : UInt64) (keybits : Nat) : Nat → Node → Node → UInt64 → Option (Node × Node)
  | 0, _, _, _ => none
  | loops + 1, parent, ichain, keyBeg =>
      (combinedFind parent keyBeg keyMax).bind fun (parent, chain, bref, _) =>
        match bref with
        | none => some (parent, ichain)
        | some b =>
            let keyNext := b.key + b.range
            (if roundDown (key ^^^ b.key) (bit keybits) ≠ 0 then some (parent, ichain)
              else moveOne parent ichain chain b).bind fun (parent, ichain) =>
                if keyNext = 0 then some (parent, ichain)
                else moveLoop key keybits loops parent ichain keyNext

/-- An error, or the new indirect block: its blockref, its chain, and whether the key is in its
range. -/
inductive Outcome
  | error (parent : Node)
  | done (parent : Node) (bref : Bref) (ichain : Node) (inside : Bool)

/-- A new indirect block. -/
def freshChain (ncount : Nat) : Node :=
  ⟨⟨false, 0, 0, 0, 0, 0⟩, List.replicate ncount Bref.zero, [], 0, true⟩

/-- `hammer2_chain_create_indirect`.  `perr` is the error of `hammer2_chain_modify` of the parent,
`ialloc` that of the new chain, or the block that was allocated and what else its blockref has. -/
def createIndirect (kind : Kind) (parent : Node) (createKey : UInt64) (createBits : Nat)
    (forType : BrefType) (perr : Option Nat) (ialloc : Except Nat (UInt64 × Nat)) :
    Option Outcome :=
  if perr.isSome then some (.error parent)
  else
    let parent := { parent with modified := true }
    (indBytes kind forType parent.base.length).bind fun nbytes =>
      let ncount := nbytes / 128
      (indkey parent forType createKey createBits ncount).bind fun (parent, key, keybits) =>
        let key := roundDown key (bit keybits)
        match ialloc with
        | .error _ => some (.error parent)
        | .ok (dataOff, rest) =>
            let bref : Bref := { Bref.zero with
              type := if isFreemap forType then .freemapNode else .indirect
              keybits := UInt8.ofNat keybits, key, dataOff, rest }
            (moveLoop key keybits 100000 parent (freshChain ncount) 0).bind fun (parent, ichain) =>
              if ¬ parent.liveCount < parent.base.length then none
              else
                (chainInsert parent ⟨bref, ⟨false, false, false⟩⟩ true).map fun parent =>
                  .done parent bref ichain (roundDown (createKey ^^^ key) (bit keybits) = 0)

/-! ## Looking up a key -/

/-- A blockref of an indirect block. -/
def isIndirect (b : Bref) : Bool := b.type = .indirect ∨ b.type = .freemapNode

/-- `hammer2_chain_lookup` of one key from a chain on: the leaf, if there is one; `below` is the
lookup from the indirect blocks on. -/
def lookup (below : Bref → UInt64 → Option (Option Bref)) (n : Node) (k : UInt64) :
    Option (Option Bref) :=
  (combinedFind (countbrefs n) k k).bind fun (_, _, bref, _) =>
    match bref with
    | none => some none
    | some b => if isIndirect b then below b k else some (some b)

/-- The lookups from the indirect blocks on, with a new one. -/
def through (bref : Bref) (ichain : Node) (below : Bref → UInt64 → Option (Option Bref)) :
    Bref → UInt64 → Option (Option Bref) :=
  fun b k => if b = bref then lookup below ichain k else below b k

/-- **A split.**  The new indirect block has an aligned range of keys; the entries that went there
are in it, and there are some; those that stayed are apart from it; and no lookup has changed. -/
structure Splits (parent : Node) (view : List Bref) (parent' : Node) (bref : Bref) (ichain : Node)
    (left moved : List Bref) : Prop where
  range : Ranged bref
  all : view.Perm (moved ++ left)
  there : Wf (countbrefs ichain) moved
  here : ∃ view', view'.Perm (bref :: left) ∧ Wf parent' view'
  inside : ∀ v ∈ moved, bref.lo ≤ v.lo ∧ v.hi ≤ bref.hi
  apart : ∀ v ∈ left, v.hi < bref.lo ∨ bref.hi < v.lo
  freed : left.length < parent.base.length
  lookups : ∀ below k, lookup (through bref ichain below) parent' k = lookup below parent k

/-- The table, the chains and the lookups are as before. -/
structure Unchanged (parent parent' : Node) : Prop where
  base : parent'.base = parent.base
  tree : parent'.tree = parent.tree
  count : parent'.liveCount = parent.liveCount
  lookups : ∀ below k, lookup below parent' k = lookup below parent k

/-- What a call has to do. -/
def Correct (parent : Node) (view : List Bref) : Option Outcome → Prop
  | none => False
  | some (.error parent') => Unchanged parent parent'
  | some (.done parent' bref ichain _) =>
      ∃ left moved, Splits parent view parent' bref ichain left moved

/-! ## The loop -/

section Loop

variable {parent ichain : Node} {view A B M : List Bref} {key : UInt64} {keybits : Nat}

/-- The entry begins in the range. -/
def within (key : UInt64) (keybits : Nat) (b : Bref) : Bool := decide (Same keybits key.toNat b.lo)

/-- **The loop** moves the entries of the range. -/
theorem moveLoop_spec (hk : keybits < 64) : ∀ {B A M : List Bref} {loops : Nat}
    {parent ichain : Node} {keyBeg : UInt64}, Wf parent (A ++ B) → Wf (countbrefs ichain) M →
    B.length < loops → (∀ a ∈ A, a.hi < keyBeg.toNat) → (∀ b ∈ B, keyBeg.toNat ≤ b.lo) →
    (∀ m ∈ M, m.hi < keyBeg.toNat) → M.length + B.length ≤ ichain.base.length →
    ∃ parent' ichain', moveLoop key keybits loops parent ichain keyBeg = some (parent', ichain') ∧
      Wf parent' (A ++ B.filter fun b => !within key keybits b) ∧
      Wf (countbrefs ichain') (M ++ B.filter (within key keybits)) ∧
      parent'.base.length = parent.base.length ∧ ichain'.base.length = ichain.base.length
  | B, A, M, 0, _, _, _, _, _, hloops, _, _, _, _ => absurd hloops (Nat.not_lt_zero _)
  | B, A, M, loops + 1, parent, ichain, keyBeg, h, hi, hloops, hA, hB, hM, hlen => by
      obtain ⟨c, chain, bref, kn, hfind, hfound⟩ := combinedFind_spec h keyBeg keyMax
      unfold moveLoop
      rw [hfind, Option.bind_some]
      dsimp only
      rcases hfound.step h rfl hA hB with ⟨rfl, rfl⟩ | ⟨e, B, rfl, rfl⟩
      · exact ⟨_, ichain, rfl, h.cache c, by rwa [List.filter_nil, List.append_nil], rfl, rfl⟩
      · dsimp only
        obtain ⟨hlast, hrest⟩ := h.behind rfl
        have hMe : ∀ m ∈ M, m.hi < e.lo := fun m hm =>
          Nat.lt_of_lt_of_le (hM m hm) (hB e List.mem_cons_self)
        rw [List.length_cons] at hlen hloops
        have hround : roundDown (key ^^^ e.key) (bit keybits) = 0 ↔ within key keybits e = true := by
          unfold within
          rw [roundDown_xor hk, decide_eq_true_iff]
          rfl
        cases hin : within key keybits e with
        | false =>
            -- the entry stays
            have hstay : roundDown (key ^^^ e.key) (bit keybits) ≠ 0 := by
              rw [hin] at hround
              exact fun hz => Bool.false_ne_true (hround.mp hz)
            rw [if_pos hstay, Option.bind_some]
            dsimp only
            have hfilter : (e :: B).filter (fun b => !within key keybits b) =
                e :: B.filter fun b => !within key keybits b :=
              List.filter_cons_of_pos (by rw [hin]; rfl)
            rw [hfilter, List.filter_cons_of_neg (by rw [hin]; exact Bool.false_ne_true)]
            by_cases hz : e.key + e.range = 0
            · obtain rfl := hlast hz
              rw [if_pos hz, List.filter_nil, List.filter_nil, List.append_nil]
              exact ⟨_, ichain, rfl, h.cache c, hi, rfl, rfl⟩
            · obtain ⟨hA', hB'⟩ := hrest hz
              rw [if_neg hz]
              have hM' : ∀ m ∈ M, m.hi < (e.key + e.range).toNat := fun m hm =>
                Nat.lt_trans (Nat.lt_of_lt_of_le (hMe m hm) (h.ranged e
                  (List.mem_append_right A List.mem_cons_self)).le)
                  (hA' e (List.mem_append_right A List.mem_cons_self))
              have hwf : Wf (parent.cache c) ((A ++ [e]) ++ B) := by
                rw [List.append_assoc]
                exact h.cache c
              obtain ⟨p', i', hloop, hp', hi', hb'⟩ := moveLoop_spec hk hwf hi
                (Nat.lt_of_succ_lt_succ hloops) hA' hB' hM' (by omega)
              refine ⟨p', i', hloop, ?_, hi', hb'⟩
              rwa [List.append_assoc] at hp'
        | true =>
            -- the entry is moved
            have hmove : ¬ roundDown (key ^^^ e.key) (bit keybits) ≠ 0 :=
              not_not.mpr (hround.mpr hin)
            obtain ⟨p, i, hone, hp, hinew, hplen, -, hilen, -⟩ :=
              (h.cache c).moveOne (hfound.cache c) hi hMe (by omega)
            rw [if_neg hmove, hone, Option.bind_some]
            dsimp only
            rw [List.filter_cons_of_neg (by rw [hin]; exact Bool.false_ne_true),
              List.filter_cons_of_pos hin]
            by_cases hz : e.key + e.range = 0
            · obtain rfl := hlast hz
              rw [if_pos hz, List.filter_nil, List.filter_nil]
              refine ⟨p, i, rfl, hp, ?_, hplen, hilen⟩
              rwa [hinew.countbrefs_eq]
            · obtain ⟨hA', hB'⟩ := hrest hz
              rw [if_neg hz]
              have hM' : ∀ m ∈ M ++ [e], m.hi < (e.key + e.range).toNat := by
                intro m hm
                have he := hA' e (List.mem_append_right A List.mem_cons_self)
                rcases List.mem_append.mp hm with hm | hm
                · exact Nat.lt_trans (Nat.lt_of_lt_of_le (hMe m hm) (h.ranged e
                    (List.mem_append_right A List.mem_cons_self)).le) he
                · obtain rfl := List.mem_singleton.mp hm
                  exact he
              obtain ⟨p', i', hloop, hp', hi', hb', hib'⟩ := moveLoop_spec hk hp
                (by rwa [hinew.countbrefs_eq]) (Nat.lt_of_succ_lt_succ hloops)
                (fun a ha => hA' a (List.mem_append_left _ ha)) hB' hM'
                (by rw [List.length_append, hilen]; simp only [List.length_singleton]; omega)
              refine ⟨p', i', hloop, hp', ?_, hb'.trans hplen, hib'.trans hilen⟩
              rwa [List.append_assoc] at hi'

end Loop

/-! ## Lookups -/

section Lookup

variable {n : Node} {view : List Bref} {below : Bref → UInt64 → Option (Option Bref)} {k : UInt64}

/-- What is looked up in an entry. -/
theorem lookup_in (h : Wf (countbrefs n) view) {e : Bref} (he : e ∈ view) (hlo : e.lo ≤ k.toNat)
    (hhi : k.toNat ≤ e.hi) :
    lookup below n k = if isIndirect e then below e k else some (some e) := by
  obtain ⟨c, chain, bref, kn, hfind, hfound⟩ := combinedFind_spec h k k
  -- the nearest entry that has the key is the entry
  have hone : ∀ b, b.lo ≤ k.toNat → Nearest view k.toNat b → b = e := fun b hb hnear =>
    h.eq_of_overlap hnear.mem he (Nat.le_trans hb hhi) (Nat.le_trans hlo hnear.reach)
  have hbref : bref = some e := by
    cases hfound with
    | exhausted hall => exact absurd hlo (Nat.not_le_of_lt (hall e he hhi))
    | chain _ hle hnear => rw [hone _ hle hnear]
    | media _ _ hle hnear => rw [hone _ hle hnear]
  unfold lookup
  rw [hfind, Option.bind_some, hbref]

theorem lookup_out (h : Wf (countbrefs n) view)
    (hout : ∀ v ∈ view, k.toNat < v.lo ∨ v.hi < k.toNat) : lookup below n k = some none := by
  obtain ⟨c, chain, bref, kn, hfind, hfound⟩ := combinedFind_spec h k k
  have hfar : ∀ b, b.lo ≤ k.toNat → ¬ Nearest view k.toNat b := by
    intro b hb hnear
    have hreach := hnear.reach
    rcases hout b hnear.mem with hlt | hlt
    · omega
    · omega
  have hbref : bref = none := by
    cases hfound with
    | exhausted _ => rfl
    | chain _ hle hnear => exact absurd hnear (hfar _ hle)
    | media _ _ hle hnear => exact absurd hnear (hfar _ hle)
  unfold lookup
  rw [hfind, Option.bind_some, hbref]

/-- Lookups are a matter of the entries. -/
theorem lookup_congr {n' : Node} (h : Wf (countbrefs n) view) (h' : Wf (countbrefs n') view) :
    lookup below n' k = lookup below n k := by
  by_cases hin : ∃ e ∈ view, e.lo ≤ k.toNat ∧ k.toNat ≤ e.hi
  · obtain ⟨e, he, hlo, hhi⟩ := hin
    rw [lookup_in h he hlo hhi, lookup_in h' he hlo hhi]
  · have hout : ∀ v ∈ view, k.toNat < v.lo ∨ v.hi < k.toNat := by
      intro v hv
      by_contra hboth
      rw [not_or, Nat.not_lt, Nat.not_lt] at hboth
      exact hin ⟨v, hv, hboth⟩
    rw [lookup_out h hout, lookup_out h' hout]

end Lookup

/-! ## The split -/

section Split

variable {parent : Node} {view : List Bref} {key : UInt64} {keybits : Nat}

/-- An entry that begins in the range is in it, any other one is apart from it. -/
theorem Chosen.sides (h : Wf parent view) (hc : Chosen view key keybits)
    (halign : 2 ^ keybits ∣ key.toNat) {v : Bref} (hv : v ∈ view) :
    (within key keybits v = true ∧ key.toNat ≤ v.lo ∧ v.hi ≤ key.toNat + (2 ^ keybits - 1)) ∨
      (within key keybits v = false ∧
        (v.hi < key.toNat ∨ key.toNat + (2 ^ keybits - 1) < v.lo)) := by
  have hr := h.ranged v hv
  have hhi := hr.hi_eq
  have hpos : 0 < 2 ^ keybits := Nat.two_pow_pos keybits
  have hvpos : 0 < 2 ^ v.keybits.toNat := Nat.two_pow_pos _
  unfold within
  rcases Nat.lt_or_ge keybits v.keybits.toNat with hgt | hle
  rotate_left
  · rcases nested hr.aligned halign hle with ⟨hin, hlo, hup⟩ | ⟨hout, hapart⟩
    · exact .inl ⟨decide_eq_true hin, hlo, by omega⟩
    · refine .inr ⟨decide_eq_false hout, ?_⟩
      rcases hapart with hlt | hlt
      · exact .inl (by omega)
      · exact .inr (by omega)
  · rcases nested halign hr.aligned (Nat.le_of_lt hgt) with ⟨-, hlo, hup⟩ | ⟨-, hapart⟩
    · -- the range would be in a larger entry, and so would the entry that it has
      obtain ⟨e, he, hbits, hsame⟩ := hc.some
      have hmem := (same_iff halign).mp hsame
      have hle := (h.ranged e he).le
      have hone := h.eq_of_overlap he hv (by omega) (by omega)
      rw [hone] at hbits
      omega
    · have hout : ¬ Same keybits key.toNat v.lo := by
        intro hin
        have hmem := (same_iff halign).mp hin
        rcases hapart with hlt | hlt
        · omega
        · omega
      refine .inr ⟨decide_eq_false hout, ?_⟩
      rcases hapart with hlt | hlt
      · exact .inr (by omega)
      · exact .inl (by omega)

/-- The place of a range among entries apart from it. -/
theorem place {lo hi : Nat} : ∀ {l : List Bref}, l.Pairwise (fun a b => a.hi < b.lo) →
    (∀ v ∈ l, v.lo ≤ v.hi) → lo ≤ hi → (∀ v ∈ l, v.hi < lo ∨ hi < v.lo) →
    ∃ A B, l = A ++ B ∧ (∀ a ∈ A, a.hi < lo) ∧ ∀ b ∈ B, hi < b.lo
  | [], _, _, _, _ => ⟨[], [], rfl, fun a ha => absurd ha List.not_mem_nil,
      fun b hb => absurd hb List.not_mem_nil⟩
  | v :: l, hpair, hle, hr, hall => by
      obtain ⟨hv, hl⟩ := List.pairwise_cons.mp hpair
      rcases hall v List.mem_cons_self with hlt | hlt
      · obtain ⟨A, B, rfl, hA, hB⟩ := place hl (fun w hw => hle w (List.mem_cons_of_mem v hw)) hr
          fun w hw => hall w (List.mem_cons_of_mem v hw)
        refine ⟨v :: A, B, rfl, fun a ha => ?_, hB⟩
        rcases List.mem_cons.mp ha with rfl | ha
        · exact hlt
        · exact hA a ha
      · refine ⟨[], v :: l, rfl, fun a ha => absurd ha List.not_mem_nil, fun b hb => ?_⟩
        rcases List.mem_cons.mp hb with rfl | hb
        · exact hlt
        · have hvle := hle v List.mem_cons_self
          have hlater := hv b hb
          omega

theorem freshChain_wf (ncount : Nat) : Wf (countbrefs (freshChain ncount)) [] := by
  have hholes : ∀ x ∈ List.replicate ncount Bref.zero, x.isEmpty = true := fun x hx => by
    rw [List.eq_of_mem_replicate hx]
    rfl
  have hnone : entries (List.replicate ncount Bref.zero) = [] := by
    refine List.filter_eq_nil_iff.mpr fun x hx => ?_
    rw [hholes x hx]
    exact Bool.false_ne_true
  have hlast : lastLive (List.replicate ncount Bref.zero)
      (List.replicate ncount Bref.zero).length = 0 := by
    refine Nat.eq_zero_of_not_pos fun hpos => ?_
    obtain ⟨x, hx, hlive⟩ := (lastLive_spec _ (Nat.le_refl _)).2.2 hpos
    rw [hholes x (mem_of_getElem hx)] at hlive
    exact absurd hlive nofun
  have hnil : ∀ {P : Bref → Prop}, ∀ b ∈ ([] : List Bref), P b :=
    fun b hb => absurd hb List.not_mem_nil
  unfold countbrefs freshChain
  rw [if_neg Bool.false_ne_true]
  refine .of_mem ⟨rfl, ?_, ?_, ?_⟩ (fun b => ?_) .nil hnil .nil
    (fun c hc => absurd hc List.not_mem_nil) (fun c hc => absurd hc List.not_mem_nil) ?_
  · rw [hnone]
    exact .nil
  · rw [hnone]
    exact hnil
  · rw [hlast]
    refine ⟨Nat.zero_le _, hholes, fun hpos => absurd hpos (Nat.lt_irrefl 0)⟩
  · rw [mem_live]
    dsimp only
    rw [hnone]
    constructor
    · exact fun hb => absurd hb List.not_mem_nil
    · rintro (⟨c, hc, -⟩ | ⟨hb, -⟩)
      · exact absurd hc List.not_mem_nil
      · exact absurd hb List.not_mem_nil
  · dsimp only
    rw [hnone]
    rfl

/-- **A split over a chosen range.** -/
theorem Chosen.split (h : Wf parent view) (hc : Chosen view key keybits)
    (hloops : view.length < 100000) (hfull : view.length ≤ parent.base.length) {ncount : Nat}
    (hroom : view.length ≤ ncount) {bref : Bref} (hind : isIndirect bref = true)
    (hkey : bref.key = roundDown key (bit keybits)) (hbits : bref.keybits = UInt8.ofNat keybits) :
    ∃ p ichain parent', moveLoop (roundDown key (bit keybits)) keybits 100000 parent
        (freshChain ncount) 0 = some (p, ichain) ∧
      p.liveCount < p.base.length ∧
      chainInsert p ⟨bref, ⟨false, false, false⟩⟩ true = some parent' ∧
      Splits parent view parent' bref ichain
        (view.filter fun b => !within (roundDown key (bit keybits)) keybits b)
        (view.filter (within (roundDown key (bit keybits)) keybits)) ∧
      parent'.base.length = parent.base.length ∧ ichain.base.length = ncount := by
  obtain ⟨halign, hround⟩ := roundDown_spec hc.bits key
  have hc' : Chosen view (roundDown key (bit keybits)) keybits := by
    obtain ⟨e, he, hle, hsame⟩ := hc.some
    exact ⟨hc.bits, e, he, hle, hround.trans hsame⟩
  rw [← hkey] at halign hc' ⊢
  clear hround hc
  -- the range of the new indirect block
  have hk : bref.keybits.toNat = keybits := by
    have hlt := hc'.bits
    rw [hbits, UInt8.toNat_ofNat']
    omega
  have hranged : Ranged bref := by
    refine ⟨?_, by rw [hk]; exact hc'.bits, by rw [hk]; exact halign⟩
    unfold isIndirect at hind
    unfold Bref.isEmpty
    rcases of_decide_eq_true hind with ht | ht
    · rw [ht]
      rfl
    · rw [ht]
      rfl
  have hhi : bref.hi = bref.key.toNat + (2 ^ keybits - 1) := by
    rw [hranged.hi_eq, hk]
    rfl
  have hsides : ∀ v ∈ view, (within bref.key keybits v = true ∧ bref.lo ≤ v.lo ∧ v.hi ≤ bref.hi) ∨
      (within bref.key keybits v = false ∧ (v.hi < bref.lo ∨ bref.hi < v.lo)) := by
    intro v hv
    rw [hhi]
    exact Chosen.sides h hc' halign hv
  obtain ⟨p, ichain, hloop, hp, hi, hlen, hilen⟩ := @moveLoop_spec bref.key keybits hc'.bits view [] []
    100000 parent (freshChain ncount) 0 h (freshChain_wf ncount) hloops
    (fun a ha => absurd ha List.not_mem_nil) (fun b _ => Nat.zero_le _)
    (fun m hm => absurd hm List.not_mem_nil) (by
      show [].length + view.length ≤ (List.replicate ncount Bref.zero).length
      rw [List.length_replicate, List.length_nil, Nat.zero_add]
      exact hroom)
  rw [List.nil_append] at hp hi
  generalize hleft : (view.filter fun b => !within bref.key keybits b) = left at hp ⊢
  generalize hmoved : view.filter (within bref.key keybits) = moved at hi ⊢
  have hin : ∀ v, v ∈ moved ↔ v ∈ view ∧ within bref.key keybits v = true := fun v => by
    rw [← hmoved, List.mem_filter]
  have hout : ∀ v, v ∈ left ↔ v ∈ view ∧ within bref.key keybits v = false := fun v => by
    rw [← hleft, List.mem_filter, Bool.not_eq_true']
  have hperm : view.Perm (moved ++ left) := by
    rw [← hmoved, ← hleft]
    exact (List.filter_append_perm _ _).symm
  have hinside : ∀ v ∈ moved, bref.lo ≤ v.lo ∧ v.hi ≤ bref.hi := by
    intro v hv
    obtain ⟨hview, hw⟩ := (hin v).mp hv
    rcases hsides v hview with ⟨-, hside⟩ | ⟨hf, -⟩
    · exact hside
    · exact absurd (hw.symm.trans hf) nofun
  have hapart : ∀ v ∈ left, v.hi < bref.lo ∨ bref.hi < v.lo := by
    intro v hv
    obtain ⟨hview, hw⟩ := (hout v).mp hv
    rcases hsides v hview with ⟨ht, -⟩ | ⟨-, hside⟩
    · exact absurd (ht.symm.trans hw) nofun
    · exact hside
  -- one entry at least has moved
  have hfreed : left.length < view.length := by
    obtain ⟨e, he, -, hsame⟩ := hc'.some
    have hmem : e ∈ moved := (hin e).mpr ⟨he, decide_eq_true hsame⟩
    have hsum := hperm.length_eq
    rw [List.length_append] at hsum
    have hpos := List.length_pos_of_mem hmem
    omega
  obtain ⟨A, B, hAB, hA, hB⟩ := place hp.order (fun v hv => (hp.ranged v hv).le) hranged.le hapart
  rw [hAB] at hp
  obtain ⟨parent', hins, hwf, hbase, hstats, -⟩ := hp.insert
    (c := ⟨bref, ⟨false, false, false⟩⟩) hranged rfl hA hB
  have hview' : (A ++ bref :: B).Perm (bref :: left) := by
    rw [hAB]
    exact List.perm_middle
  refine ⟨p, ichain, parent', hloop, ?_, hins, ⟨hranged, hperm, hi, ⟨_, hview', hwf⟩, hinside,
    hapart, Nat.lt_of_lt_of_le hfreed hfull, fun below k => ?_⟩, ?_, ?_⟩
  · rw [hp.count, hlen, ← hAB]
    omega
  · have hold : Wf (countbrefs parent) view := by rwa [h.countbrefs_eq]
    have hnew : Wf (countbrefs parent') (A ++ bref :: B) := by rwa [hwf.countbrefs_eq]
    have hibref : bref ∈ A ++ bref :: B := hview'.mem_iff.mpr List.mem_cons_self
    have hthrough : ∀ k, bref.lo ≤ k.toNat → k.toNat ≤ bref.hi →
        lookup (through bref ichain below) parent' k = lookup below ichain k := by
      intro k hlo hup
      rw [lookup_in hnew hibref hlo hup, if_pos hind, through, if_pos rfl]
    by_cases hex : ∃ e ∈ view, e.lo ≤ k.toNat ∧ k.toNat ≤ e.hi
    · obtain ⟨e, he, hlo, hup⟩ := hex
      rw [lookup_in hold he hlo hup]
      rcases hsides e he with ⟨hw, hside⟩ | ⟨hw, hside⟩
      · rw [hthrough k (Nat.le_trans hside.1 hlo) (Nat.le_trans hup hside.2),
          lookup_in hi ((hin e).mpr ⟨he, hw⟩) hlo hup]
      · have hmem : e ∈ A ++ bref :: B :=
          hview'.mem_iff.mpr (List.mem_cons_of_mem bref ((hout e).mpr ⟨he, hw⟩))
        have hne : e ≠ bref := by
          rintro rfl
          have hle := hranged.le
          rcases hside with hlt | hlt
          · omega
          · omega
        rw [lookup_in hnew hmem hlo hup, through, if_neg hne]
    · have hfree : ∀ v ∈ view, k.toNat < v.lo ∨ v.hi < k.toNat := by
        intro v hv
        by_contra hboth
        rw [not_or, Nat.not_lt, Nat.not_lt] at hboth
        exact hex ⟨v, hv, hboth⟩
      rw [lookup_out hold hfree]
      by_cases hrange : bref.lo ≤ k.toNat ∧ k.toNat ≤ bref.hi
      · rw [hthrough k hrange.1 hrange.2, lookup_out hi fun v hv => hfree v ((hin v).mp hv).1]
      · refine lookup_out hnew fun v hv => ?_
        rcases List.mem_cons.mp (hview'.mem_iff.mp hv) with rfl | hv
        · rw [not_and_or, Nat.not_le, Nat.not_le] at hrange
          exact hrange
        · exact hfree v ((hout v).mp hv).1
  · rw [hbase, hlen]
  · exact hilen.trans (List.length_replicate ..)

end Split

/-! ## When it is one -/

section Main

variable {parent : Node} {view : List Bref} {kind : Kind} {forType : BrefType}
  {ialloc : Except Nat (UInt64 × Nat)}

/-- The block of the new indirect block was allocated. -/
def allocated : Except Nat (UInt64 × Nat) → Bool
  | .error _ => false
  | .ok _ => true

/-- The table is one whose entries a range can be chosen for: in the freemap there is a level over
the smallest ones, and in a file the bits of the smallest ones and those of the new block are less
than 64. -/
def Splittable (kind : Kind) (forType : BrefType) (view : List Bref) (count : Nat)
    (ialloc : Except Nat (UInt64 × Nat)) : Prop :=
  match forType with
  | .freemapNode | .freemapLeaf => count ≤ 256 ∧
      ∃ b ∈ view, (∀ v ∈ view, b.keybits ≤ v.keybits) ∧ (nextLevel b.keybits.toNat).isSome
  | .data => ∃ nbytes nradix, indBytes kind .data count = some nbytes ∧
      indRadix (nbytes / 128) = some nradix ∧
      (allocated ialloc = true → ∃ b ∈ view, b.keybits.toNat + nradix < 64)
  | .dirent | .inode => True
  | _ => False

/-- There are searches enough for all entries. -/
theorem searches (hfull : view.length = parent.base.length) (hsize : parent.base.length ≤ 512) :
    view.length < maxLoops := by
  rw [hfull]
  exact Nat.lt_of_le_of_lt hsize (by decide)

theorem indBytes_spec {count nbytes : Nat} (h : indBytes kind forType count = some nbytes)
    (hcount : count ≤ 512) : count ≤ nbytes / 128 ∧ nbytes ≤ 65536 := by
  have hmax : (if isFreemap forType = true then 32768 else
      if kind = .inode true then 4096 else 16384) ≤ 65536 := by
    split
    · decide
    · split <;> decide
  unfold indBytes at h
  dsimp only at h
  generalize (if isFreemap forType = true then 32768 else
    if kind = .inode true then 4096 else 16384) = n at h hmax
  by_cases hless : n < count * 128
  · rw [if_pos hless] at h
    split at h
    · cases h
    · cases h
      omega
  · rw [if_neg hless] at h
    cases h
    omega

/-- The modified parent. -/
theorem Wf.modified (h : Wf parent view) : Wf ({ parent with modified := true } : Node) view :=
  ⟨⟨h.table.counted, h.table.order, h.table.ranges, h.table.ends⟩, h.perm, h.order, h.ranged,
    h.sorted, h.mapped, h.same, h.count⟩

/-- After the choice of a range. -/
theorem correct_iff (h : Wf parent view) (hfull : view.length = parent.base.length)
    (hsize : parent.base.length ≤ 512) {nbytes : Nat}
    (hbytes : indBytes kind forType parent.base.length = some nbytes) {createKey key : UInt64}
    {createBits keybits : Nat} {c : Int}
    (hkey : indkey { parent with modified := true } forType createKey createBits (nbytes / 128) =
      some (Node.cache { parent with modified := true } c, key, keybits))
    (hchosen : keybits < 64 → Chosen view key keybits) (hbyte : keybits < 256) :
    Correct parent view (createIndirect kind parent createKey createBits forType none ialloc) ↔
      (allocated ialloc = true → keybits < 64) := by
  obtain ⟨hroom, -⟩ := indBytes_spec hbytes hsize
  have hwf := (Wf.modified h).cache c
  have hsame : ∀ below k, lookup below (Node.cache { parent with modified := true } c) k =
      lookup below parent k := fun below k => lookup_congr
    (by rwa [h.countbrefs_eq]) (by rwa [hwf.countbrefs_eq])
  unfold createIndirect
  rw [if_neg (by exact Bool.false_ne_true)]
  show Correct parent view ((indBytes kind forType parent.base.length).bind _) ↔ _
  rw [hbytes, Option.bind_some]
  show Correct parent view ((indkey _ forType createKey createBits (nbytes / 128)).bind _) ↔ _
  rw [hkey, Option.bind_some]
  cases ialloc with
  | error err =>
      exact iff_of_true ⟨rfl, rfl, rfl, hsame⟩ fun hno => absurd hno Bool.false_ne_true
  | ok block =>
      obtain ⟨dataOff, rest⟩ := block
      dsimp only
      generalize hbref : ({ Bref.zero with
        type := if isFreemap forType then .freemapNode else .indirect
        keybits := UInt8.ofNat keybits
        key := roundDown key (bit keybits), dataOff, rest } : Bref) = bref
      have hind : isIndirect bref = true := by
        rw [← hbref]
        unfold isIndirect
        dsimp only
        split <;> rfl
      have hbk : bref.key = roundDown key (bit keybits) := by rw [← hbref]
      have hbb : bref.keybits = UInt8.ofNat keybits := by rw [← hbref]
      constructor
      · -- the range has to be one
        intro hcorrect _
        have hbits : bref.keybits.toNat = keybits := by
          rw [hbb, UInt8.toNat_ofNat']
          omega
        rw [← hbits]
        generalize moveLoop _ _ _ _ _ _ = moved at hcorrect
        cases moved with
        | none => exact False.elim hcorrect
        | some moved =>
            rw [Option.bind_some] at hcorrect
            split at hcorrect
            · exact False.elim hcorrect
            · generalize chainInsert _ _ _ = inserted at hcorrect
              cases inserted with
              | none => exact False.elim hcorrect
              | some parent' =>
                  obtain ⟨left, there, hsplit⟩ := hcorrect
                  exact hsplit.range.keybits
      · intro hlt
        have hlen : view.length < 100000 := by omega
        obtain ⟨p, ichain, parent', hloop, hcount, hins, hsplit, -⟩ := Chosen.split hwf
          (hchosen (hlt rfl)) hlen (Nat.le_of_eq hfull) (Nat.le_trans (Nat.le_of_eq hfull) hroom)
          hind hbk hbb
        rw [hloop, Option.bind_some]
        dsimp only
        rw [if_neg (not_not.mpr hcount), hins]
        refine ⟨_, _, hsplit.range, hsplit.all, hsplit.there, hsplit.here, hsplit.inside,
          hsplit.apart, hsplit.freed, fun below k => ?_⟩
        rw [hsplit.lookups, hsame]

/-- The smallest entries have their bits in common. -/
theorem lowest_bits {key : UInt64} {keybits : Nat} (h : Lowest view key keybits) {b : Bref}
    (hb : b ∈ view) (hleast : ∀ v ∈ view, b.keybits ≤ v.keybits) : b.keybits.toNat = keybits := by
  obtain ⟨e, he, -, rfl⟩ := h.mem
  exact Nat.le_antisymm (UInt8.le_iff_toNat_le.mp (hleast e he)) (h.least b hb)

/-- Without a choice there is a panic. -/
theorem not_correct {createKey : UInt64} {createBits : Nat}
    (hno : ∀ nbytes, indBytes kind forType parent.base.length = some nbytes →
      indkey { parent with modified := true } forType createKey createBits (nbytes / 128) = none) :
    ¬ Correct parent view
      (createIndirect kind parent createKey createBits forType none ialloc) := by
  intro hcorrect
  unfold createIndirect at hcorrect
  rw [if_neg (by exact Bool.false_ne_true)] at hcorrect
  change Correct parent view ((indBytes kind forType parent.base.length).bind _) at hcorrect
  cases hbytes : indBytes kind forType parent.base.length with
  | none =>
      rw [hbytes] at hcorrect
      exact hcorrect
  | some nbytes =>
      rw [hbytes, Option.bind_some] at hcorrect
      change Correct parent view
        ((indkey _ forType createKey createBits (nbytes / 128)).bind _) at hcorrect
      rw [hno nbytes hbytes] at hcorrect
      exact hcorrect

/-- In the freemap. -/
theorem split_freemap (h : Wf parent view) (hne : view ≠ [])
    (hfull : view.length = parent.base.length) (hsize : parent.base.length ≤ 512)
    (createKey : UInt64) (createBits : Nat) (hfree : isFreemap forType = true)
    (hindkey : ∀ n k b c, indkey n forType k b c = indkeyFreemap n k) :
    Correct parent view (createIndirect kind parent createKey createBits forType none ialloc) ↔
      parent.base.length ≤ 256 ∧
        ∃ b ∈ view, (∀ v ∈ view, b.keybits ≤ v.keybits) ∧ (nextLevel b.keybits.toNat).isSome := by
  have hbytes : indBytes kind forType parent.base.length =
      if 32768 < parent.base.length * 128 then none else some 32768 := by
    unfold indBytes
    dsimp only
    rw [if_pos hfree, if_pos hfree]
  have hloops := searches hfull hsize
  obtain ⟨c, key, keybits, hlow, hspec⟩ := indkeyFreemap_spec
    (Wf.modified h) hne hloops createKey
  by_cases hbig : 32768 < parent.base.length * 128
  · rw [if_pos hbig] at hbytes
    refine iff_of_false (not_correct fun nbytes hn => ?_) fun hs => ?_
    · rw [hbytes] at hn
      cases hn
    · have hle := hs.1
      omega
  · rw [if_neg hbig] at hbytes
    cases hnext : nextLevel keybits with
    | none =>
        refine iff_of_false (not_correct fun nbytes _ => ?_) ?_
        · rw [hindkey, hspec, hnext]
          rfl
        · rintro ⟨-, b, hb, hleast, hsome⟩
          rw [lowest_bits hlow hb hleast, hnext] at hsome
          exact absurd hsome nofun
    | some level =>
        obtain ⟨hle, hlt⟩ := nextLevel_spec hnext
        have hkey : indkey { parent with modified := true } forType createKey createBits
            (32768 / 128) = some (Node.cache { parent with modified := true } c, key, level) := by
          rw [hindkey, hspec, hnext]
          rfl
        rw [correct_iff h hfull hsize hbytes hkey (fun _ => hlow.chosen hle hlt) (by omega)]
        refine iff_of_true (fun _ => hlt) ⟨by omega, ?_⟩
        obtain ⟨e, he, -, hbits⟩ := hlow.mem
        refine ⟨e, he, fun v hv => ?_, ?_⟩
        · rw [UInt8.le_iff_toNat_le, hbits]
          exact hlow.least v hv
        · rw [hbits, hnext]
          rfl

/-- In a file. -/
theorem split_data (h : Wf parent view) (hne : view ≠ [])
    (hfull : view.length = parent.base.length) (hsize : parent.base.length ≤ 512)
    (createKey : UInt64) (createBits : Nat) :
    Correct parent view (createIndirect kind parent createKey createBits .data none ialloc) ↔
      Splittable kind .data view parent.base.length ialloc := by
  have hloops := searches hfull hsize
  unfold Splittable
  cases hbytes : indBytes kind .data parent.base.length with
  | none =>
      refine iff_of_false (not_correct fun nbytes hn => ?_) fun ⟨_, _, hn, _⟩ => ?_
      · rw [hbytes] at hn
        cases hn
      · cases hn
  | some nbytes =>
      obtain ⟨c, key, keybits, hlow, hspec⟩ := indkeyFile_spec
        (Wf.modified h) hne hloops createKey (nbytes / 128)
      cases hradix : indRadix (nbytes / 128) with
      | none =>
          refine iff_of_false (not_correct fun n hn => ?_) fun ⟨n, _, hn, hr, _⟩ => ?_
          · cases hbytes.symm.trans hn
            show indkeyFile _ createKey (nbytes / 128) = none
            rw [hspec, hradix]
            rfl
          · cases hn
            rw [hradix] at hr
            cases hr
      | some nradix =>
          have hnine : nradix ≤ 9 := by
            unfold indRadix at hradix
            repeat' split at hradix
            all_goals cases hradix
            all_goals decide
          obtain ⟨e, he, -, hbits⟩ := hlow.mem
          have he64 := (h.ranged e he).keybits
          have hkey : indkey { parent with modified := true } .data createKey createBits
              (nbytes / 128) =
              some (Node.cache { parent with modified := true } c, key, keybits + nradix) := by
            show indkeyFile _ createKey (nbytes / 128) = _
            rw [hspec, hradix]
            rfl
          rw [correct_iff h hfull hsize hbytes hkey
            (fun hlt => hlow.chosen (Nat.le_add_right _ _) hlt) (by omega)]
          constructor
          · intro hlt
            refine ⟨nbytes, nradix, rfl, hradix, fun ha => ⟨e, he, ?_⟩⟩
            rw [hbits]
            exact hlt ha
          · rintro ⟨n, r, hn, hr, hex⟩ ha
            cases hn
            rw [hradix] at hr
            cases hr
            obtain ⟨b, hb, hlt⟩ := hex ha
            have hle := hlow.least b hb
            omega

/-- In a directory. -/
theorem split_dir (h : Wf parent view) (hne : view ≠ [])
    (hfull : view.length = parent.base.length) (hsize : parent.base.length ≤ 512)
    {createKey : UInt64} (hnew : ∀ v ∈ view, ¬ Same v.keybits.toNat createKey.toNat v.lo)
    {createBits : Nat} (hbits : createBits ≤ 64) (hfree : isFreemap forType = false)
    (hindkey : ∀ n k b c, indkey n forType k b c = indkeyDir n k b c) :
    Correct parent view (createIndirect kind parent createKey createBits forType none ialloc) := by
  have hloops := searches hfull hsize
  obtain ⟨nbytes, hbytes⟩ : ∃ nbytes, indBytes kind forType parent.base.length = some nbytes := by
    unfold indBytes
    dsimp only
    rw [hfree, if_neg Bool.false_ne_true, if_neg Bool.false_ne_true]
    split
    · split <;> exact ⟨_, rfl⟩
    · split <;> exact ⟨_, rfl⟩
  obtain ⟨-, hmax⟩ := indBytes_spec hbytes hsize
  have hcount : nbytes / 128 ≤ 2 ^ 63 := by omega
  obtain ⟨c, key, keybits, hspec, hchosen, -⟩ := indkeyDir_spec (Wf.modified h) hne hloops hnew
    hbits hcount
  rw [correct_iff h hfull hsize hbytes (by rw [hindkey]; exact hspec) (fun _ => hchosen)
    (Nat.lt_trans hchosen.bits (by decide))]
  exact fun _ => hchosen.bits

/-- **A full block table is split** by every call, for every new key, exactly if its parent cannot
be modified, or a range can be chosen for its entries. -/
theorem split_iff (kind : Kind) (h : Wf parent view) (hfull : view.length = parent.base.length)
    (hpos : 0 < parent.base.length) (hsize : parent.base.length ≤ 512) (createKey : UInt64)
    (hnew : ∀ v ∈ view, ¬ Same v.keybits.toNat createKey.toNat v.lo) {createBits : Nat}
    (hbits : createBits ≤ 64) (forType : BrefType) (perr : Option Nat)
    (ialloc : Except Nat (UInt64 × Nat)) :
    Correct parent view (createIndirect kind parent createKey createBits forType perr ialloc) ↔
      perr.isSome = true ∨ Splittable kind forType view parent.base.length ialloc := by
  cases perr with
  | some err =>
      refine iff_of_true ?_ (.inl rfl)
      exact ⟨rfl, rfl, rfl, fun _ _ => rfl⟩
  | none =>
      have hne : view ≠ [] := List.ne_nil_of_length_pos (hfull ▸ hpos)
      rw [or_iff_right (by exact Bool.false_ne_true)]
      cases forType with
      | freemapNode =>
          exact split_freemap h hne hfull hsize createKey createBits rfl fun _ _ _ _ => rfl
      | freemapLeaf =>
          exact split_freemap h hne hfull hsize createKey createBits rfl fun _ _ _ _ => rfl
      | data => exact split_data h hne hfull hsize createKey createBits
      | dirent =>
          exact iff_of_true (split_dir h hne hfull hsize hnew hbits rfl fun _ _ _ _ => rfl) trivial
      | inode =>
          exact iff_of_true (split_dir h hne hfull hsize hnew hbits rfl fun _ _ _ _ => rfl) trivial
      | empty => exact iff_of_false (not_correct fun _ _ => rfl) id
      | indirect => exact iff_of_false (not_correct fun _ _ => rfl) id
      | freemap => exact iff_of_false (not_correct fun _ _ => rfl) id
      | volume => exact iff_of_false (not_correct fun _ _ => rfl) id

end Main

/-! ## A file with an entry in memory only -/

/-- Four slots for data blocks of 64KB; the third block is not in the table yet, and the first one
has a chain. -/
def mixed : Node where
  stats := ⟨true, 0, 4, 3, 0, 0⟩
  base := [dataAt 0, dataAt 65536, Bref.zero, dataAt 196608]
  tree := [⟨dataAt 0, ⟨true, false, false⟩⟩, ⟨dataAt 131072, ⟨false, false, false⟩⟩]
  liveCount := 4
  modified := false

def mixedView : List Bref := [dataAt 0, dataAt 65536, dataAt 131072, dataAt 196608]

theorem mixed_wf : Wf mixed mixedView where
  table := ⟨rfl, by decide, by decide, by decide, by decide, fun _ => ⟨_, rfl, rfl⟩⟩
  perm := by decide
  order := by decide
  ranged := by
    intro b hb
    simp only [mixedView, List.mem_cons, List.not_mem_nil, or_false] at hb
    rcases hb with rfl | rfl | rfl | rfl
    · exact ⟨rfl, by decide, by decide⟩
    · exact ⟨rfl, by decide, by decide⟩
    · exact ⟨rfl, by decide, by decide⟩
    · exact ⟨rfl, by decide, by decide⟩
  sorted := by decide
  mapped := by
    intro c hc
    simp only [mixed, List.mem_cons, List.not_mem_nil, or_false] at hc
    rcases hc with rfl | rfl
    · exact iff_of_true rfl ⟨dataAt 0, by decide, rfl⟩
    · exact iff_of_false Bool.false_ne_true (by decide)
  same := by
    intro c hc
    simp only [mixed, List.mem_cons, List.not_mem_nil, or_false] at hc
    rcases hc with rfl | rfl
    · decide
    · decide
  count := rfl

theorem split_iff_mixed : Correct mixed mixedView
      (createIndirect (.inode false) mixed 262144 16 .data none (.ok (0, 0))) ↔
    (none : Option Nat).isSome = true ∨ Splittable (.inode false) .data mixedView 4 (.ok (0, 0)) :=
  split_iff (.inode false) mixed_wf rfl (by decide) (by decide) 262144 (by decide) (by decide) .data
    none (.ok (0, 0))

/-! ## A file with blocks far apart -/

/-- An indirect block of `2 ^ 58` keys. -/
def wideAt (key : UInt64) : Bref := { Bref.zero with type := .indirect, keybits := 58, key := key }

/-- The keys of four indirect blocks. -/
def farView : List Bref :=
  [wideAt 0, wideAt 0x0400000000000000, wideAt 0x0800000000000000, wideAt 0x0C00000000000000]

def far : Node := ⟨⟨true, 0, 4, 4, 0, 0⟩, farView, [], 4, false⟩

theorem far_wf : Wf far farView where
  table := ⟨rfl, by decide, by decide, by decide, by decide, fun _ => ⟨_, rfl, rfl⟩⟩
  perm := by decide
  order := by decide
  ranged := by
    intro b hb
    simp only [farView, List.mem_cons, List.not_mem_nil, or_false] at hb
    rcases hb with rfl | rfl | rfl | rfl
    · exact ⟨rfl, by decide, by decide⟩
    · exact ⟨rfl, by decide, by decide⟩
    · exact ⟨rfl, by decide, by decide⟩
    · exact ⟨rfl, by decide, by decide⟩
  sorted := .nil
  mapped := fun c hc => absurd hc List.not_mem_nil
  same := fun c hc => absurd hc List.not_mem_nil
  count := rfl

/-- The data block of 1 MB on, under the first indirect block. -/
def farBelow (b : Bref) (k : UInt64) : Option (Option Bref) :=
  if b.key = 0 ∧ k = 0x100000 then some (some (dataAt k)) else some none

/-- The bits of the new indirect block. -/
def Outcome.bits : Outcome → Option UInt8
  | .error _ => none
  | .done _ bref _ _ => some bref.keybits

/-- What a lookup finds afterwards. -/
def Outcome.lookup (below : Bref → UInt64 → Option (Option Bref)) (k : UInt64) :
    Outcome → Option (Option Bref)
  | .error parent => Split.lookup below parent k
  | .done parent bref ichain _ => Split.lookup (through bref ichain below) parent k

theorem Correct.lookup {parent : Node} {view : List Bref} {o : Option Outcome}
    (h : Correct parent view o) (below : Bref → UInt64 → Option (Option Bref)) (k : UInt64) :
    o.map (Outcome.lookup below k) = some (Split.lookup below parent k) := by
  cases o with
  | none => exact h.elim
  | some o =>
      cases o with
      | error parent' => exact congrArg some (h.lookups below k)
      | done parent' bref ichain inside =>
          obtain ⟨left, moved, hsplit⟩ := h
          exact congrArg some (hsplit.lookups below k)

/-- The key of the new block. -/
def farKey : UInt64 := 0x1000000000000000

def farSplit : Option Outcome :=
  createIndirect (.inode false) far farKey 16 .data none (.ok (0, 0))

set_option maxRecDepth 20000 in
/-- The new indirect block has 65 bits, and the block of 1 MB on is lost. -/
theorem far_lost : farSplit.map Outcome.bits = some (some 65) ∧
    farSplit.map (Outcome.lookup farBelow 0x100000) = some (some none) ∧
    lookup farBelow far 0x100000 = some (some (dataAt 0x100000)) := by
  decide

theorem far_not_split : Wf far farView ∧ farView.length = far.base.length ∧
    (∀ v ∈ farView, ¬ Same v.keybits.toNat farKey.toNat v.lo) ∧ ¬ Correct far farView farSplit := by
  have hlost := far_lost
  generalize farSplit = o at hlost ⊢
  refine ⟨far_wf, rfl, by decide, fun hcorrect => ?_⟩
  have hsame := hcorrect.lookup farBelow 0x100000
  rw [hlost.2.1, hlost.2.2] at hsame
  cases hsame

end Hammer2.Chain.Split
