/-
# `Hammer2.Chain.Retry` — a block is inserted into a file

`hammer2_chain_create` inserts the chain of a new block where its key belongs.  While the block
table there is full, `hammer2_chain_create_indirect` has to make room, and the loop starts again
at the parent or at the new indirect block, where the key is now.

    retry       the loop
    Legal       what a round has to be
    Fits        the condition on the entries
    retry_iff   the loop ends, by legal rounds, exactly if the entries fit

A legal round is the only one: after it there is room.  The range has one entry that is sure to be
in it, so that it may make none.
-/
import Hammer2.Chain.Split

namespace Hammer2.Chain.Retry

open Table Merged Indkey KeyRange Split

/-- The passes before `maxloops` is used up. -/
def maxPasses : Nat := 299999

/-- The bits of the range that `hammer2_chain_create_indirect` shifts by. -/
def rangeBits (kind : Kind) (parent : Node) (createKey : UInt64) (createBits : Nat)
    (forType : BrefType) (perr : Option Nat) : Option Nat :=
  if perr.isSome then none
  else
    (indBytes kind forType parent.base.length).bind fun nbytes =>
      (indkey { parent with modified := true } forType createKey createBits (nbytes / 128)).map
        fun (_, _, keybits) => keybits

/-- A call of `hammer2_chain_create_indirect`: the parent, the bits of the range and the outcome. -/
structure Round where
  parent : Node
  bits : Option Nat
  outcome : Outcome

/-- What the loop ends with: an error, or the chain in its parent. -/
inductive Ending
  | failed (parent : Node)
  | inserted (parent : Node)

/-- The loop of `hammer2_chain_create`, and its rounds.  `env` has the errors of the modifications
and the allocated blocks, by the passes that are left. -/
def retry (env : Nat → Option Nat × Except Nat (UInt64 × Nat)) (chain : Merged.Chain) :
    Nat → Kind → Node → Option (Ending × List Round)
  | 0, _, _ => none
  | loops + 1, kind, parent =>
      let parent := countbrefs parent
      let count : Int := parent.base.length
      if ¬ (0 ≤ parent.liveCount ∧ parent.liveCount ≤ count) then none
      else if parent.liveCount = count then
        let key := chain.bref.key
        let keybits := chain.bref.keybits.toNat
        let bits := rangeBits kind parent key keybits chain.bref.type (env loops).1
        (createIndirect kind parent key keybits chain.bref.type (env loops).1 (env loops).2).bind
          fun outcome =>
            (match outcome with
              | .error parent => some (Ending.failed parent, [])
              | .done _ _ ichain true => retry env chain loops .indirect ichain
              | .done parent _ _ false => retry env chain loops kind parent).map
                fun (ending, rounds) => (ending, ⟨parent, bits, outcome⟩ :: rounds)
      else (chainInsert parent chain true).map fun parent => (.inserted parent, [])

/-! ## What is legal -/

/-- **A legal range** of at most 63 bits: apart from the other entries of the parent, around the
entries that are in it now, and either around the new key or with one entry less in the parent. -/
structure Legal (key : UInt64) (parent parent' : Node) (bref : Bref) (ichain : Node) : Prop where
  keybits : bref.keybits.toNat ≤ 63
  aligned : 2 ^ bref.keybits.toNat ∣ bref.lo
  apart : ∃ view', Wf parent' view' ∧ bref ∈ view'
  around : ∃ moved, Wf (countbrefs ichain) moved ∧ moved ≠ [] ∧
    ∀ v ∈ moved, bref.lo ≤ v.lo ∧ v.hi ≤ bref.hi
  progress : (bref.lo ≤ key.toNat ∧ key.toNat ≤ bref.hi) ∨ parent'.liveCount < parent.liveCount

/-- No shift by more than 63 bits, and a legal range if there is a new block. -/
structure Round.Legal (key : UInt64) (r : Round) : Prop where
  shift : ∀ bits, r.bits = some bits → bits ≤ 63
  range : ∀ parent' bref ichain inside, r.outcome = .done parent' bref ichain inside →
    Retry.Legal key r.parent parent' bref ichain

/-- The loop ends, by legal rounds. -/
def Inserts (env : Nat → Option Nat × Except Nat (UInt64 × Nat)) (chain : Merged.Chain) (kind : Kind)
    (parent : Node) : Prop :=
  ∃ ending rounds, retry env chain maxPasses kind parent = some (ending, rounds) ∧
    ∀ r ∈ rounds, r.Legal chain.bref.key

/-- There is room, or the parent cannot be modified, or the range over the lowest of the smallest
entries has at most 63 bits, and there is another entry in it or the new key. -/
def Fits (kind : Kind) (view : List Bref) (count : Nat) (key : UInt64)
    (env : Option Nat × Except Nat (UInt64 × Nat)) : Prop :=
  view.length < count ∨ env.1.isSome = true ∨
    ∃ nbytes nradix low keybits, indBytes kind .data count = some nbytes ∧
      indRadix (nbytes / 128) = some nradix ∧ Lowest view low keybits ∧ keybits + nradix ≤ 63 ∧
      (allocated env.2 = true → Same (keybits + nradix) low.toNat key.toNat ∨
        2 ≤ view.countP fun v => decide (Same (keybits + nradix) low.toNat v.lo))

/-! ## One round -/

section Round

variable {kind : Kind} {parent : Node} {view : List Bref} {key : UInt64} {keybits nbytes nradix : Nat}

theorem Lowest.unique {key' : UInt64} {keybits' : Nat} (h : Lowest view key keybits)
    (h' : Lowest view key' keybits') : key' = key ∧ keybits' = keybits := by
  obtain ⟨e, he, rfl, rfl⟩ := h.mem
  obtain ⟨e', he', rfl, rfl⟩ := h'.mem
  have hbits := Nat.le_antisymm (h'.least e he) (h.least e' he')
  exact ⟨UInt64.le_antisymm (h'.first e he hbits.symm) (h.first e' he' hbits), hbits⟩

theorem indRadix_spec {ncount : Nat} (h : indRadix ncount = some nradix) :
    2 ^ nradix = ncount ∧ nradix ≤ 9 := by
  unfold indRadix at h
  split at h
  · next hc =>
      cases h
      exact ⟨hc.symm, by decide⟩
  · split at h
    · next hc =>
        cases h
        exact ⟨hc.symm, by decide⟩
    · split at h
      · next hc =>
          cases h
          exact ⟨hc.symm, by decide⟩
      · cases h

/-- The entries of the range, when the new key is in it too, leave a place. -/
theorem moved_lt (h : Wf parent view) (hlow : ∀ v ∈ view, keybits ≤ v.keybits.toNat) {low : Nat}
    {c : Bref} (hc : Ranged c) (hnew : ∀ v ∈ view, v.hi < c.lo ∨ c.hi < v.lo)
    (hin : Same (keybits + nradix) low c.lo) :
    (view.filter fun v => decide (Same (keybits + nradix) low v.lo)).length < 2 ^ nradix := by
  generalize hmoved : (view.filter fun v => decide (Same (keybits + nradix) low v.lo)) = moved
  have hsub : ∀ v ∈ moved, v ∈ view ∧ Same (keybits + nradix) low v.lo := fun v hv => by
    rw [← hmoved, List.mem_filter, decide_eq_true_iff] at hv
    exact hv
  -- the smallest ranges at the beginnings of the entries, and that of the key
  have hslot : ∀ v ∈ view, ∀ k, Same keybits k v.lo → v.lo ≤ k ∧ k ≤ v.hi := by
    intro v hv k hsame
    have hr := h.ranged v hv
    have hle : 2 ^ keybits ≤ 2 ^ v.keybits.toNat := Nat.pow_le_pow_right (by decide) (hlow v hv)
    have halign : 2 ^ keybits ∣ v.lo :=
      (Nat.pow_dvd_pow 2 (hlow v hv)).trans hr.aligned
    obtain ⟨hlo, hlt⟩ := (same_iff halign).mp hsame.symm
    have hhi := hr.hi_eq
    omega
  have happart : (c.lo :: moved.map (·.lo)).Pairwise fun a b => ¬ Same keybits a b := by
    refine List.pairwise_cons.mpr ⟨fun b hb hsame => ?_, List.pairwise_map.mpr ?_⟩
    · obtain ⟨v, hv, rfl⟩ := List.mem_map.mp hb
      have hbetween := hslot v (hsub v hv).1 _ hsame
      have hle := hc.le
      rcases hnew v (hsub v hv).1 with hlt | hlt
      · omega
      · omega
    · have horder : moved.Pairwise fun a b => a.hi < b.lo := hmoved ▸ h.order.filter _
      refine horder.imp_of_mem fun {a b} ha hb hlt hsame => ?_
      have hbetween := hslot a (hsub a ha).1 _ hsame.symm
      omega
  have hcount := @slots_le keybits low nradix (c.lo :: moved.map (·.lo)) happart (by
    intro b hb
    rcases List.mem_cons.mp hb with rfl | hb
    · exact hin
    · obtain ⟨v, hv, rfl⟩ := List.mem_map.mp hb
      exact (hsub v hv).2)
  rwa [List.length_cons, List.length_map] at hcount

/-- The range of a round. -/
theorem indkey_data (h : Wf parent view) (hne : view ≠ []) (hloops : view.length < maxLoops)
    (hradix : indRadix (nbytes / 128) = some nradix) (hlow : Lowest view key keybits)
    (createKey : UInt64) (createBits : Nat) :
    ∃ c, indkey { parent with modified := true } .data createKey createBits (nbytes / 128) =
      some (Node.cache { parent with modified := true } c, key, keybits + nradix) := by
  obtain ⟨c, key', keybits', hlow', hspec⟩ := indkeyFile_spec (Wf.modified h) hne hloops createKey
    (nbytes / 128)
  obtain ⟨rfl, rfl⟩ := Lowest.unique hlow hlow'
  refine ⟨c, ?_⟩
  show indkeyFile _ createKey (nbytes / 128) = _
  rw [hspec, hradix]
  rfl

/-- **A round** over a range of at most 63 bits. -/
theorem createIndirect_data (h : Wf parent view) (hne : view ≠ [])
    (hfull : view.length = parent.base.length) (hsize : parent.base.length ≤ 512)
    (hbytes : indBytes kind .data parent.base.length = some nbytes)
    (hradix : indRadix (nbytes / 128) = some nradix) (hlow : Lowest view key keybits)
    (hbits : keybits + nradix < 64) (createKey : UInt64) (createBits : Nat)
    (block : UInt64 × Nat) :
    ∃ parent' bref ichain left moved,
      createIndirect kind parent createKey createBits .data none (.ok block) =
        some (.done parent' bref ichain
          (decide (Same (keybits + nradix) key.toNat createKey.toNat))) ∧
      bref.keybits.toNat = keybits + nradix ∧ Same (keybits + nradix) key.toNat bref.lo ∧
      moved = view.filter (fun v => decide (Same (keybits + nradix) key.toNat v.lo)) ∧
      (∃ n, Splits n view parent' bref ichain left moved) ∧
      parent'.base.length = parent.base.length ∧ ichain.base.length = nbytes / 128 := by
  have hloops := searches hfull hsize
  obtain ⟨c, hkey⟩ := indkey_data h hne hloops hradix hlow createKey createBits
  obtain ⟨hroom, -⟩ := indBytes_spec hbytes hsize
  have hlen : view.length < 100000 := by omega
  obtain ⟨dataOff, rest⟩ := block
  generalize hbref : ({ Bref.zero with
    type := .indirect, keybits := UInt8.ofNat (keybits + nradix)
    key := roundDown key (bit (keybits + nradix)), dataOff, rest } : Bref) = bref
  obtain ⟨halign, hround⟩ := roundDown_spec hbits key
  obtain ⟨p, ichain, parent', hloop, hcount, hins, hsplit, hplen, hilen⟩ :=
    @Chosen.split _ view key (keybits + nradix) ((Wf.modified h).cache c)
      (hlow.chosen (Nat.le_add_right _ _) hbits) hlen (Nat.le_of_eq hfull) (nbytes / 128)
      (Nat.le_trans (Nat.le_of_eq hfull) hroom) bref (by rw [← hbref]; rfl) (by rw [← hbref])
      (by rw [← hbref])
  refine ⟨parent', bref, ichain, _, _, ?_, ?_, ?_, ?_, ⟨_, hsplit⟩, hplen, hilen⟩
  · unfold createIndirect
    rw [if_neg (by exact Bool.false_ne_true)]
    show ((indBytes kind .data parent.base.length).bind _) = _
    rw [hbytes, Option.bind_some]
    show ((indkey _ .data createKey createBits (nbytes / 128)).bind _) = _
    rw [hkey, Option.bind_some]
    dsimp only
    rw [hloop, Option.bind_some]
    dsimp only
    rw [if_neg (not_not.mpr hcount)]
    show Option.map _ (chainInsert p ⟨{ Bref.zero with
      type := .indirect, keybits := UInt8.ofNat (keybits + nradix)
      key := roundDown key (bit (keybits + nradix)), dataOff, rest },
      ⟨false, false, false⟩⟩ true) = _
    rw [hbref, hins, Option.map_some]
    have hinside : roundDown (createKey ^^^ roundDown key (bit (keybits + nradix)))
        (bit (keybits + nradix)) = 0 ↔ Same (keybits + nradix) key.toNat createKey.toNat := by
      rw [roundDown_xor hbits]
      exact ⟨fun hs => (hs.trans hround).symm, fun hs => hs.symm.trans hround.symm⟩
    rw [decide_eq_decide.mpr hinside]
    exact congrArg (fun b => some (Outcome.done parent' b ichain _)) hbref
  · rw [← hbref]
    show (UInt8.ofNat (keybits + nradix)).toNat = _
    rw [UInt8.toNat_ofNat']
    omega
  · rw [← hbref]
    exact hround.symm
  · refine List.filter_congr fun v _ => decide_eq_decide.mpr ?_
    exact ⟨fun hs => hround.symm.trans hs, fun hs => hround.trans hs⟩

/-- What a round without a choice of range is: a panic. -/
theorem createIndirect_some (h : Wf parent view) (hne : view ≠ [])
    (hloops : view.length < maxLoops) {createKey : UInt64} {createBits : Nat}
    {ialloc : Except Nat (UInt64 × Nat)} {outcome : Outcome}
    (hsome : createIndirect kind parent createKey createBits .data none ialloc = some outcome) :
    ∃ nbytes nradix low keybits, indBytes kind .data parent.base.length = some nbytes ∧
      indRadix (nbytes / 128) = some nradix ∧ Lowest view low keybits := by
  unfold createIndirect at hsome
  rw [if_neg (by exact Bool.false_ne_true)] at hsome
  change (indBytes kind .data parent.base.length).bind _ = some outcome at hsome
  cases hbytes : indBytes kind .data parent.base.length with
  | none =>
      rw [hbytes] at hsome
      cases hsome
  | some nbytes =>
      rw [hbytes, Option.bind_some] at hsome
      obtain ⟨c, low, keybits, hlow, hspec⟩ := indkeyFile_spec (Wf.modified h) hne hloops createKey
        (nbytes / 128)
      change (indkeyFile _ createKey (nbytes / 128)).bind _ = some outcome at hsome
      rw [hspec] at hsome
      cases hradix : indRadix (nbytes / 128) with
      | none =>
          rw [hradix] at hsome
          cases hsome
      | some nradix => exact ⟨nbytes, nradix, low, keybits, rfl, hradix, hlow⟩

theorem createIndirect_error (h : Wf parent view) (hne : view ≠ [])
    (hloops : view.length < maxLoops)
    (hbytes : indBytes kind .data parent.base.length = some nbytes)
    (hradix : indRadix (nbytes / 128) = some nradix) (hlow : Lowest view key keybits)
    (createKey : UInt64) (createBits err : Nat) :
    ∃ parent', createIndirect kind parent createKey createBits .data none (.error err) =
      some (.error parent') := by
  obtain ⟨c, hkey⟩ := indkey_data h hne hloops hradix hlow createKey createBits
  refine ⟨Node.cache { parent with modified := true } c, ?_⟩
  unfold createIndirect
  rw [if_neg (by exact Bool.false_ne_true)]
  show ((indBytes kind .data parent.base.length).bind _) = _
  rw [hbytes, Option.bind_some]
  show ((indkey _ .data createKey createBits (nbytes / 128)).bind _) = _
  rw [hkey, Option.bind_some]

theorem rangeBits_data (h : Wf parent view) (hne : view ≠ []) (hloops : view.length < maxLoops)
    (hbytes : indBytes kind .data parent.base.length = some nbytes)
    (hradix : indRadix (nbytes / 128) = some nradix) (hlow : Lowest view key keybits)
    (createKey : UInt64) (createBits : Nat) :
    rangeBits kind parent createKey createBits .data none = some (keybits + nradix) := by
  obtain ⟨c, hkey⟩ := indkey_data h hne hloops hradix hlow createKey createBits
  unfold rangeBits
  rw [if_neg (by exact Bool.false_ne_true), hbytes, Option.bind_some]
  rw [hkey]
  rfl

/-- Two ranges are nested or apart. -/
theorem Ranged.nested {a b : Bref} (ha : Ranged a) (hb : Ranged b) :
    (a.lo ≤ b.lo ∧ b.hi ≤ a.hi) ∨ (b.lo ≤ a.lo ∧ a.hi ≤ b.hi) ∨ a.hi < b.lo ∨ b.hi < a.lo := by
  have hahi := ha.hi_eq
  have hbhi := hb.hi_eq
  have hapos : 0 < 2 ^ a.keybits.toNat := Nat.two_pow_pos _
  have hbpos : 0 < 2 ^ b.keybits.toNat := Nat.two_pow_pos _
  rcases Nat.le_total a.keybits.toNat b.keybits.toNat with hle | hle
  · rcases KeyRange.nested ha.aligned hb.aligned hle with ⟨-, hin⟩ | ⟨-, hout⟩
    · exact .inr (.inl (by omega))
    · exact .inr (.inr (by omega))
  · rcases KeyRange.nested hb.aligned ha.aligned hle with ⟨-, hin⟩ | ⟨-, hout⟩
    · exact .inl (by omega)
    · exact .inr (.inr (by omega))

theorem Ranged.same_iff {b : Bref} (hb : Ranged b) (k : Nat) :
    Same b.keybits.toNat b.lo k ↔ b.lo ≤ k ∧ k ≤ b.hi := by
  have hhi := hb.hi_eq
  have hpos : 0 < 2 ^ b.keybits.toNat := Nat.two_pow_pos _
  rw [KeyRange.same_iff hb.aligned]
  omega

/-- The range of a split is legal if the key is in it or two entries are. -/
theorem Splits.legal_iff (h : Wf parent view) {n parent' ichain : Node} {bref : Bref}
    {left moved : List Bref} (hs : Splits n view parent' bref ichain left moved) (hne : moved ≠ []) :
    Legal key parent parent' bref ichain ↔
      Same bref.keybits.toNat bref.lo key.toNat ∨ 2 ≤ moved.length := by
  obtain ⟨view', hview', hwf⟩ := hs.here
  have hbefore : parent.liveCount = ((moved.length + left.length : Nat) : Int) := by
    rw [h.count, hs.all.length_eq, List.length_append]
  have hafter : parent'.liveCount = ((left.length + 1 : Nat) : Int) := by
    rw [hwf.count, hview'.length_eq, List.length_cons]
  rw [Ranged.same_iff hs.range]
  constructor
  · intro hlegal
    refine hlegal.progress.imp_right fun hless => ?_
    omega
  · intro hprogress
    refine ⟨Nat.le_of_lt_succ hs.range.keybits, hs.range.aligned,
      ⟨view', hwf, hview'.mem_iff.mpr List.mem_cons_self⟩, ⟨moved, hs.there, hne, hs.inside⟩,
      hprogress.imp_right fun hless => ?_⟩
    omega

end Round

/-! ## The loop -/

section Loop

variable {kind : Kind} {parent : Node} {view : List Bref} {chain : Merged.Chain}
  {env : Nat → Option Nat × Except Nat (UInt64 × Nat)} {loops : Nat}

/-- With room in the parent the chain is inserted. -/
theorem retry_room (h : Wf (countbrefs parent) view) (hroom : view.length < parent.base.length)
    (hchain : Ranged chain.bref) (hflag : chain.flags.blkmapped = false)
    (hnew : ∀ v ∈ view, v.hi < chain.bref.lo ∨ chain.bref.hi < v.lo) :
    ∃ parent', retry env chain (loops + 1) kind parent = some (.inserted parent', []) := by
  obtain ⟨A, B, rfl, hA, hB⟩ := place h.order (fun v hv => (h.ranged v hv).le) hchain.le hnew
  obtain ⟨parent', hins, -⟩ := h.insert hchain hflag hA hB
  refine ⟨parent', ?_⟩
  have hcount := h.count
  have hbase := countbrefs_base parent
  unfold retry
  dsimp only
  rw [hbase, if_neg (by omega), if_neg (by omega), hins]
  rfl

/-- Without room there is a round. -/
theorem retry_full (h : Wf (countbrefs parent) view) (hfull : view.length = parent.base.length) :
    retry env chain (loops + 1) kind parent =
      (createIndirect kind (countbrefs parent) chain.bref.key chain.bref.keybits.toNat
        chain.bref.type (env loops).1 (env loops).2).bind fun outcome =>
          (match outcome with
            | .error parent => some (Ending.failed parent, [])
            | .done _ _ ichain true => retry env chain loops .indirect ichain
            | .done parent _ _ false => retry env chain loops kind parent).map
              fun (ending, rounds) => (ending, ⟨countbrefs parent, rangeBits kind
                (countbrefs parent) chain.bref.key chain.bref.keybits.toNat chain.bref.type
                (env loops).1, outcome⟩ :: rounds) := by
  have hcount := h.count
  have hbase := countbrefs_base parent
  rw [retry]
  dsimp only
  rw [hbase, if_neg (by omega), if_pos (by omega)]

/-- **After a legal round there is room.** -/
theorem retry_legal (h : Wf (countbrefs parent) view) (hne : view ≠ [])
    (hfull : view.length = parent.base.length) (hsize : parent.base.length ≤ 512)
    (hchain : Ranged chain.bref) (htype : chain.bref.type = .data)
    (hflag : chain.flags.blkmapped = false)
    (hnew : ∀ v ∈ view, v.hi < chain.bref.lo ∨ chain.bref.hi < v.lo) {nbytes nradix : Nat}
    (hbytes : indBytes kind .data parent.base.length = some nbytes)
    (hradix : indRadix (nbytes / 128) = some nradix) {low : UInt64} {keybits : Nat}
    (hlow : Lowest view low keybits) (hbits : keybits + nradix < 64) {block : UInt64 × Nat}
    (henv : env (loops + 1) = (none, .ok block))
    (hprogress : Same (keybits + nradix) low.toNat chain.bref.key.toNat ∨
      2 ≤ view.countP fun v => decide (Same (keybits + nradix) low.toNat v.lo)) :
    ∃ parent' r, retry env chain (loops + 2) kind parent = some (.inserted parent', [r]) ∧
      r.Legal chain.bref.key := by
  have hbase := countbrefs_base parent
  have hloops := searches hfull hsize
  obtain ⟨p, bref, ichain, left, moved, hcreate, hbrefbits, hround, hmoved, ⟨n, hs⟩, hplen, hilen⟩ :=
    createIndirect_data h hne (by rwa [hbase]) (by rwa [hbase]) (by rwa [hbase]) hradix hlow hbits
      chain.bref.key chain.bref.keybits.toNat block
  have hrange := rangeBits_data h hne hloops (by rwa [hbase]) hradix hlow
    chain.bref.key chain.bref.keybits.toNat
  -- the lowest entry has moved
  have hmem : ∃ e ∈ moved, e ∈ view := by
    obtain ⟨e, he, rfl, -⟩ := hlow.mem
    exact ⟨e, by rw [hmoved, List.mem_filter]; exact ⟨he, decide_eq_true (.refl _ _)⟩, he⟩
  have hlen : moved.length =
      view.countP fun v => decide (Same (keybits + nradix) low.toNat v.lo) := by
    rw [hmoved, List.countP_eq_length_filter]
  have hinside : Same bref.keybits.toNat bref.lo chain.bref.key.toNat ↔
      Same (keybits + nradix) low.toNat chain.bref.key.toNat := by
    rw [hbrefbits]
    exact ⟨fun hs => hround.trans hs, fun hs => hround.symm.trans hs⟩
  have hlegal : Legal chain.bref.key (countbrefs parent) p bref ichain := by
    refine (Splits.legal_iff h hs fun hnil => ?_).mpr ?_
    · obtain ⟨e, he, -⟩ := hmem
      rw [hnil] at he
      exact absurd he List.not_mem_nil
    · rwa [hinside, hlen]
  have hround : ∀ inside, Round.Legal chain.bref.key
      ⟨countbrefs parent, some (keybits + nradix), .done p bref ichain inside⟩ := by
    refine fun inside => ⟨fun bits heq => ?_, fun p' b' i' inside' heq => ?_⟩
    · cases heq
      exact Nat.le_of_lt_succ hbits
    · cases heq
      exact hlegal
  rw [retry_full h hfull, htype, henv]
  dsimp only
  rw [hcreate, Option.bind_some, hrange]
  have hnewin : ∀ v ∈ moved, v.hi < chain.bref.lo ∨ chain.bref.hi < v.lo := fun v hv =>
    hnew v (hs.all.mem_iff.mpr (List.mem_append_left left hv))
  by_cases hin : Same (keybits + nradix) low.toNat chain.bref.key.toNat
  · -- the key is in the new indirect block
    have hlt := moved_lt h (fun v hv => hlow.least v hv) hchain hnew hin
    rw [← hmoved, (indRadix_spec hradix).1, ← hilen] at hlt
    obtain ⟨parent', hdone⟩ := @retry_room .indirect ichain moved chain env loops hs.there hlt hchain
      hflag hnewin
    rw [decide_eq_true hin]
    dsimp only
    rw [hdone, Option.map_some]
    exact ⟨parent', _, rfl, hround true⟩
  · -- the parent has room
    obtain ⟨view', hview', hwf⟩ := hs.here
    have htwo : 2 ≤ moved.length := hlen ▸ hprogress.resolve_left hin
    have hsum := hs.all.length_eq
    rw [List.length_append] at hsum
    have hlt : view'.length < p.base.length := by
      rw [hview'.length_eq, List.length_cons, hplen, hbase]
      omega
    have hnew' : ∀ v ∈ view', v.hi < chain.bref.lo ∨ chain.bref.hi < v.lo := by
      intro v hv
      rcases List.mem_cons.mp (hview'.mem_iff.mp hv) with rfl | hv
      · rcases Ranged.nested hs.range hchain with hover | hunder | hapart
        · refine absurd (hinside.mp ((Ranged.same_iff hs.range _).mpr ⟨hover.1, ?_⟩)) hin
          exact Nat.le_trans hchain.le hover.2
        · -- the new block would be around the lowest entry
          obtain ⟨e, he, hev⟩ := hmem
          have hine := hs.inside e he
          have hle := (h.ranged e hev).le
          rcases hnew e hev with hlt | hlt
          · omega
          · omega
        · exact hapart
      · exact hnew v (hs.all.mem_iff.mpr (List.mem_append_right moved hv))
    obtain ⟨parent', hdone⟩ := @retry_room kind p view' chain env loops (by rwa [hwf.countbrefs_eq])
      hlt hchain hflag hnew'
    rw [decide_eq_false hin]
    dsimp only
    rw [hdone, Option.map_some]
    exact ⟨parent', _, rfl, hround false⟩

/-- A first round that is legal. -/
theorem legal_fits (h : Wf (countbrefs parent) view) (hne : view ≠ [])
    (hfull : view.length = parent.base.length) (hsize : parent.base.length ≤ 512)
    (htype : chain.bref.type = .data) (henv : (env loops).1 = none)
    (hinserts : ∃ ending rounds, retry env chain (loops + 1) kind parent = some (ending, rounds) ∧
      ∀ r ∈ rounds, r.Legal chain.bref.key) :
    Fits kind view parent.base.length chain.bref.key (env loops) := by
  have hbase := countbrefs_base parent
  have hloops := searches hfull hsize
  obtain ⟨ending, rounds, hretry, hlegal⟩ := hinserts
  rw [retry_full h hfull, htype, henv, Option.bind_eq_some_iff] at hretry
  obtain ⟨outcome, hcreate, hrest⟩ := hretry
  obtain ⟨⟨ending', rounds'⟩, -, heq⟩ := Option.map_eq_some_iff.mp hrest
  cases heq
  have hfirst := hlegal _ List.mem_cons_self
  obtain ⟨nbytes, nradix, low, keybits, hbytes, hradix, hlow⟩ :=
    createIndirect_some h hne hloops hcreate
  have hrange := rangeBits_data h hne hloops hbytes hradix hlow
    chain.bref.key chain.bref.keybits.toNat
  have hbits := hfirst.shift _ hrange
  refine .inr (.inr ⟨nbytes, nradix, low, keybits, by rwa [hbase] at hbytes, hradix, hlow, hbits,
    fun halloc => ?_⟩)
  cases hblock : (env loops).2 with
  | error err =>
      rw [hblock] at halloc
      exact absurd halloc Bool.false_ne_true
  | ok block =>
      obtain ⟨p, bref, ichain, left, moved, hdone, hbrefbits, hround, hmoved, ⟨n, hs⟩, -⟩ :=
        createIndirect_data h hne (by rwa [hbase]) (by rwa [hbase]) hbytes hradix hlow
          (Nat.lt_succ_of_le hbits) chain.bref.key chain.bref.keybits.toNat block
      rw [hblock, hdone] at hcreate
      cases hcreate
      have hnil : moved ≠ [] := by
        obtain ⟨e, he, rfl, -⟩ := hlow.mem
        refine List.ne_nil_of_mem (a := e) ?_
        rw [hmoved, List.mem_filter]
        exact ⟨he, decide_eq_true (.refl _ _)⟩
      have hprogress := (Splits.legal_iff h hs hnil).mp (hfirst.range _ _ _ _ rfl)
      rw [hbrefbits, hmoved, ← List.countP_eq_length_filter] at hprogress
      exact hprogress.imp_left fun hsame => hround.trans hsame

end Loop

/-! ## Every block -/

section Main

variable {kind : Kind} {parent : Node} {view : List Bref} {chain : Merged.Chain}
  {env : Nat → Option Nat × Except Nat (UInt64 × Nat)}

theorem retry_from {loops : Nat} (h : Wf (countbrefs parent) view)
    (hle : view.length ≤ parent.base.length) (hpos : 0 < parent.base.length)
    (hsize : parent.base.length ≤ 512) (hchain : Ranged chain.bref)
    (htype : chain.bref.type = .data) (hflag : chain.flags.blkmapped = false)
    (hnew : ∀ v ∈ view, v.hi < chain.bref.lo ∨ chain.bref.hi < v.lo) :
    (∃ ending rounds, retry env chain (loops + 2) kind parent = some (ending, rounds) ∧
      ∀ r ∈ rounds, r.Legal chain.bref.key) ↔
      Fits kind view parent.base.length chain.bref.key (env (loops + 1)) := by
  have hbase := countbrefs_base parent
  rcases Nat.lt_or_eq_of_le hle with hlt | hfull
  · obtain ⟨parent', hdone⟩ := @retry_room kind parent view chain env (loops + 1) h hlt hchain
      hflag hnew
    exact iff_of_true ⟨_, _, hdone, fun r hr => absurd hr List.not_mem_nil⟩ (.inl hlt)
  have hne : view ≠ [] := List.ne_nil_of_length_pos (hfull ▸ hpos)
  have hloops := searches hfull hsize
  cases herr : (env (loops + 1)).1 with
  | some err =>
      refine iff_of_true ?_ (.inr (.inl (by rw [herr]; rfl)))
      refine ⟨.failed (countbrefs parent), [⟨countbrefs parent, none, .error (countbrefs parent)⟩],
        ?_, fun r hr => ?_⟩
      · rw [retry_full h hfull, herr]
        rfl
      · obtain rfl := List.mem_singleton.mp hr
        refine ⟨fun bits heq => ?_, fun p' b' i' inside heq => ?_⟩
        · cases heq
        · cases heq
  | none =>
      refine ⟨legal_fits h hne hfull hsize htype herr, ?_⟩
      rintro (hlt | hsome | ⟨nbytes, nradix, low, keybits, hbytes, hradix, hlow, hbits, hprogress⟩)
      · omega
      · rw [herr] at hsome
        exact absurd hsome Bool.false_ne_true
      · cases hblock : (env (loops + 1)).2 with
        | error err =>
            -- the new indirect block is not allocated
            obtain ⟨p, hcreate⟩ := createIndirect_error h hne hloops (by rwa [hbase]) hradix hlow
              chain.bref.key chain.bref.keybits.toNat err
            have hrange := rangeBits_data h hne hloops (by rwa [hbase]) hradix hlow
              chain.bref.key chain.bref.keybits.toNat
            refine ⟨.failed p, [⟨countbrefs parent, some (keybits + nradix), .error p⟩], ?_,
              fun r hr => ?_⟩
            · rw [retry_full h hfull, htype, herr, hblock, hcreate, hrange]
              rfl
            · obtain rfl := List.mem_singleton.mp hr
              refine ⟨fun bits heq => ?_, fun p' b' i' inside heq => ?_⟩
              · cases heq
                exact hbits
              · cases heq
        | ok block =>
            obtain ⟨parent', r, hdone, hlegal⟩ := @retry_legal kind parent view chain env loops h hne
              hfull hsize hchain htype hflag hnew nbytes nradix hbytes hradix low keybits hlow
              (Nat.lt_succ_of_le hbits) block (Prod.ext herr hblock)
              (hprogress (by rw [hblock]; rfl))
            refine ⟨_, _, hdone, fun r' hr => ?_⟩
            obtain rfl := List.mem_singleton.mp hr
            exact hlegal

/-- **A block is inserted by legal rounds** exactly if the entries fit: there is room, or the
parent cannot be modified, or the range over the lowest of the smallest entries has at most 63
bits and, if it is allocated, is around the new key or around a second entry. -/
theorem retry_iff (h : Wf (countbrefs parent) view) (hle : view.length ≤ parent.base.length)
    (hpos : 0 < parent.base.length) (hsize : parent.base.length ≤ 512)
    (hchain : Ranged chain.bref) (htype : chain.bref.type = .data)
    (hflag : chain.flags.blkmapped = false)
    (hnew : ∀ v ∈ view, v.hi < chain.bref.lo ∨ chain.bref.hi < v.lo) :
    Inserts env chain kind parent ↔
      Fits kind view parent.base.length chain.bref.key (env 299998) := by
  unfold Inserts
  rw [show maxPasses = 299997 + 2 from rfl]
  exact retry_from h hle hpos hsize hchain htype hflag hnew

end Main

/-- The chain of a new block of 64KB. -/
def newBlock (key : UInt64) : Merged.Chain := ⟨dataAt key, ⟨false, false, false⟩⟩

/-- No errors. -/
def fine : Nat → Option Nat × Except Nat (UInt64 × Nat) := fun _ => (none, .ok (0, 0))

theorem newBlock_ranged {key : UInt64} (h : 65536 ∣ key.toNat) : Ranged (newBlock key).bref := by
  refine ⟨rfl, ?_, h⟩
  show (16 : UInt8).toNat < 64
  decide

theorem retry_iff_mixed : Inserts fine (newBlock 262144) (.inode false) mixed ↔
    Fits (.inode false) mixedView 4 262144 (fine 299998) :=
  retry_iff mixed_wf (by decide) (by decide) (by decide) (newBlock_ranged (by decide)) rfl rfl
    (by decide)

/-! ## Blocks far apart -/

/-- Four blocks of a file, `2 ^ 60` bytes from each other. -/
def sparseView : List Bref :=
  [dataAt 0, dataAt 0x1000000000000000, dataAt 0x2000000000000000, dataAt 0x3000000000000000]

def sparse : Node := ⟨⟨true, 0, 4, 4, 0, 0⟩, sparseView, [], 4, false⟩

theorem sparse_wf : Wf sparse sparseView where
  table := ⟨rfl, by decide, by decide, by decide, by decide, fun _ => ⟨_, rfl, rfl⟩⟩
  perm := by decide
  order := by decide
  ranged := by
    intro b hb
    simp only [sparseView, List.mem_cons, List.not_mem_nil, or_false] at hb
    rcases hb with rfl | rfl | rfl | rfl
    · exact ⟨rfl, by decide, by decide⟩
    · exact ⟨rfl, by decide, by decide⟩
    · exact ⟨rfl, by decide, by decide⟩
    · exact ⟨rfl, by decide, by decide⟩
  sorted := .nil
  mapped := fun c hc => absurd hc List.not_mem_nil
  same := fun c hc => absurd hc List.not_mem_nil
  count := rfl

set_option maxRecDepth 20000 in
/-- Every round has one entry only in its range, up to the last four, which have 65 bits. -/
theorem sparse_panics :
    (retry fine (newBlock 0x4000000000000000) maxPasses (.inode false) sparse).isNone = true := by
  decide

theorem sparse_not_inserted : Wf (countbrefs sparse) sparseView ∧
    (∀ v ∈ sparseView, v.type = .data ∧ 65536 ∣ v.lo ∧ v.hi < 2 ^ 63) ∧
    (∀ v ∈ sparseView, v.hi < (newBlock 0x4000000000000000).bref.lo ∨
      (newBlock 0x4000000000000000).bref.hi < v.lo) ∧
    ¬ Inserts fine (newBlock 0x4000000000000000) (.inode false) sparse := by
  refine ⟨sparse_wf, by decide, by decide, ?_⟩
  rintro ⟨ending, rounds, hretry, -⟩
  have hnone := sparse_panics
  rw [hretry] at hnone
  exact absurd hnone Bool.false_ne_true

end Hammer2.Chain.Retry
