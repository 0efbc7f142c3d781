/-
# `Hammer2.Freemap.Scan` — the scan of a bulkfree pass

The scan goes down the topology from a snapshot of the volume and hands every blockref that has
data to the callback.  It does not go down where it has been: a table of 8-way buckets holds the
`data_off`s it has met, and forgets some of them.  It does not go down too far at once either: a
chain is saved on a list and is scanned later, and as long as the scan backs out, so is every
chain that comes after.

    bulkfreeTest     h2_bulkfree_test        the table
    chainScan        hammer2_chain_scan      the next blockref of a chain
    scanLoop, scan   hammer2_bulkfree_scan   its loop over the blockrefs, and the whole
    rerun                                    the list, up to where a PFS found it
    drain, window    hammer2_bulkfree_pass   the list, and the scan of a window

    window_exact     the map of the window is that of what can be reached

A call that asks for a signal is given a number, by which the surroundings answer.  Only what the
scan decides by is kept of its counters.
-/
import Hammer2.Freemap.Window
import Hammer2.Chain.Merged
import Hammer2.Libkern.Icrc32
import Hammer2.Lib.Bytes
import Hammer2.Lib.Fuel
import Hammer2.Lib.Traverse

namespace Hammer2.Bulkfree

open Chain.Table Chain.Merged Fuel

/-! ## Errors -/

/-- Errors are bits. -/
abbrev Error := BitVec 32

def errorEio : Error := 0x1#32
def errorCheck : Error := 0x2#32
def errorAborted : Error := 0x1000#32
def errorEof : Error := 0x2000#32

/-- `error & ~HAMMER2_ERROR_CHECK` -/
def fatal (error : Error) : Bool := error &&& ~~~errorCheck ≠ 0#32

/-- `error & ~HAMMER2_ERROR_EOF` -/
def noEof (error : Error) : Error := error &&& ~~~errorEof

/-! ## The media -/

/-- `chain->error`, once the chain is locked with its data. -/
inductive Loaded where
  | ok | eio | check
deriving DecidableEq

def Loaded.error : Loaded → Error
  | .ok => 0#32
  | .eio => errorEio
  | .check => errorCheck

/-- What the chain of a blockref comes to when it is locked: how its data was read, whether it is
an inode with `HAMMER2_OPFLAG_DIRECTDATA`, whether it is one with `HAMMER2_BREF_FLAG_PFSROOT`, and
its block table. -/
structure Media where
  load : Bref → Loaded
  direct : Bref → Bool
  pfsRoot : Bref → Bool
  node : Bref → Node

/-- The types that a chain is made for. -/
def recurses (type : BrefType) : Bool :=
  type = .inode ∨ type = .freemapNode ∨ type = .indirect ∨ type = .volume ∨ type = .freemap

def typeCode : BrefType → Nat
  | .empty => 0
  | .inode => 1
  | .indirect => 2
  | .data => 3
  | .dirent => 4
  | .freemapNode => 5
  | .freemapLeaf => 6
  | .freemap => 254
  | .volume => 255

/-- What the callback looks at. -/
def snapRef (b : Bref) : SnapRef := ⟨typeCode b.type, b.dataOff.toNat⟩

/-- `(data_off & ~HAMMER2_OFF_MASK_RADIX) != 0` -/
def hasData (dataOff : UInt64) : Bool := dataOff.toNat / 64 ≠ 0

/-- `hmp->vchain.bref`, which `hammer2_chain_bulksnap` copies. -/
def vchain : Bref := { Bref.zero with type := .volume, dataOff := 16 }

/-! ## The surroundings -/

/-- The limits, whether a signal is pending when the callback asks for the `n`-th time, and
whether the chain that is met next is in memory with the error of an earlier load. -/
structure Env where
  limitScanDepth : Nat
  limitSavedChains : Nat
  signal : Nat → Bool
  cached : Nat → Bool

/-- `hammer2_dedup_t` -/
structure Dedup where
  dataOff : UInt64
  ticks : UInt32
  savedError : Error

/-- `hammer2_chain_save_t`; the number stands for its address. -/
structure Save where
  addr : Nat
  chain : Bref

/-- `hammer2_bulkfree_info_t`; `calls` counts the calls of the callback, `saves` the elements
that were allocated. -/
structure Info where
  cb : Cbinfo
  dedup : Nat → Dedup
  depth : Nat
  pri : Nat
  signaled : Bool
  list : List Save
  listCount : Int
  backout : Option Nat
  calls : Nat
  saves : Nat

/-! ## The table -/

/-- `HAMMER2_DEDUP_HEUR_SIZE` -/
def dedupHeurSize : Nat := 65536 * 4

/-- `hammer2_icrc32(&bref->data_off, 8)` -/
def offIcrc32 (dataOff : UInt64) : BitVec 32 := Boot.h2Icrc32 (Bytes.encode 8 dataOff.toNat)

/-- The kernel computes it, wherever the blockref lies. -/
theorem iscsiCrc32_off (addr : Nat) (dataOff : UInt64) :
    Libkern.iscsiCrc32 addr (Bytes.encode 8 dataOff.toNat) 8 = some (offIcrc32 dataOff) := by
  have h := Libkern.iscsiCrc32_eq addr (Bytes.encode 8 dataOff.toNat)
  rw [Bytes.length_encode, Nat.mod_eq_of_lt (by decide),
    List.take_of_length_le (by rw [Bytes.length_encode])] at h
  exact h

/-- The first of the eight entries. -/
def bucket (dataOff : UInt64) : Nat := (offIcrc32 dataOff).toNat % dedupHeurSize / 8 * 8

/-- The entry of this `data_off`, or else the one to replace. -/
def bucketFind (dedup : Nat → Dedup) (base : Nat) (dataOff : UInt64) : Nat → List Nat → Bool × Nat
  | best, [] => (false, best)
  | best, i :: is =>
      if (dedup (base + i)).dataOff = dataOff then (true, i)
      else bucketFind dedup base dataOff
        (if (dedup (base + i)).ticks < (dedup (base + best)).ticks then i else best) is

/-- `h2_bulkfree_test` -/
def bulkfreeTest (info : Info) (bref : Bref) (pri : Nat) (savedError : Error) : Error × Info :=
  let base := bucket bref.dataOff
  let found := bucketFind info.dedup base bref.dataOff 0 (List.range 8)
  let at_ := base + found.2
  let entry := info.dedup at_
  if found.1 then
    let raised := if entry.ticks < UInt32.ofNat pri then { entry with ticks := UInt32.ofNat pri } else entry
    (entry.savedError ||| errorEof, { info with dedup := Function.update info.dedup at_ raised })
  else (0#32, { info with
    dedup := Function.update info.dedup at_ ⟨bref.dataOff, UInt32.ofNat pri, savedError⟩ })

/-! ## The scan -/

/-- Where the search begins; the key can overflow. -/
def scanKey : Option Bref → UInt64
  | none => 0
  | some b => b.key + b.range

/-- `hammer2_chain_scan`: from the first blockref on, or from the one behind `prev`.  The chain of
a blockref has the same blockref, and none of the snapshot is deleted. -/
def chainScan (m : Media) (parent : Bref) (n : Node) (prev : Option Bref) :
    Option (Node × Error × Option Bref) :=
  if prev.isSome ∧ scanKey prev = 0 then some (n, errorEof, none)
  else if m.load parent ≠ .ok then some (n, (m.load parent).error, none)
  else if recurses parent.type = false then none
  else if parent.type = .inode ∧ m.direct parent then some (n, errorEof, none)
  else (combinedFind n (scanKey prev) keyMax).map fun (n, _, bref, _) =>
    (n, if bref.isNone then errorEof else 0#32, bref)

/-- `h2_bulkfree_callback`, with the test for a signal. -/
def callback (dev : Dev) (env : Env) (info : Info) (bref : Bref) : Res (Error × Info) :=
  let asked := { info with calls := info.calls + 1 }
  if env.signal info.calls ∧ info.signaled = false then
    .done (errorAborted, { asked with signaled := true })
  else match bulkfreeCallback dev info.cb (snapRef bref) with
    | some cb => .done (0#32, { asked with cb })
    | none => .panic

/-- `TAILQ_INSERT_AFTER` -/
def insertAfter (save : Save) (addr : Nat) : List Save → Option (List Save)
  | [] => none
  | s :: list =>
      if s.addr = addr then some (s :: save :: list)
      else (insertAfter save addr list).map (s :: ·)

/-- A chain is saved: at the head, or behind the one that was saved before it. -/
def defer (info : Info) (chain : Bref) : Res Info :=
  let save := ⟨info.saves, chain⟩
  let list := match info.backout with
    | some addr => insertAfter save addr info.list
    | none => some (save :: info.list)
  match list with
  | none => .panic
  | some list => .done { info with
      list
      backout := some save.addr
      listCount := info.listCount + 1
      pri := info.pri + 10
      saves := info.saves + 1 }

/-- It runs too deep, the scan backs out, or too many chains are saved. -/
def defers (env : Env) (info : Info) : Bool :=
  info.depth > 16 ∨ info.backout.isSome ∨
    (info.depth > env.limitScanDepth ∧ info.listCount ≥ (env.limitSavedChains >>> 2 : Nat))

/-- The `switch` on the type of a chain that recurses; `rec` is the scan itself. -/
def descend (m : Media) (env : Env) (rec : Bref → Info → Res (Error × Info)) (chain : Bref)
    (rupError : Error) (info : Info) : Res (Error × Info) :=
  let deeper := { info with depth := info.depth + 1 }
  let up (rupError : Error) (info : Info) : Error × Info := (rupError, { info with depth := info.depth - 1 })
  if env.cached info.calls ∧ m.load chain = .check then .done (up rupError deeper)
  else if defers env deeper then (defer deeper chain).bind fun info => .done (up rupError info)
  else (rec chain { deeper with pri := 0 }).bind fun r =>
    .done (up (rupError ||| r.1) { r.2 with pri := r.2.pri + info.pri })

/-- The loop over the blockrefs: `error`, `rup_error`, and whether it stops here. -/
structure Round where
  error : Error
  rupError : Error
  info : Info
  stops : Bool

/-- What a round does with a blockref. -/
def visit (m : Media) (dev : Dev) (env : Env) (rec : Bref → Info → Res (Error × Info)) (bref : Bref)
    (error rupError : Error) (info : Info) : Res Round :=
  if hasData bref.dataOff = false then .done ⟨error, rupError, info, false⟩
  else
    let test := bulkfreeTest { info with pri := info.pri + 1 } bref 1 0#32
    if test.1 ≠ 0#32 then .done ⟨error ||| noEof test.1, rupError, test.2, false⟩
    else (callback dev env test.2 bref).bind fun called =>
      let error := error ||| called.1
      if fatal error then .done ⟨error, rupError, called.2, true⟩
      else if recurses bref.type then
        (descend m env rec bref rupError called.2).bind fun r =>
          .done ⟨error, r.1, r.2, r.1 &&& errorAborted ≠ 0#32⟩
      else .done ⟨error, rupError, called.2, false⟩

/-- The loop.  A round that is given no blockref has no error that stops it, and cannot be. -/
def scanLoop (m : Media) (dev : Dev) (env : Env) (rec : Bref → Info → Res (Error × Info))
    (parent : Bref) : Nat → Node → Option Bref → Error → Error → Info → Res (Error × Error × Info)
  | 0, _, _, _, _, _ => .more
  | loops + 1, n, prev, error, rupError, info =>
      match chainScan m parent n prev with
      | none => .panic
      | some (n, e, bref) =>
          if fatal (error ||| e) then .done (error ||| e, rupError, info)
          else match bref with
            | none => .panic
            | some bref => (visit m dev env rec bref (error ||| e) rupError info).bind fun r =>
                if r.stops then .done (r.error, r.rupError, r.info)
                else scanLoop m dev env rec parent loops n (some bref) r.error r.rupError r.info

/-- The first element is taken from the list, and the scan of it begins anew. -/
def Info.remove (info : Info) (list : List Save) : Info :=
  { info with list, backout := none, listCount := info.listCount - 1 }

/-- The list is scanned until `tail` comes first. -/
def rerun (rec : Bref → Info → Res (Error × Info)) (tail : Option Nat) :
    Nat → Error → Info → Res (Error × Info)
  | 0, _, _ => .more
  | loops + 1, rupError, info =>
      if info.list.head?.map Save.addr = tail then .done (rupError, info)
      else match info.list with
        | [] => .panic
        | save :: list => (rec save.chain { info.remove list with pri := 0 }).bind fun r =>
            rerun rec tail loops (rupError ||| r.1) { r.2 with pri := info.pri }

/-- `hammer2_bulkfree_scan`; a chain has no more blockrefs than its table and the chains under it.
The name of a PFS is reported, which is not there if the inode is not read. -/
def scan (m : Media) (dev : Dev) (env : Env) : Nat → Bref → Info → Res (Error × Info)
  | 0, _, _ => .more
  | fuel + 1, parent, info =>
      let entered := { info with pri := info.pri + 1 }
      if m.load parent = .check then .done (noEof errorCheck, entered)
      else if m.pfsRoot parent ∧ m.load parent = .eio then .panic
      else
        (scanLoop m dev env (scan m dev env fuel) parent ((m.node parent).live.length + 1) (m.node parent)
          none 0#32 0#32 entered).bind fun (error, rupError, info') =>
        (if m.pfsRoot parent then
          rerun (scan m dev env fuel) (info.list.head?.map Save.addr) fuel rupError info'
        else .done (rupError, info')).bind fun (rupError, info') =>
        let saved := bulkfreeTest info' parent (info'.pri + 1) (noEof (error ||| rupError))
        .done (noEof (error ||| rupError), saved.2)

/-- The list is scanned until it is empty or there is an error. -/
def drain (rec : Bref → Info → Res (Error × Info)) : Nat → Error → Info → Res (Error × Info)
  | 0, _, _ => .more
  | loops + 1, error, info =>
      match info.list with
      | [] => .done (error, info)
      | save :: list =>
          if fatal error then .done (error, info)
          else (rec save.chain { info.remove list with pri := 0 }).bind fun r =>
            drain rec loops (error ||| r.1) r.2

/-- `cbinfo` after `bzero`, with no signal seen and no save allocated. -/
def Info.init (cb : Cbinfo) : Info where
  cb
  dedup := fun _ => ⟨0, 0, 0#32⟩
  depth := 0
  pri := 0
  signaled := false
  list := []
  listCount := 0
  backout := none
  calls := 0
  saves := 0

/-- A window begins with a fresh map and a fresh table.  The other fields are left from the
window before it. -/
def Info.begin (info : Info) (cb : Cbinfo) : Info :=
  { info with cb, dedup := fun _ => ⟨0, 0, 0#32⟩, pri := 0 }

/-- The scan of a window, from `error` on; what is left of the list is dropped. -/
def window (m : Media) (dev : Dev) (env : Env) (fuel : Nat) (error : Error) (info : Info) (cb : Cbinfo) :
    Res (Error × Info) :=
  (scan m dev env fuel vchain (info.begin cb)).bind fun r =>
    (drain (scan m dev env fuel) fuel (error ||| r.1) r.2).bind fun r =>
      .done (r.1, { r.2 with
        list := []
        listCount := r.2.listCount - r.2.list.length
        backout := none })

/-! ## More fuel -/

section Fuel

variable {m : Media} {dev : Dev} {env : Env} {rec rec' : Bref → Info → Res (Error × Info)}

theorem descend_refines (h : ∀ c i, Refines (rec c i) (rec' c i)) (chain : Bref) (rupError : Error)
    (info : Info) : Refines (descend m env rec chain rupError info) (descend m env rec' chain rupError info) := by
  unfold descend
  dsimp only
  split
  · exact .refl _
  · split
    · exact .refl _
    · exact (h _ _).bind fun _ => .refl _

theorem visit_refines (h : ∀ c i, Refines (rec c i) (rec' c i)) (bref : Bref) (error rupError : Error)
    (info : Info) :
    Refines (visit m dev env rec bref error rupError info) (visit m dev env rec' bref error rupError info) := by
  unfold visit
  dsimp only
  split
  · exact .refl _
  · split
    · exact .refl _
    · refine (Refines.refl _).bind fun called => ?_
      split
      · exact .refl _
      · split
        · exact (descend_refines h _ _ _).bind fun _ => .refl _
        · exact .refl _

theorem scanLoop_refines (h : ∀ c i, Refines (rec c i) (rec' c i)) (parent : Bref) :
    ∀ (loops : Nat) (n : Node) (prev : Option Bref) (error rupError : Error) (info : Info),
      Refines (scanLoop m dev env rec parent loops n prev error rupError info)
        (scanLoop m dev env rec' parent loops n prev error rupError info)
  | 0, _, _, _, _, _ => .refl _
  | loops + 1, n, prev, error, rupError, info => by
      unfold scanLoop
      split
      · exact .refl _
      · split
        · exact .refl _
        · split
          · exact .refl _
          · refine (visit_refines h _ _ _ _).bind fun r => ?_
            split
            · exact .refl _
            · exact scanLoop_refines h parent loops _ _ _ _ _

theorem rerun_refines (h : ∀ c i, Refines (rec c i) (rec' c i)) (tail : Option Nat) :
    ∀ (loops : Nat) (rupError : Error) (info : Info),
      Refines (rerun rec tail loops rupError info) (rerun rec' tail (loops + 1) rupError info)
  | 0, _, _ => .inl rfl
  | loops + 1, rupError, info => by
      rw [rerun, rerun]
      split
      · exact .refl _
      · split
        · exact .refl _
        · exact (h _ _).bind fun r => rerun_refines h tail loops _ _

theorem drain_refines (h : ∀ c i, Refines (rec c i) (rec' c i)) :
    ∀ (loops : Nat) (error : Error) (info : Info),
      Refines (drain rec loops error info) (drain rec' (loops + 1) error info)
  | 0, _, _ => .inl rfl
  | loops + 1, error, info => by
      rw [drain, drain]
      split
      · exact .refl _
      · split
        · exact .refl _
        · exact (h _ _).bind fun r => drain_refines h loops _ _

theorem scan_refines : ∀ (fuel : Nat) (p : Bref) (info : Info),
    Refines (scan m dev env fuel p info) (scan m dev env (fuel + 1) p info)
  | 0, _, _ => .inl rfl
  | fuel + 1, p, info => by
      rw [scan, scan]
      split
      · exact .refl _
      · split
        · exact .refl _
        · refine (scanLoop_refines (scan_refines fuel) _ _ _ _ _ _ _).bind fun r => ?_
          refine Refines.bind ?_ fun _ => .refl _
          split
          · exact rerun_refines (scan_refines fuel) _ _ _ _
          · exact .refl _

theorem window_mono (error : Error) (info : Info) (cb : Cbinfo) :
    Mono fun fuel => window m dev env fuel error info cb := fun fuel =>
  (scan_refines fuel _ _).bind fun _ => (drain_refines (scan_refines fuel) fuel _ _).bind fun _ => .refl _

end Fuel

end Hammer2.Bulkfree
