/-
# `Hammer2.Recover.Reach` — what can be reached from the directories a pass begins at

    content      a version of an inode, as its check code says it is
    Within       a blockref of a directory, or of one of its indirect blocks
    Step         from a directory to a version of an inode that one of its entries names
    Reached      a version, with the target and with what is left of the path
    FileSound    a file whose indirect blocks come to an end, and whose blocks can be decompressed
    Below        a path that does not climb out of a directory

The target gives what is left of the path: `Reached.remain_eq`.
-/
import Mathlib.Logic.Relation
import Mathlib.Logic.Function.Iterate
import Mathlib.Data.List.TakeWhile
import Hammer2.Recover.Dump

namespace Hammer2.Recover

open Fuel Relation
open Fsck (Volume Blockref getVolume pbufsize)

section Reach

variable (m : Recovery)

/-! ## What is there -/

/-- The version of an inode, when it is the one of the media pass. -/
def content (i : Nat) : Option (List UInt8) :=
  match rereadInode m i St.init with
  | .done (found, _) => found.map (·.2)
  | _ => none

/-- `npdata[]` of an indirect block with a right check code. -/
def indirect (b : Blockref) : Option (List Blockref) := (block m b).map blockrefs

/-- A blockref that leads to an indirect block, of a size that can be read. -/
structure IndirectAt (b : Blockref) : Prop where
  type : b.type = Fsck.brefTypeIndirect
  radix : radix b.dataOff ≠ 0
  usable : usable m b = true

inductive Within (base : List Blockref) : Blockref → Prop
  | here {b : Blockref} : b ∈ base → Within base b
  | down {b c : Blockref} {l : List Blockref} : Within base b → IndirectAt m b →
      indirect m b = some l → c ∈ l → Within base c

/-- What is left of the path after its next component. -/
def advance (remain : Path) : Path := skipSlashes (remain.drop (flen remain))

/-- The entry names the inode, under the name that the path asks for. -/
structure Names (remain : Path) (b : Blockref) (j : Nat) (name : Path) : Prop where
  type : b.type = Fsck.brefTypeDirent
  usable : usable m b = true
  entry : matchEntry m remain b = .done (some name)
  inum : inumOf m j = some b.inum
  direntType : typeOf m j = some b.direntType
  content : (content m j).isSome = true

/-- A directory that is scanned with this much of the path left. -/
structure Opens (i : Nat) (remain : Path) (ino : List UInt8) : Prop where
  type : typeOf m i = some objtypeDirectory
  content : content m i = some ino
  scanned : ¬ (m.isafile = true ∧ atEnd remain = true)

/-- A version of a regular file at the end of the path. -/
structure Wanted (i : Nat) (remain : Path) : Prop where
  type : typeOf m i = some objtypeRegfile
  atEnd : atEnd remain = true

/-- A call of `dump_tree`, the slashes skipped. -/
structure Pos where
  i : Nat
  dest : Path
  remain : Path
  depth : Nat

inductive Step : Pos → Pos → Prop
  | mk {p : Pos} {ino : List UInt8} {b : Blockref} {j : Nat} {name : Path} :
      Opens m p.i p.remain ino → Within m (Inode.blockset ino) b → Names m p.remain b j name →
      Step p ⟨j, join p.dest name, advance p.remain, p.depth + 1⟩

structure Start (p : Pos) : Prop where
  starts : starts m p.i = true
  content : (content m p.i).isSome = true
  dest : p.dest = m.destdir
  remain : p.remain = skipSlashes (wanted m)
  depth : p.depth = 1

def Reached (p : Pos) : Prop := ∃ p₀, Start m p₀ ∧ ReflTransGen (Step m) p₀ p

/-- A version of a regular file that is to be dumped. -/
def Found (i : Nat) : Prop := ∃ p, Reached m p ∧ p.i = i ∧ Wanted m p.i p.remain

/-! ## What a file asks for -/

/-- The decompressor is given bytes behind the end of the buffer. -/
def Overruns (b : Blockref) (block : List UInt8) : Prop :=
  b.decComp = 2 ∧ 2 ^ (b.keybits % 64) ≤ pbufsize ∧
    cinsize (onStack block fun _ => 0) ≤ block.length ∧
    pbufsize < 4 + cinsize (onStack block fun _ => 0)

/-- A block that a file has. -/
structure FileBlock (b : Blockref) (l : List UInt8) : Prop where
  type : b.type ≠ Fsck.brefTypeEmpty
  dataOff : b.dataOff ≠ 0
  size : psize b.dataOff ≤ pbufsize
  block : block m b = some l

/-- There is no infinite descent through the indirect blocks of a file, and its data can be
decompressed in place. -/
inductive FileSound : List Blockref → Prop
  | mk {base : List Blockref} :
      (∀ b ∈ base, ∀ l, FileBlock m b l → b.type = Fsck.brefTypeData → ¬ Overruns b l) →
      (∀ b ∈ base, ∀ l, FileBlock m b l → b.type = Fsck.brefTypeIndirect → FileSound (blockrefs l)) →
      FileSound base

def FileFine (i : Nat) : Prop :=
  ∀ ino, content m i = some ino → Inode.directdata ino = false → FileSound m (Inode.blockset ino)

end Reach

/-! ## Containment -/

/-- The depth after a component, `none` above the directory. -/
def enter (n : Nat) (comp : Path) : Option Nat :=
  if comp = [] ∨ comp = [46] then some n
  else if comp = [46, 46] then (if n = 0 then none else some (n - 1))
  else some (n + 1)

/-- The path, of which a part of a component was read, does not leave the directory. -/
def stays (n : Nat) (comp : Path) : Path → Bool
  | [] => (enter n comp).isSome
  | c :: path =>
      if c = slash then
        match enter n comp with
        | none => false
        | some n => stays n [] path
      else stays n (comp ++ [c]) path

/-- A path under a directory, and not above it on its way. -/
def Below (dir path : Path) : Prop := ∃ rest, path = dir ++ slash :: rest ∧ stays 0 [] rest = true

theorem stays_of_long {n : Nat} : ∀ {path comp : Path}, slash ∉ path →
    2 < comp.length + path.length → stays n comp path = true
  | [], comp, _, hlen => by
      have h₁ : comp ≠ [] := fun h => by rw [h] at hlen; exact absurd hlen (by decide)
      have h₂ : comp ≠ [46] := fun h => by rw [h] at hlen; exact absurd hlen (by decide)
      have h₃ : comp ≠ [46, 46] := fun h => by rw [h] at hlen; exact absurd hlen (by decide)
      rw [stays, enter, if_neg (not_or.mpr ⟨h₁, h₂⟩), if_neg h₃]
      rfl
  | c :: path, comp, hslash, hlen => by
      have hc : c ≠ slash := fun h => hslash (h ▸ List.mem_cons_self)
      rw [stays, if_neg hc]
      refine stays_of_long (fun h => hslash (List.mem_cons_of_mem c h)) ?_
      rw [List.length_append, List.length_singleton]
      rw [List.length_cons] at hlen
      omega

/-- A suffix that is no component of its own does not matter. -/
theorem stays_append {sfx sfx' : Path} (hs : slash ∉ sfx ∧ 2 < sfx.length)
    (hs' : slash ∉ sfx' ∧ 2 < sfx'.length) : ∀ {n : Nat} {comp path : Path},
    stays n comp (path ++ sfx) = stays n comp (path ++ sfx')
  | n, comp, [] => by
      rw [List.nil_append, List.nil_append, stays_of_long hs.1 (by omega),
        stays_of_long hs'.1 (by omega)]
  | n, comp, c :: path => by
      rw [List.cons_append, List.cons_append, stays, stays]
      split
      · cases enter n comp with
        | none => rfl
        | some n => exact stays_append hs hs'
      · exact stays_append hs hs'

/-- Files are named after a target that is under the directory. -/
theorem Below.append {dir dest sfx sfx' : Path} (hs : slash ∉ sfx ∧ 2 < sfx.length)
    (hs' : slash ∉ sfx' ∧ 2 < sfx'.length) (hdest : ∃ rest, dest = dir ++ slash :: rest)
    (h : Below dir (dest ++ sfx)) : Below dir (dest ++ sfx') := by
  obtain ⟨rest, rfl⟩ := hdest
  obtain ⟨rest', heq, hstays⟩ := h
  have hrest : rest' = rest ++ sfx := by simpa using heq.symm
  refine ⟨rest ++ sfx', by simp, ?_⟩
  rw [← stays_append hs hs', ← hrest]
  exact hstays

/-! ## Names -/

section Names

variable {m : Recovery} {b : Blockref} {remain name : Path} {n : Nat}

theorem access_of_le {α : Type} {off len size : Nat} {k : Res α} (h : off + len ≤ size) :
    access off len size k = k := if_pos h

theorem psize_of_le {off : Nat} (h : radix off ≤ 16) : psize off ≤ pbufsize := by
  rw [psize, if_neg (by omega)]
  exact Nat.pow_le_pow_right Nat.two_pos h

theorem length_block {l : List UInt8} (h : block m b = some l) : l.length = psize b.dataOff := by
  rw [block] at h
  cases hvol : getVolume m.fso b.dataOff with
  | none => rw [hvol] at h; cases h
  | some vol =>
      cases hread : vol.read (poff vol b.dataOff) (psize b.dataOff) with
      | none => simp only [hvol, hread] at h; cases h
      | some data =>
          simp only [hvol, hread] at h
          split at h
          · cases h
            rw [List.length_map, List.length_range]
          · cases h

theorem readBlock_eq (h : psize b.dataOff ≤ pbufsize) : readBlock m b = .done (block m b) :=
  access_of_le (by omega)

/-- No name is copied behind the end of a buffer, and it has the length that was asked for. -/
theorem checkFilename_spec {filename : Option Path} {flen : Nat}
    (hname : ∀ name, filename = some name → flen ≤ name.length) :
    ∃ r, checkFilename m b filename flen = .done r ∧
      ∀ name, filename = some name → ∀ found, r = some found → found = name.take flen := by
  unfold checkFilename
  split
  · exact ⟨none, rfl, nofun⟩
  next hlen =>
  split
  · next h64 =>
    rw [access_of_le (by omega), access_of_le (by omega)]
    cases filename with
    | none => exact ⟨_, rfl, nofun⟩
    | some name =>
        have hle := hname name rfl
        refine ⟨_, access_of_le (by omega), ?_⟩
        intro name' hname' found hfound
        cases hname'
        split at hfound
        · next heq => exact (Option.some.inj hfound).symm.trans heq.symm
        · cases hfound
  split
  · exact ⟨none, rfl, nofun⟩
  next hradix =>
  split
  · exact ⟨none, rfl, nofun⟩
  next hfit =>
  split
  · exact ⟨none, rfl, nofun⟩
  rw [readBlock_eq (psize_of_le (by omega)), Res.bind_done]
  cases hblock : block m b with
  | none => exact ⟨none, rfl, nofun⟩
  | some l =>
      have hl := length_block hblock
      simp only
      rw [access_of_le (by omega), access_of_le (by omega)]
      cases filename with
      | none => exact ⟨_, rfl, nofun⟩
      | some name =>
          have hle := hname name rfl
          refine ⟨_, access_of_le (by omega), ?_⟩
          intro name' hname' found hfound
          cases hname'
          split at hfound
          · next heq => exact (Option.some.inj hfound).symm.trans heq.symm
          · cases hfound

theorem flen_le (remain : Path) : flen remain ≤ remain.length := (List.takeWhile_prefix _).length_le

theorem take_flen (remain : Path) :
    remain.take (flen remain) = remain.takeWhile fun c => c ≠ 0 ∧ c ≠ slash :=
  (List.prefix_iff_eq_take.mp (List.takeWhile_prefix _)).symm

/-- A component that is matched is the name of the entry. -/
theorem matchEntry_spec (m : Recovery) (remain : Path) (b : Blockref) :
    ∃ r, matchEntry m remain b = .done r ∧ ∀ name, r = some name → flen remain ≠ 0 →
      name.takeWhile (· ≠ 0) = name ∧ name.length = flen remain := by
  rw [matchEntry]
  split
  · next h0 =>
    obtain ⟨r, hr, _⟩ := @checkFilename_spec m b none b.namlen nofun
    exact ⟨r, hr, fun _ _ hne => absurd h0 hne⟩
  split
  · obtain ⟨r, hr, hfound⟩ := @checkFilename_spec m b (some remain) (flen remain) fun name h => by
      cases h
      exact flen_le remain
    refine ⟨r, hr, fun name hname _ => ?_⟩
    rw [hfound remain rfl name hname]
    refine ⟨?_, List.length_take_of_le (flen_le remain)⟩
    rw [take_flen, List.takeWhile_eq_self_iff]
    intro c hc
    have hc' := List.mem_takeWhile_imp hc
    simp only [ne_eq, decide_eq_true_eq] at hc' ⊢
    exact hc'.1
  · exact ⟨none, rfl, nofun⟩

end Names

/-! ## The path -/

section Path

variable {m : Recovery}

/-- What is left of the path after some components. -/
def rest (m : Recovery) (k : Nat) : Path := advance^[k] (skipSlashes (wanted m))

theorem rest_succ (k : Nat) : rest m (k + 1) = advance (rest m k) :=
  Function.iterate_succ_apply' advance k _

theorem atEnd_cons {c : UInt8} {l : Path} (h : atEnd (c :: l) = true) : c = 0 := by
  simpa [atEnd] using h

theorem flen_of_atEnd {remain : Path} (h : atEnd remain = true) : flen remain = 0 := by
  cases remain with
  | nil => rfl
  | cons c l =>
      have hc := atEnd_cons h
      simp [flen, hc]

theorem advance_of_atEnd {remain : Path} (h : atEnd remain = true) : advance remain = remain := by
  rw [advance, flen_of_atEnd h, List.drop_zero, skipSlashes]
  cases remain with
  | nil => rfl
  | cons c l =>
      have hc := atEnd_cons h
      simp [hc, slash]

/-- Behind its end there is nothing left of the path. -/
theorem rest_of_atEnd {j : Nat} (h : atEnd (rest m j) = true) : ∀ k, j ≤ k → rest m k = rest m j := by
  intro k hk
  induction hk with
  | refl => rfl
  | step _ ih => rw [rest_succ, ih, advance_of_atEnd h]

/-- The slashes are skipped. -/
theorem flen_rest_ne {k : Nat} (h : atEnd (rest m k) = false) : flen (rest m k) ≠ 0 := by
  have hhead : ∀ l : Path, (skipSlashes l).headD 0 = slash → False := by
    intro l hl
    induction l with
    | nil => exact absurd hl (by decide)
    | cons c l ih =>
        rw [skipSlashes, List.dropWhile_cons] at hl
        split at hl
        · exact ih hl
        · next hc => exact hc (decide_eq_true hl)
  obtain ⟨l, hl⟩ : ∃ l, rest m k = skipSlashes l := by
    cases k with
    | zero => exact ⟨_, rfl⟩
    | succ k => exact ⟨_, rest_succ k⟩
  cases hr : rest m k with
  | nil => rw [hr] at h; cases h
  | cons c cs =>
      have hslash : c ≠ slash := fun hc => by
        refine hhead l ?_
        rw [← hl, hr]
        exact hc
      have h0 : c ≠ 0 := fun hc => by
        rw [hr, hc] at h
        cases h
      simp [flen, h0, hslash]

/-- The length of a target after `k` components. -/
def destLen (m : Recovery) : Nat → Nat
  | 0 => m.destdir.length
  | k + 1 => destLen m k + 1 + flen (rest m k)

theorem destLen_lt {j k : Nat} (h : j < k) : destLen m j < destLen m k := by
  induction h with
  | refl => exact Nat.lt_of_lt_of_le (Nat.lt_succ_self _) (Nat.le_add_right _ _)
  | step _ ih => exact ih.trans (Nat.lt_of_lt_of_le (Nat.lt_succ_self _) (Nat.le_add_right _ _))

/-- **A version that is reached**: after `depth - 1` entries. -/
structure Along (m : Recovery) (p : Pos) : Prop where
  depth : 1 ≤ p.depth
  remain : p.remain = rest m (p.depth - 1)
  long : destLen m (p.depth - 1) ≤ p.dest.length
  tight : (∀ j < p.depth - 1, atEnd (rest m j) = false) → p.dest.length = destLen m (p.depth - 1)
  base : p.depth = 1 → p.dest = m.destdir ∧ typeOf m p.i = some objtypeDirectory
  below : p.depth ≠ 1 → ∃ r, p.dest = m.destdir ++ slash :: r
  content : (content m p.i).isSome = true

theorem Start.along {p : Pos} (h : Start m p) : Along m p := by
  have hd : p.depth - 1 = 0 := by rw [h.depth]
  refine ⟨h.depth.ge, ?_, ?_, ?_, fun _ => ⟨h.dest, ?_⟩, fun hne => absurd h.depth hne, h.content⟩
  · rw [hd, h.remain]
    rfl
  · rw [hd, h.dest]
    exact le_rfl
  · intro _
    rw [hd, h.dest]
    rfl
  · have hstarts := h.starts
    exact (of_decide_eq_true hstarts).1

theorem Along.step {p q : Pos} (h : Along m p) (hs : Step m p q) : Along m q := by
  cases hs with
  | @mk ino b j name hopen hb hn =>
  obtain ⟨k, hk⟩ : ∃ k, p.depth = k + 1 := ⟨p.depth - 1, (Nat.sub_add_cancel h.depth).symm⟩
  have hrem := h.remain
  have hlong := h.long
  have htight := h.tight
  rw [hk, Nat.add_sub_cancel] at hrem hlong htight
  obtain ⟨r, hr, hname⟩ := matchEntry_spec m p.remain b
  have hsome : r = some name := Res.done.inj (hr.symm.trans hn.entry)
  have hlen : (join p.dest name).length = p.dest.length + 1 + (name.takeWhile (· ≠ 0)).length := by
    rw [join, List.length_append, List.length_cons]
    omega
  have hcomp : flen (rest m k) ≠ 0 → (name.takeWhile (· ≠ 0)).length = flen (rest m k) := by
    intro hne
    rw [← hrem] at hne ⊢
    obtain ⟨heq, hl⟩ := hname name hsome hne
    rw [heq, hl]
  refine ⟨Nat.le_add_left 1 _, ?_, ?_, ?_, fun h1 => absurd h1 (by
    show p.depth + 1 ≠ 1
    omega), ?_, hn.content⟩
  · show advance p.remain = rest m (p.depth + 1 - 1)
    rw [Nat.add_sub_cancel, hk, rest_succ, hrem]
  · show destLen m (p.depth + 1 - 1) ≤ (join p.dest name).length
    rw [Nat.add_sub_cancel, hk, destLen, hlen]
    rcases Nat.eq_zero_or_pos (flen (rest m k)) with h0 | hpos
    · omega
    · rw [hcomp hpos.ne']
      omega
  · intro hne
    show (join p.dest name).length = destLen m (p.depth + 1 - 1)
    rw [Nat.add_sub_cancel, hk, destLen, hlen, htight fun j hj => hne j (by
      show j < p.depth + 1 - 1
      omega), hcomp (flen_rest_ne (hne k (by
      show k < p.depth + 1 - 1
      omega)))]
  · intro _
    by_cases h1 : p.depth = 1
    · refine ⟨name.takeWhile (· ≠ 0), ?_⟩
      show join p.dest name = _
      rw [join, (h.base h1).1]
    · obtain ⟨r, hr⟩ := h.below h1
      refine ⟨r ++ slash :: name.takeWhile (· ≠ 0), ?_⟩
      show join p.dest name = _
      rw [join, hr, List.append_assoc, List.cons_append]

theorem Reached.along {p : Pos} (h : Reached m p) : Along m p := by
  obtain ⟨p₀, hstart, hsteps⟩ := h
  induction hsteps with
  | refl => exact hstart.along
  | tail _ hs ih => exact ih.step hs

theorem Reached.step {p q : Pos} (h : Reached m p) (hs : Step m p q) : Reached m q := by
  obtain ⟨p₀, hstart, hsteps⟩ := h
  exact ⟨p₀, hstart, hsteps.tail hs⟩

theorem Start.reached {p : Pos} (h : Start m p) : Reached m p := ⟨p, h, .refl⟩

/-- Of two versions at one target the one cannot be ahead on the path. -/
theorem Along.remain_le {p q : Pos} (hp : Along m p) (hq : Along m q) (hdest : p.dest = q.dest)
    (hle : p.depth ≤ q.depth) : p.remain = q.remain := by
  have hk : p.depth - 1 ≤ q.depth - 1 := Nat.sub_le_sub_right hle 1
  rw [hp.remain, hq.remain]
  by_cases hend : atEnd (rest m (p.depth - 1)) = true
  · exact (rest_of_atEnd hend _ hk).symm
  · -- before the end of the path the length of the target is known
    have hbefore : ∀ j < p.depth - 1, atEnd (rest m j) = false := by
      intro j hj
      refine Bool.eq_false_iff.mpr fun h => hend ?_
      rw [rest_of_atEnd h _ hj.le]
      exact h
    have hlen : destLen m (q.depth - 1) ≤ destLen m (p.depth - 1) := by
      rw [← hp.tight hbefore, hdest]
      exact hq.long
    rcases Nat.eq_or_lt_of_le hk with heq | hlt
    · rw [heq]
    · exact absurd (destLen_lt hlt) (Nat.not_lt.mpr hlen)

/-- **The target gives what is left of the path.** -/
theorem Reached.remain_eq {p q : Pos} (hp : Reached m p) (hq : Reached m q)
    (hdest : p.dest = q.dest) : p.remain = q.remain := by
  rcases Nat.le_total p.depth q.depth with hle | hle
  · exact hp.along.remain_le hq.along hdest hle
  · exact (hq.along.remain_le hp.along hdest.symm hle).symm

end Path

/-! ## What is asked of a pass -/

section Claim

variable (m : Recovery)

/-- The path that an event makes. -/
def Event.made : Event → Option Path
  | .mkdir path => some path
  | .link _ path => some path
  | .openFile _ path => some path
  | .rename path => some path
  | .write _ => none
  | .pwrite _ _ => none

/-- The version of a file that an event dumps: it is linked to the dump that is there, or
written. -/
def Event.dumps : Event → Option Nat
  | .link i _ => some i
  | .openFile i _ => some i
  | _ => none

def Dumped (s : St) (i : Nat) : Prop := ∃ e ∈ s.log, e.dumps = some i

/-- **The pass** ends without a use of a byte outside of a buffer, makes nothing outside of the
target directory, and dumps every version that is to be dumped. -/
def Recovers : Prop :=
  ∃ n s, cmdRecover m n = .done s ∧
    (∀ e ∈ s.log, ∀ path, e.made = some path → Below m.destdir path) ∧
    ∀ i, Found m i → Dumped s i

/-- **What the filters of a pass rely on.**  Targets stay in the target directory.  Blockrefs of
one target that lead to the same place, and are both scanned, are both right or both wrong.  A
directory that is met again on its own path, or deeper than `REPINODEDEPTH`, is met with as much
of the path left. -/
structure Passes : Prop where
  dirs : ∀ p ino, Reached m p → p.depth ≠ 1 → Opens m p.i p.remain ino → Below m.destdir p.dest
  files : ∀ p, Reached m p → Wanted m p.i p.remain → Below m.destdir (versionPath p.dest 1)
  blocks : ∀ p q ino ino' b b', Reached m p → Reached m q → p.dest = q.dest →
    Opens m p.i p.remain ino → Opens m q.i q.remain ino' → Within m (Inode.blockset ino) b →
    Within m (Inode.blockset ino') b' → IndirectAt m b → IndirectAt m b' →
    b.dataOff = b'.dataOff → indirect m b = indirect m b'
  again : ∀ p q ino ino', Reached m p → p.depth ≠ 1 → TransGen (Step m) p q → p.i = q.i →
    Opens m p.i p.remain ino → Opens m q.i q.remain ino' → p.remain = q.remain
  deep : ∀ p q ino ino', Reached m p → Reached m q → p.depth ≠ 1 → 256 < q.depth → p.i = q.i →
    Opens m p.i p.remain ino → Opens m q.i q.remain ino' → p.remain = q.remain

end Claim

end Hammer2.Recover
