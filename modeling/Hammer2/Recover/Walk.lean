/-
# `Hammer2.Recover.Walk` — a call of `dump_tree`

    Inv         what was entered, scanned and made, at any time of a pass
    TreeOk      a call on a version that is reached ends, and the version has been seen
    DirOk       the same of a scan of blockrefs
    treeOk      both, by induction on the inodes that are not on the path and on the indirect blocks
                that are not recorded for the target

An entry that a filter drops leads to what was entered before; that is what `Passes` is for.
-/
import Hammer2.Recover.File

namespace Hammer2.Recover

open Fuel Relation
open Fsck (Volume Blockref getVolume pbufsize)

/-! ## More fuel refines -/

section Mono

variable {m : Recovery}

theorem dumpVersion_refines {tree tree' : Nat → Path → Path → Nat → St → Res St}
    (h : ∀ i dest remain depth s, Refines (tree i dest remain depth s) (tree' i dest remain depth s))
    (b : Blockref) (path remain : Path) (depth : Nat) (s : St) (i : Nat) :
    Refines (dumpVersion m tree b path remain depth s i)
      (dumpVersion m tree' b path remain depth s i) := by
  rw [dumpVersion, dumpVersion]
  split
  · exact (h _ _ _ _ _).bind fun _ => .refl _
  · exact .refl _

theorem dumpDirBref_refines {tree tree' : Nat → Path → Path → Nat → St → Res St}
    {down down' : List Blockref → St → Res (Bool × St)}
    (h : ∀ i dest remain depth s, Refines (tree i dest remain depth s) (tree' i dest remain depth s))
    (h' : ∀ l s, Refines (down l s) (down' l s)) (dest remain : Path) (depth : Nat)
    (r : Bool × St) (b : Blockref) :
    Refines (dumpDirBref m tree down dest remain depth r b)
      (dumpDirBref m tree' down' dest remain depth r b) := by
  rw [dumpDirBref, dumpDirBref]
  split
  · exact .refl _
  split
  · exact .refl _
  split
  · refine (Refines.refl _).bind fun name => ?_
    cases name with
    | none => exact .refl _
    | some name =>
        exact (Refines.foldl (fun s i => dumpVersion_refines h _ _ _ _ s i) _ _).bind fun _ => .refl _
  split
  · split
    · exact .refl _
    split
    · exact .refl _
    refine (Refines.refl _).bind fun blk => ?_
    cases blk with
    | none => exact .refl _
    | some l => exact (h' _ _).bind fun _ => .refl _
  · exact .refl _

theorem dumpInode_refines {scan scan' : Path → List Blockref → St → Res (Bool × St)}
    (h : ∀ r base s, Refines (scan r base s) (scan' r base s)) (n i : Nat) (iscan : InodeEntry)
    (ino : List UInt8) (dest remain : Path) (depth : Nat) (s : St) :
    Refines (dumpInode m scan n i iscan ino dest remain depth s)
      (dumpInode m scan' (n + 1) i iscan ino dest remain depth s) := by
  rw [dumpInode, dumpInode]
  split
  · exact .refl _
  split
  · exact .refl _
  dsimp only
  split
  · split
    · exact .refl _
    · exact (h _ _ _).bind fun _ => .refl _
  split
  · split
    · exact dumpInumFile_mono _ _ _ _ n
    · exact .refl _
  · exact .refl _

theorem dump_mono (m : Recovery) : ∀ n,
    (∀ i dest remain depth s,
      Refines (dumpTree m n i dest remain depth s) (dumpTree m (n + 1) i dest remain depth s)) ∧
    ∀ dest remain base depth s,
      Refines (dumpDirData m n dest remain base depth s)
        (dumpDirData m (n + 1) dest remain base depth s)
  | 0 => ⟨fun _ _ _ _ _ => .inl rfl, fun _ _ _ _ _ => .inl rfl⟩
  | n + 1 => by
      obtain ⟨htree, hdir⟩ := dump_mono m n
      constructor
      · intro i dest remain depth s
        rw [dumpTree, dumpTree]
        refine (Refines.refl _).bind fun r => ?_
        obtain ⟨found, s⟩ := r
        cases found with
        | none => exact .refl _
        | some found => exact dumpInode_refines (fun r base s => hdir dest r base depth s) _ _ _ _ _ _ _ _
      · intro dest remain base depth s
        rw [dumpDirData, dumpDirData]
        exact Refines.foldl (dumpDirBref_refines htree (fun l s => hdir _ _ l _ s) _ _ _) base _

theorem dumpTree_mono (i : Nat) (dest remain : Path) (depth : Nat) (s : St) :
    Mono fun n => dumpTree m n i dest remain depth s :=
  fun n => (dump_mono m n).1 i dest remain depth s

theorem dumpDirData_mono (dest remain : Path) (base : List Blockref) (depth : Nat) (s : St) :
    Mono fun n => dumpDirData m n dest remain base depth s :=
  fun n => (dump_mono m n).2 dest remain base depth s

end Mono

/-! ## The inode -/

section Inode

variable {m : Recovery} {i : Nat} {ino : List UInt8} {s : St}

theorem compareInode_spec (iscan : InodeEntry) (c : Cache) (off : Nat) :
    ∃ found, compareInode m iscan (cacheRead m.fso c off).1 = .done found ∧
      ∀ r, found = some r → r.1 = iscan ∧ r.2.length = Inode.bytes := by
  have hfits := @cacheRead_fits m.fso c off
  generalize (cacheRead m.fso c off).1 = read at hfits
  obtain ⟨bytes, found⟩ := read
  cases found with
  | none => exact ⟨none, rfl, nofun⟩
  | some found =>
      obtain ⟨buf, o⟩ := found
      unfold compareInode
      dsimp only
      split
      · exact ⟨none, rfl, nofun⟩
      · next hbytes =>
        rw [not_not] at hbytes
        rw [access_of_le (hfits rfl hbytes)]
        split
        · exact ⟨none, rfl, nofun⟩
        · refine ⟨_, rfl, fun r hr => ?_⟩
          cases hr
          exact ⟨rfl, by rw [List.length_map, List.length_range]⟩

theorem rereadInode_eq {iscan : InodeEntry} {read : Nat × Option ((Nat → UInt8) × Nat)}
    {cache : Cache} {found : Option (InodeEntry × List UInt8)} (hi : m.inodes[i]? = some iscan)
    (hread : cacheRead m.fso s.cache iscan.dataOff = (read, cache))
    (hfound : compareInode m iscan read = .done found) :
    rereadInode m i s = .done (found, { s with cache }) := by
  unfold rereadInode
  simp only [hi, hread, hfound, Res.bind_done]

/-- The content of an inode is what is read, when the check code is right. -/
theorem content_spec {iscan : InodeEntry} (hi : m.inodes[i]? = some iscan) :
    ∃ found, compareInode m iscan (cacheRead m.fso .init iscan.dataOff).1 = .done found ∧
      found = (content m i).map (fun ino => (iscan, ino)) ∧
      ∀ ino, content m i = some ino → ino.length = Inode.bytes := by
  obtain ⟨found, hfound, hr⟩ := @compareInode_spec m iscan .init iscan.dataOff
  have hcontent : content m i = found.map (·.2) := by
    rw [content, rereadInode_eq (s := .init) hi rfl hfound]
  refine ⟨found, hfound, ?_, ?_⟩
  · rw [hcontent]
    cases found with
    | none => rfl
    | some r =>
        obtain ⟨e, ino⟩ := r
        cases (hr _ rfl).1
        rfl
  · intro ino hino
    rw [hcontent] at hino
    obtain ⟨r, rfl, rfl⟩ := Option.map_eq_some_iff.mp hino
    exact (hr r rfl).2

/-- The inode is read again, and is the one of the media pass or none. -/
theorem rereadInode_spec {iscan : InodeEntry} (hi : m.inodes[i]? = some iscan)
    (hs : s.cache.Sound m.fso) : ∃ cache, cache.Sound m.fso ∧
      rereadInode m i s = .done ((content m i).map fun ino => (iscan, ino), { s with cache }) := by
  obtain ⟨cache, hsound, hread⟩ := cacheRead_spec hs iscan.dataOff
  obtain ⟨found, hfound, rfl, -⟩ := content_spec hi
  exact ⟨cache, hsound, rereadInode_eq hi hread hfound⟩

theorem length_content (h : content m i = some ino) : ino.length = Inode.bytes := by
  cases hi : m.inodes[i]? with
  | none =>
      unfold content rereadInode at h
      rw [hi] at h
      cases h
  | some iscan =>
      obtain ⟨-, -, -, hlen⟩ := content_spec hi
      exact hlen ino h

theorem mem_versions {inum : Nat} (h : inumOf m i = some inum) : i ∈ versions m inum := by
  have hi : i < m.inodes.length := by
    by_contra hge
    rw [inumOf, List.getElem?_eq_none (Nat.not_lt.mp hge)] at h
    cases h
  have hmem : i ∈ (List.range m.inodes.length).filter
      fun i => (inumOf m i).map inumHash = some (inumHash inum) := by
    rw [List.mem_filter, List.mem_range]
    exact ⟨hi, by simp [h]⟩
  rw [← List.takeWhile_append_dropWhile (p := fun i => inumOf m i ≠ some inum) (l := List.filter _ _),
    List.mem_append] at hmem
  rcases hmem with hmem | hmem
  · have hne := List.mem_takeWhile_imp hmem
    exact absurd h (by simpa using hne)
  · exact hmem

end Inode

/-! ## The invariant -/

section Inv

variable (m : Recovery)

/-- A directory was entered with this much of the path left. -/
def Entered (s : St) (remain : Path) (i : Nat) : Prop :=
  ∃ p, Reached m p ∧ p.i = i ∧ p.remain = remain ∧ (p.dest, i) ∈ s.topoInode

/-- A version that an entry leads to has been dealt with. -/
structure Seen (s : St) (remain : Path) (i : Nat) : Prop where
  dir : ∀ ino, Opens m i remain ino → Entered m s remain i
  file : Wanted m i remain → Dumped s i

/-- A blockref has been dealt with, for a target. -/
structure Handled (s : St) (dest remain : Path) (b : Blockref) : Prop where
  dirent : ∀ j name, Names m remain b j name → Seen m s (advance remain) j
  indirect : IndirectAt m b → (dest, b.dataOff) ∈ s.topoBref

/-- An entry of `TopoInodeHash`. -/
structure Node (s : St) (busy : Prop) (x : Path × Nat) : Prop where
  dir : ∀ p ino, Reached m p → (p.dest, p.i) = x → Opens m p.i p.remain ino →
    busy ∨ ∀ b ∈ Inode.blockset ino, Handled m s p.dest p.remain b
  file : ∀ p, Reached m p → (p.dest, p.i) = x → Wanted m p.i p.remain → Dumped s p.i

/-- An entry of `TopoBRefHash`. -/
def Scanned (s : St) (busy : Prop) (y : Path × Nat) : Prop :=
  ∀ p ino b l, Reached m p → Opens m p.i p.remain ino → Within m (Inode.blockset ino) b →
    IndirectAt m b → (p.dest, b.dataOff) = y → indirect m b = some l →
    busy ∨ ∀ c ∈ l, Handled m s p.dest p.remain c

/-- A version with `encountered` set. -/
structure Met (s : St) (i : Nat) : Prop where
  dir : typeOf m i = some objtypeDirectory → ∃ p ino, Reached m p ∧ p.i = i ∧ p.depth ≠ 1 ∧
    Opens m p.i p.remain ino ∧ (p.dest, i) ∈ s.topoInode
  file : typeOf m i = some objtypeRegfile → Dumped s i

def Contained (e : Event) : Prop := ∀ path, e.made = some path → Below m.destdir path

/-- **The invariant**; `P` and `Q` are the directories and the indirect blocks that are being
scanned. -/
structure Inv (P Q : Path × Nat → Prop) (s : St) : Prop where
  cache : s.cache.Sound m.fso
  nodes : ∀ x ∈ s.topoInode, Node m s (P x) x
  brefs : ∀ y ∈ s.topoBref, Scanned m s (Q y) y
  met : ∀ i, s.encountered i = true → Met m s i
  made : ∀ e ∈ s.log, Contained m e

/-- Nothing is forgotten. -/
structure Grows (s s' : St) : Prop where
  inodes : s.topoInode ⊆ s'.topoInode
  brefs : s.topoBref ⊆ s'.topoBref
  log : s.log ⊆ s'.log

/-- What every call leaves. -/
structure Post (P Q : Path × Nat → Prop) (s s' : St) : Prop where
  grows : Grows s s'
  loop : s'.loopcheck = s.loopcheck
  inv : Inv m P Q s'

end Inv

section Grow

variable {m : Recovery} {P Q P' Q' : Path × Nat → Prop} {s s' s'' : St} {dest remain : Path}
  {i : Nat} {b : Blockref} {x : Path × Nat} {busy busy' : Prop}

theorem Grows.of_eq (hn : s'.topoInode = s.topoInode) (hb : s'.topoBref = s.topoBref)
    (hl : s'.log = s.log) : Grows s s' :=
  ⟨hn ▸ List.Subset.refl _, hb ▸ List.Subset.refl _, hl ▸ List.Subset.refl _⟩

theorem Grows.refl (s : St) : Grows s s := .of_eq rfl rfl rfl

theorem Grows.trans (h : Grows s s') (h' : Grows s' s'') : Grows s s'' :=
  ⟨fun _ hx => h'.inodes (h.inodes hx), fun _ hx => h'.brefs (h.brefs hx),
    fun _ hx => h'.log (h.log hx)⟩

theorem Dumped.mono (h : Dumped s i) (hg : Grows s s') : Dumped s' i := by
  obtain ⟨e, he, hd⟩ := h
  exact ⟨e, hg.log he, hd⟩

theorem Entered.mono (h : Entered m s remain i) (hg : Grows s s') : Entered m s' remain i := by
  obtain ⟨p, hp, hi, hr, hmem⟩ := h
  exact ⟨p, hp, hi, hr, hg.inodes hmem⟩

theorem Seen.mono (h : Seen m s remain i) (hg : Grows s s') : Seen m s' remain i :=
  ⟨fun ino ho => (h.dir ino ho).mono hg, fun hw => (h.file hw).mono hg⟩

theorem Handled.mono (h : Handled m s dest remain b) (hg : Grows s s') :
    Handled m s' dest remain b :=
  ⟨fun j name hn => (h.dirent j name hn).mono hg, fun hi => hg.brefs (h.indirect hi)⟩

theorem Node.mono (h : Node m s busy x) (hg : Grows s s') (hb : busy → busy') :
    Node m s' busy' x := by
  refine ⟨fun p ino hp hx ho => ?_, fun p hp hx hw => (h.file p hp hx hw).mono hg⟩
  rcases h.dir p ino hp hx ho with hbusy | hall
  · exact .inl (hb hbusy)
  · exact .inr fun b hmem => (hall b hmem).mono hg

theorem Scanned.mono (h : Scanned m s busy x) (hg : Grows s s') (hb : busy → busy') :
    Scanned m s' busy' x := by
  intro p ino b l hp ho hin hat hy hl
  rcases h p ino b l hp ho hin hat hy hl with hbusy | hall
  · exact .inl (hb hbusy)
  · exact .inr fun c hc => (hall c hc).mono hg

theorem Met.mono (h : Met m s i) (hg : Grows s s') : Met m s' i := by
  refine ⟨fun ht => ?_, fun ht => (h.file ht).mono hg⟩
  obtain ⟨p, ino, hp, hi, hd, ho, hmem⟩ := h.dir ht
  exact ⟨p, ino, hp, hi, hd, ho, hg.inodes hmem⟩

/-- **What is new** has to be shown, the rest is kept. -/
theorem Inv.grow (h : Inv m P Q s) (hg : Grows s s') (hcache : s'.cache.Sound m.fso)
    (hn : ∀ x ∈ s'.topoInode, (x ∈ s.topoInode ∧ (P x → P' x)) ∨ Node m s' (P' x) x)
    (hb : ∀ y ∈ s'.topoBref, (y ∈ s.topoBref ∧ (Q y → Q' y)) ∨ Scanned m s' (Q' y) y)
    (hm : ∀ i, s'.encountered i = true → s.encountered i = true ∨ Met m s' i)
    (he : ∀ e ∈ s'.log, e ∈ s.log ∨ Contained m e) : Inv m P' Q' s' := by
  refine ⟨hcache, fun x hx => ?_, fun y hy => ?_, fun i hi => ?_, fun e hmem => ?_⟩
  · rcases hn x hx with ⟨hold, hP⟩ | hnew
    · exact (h.nodes x hold).mono hg hP
    · exact hnew
  · rcases hb y hy with ⟨hold, hQ⟩ | hnew
    · exact (h.brefs y hold).mono hg hQ
    · exact hnew
  · rcases hm i hi with hold | hnew
    · exact (h.met i hold).mono hg
    · exact hnew
  · rcases he e hmem with hold | hnew
    · exact h.made e hold
    · exact hnew

/-- Only the cache, the iterators or the flags of the path change. -/
theorem Inv.of_eq (h : Inv m P Q s) (hcache : s'.cache.Sound m.fso)
    (hn : s'.topoInode = s.topoInode) (hb : s'.topoBref = s.topoBref)
    (hm : s'.encountered = s.encountered) (hl : s'.log = s.log) : Inv m P Q s' :=
  h.grow (.of_eq hn hb hl) hcache
    (fun _ hx => .inl ⟨hn ▸ hx, id⟩) (fun _ hy => .inl ⟨hb ▸ hy, id⟩)
    (fun _ hi => .inl (hm ▸ hi)) (fun _ he => .inl (hl ▸ he))

theorem Post.refl (h : Inv m P Q s) : Post m P Q s s := ⟨.refl s, rfl, h⟩

theorem Post.trans (h : Post m P Q s s') (h' : Post m P Q s' s'') : Post m P Q s s'' :=
  ⟨h.grows.trans h'.grows, h'.loop.trans h.loop, h'.inv⟩

theorem Post.cache (h : Inv m P Q s) {cache : Cache} (hc : cache.Sound m.fso) :
    Post m P Q s { s with cache } := ⟨.of_eq rfl rfl rfl, rfl, h.of_eq hc rfl rfl rfl rfl⟩

end Grow

/-! ## The calls on the path -/

section Calls

variable (m : Recovery)

/-- The directories on the path are those with `loopcheck` set, and each was entered. -/
structure Call (L : List Pos) (p : Pos) (s : St) : Prop where
  flags : ∀ j, s.loopcheck j = true ↔ ∃ q ∈ L, q.i = j
  reached : ∀ q ∈ L, Reached m q ∧ q.depth ≠ 1 ∧ ReflTransGen (Step m) q p
  entered : ∀ q ∈ L, (∃ ino, Opens m q.i q.remain ino) ∧ (q.dest, q.i) ∈ s.topoInode

/-- The same at a call of `dump_tree`, whose inode is on the path unless it is a start. -/
structure Callers (L : List Pos) (q : Pos) (s : St) : Prop where
  flags : ∀ j, s.loopcheck j = true ↔ (∃ p ∈ L, p.i = j) ∨ (q.depth ≠ 1 ∧ q.i = j)
  reached : ∀ p ∈ L, Reached m p ∧ p.depth ≠ 1 ∧ ReflTransGen (Step m) p q
  entered : ∀ p ∈ L, (∃ ino, Opens m p.i p.remain ino) ∧ (p.dest, p.i) ∈ s.topoInode

/-- An inode that is not on the path. -/
def Unmarked (s : St) (i : Nat) : Prop := i < m.inodes.length ∧ s.loopcheck i = false

/-- A place that no indirect block is recorded for. -/
def Unrecorded (s : St) (dest : Path) (off : Nat) : Prop := off < 2 ^ 64 ∧ (dest, off) ∉ s.topoBref

/-- **`dump_tree`** on a version that is reached, with at most `u` inodes not on the path. -/
def TreeOk (u : Nat) : Prop :=
  ∀ (q : Pos) (r : Path) (L : List Pos) (P Q : Path × Nat → Prop) (s : St),
    Reached m q → skipSlashes r = q.remain → Callers m L q s → Inv m P Q s →
    AtMost (Unmarked m s) u →
    Runs (fun n => dumpTree m n q.i q.dest r q.depth s) fun s' =>
      Post m P Q s s' ∧ Seen m s' q.remain q.i

/-- **`dump_dir_data`** on blockrefs of a directory, with at most `w` places not recorded. -/
def DirOk (u w : Nat) : Prop :=
  ∀ (p : Pos) (ino : List UInt8) (base : List Blockref) (L : List Pos) (P Q : Path × Nat → Prop)
    (s : St), Reached m p → Opens m p.i p.remain ino →
    (∀ b ∈ base, Within m (Inode.blockset ino) b) → Call m L p s → Inv m P Q s →
    AtMost (Unmarked m s) u → AtMost (Unrecorded s p.dest) w →
    Runs (fun n => dumpDirData m n p.dest p.remain base p.depth s) fun r =>
      Post m P Q s r.2 ∧ ∀ b ∈ base, Handled m r.2 p.dest p.remain b

variable {m} {P Q : Path × Nat → Prop} {s s' : St} {L : List Pos} {p : Pos} {ino : List UInt8}
  {b : Blockref} {name : Path} {u w i : Nat}

theorem Call.post (h : Call m L p s) (hp : Post m P Q s s') : Call m L p s' := by
  refine ⟨fun j => ?_, h.reached, fun q hq => ?_⟩
  · rw [hp.loop]
    exact h.flags j
  · obtain ⟨ho, hmem⟩ := h.entered q hq
    exact ⟨ho, hp.grows.inodes hmem⟩

theorem Post.unmarked (h : Post m P Q s s') (hu : AtMost (Unmarked m s) u) :
    AtMost (Unmarked m s') u :=
  hu.imp fun i hi => ⟨hi.1, by rw [← h.loop]; exact hi.2⟩

theorem Post.unrecorded {dest : Path} (h : Post m P Q s s') (hw : AtMost (Unrecorded s dest) w) :
    AtMost (Unrecorded s' dest) w :=
  hw.imp fun _ ho => ⟨ho.1, fun hmem => ho.2 (h.grows.brefs hmem)⟩

theorem dumpTree_none {iscan : InodeEntry} {dest r : Path} {depth : Nat}
    (hi : m.inodes[i]? = some iscan) (hc : content m i = none) (h : Inv m P Q s) :
    Runs (fun n => dumpTree m n i dest r depth s) fun s' => Post m P Q s s' := by
  obtain ⟨cache, hsound, hread⟩ := rereadInode_spec hi h.cache
  refine Runs.body (g := fun _ => .done { s with cache }) (fun n => ?_) (Runs.const (.cache h hsound))
  rw [dumpTree, hread, hc]
  rfl

/-- A version that is on the path was entered with as much of the path left. -/
theorem Call.seen (hpass : Passes m) (hcall : Call m L p s) (ho : Opens m p.i p.remain ino)
    (hb : Within m (Inode.blockset ino) b) (hn : Names m p.remain b i name)
    (hloop : s.loopcheck i = true) : Seen m s (advance p.remain) i := by
  obtain ⟨q, hq, rfl⟩ := (hcall.flags i).mp hloop
  obtain ⟨hr, hd, hup⟩ := hcall.reached q hq
  obtain ⟨⟨qino, hqo⟩, hmem⟩ := hcall.entered q hq
  refine ⟨fun ino' ho' => ?_, fun hw => ?_⟩
  · have hstep : Step m p ⟨q.i, join p.dest name, advance p.remain, p.depth + 1⟩ := .mk ho hb hn
    exact ⟨q, hr, rfl, hpass.again q _ qino ino' hr hd (.tail' hup hstep) rfl hqo ho', hmem⟩
  · have ht := hqo.type.symm.trans hw.type
    exact absurd ht (by decide)

/-- One version of the inode that an entry names. -/
theorem dumpVersion_runs (hpass : Passes m) (htree : ∀ v, u = v + 1 → TreeOk m v)
    (hp : Reached m p) (ho : Opens m p.i p.remain ino) (hb : Within m (Inode.blockset ino) b)
    (htype : b.type = Fsck.brefTypeDirent) (huse : usable m b = true)
    (hname : matchEntry m p.remain b = .done (some name)) (hcall : Call m L p s)
    (h : Inv m P Q s) (hu : AtMost (Unmarked m s) u) (i : Nat) :
    Runs (fun n => dumpVersion m (dumpTree m n) b (join p.dest name)
      (p.remain.drop (flen p.remain)) p.depth s i) fun s' =>
        Post m P Q s s' ∧ ∀ name', Names m p.remain b i name' → Seen m s' (advance p.remain) i := by
  unfold dumpVersion
  split
  · next hcond =>
    obtain ⟨hinum, hloop, hdt⟩ := hcond
    obtain ⟨iscan, hi, -⟩ := Option.map_eq_some_iff.mp hinum
    have hlt : i < m.inodes.length := (List.getElem?_eq_some_iff.mp hi).1
    have hgrow : Grows s (s.setLoop i true) := .of_eq rfl rfl rfl
    have hinv : Inv m P Q (s.setLoop i true) := h.of_eq h.cache rfl rfl rfl rfl
    -- the flag is cleared afterwards
    have hdone : ∀ s', Post m P Q (s.setLoop i true) s' → Post m P Q s (s'.setLoop i false) := by
      intro s' hs'
      refine ⟨hgrow.trans (hs'.grows.trans (.of_eq rfl rfl rfl)), funext fun j => ?_,
        hs'.inv.of_eq hs'.inv.cache rfl rfl rfl rfl⟩
      show (if j = i then false else s'.loopcheck j) = s.loopcheck j
      by_cases hj : j = i
      · rw [if_pos hj, hj, hloop]
      · rw [if_neg hj, hs'.loop]
        exact if_neg hj
    cases hc : content m i with
    | none =>
        refine Runs.bind (dumpTree_mono _ _ _ _ _) (fun _ => Mono.const _)
          (dumpTree_none hi hc hinv) fun s' hs' => Runs.const ⟨hdone s' hs', fun name' hn => ?_⟩
        have hsome := hn.content
        rw [hc] at hsome
        cases hsome
    | some ino' =>
        have hstep : Step m p ⟨i, join p.dest name, advance p.remain, p.depth + 1⟩ :=
          .mk ho hb ⟨htype, huse, hname, hinum, hdt, by rw [hc]; rfl⟩
        obtain ⟨v, hv, hleft⟩ := hu.mark ⟨hlt, hloop⟩
        have hdepth : p.depth + 1 ≠ 1 := Nat.succ_ne_succ_iff.mpr
          (Nat.one_le_iff_ne_zero.mp hp.along.depth)
        refine Runs.bind (dumpTree_mono _ _ _ _ _) (fun _ => Mono.const _)
          (htree v hv ⟨i, join p.dest name, advance p.remain, p.depth + 1⟩ _ L P Q _
            (hp.step hstep) rfl ⟨fun j => ?_, fun q hq => ?_, hcall.entered⟩ hinv
            (hleft.imp fun j hj => ?_)) fun s' hs' => Runs.const ⟨hdone s' hs'.1, fun _ _ => ?_⟩
        · show (if j = i then true else s.loopcheck j) = true ↔ _
          by_cases hj : j = i
          · rw [if_pos hj]
            exact ⟨fun _ => .inr ⟨hdepth, hj.symm⟩, fun _ => rfl⟩
          · rw [if_neg hj, hcall.flags j]
            exact ⟨.inl, fun hor => hor.resolve_right fun heq => hj heq.2.symm⟩
        · obtain ⟨hr, hd, hup⟩ := hcall.reached q hq
          exact ⟨hr, hd, hup.tail hstep⟩
        · obtain ⟨hjlt, hjloop⟩ := hj
          change (if j = i then true else s.loopcheck j) = false at hjloop
          by_cases heq : j = i
          · rw [if_pos heq] at hjloop
            cases hjloop
          · rw [if_neg heq] at hjloop
            exact ⟨⟨hjlt, hjloop⟩, heq⟩
        · exact hs'.2.mono (.of_eq rfl rfl rfl)
  · next hcond =>
    refine Runs.const ⟨.refl h, fun name' hn => ?_⟩
    refine hcall.seen hpass ho hb hn ?_
    exact Bool.not_eq_false _ ▸ fun hfalse => hcond ⟨hn.inum, hfalse, hn.direntType⟩

/-- An entry of a directory. -/
theorem dirent_runs (hpass : Passes m) (htree : ∀ v, u = v + 1 → TreeOk m v)
    (hp : Reached m p) (ho : Opens m p.i p.remain ino) (hb : Within m (Inode.blockset ino) b)
    (htype : b.type = Fsck.brefTypeDirent) (huse : usable m b = true)
    (hname : matchEntry m p.remain b = .done (some name)) (hcall : Call m L p s)
    (h : Inv m P Q s) (hu : AtMost (Unmarked m s) u) :
    Runs (fun n => foldl (dumpVersion m (dumpTree m n) b (join p.dest name)
      (p.remain.drop (flen p.remain)) p.depth) s (versions m b.inum)) fun s' =>
        Post m P Q s s' ∧ Handled m s' p.dest p.remain b := by
  refine (Runs.foldl (l := versions m b.inum) (I := fun pre s' => Post m P Q s s' ∧
    ∀ j ∈ pre, ∀ name', Names m p.remain b j name' → Seen m s' (advance p.remain) j)
    (fun s j n => dumpVersion_refines (fun i dest r d s => dumpTree_mono i dest r d s n) _ _ _ _ s j)
    ?_ (versions m b.inum) [] s rfl ⟨.refl h, nofun⟩).imp fun s' hs' => ⟨hs'.1, ?_, ?_⟩
  · rintro pre j post s₁ - ⟨hpost, hseen⟩
    refine (dumpVersion_runs hpass htree hp ho hb htype huse hname (hcall.post hpost) hpost.inv
      (hpost.unmarked hu) j).imp fun s₂ hs₂ => ⟨hpost.trans hs₂.1, fun k hk name' hn => ?_⟩
    rcases List.mem_append.mp hk with hk | hk
    · exact (hseen k hk name' hn).mono hs₂.1.grows
    · cases List.mem_singleton.mp hk
      exact hs₂.2 name' hn
  · exact fun j name' hn => hs'.2 j (mem_versions hn.inum) name' hn
  · intro hat
    have ht := htype.symm.trans hat.type
    exact absurd ht (by decide)

/-- Blockrefs that lead nowhere. -/
theorem Handled.skip {dest remain : Path} (hd : ∀ name, b.type = Fsck.brefTypeDirent → usable m b = true →
    matchEntry m remain b ≠ .done (some name)) (hi : ¬ IndirectAt m b) :
    Handled m s dest remain b :=
  ⟨fun _ name hn => absurd hn.entry (hd name hn.type hn.usable), fun hat => absurd hat hi⟩

theorem dataOff_lt (b : Blockref) : b.dataOff < 2 ^ 64 := decode_take_lt _

/-- An indirect block that is recorded from here on. -/
theorem Post.enterBref (h : Inv m P Q s) (dest : Path) (off : Nat) :
    Post m P (fun y => Q y ∨ y = (dest, off)) s (s.enterBref dest off) := by
  have hg : Grows s (s.enterBref dest off) :=
    ⟨List.Subset.refl _, List.subset_cons_self _ _, List.Subset.refl _⟩
  refine ⟨hg, rfl, h.grow hg h.cache (fun _ hx => .inl ⟨hx, id⟩) (fun y hy => ?_)
    (fun _ hi => .inl hi) fun _ he => .inl he⟩
  rcases List.mem_cons.mp hy with rfl | hy
  · exact .inr fun _ _ _ _ _ _ _ _ _ _ => .inl (.inr rfl)
  · exact .inl ⟨hy, .inl⟩

/-- Its scan is over. -/
theorem Inv.scanned {dest : Path} {off : Nat} (h : Inv m P (fun y => Q y ∨ y = (dest, off)) s)
    (hdone : Scanned m s (Q (dest, off)) (dest, off)) : Inv m P Q s := by
  refine ⟨h.cache, h.nodes, fun y hy => ?_, h.met, h.made⟩
  by_cases heq : y = (dest, off)
  · rw [heq]
    exact hdone
  · exact (h.brefs y hy).mono (.refl s) fun hq => hq.resolve_right heq

/-- An indirect block that is not recorded yet. -/
theorem indirect_runs (hpass : Passes m) (hdir : ∀ v, w = v + 1 → DirOk m u v) (hp : Reached m p)
    (ho : Opens m p.i p.remain ino) (hb : Within m (Inode.blockset ino) b) (hat : IndirectAt m b)
    (hnew : (p.dest, b.dataOff) ∉ s.topoBref) (hcall : Call m L p s) (h : Inv m P Q s)
    (hu : AtMost (Unmarked m s) u) (hw : AtMost (Unrecorded s p.dest) w) (res : Bool) :
    Runs (fun n => (readBlock m b).bind fun block =>
      match block with
      | none => .done (false, s.enterBref p.dest b.dataOff)
      | some block =>
          (dumpDirData m n p.dest p.remain (blockrefs block) p.depth
            (s.enterBref p.dest b.dataOff)).bind fun (rtmp, s) => .done (res && rtmp, s))
      fun r => Post m P Q s r.2 ∧ Handled m r.2 p.dest p.remain b := by
  have htype : b.type ≠ Fsck.brefTypeDirent := fun ht => absurd (ht.symm.trans hat.type) (by decide)
  have hpost := Post.enterBref h p.dest b.dataOff
  have hsize : psize b.dataOff ≤ pbufsize := by
    have huse := hat.usable
    simp only [usable, hat.radix, false_or, decide_eq_true_eq] at huse
    exact huse.2
  rw [readBlock_eq hsize]
  -- a blockref of the same target with the same place is right or wrong as this one
  have hsame : ∀ p' ino' b' l, Reached m p' → Opens m p'.i p'.remain ino' →
      Within m (Inode.blockset ino') b' → IndirectAt m b' →
      (p'.dest, b'.dataOff) = (p.dest, b.dataOff) → indirect m b' = some l →
      indirect m b = some l ∧ p'.remain = p.remain := by
    intro p' ino' b' l hp' ho' hb' hat' hy hl
    obtain ⟨hdest, hoff⟩ := Prod.mk.inj hy
    refine ⟨?_, hp'.remain_eq hp hdest⟩
    rw [hpass.blocks p p' ino ino' b b' hp hp' hdest.symm ho ho' hb hb' hat hat' hoff.symm, hl]
  cases hblock : block m b with
  | none =>
      have hno : indirect m b = none := by rw [indirect, hblock]; rfl
      refine Runs.const ⟨⟨hpost.grows, hpost.loop, hpost.inv.scanned ?_⟩,
        fun _ _ hn => absurd hn.type htype, fun _ => List.mem_cons_self⟩
      intro p' ino' b' l hp' ho' hb' hat' hy hl
      have hsome := (hsame p' ino' b' l hp' ho' hb' hat' hy hl).1
      rw [hno] at hsome
      cases hsome
  | some blk =>
      have hl : indirect m b = some (blockrefs blk) := by rw [indirect, hblock]; rfl
      obtain ⟨v, hv, hleft⟩ := hw.mark ⟨dataOff_lt b, hnew⟩
      simp only [Res.bind_done]
      refine Runs.bind (dumpDirData_mono _ _ _ _ _) (fun _ => Mono.const _)
        (hdir v hv p ino (blockrefs blk) L P _ _ hp ho (fun c hc => .down hb hat hl hc)
          (hcall.post hpost) hpost.inv (hpost.unmarked hu) (hleft.imp fun o ho => ?_)) ?_
      · refine ⟨⟨ho.1, fun hmem => ho.2 (List.mem_cons_of_mem _ hmem)⟩, fun heq => ho.2 ?_⟩
        rw [heq]
        exact List.mem_cons_self
      · rintro ⟨rtmp, s'⟩ ⟨hpost', hall⟩
        have hboth := hpost.trans hpost'
        refine Runs.const ⟨⟨hboth.grows, hboth.loop, hboth.inv.scanned ?_⟩,
          fun _ _ hn => absurd hn.type htype, fun _ => hpost'.grows.brefs List.mem_cons_self⟩
        intro p' ino' b' l hp' ho' hb' hat' hy hl'
        obtain ⟨hsome, hrem⟩ := hsame p' ino' b' l hp' ho' hb' hat' hy hl'
        cases hl.symm.trans hsome
        rw [hrem, (Prod.mk.inj hy).1]
        exact .inr hall

/-- One round of the loop of `dump_dir_data`. -/
theorem dumpDirBref_runs (hpass : Passes m) (htree : ∀ v, u = v + 1 → TreeOk m v)
    (hdir : ∀ v, w = v + 1 → DirOk m u v) (hp : Reached m p) (ho : Opens m p.i p.remain ino)
    (hb : Within m (Inode.blockset ino) b) (hcall : Call m L p s) (h : Inv m P Q s)
    (hu : AtMost (Unmarked m s) u) (hw : AtMost (Unrecorded s p.dest) w) (res : Bool) :
    Runs (fun n => dumpDirBref m (dumpTree m n)
      (fun l s => dumpDirData m n p.dest p.remain l p.depth s) p.dest p.remain p.depth (res, s) b)
      fun r => Post m P Q s r.2 ∧ Handled m r.2 p.dest p.remain b := by
  unfold dumpDirBref
  split
  · next hempty =>
    refine Runs.const ⟨.refl h, .skip (fun _ ht => ?_) fun hat => ?_⟩
    · exact absurd (hempty.symm.trans ht) (by decide)
    · exact absurd (hempty.symm.trans hat.type) (by decide)
  split
  · next huse => exact Runs.const ⟨.refl h, .skip (fun _ _ hn => absurd hn huse)
      fun hat => huse hat.usable⟩
  next huse =>
  rw [not_not] at huse
  split
  · next htype =>
    have hno : ¬ IndirectAt m b := fun hat => absurd (htype.symm.trans hat.type) (by decide)
    obtain ⟨r, hr, -⟩ := matchEntry_spec m p.remain b
    rw [hr]
    cases r with
    | none =>
        refine Runs.const ⟨.refl h, .skip (fun name _ _ hn => ?_) hno⟩
        rw [hr] at hn
        cases hn
    | some name =>
        simp only [Res.bind_done]
        refine Runs.bind (Mono.foldl (fun s j n => dumpVersion_refines
          (fun i dest r d s => dumpTree_mono i dest r d s n) _ _ _ _ s j) _ _)
          (fun _ => Mono.const _) (dirent_runs hpass htree hp ho hb htype huse hr hcall h hu) ?_
        exact fun s' hs' => Runs.const hs'
  next htype =>
  split
  · next hind =>
    split
    · next hradix =>
      exact Runs.const ⟨.refl h, .skip (fun _ ht => absurd ht htype) fun hat => hat.radix hradix⟩
    next hradix =>
    have hat : IndirectAt m b := ⟨hind, hradix, huse⟩
    split
    · next hdup =>
      exact Runs.const ⟨.refl h, fun _ _ hn => absurd hn.type htype, fun _ => hdup⟩
    next hnew =>
    exact indirect_runs hpass hdir hp ho hb hat hnew hcall h hu hw res
  · next hind => exact Runs.const ⟨.refl h, .skip (fun _ ht => absurd ht htype)
      fun hat => hind hat.type⟩

theorem dirOk_step (hpass : Passes m) (htree : ∀ v, u = v + 1 → TreeOk m v)
    (hdir : ∀ v, w = v + 1 → DirOk m u v) : DirOk m u w := by
  intro p ino base L P Q s hp ho hin hcall h hu hw
  refine Runs.body (fun n => rfl) ?_
  refine (Runs.foldl (l := base) (I := fun pre r => Post m P Q s r.2 ∧
    ∀ b ∈ pre, Handled m r.2 p.dest p.remain b)
    (fun r b n => dumpDirBref_refines (fun i dest r d s => dumpTree_mono i dest r d s n)
      (fun l s => dumpDirData_mono _ _ l _ s n) _ _ _ r b) ?_ base [] (true, s) rfl
    ⟨.refl h, nofun⟩)
  rintro pre b post ⟨res, s₁⟩ hl ⟨hpost, hall⟩
  have hb : b ∈ base := by
    rw [hl]
    exact List.mem_append_right _ List.mem_cons_self
  refine (dumpDirBref_runs hpass htree hdir hp ho (hin b hb) (hcall.post hpost) hpost.inv
    (hpost.unmarked hu) (hpost.unrecorded hw) res).imp fun r hr => ⟨hpost.trans hr.1, fun c hc => ?_⟩
  rcases List.mem_append.mp hc with hc | hc
  · exact (hall c hc).mono hr.1.grows
  · cases List.mem_singleton.mp hc
    exact hr.2

/-- The scan of a directory, by the places that no indirect block is recorded for. -/
theorem dirOk (hpass : Passes m) (htree : ∀ v, u = v + 1 → TreeOk m v) : ∀ w, DirOk m u w := by
  intro w
  induction w with
  | zero => exact dirOk_step hpass htree nofun
  | succ w ih => exact dirOk_step hpass htree fun v hv => Nat.succ.inj hv ▸ ih

/-! ## A version -/

theorem slash_versionSuffix (n : Nat) : slash ∉ versionSuffix n ∧ 2 < (versionSuffix n).length := by
  constructor
  · intro h
    rcases List.mem_cons.mp h with h | h
    · exact absurd h (by decide)
    rw [List.leftpad, List.mem_append, List.mem_replicate, List.mem_map] at h
    rcases h with ⟨-, h⟩ | ⟨d, hd, h⟩
    · exact absurd h (by decide)
    · have hlt : d < 10 := Nat.digits_lt_base (by decide) (List.mem_reverse.mp hd)
      have hnat := congrArg UInt8.toNat h
      rw [UInt8.toNat_ofNat'] at hnat
      change (48 + d) % 2 ^ 8 = 47 at hnat
      omega
  · rw [versionSuffix, List.length_cons, List.leftpad, List.length_append, List.length_replicate]
    omega

/-- The paths of a version of a file. -/
theorem made_below (hpass : Passes m) {q : Pos} (hq : Reached m q) (hw : Wanted m q.i q.remain)
    {n : Nat} {path : Path}
    (hpath : path = versionPath q.dest n ∨ path = corruptedPath (versionPath q.dest n)) :
    Below m.destdir path := by
  have hbelow := hpass.files q hq hw
  have hdest : ∃ rest, q.dest = m.destdir ++ slash :: rest := by
    refine hq.along.below fun h1 => ?_
    have ht := hw.type.symm.trans (hq.along.base h1).2
    exact absurd ht (by decide)
  rcases hpath with rfl | rfl
  · exact hbelow.append (slash_versionSuffix 1) (slash_versionSuffix n) hdest
  · rw [corruptedPath, versionPath, List.append_assoc]
    refine hbelow.append (slash_versionSuffix 1) ⟨fun h => ?_, ?_⟩ hdest
    · rcases List.mem_append.mp h with h | h
      · exact (slash_versionSuffix n).1 h
      · exact absurd h (by decide)
    · rw [List.length_append]
      exact Nat.lt_add_right _ (slash_versionSuffix n).2

/-- A version that is entered, and has no directory to scan and no file to dump. -/
theorem Post.enterInode (h : Inv m P Q s) {q : Pos} (hq : Reached m q)
    (hd : ∀ ino, ¬ Opens m q.i q.remain ino) (hf : ¬ Wanted m q.i q.remain) :
    Post m P Q s (s.enterInode q.dest q.i) := by
  have hg : Grows s (s.enterInode q.dest q.i) :=
    ⟨List.subset_cons_self _ _, List.Subset.refl _, List.Subset.refl _⟩
  refine ⟨hg, rfl, h.grow hg h.cache (fun x hx => ?_) (fun _ hy => .inl ⟨hy, id⟩)
    (fun _ hi => .inl hi) fun _ he => .inl he⟩
  rcases List.mem_cons.mp hx with rfl | hx
  · refine .inr ⟨fun p ino hp hx ho => ?_, fun p hp hx hw => ?_⟩
    · obtain ⟨hdest, hi⟩ := Prod.mk.inj hx
      rw [hi, hp.remain_eq hq hdest] at ho
      exact absurd ho (hd ino)
    · obtain ⟨hdest, hi⟩ := Prod.mk.inj hx
      rw [hi, hp.remain_eq hq hdest] at hw
      exact absurd hw hf
  · exact .inl ⟨hx, id⟩

/-- The scan of a directory is over. -/
theorem Inv.entered {q : Pos} (hq : Reached m q) (ho : Opens m q.i q.remain ino)
    (h : Inv m (fun x => P x ∨ x = (q.dest, q.i)) Q s)
    (hall : ∀ b ∈ Inode.blockset ino, Handled m s q.dest q.remain b) : Inv m P Q s := by
  refine ⟨h.cache, fun x hx => ?_, h.brefs, h.met, h.made⟩
  by_cases heq : x = (q.dest, q.i)
  · refine ⟨fun p ino' hp hpx ho' => .inr ?_, (h.nodes x hx).file⟩
    obtain ⟨hdest, hi⟩ := Prod.mk.inj (hpx.trans heq)
    have hino := ho'.content
    rw [hi, ho.content] at hino
    cases hino
    rw [hp.remain_eq hq hdest, hdest]
    exact hall
  · exact (h.nodes x hx).mono (.refl s) fun hP => hP.resolve_right heq

/-- A directory that is being scanned from here on, its target made. -/
theorem Post.makeDir (hpass : Passes m) {q : Pos} (hq : Reached m q)
    (ho : Opens m q.i q.remain ino) (h : Inv m P Q s) :
    Post m (fun x => P x ∨ x = (q.dest, q.i)) Q s
      (makeDir m q.depth q.i q.dest (s.enterInode q.dest q.i)) := by
  have henter : Post m (fun x => P x ∨ x = (q.dest, q.i)) Q s (s.enterInode q.dest q.i) := by
    have hg : Grows s (s.enterInode q.dest q.i) :=
      ⟨List.subset_cons_self _ _, List.Subset.refl _, List.Subset.refl _⟩
    refine ⟨hg, rfl, h.grow hg h.cache (fun x hx => ?_) (fun _ hy => .inl ⟨hy, id⟩)
      (fun _ hi => .inl hi) fun _ he => .inl he⟩
    rcases List.mem_cons.mp hx with rfl | hx
    · refine .inr ⟨fun _ _ _ _ _ => .inl (.inr rfl), fun p hp hpx hw => ?_⟩
      have ht := hw.type
      rw [(Prod.mk.inj hpx).2, ho.type] at ht
      exact absurd ht (by decide)
    · exact .inl ⟨hx, .inl⟩
  unfold Recover.makeDir
  split
  · exact henter
  next hdepth =>
  split
  · have hg : Grows (s.enterInode q.dest q.i)
        (((s.enterInode q.dest q.i).event (.mkdir q.dest)).meet q.i) :=
      ⟨List.Subset.refl _, List.Subset.refl _, List.subset_cons_self _ _⟩
    refine henter.trans ⟨hg, rfl, henter.inv.grow hg henter.inv.cache (fun _ hx => .inl ⟨hx, id⟩)
      (fun _ hy => .inl ⟨hy, id⟩) (fun i hi => ?_) fun e he => ?_⟩
    · by_cases heq : i = q.i
      · subst heq
        refine .inr ⟨fun _ => ⟨q, ino, hq, rfl, hdepth, ho, List.mem_cons_self⟩, fun ht => ?_⟩
        exact absurd (ho.type.symm.trans ht) (by decide)
      · change (if i = q.i then true else _) = true at hi
        rw [if_neg heq] at hi
        exact .inl hi
    · rcases List.mem_cons.mp he with rfl | he
      · refine .inr fun path hpath => ?_
        cases hpath
        exact hpass.dirs q ino hq hdepth ho
      · exact .inl he
  · exact henter

/-- A version of a file that is dumped. -/
theorem Post.filed (hpass : Passes m) {q : Pos} (hq : Reached m q) (hw : Wanted m q.i q.remain)
    (h : Inv m P Q s) (hf : Filed (((s.enterInode q.dest q.i).iterate q.dest).meet q.i) s' q.i
      (versionPath q.dest (s.iterator q.dest))) : Post m P Q s s' := by
  have hsame := hf.same
  have hnodes : s'.topoInode = (q.dest, q.i) :: s.topoInode := by rw [hsame]; rfl
  have hbrefs : s'.topoBref = s.topoBref := by rw [hsame]; rfl
  have hcache : s'.cache = s.cache := by rw [hsame]; rfl
  have hmet : s'.encountered = fun j => if j = q.i then true else s.encountered j := by
    rw [hsame]
    rfl
  have hg : Grows s s' :=
    ⟨hnodes ▸ List.subset_cons_self _ _, hbrefs ▸ List.Subset.refl _, hf.log⟩
  refine ⟨hg, by rw [hsame]; rfl, h.grow hg (hcache ▸ h.cache) (fun x hx => ?_)
    (fun _ hy => .inl ⟨hbrefs ▸ hy, id⟩) (fun i hi => ?_) fun e he => ?_⟩
  · rw [hnodes] at hx
    rcases List.mem_cons.mp hx with rfl | hx
    · refine .inr ⟨fun p ino hp hpx ho => ?_, fun p hp hpx _ => (Prod.mk.inj hpx).2 ▸ hf.dumped⟩
      have ht := ho.type
      rw [(Prod.mk.inj hpx).2, hw.type] at ht
      exact absurd ht (by decide)
    · exact .inl ⟨hx, id⟩
  · rw [hmet] at hi
    by_cases heq : i = q.i
    · subst heq
      exact .inr ⟨fun ht => absurd (hw.type.symm.trans ht) (by decide), fun _ => hf.dumped⟩
    · exact .inl (by simpa [heq] using hi)
  · rcases hf.made e he with hold | hnew
    · exact .inl hold
    · exact .inr fun path hpath => made_below hpass hq hw (hnew.1 path hpath)

theorem Callers.post (h : Callers m L p s) (hp : Post m P Q s s') : Callers m L p s' := by
  refine ⟨fun j => ?_, h.reached, fun q hq => ?_⟩
  · rw [hp.loop]
    exact h.flags j
  · obtain ⟨ho, hmem⟩ := h.entered q hq
    exact ⟨ho, hp.grows.inodes hmem⟩

/-- The directory itself is on the path while it is scanned, unless it is a start. -/
theorem Callers.enter {q : Pos} (h : Callers m L q s) (hq : Reached m q)
    (ho : Opens m q.i q.remain ino) (hmem : (q.dest, q.i) ∈ s.topoInode) :
    Call m (if q.depth = 1 then L else q :: L) q s := by
  by_cases h1 : q.depth = 1
  · rw [if_pos h1]
    refine ⟨fun j => ?_, h.reached, h.entered⟩
    rw [h.flags j]
    exact ⟨fun hor => hor.resolve_right fun hd => hd.1 h1, .inl⟩
  · rw [if_neg h1]
    refine ⟨fun j => ?_, fun p hp => ?_, fun p hp => ?_⟩
    · rw [h.flags j]
      constructor
      · rintro (⟨p, hp, hj⟩ | ⟨-, hj⟩)
        · exact ⟨p, List.mem_cons_of_mem _ hp, hj⟩
        · exact ⟨q, List.mem_cons_self, hj⟩
      · rintro ⟨p, hp, hj⟩
        rcases List.mem_cons.mp hp with rfl | hp
        · exact .inr ⟨h1, hj⟩
        · exact .inl ⟨p, hp, hj⟩
    · rcases List.mem_cons.mp hp with rfl | hp
      · exact ⟨hq, h1, .refl⟩
      · exact h.reached p hp
    · rcases List.mem_cons.mp hp with rfl | hp
      · exact ⟨⟨ino, ho⟩, hmem⟩
      · exact h.entered p hp

theorem mem_makeDir (q : Pos) (s : St) :
    (q.dest, q.i) ∈ (makeDir m q.depth q.i q.dest (s.enterInode q.dest q.i)).topoInode := by
  unfold makeDir
  split
  · exact List.mem_cons_self
  split
  · exact List.mem_cons_self
  · exact List.mem_cons_self

/-- A directory is made and scanned. -/
theorem directory_runs (hpass : Passes m) (hdir : ∀ w, DirOk m u w) {q : Pos} (hq : Reached m q)
    (ho : Opens m q.i q.remain ino) (hcallers : Callers m L q s) (h : Inv m P Q s)
    (hu : AtMost (Unmarked m s) u) :
    Runs (fun n => (dumpDirData m n q.dest q.remain (Inode.blockset ino) q.depth
      (makeDir m q.depth q.i q.dest (s.enterInode q.dest q.i))).bind fun r => .done r.2) fun s' =>
        Post m P Q s s' ∧ (q.dest, q.i) ∈ s'.topoInode := by
  have hmake := Post.makeDir hpass hq ho h
  -- the hypotheses of the scan, after the directory is entered
  have hcall : Call m (if q.depth = 1 then L else q :: L) q
      (makeDir m q.depth q.i q.dest (s.enterInode q.dest q.i)) :=
    Callers.enter ⟨fun j => hmake.loop ▸ hcallers.flags j, hcallers.reached, fun p hp =>
      ⟨(hcallers.entered p hp).1, hmake.grows.inodes (hcallers.entered p hp).2⟩⟩ hq ho
      (mem_makeDir q s)
  refine Runs.bind (dumpDirData_mono _ _ _ _ _) (fun _ => Mono.const _)
    (hdir (2 ^ 64) q ino (Inode.blockset ino) _ _ Q _ hq ho (fun b hb => .here hb) hcall
      hmake.inv (hmake.unmarked hu) (AtMost.range fun x hx => hx.1)) ?_
  rintro ⟨res, s'⟩ ⟨hscan, hall⟩
  exact Runs.const ⟨⟨hmake.grows.trans hscan.grows, hscan.loop.trans hmake.loop,
    hscan.inv.entered hq ho hall⟩, hscan.grows.inodes (mem_makeDir q s)⟩

/-- **A version that is reached**, after its inode is read: it was met, or entered, or it is dealt
with here. -/
theorem dumpInode_runs (hpass : Passes m) (hfiles : ∀ i, Found m i → FileFine m i)
    (hdir : ∀ w, DirOk m u w) {q : Pos} {r : Path} {iscan : InodeEntry} (hq : Reached m q)
    (hr : skipSlashes r = q.remain) (htype : typeOf m q.i = some iscan.type)
    (hino : content m q.i = some ino) (hcallers : Callers m L q s) (h : Inv m P Q s)
    (hu : AtMost (Unmarked m s) u) :
    Runs (fun n => dumpInode m (fun remain base s => dumpDirData m n q.dest remain base q.depth s)
      n q.i iscan ino q.dest r q.depth s) fun s' => Post m P Q s s' ∧ Seen m s' q.remain q.i := by
  unfold dumpInode
  split
  · next hdeep =>
    refine Runs.const ⟨.refl h, fun ino' ho => ?_, fun hw => ?_⟩
    · obtain ⟨p, pino, hp, hpi, hpd, hpo, hmem⟩ := (h.met q.i hdeep.2).dir ho.type
      exact ⟨p, hp, hpi, hpass.deep p q pino ino' hp hq hpd hdeep.1 hpi hpo ho, hpi ▸ hmem⟩
    · exact (h.met q.i hdeep.2).file hw.type
  split
  · next hdup =>
    exact Runs.const ⟨.refl h, fun _ _ => ⟨q, hq, rfl, rfl, hdup⟩, (h.nodes _ hdup).file q hq rfl⟩
  dsimp only
  rw [hr]
  -- nothing is left to do but to enter it
  have honly : (∀ ino, ¬ Opens m q.i q.remain ino) → ¬ Wanted m q.i q.remain →
      Post m P Q s (s.enterInode q.dest q.i) ∧ ∀ s', Seen m s' q.remain q.i := fun hd hf =>
    ⟨Post.enterInode h hq hd hf, fun _ => ⟨fun ino ho => absurd ho (hd ino), fun hw => absurd hw hf⟩⟩
  split
  · next hdirectory =>
    have hnofile : ¬ Wanted m q.i q.remain := fun hw => by
      have ht := htype.symm.trans hw.type
      rw [hdirectory] at ht
      exact absurd ht (by decide)
    split
    · next hstop =>
      obtain ⟨hentered, hseen⟩ := honly (fun ino ho => ho.scanned hstop) hnofile
      exact Runs.const ⟨hentered, hseen _⟩
    · next hscan =>
      refine (directory_runs hpass hdir hq ⟨hdirectory ▸ htype, hino, hscan⟩ hcallers h hu).imp ?_
      exact fun s' hs' => ⟨hs'.1, fun _ _ => ⟨q, hq, rfl, rfl, hs'.2⟩, fun hw => absurd hw hnofile⟩
  next hnodir =>
  have hnodir' : ∀ ino, ¬ Opens m q.i q.remain ino := fun ino ho =>
    hnodir (Option.some.inj (htype.symm.trans ho.type))
  split
  · next hreg =>
    split
    · next hend =>
      have hw : Wanted m q.i q.remain := ⟨hreg ▸ htype, hend⟩
      refine (dumpInumFile_runs (length_content hino)
        (hfiles q.i ⟨q, hq, rfl, hw⟩ ino hino) _ _).imp fun s' hf => ?_
      exact ⟨Post.filed hpass hq hw h hf, fun ino ho => absurd ho (hnodir' ino), fun _ => hf.dumped⟩
    · next hmore =>
      obtain ⟨hentered, hseen⟩ := honly hnodir' fun hw => hmore hw.atEnd
      exact Runs.const ⟨hentered, hseen _⟩
  · next hnoreg =>
    have hnofile : ¬ Wanted m q.i q.remain := fun hw =>
      hnoreg (Option.some.inj (htype.symm.trans hw.type))
    obtain ⟨hentered, hseen⟩ := honly hnodir' hnofile
    split
    · split
      · exact Runs.const ⟨⟨hentered.grows.trans (.of_eq rfl rfl rfl), hentered.loop,
          hentered.inv.of_eq hentered.inv.cache rfl rfl rfl rfl⟩, hseen _⟩
      · exact Runs.const ⟨hentered, hseen _⟩
    · exact Runs.const ⟨hentered, hseen _⟩

theorem treeOk_step (hpass : Passes m) (hfiles : ∀ i, Found m i → FileFine m i)
    (hdir : ∀ w, DirOk m u w) : TreeOk m u := by
  intro q r L P Q s hq hr hcallers h hu
  obtain ⟨ino, hino⟩ := Option.isSome_iff_exists.mp hq.along.content
  obtain ⟨iscan, hi⟩ : ∃ iscan, m.inodes[q.i]? = some iscan := by
    cases hi : m.inodes[q.i]? with
    | none =>
        unfold content rereadInode at hino
        rw [hi] at hino
        cases hino
    | some iscan => exact ⟨iscan, rfl⟩
  have htype : typeOf m q.i = some iscan.type := by rw [typeOf, hi]; rfl
  obtain ⟨cache, hsound, hread⟩ := rereadInode_spec hi h.cache
  have hpost := Post.cache h hsound
  refine Runs.body (g := fun n => dumpInode m (fun remain base s =>
    dumpDirData m n q.dest remain base q.depth s) n q.i iscan ino q.dest r q.depth { s with cache })
    (fun n => by rw [dumpTree, hread, hino]; rfl) ?_
  refine (dumpInode_runs hpass hfiles hdir hq hr htype hino (hcallers.post hpost) hpost.inv
    (hpost.unmarked hu)).imp fun s' hs' => ⟨hpost.trans hs'.1, hs'.2⟩

/-- **Every version that is reached**, by the inodes that are not on the path. -/
theorem treeOk (hpass : Passes m) (hfiles : ∀ i, Found m i → FileFine m i) : ∀ u, TreeOk m u := by
  intro u
  induction u with
  | zero => exact treeOk_step hpass hfiles (dirOk hpass nofun)
  | succ u ih =>
      exact treeOk_step hpass hfiles (dirOk hpass fun v hv => Nat.succ.inj hv ▸ ih)

end Calls

end Hammer2.Recover
