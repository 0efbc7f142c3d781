/-
# `Hammer2.Recover.Complete` — a pass

    cmdRecover_runs    a pass ends, and every directory it begins at was seen
    cmdRecover_fine    a pass that ends has dumped sound files only
    recovers_iff       a pass does what is asked of it if and only if the files come to an end and
                       can be decompressed in place

A file with an indirect block that leads to itself is dumped for ever.
-/
import Hammer2.Dmsg.Framing
import Hammer2.Recover.Walk

namespace Hammer2.Recover

open Fuel Relation
open Fsck (Volume Blockref Checks getVolume pbufsize)

section Complete

variable {m : Recovery} {s s' : St} {b : Blockref}

/-! ## The pass ends -/

theorem Inv.init : Inv m (fun _ => False) (fun _ => False) St.init :=
  ⟨Cache.sound_init _, nofun, nofun, nofun, nofun⟩

theorem start_mono (m : Recovery) (s : St) (i : Nat) : Mono fun n =>
    if starts m i then dumpTree m n i m.destdir (wanted m) 1 s else .done s := by
  by_cases hstarts : starts m i = true
  · simp only [if_pos hstarts]
    exact dumpTree_mono _ _ _ _ _
  · simp only [if_neg hstarts]
    exact Mono.const _

/-- **The pass ends**, with nothing being scanned and every start seen. -/
theorem cmdRecover_runs (hpass : Passes m) (hfiles : ∀ i, Found m i → FileFine m i) :
    Runs (cmdRecover m) fun s => Inv m (fun _ => False) (fun _ => False) s ∧
      ∀ p, Start m p → Seen m s p.remain p.i := by
  refine (Runs.foldl (l := List.range m.inodes.length) (I := fun pre s =>
    Post m (fun _ => False) (fun _ => False) St.init s ∧
      ∀ p, Start m p → p.i ∈ pre → Seen m s p.remain p.i) (start_mono m) ?_ _ [] _ rfl
      ⟨.refl .init, nofun⟩).imp fun s hs => ⟨hs.1.inv, fun p hp => hs.2 p hp ?_⟩
  · rintro pre i post s hl ⟨hpost, hseen⟩
    have hi : i < m.inodes.length := by
      refine List.mem_range.mp ?_
      rw [hl]
      exact List.mem_append_right _ List.mem_cons_self
    -- what was seen before stays, and the start itself is seen now
    have hnext : ∀ s', Post m (fun _ => False) (fun _ => False) s s' →
        (∀ p, Start m p → p.i = i → Seen m s' p.remain p.i) →
        Post m (fun _ => False) (fun _ => False) St.init s' ∧
          ∀ p, Start m p → p.i ∈ pre ++ [i] → Seen m s' p.remain p.i := by
      intro s' hs' hnow
      refine ⟨hpost.trans hs', fun p hp hmem => ?_⟩
      rcases List.mem_append.mp hmem with hmem | hmem
      · exact (hseen p hp hmem).mono hs'.grows
      · exact hnow p hp (List.mem_singleton.mp hmem)
    by_cases hstarts : starts m i = true
    · simp only [if_pos hstarts]
      cases hc : content m i with
      | none =>
          obtain ⟨iscan, hiscan⟩ : ∃ iscan, m.inodes[i]? = some iscan :=
            ⟨_, List.getElem?_eq_getElem hi⟩
          refine (dumpTree_none hiscan hc hpost.inv).imp fun s' hs' => hnext s' hs' ?_
          intro p hp hpi
          have hsome := hp.content
          rw [hpi, hc] at hsome
          cases hsome
      | some ino =>
          have hstart : Start m ⟨i, m.destdir, skipSlashes (wanted m), 1⟩ :=
            ⟨hstarts, by rw [hc]; rfl, rfl, rfl, rfl⟩
          refine (treeOk hpass hfiles m.inodes.length
            ⟨i, m.destdir, skipSlashes (wanted m), 1⟩ (wanted m) [] _ _ s hstart.reached rfl
            ⟨fun j => ?_, nofun, nofun⟩ hpost.inv (AtMost.range fun x hx => hx.1)).imp
              fun s' hs' => hnext s' hs'.1 fun p hp hpi => ?_
          · rw [hpost.loop]
            exact ⟨nofun, fun hor => hor.elim (fun h => by
              obtain ⟨p, hp, -⟩ := h
              cases hp) fun h => absurd rfl h.1⟩
          · rw [hp.remain, hpi]
            exact hs'.2
    · simp only [if_neg hstarts]
      refine Runs.const (hnext s (.refl hpost.inv) fun p hp hpi => ?_)
      exact absurd (hpi ▸ hp.starts) hstarts
  · have hlt : p.i < m.inodes.length := by
      have hs' := hp.starts
      have htype := (of_decide_eq_true hs').1
      by_contra hge
      rw [typeOf, List.getElem?_eq_none (Nat.not_lt.mp hge)] at htype
      cases htype
    exact List.mem_range.mpr hlt

/-- Of a directory that was entered every blockref was dealt with. -/
theorem Inv.handled (h : Inv m (fun _ => False) (fun _ => False) s) {p : Pos} {ino : List UInt8}
    (hp : Reached m p) (ho : Opens m p.i p.remain ino) (hmem : (p.dest, p.i) ∈ s.topoInode)
    (hb : Within m (Inode.blockset ino) b) : Handled m s p.dest p.remain b := by
  induction hb with
  | here hb => exact ((h.nodes _ hmem).dir p ino hp rfl ho).resolve_left id _ hb
  | down hb hat hl hc ih =>
      exact (h.brefs _ (ih.indirect hat) p ino _ _ hp ho hb hat rfl hl).resolve_left id _ hc

/-- **Every version that is reached was seen.** -/
theorem Inv.seen (h : Inv m (fun _ => False) (fun _ => False) s)
    (hstart : ∀ p, Start m p → Seen m s p.remain p.i) {p : Pos} (hp : Reached m p) :
    Seen m s p.remain p.i := by
  obtain ⟨p₀, hp₀, hsteps⟩ := hp
  induction hsteps with
  | refl => exact hstart p₀ hp₀
  | tail hsteps hs ih =>
      cases hs with
      | mk ho hb hn =>
          obtain ⟨q, hq, hqi, hqr, hmem⟩ := ih.dir _ ho
          rw [← hqi, ← hqr] at ho
          have hhandled := h.handled hq ho (hqi ▸ hmem) hb
          rw [hqr] at hhandled
          exact hhandled.dirent _ _ hn

/-! ## A pass that ends -/

/-- Sound files only were dumped. -/
structure Fine (m : Recovery) (s : St) : Prop where
  cache : s.cache.Sound m.fso
  dumped : ∀ i, Dumped s i → FileFine m i
  link : ∀ i, s.linkFilePath i ≠ none → FileFine m i

theorem Fine.of_eq (h : Fine m s) (hcache : s'.cache.Sound m.fso)
    (hlog : ∀ e ∈ s'.log, e ∈ s.log ∨ e.dumps = none) (hlink : s'.linkFilePath = s.linkFilePath) :
    Fine m s' := by
  refine ⟨hcache, fun i hi => ?_, fun i hi => h.link i (hlink ▸ hi)⟩
  obtain ⟨e, he, hd⟩ := hi
  rcases hlog e he with hold | hnone
  · exact h.dumped i ⟨e, hold, hd⟩
  · rw [hnone] at hd
    cases hd

theorem Fine.makeDir (h : Fine m s) (depth i : Nat) (dest : Path) :
    Fine m (makeDir m depth i dest s) := by
  unfold Recover.makeDir
  split
  · exact h
  split
  · refine h.of_eq h.cache (fun e he => ?_) rfl
    rcases List.mem_cons.mp he with rfl | he
    · exact .inr rfl
    · exact .inl he
  · exact h

theorem Fine.filed (h : Fine m s) {n i : Nat} {ino : List UInt8} {path : Path}
    (hino : content m i = some ino) (hdone : dumpInumFile m n i ino path s = .done s') :
    Fine m s' := by
  obtain ⟨hfiled, hsound⟩ := dumpInumFile_done hdone (length_content hino) fun hlink =>
    h.link i hlink ino hino
  have hfine : FileFine m i := by
    intro ino' hino'
    cases hino.symm.trans hino'
    exact hsound
  refine ⟨?_, fun j hj => ?_, fun j hj => ?_⟩
  · rw [hfiled.same]
    exact h.cache
  · obtain ⟨e, he, hd⟩ := hj
    rcases hfiled.made e he with hold | hnew
    · exact h.dumped j ⟨e, hold, hd⟩
    · exact hnew.2 j hd ▸ hfine
  · by_cases heq : j = i
    · exact heq ▸ hfine
    · exact h.link j (hfiled.others j heq ▸ hj)

theorem dumpInode_fine {scan : Path → List Blockref → St → Res (Bool × St)}
    (hscan : ∀ r base s x, Fine m s → scan r base s = .done x → Fine m x.2) {n i depth : Nat}
    {iscan : InodeEntry} {ino : List UInt8} {dest remain : Path} (h : Fine m s)
    (hino : content m i = some ino)
    (hdone : dumpInode m scan n i iscan ino dest remain depth s = .done s') : Fine m s' := by
  have henter : Fine m (s.enterInode dest i) := h.of_eq h.cache (fun e he => .inl he) rfl
  unfold dumpInode at hdone
  split at hdone
  · cases hdone
    exact h
  split at hdone
  · cases hdone
    exact h
  dsimp only at hdone
  split at hdone
  · split at hdone
    · cases hdone
      exact henter
    · obtain ⟨x, hx, hs'⟩ := Res.bind_eq_done hdone
      cases hs'
      exact hscan _ _ _ x (henter.makeDir _ _ _) hx
  split at hdone
  · split at hdone
    · have hmeet : Fine m (((s.enterInode dest i).iterate dest).meet i) :=
        henter.of_eq henter.cache (fun e he => .inl he) rfl
      exact hmeet.filed hino hdone
    · cases hdone
      exact henter
  split at hdone
  · split at hdone
    · cases hdone
      exact henter.of_eq henter.cache (fun e he => .inl he) rfl
    · cases hdone
      exact henter
  · cases hdone
    exact henter

theorem dumpDirBref_fine {tree : Nat → Path → Path → Nat → St → Res St}
    {down : List Blockref → St → Res (Bool × St)}
    (htree : ∀ i dest r d s s', Fine m s → tree i dest r d s = .done s' → Fine m s')
    (hdown : ∀ l s x, Fine m s → down l s = .done x → Fine m x.2) {dest remain : Path}
    {depth : Nat} {r r' : Bool × St} (h : Fine m r.2)
    (hdone : dumpDirBref m tree down dest remain depth r b = .done r') : Fine m r'.2 := by
  unfold dumpDirBref at hdone
  split at hdone
  · cases hdone
    exact h
  split at hdone
  · cases hdone
    exact h
  split at hdone
  · obtain ⟨name, -, hname⟩ := Res.bind_eq_done hdone
    cases name with
    | none =>
        cases hname
        exact h
    | some name =>
        obtain ⟨s', hs', hr'⟩ := Res.bind_eq_done hname
        cases hr'
        refine foldl_done (I := Fine m) _ _ _ (fun i _ s s' hs hstep => ?_) h hs'
        unfold dumpVersion at hstep
        split at hstep
        · obtain ⟨s₁, hs₁, hend⟩ := Res.bind_eq_done hstep
          cases hend
          have hset : Fine m (s.setLoop i true) := hs.of_eq hs.cache (fun e he => .inl he) rfl
          have hfine := htree _ _ _ _ _ s₁ hset hs₁
          exact hfine.of_eq hfine.cache (fun e he => .inl he) rfl
        · cases hstep
          exact hs
  split at hdone
  · split at hdone
    · cases hdone
      exact h
    split at hdone
    · cases hdone
      exact h
    have henter : Fine m (r.2.enterBref dest b.dataOff) :=
      h.of_eq h.cache (fun e he => .inl he) rfl
    obtain ⟨blk, -, hblk⟩ := Res.bind_eq_done hdone
    cases blk with
    | none =>
        cases hblk
        exact henter
    | some blk =>
        obtain ⟨x, hx, hend⟩ := Res.bind_eq_done hblk
        cases hend
        exact hdown _ _ x henter hx
  · cases hdone
    exact h

theorem dump_fine (m : Recovery) : ∀ n,
    (∀ i dest r depth s s', Fine m s → dumpTree m n i dest r depth s = .done s' → Fine m s') ∧
    ∀ dest r base depth s x, Fine m s → dumpDirData m n dest r base depth s = .done x → Fine m x.2
  | 0 => by
      constructor
      · intro i dest r depth s s' _ h
        cases h
      · intro dest r base depth s x _ h
        cases h
  | n + 1 => by
      obtain ⟨htree, hdir⟩ := dump_fine m n
      constructor
      · intro i dest r depth s s' h hdone
        rw [dumpTree] at hdone
        cases hi : m.inodes[i]? with
        | none =>
            rw [rereadInode, hi] at hdone
            cases hdone
        | some iscan =>
            obtain ⟨cache, hsound, hread⟩ := rereadInode_spec hi h.cache
            have hfine : Fine m { s with cache } := h.of_eq hsound (fun e he => .inl he) rfl
            rw [hread] at hdone
            cases hino : content m i with
            | none =>
                rw [hino] at hdone
                cases hdone
                exact hfine
            | some ino =>
                rw [hino] at hdone
                exact dumpInode_fine (fun r base s x => hdir dest r base depth s x) hfine hino hdone
      · intro dest r base depth s x h hdone
        rw [dumpDirData] at hdone
        exact foldl_done (I := fun r => Fine m r.2) base _ _ (fun b _ r₁ r₂ hr hstep =>
          dumpDirBref_fine htree (fun l s x => hdir _ _ l _ s x) hr hstep) h hdone

/-- **A pass that ends** has dumped sound files only. -/
theorem cmdRecover_fine {n : Nat} (h : cmdRecover m n = .done s) : Fine m s := by
  refine foldl_done (I := Fine m) _ _ _ (fun i _ s s' hs hstep => ?_)
    ⟨Cache.sound_init _, fun i hi => ?_, fun i hi => absurd rfl hi⟩ h
  · split at hstep
    · exact (dump_fine m n).1 _ _ _ _ _ _ hs hstep
    · cases hstep
      exact hs
  · obtain ⟨e, he, -⟩ := hi
    cases he

theorem Recovers.fine (h : Recovers m) {i : Nat} (hi : Found m i) : FileFine m i := by
  obtain ⟨n, s, hdone, -, hdumped⟩ := h
  exact (cmdRecover_fine hdone).dumped i (hdumped i hi)

end Complete

/-! ## A root with one file -/

section OneFile

/-- The entry of the file `f`, with inode number 2. -/
def fileDirent : Blockref :=
  ⟨[4, 0, 0, 0] ++ List.replicate 44 0 ++ Bytes.encode 8 2 ++ Bytes.encode 2 1 ++ [2] ++
    List.replicate 5 0 ++ [102] ++ List.replicate 63 0⟩

/-- A blockref of an indirect block with one blockref, which is at the place of this one. -/
def loopBref : Blockref :=
  ⟨[2, 0, 0, 0] ++ List.replicate 28 0 ++ Bytes.encode 8 (0x30000 + 7) ++ List.replicate 88 0⟩

def emptyBref : Blockref := ⟨List.replicate 128 0⟩

def inodeOf (type opFlags : UInt8) (b : Blockref) : List UInt8 :=
  List.replicate 0x50 0 ++ [type, opFlags] ++ List.replicate 0x1ae 0 ++ b.raw ++ List.replicate 384 0

def rootInode : List UInt8 := inodeOf objtypeDirectory 0 fileDirent

/-- A device of 4MB: the root, the inode of the file, and the indirect block. -/
def oneFileVolume (file : List UInt8) : Volume where
  offset := 0
  size := 2 ^ 22
  devSize := 2 ^ 22
  data := fun a =>
    if a < 0x20000 then rootInode.getD (a - 0x10000) 0
    else if a < 0x30000 then file.getD (a - 0x20000) 0
    else loopBref.raw.getD (a - 0x30000) 0
  fails := fun _ _ => false

/-- `hammer2 recover-relaxed /dev/x / d`.  No blockref of the device has a check code. -/
def oneFile (file : List UInt8) : Recovery where
  fso := [oneFileVolume file]
  checks := ⟨fun bs => (Dmsg.iscsiCrc32 bs).toNat, fun _ => 0, fun _ => []⟩
  lz4 := ⟨fun _ _ => (-1, fun _ => 0), fun _ cap => by
    have hcap : (0 : Int) ≤ cap := Int.natCast_nonneg cap
    omega⟩
  zlib := ⟨fun _ cap => ⟨-3, cap, fun _ => 0⟩, fun _ _ => Nat.le_refl _⟩
  host := ⟨fun _ _ => true, fun _ _ _ _ => true, fun _ _ => 0⟩
  strictMode := false
  isafile := false
  pathname := [slash]
  destdir := [100]
  inodes := [⟨0x10000 + 10, 1, (Dmsg.iscsiCrc32 rootInode).toNat, objtypeDirectory⟩,
    ⟨0x20000 + 10, 2, (Dmsg.iscsiCrc32 file).toNat, objtypeRegfile⟩]

variable {file : List UInt8}

theorem content_of_read {m : Recovery} {i off : Nat} {iscan : InodeEntry} {buf : Nat → UInt8}
    {ino : List UInt8} (hi : m.inodes[i]? = some iscan)
    (hread : (cacheRead m.fso .init iscan.dataOff).1 = (Inode.bytes, some (buf, off)))
    (hino : ((List.range Inode.bytes).map fun k => buf (off + k)) = ino)
    (hcrc : iscan.inodeCrc = m.checks.icrc32 ino) : content m i = some ino := by
  have hfound : compareInode m iscan (Inode.bytes, some (buf, off)) = .done (some (iscan, ino)) := by
    unfold compareInode
    dsimp only
    rw [if_neg (not_not.mpr rfl), access_of_le (cacheRead_fits hread rfl), hino,
      if_neg (not_not.mpr hcrc)]
  rw [content, rereadInode_eq (s := .init) hi rfl (hread ▸ hfound)]
  rfl


/-- The read of a block that begins at a multiple of the size of the cache's buffers. -/
theorem cacheRead_one {vol : Volume} {pos : Nat} (h0 : vol.offset = 0) (hin : pos < vol.size)
    (hpos : pos % pbufsize = 0) (hlt : pos < 2 ^ 32) {data : Nat → UInt8}
    (hread : vol.read pos pbufsize = some data) :
    (cacheRead [vol] .init (pos + 10)).1 = (Inode.bytes, some (data, 0)) := by
  rw [Fsck.pbufsize] at hpos
  have hat : volumeAt [vol] (pos + 10) = some 0 := by
    rw [volumeAt, List.findIdx?_cons, if_pos]
    exact decide_eq_true ⟨by rw [h0]; exact Nat.zero_le _, by omega⟩
  have hpoff : poff vol (pos + 10) = pos := by
    rw [poff, h0]
    omega
  have hbytes : psize (pos + 10) = 1024 := by
    have hradix : radix (pos + 10) = 10 := by
      rw [radix]
      omega
    rw [psize, hradix]
    rfl
  have hbase : pos / pbufsize * pbufsize = pos := by
    rw [Fsck.pbufsize]
    omega
  unfold cacheRead
  rw [hat]
  simp only [List.getElem?_cons_zero, hpoff, hbytes, hbase, Cache.find_init, hread, Nat.sub_self]
  rw [if_neg, if_neg]
  · rfl
  · rw [not_not]
    omega
  · rw [not_not, Fsck.pbufsize]
    omega

theorem map_getD (l : List UInt8) : ((List.range l.length).map fun k => l.getD k 0) = l := by
  refine List.ext_getElem (by rw [List.length_map, List.length_range]) fun k _ h => ?_
  rw [List.getElem_map, List.getElem_range]
  rw [List.getD_eq_getElem?_getD, List.getElem?_eq_getElem h]
  rfl

theorem read_oneFile {pos n : Nat} (h : pos + n ≤ 2 ^ 22) :
    (oneFileVolume file).read pos n = some fun i => (oneFileVolume file).data (pos + i) := by
  rw [Volume.read, if_neg (by exact Bool.false_ne_true)]
  exact if_pos h

set_option maxRecDepth 20000 in
theorem content_root : content (oneFile file) 0 = some rootInode := by
  refine @content_of_read (oneFile file) 0 0 _ (fun i => (oneFileVolume file).data (0x10000 + i))
    rootInode rfl (@cacheRead_one (oneFileVolume file) 0x10000 rfl ?_ (by decide) (by decide) _
      (read_oneFile (by decide))) ?_ rfl
  · show _ < 2 ^ 22
    decide
  · have hlen : rootInode.length = Inode.bytes := by decide
    refine Eq.trans (List.map_congr_left fun k hk => ?_) (hlen ▸ map_getD rootInode)
    have hk' : k < 1024 := List.mem_range.mp hk
    show (if 0x10000 + (0 + k) < 0x20000 then _ else _) = _
    rw [if_pos (by omega)]
    exact congrArg (rootInode.getD · 0) (by omega)

theorem content_file (hlen : file.length = Inode.bytes) :
    content (oneFile file) 1 = some file := by
  refine @content_of_read (oneFile file) 1 0 _ (fun i => (oneFileVolume file).data (0x20000 + i))
    file rfl (@cacheRead_one (oneFileVolume file) 0x20000 rfl ?_ (by decide) (by decide) _
      (read_oneFile (by decide))) ?_ rfl
  · show _ < 2 ^ 22
    decide
  · refine Eq.trans (List.map_congr_left fun k hk => ?_) (hlen ▸ map_getD file)
    have hk' : k < 1024 := List.mem_range.mp hk
    show (if 0x20000 + (0 + k) < 0x20000 then _ else
      if 0x20000 + (0 + k) < 0x30000 then _ else _) = _
    rw [if_neg (by omega), if_pos (by omega)]
    exact congrArg (file.getD · 0) (by omega)

set_option maxRecDepth 20000 in
theorem blockset_root : Inode.blockset rootInode =
    [fileDirent, emptyBref, emptyBref, emptyBref] := by decide

def rootPos : Pos := ⟨0, [100], [], 1⟩
def filePos : Pos := ⟨1, [100, 47, 102], [], 2⟩

theorem start_root : Start (oneFile file) rootPos :=
  ⟨rfl, by rw [rootPos, content_root]; rfl, rfl, rfl, rfl⟩

theorem opens_root : Opens (oneFile file) 0 [] rootInode := ⟨rfl, content_root, nofun⟩

theorem names_file (hlen : file.length = Inode.bytes) :
    Names (oneFile file) [] fileDirent 1 [102] := by
  refine ⟨by decide, by rfl, by rfl, ?_, ?_, ?_⟩
  · rfl
  · rfl
  · rw [content_file hlen]
    rfl

theorem step_file (hlen : file.length = Inode.bytes) : Step (oneFile file) rootPos filePos :=
  @Step.mk _ rootPos rootInode fileDirent 1 [102] opens_root
    (.here (by rw [blockset_root]; exact List.mem_cons_self)) (names_file hlen)

theorem found_file (hlen : file.length = Inode.bytes) : Found (oneFile file) 1 :=
  ⟨filePos, ⟨rootPos, start_root, .single (step_file hlen)⟩, rfl, rfl, rfl⟩

theorem mem_blockset_root {b : Blockref} (h : b ∈ Inode.blockset rootInode) :
    b = fileDirent ∨ b = emptyBref := by
  rw [blockset_root] at h
  simpa using h

/-- The root has no indirect block. -/
theorem within_root {b : Blockref} (h : Within (oneFile file) (Inode.blockset rootInode) b) :
    (b = fileDirent ∨ b = emptyBref) ∧ ¬ IndirectAt (oneFile file) b := by
  induction h with
  | here hb =>
      have hor := mem_blockset_root hb
      refine ⟨hor, fun hat => ?_⟩
      have htype := hat.type
      rcases hor with rfl | rfl
      · exact absurd htype (by decide)
      · exact absurd htype (by decide)
  | down _ hat _ _ ih => exact absurd hat ih.2

/-- The entry of the root is the only one. -/
theorem names_root (hlen : file.length = Inode.bytes) {b : Blockref} {j : Nat} {name : Path}
    (hb : b = fileDirent ∨ b = emptyBref) (h : Names (oneFile file) [] b j name) :
    j = 1 ∧ name = [102] := by
  rcases hb with rfl | rfl
  · constructor
    · match j, h.inum with
      | 0, hinum =>
          have hne : some 1 = some fileDirent.inum := hinum
          exact absurd hne (by decide)
      | 1, _ => rfl
      | j + 2, hinum => cases hinum
    · cases h.entry.symm.trans (names_file hlen).entry
      rfl
  · exact absurd h.type (by decide)

theorem start_oneFile {p : Pos} (h : Start (oneFile file) p) : p = rootPos := by
  obtain ⟨i, dest, remain, depth⟩ := p
  obtain ⟨hs, -, hdest, hremain, hdepth⟩ := h
  have hi : i = 0 := by
    match i, (of_decide_eq_true hs).1 with
    | 0, _ => rfl
    | 1, htype => cases htype
    | i + 2, htype => cases htype
  dsimp only at hdest hremain hdepth
  subst hi hdest hremain hdepth
  rfl

theorem file_not_open {remain : Path} {ino : List UInt8} :
    ¬ Opens (oneFile file) 1 remain ino := fun ho => by
  have htype : some objtypeRegfile = some objtypeDirectory := ho.type
  exact absurd htype (by decide)

/-- Nothing else is reached. -/
theorem reached_oneFile (hlen : file.length = Inode.bytes) {p : Pos}
    (h : Reached (oneFile file) p) : p = rootPos ∨ p = filePos := by
  obtain ⟨p₀, hstart, hsteps⟩ := h
  induction hsteps with
  | refl => exact .inl (start_oneFile hstart)
  | tail _ hs ih =>
      cases hs with
      | mk ho hb hn =>
          rcases ih with rfl | rfl
          · cases ho.content.symm.trans content_root
            obtain ⟨rfl, rfl⟩ := names_root hlen (within_root hb).1 hn
            exact .inr rfl
          · exact absurd ho file_not_open

/-- The filters of a pass over such a device have nothing to drop. -/
theorem passes_oneFile (hlen : file.length = Inode.bytes) : Passes (oneFile file) := by
  have hroot : ∀ {p : Pos} {ino : List UInt8}, Reached (oneFile file) p →
      Opens (oneFile file) p.i p.remain ino → p = rootPos ∧ ino = rootInode := by
    intro p ino hp ho
    rcases reached_oneFile hlen hp with rfl | rfl
    · cases ho.content.symm.trans content_root
      exact ⟨rfl, rfl⟩
    · exact absurd ho file_not_open
  refine ⟨fun p ino hp hd ho => ?_, fun p hp hw => ?_, ?_, ?_, ?_⟩
  · rw [(hroot hp ho).1] at hd
    exact absurd rfl hd
  · rcases reached_oneFile hlen hp with rfl | rfl
    · have htype : some objtypeDirectory = some objtypeRegfile := hw.type
      exact absurd htype (by decide)
    · exact ⟨102 :: versionSuffix 1, rfl, by decide⟩
  · intro p q ino ino' b b' hp _ _ ho _ hb _ hat
    rw [(hroot hp ho).2] at hb
    exact absurd hat (within_root hb).2
  · intro p q ino ino' hp hd _ _ ho
    rw [(hroot hp ho).1] at hd
    exact absurd rfl hd
  · intro p q ino ino' hp _ hd _ _ ho
    rw [(hroot hp ho).1] at hd
    exact absurd rfl hd

/-- A file whose data are in its inode. -/
def directFile : List UInt8 := inodeOf objtypeRegfile 1 emptyBref

/-- A file with an indirect block that leads to itself. -/
def loopFile : List UInt8 := inodeOf objtypeRegfile 0 loopBref

set_option maxRecDepth 20000 in
theorem fileBlock_loop : FileBlock (oneFile loopFile) loopBref loopBref.raw := by
  refine ⟨by decide, by decide, by decide, ?_⟩
  have hvol : getVolume (oneFile loopFile).fso loopBref.dataOff = some (oneFileVolume loopFile) := by
    rfl
  have hread : (oneFileVolume loopFile).read (poff (oneFileVolume loopFile) loopBref.dataOff)
      (psize loopBref.dataOff) = some fun i => (oneFileVolume loopFile).data (0x30000 + i) := by
    have hpos : poff (oneFileVolume loopFile) loopBref.dataOff = 0x30000 := by decide
    have hsize : psize loopBref.dataOff = 128 := by decide
    rw [hpos, hsize]
    exact read_oneFile (by decide)
  have hdata : ((List.range (psize loopBref.dataOff)).map
      fun i => (oneFileVolume loopFile).data (0x30000 + i)) = loopBref.raw := by decide
  rw [block, hvol]
  simp only [hread, hdata]
  rfl

set_option maxRecDepth 20000 in
theorem not_fileSound_loop {base : List Blockref} (h : FileSound (oneFile loopFile) base)
    (hmem : loopBref ∈ base) : False := by
  induction h with
  | mk _ _ ih =>
      refine ih loopBref hmem loopBref.raw fileBlock_loop (by decide) ?_
      have hself : blockrefs loopBref.raw = [loopBref] := by decide
      rw [hself]
      exact List.mem_cons_self

end OneFile

end Hammer2.Recover
