/-
# `Hammer2.Directory.Links` — link counts through every run

Every run keeps the loose form of `Linked`: an inode that an entry names exists, is not marked
unlinked, and has at least as many links as entries.  A run keeps the tight form when none of
its steps is one of these:

    a link whose directory entry cannot be created    hammer2_link raises nlinks all the same
    a rename that fails once the source entry is gone    nothing puts the entry back
    an entry made in a directory that is unlinked itself    it goes down with the directory
-/
import Hammer2.Directory.Linked

namespace Hammer2.Dir

open Machine

variable {icrc32 : List UInt8 → UInt32} {tight : Prop} {held : List Nat} {s : Pfs}

/-- The inode is not marked unlinked. -/
def Pfs.isLive (s : Pfs) (i : Nat) : Bool := (s.inodes i).any fun ip => !ip.isunlinked

/-- The steps that keep link counts exact. -/
def LinkOk (icrc32 : List UInt8 → UInt32) (s : Pfs) : Op → Prop
  | .create dip _ _ _ _ _ _ => s.isLive dip = true
  | .link sdip sname tdip tname f => s.isLive tdip = true ∧
      (xop_nresolve icrc32 s tdip tname = none → ∀ ip ∈ xop_nresolve icrc32 s sdip sname,
        (dirent_create icrc32 (s.dirs tdip) tname ip (((s.inodes ip).map (·.type)).getD .unknown) f).2.isOk = true)
  | .rename _ _ tdip _ f => s.isLive tdip = true ∧ f.adjust = none ∧ f.target = none ∧ f.create = none
  | _ => True

theorem live_of_isLive {d : Nat} (h : s.isLive d = true) :
    ∀ ip, s.inodes d = some ip → ip.isunlinked = false := by
  intro ip hip
  simpa [Pfs.isLive, hip] using h

/-! ## A vnode changes nothing else -/

theorem mapInode_isSome (f : Inode → Inode) (i j : Nat) :
    ((s.mapInode i f).inodes j).isSome = (s.inodes j).isSome := by
  by_cases hj : j = i
  · subst hj
    simp [Pfs.mapInode, Pfs.setInode]
  · simp [Pfs.mapInode, Pfs.setInode, hj]

theorem nresolve_mapInode (f : Inode → Inode) (i d : Nat) (name : Name) :
    xop_nresolve icrc32 (s.mapInode i f) d name = xop_nresolve icrc32 s d name := by
  simp only [xop_nresolve, mapInode_isSome]
  rfl

theorem inodes_igetv {i j : Nat} {ip : Inode} (h : (s.mapInode i igetv).inodes j = some ip) :
    ∃ old, s.inodes j = some old ∧ ip = if j = i then igetv old else old := by
  by_cases hj : j = i
  · subst hj
    simpa [Pfs.mapInode, Pfs.setInode, eq_comm] using h
  · exact ⟨ip, by simpa [Pfs.mapInode, Pfs.setInode, hj] using h, by simp [hj]⟩

theorem isDir_igetv (i d : Nat) : (s.mapInode i igetv).isDir d = s.isDir d := by
  by_cases hd : d = i
  · subst hd
    cases h : s.inodes d <;> simp [Pfs.isDir, Pfs.mapInode, Pfs.setInode, h, igetv]
  · simp [Pfs.isDir, Pfs.mapInode, Pfs.setInode, hd]

theorem live_igetv {i d : Nat} (h : ∀ ip, s.inodes d = some ip → ip.isunlinked = false) :
    ∀ ip, (s.mapInode i igetv).inodes d = some ip → ip.isunlinked = false := by
  intro ip hip
  obtain ⟨old, hold, rfl⟩ := inodes_igetv hip
  have := h old hold
  by_cases hd : d = i
  · simpa [hd, igetv] using this
  · simpa [hd] using this

namespace Linked

/-- The inode a name resolves to gets a vnode. -/
theorem vget_resolved (h : Linked icrc32 tight [] s) {d i : Nat} {name : Name}
    (hres : xop_nresolve icrc32 s d name = some i) : Linked icrc32 tight [] (s.mapInode i igetv) := by
  obtain ⟨e, he, hname, rfl, _⟩ := h.resolved hres
  obtain ⟨ip, hip, hlive, _⟩ := h.inode_of_find he hname
  exact h.vget hip hlive

/-- `hammer2_rename`, when the vnode of the replaced inode is in use. -/
theorem rename (h : Linked icrc32 tight [] s) {fdip tdip : Nat} {n1 n2 : Name} {f : RenameFaults}
    {es : Dirent} (tip : Option Nat) (he : es ∈ s.dirs fdip) (hname : es.name = n1.bytes)
    (hdir : s.isDir tdip = true) (hlive : tight → ∀ ip, s.inodes tdip = some ip → ip.isunlinked = false)
    (hlate : tight → f.adjust = none ∧ f.target = none ∧ f.create = none)
    (htip : Target s tdip n2 es.inum tip)
    (hvp : ∀ t, tip = some t → ∃ ip, s.inodes t = some ip ∧ ip.vp = .active) :
    Linked icrc32 tight [] (Dir.rename icrc32 s fdip n1 tdip n2 tip f).1 := by
  cases hlhc : free_lhc icrc32 (s.dirs tdip) n2.bytes f.scan with
  | error e =>
      simp only [Dir.rename, hlhc]
      exact h
  | ok lhc =>
      cases hrun : xop_nrename icrc32 s fdip tdip (tip.filter s.isDir) lhc n1 n2 f with
      | mk s' r =>
          obtain ⟨hinodes, hok, herr⟩ := h.nrename he hname hlhc hdir hlive hlate htip hrun
          cases r with
          | error e =>
              obtain ⟨hno, hl⟩ := herr e rfl
              simp only [Dir.rename, hlhc, hrun, if_neg hno]
              exact hl
          | ok u =>
              obtain ⟨hl, hempty⟩ := hok rfl
              simp only [Dir.rename, hlhc, hrun]
              cases tip with
              | none => exact hl
              | some t =>
                  obtain ⟨ip, hip, hactive⟩ := hvp t rfl
                  rw [← hinodes] at hip
                  exact hl.pay hip (by simp [hactive]) fun _ => hempty t rfl

theorem inactive (h : Linked icrc32 tight [] s) {i : Nat} {ip : Inode} (hip : s.inodes i = some ip)
    (hvp : ip.vp = .active) : Linked icrc32 tight [] (s.mapInode i Dir.inactive) := by
  have hs := h.sound i ip hip
  have hidle : ip.deleting = false := by
    have hq := hs.queued
    simpa [hvp] using hq
  have hkept : (Dir.inactive ip).type = ip.type ∧ (Dir.inactive ip).isunlinked = ip.isunlinked ∧
      (Dir.inactive ip).nlinks = ip.nlinks := by
    by_cases hmode : ip.mode = 0 <;> simp [Dir.inactive, hmode]
  obtain ⟨htype, hun, hlinks⟩ := hkept
  refine h.mapInode hip (fun _ _ => rfl) htype ⟨?_, ?_, ?_⟩ fun ht hdead => ?_
  · rw [hun, hlinks]
    exact hs.counted
  · rw [hun]
    exact hs.gone
  · by_cases hmode : ip.mode = 0 <;> simp [Dir.inactive, hmode, hidle]
  · exact h.dead ht i ip hip (hun ▸ hdead)

theorem reclaim (h : Linked icrc32 tight [] s) {i : Nat} {ip : Inode} (hip : s.inodes i = some ip) :
    Linked icrc32 tight [] (s.mapInode i Dir.reclaim) := by
  have hs := h.sound i ip hip
  refine h.mapInode hip (fun _ _ => rfl) rfl ⟨hs.counted, hs.gone, ?_⟩ fun ht => h.dead ht i ip hip
  have hq := hs.queued
  cases hun : ip.isunlinked with
  | false => simpa [Dir.reclaim, hun] using hq
  | true => simp [Dir.reclaim, hun]

end Linked

/-- Every operation keeps the relation, loosely in any case. -/
theorem step_linked {op : Op} {s' : Pfs} {r : Except Error Unit} (h : Linked icrc32 tight [] s)
    (hok : tight → LinkOk icrc32 s op) (hstep : apply icrc32 s op = some (s', r)) :
    Linked icrc32 tight [] s' := by
  cases op with
  | create dip name type mode det f vget =>
      simp only [apply] at hstep
      split at hstep
      · rename_i hdir
        split at hstep
        · obtain ⟨rfl, _⟩ := Prod.mk.inj (Option.some.inj hstep)
          exact h
        · rename_i hres
          have hrun := h.create type mode det f vget hdir hres fun ht => live_of_isLive (hok ht)
          rwa [Option.some.inj hstep] at hrun
      · simp at hstep
  | link sdip sname tdip tname f =>
      simp only [apply] at hstep
      split at hstep
      · rename_i hdir
        split at hstep
        · obtain ⟨rfl, _⟩ := Prod.mk.inj (Option.some.inj hstep)
          exact h
        · rename_i i hsrc
          split at hstep
          · obtain ⟨rfl, _⟩ := Prod.mk.inj (Option.some.inj hstep)
            exact h
          · rename_i hres
            obtain ⟨e, he, hname, rfl, _⟩ := h.resolved hsrc
            obtain ⟨ip, hip, hlive, _⟩ := h.inode_of_find he hname
            have hip' : (s.mapInode e.inum igetv).inodes e.inum = some (igetv ip) := by
              simp [Pfs.mapInode, Pfs.setInode, hip]
            have hrun := (h.vget hip hlive).link (f := f) hip' hlive (by rw [isDir_igetv]; exact hdir)
              (by rw [nresolve_mapInode]; exact hres)
              (fun ht => live_igetv (live_of_isLive (hok ht).1)) fun ht => by
                have hmade := (hok ht).2 hres e.inum hsrc
                rw [hip, Option.map_some, Option.getD_some] at hmade
                exact hmade
            rwa [Option.some.inj hstep] at hrun
      · simp at hstep
  | unlink dip name isdir fault =>
      simp only [apply] at hstep
      split at hstep
      · split at hstep
        · obtain ⟨rfl, _⟩ := Prod.mk.inj (Option.some.inj hstep)
          exact h
        · rename_i i hres
          split at hstep
          · obtain ⟨rfl, _⟩ := Prod.mk.inj (Option.some.inj hstep)
            exact h
          · obtain ⟨e, he, hname, rfl, _⟩ := h.resolved hres
            obtain ⟨ip, hip, hlive, _⟩ := h.inode_of_find he hname
            have hip' : (s.mapInode e.inum igetv).inodes e.inum = some (igetv ip) := by
              simp [Pfs.mapInode, Pfs.setInode, hip]
            have hrun := (h.vget hip hlive).unlink isdir fault he hname hip' rfl
            rwa [Option.some.inj hstep] at hrun
      · simp at hstep
  | rename fdip fname tdip tname f =>
      simp only [apply] at hstep
      split at hstep
      · rename_i hdirs
        split at hstep
        · obtain ⟨rfl, _⟩ := Prod.mk.inj (Option.some.inj hstep)
          exact h
        · rename_i fip hsrc
          obtain ⟨es, he, hname, rfl, _⟩ := h.resolved hsrc
          have h1 := h.vget_resolved hsrc
          have hlive1 : tight → ∀ ip, (s.mapInode es.inum igetv).inodes tdip = some ip →
              ip.isunlinked = false := fun ht => live_igetv (live_of_isLive (hok ht).1)
          split at hstep
          · rename_i hres
            have hrun := h1.rename none he hname (by rw [isDir_igetv]; exact hdirs.2) hlive1
              (fun ht => (hok ht).2) (h.absent hres) (by simp)
            rwa [Option.some.inj hstep] at hrun
          · rename_i tip hres
            split at hstep
            · obtain ⟨rfl, _⟩ := Prod.mk.inj (Option.some.inj hstep)
              exact h
            · rename_i hne
              obtain ⟨et, het, hetname, rfl, _⟩ := h.resolved hres
              have hres1 : xop_nresolve icrc32 (s.mapInode es.inum igetv) tdip tname = some et.inum := by
                rw [nresolve_mapInode]
                exact hres
              have h2 := h1.vget_resolved hres1
              have hrun := h2.rename (some et.inum) he hname
                (by rw [isDir_igetv, isDir_igetv]; exact hdirs.2) (fun ht => live_igetv (hlive1 ht))
                (fun ht => (hok ht).2) ⟨hne, et, het, hetname, rfl⟩ fun t ht => by
                  obtain rfl := Option.some.inj ht
                  obtain ⟨ip, hip, _⟩ := h1.inode_of_find het hetname
                  exact ⟨igetv ip, by simp [Pfs.mapInode, Pfs.setInode] at hip ⊢; simp [hip], rfl⟩
              rwa [Option.some.inj hstep] at hrun
      · simp at hstep
  | lookup dip name =>
      simp only [apply] at hstep
      split at hstep
      · obtain ⟨rfl, _⟩ := Prod.mk.inj (Option.some.inj hstep)
        exact h
      · rename_i i hres
        obtain ⟨rfl, _⟩ := Prod.mk.inj (Option.some.inj hstep)
        exact h.vget_resolved hres
  | inactive i =>
      simp only [apply] at hstep
      split at hstep
      · rename_i hvp
        obtain ⟨rfl, _⟩ := Prod.mk.inj (Option.some.inj hstep)
        obtain ⟨ip, hip, hactive⟩ := (Option.any_eq_true _ _).mp hvp
        exact h.inactive hip (by simpa using hactive)
      · simp at hstep
  | reclaim i =>
      simp only [apply] at hstep
      split at hstep
      · rename_i hvp
        obtain ⟨rfl, _⟩ := Prod.mk.inj (Option.some.inj hstep)
        obtain ⟨ip, hip, _⟩ := (Option.any_eq_true _ _).mp hvp
        exact h.reclaim hip
      · simp at hstep
  | destroy i =>
      simp only [apply] at hstep
      split at hstep
      · rename_i hq
        obtain ⟨rfl, _⟩ := Prod.mk.inj (Option.some.inj hstep)
        obtain ⟨ip, hip, hdel⟩ := (Option.any_eq_true _ _).mp hq
        exact h.destroy hip ((h.sound i ip hip).queued.mp hdel).1
      · simp at hstep

/-! ## Runs -/

theorem linked_newfs (icrc32 : List UInt8 → UInt32) (tight : Prop) : Linked icrc32 tight [] newfs := by
  have hlinks : ∀ i, names newfs [] i = if i = 1 then 1 else 0 := fun i => by
    simp [names, links, newfs, naming]
  have hinodes : ∀ i, i ≠ 1 → newfs.inodes i = none := fun i hi => by simp [newfs, hi]
  refine ⟨by decide, ?_, hinodes 0 (by decide), ?_, by simp [newfs], by simp [newfs], ?_, ?_, ?_, ?_⟩
  · intro i hi
    have : 17 ≤ i := hi
    exact hinodes i (by omega)
  · exact fun _ => wellFormed_nil
  · exact fun _ _ => rfl
  · intro i _ hnone
    rw [hlinks, if_neg]
    rintro rfl
    simp [newfs] at hnone
  · intro i ip hip
    by_cases hi : i = 1
    · subst hi
      obtain rfl := Option.some.inj (show some _ = some ip from hip)
      rw [hlinks]
      exact ⟨fun _ => ⟨Nat.le_refl _, fun _ => ⟨Nat.le_refl _, Nat.le_refl _⟩⟩, by simp, by simp⟩
    · simp [hinodes i hi] at hip
  · exact fun _ _ _ _ _ => rfl

theorem exec_linked (tight : Prop) {ops : List Op} {s : Pfs} (hok : tight → AllSteps (step icrc32) (LinkOk icrc32) newfs ops)
    (hrun : exec (step icrc32) newfs ops = some s) : Linked icrc32 tight [] s := by
  have hkeep : ∀ s op t, Linked icrc32 tight [] s → (tight → LinkOk icrc32 s op) →
      step icrc32 s op = some t → Linked icrc32 tight [] t := by
    intro s op t h hstep hmove
    obtain ⟨⟨s', r⟩, happly, rfl⟩ := Option.map_eq_some_iff.mp hmove
    exact step_linked h hstep happly
  have hall : AllSteps (step icrc32) (fun s op => tight → LinkOk icrc32 s op) newfs ops := by
    by_cases ht : tight
    · exact (hok ht).mono fun _ _ hstep _ => hstep
    · exact (allSteps_true (step icrc32) newfs ops).mono fun _ _ _ habs => absurd habs ht
  exact exec_invariant hkeep (linked_newfs icrc32 tight) hall hrun

/-- **Link counts.**  In a run without the three steps above, an inode that is not marked
unlinked has as many links as names, it is marked when it has no name left, and it is queued
for destruction when besides its vnode was let go. -/
theorem run_linked {ops : List Op} {s : Pfs} (hrun : exec (step icrc32) newfs ops = some s)
    (hok : AllSteps (step icrc32) (LinkOk icrc32) newfs ops) {i : Nat} {ip : Inode}
    (hip : s.inodes i = some ip) :
    (ip.isunlinked = false → ip.nlinks = links s i) ∧
      (ip.isunlinked = true ↔ links s i = 0) ∧
      (ip.deleting = true ↔ links s i = 0 ∧ (ip.vp = .none ∨ ip.vp = .inactive ∧ ip.mode ≠ 0)) := by
  have hs := (exec_linked True (fun _ => hok) hrun).sound i ip hip
  have hunlinked : ip.isunlinked = true ↔ links s i = 0 := by
    constructor
    · exact hs.gone
    · intro hzero
      cases hun : ip.isunlinked with
      | true => rfl
      | false =>
          have hone := ((hs.counted hun).2 trivial).2
          simp only [names, List.count_nil, hzero] at hone
          omega
  refine ⟨fun hun => ?_, hunlinked, ?_⟩
  · obtain ⟨hle, hge⟩ := hs.counted hun
    exact Nat.le_antisymm (hge trivial).1 hle
  · rw [← hunlinked]
    exact hs.queued

/-- Two names; the runs below use a checksum that tells no names apart. -/
def nameA : Name := ⟨[97], by decide, by decide⟩
def nameB : Name := ⟨[98], by decide, by decide⟩

def mkEntry (dip : Nat) (name : Name) (type : ObjType) : Op :=
  .create dip name type 0o644 none ⟨none, .none⟩ true

instance (icrc32 : List UInt8 → UInt32) (s : Pfs) (op : Op) : Decidable (LinkOk icrc32 s op) := by
  cases op <;> (unfold LinkOk; infer_instance)

/-- A file is linked under a second name and loses the first one. -/
def secondName : List Op :=
  [mkEntry 1 nameA .regfile, .link 1 nameA 1 nameB ⟨none, .none⟩, .unlink 1 nameA false none]

theorem run_linked_second : ∃ s ip, exec (step fun _ => 0) newfs secondName = some s ∧
    s.inodes 17 = some ip ∧ ip.nlinks = links s 17 ∧ ip.nlinks = 1 := by
  refine ⟨_, _, rfl, rfl, ?_, by decide⟩
  exact (@run_linked (fun _ => 0) secondName _ rfl (by decide) 17 _ rfl).1 (by decide)

/-- What one would like to hold of an inode in every run. -/
def Balanced (s : Pfs) (i : Nat) : Prop :=
  ∀ ip ∈ s.inodes i, (ip.isunlinked = false → ip.nlinks = links s i) ∧
    (ip.deleting = true ↔ links s i = 0)

instance (s : Pfs) (i : Nat) : Decidable (Balanced s i) := by
  unfold Balanced
  infer_instance

/-- A failed link, a rename that fails late, an entry in a removed directory, and a file that is
still in use when its last name goes. -/
def unbalancedRuns : List (List Op × Nat) :=
  [([mkEntry 1 nameA .regfile, .link 1 nameA 1 nameB ⟨none, .before .enospc⟩], 17),
   ([mkEntry 1 nameA .regfile, .rename 1 nameA 1 nameB ⟨none, none, none, none, some .enospc⟩], 17),
   ([mkEntry 1 nameA .directory, .unlink 1 nameA true none, mkEntry 17 nameB .regfile,
      .inactive 17, .destroy 17], 18),
   ([mkEntry 1 nameA .regfile, .unlink 1 nameA false none], 17)]

theorem runs_unbalanced : unbalancedRuns.Forall fun r =>
    ∃ s, exec (step fun _ => 0) newfs r.1 = some s ∧ ¬ Balanced s r.2 :=
  ⟨⟨_, rfl, by decide⟩, ⟨_, rfl, by decide⟩, ⟨_, rfl, by decide⟩, ⟨_, rfl, by decide⟩⟩

end Hammer2.Dir
