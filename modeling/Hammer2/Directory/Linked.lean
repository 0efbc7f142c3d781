/-
# `Hammer2.Directory.Linked` — link counts and entries, through every operation

`Linked` relates the inodes to the entries.  Some operations take an entry out of a directory
before they pay for it in `nlinks`, or put it back elsewhere; `held` lists the inodes of such
entries, so that the relation holds between the steps of an operation as well.

    take, put          an entry leaves or enters a directory
    bump, pay          hammer2_link and hammer2_inode_unlink_finisher adjust nlinks
    step_linked        every operation keeps `Linked`, with nothing held

The relation comes in two strengths.  When `tight` holds, `nlinks` is the number of entries;
in every run, failures included, it is at least that number.
-/
import Hammer2.Directory.Ops
import Mathlib.Algebra.BigOperators.Group.Finset.Basic

namespace Hammer2.Dir

variable {icrc32 : List UInt8 → UInt32}

/-! ## Counting entries -/

/-- The entries of a directory that name an inode. -/
def naming (dir : Directory) (i : Nat) : Nat := dir.countP (fun e => e.inum == i)

/-- The directory entries that name an inode.  The root is named in the super-root. -/
def links (s : Pfs) (i : Nat) : Nat :=
  (if i = 1 then 1 else 0) + ∑ d ∈ Finset.range s.inode_tid, naming (s.dirs d) i

theorem naming_create (dir : Directory) (e : Dirent) (i : Nat) :
    naming (chain_create dir e) i = naming dir i + if e.inum = i then 1 else 0 := by
  rw [naming, chain_create, (List.perm_orderedInsert _ e dir).countP_eq, List.countP_cons]
  simp [naming]

/-- Taking an entry out takes out that entry only. -/
theorem WellFormed.delete_perm {dir : Directory} (h : WellFormed icrc32 dir) {e : Dirent} (he : e ∈ dir) :
    dir.Perm (e :: chain_delete dir e.key) := by
  have hnodup : dir.Nodup := h.sorted.imp fun hlt heq => absurd hlt (by simp [heq])
  have herase : dir.erase e = chain_delete dir e.key := by
    rw [hnodup.erase_eq_filter, chain_delete]
    refine List.filter_congr fun x hx => ?_
    by_cases hxe : x = e
    · simp [hxe]
    · have hkey : x.key ≠ e.key := fun hk => hxe (h.key_inj hx he hk)
      simp [hxe, hkey]
  rw [← herase]
  exact List.perm_cons_erase he

theorem naming_delete {dir : Directory} (h : WellFormed icrc32 dir) {e : Dirent} (he : e ∈ dir) (i : Nat) :
    naming (chain_delete dir e.key) i + (if e.inum = i then 1 else 0) = naming dir i := by
  have hperm := (h.delete_perm he).countP_eq (fun x => x.inum == i)
  rw [List.countP_cons] at hperm
  simpa [naming] using hperm.symm

theorem naming_pos {dir : Directory} {e : Dirent} (he : e ∈ dir) : 0 < naming dir e.inum :=
  List.countP_pos_iff.mpr ⟨e, he, by simp⟩

@[simp] theorem setDir_inode_tid (s : Pfs) (d : Nat) (dir : Directory) :
    (s.setDir d dir).inode_tid = s.inode_tid := rfl

@[simp] theorem setDir_inodes (s : Pfs) (d : Nat) (dir : Directory) :
    (s.setDir d dir).inodes = s.inodes := rfl

@[simp] theorem setDir_isDir (s : Pfs) (d : Nat) (dir : Directory) (i : Nat) :
    (s.setDir d dir).isDir i = s.isDir i := rfl

@[simp] theorem setDir_self (s : Pfs) (d : Nat) (dir : Directory) : (s.setDir d dir).dirs d = dir := by
  simp [Pfs.setDir]

theorem setDir_ne (s : Pfs) {d d' : Nat} (dir : Directory) (h : d' ≠ d) :
    (s.setDir d dir).dirs d' = s.dirs d' := by
  simp [Pfs.setDir, h]

theorem links_setDir {s : Pfs} {d : Nat} (hd : d < s.inode_tid) (dir : Directory) (i : Nat) :
    links (s.setDir d dir) i + naming (s.dirs d) i = links s i + naming dir i := by
  have hmem : d ∈ Finset.range s.inode_tid := Finset.mem_range.mpr hd
  have hrest : ∑ x ∈ (Finset.range s.inode_tid).erase d, naming ((s.setDir d dir).dirs x) i =
      ∑ x ∈ (Finset.range s.inode_tid).erase d, naming (s.dirs x) i :=
    Finset.sum_congr rfl fun x hx => by rw [setDir_ne s dir (Finset.ne_of_mem_erase hx)]
  have hold := Finset.add_sum_erase _ (fun x => naming (s.dirs x) i) hmem
  have hnew := Finset.add_sum_erase _ (fun x => naming ((s.setDir d dir).dirs x) i) hmem
  simp only [setDir_self, hrest] at hnew
  simp only [links, setDir_inode_tid]
  omega

theorem naming_le_links {s : Pfs} {d : Nat} (hd : d < s.inode_tid) (i : Nat) :
    naming (s.dirs d) i ≤ links s i := by
  have hsum := Finset.add_sum_erase _ (fun x => naming (s.dirs x) i) (Finset.mem_range.mpr hd)
  simp only [links]
  omega

/-! ## The relation -/

/-- An inode with `n` names: its `nlinks`, when it is marked unlinked, when it is queued for
destruction. -/
structure Sound (tight : Prop) (n : Nat) (ip : Inode) : Prop where
  counted : ip.isunlinked = false → n ≤ ip.nlinks ∧ (tight → ip.nlinks ≤ n ∧ 1 ≤ n)
  gone : ip.isunlinked = true → n = 0
  queued : ip.deleting = true ↔
    ip.isunlinked = true ∧ (ip.vp = .none ∨ ip.vp = .inactive ∧ ip.mode ≠ 0)

/-- Names may get lost where the relation is loose. -/
theorem Sound.mono {tight : Prop} {n n' : Nat} {ip : Inode} (h : Sound tight n ip) (hle : n' ≤ n)
    (heq : tight → n' = n) : Sound tight n' ip := by
  refine ⟨fun hun => ⟨Nat.le_trans hle (h.counted hun).1, fun ht => ?_⟩, fun hun => ?_, h.queued⟩
  · rw [heq ht]
    exact (h.counted hun).2 ht
  · have := h.gone hun
    omega

@[simp] theorem unlink_finisher_type (ip : Inode) : (unlink_finisher ip).type = ip.type := by
  by_cases hmany : 1 < ip.nlinks
  · rw [unlink_finisher, if_pos hmany]
  · rw [unlink_finisher, if_neg hmany]
    cases ip.vp <;> rfl

/-- What `hammer2_inode_unlink_finisher` makes of an inode that lost a name. -/
theorem Sound.unlink {tight : Prop} {n : Nat} {ip : Inode} (h : Sound tight (n + 1) ip)
    (hvp : ip.vp ≠ .inactive) : Sound tight n (unlink_finisher ip) := by
  have hlive : ip.isunlinked = false := by
    cases hun : ip.isunlinked with
    | false => rfl
    | true => exact absurd (h.gone hun) (by omega)
  have hidle : ip.deleting = false := by
    have hq := h.queued
    simpa [hlive] using hq
  obtain ⟨hle, hge⟩ := h.counted hlive
  by_cases hmany : 1 < ip.nlinks
  · rw [unlink_finisher, if_pos hmany]
    refine ⟨fun _ => ⟨?_, fun ht => ?_⟩, fun hun => by simp [hlive] at hun, h.queued⟩
    · show n ≤ ip.nlinks - 1
      omega
    · show ip.nlinks - 1 ≤ n ∧ 1 ≤ n
      have := (hge ht).1
      omega
  · have hn : n = 0 := by omega
    rw [unlink_finisher, if_neg hmany]
    cases hv : ip.vp with
    | none => exact ⟨fun hun => by simp at hun, fun _ => hn, by simp⟩
    | active => exact ⟨fun hun => by simp at hun, fun _ => hn, by simp [hidle]⟩
    | inactive => exact absurd hv hvp

/-- The names of an inode: its entries, and those an operation holds. -/
def names (s : Pfs) (held : List Nat) (i : Nat) : Nat := links s i + held.count i

structure Linked (icrc32 : List UInt8 → UInt32) (tight : Prop) (held : List Nat) (s : Pfs) : Prop where
  first : 1 < s.inode_tid
  fresh : ∀ i, s.inode_tid ≤ i → s.inodes i = none
  zero : s.inodes 0 = none
  wf : ∀ d, WellFormed icrc32 (s.dirs d)
  numbered : ∀ d, ∀ e ∈ s.dirs d, e.name ≠ [] → e.inum ≠ 0
  typed : ∀ d, ∀ e ∈ s.dirs d, e.inum ≠ 0 → ∀ ip, s.inodes e.inum = some ip → e.type = ip.type
  plain : ∀ d, s.isDir d = false → s.dirs d = []
  named : ∀ i, i ≠ 0 → s.inodes i = none → names s held i = 0
  sound : ∀ i ip, s.inodes i = some ip → Sound tight (names s held i) ip
  dead : tight → ∀ i ip, s.inodes i = some ip → ip.isunlinked = true → s.dirs i = []

variable {tight : Prop} {held : List Nat} {s : Pfs}

namespace Linked

theorem lt_of_isDir (h : Linked icrc32 tight held s) {d : Nat} (hd : s.isDir d = true) :
    d < s.inode_tid := by
  by_contra hge
  simp [Pfs.isDir, h.fresh d (by omega)] at hd

theorem isDir_of_mem (h : Linked icrc32 tight held s) {d : Nat} {e : Dirent} (he : e ∈ s.dirs d) :
    s.isDir d = true := by
  cases hd : s.isDir d with
  | true => rfl
  | false => simp [h.plain d hd] at he

theorem ne_zero (h : Linked icrc32 tight held s) {i : Nat} {ip : Inode} (hip : s.inodes i = some ip) :
    i ≠ 0 := by
  rintro rfl
  simp [h.zero] at hip

/-- An entry names an inode that exists and is not marked unlinked. -/
theorem inode_of_mem (h : Linked icrc32 tight held s) {d : Nat} {e : Dirent} (he : e ∈ s.dirs d)
    (hne : e.name ≠ []) : ∃ ip, s.inodes e.inum = some ip ∧ ip.isunlinked = false := by
  have hpos := naming_pos he
  have hle := naming_le_links (h.lt_of_isDir (h.isDir_of_mem he)) e.inum
  cases hip : s.inodes e.inum with
  | none =>
      have hzero := h.named _ (h.numbered d e he hne) hip
      simp only [names] at hzero
      omega
  | some ip =>
      refine ⟨ip, rfl, ?_⟩
      cases hun : ip.isunlinked with
      | false => rfl
      | true =>
          have hzero := (h.sound _ ip hip).gone hun
          simp only [names] at hzero
          omega

/-- What is held may be listed in any order. -/
theorem perm {held' : List Nat} (h : Linked icrc32 tight held s) (hp : held.Perm held') :
    Linked icrc32 tight held' s := by
  have hnames : names s held' = names s held := by
    funext i
    rw [names, names, hp.count_eq]
  refine { h with named := ?_, sound := ?_ }
  · rw [hnames]
    exact h.named
  · rw [hnames]
    exact h.sound

/-- In the loose relation an entry that is held can be lost. -/
theorem lose {i : Nat} (h : Linked icrc32 tight (i :: held) s) (hloose : ¬ tight) :
    Linked icrc32 tight held s := by
  have hle : ∀ j, names s held j ≤ names s (i :: held) j := fun j => by
    simp only [names, List.count_cons]
    omega
  refine { h with named := ?_, sound := ?_ }
  · intro j hj hnone
    have := h.named j hj hnone
    have := hle j
    omega
  · intro j ip hip
    exact (h.sound j ip hip).mono (hle j) fun ht => absurd ht hloose

/-- A directory changes; every inode keeps its number of names, or loses some where the
relation is loose. -/
theorem setDir {held' : List Nat} (h : Linked icrc32 tight held s) {d : Nat} {dir : Directory}
    (hwf : WellFormed icrc32 dir) (hdir : s.isDir d = true)
    (hnumbered : ∀ e ∈ dir, e.name ≠ [] → e.inum ≠ 0)
    (htyped : ∀ e ∈ dir, e.inum ≠ 0 → ∀ ip, s.inodes e.inum = some ip → e.type = ip.type)
    (hdead : tight → ∀ ip, s.inodes d = some ip → ip.isunlinked = true → dir = [])
    (hle : ∀ i, i ≠ 0 → naming dir i + held'.count i ≤ naming (s.dirs d) i + held.count i)
    (heq : tight → ∀ i, i ≠ 0 → naming dir i + held'.count i = naming (s.dirs d) i + held.count i) :
    Linked icrc32 tight held' (s.setDir d dir) := by
  have hless : ∀ i, i ≠ 0 → names (s.setDir d dir) held' i ≤ names s held i := fun i hi => by
    have hl := links_setDir (h.lt_of_isDir hdir) dir i
    have hn := hle i hi
    simp only [names]
    omega
  have hsame : tight → ∀ i, i ≠ 0 → names (s.setDir d dir) held' i = names s held i := fun ht i hi => by
    have hl := links_setDir (h.lt_of_isDir hdir) dir i
    have hn := heq ht i hi
    simp only [names]
    omega
  refine ⟨h.first, h.fresh, h.zero, ?_, ?_, ?_, ?_, ?_, ?_, ?_⟩
  · intro x
    by_cases hx : x = d
    · subst hx
      simpa using hwf
    · rw [setDir_ne s dir hx]
      exact h.wf x
  · intro x
    by_cases hx : x = d
    · subst hx
      simpa using hnumbered
    · rw [setDir_ne s dir hx]
      exact h.numbered x
  · intro x
    by_cases hx : x = d
    · subst hx
      simpa using htyped
    · rw [setDir_ne s dir hx]
      exact h.typed x
  · intro x hx
    by_cases hxd : x = d
    · subst hxd
      simp [hdir] at hx
    · rw [setDir_ne s dir hxd]
      exact h.plain x hx
  · intro i hi hnone
    have := h.named i hi hnone
    have := hless i hi
    omega
  · intro i ip hip
    have hi := h.ne_zero hip
    exact (h.sound i ip hip).mono (hless i hi) fun ht => hsame ht i hi
  · intro ht i ip hip hun
    by_cases hx : i = d
    · subst hx
      simpa using hdead ht ip hip hun
    · rw [setDir_ne s dir hx]
      exact h.dead ht i ip hip hun

/-- An entry is taken out of its directory. -/
theorem take (h : Linked icrc32 tight held s) {d : Nat} {e : Dirent} (he : e ∈ s.dirs d) :
    Linked icrc32 tight (e.inum :: held) (s.setDir d (chain_delete (s.dirs d) e.key)) := by
  have hnames : ∀ i, naming (chain_delete (s.dirs d) e.key) i + (e.inum :: held).count i =
      naming (s.dirs d) i + held.count i := fun i => by
    have hcount := naming_delete (h.wf d) he i
    simp only [List.count_cons, beq_iff_eq]
    omega
  refine h.setDir ((h.wf d).delete e.key) (h.isDir_of_mem he) ?_ ?_ ?_ (fun i _ => (hnames i).le)
    fun _ i _ => hnames i
  · intro x hx
    exact h.numbered d x (mem_chain_delete.mp hx).1
  · intro x hx
    exact h.typed d x (mem_chain_delete.mp hx).1
  · intro ht ip hip hun
    simp [h.dead ht d ip hip hun, chain_delete]

/-- A held entry is put into a directory. -/
theorem put {e : Dirent} (h : Linked icrc32 tight (e.inum :: held) s) {d : Nat}
    (hwf : WellFormed icrc32 (chain_create (s.dirs d) e)) (hdir : s.isDir d = true) (hnum : e.inum ≠ 0)
    (htype : ∀ ip, s.inodes e.inum = some ip → e.type = ip.type)
    (hlive : tight → ∀ ip, s.inodes d = some ip → ip.isunlinked = false) :
    Linked icrc32 tight held (s.setDir d (chain_create (s.dirs d) e)) := by
  have hnames : ∀ i, naming (chain_create (s.dirs d) e) i + held.count i =
      naming (s.dirs d) i + (e.inum :: held).count i := fun i => by
    rw [naming_create, List.count_cons]
    simp only [beq_iff_eq]
    omega
  refine h.setDir hwf hdir ?_ ?_ ?_ (fun i _ => (hnames i).le) fun _ i _ => hnames i
  · intro x hx
    rcases mem_chain_create.mp hx with rfl | hx
    · exact fun _ => hnum
    · exact h.numbered d x hx
  · intro x hx
    rcases mem_chain_create.mp hx with rfl | hx
    · exact fun _ => htype
    · exact h.typed d x hx
  · intro ht ip hip hun
    simp [hlive ht ip hip] at hun

/-- The zeroed entry of a failed creation. -/
theorem put_zeroed (h : Linked icrc32 tight held s) {d lhc : Nat}
    (hwf : WellFormed icrc32 (chain_create (s.dirs d) (Dirent.zeroed lhc))) (hdir : s.isDir d = true)
    (hlive : tight → ∀ ip, s.inodes d = some ip → ip.isunlinked = false) :
    Linked icrc32 tight held (s.setDir d (chain_create (s.dirs d) (Dirent.zeroed lhc))) := by
  have hnames : ∀ i, i ≠ 0 → naming (chain_create (s.dirs d) (Dirent.zeroed lhc)) i + held.count i =
      naming (s.dirs d) i + held.count i := fun i hi => by
    rw [naming_create]
    simp [Dirent.zeroed, Ne.symm hi]
  refine h.setDir hwf hdir ?_ ?_ ?_ (fun i hi => (hnames i hi).le) fun _ i hi => hnames i hi
  · intro x hx
    rcases mem_chain_create.mp hx with rfl | hx
    · exact fun hne => absurd rfl hne
    · exact h.numbered d x hx
  · intro x hx
    rcases mem_chain_create.mp hx with rfl | hx
    · exact fun hne => absurd rfl hne
    · exact h.typed d x hx
  · intro ht ip hip hun
    simp [hlive ht ip hip] at hun

/-- An inode changes, and with it perhaps the number of its entries that are held. -/
theorem mapInode {held' : List Nat} {f : Inode → Inode} (h : Linked icrc32 tight held s) {i : Nat}
    {ip : Inode} (hip : s.inodes i = some ip) (hother : ∀ j, j ≠ i → held'.count j = held.count j)
    (htype : (f ip).type = ip.type) (hsound : Sound tight (names s held' i) (f ip))
    (hdead : tight → (f ip).isunlinked = true → s.dirs i = []) :
    Linked icrc32 tight held' (s.mapInode i f) := by
  have hself : (s.mapInode i f).inodes i = some (f ip) := by simp [Pfs.mapInode, Pfs.setInode, hip]
  have hrest : ∀ j, j ≠ i → (s.mapInode i f).inodes j = s.inodes j := fun j hj => by
    simp [Pfs.mapInode, Pfs.setInode, hj]
  have hnames : ∀ j, j ≠ i → names (s.mapInode i f) held' j = names s held j := fun j hj => by
    rw [names, names, hother j hj]
    rfl
  have hi := h.ne_zero hip
  refine ⟨h.first, ?_, ?_, h.wf, h.numbered, ?_, ?_, ?_, ?_, ?_⟩
  · intro j hj
    have hji : j ≠ i := by
      rintro rfl
      simp [h.fresh j hj] at hip
    rw [hrest j hji]
    exact h.fresh j hj
  · rw [hrest 0 (Ne.symm hi)]
    exact h.zero
  · intro d e he hnum ip' hip'
    by_cases hei : e.inum = i
    · rw [hei, hself, Option.some.injEq] at hip'
      rw [← hip', htype]
      exact h.typed d e he hnum ip (hei ▸ hip)
    · rw [hrest _ hei] at hip'
      exact h.typed d e he hnum ip' hip'
  · intro d hd
    refine h.plain d ?_
    by_cases hdi : d = i
    · subst hdi
      simpa [Pfs.isDir, hself, hip, htype] using hd
    · simpa [Pfs.isDir, hrest d hdi] using hd
  · intro j hj hnone
    have hji : j ≠ i := by
      rintro rfl
      simp [hself] at hnone
    rw [hrest j hji] at hnone
    rw [hnames j hji]
    exact h.named j hj hnone
  · intro j ip' hip'
    by_cases hji : j = i
    · subst hji
      obtain rfl : f ip = ip' := by simpa [hself] using hip'
      exact hsound
    · rw [hrest j hji] at hip'
      rw [hnames j hji]
      exact h.sound j ip' hip'
  · intro ht j ip' hip' hun
    by_cases hji : j = i
    · subst hji
      obtain rfl : f ip = ip' := by simpa [hself] using hip'
      exact hdead ht hun
    · rw [hrest j hji] at hip'
      exact h.dead ht j ip' hip' hun

/-- A vnode is attached to an inode that has a name. -/
theorem vget (h : Linked icrc32 tight held s) {i : Nat} {ip : Inode} (hip : s.inodes i = some ip)
    (hlive : ip.isunlinked = false) : Linked icrc32 tight held (s.mapInode i igetv) := by
  have hs := h.sound i ip hip
  refine h.mapInode hip (fun _ _ => rfl) rfl ⟨hs.counted, hs.gone, ?_⟩ fun ht => h.dead ht i ip hip
  have hq := hs.queued
  simp only [hlive, Bool.false_eq_true, false_and, iff_false] at hq
  simp [igetv, hlive, hq]

/-- `hammer2_link` raises `nlinks`: an entry may be put somewhere. -/
theorem bump (h : Linked icrc32 tight held s) {i : Nat} {ip : Inode} (hip : s.inodes i = some ip)
    (hlive : ip.isunlinked = false) :
    Linked icrc32 tight (i :: held) (s.mapInode i fun ip => { ip with nlinks := ip.nlinks + 1 }) := by
  have hs := h.sound i ip hip
  refine h.mapInode hip (fun j hj => by simp [Ne.symm hj]) rfl ?_ fun ht => h.dead ht i ip hip
  have hnames : names s (i :: held) i = names s held i + 1 := by simp [names, Nat.add_assoc]
  rw [hnames]
  refine ⟨fun hun => ?_, fun hun => by simp [hlive] at hun, hs.queued⟩
  obtain ⟨hle, hge⟩ := hs.counted hlive
  refine ⟨Nat.succ_le_succ hle, fun ht => ⟨Nat.succ_le_succ (hge ht).1, Nat.le_add_left _ _⟩⟩

/-- A removed entry is paid for. -/
theorem pay {i : Nat} (h : Linked icrc32 tight (i :: held) s) {ip : Inode} (hip : s.inodes i = some ip)
    (hvp : ip.vp ≠ .inactive) (hempty : tight → s.dirs i = []) :
    Linked icrc32 tight held (s.mapInode i unlink_finisher) := by
  have hnames : names s (i :: held) i = names s held i + 1 := by simp [names, Nat.add_assoc]
  have hs := h.sound i ip hip
  rw [hnames] at hs
  exact h.mapInode hip (fun j hj => by simp [Ne.symm hj]) (unlink_finisher_type ip) (hs.unlink hvp)
    fun ht _ => hempty ht

/-- A new inode gets the next number; its entry may be held. -/
theorem newInode (h : Linked icrc32 tight held s) (held' : List Nat)
    (hother : ∀ j, j ≠ s.inode_tid → held'.count j = held.count j) {ip : Inode}
    (hs : Sound tight (held'.count s.inode_tid) ip) :
    Linked icrc32 tight held'
      (({ s with inode_tid := s.inode_tid + 1 } : Pfs).setInode s.inode_tid (some ip)) := by
  have hfirst := h.first
  have hnone := h.fresh s.inode_tid (Nat.le_refl _)
  have hnodir : s.dirs s.inode_tid = [] := h.plain _ (by simp [Pfs.isDir, hnone])
  have hlinks : ∀ j, links (({ s with inode_tid := s.inode_tid + 1 } : Pfs).setInode s.inode_tid (some ip)) j =
      links s j := fun j => by
    simp [links, Pfs.setInode, Finset.sum_range_succ, hnodir, naming]
  have hunnamed := h.named s.inode_tid (by omega) hnone
  have hself : (({ s with inode_tid := s.inode_tid + 1 } : Pfs).setInode s.inode_tid (some ip)).inodes
      s.inode_tid = some ip := by simp [Pfs.setInode]
  have hrest : ∀ j, j ≠ s.inode_tid →
      (({ s with inode_tid := s.inode_tid + 1 } : Pfs).setInode s.inode_tid (some ip)).inodes j = s.inodes j :=
    fun j hj => by simp [Pfs.setInode, hj]
  refine ⟨Nat.lt_succ_of_lt hfirst, ?_, ?_, h.wf, h.numbered, ?_, ?_, ?_, ?_, ?_⟩
  · intro j hj
    have hj' : s.inode_tid < j := hj
    rw [hrest j (by omega)]
    exact h.fresh j (by omega)
  · rw [hrest 0 (by omega)]
    exact h.zero
  · intro d e he hnum ip' hip'
    by_cases hei : e.inum = s.inode_tid
    · -- No entry names an inode that does not exist yet.
      have hpos : 0 < naming (s.dirs d) e.inum := naming_pos he
      have hle := naming_le_links (h.lt_of_isDir (h.isDir_of_mem he)) e.inum
      simp only [names, ← hei] at hunnamed
      omega
    · rw [hrest _ hei] at hip'
      exact h.typed d e he hnum ip' hip'
  · intro d hd
    by_cases hdi : d = s.inode_tid
    · subst hdi
      exact hnodir
    · refine h.plain d ?_
      simpa [Pfs.isDir, hrest d hdi] using hd
  · intro j hj hjnone
    have hji : j ≠ s.inode_tid := by
      rintro rfl
      simp [hself] at hjnone
    rw [hrest j hji] at hjnone
    rw [names, hlinks, hother j hji]
    exact h.named j hj hjnone
  · intro j ip' hip'
    rw [names, hlinks]
    by_cases hji : j = s.inode_tid
    · subst hji
      obtain rfl : ip = ip' := by simpa [hself] using hip'
      have hzero : links s s.inode_tid = 0 := by
        simp only [names] at hunnamed
        omega
      rwa [hzero, Nat.zero_add]
    · rw [hrest j hji] at hip'
      rw [hother j hji]
      exact h.sound j ip' hip'
  · intro ht j ip' hip' hun
    by_cases hji : j = s.inode_tid
    · subst hji
      exact hnodir
    · rw [hrest j hji] at hip'
      exact h.dead ht j ip' hip' hun

/-- A destroyed inode had no name; the entries in it, if any, go with it. -/
theorem destroy (h : Linked icrc32 tight held s) {i : Nat} {ip : Inode} (hip : s.inodes i = some ip)
    (hun : ip.isunlinked = true) : Linked icrc32 tight held ((s.setInode i none).setDir i []) := by
  have hzero := (h.sound i ip hip).gone hun
  have hcleared : Linked icrc32 tight held (s.setDir i []) := by
    cases hd : s.isDir i with
    | false =>
        have hsame : s.setDir i [] = s := by simp [Pfs.setDir, ← h.plain i hd]
        rwa [hsame]
    | true =>
        refine h.setDir wellFormed_nil hd (by simp) (by simp) (fun _ _ _ _ => rfl) ?_ ?_
        · intro j _
          simp [naming]
        · intro ht j _
          rw [h.dead ht i ip hip hun]
  have hnames : names (s.setDir i []) held i = 0 := by
    by_cases hlt : i < s.inode_tid
    · have hl := links_setDir hlt [] i
      simp only [names] at hzero ⊢
      have : naming [] i = 0 := rfl
      have hcount := hzero
      omega
    · simp [h.fresh i (by omega)] at hip
  have hrest : ∀ j, j ≠ i → ((s.setInode i none).setDir i []).inodes j = s.inodes j := fun j hj => by
    simp [Pfs.setInode, hj]
  have hself : ((s.setInode i none).setDir i []).inodes i = none := by simp [Pfs.setInode]
  refine ⟨h.first, ?_, ?_, hcleared.wf, hcleared.numbered, ?_, ?_, ?_, ?_, ?_⟩
  · intro j hj
    by_cases hji : j = i
    · rw [hji]
      exact hself
    · rw [hrest j hji]
      exact h.fresh j hj
  · rw [hrest 0 (Ne.symm (h.ne_zero hip))]
    exact h.zero
  · intro d e he hnum ip' hip'
    by_cases hei : e.inum = i
    · rw [hei, hself] at hip'
      simp at hip'
    · rw [hrest _ hei] at hip'
      exact hcleared.typed d e he hnum ip' hip'
  · intro d hd
    by_cases hdi : d = i
    · subst hdi
      simp
    · refine hcleared.plain d ?_
      simpa [Pfs.isDir, hrest d hdi] using hd
  · intro j hj hnone
    by_cases hji : j = i
    · rw [hji]
      exact hnames
    · rw [hrest j hji] at hnone
      exact hcleared.named j hj hnone
  · intro j ip' hip'
    have hji : j ≠ i := by
      rintro rfl
      simp [hself] at hip'
    rw [hrest j hji] at hip'
    exact hcleared.sound j ip' hip'
  · intro ht j ip' hip'
    have hji : j ≠ i := by
      rintro rfl
      simp [hself] at hip'
    rw [hrest j hji] at hip'
    exact hcleared.dead ht j ip' hip'

/-! ## The operations -/

/-- A name that resolves is an entry. -/
theorem resolved (h : Linked icrc32 tight held s) {d i : Nat} {name : Name}
    (hres : xop_nresolve icrc32 s d name = some i) :
    ∃ e ∈ s.dirs d, e.name = name.bytes ∧ e.inum = i ∧ find icrc32 (s.dirs d) name.bytes = some e := by
  simp only [xop_nresolve] at hres
  split at hres
  · simp at hres
  · rename_i e hf
    obtain ⟨he, hname⟩ := ((h.wf d).find_eq_some name.nonempty).mp hf
    split at hres
    · exact ⟨e, he, hname, by simpa using hres, hf⟩
    · simp at hres

/-- A name that does not resolve is no entry. -/
theorem absent (h : Linked icrc32 tight held s) {d : Nat} {name : Name}
    (hres : xop_nresolve icrc32 s d name = none) : ∀ e ∈ s.dirs d, e.name ≠ name.bytes := by
  intro e he hname
  have hf := ((h.wf d).find_eq_some name.nonempty).mpr ⟨he, hname⟩
  obtain ⟨ip, hip, _⟩ := h.inode_of_mem he (hname ▸ name.nonempty)
  simp [xop_nresolve, hf, hip] at hres

/-- An entry found by name: its inode exists, has its type, and is not marked unlinked. -/
theorem inode_of_find (h : Linked icrc32 tight held s) {d : Nat} {name : Name} {e : Dirent}
    (he : e ∈ s.dirs d) (hname : e.name = name.bytes) :
    ∃ ip, s.inodes e.inum = some ip ∧ ip.isunlinked = false ∧ e.type = ip.type ∧ e.inum ≠ 0 := by
  have hne : e.name ≠ [] := hname ▸ name.nonempty
  obtain ⟨ip, hip, hlive⟩ := h.inode_of_mem he hne
  have hnum := h.numbered d e he hne
  exact ⟨ip, hip, hlive, h.typed d e he hnum ip hip, hnum⟩

theorem put_entry {inum : Nat} (h : Linked icrc32 tight (inum :: held) s) {d : Nat} {name : Name}
    {type : ObjType} {f : DirentFaults} {dir : Directory} (habsent : ∀ e ∈ s.dirs d, e.name ≠ name.bytes)
    (hrun : dirent_create icrc32 (s.dirs d) name inum type f = (dir, .ok ())) (hdir : s.isDir d = true)
    (hnum : inum ≠ 0) (htype : ∀ ip, s.inodes inum = some ip → type = ip.type)
    (hlive : tight → ∀ ip, s.inodes d = some ip → ip.isunlinked = false) :
    Linked icrc32 tight held (s.setDir d dir) := by
  obtain ⟨e, rfl, _, rfl, rfl, _, hwf⟩ := dirent_create_ok (h.wf d) habsent hrun
  exact h.put hwf hdir hnum htype hlive

theorem put_failed (h : Linked icrc32 tight held s) {d inum : Nat} {name : Name} {type : ObjType}
    {f : DirentFaults} {dir : Directory} {err : Error}
    (hrun : dirent_create icrc32 (s.dirs d) name inum type f = (dir, .error err)) (hdir : s.isDir d = true)
    (hlive : tight → ∀ ip, s.inodes d = some ip → ip.isunlinked = false) :
    Linked icrc32 tight held (s.setDir d dir) := by
  rcases dirent_create_error (h.wf d) hrun with rfl | ⟨lhc, _, rfl, hwf⟩
  · have hsame : s.setDir d (s.dirs d) = s := by simp [Pfs.setDir]
    rwa [hsame]
  · exact h.put_zeroed hwf hdir hlive

/-- A file, directory, device or symbolic link is created. -/
theorem create (h : Linked icrc32 tight [] s) {dip : Nat} {name : Name} (type : ObjType) (mode : Nat)
    (det : Option MediaError) (f : DirentFaults) (vget : Bool) (hdir : s.isDir dip = true)
    (hres : xop_nresolve icrc32 s dip name = none)
    (hlive : tight → ∀ ip, s.inodes dip = some ip → ip.isunlinked = false) :
    Linked icrc32 tight [] (Dir.create icrc32 s dip name type mode det f vget).1 := by
  have hnip : Sound tight 1 (inode_create_normal type mode) :=
    ⟨fun _ => ⟨Nat.le_refl 1, fun _ => ⟨Nat.le_refl 1, Nat.le_refl 1⟩⟩, fun hun => by
      simp [inode_create_normal] at hun, by simp [inode_create_normal]⟩
  have hfailed := h.newInode [] (fun _ _ => rfl)
    (hnip.unlink (by simp [inode_create_normal]))
  have hne : dip ≠ s.inode_tid := by
    have := h.lt_of_isDir hdir
    omega
  have hdir' : ∀ x, (({ s with inode_tid := s.inode_tid + 1 } : Pfs).setInode s.inode_tid x).isDir dip = true :=
    fun x => by simpa [Pfs.isDir, Pfs.setInode, hne] using hdir
  have hlive' : ∀ x, tight → ∀ ip, (({ s with inode_tid := s.inode_tid + 1 } : Pfs).setInode
      s.inode_tid x).inodes dip = some ip → ip.isunlinked = false := fun x ht ip hip => by
    refine hlive ht ip ?_
    simpa [Pfs.setInode, hne] using hip
  simp only [Dir.create]
  cases det with
  | some e => exact hfailed
  | none =>
      simp only
      split
      · rename_i dir err hrun
        exact hfailed.put_failed hrun (hdir' _) (hlive' _)
      · rename_i dir hrun
        have hnew : Sound tight 1 (if vget then igetv (inode_create_normal type mode)
            else inode_create_normal type mode) := by
          cases vget with
          | false => exact hnip
          | true => exact ⟨hnip.counted, hnip.gone, by simp [igetv, inode_create_normal]⟩
        have hheld := h.newInode [s.inode_tid] (fun j hj => by simp [Ne.symm hj])
          (by simpa using hnew)
        refine hheld.put_entry (h.absent hres) hrun (hdir' _) (Nat.ne_of_gt (Nat.lt_of_succ_lt h.first))
          (fun ip hip => ?_) (hlive' _)
        simp only [Pfs.setInode, Function.update_self, Option.some.injEq] at hip
        rw [← hip]
        cases vget <;> rfl

/-- `hammer2_link`.  The count is raised in any case: without the entry the relation is loose. -/
theorem link (h : Linked icrc32 tight [] s) {i tdip : Nat} {ip : Inode} {name : Name} {f : DirentFaults}
    (hip : s.inodes i = some ip) (hun : ip.isunlinked = false) (hdir : s.isDir tdip = true)
    (hres : xop_nresolve icrc32 s tdip name = none)
    (hlive : tight → ∀ ip, s.inodes tdip = some ip → ip.isunlinked = false)
    (hmade : tight → (dirent_create icrc32 (s.dirs tdip) name i ip.type f).2.isOk = true) :
    Linked icrc32 tight [] (Dir.link icrc32 s i tdip name f).1 := by
  have hheld := h.bump hip hun
  have hinodes : ∀ j, (s.mapInode i fun ip => { ip with nlinks := ip.nlinks + 1 }).inodes j =
      if j = i then some { ip with nlinks := ip.nlinks + 1 } else s.inodes j := fun j => by
    by_cases hj : j = i
    · simp [Pfs.mapInode, Pfs.setInode, hj, hip]
    · simp [Pfs.mapInode, Pfs.setInode, hj]
  have hdir' : (s.mapInode i fun ip => { ip with nlinks := ip.nlinks + 1 }).isDir tdip = true := by
    by_cases hj : tdip = i
    · subst hj
      simpa [Pfs.isDir, hinodes, hip] using hdir
    · simpa [Pfs.isDir, hinodes, hj] using hdir
  have hlive' : tight → ∀ x, (s.mapInode i fun ip => { ip with nlinks := ip.nlinks + 1 }).inodes tdip =
      some x → x.isunlinked = false := fun ht x hx => by
    rw [hinodes] at hx
    by_cases hj : tdip = i
    · rw [if_pos hj, Option.some.injEq] at hx
      rw [← hx]
      exact hun
    · rw [if_neg hj] at hx
      exact hlive ht x hx
  simp only [Dir.link, hip, Option.map_some, Option.getD_some]
  cases hrun : dirent_create icrc32 (s.dirs tdip) name i ip.type f with
  | mk dir r =>
      cases r with
      | ok _ =>
          refine hheld.put_entry (h.absent hres) hrun hdir' (h.ne_zero hip) (fun x hx => ?_) hlive'
          rw [hinodes, if_pos rfl, Option.some.injEq] at hx
          rw [← hx]
      | error e =>
          have hloose : ¬ tight := fun ht => by simpa [hrun, Except.isOk, Except.toBool] using hmade ht
          exact (hheld.put_failed hrun hdir' hlive').lose hloose

/-- An inode that passed the test for emptiness, or is no directory, has no entries. -/
theorem dirs_eq_nil (h : Linked icrc32 tight held s) {i : Nat}
    (htest : s.isDir i = true → checkdirempty s i = true) : s.dirs i = [] := by
  cases hd : s.isDir i with
  | false => exact h.plain i hd
  | true => exact dirs_of_checkdirempty (h.wf i) (htest hd)

/-- `hammer2_remove` and `hammer2_rmdir`, of an inode whose vnode is in use. -/
theorem unlink (h : Linked icrc32 tight [] s) {dip : Nat} {name : Name} {e : Dirent} (isdir : Bool)
    (fault : Option MediaError) (he : e ∈ s.dirs dip) (hname : e.name = name.bytes) {ip : Inode}
    (hip : s.inodes e.inum = some ip) (hvp : ip.vp = .active) :
    Linked icrc32 tight [] (Dir.unlink icrc32 s dip name isdir fault).1 := by
  have hf := ((h.wf dip).find_eq_some name.nonempty).mpr ⟨he, hname⟩
  have htype : e.type = ip.type := h.typed dip e he (h.ne_zero hip) ip hip
  simp only [Dir.unlink, xop_unlink, hf]
  by_cases hisdir : e.type = .directory ∧ isdir = false
  · rw [if_pos hisdir]
    exact h
  by_cases hfull : e.type = .directory ∧ checkdirempty s e.inum = false
  · rw [if_neg hisdir, if_pos hfull]
    exact h
  by_cases hnotdir : e.type ≠ .directory ∧ isdir = true
  · rw [if_neg hisdir, if_neg hfull, if_pos hnotdir]
    exact h
  rw [if_neg hisdir, if_neg hfull, if_neg hnotdir]
  cases fault with
  | some err => exact h
  | none =>
      have hempty : s.dirs e.inum = [] := by
        refine h.dirs_eq_nil fun hd => ?_
        have hdir : e.type = .directory := by
          rw [htype]
          simpa [Pfs.isDir, hip] using hd
        simpa using fun hno => hfull ⟨hdir, hno⟩
      have hother : e.inum ≠ dip := fun heq => by
        rw [← heq, hempty] at he
        simp at he
      simp only [setDir_inodes, hip, Option.isSome_some, if_true]
      refine (h.take he).pay hip (by simp [hvp]) fun _ => ?_
      rw [setDir_ne _ _ hother]
      exact hempty

/-- What the target name of a rename stands for: nothing, or an inode other than the source. -/
def Target (s : Pfs) (tdip : Nat) (name : Name) (fip : Nat) : Option Nat → Prop
  | none => ∀ e ∈ s.dirs tdip, e.name ≠ name.bytes
  | some tip => tip ≠ fip ∧ ∃ e ∈ s.dirs tdip, e.name = name.bytes ∧ e.inum = tip

/-- The entry of the target name is taken out, if there is one. -/
theorem take_target (h : Linked icrc32 tight held s) {tdip : Nat} {name : Name} {fip lhc : Nat}
    {tip : Option Nat} (htip : Target s tdip name fip tip) (hlo : dirhash icrc32 name.bytes ≤ lhc)
    (hhi : lhc ≤ dirhash icrc32 name.bytes + DIRHASH_LOMASK) :
    Linked icrc32 tight (tip.toList ++ held)
      (s.setDir tdip (delete_matching (s.dirs tdip) lhc name.bytes)) := by
  rw [delete_matching_eq (h.wf tdip) hlo hhi]
  cases tip with
  | none =>
      have hsame : (s.dirs tdip).filter (fun e => decide (e.name ≠ name.bytes)) = s.dirs tdip :=
        List.filter_eq_self.mpr fun e he => by simpa using htip e he
      rw [hsame]
      have hid : s.setDir tdip (s.dirs tdip) = s := by simp [Pfs.setDir]
      rw [hid]
      exact h
  | some t =>
      obtain ⟨_, e, he, hname, rfl⟩ := htip
      have hsame : (s.dirs tdip).filter (fun x => decide (x.name ≠ name.bytes)) =
          chain_delete (s.dirs tdip) e.key := by
        refine List.filter_congr fun x hx => ?_
        by_cases hxe : x = e
        · simp [hxe, hname]
        · have hkey : x.key ≠ e.key := fun hk => hxe ((h.wf tdip).key_inj hx he hk)
          have hxname : x.name ≠ name.bytes := fun hn =>
            hxe ((h.wf tdip).distinct x hx e he (hn ▸ name.nonempty) (hn.trans hname.symm))
          simp [hkey, hxname]
      rw [hsame]
      exact h.take he

theorem loseAll (hloose : ¬ tight) : ∀ {held : List Nat}, Linked icrc32 tight held s →
    Linked icrc32 tight [] s
  | [], h => h
  | _ :: _, h => loseAll hloose (h.lose hloose)

/-- The backend of a rename.  Where it succeeds the link of the replaced inode is still to be
taken away; where it fails it fails loosely, unless the source entry is still there. -/
theorem nrename (h : Linked icrc32 tight [] s) {fdip tdip lhc : Nat} {n1 n2 : Name} {f : RenameFaults}
    {es : Dirent} {scan : Option MediaError} {tip : Option Nat} (he : es ∈ s.dirs fdip)
    (hname : es.name = n1.bytes) (hlhc : free_lhc icrc32 (s.dirs tdip) n2.bytes scan = .ok lhc)
    (hdir : s.isDir tdip = true) (hlive : tight → ∀ ip, s.inodes tdip = some ip → ip.isunlinked = false)
    (hlate : tight → f.adjust = none ∧ f.target = none ∧ f.create = none)
    (htip : Target s tdip n2 es.inum tip) {s' : Pfs} {r : Except Error Unit}
    (hrun : xop_nrename icrc32 s fdip tdip (tip.filter s.isDir) lhc n1 n2 f = (s', r)) :
    s'.inodes = s.inodes ∧
      (r = .ok () → Linked icrc32 tight tip.toList s' ∧ ∀ t, tip = some t → s'.dirs t = []) ∧
      ∀ e, r = .error e → e ≠ .enoent ∧ Linked icrc32 tight [] s' := by
  obtain ⟨hlo, hhi, hfree⟩ := (h.wf tdip).free_lhc_ok hlhc
  have hf := ((h.wf fdip).find_eq_some n1.nonempty).mpr ⟨he, hname⟩
  obtain ⟨fip, hfip, _, htype, hnum⟩ := h.inode_of_find he hname
  simp only [xop_nrename, hf] at hrun
  by_cases hfull : (tip.filter s.isDir).any (fun ip => !checkdirempty s ip) = true
  · rw [if_pos hfull] at hrun
    obtain ⟨rfl, rfl⟩ := Prod.mk.inj hrun
    exact ⟨rfl, by simp, fun e hr => ⟨by simp [← Except.error.inj hr], h⟩⟩
  rw [if_neg hfull] at hrun
  -- The replaced inode, if any, has no entries.
  have hempty : ∀ t, tip = some t → s.dirs t = [] := by
    rintro t rfl
    refine h.dirs_eq_nil fun hd => ?_
    simpa [Option.filter, hd] using hfull
  have h1 := h.take he
  have hsub1 : ∀ x, x ∈ (s.setDir fdip (chain_delete (s.dirs fdip) es.key)).dirs tdip → x ∈ s.dirs tdip := by
    intro x hx
    by_cases hd : tdip = fdip
    · subst hd
      rw [setDir_self] at hx
      exact (mem_chain_delete.mp hx).1
    · rwa [setDir_ne _ _ hd] at hx
  cases hdelete : f.delete with
  | some e =>
      rw [hdelete] at hrun
      obtain ⟨rfl, rfl⟩ := Prod.mk.inj hrun
      exact ⟨rfl, by simp, fun e' hr => ⟨Except.error.inj hr ▸ e.toError_ne, h⟩⟩
  | none =>
  simp only [hdelete] at hrun
  cases hren : renamed es lhc n1.bytes n2.bytes f.adjust with
  | error e =>
      simp only [hren] at hrun
      obtain ⟨rfl, rfl⟩ := Prod.mk.inj hrun
      obtain ⟨hfault, hno⟩ := renamed_error hren
      have hloose : ¬ tight := fun ht => hfault (hlate ht).1
      exact ⟨rfl, by simp, fun e' hr => ⟨Except.error.inj hr ▸ hno, h1.lose hloose⟩⟩
  | ok chain =>
  simp only [hren] at hrun
  obtain ⟨hcname, hcnum, hctype, hcstored⟩ := renamed_ok hren hname ((h.wf fdip).stored es he)
  cases htarget : f.target with
  | some e =>
      simp only [htarget] at hrun
      obtain ⟨rfl, rfl⟩ := Prod.mk.inj hrun
      have hloose : ¬ tight := fun ht => by simpa [htarget] using (hlate ht).2.1
      exact ⟨rfl, by simp, fun e' hr => ⟨Except.error.inj hr ▸ e.toError_ne, h1.lose hloose⟩⟩
  | none =>
  simp only [htarget] at hrun
  have htip1 : Target (s.setDir fdip (chain_delete (s.dirs fdip) es.key)) tdip n2 es.inum tip := by
    cases tip with
    | none => exact fun x hx => htip x (hsub1 x hx)
    | some t =>
        obtain ⟨hne, et, het, hetname, rfl⟩ := htip
        refine ⟨hne, et, ?_, hetname, rfl⟩
        by_cases hd : tdip = fdip
        · subst hd
          rw [setDir_self]
          refine mem_chain_delete.mpr ⟨het, fun hk => hne ?_⟩
          rw [(h.wf tdip).key_inj het he hk]
        · rwa [setDir_ne _ _ hd]
  have h2 := h1.take_target htip1 hlo hhi
  cases hcreate : f.create with
  | some e =>
      simp only [hcreate] at hrun
      obtain ⟨rfl, rfl⟩ := Prod.mk.inj hrun
      have hloose : ¬ tight := fun ht => by simpa [hcreate] using (hlate ht).2.2
      exact ⟨rfl, by simp, fun e' hr => ⟨Except.error.inj hr ▸ e.toError_ne, h2.loseAll hloose⟩⟩
  | none =>
  simp only [hcreate] at hrun
  obtain ⟨rfl, rfl⟩ := Prod.mk.inj hrun
  refine ⟨rfl, fun _ => ⟨?_, ?_⟩, by simp⟩
  · have h2' : Linked icrc32 tight (({ chain with key := lhc } : Dirent).inum :: tip.toList) _ :=
      h2.perm (by rw [hcnum]; exact List.perm_append_comm)
    have hmem : ∀ x, x ∈ delete_matching ((s.setDir fdip (chain_delete (s.dirs fdip) es.key)).dirs tdip)
        lhc n2.bytes → x ∈ s.dirs tdip ∧ x.name ≠ n2.bytes := by
      intro x hx
      rw [delete_matching_eq (h1.wf tdip) hlo hhi] at hx
      obtain ⟨hx1, hxname⟩ := List.mem_filter.mp hx
      exact ⟨hsub1 x hx1, by simpa using hxname⟩
    refine h2'.put ?_ hdir (by simpa [hcnum] using hnum) ?_ hlive
    · refine (h2.wf tdip).create hcstored (bucket_visible hlo hhi) (fun _ => ?_) ?_ ?_
      · show dirhash icrc32 chain.name ≤ lhc ∧ lhc ≤ dirhash icrc32 chain.name + DIRHASH_LOMASK
        rw [hcname]
        exact ⟨hlo, hhi⟩
      · intro x hx
        rw [setDir_self] at hx
        exact hfree x (hmem x hx).1
      · intro x hx _
        rw [setDir_self] at hx
        show x.name ≠ chain.name
        rw [hcname]
        exact (hmem x hx).2
    · intro ip hip
      have hip' : s.inodes es.inum = some ip := by simpa [hcnum] using hip
      show chain.type = ip.type
      rw [hctype, htype]
      exact congrArg Inode.type (Option.some.inj (hfip.symm.trans hip'))
  · rintro t rfl
    have ht := hempty t rfl
    obtain ⟨_, et, het, _, _⟩ := htip
    have htf : t ≠ fdip := fun heq => by
      rw [← heq, ht] at he
      simp at he
    have htt : t ≠ tdip := fun heq => by
      rw [← heq, ht] at het
      simp at het
    rw [setDir_ne _ _ htt, setDir_ne _ _ htt, setDir_ne _ _ htf]
    exact ht

end Linked

end Hammer2.Dir
