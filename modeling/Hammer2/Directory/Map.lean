/-
# `Hammer2.Directory.Map` — directories are finite maps

`Names` is the abstract view of a PFS: what inode each name of each directory stands for.
`follow` says how an operation that succeeded changes it, `track` runs the map beside the PFS.

    names_step     one operation changes the names of the PFS as `follow` says
    run_tracks     after every run hammer2_xop_nresolve returns what the map holds

The scan for an unused key steps over one key too many at the end of the bucket, so a creation
also fails when the last key is the only unused one (`LastFree`).
-/
import Hammer2.Directory.Links

namespace Hammer2.Dir

open Machine

/-- What each name of each directory stands for. -/
abbrev Names := Nat → Name → Option Nat

namespace Names

def empty : Names := fun _ _ => none

def set (m : Names) (d : Nat) (name : Name) (i : Option Nat) : Names :=
  Function.update m d (Function.update (m d) name i)

theorem set_apply (m : Names) (d : Nat) (name : Name) (i : Option Nat) (d' : Nat) (name' : Name) :
    m.set d name i d' name' = if d' = d ∧ name' = name then i else m d' name' := by
  by_cases hd : d' = d
  · subst hd
    by_cases hn : name' = name
    · simp [set, hn]
    · simp [set, hn]
  · simp [set, hd]

end Names

/-- How an operation with result `r` changes the map; `inum` is the number of a new inode. -/
def follow (m : Names) (inum : Nat) : Op → Except Error Unit → Names
  | .create dip name _ _ _ _ _, .ok () => m.set dip name (some inum)
  | .link sdip sname tdip tname _, .ok () => m.set tdip tname (m sdip sname)
  | .unlink dip name _ _, .ok () => m.set dip name none
  | .rename fdip fname tdip tname _, .ok () =>
      if m tdip tname = m fdip fname then m
      else (m.set fdip fname none).set tdip tname (m fdip fname)
  | .destroy i, .ok () => Function.update m i fun _ => none
  | _, _ => m

section

variable (icrc32 : List UInt8 → UInt32)

/-- The key `k` of the bucket of a name is unused. -/
def FreeKey (s : Pfs) (d : Nat) (name : Name) (k : Nat) : Prop :=
  dirhash icrc32 name.bytes ≤ k ∧ k ≤ dirhash icrc32 name.bytes + DIRHASH_LOMASK ∧
    ∀ e ∈ s.dirs d, e.key ≠ k

instance (s : Pfs) (d : Nat) (name : Name) (k : Nat) : Decidable (FreeKey icrc32 s d name k) := by
  unfold FreeKey
  infer_instance

/-- The last key of the bucket is its only unused one. -/
def LastFree (s : Pfs) (d : Nat) (name : Name) : Prop :=
  ∀ k, FreeKey icrc32 s d name k ↔ k = dirhash icrc32 name.bytes + DIRHASH_LOMASK

/-- The steps after which the directories are still the map: an entry is created in a bucket
whose unused keys are not just the last one, with room on the media; a rename does not fail
once the source entry is gone. -/
def MapOk (s : Pfs) : Op → Prop
  | .create dip name _ _ _ f _ => ¬ LastFree icrc32 s dip name ∧
      f.scan ≠ some .enospc ∧ f.mkdirent ≠ .before .enospc ∧ f.mkdirent ≠ .after .enospc
  | .link _ _ tdip tname f => ¬ LastFree icrc32 s tdip tname ∧
      f.scan ≠ some .enospc ∧ f.mkdirent ≠ .before .enospc ∧ f.mkdirent ≠ .after .enospc
  | .rename _ _ _ _ f => f.adjust = none ∧ f.target = none ∧ f.create = none
  | _ => True

/-- The PFS and, beside it, the map. -/
def track (sm : Pfs × Names) (op : Op) : Option (Pfs × Names) :=
  (apply icrc32 sm.1 op).map fun (s', r) => (s', follow sm.2 sm.1.inode_tid op r)

/-- What the result of an operation says, when the map is `m`.  A creation under a new name
meets no used key, and finds no room only in a full bucket; the removal of a file the media
does not refuse succeeds; a rename finds its source. -/
def Truthful (s : Pfs) (m : Names) (r : Except Error Unit) : Op → Prop
  | .create dip name _ _ det _ _ => m dip name = none → det = none →
      r ≠ .error .eexist ∧ (r = .error .enospc → ∀ k, ¬ FreeKey icrc32 s dip name k)
  | .link sdip sname tdip tname _ => m sdip sname ≠ none → m tdip tname = none →
      r ≠ .error .eexist ∧ (r = .error .enospc → ∀ k, ¬ FreeKey icrc32 s tdip tname k)
  | .unlink dip name isdir fault => ∀ i ip, m dip name = some i → s.inodes i = some ip →
      ip.type ≠ .directory → isdir = false → fault = none → r = .ok ()
  | .rename fdip fname _ _ _ => m fdip fname ≠ none → r ≠ .error .enoent
  | _ => True

/-- The names of a PFS, as its directories have them. -/
def view (s : Pfs) : Names := fun d name => (find icrc32 (s.dirs d) name.bytes).map (·.inum)

end

variable {icrc32 : List UInt8 → UInt32} {s : Pfs} {dir : Directory}

/-! ## What happens to the names of one directory -/

namespace WellFormed

/-- Entries and names determine each other. -/
theorem find_ext (h : WellFormed icrc32 dir) {name : List UInt8} (hne : name ≠ []) {o : Option Dirent}
    (hiff : ∀ e, o = some e ↔ e ∈ dir ∧ e.name = name) : find icrc32 dir name = o := by
  refine Option.ext fun e => ?_
  rw [h.find_eq_some hne]
  exact (hiff e).symm

theorem find_create (h : WellFormed icrc32 dir) {e : Dirent} (h' : WellFormed icrc32 (chain_create dir e))
    (name : Name) : find icrc32 (chain_create dir e) name.bytes =
      if e.name = name.bytes then some e else find icrc32 dir name.bytes := by
  refine h'.find_ext name.nonempty fun x => ?_
  by_cases hname : e.name = name.bytes
  · rw [if_pos hname, Option.some.injEq]
    constructor
    · rintro rfl
      exact ⟨by simp, hname⟩
    · rintro ⟨hx, hxname⟩
      exact h'.distinct e (by simp) x hx (hname ▸ name.nonempty) (hname.trans hxname.symm)
  · rw [if_neg hname, h.find_eq_some name.nonempty]
    constructor
    · rintro ⟨hx, hxname⟩
      exact ⟨mem_chain_create.mpr (.inr hx), hxname⟩
    · rintro ⟨hx, hxname⟩
      rcases mem_chain_create.mp hx with rfl | hx
      · exact absurd hxname hname
      · exact ⟨hx, hxname⟩

theorem find_delete (h : WellFormed icrc32 dir) {e : Dirent} (he : e ∈ dir) (name : Name) :
    find icrc32 (chain_delete dir e.key) name.bytes =
      if e.name = name.bytes then none else find icrc32 dir name.bytes := by
  refine (h.delete e.key).find_ext name.nonempty fun x => ?_
  by_cases hname : e.name = name.bytes
  · rw [if_pos hname]
    refine ⟨by simp, fun ⟨hx, hxname⟩ => ?_⟩
    obtain ⟨hx, hkey⟩ := mem_chain_delete.mp hx
    exact absurd (congrArg Dirent.key (h.distinct x hx e he (hxname ▸ name.nonempty) (hxname.trans hname.symm))) hkey
  · rw [if_neg hname, h.find_eq_some name.nonempty]
    constructor
    · rintro ⟨hx, hxname⟩
      refine ⟨mem_chain_delete.mpr ⟨hx, fun hkey => hname ?_⟩, hxname⟩
      rw [← h.key_inj hx he hkey]
      exact hxname
    · rintro ⟨hx, hxname⟩
      exact ⟨(mem_chain_delete.mp hx).1, hxname⟩

/-- The target deletion of a rename. -/
theorem find_delete_matching (h : WellFormed icrc32 dir) {lhc : Nat} {target : Name}
    (hlo : dirhash icrc32 target.bytes ≤ lhc) (hhi : lhc ≤ dirhash icrc32 target.bytes + DIRHASH_LOMASK)
    (name : Name) : WellFormed icrc32 (delete_matching dir lhc target.bytes) ∧
      find icrc32 (delete_matching dir lhc target.bytes) name.bytes =
        if name = target then none else find icrc32 dir name.bytes := by
  rw [delete_matching_eq h hlo hhi]
  have hwf : WellFormed icrc32 (dir.filter fun e => decide (e.name ≠ target.bytes)) :=
    ⟨h.sorted.filter _, fun e he => h.stored e (List.mem_filter.mp he).1,
      fun e he => h.visible e (List.mem_filter.mp he).1,
      fun e he => h.placed e (List.mem_filter.mp he).1,
      fun e he x hx => h.distinct e (List.mem_filter.mp he).1 x (List.mem_filter.mp hx).1⟩
  refine ⟨hwf, hwf.find_ext name.nonempty fun x => ?_⟩
  by_cases hname : name = target
  · rw [if_pos hname]
    refine ⟨by simp, fun ⟨hx, hxname⟩ => ?_⟩
    have := (List.mem_filter.mp hx).2
    simp [hxname, hname] at this
  · rw [if_neg hname, h.find_eq_some name.nonempty, List.mem_filter]
    have hbytes : name.bytes ≠ target.bytes := fun heq => hname (by cases name; cases target; simp_all)
    constructor
    · rintro ⟨hx, hxname⟩
      exact ⟨⟨hx, by simpa [hxname] using hbytes⟩, hxname⟩
    · rintro ⟨⟨hx, _⟩, hxname⟩
      exact ⟨hx, hxname⟩

end WellFormed

theorem Name.bytes_inj {n n' : Name} : n.bytes = n'.bytes ↔ n = n' := by
  constructor
  · intro h
    cases n
    cases n'
    simpa using h
  · rintro rfl
    rfl

/-- The names of a PFS after one directory changed. -/
theorem view_setDir {d : Nat} {m : Names} (hd : ∀ name, (find icrc32 dir name.bytes).map (·.inum) = m d name)
    (hrest : ∀ d', d' ≠ d → m d' = view icrc32 s d') : view icrc32 (s.setDir d dir) = m := by
  funext d' name
  by_cases hdd : d' = d
  · subst hdd
    simp [view, hd]
  · rw [hrest d' hdd, view, view, setDir_ne s dir hdd]

/-- A resolved name is a name of the view: the inode of an entry exists. -/
theorem Linked.nresolve_eq {tight : Prop} (h : Linked icrc32 tight [] s) (d : Nat) (name : Name) :
    xop_nresolve icrc32 s d name = view icrc32 s d name := by
  simp only [xop_nresolve, view]
  cases hf : find icrc32 (s.dirs d) name.bytes with
  | none => rfl
  | some e =>
      obtain ⟨he, hname⟩ := ((h.wf d).find_eq_some name.nonempty).mp hf
      obtain ⟨ip, hip, _⟩ := h.inode_of_find he hname
      simp [hip]

/-! ## What an operation does to the names -/

theorem set_self_view (d : Nat) {dir : Directory} {name : Name} {o : Option Nat}
    (hfind : ∀ n : Name, (find icrc32 dir n.bytes).map (·.inum) =
      if n = name then o else (find icrc32 (s.dirs d) n.bytes).map (·.inum)) :
    view icrc32 (s.setDir d dir) = (view icrc32 s).set d name o := by
  refine view_setDir (fun n => ?_) fun d' hd => ?_
  · rw [hfind n, Names.set_apply]
    by_cases hn : n = name
    · simp [hn]
    · simp [hn, view]
  · funext n
    rw [Names.set_apply, if_neg fun hc => hd hc.1]

/-- A created entry adds its name; a failed creation, and the zeroed entry it may leave behind,
add none. -/
theorem dirent_create_view {d : Nat} (h : WellFormed icrc32 (s.dirs d)) {name : Name} {inum : Nat} {type : ObjType}
    {f : DirentFaults} (hnew : ∀ e ∈ s.dirs d, e.name ≠ name.bytes) {dir : Directory} {r : Except Error Unit}
    (hrun : dirent_create icrc32 (s.dirs d) name inum type f = (dir, r)) :
    (r = .ok () → view icrc32 (s.setDir d dir) = (view icrc32 s).set d name (some inum)) ∧
      ∀ e, r = .error e → view icrc32 (s.setDir d dir) = view icrc32 s := by
  constructor
  · rintro rfl
    obtain ⟨e, rfl, hname, rfl, _, _, hwf⟩ := dirent_create_ok h hnew hrun
    refine set_self_view d fun n => ?_
    rw [h.find_create hwf, hname]
    by_cases hn : n = name
    · simp [hn]
    · rw [if_neg hn, if_neg fun hb => hn (Name.bytes_inj.mp hb.symm)]
  · rintro e rfl
    refine view_setDir (fun n => ?_) fun _ _ => rfl
    rcases dirent_create_error h hrun with rfl | ⟨lhc, _, rfl, hwf⟩
    · rfl
    · rw [h.find_create hwf, zeroed_name, if_neg (Ne.symm n.nonempty)]
      rfl

theorem create_view {tight : Prop} (h : Linked icrc32 tight [] s) {dip : Nat} {name : Name} {type : ObjType}
    {mode : Nat} {det : Option MediaError} {f : DirentFaults} {vget : Bool}
    (hres : xop_nresolve icrc32 s dip name = none) {s' : Pfs} {r : Except Error Unit}
    (hrun : create icrc32 s dip name type mode det f vget = (s', r)) :
    view icrc32 s' = follow (view icrc32 s) s.inode_tid (.create dip name type mode det f vget) r := by
  simp only [create] at hrun
  cases det with
  | some e =>
      obtain ⟨rfl, rfl⟩ := Prod.mk.inj hrun
      rfl
  | none =>
      simp only at hrun
      cases hmade : dirent_create icrc32 (s.dirs dip) name s.inode_tid type f with
      | mk dir q =>
          obtain ⟨hok, herr⟩ := dirent_create_view (h.wf dip) (h.absent hres) hmade
          simp only [hmade] at hrun
          cases q with
          | error e =>
              obtain ⟨rfl, rfl⟩ := Prod.mk.inj hrun
              exact herr e rfl
          | ok u =>
              obtain ⟨rfl, rfl⟩ := Prod.mk.inj hrun
              exact hok rfl

theorem link_view {tight : Prop} (h : Linked icrc32 tight [] s) {sdip ip tdip : Nat} {sname name : Name}
    {f : DirentFaults} (hsrc : view icrc32 s sdip sname = some ip)
    (hres : xop_nresolve icrc32 s tdip name = none) {s' : Pfs} {r : Except Error Unit}
    (hrun : link icrc32 s ip tdip name f = (s', r)) (inum : Nat) :
    view icrc32 s' = follow (view icrc32 s) inum (.link sdip sname tdip name f) r := by
  simp only [link] at hrun
  cases hmade : dirent_create icrc32 (s.dirs tdip) name ip (((s.inodes ip).map (·.type)).getD .unknown) f with
  | mk dir q =>
      obtain ⟨hok, herr⟩ := dirent_create_view (h.wf tdip) (h.absent hres) hmade
      simp only [hmade] at hrun
      obtain ⟨rfl, rfl⟩ := Prod.mk.inj hrun
      cases q with
      | error e => exact herr e rfl
      | ok u =>
          simp only [follow, hsrc]
          exact hok rfl

theorem unlink_view {tight : Prop} (h : Linked icrc32 tight [] s) {dip : Nat} {name : Name} {e : Dirent}
    {isdir : Bool} {fault : Option MediaError} (he : e ∈ s.dirs dip) (hname : e.name = name.bytes)
    {ip : Inode} (hip : s.inodes e.inum = some ip) {s' : Pfs} {r : Except Error Unit}
    (hrun : unlink icrc32 s dip name isdir fault = (s', r)) (inum : Nat) :
    view icrc32 s' = follow (view icrc32 s) inum (.unlink dip name isdir fault) r ∧
      (e.type ≠ .directory → isdir = false → fault = none → r = .ok ()) := by
  have hf := ((h.wf dip).find_eq_some name.nonempty).mpr ⟨he, hname⟩
  simp only [unlink, xop_unlink, hf] at hrun
  by_cases hisdir : e.type = .directory ∧ isdir = false
  · rw [if_pos hisdir] at hrun
    obtain ⟨rfl, rfl⟩ := Prod.mk.inj hrun
    exact ⟨rfl, fun hno => absurd hisdir.1 hno⟩
  by_cases hfull : e.type = .directory ∧ checkdirempty s e.inum = false
  · rw [if_neg hisdir, if_pos hfull] at hrun
    obtain ⟨rfl, rfl⟩ := Prod.mk.inj hrun
    exact ⟨rfl, fun hno => absurd hfull.1 hno⟩
  by_cases hnotdir : e.type ≠ .directory ∧ isdir = true
  · rw [if_neg hisdir, if_neg hfull, if_pos hnotdir] at hrun
    obtain ⟨rfl, rfl⟩ := Prod.mk.inj hrun
    exact ⟨rfl, fun _ hdir => by simp [hdir] at hnotdir⟩
  rw [if_neg hisdir, if_neg hfull, if_neg hnotdir] at hrun
  cases fault with
  | some err =>
      obtain ⟨rfl, rfl⟩ := Prod.mk.inj hrun
      exact ⟨rfl, fun _ _ hno => by simp at hno⟩
  | none =>
      simp only [setDir_inodes, hip, Option.isSome_some, if_true] at hrun
      obtain ⟨rfl, rfl⟩ := Prod.mk.inj hrun
      refine ⟨?_, fun _ _ _ => rfl⟩
      show view icrc32 (s.setDir dip (chain_delete (s.dirs dip) e.key)) = (view icrc32 s).set dip name none
      refine set_self_view dip fun n => ?_
      rw [(h.wf dip).find_delete he, hname]
      by_cases hn : n = name
      · simp [hn]
      · rw [if_neg hn, if_neg fun hb => hn (Name.bytes_inj.mp hb.symm)]

/-- A rename that the media lets pass either fails before it changes anything or moves the
entry, after the target entry is gone. -/
theorem nrename_cases {fdip tdip lhc : Nat} {ip4 : Option Nat} {n1 n2 : Name} {f : RenameFaults} {es : Dirent}
    (hf : find icrc32 (s.dirs fdip) n1.bytes = some es) (hadjust : f.adjust = none) (htarget : f.target = none)
    (hcreate : f.create = none) {s' : Pfs} {r : Except Error Unit}
    (hrun : xop_nrename icrc32 s fdip tdip ip4 lhc n1 n2 f = (s', r)) :
    (s' = s ∧ ∃ e, r = .error e ∧ e ≠ .enoent) ∨
      ∃ chain s1 s2, renamed es lhc n1.bytes n2.bytes none = .ok chain ∧ r = .ok () ∧
        s1 = s.setDir fdip (chain_delete (s.dirs fdip) es.key) ∧
        s2 = s1.setDir tdip (delete_matching (s1.dirs tdip) lhc n2.bytes) ∧
        s' = s2.setDir tdip (chain_create (s2.dirs tdip) { chain with key := lhc }) := by
  simp only [xop_nrename, hf, hadjust, htarget, hcreate] at hrun
  split at hrun
  · obtain ⟨rfl, rfl⟩ := Prod.mk.inj hrun
    exact .inl ⟨rfl, _, rfl, by simp⟩
  · cases hdelete : f.delete with
    | some e =>
        simp only [hdelete] at hrun
        obtain ⟨rfl, rfl⟩ := Prod.mk.inj hrun
        exact .inl ⟨rfl, _, rfl, e.toError_ne⟩
    | none =>
        simp only [hdelete] at hrun
        cases hren : renamed es lhc n1.bytes n2.bytes none with
        | error e => exact absurd rfl (renamed_error hren).1
        | ok chain =>
            simp only [hren] at hrun
            obtain ⟨rfl, rfl⟩ := Prod.mk.inj hrun
            exact .inr ⟨chain, _, _, rfl, rfl, rfl, rfl, rfl⟩

theorem free_lhc_ne_enoent {name : List UInt8} {scan : Option MediaError} :
    free_lhc icrc32 dir name scan ≠ .error .enoent := by
  intro h
  simp only [free_lhc] at h
  split at h
  · rename_i err herr
    obtain ⟨e, _, rfl⟩ := scanlhc_error herr
    exact e.toError_ne (by simpa using h)
  · split at h <;> simp at h

theorem rename_view (h : Linked icrc32 False [] s) {fdip tdip : Nat} {n1 n2 : Name} {f : RenameFaults}
    {es : Dirent} (tip : Option Nat) (he : es ∈ s.dirs fdip) (hname : es.name = n1.bytes)
    (hdir : s.isDir tdip = true) (hlate : f.adjust = none ∧ f.target = none ∧ f.create = none)
    (htip : Linked.Target s tdip n2 es.inum tip) {s' : Pfs} {r : Except Error Unit}
    (hrun : rename icrc32 s fdip n1 tdip n2 tip f = (s', r)) (inum : Nat) :
    view icrc32 s' = follow (view icrc32 s) inum (.rename fdip n1 tdip n2 f) r ∧ r ≠ .error .enoent := by
  have hf := ((h.wf fdip).find_eq_some n1.nonempty).mpr ⟨he, hname⟩
  have hsrc : view icrc32 s fdip n1 = some es.inum := by simp [view, hf]
  have hdiffer : view icrc32 s tdip n2 ≠ view icrc32 s fdip n1 := by
    rw [hsrc]
    cases tip with
    | none =>
        have hnone := ((h.wf tdip).find_eq_none n2.nonempty).mpr htip
        simp [view, hnone]
    | some t =>
        obtain ⟨hne, et, het, hetname, rfl⟩ := htip
        have hft := ((h.wf tdip).find_eq_some n2.nonempty).mpr ⟨het, hetname⟩
        simpa [view, hft] using hne
  cases hlhc : free_lhc icrc32 (s.dirs tdip) n2.bytes f.scan with
  | error e =>
      simp only [rename, hlhc] at hrun
      obtain ⟨rfl, rfl⟩ := Prod.mk.inj hrun
      exact ⟨rfl, fun hbad => free_lhc_ne_enoent (Except.error.inj hbad ▸ hlhc)⟩
  | ok lhc =>
      cases hn : xop_nrename icrc32 s fdip tdip (tip.filter s.isDir) lhc n1 n2 f with
      | mk s3 q =>
          simp only [rename, hlhc, hn] at hrun
          obtain ⟨_, hlinked, _⟩ := h.nrename he hname hlhc hdir (fun hc => hc.elim) (fun _ => hlate) htip hn
          rcases nrename_cases hf hlate.1 hlate.2.1 hlate.2.2 hn with
            ⟨rfl, e, rfl, hne⟩ | ⟨chain, s1, s2, hren, rfl, hs1, hs2, rfl⟩
          · simp only [if_neg hne] at hrun
            obtain ⟨rfl, rfl⟩ := Prod.mk.inj hrun
            exact ⟨rfl, by simpa using hne⟩
          · obtain ⟨rfl, rfl⟩ := Prod.mk.inj hrun
            refine ⟨?_, by simp⟩
            obtain ⟨hlo, hhi, _⟩ := (h.wf tdip).free_lhc_ok hlhc
            obtain ⟨hcname, hcnum, _⟩ := renamed_ok hren hname ((h.wf fdip).stored es he)
            have hwf1 : WellFormed icrc32 (s1.dirs tdip) := by
              rw [hs1]
              exact (h.take he).wf tdip
            have hwf3 := (hlinked rfl).1.wf tdip
            rw [setDir_self] at hwf3
            have hview1 : view icrc32 s1 = (view icrc32 s).set fdip n1 none := by
              rw [hs1]
              refine set_self_view fdip fun n => ?_
              rw [(h.wf fdip).find_delete he, hname]
              by_cases hn1 : n = n1
              · simp [hn1]
              · rw [if_neg hn1, if_neg fun hb => hn1 (Name.bytes_inj.mp hb.symm)]
            have hview2 : view icrc32 s2 = (view icrc32 s1).set tdip n2 none := by
              rw [hs2]
              refine set_self_view tdip fun n => ?_
              rw [(hwf1.find_delete_matching hlo hhi n).2]
              by_cases hn2 : n = n2 <;> simp [hn2]
            have hwf2 : WellFormed icrc32 (s2.dirs tdip) := by
              rw [hs2, setDir_self]
              exact (hwf1.find_delete_matching hlo hhi n1).1
            have hview3 : view icrc32 (s2.setDir tdip (chain_create (s2.dirs tdip) { chain with key := lhc })) =
                (view icrc32 s2).set tdip n2 (some es.inum) := by
              refine set_self_view tdip fun n => ?_
              rw [hwf2.find_create hwf3]
              show Option.map _ (if chain.name = n.bytes then _ else _) = _
              rw [hcname]
              by_cases hn2 : n = n2
              · simp [hn2, hcnum]
              · rw [if_neg hn2, if_neg fun hb => hn2 (Name.bytes_inj.mp hb.symm)]
            have htarget : ∀ x, view icrc32 (unlink_target x tip) = view icrc32 x := fun x => by
              cases tip <;> rfl
            rw [htarget, hview3, hview2, hview1]
            rw [hsrc] at hdiffer
            simp only [follow, hsrc, if_neg hdiffer]
            funext d n
            simp only [Names.set_apply]
            by_cases hdn : d = tdip ∧ n = n2
            · rw [if_pos hdn, if_pos hdn]
            · rw [if_neg hdn, if_neg hdn, if_neg hdn]

/-! ## One step, every run -/

theorem not_lastFree {d : Nat} {name : Name} {k : Nat} (hk : FreeKey icrc32 s d name k)
    (hne : k ≠ dirhash icrc32 name.bytes + DIRHASH_LOMASK) : ¬ LastFree icrc32 s d name :=
  fun hlast => hne ((hlast k).mp hk)

/-- No key is found only where no key is unused, or just the last one. -/
theorem no_free_key {d : Nat} (h : WellFormed icrc32 (s.dirs d)) {name : Name} {scan : Option MediaError}
    (hfull : free_lhc icrc32 (s.dirs d) name.bytes scan = .error .enospc) (hscan : scan ≠ some .enospc)
    (hlast : ¬ LastFree icrc32 s d name) (k : Nat) : ¬ FreeKey icrc32 s d name k := by
  have honly : ∀ j, FreeKey icrc32 s d name j → j = dirhash icrc32 name.bytes + DIRHASH_LOMASK := by
    rintro j ⟨hlo, hhi, hfree⟩
    by_contra hne
    obtain ⟨e, he, hkey⟩ := h.free_lhc_enospc hfull hscan j hlo (by omega)
    exact hfree e he hkey
  intro hk
  refine hlast fun j => ⟨honly j, ?_⟩
  rintro rfl
  rw [← honly k hk]
  exact hk

theorem view_igetv (i : Nat) : view icrc32 (s.mapInode i igetv) = view icrc32 s := rfl

/-- One operation changes the names as `follow` says, and its result is true of the map. -/
theorem names_step {op : Op} {s' : Pfs} {r : Except Error Unit} (h : Linked icrc32 False [] s)
    (hok : MapOk icrc32 s op) (hstep : apply icrc32 s op = some (s', r)) :
    view icrc32 s' = follow (view icrc32 s) s.inode_tid op r ∧ Truthful icrc32 s (view icrc32 s) r op := by
  cases op with
  | create dip name type mode det f vget =>
      simp only [apply] at hstep
      split at hstep
      · split at hstep
        · rename_i i hres
          obtain ⟨rfl, rfl⟩ := Prod.mk.inj (Option.some.inj hstep)
          refine ⟨rfl, fun hnone => ?_⟩
          rw [h.nresolve_eq, hnone] at hres
          simp at hres
        · rename_i hres
          refine ⟨create_view h hres (Option.some.inj hstep), ?_⟩
          rintro _ rfl
          have hr : r = (dirent_create icrc32 (s.dirs dip) name s.inode_tid type f).2 := by
            have hrun := Option.some.inj hstep
            simp only [create] at hrun
            cases hmade : dirent_create icrc32 (s.dirs dip) name s.inode_tid type f with
            | mk dir q => cases q <;> (simp only [hmade] at hrun; exact (Prod.mk.inj hrun).2.symm)
          refine ⟨hr ▸ dirent_create_ne_eexist (h.wf dip) name s.inode_tid type f, fun hfull => ?_⟩
          exact no_free_key (h.wf dip)
            (dirent_create_enospc (h.wf dip) (hr ▸ hfull) hok.2.2.1 hok.2.2.2) hok.2.1 hok.1
      · simp at hstep
  | link sdip sname tdip tname f =>
      simp only [apply] at hstep
      split at hstep
      · split at hstep
        · rename_i hsrc
          obtain ⟨rfl, rfl⟩ := Prod.mk.inj (Option.some.inj hstep)
          rw [h.nresolve_eq] at hsrc
          exact ⟨rfl, fun hsome => absurd hsrc hsome⟩
        · rename_i ip hsrc
          split at hstep
          · rename_i i hres
            obtain ⟨rfl, rfl⟩ := Prod.mk.inj (Option.some.inj hstep)
            refine ⟨rfl, fun _ hnone => ?_⟩
            rw [h.nresolve_eq, hnone] at hres
            simp at hres
          · rename_i hres
            have h1 := h.vget_resolved hsrc
            rw [h.nresolve_eq] at hsrc
            have hres1 : xop_nresolve icrc32 (s.mapInode ip igetv) tdip tname = none := by
              rw [nresolve_mapInode]
              exact hres
            refine ⟨link_view h1 hsrc hres1 (Option.some.inj hstep) _, fun _ _ => ?_⟩
            have hr := congrArg Prod.snd (Option.some.inj hstep)
            simp only [link] at hr
            rw [← hr]
            refine ⟨dirent_create_ne_eexist (h.wf tdip) _ _ _ _, fun hfull => ?_⟩
            exact no_free_key (h.wf tdip)
              (dirent_create_enospc (h.wf tdip) hfull hok.2.2.1 hok.2.2.2) hok.2.1 hok.1
      · simp at hstep
  | unlink dip name isdir fault =>
      simp only [apply] at hstep
      split at hstep
      · split at hstep
        · rename_i hres
          obtain ⟨rfl, rfl⟩ := Prod.mk.inj (Option.some.inj hstep)
          rw [h.nresolve_eq] at hres
          exact ⟨rfl, fun i ip hsome => by simp [hres] at hsome⟩
        · rename_i i hres
          split at hstep
          · rename_i hself
            obtain ⟨rfl, rfl⟩ := Prod.mk.inj (Option.some.inj hstep)
            exact ⟨rfl, fun _ _ _ _ _ hdir => by simp [hdir] at hself⟩
          · obtain ⟨e, he, hname, rfl, _⟩ := h.resolved hres
            obtain ⟨ip, hip, _, htype, _⟩ := h.inode_of_find he hname
            have hip' : (s.mapInode e.inum igetv).inodes e.inum = some (igetv ip) := by
              simp [Pfs.mapInode, Pfs.setInode, hip]
            obtain ⟨hview, hsure⟩ := unlink_view (h.vget_resolved hres) he hname hip'
              (Option.some.inj hstep) s.inode_tid
            refine ⟨hview, fun i ip' hsome hip'' hfile => hsure ?_⟩
            rw [← h.nresolve_eq, hres] at hsome
            obtain rfl := Option.some.inj hsome
            rw [htype, Option.some.inj (hip.symm.trans hip'')]
            exact hfile
      · simp at hstep
  | rename fdip fname tdip tname f =>
      simp only [apply] at hstep
      split at hstep
      · rename_i hdirs
        split at hstep
        · rename_i hsrc
          obtain ⟨rfl, rfl⟩ := Prod.mk.inj (Option.some.inj hstep)
          rw [h.nresolve_eq] at hsrc
          exact ⟨rfl, fun hsome => absurd hsrc hsome⟩
        · rename_i fip hsrc
          obtain ⟨es, he, hname, rfl, _⟩ := h.resolved hsrc
          have h1 := h.vget_resolved hsrc
          split at hstep
          · rename_i hres
            obtain ⟨hview, hfound⟩ := rename_view h1 none he hname (by rw [isDir_igetv]; exact hdirs.2) hok
              (h.absent hres) (Option.some.inj hstep) s.inode_tid
            exact ⟨hview, fun _ => hfound⟩
          · rename_i tip hres
            split at hstep
            · rename_i heq
              obtain ⟨rfl, rfl⟩ := Prod.mk.inj (Option.some.inj hstep)
              rw [h.nresolve_eq] at hsrc hres
              refine ⟨?_, fun _ => by simp⟩
              simp only [follow, hsrc, hres, heq, if_true]
            · rename_i hne
              obtain ⟨et, het, hetname, rfl, _⟩ := h.resolved hres
              have h2 : Linked icrc32 False [] ((s.mapInode es.inum igetv).mapInode et.inum igetv) :=
                h1.vget_resolved (by rw [nresolve_mapInode]; exact hres)
              obtain ⟨hview, hfound⟩ := rename_view h2 (some et.inum) he hname
                (by rw [isDir_igetv, isDir_igetv]; exact hdirs.2) hok ⟨hne, et, het, hetname, rfl⟩
                (Option.some.inj hstep) s.inode_tid
              exact ⟨hview, fun _ => hfound⟩
      · simp at hstep
  | lookup dip name =>
      simp only [apply] at hstep
      split at hstep <;> (obtain ⟨rfl, rfl⟩ := Prod.mk.inj (Option.some.inj hstep); exact ⟨rfl, trivial⟩)
  | inactive i =>
      simp only [apply] at hstep
      split at hstep
      · obtain ⟨rfl, rfl⟩ := Prod.mk.inj (Option.some.inj hstep)
        exact ⟨rfl, trivial⟩
      · simp at hstep
  | reclaim i =>
      simp only [apply] at hstep
      split at hstep
      · obtain ⟨rfl, rfl⟩ := Prod.mk.inj (Option.some.inj hstep)
        exact ⟨rfl, trivial⟩
      · simp at hstep
  | destroy i =>
      simp only [apply] at hstep
      split at hstep
      · obtain ⟨rfl, rfl⟩ := Prod.mk.inj (Option.some.inj hstep)
        refine ⟨?_, trivial⟩
        refine view_setDir (fun name => ?_) fun d hd => ?_
        · simp [follow, find, lookup]
        · simp only [follow, Function.update_of_ne hd]
          rfl
      · simp at hstep

/-- **Directories are finite maps.**  In a run whose steps are all `MapOk`, names resolve to
what the map holds, and the result of a further such step is true of the map. -/
theorem run_tracks {ops : List Op} {m : Names}
    (hrun : exec (track icrc32) (newfs, Names.empty) ops = some (s, m))
    (hok : AllSteps (track icrc32) (fun sm op => MapOk icrc32 sm.1 op) (newfs, Names.empty) ops) :
    (∀ d name, xop_nresolve icrc32 s d name = m d name) ∧
      ∀ op s' r, MapOk icrc32 s op → apply icrc32 s op = some (s', r) → Truthful icrc32 s m r op := by
  have hkeep : ∀ (sm : Pfs × Names) op t, Linked icrc32 False [] sm.1 ∧ view icrc32 sm.1 = sm.2 →
      MapOk icrc32 sm.1 op → track icrc32 sm op = some t →
      Linked icrc32 False [] t.1 ∧ view icrc32 t.1 = t.2 := by
    rintro ⟨s, m⟩ op t ⟨h, hm⟩ hstep hmove
    obtain ⟨⟨s', r⟩, happly, rfl⟩ := Option.map_eq_some_iff.mp hmove
    refine ⟨step_linked h (fun hc => hc.elim) happly, ?_⟩
    rw [← show view icrc32 s = m from hm]
    exact (names_step h hstep happly).1
  have hfirst : Linked icrc32 False [] newfs ∧ view icrc32 newfs = Names.empty := by
    refine ⟨linked_newfs icrc32 False, ?_⟩
    funext d name
    simp [view, newfs, find, lookup, Names.empty]
  have hlast := exec_invariant hkeep hfirst hok hrun
  have h : Linked icrc32 False [] s := hlast.1
  rw [← show view icrc32 s = m from hlast.2]
  exact ⟨h.nresolve_eq, fun op s' r hstep happly => (names_step h hstep happly).2⟩

/-- Two names in one bucket; one of them is removed, the other is still found. -/
def collidingNames : List Op :=
  [mkEntry 1 nameA .regfile, mkEntry 1 nameB .regfile, .unlink 1 nameA false none]

theorem run_tracks_colliding : ∃ s m, exec (track fun _ => 0) (newfs, Names.empty) collidingNames = some (s, m) ∧
    xop_nresolve (fun _ => 0) s 1 nameB = m 1 nameB ∧ m 1 nameB = some 18 ∧ m 1 nameA = none := by
  refine ⟨_, _, rfl, ?_, by decide, by decide⟩
  refine (@run_tracks (fun _ => 0) _ collidingNames _ rfl ?_).1 1 nameB
  refine ⟨⟨not_lastFree (k := 0x8000000000008009) (by decide) (by decide), by decide, by decide, by decide⟩,
    ⟨not_lastFree (k := 0x8000000000008009) (by decide) (by decide), by decide, by decide, by decide⟩,
    trivial, trivial⟩

/-! ## The last key of a bucket -/

/-- The scan of a bucket whose first `n` keys are used and the others are not. -/
theorem scanlhc_end : ∀ (n lhc : Nat), scanlhc lhc (List.range' lhc n) none = .ok (lhc + n + 1)
  | 0, _ => rfl
  | n + 1, lhc => by
      rw [List.range'_succ, scanlhc, if_neg (by simp), scanlhc_end n (lhc + 1)]
      congr 1
      omega

/-- The scan stops at the first gap. -/
theorem scanlhc_gap (k : Nat) (keys : List Nat) (scan : Option MediaError) : ∀ (n lhc : Nat), k ≠ lhc + n →
    scanlhc lhc (List.range' lhc n ++ k :: keys) scan = .ok (lhc + n)
  | 0, lhc, hk => by
      show scanlhc lhc (k :: keys) scan = .ok lhc
      rw [scanlhc, if_pos (by omega)]
  | n + 1, lhc, hk => by
      rw [List.range'_succ, List.cons_append, scanlhc, if_neg (by simp),
        scanlhc_gap k keys scan n (lhc + 1) (by omega)]
      congr 1
      omega

/-- A checksum that tells no names apart, and the one bucket it makes. -/
def noChecksum : List UInt8 → UInt32 := fun _ => 0
def oneBucket : Nat := 0x8000000000008000

theorem dirhash_noChecksum (name : List UInt8) : dirhash noChecksum name = oneBucket := by
  have hfold : ∀ l : List (List UInt8), l.foldl (fun crcx piece => crcx + noChecksum piece) 0 = 0 := by
    intro l
    induction l with
    | nil => rfl
    | cons x l ih => exact ih
  have hwhole : noChecksum name = 0 := rfl
  simp only [dirhash, hfold, hwhole]
  decide

def nthName (i : Nat) : Name := ⟨[UInt8.ofNat (i / 256), UInt8.ofNat i], by simp, by simp⟩

theorem nthName_inj {i j : Nat} (hi : i < 65536) (hj : j < 65536) (h : nthName i = nthName j) : i = j := by
  simp only [nthName, Name.mk.injEq, List.cons.injEq, and_true] at h
  obtain ⟨hhigh, hlow⟩ := h
  have h1 := congrArg UInt8.toNat hhigh
  have h2 := congrArg UInt8.toNat hlow
  simp only [UInt8.toNat_ofNat'] at h1 h2
  omega

/-- The directory `1` holds the first `n` names, at the keys that `used` lists. -/
structure Filled (n : Nat) (used : List Nat) (s : Pfs) : Prop where
  linked : Linked noChecksum False [] s
  isDir : s.isDir 1 = true
  named : ∀ e ∈ s.dirs 1, e.type = .regfile ∧ ∃ i < n, e.name = (nthName i).bytes
  keys : (s.dirs 1).map (·.key) = used

theorem free_lhc_filled {n : Nat} {used : List Nat} (h : Filled n used s)
    (hin : ∀ k ∈ used, oneBucket ≤ k ∧ k ≤ oneBucket + DIRHASH_LOMASK) {lhc : Nat}
    (hscan : scanlhc oneBucket used none = .ok lhc) (name : List UInt8) :
    free_lhc noChecksum (s.dirs 1) name none =
      if (oneBucket ^^^ lhc) / (DIRHASH_LOMASK + 1) ≠ 0 then .error .enospc else .ok lhc := by
  have hall : lookup (s.dirs 1) oneBucket (oneBucket + DIRHASH_LOMASK) = s.dirs 1 := by
    refine List.filter_eq_self.mpr fun e he => ?_
    have hkey := hin e.key (h.keys ▸ List.mem_map_of_mem he)
    simp [hkey]
  simp only [free_lhc, dirhash_noChecksum, hall, h.keys, hscan]

/-- One more name gets the key the scan picks. -/
theorem Filled.mkEntry {n : Nat} {used : List Nat} (h : Filled n used s) (used' : List Nat) (hn : n < 65536)
    (hin : ∀ k ∈ used, oneBucket ≤ k ∧ k ≤ oneBucket + DIRHASH_LOMASK) {lhc : Nat}
    (hscan : scanlhc oneBucket used none = .ok lhc) (hlo : oneBucket ≤ lhc)
    (hhi : lhc ≤ oneBucket + DIRHASH_LOMASK)
    (hsorted : used'.Pairwise (· < ·)) (hused : ∀ k, k ∈ used' ↔ k = lhc ∨ k ∈ used) :
    ∃ s' e, step noChecksum s (Dir.mkEntry 1 (nthName n) .regfile) = some s' ∧ Filled (n + 1) used' s' ∧
      s'.dirs 1 = chain_create (s.dirs 1) e ∧ e.key = lhc ∧ e.name = (nthName n).bytes := by
  have hnew : ∀ e ∈ s.dirs 1, e.name ≠ (nthName n).bytes := by
    intro e he hname
    obtain ⟨_, i, hi, hie⟩ := h.named e he
    have := nthName_inj (by omega) hn (Name.bytes_inj.mp (hie.symm.trans hname))
    omega
  have hres : xop_nresolve noChecksum s 1 (nthName n) = none := by
    have hnone := ((h.linked.wf 1).find_eq_none (nthName n).nonempty).mpr hnew
    simp [xop_nresolve, hnone]
  have hfree : free_lhc noChecksum (s.dirs 1) (nthName n).bytes none = .ok lhc := by
    rw [free_lhc_filled h hin hscan, if_neg]
    rw [not_not]
    exact (sameBucket_iff (by decide) hlo).mpr hhi
  cases hmade : dirent_create noChecksum (s.dirs 1) (nthName n) s.inode_tid .regfile ⟨none, .none⟩ with
  | mk dir r =>
      cases r with
      | error e =>
          obtain ⟨_, _, hunused⟩ := (h.linked.wf 1).free_lhc_ok hfree
          simp [dirent_create, hfree, xop_inode_mkdirent, lookup_free hunused] at hmade
      | ok u =>
          obtain ⟨e, rfl, hname, _, htype, hkey, hwf⟩ := dirent_create_ok (h.linked.wf 1) hnew hmade
          obtain rfl : e.key = lhc := by simpa [hfree] using hkey.symm
          have hstep : step noChecksum s (Dir.mkEntry 1 (nthName n) .regfile) = some
              ((({ s with inode_tid := s.inode_tid + 1 } : Pfs).setDir 1 (chain_create (s.dirs 1) e)).setInode
                s.inode_tid (some (igetv (inode_create_normal .regfile 0o644)))) := by
            simp only [step, Dir.mkEntry, apply, h.isDir, if_true, hres, create, hmade]
            rfl
          refine ⟨_, e, hstep, ⟨?_, ?_, ?_, ?_⟩, by simp [Pfs.setDir, Pfs.setInode], rfl, hname⟩
          · obtain ⟨⟨s', r⟩, happly, hs'⟩ := Option.map_eq_some_iff.mp hstep
            rw [← hs']
            exact step_linked h.linked (fun hc => hc.elim) happly
          · have hne : 1 ≠ s.inode_tid := Nat.ne_of_lt h.linked.first
            simpa [Pfs.isDir, Pfs.setInode, hne] using h.isDir
          · intro x hx
            have hx' : x ∈ chain_create (s.dirs 1) e := by simpa [Pfs.setDir, Pfs.setInode] using hx
            rcases mem_chain_create.mp hx' with rfl | hold
            · exact ⟨htype, n, by omega, hname⟩
            · obtain ⟨hfile, i, hi, hie⟩ := h.named x hold
              exact ⟨hfile, i, by omega, hie⟩
          · show ((Function.update s.dirs 1 (chain_create (s.dirs 1) e)) 1).map (·.key) = used'
            rw [Function.update_self]
            refine List.Pairwise.eq_of_mem_iff (List.pairwise_map.mpr hwf.sorted) hsorted fun k => ?_
            rw [hused, ← h.keys]
            simp [eq_comm]

/-- The first `n` names, created one after the other. -/
def fill (n : Nat) : List Op := (List.range n).map fun i => mkEntry 1 (nthName i) .regfile

/-- The names get their keys in pairs, the higher key of a pair first. -/
theorem exec_fill : ∀ m, 2 * m ≤ 0x8000 → ∃ s, exec (step noChecksum) newfs (fill (2 * m)) = some s ∧
    Filled (2 * m) (List.range' oneBucket (2 * m)) s ∧
    (0 < m → ∃ e ∈ s.dirs 1, e.name = (nthName (2 * m - 2)).bytes ∧ e.key = oneBucket + (2 * m - 1))
  | 0, _ => ⟨newfs, rfl, ⟨linked_newfs noChecksum False, rfl, by simp [newfs], rfl⟩, by simp⟩
  | m + 1, hm => by
      obtain ⟨s, hrun, hfilled, _⟩ := exec_fill m (by omega)
      have hmask : DIRHASH_LOMASK = 0x7FFF := rfl
      -- The bucket ends without a gap: the scan steps over its first unused key.
      obtain ⟨s1, e, hstep1, hfilled1, hdir1, hkey1, hname1⟩ := hfilled.mkEntry
        (List.range' oneBucket (2 * m) ++ [oneBucket + 2 * m + 1]) (by omega)
        (fun k hk => by have := List.mem_range'_1.mp hk; omega) (scanlhc_end (2 * m) oneBucket) (by omega)
        (by omega)
        (List.pairwise_append.mpr ⟨List.pairwise_lt_range', by simp, fun a ha b hb => by
          have := List.mem_range'_1.mp ha
          have := List.mem_singleton.mp hb
          omega⟩)
        (fun k => by simp [or_comm])
      -- The next name goes into the gap.
      obtain ⟨s2, e2, hstep2, hfilled2, hdir2, _, _⟩ := hfilled1.mkEntry
        (List.range' oneBucket (2 * m + 1 + 1)) (by omega)
        (fun k hk => by
          rcases List.mem_append.mp hk with hk | hk
          · have := List.mem_range'_1.mp hk
            omega
          · have := List.mem_singleton.mp hk
            omega)
        (scanlhc_gap (oneBucket + 2 * m + 1) [] none (2 * m) oneBucket (by omega)) (by omega) (by omega)
        List.pairwise_lt_range'
        (fun k => by
          simp only [List.mem_range'_1, List.mem_append, List.mem_singleton]
          omega)
      refine ⟨s2, ?_, hfilled2, fun _ => ⟨e, ?_, hname1, by omega⟩⟩
      · have hsplit : fill (2 * (m + 1)) = fill (2 * m) ++
            [mkEntry 1 (nthName (2 * m)) .regfile, mkEntry 1 (nthName (2 * m + 1)) .regfile] := by
          simp [fill, show 2 * (m + 1) = 2 * m + 1 + 1 from rfl, List.range_succ]
        rw [hsplit, exec_append, hrun]
        simp [exec, hstep1, hstep2]
      · rw [hdir2, hdir1]
        simp

/-- All keys of the bucket get used, then the last one is freed again. -/
def lastKeyRun : List Op := fill 0x8000 ++ [.unlink 1 (nthName 0x7FFE) false none]

/-- In the bucket that `lastKeyRun` leaves behind the last key is unused, yet a creation finds
no room. -/
theorem last_key_missed : ∃ s s', exec (step noChecksum) newfs lastKeyRun = some s ∧
    xop_nresolve noChecksum s 1 (nthName 0x8000) = none ∧
    apply noChecksum s (mkEntry 1 (nthName 0x8000) .regfile) = some (s', .error .enospc) ∧
    FreeKey noChecksum s 1 (nthName 0x8000) (oneBucket + DIRHASH_LOMASK) := by
  obtain ⟨s, hrun, hfilled, hlast⟩ := exec_fill 0x4000 (by decide)
  obtain ⟨e, he, hname, hkey⟩ := hlast (by decide)
  have h := hfilled.linked
  have hf := ((h.wf 1).find_eq_some (nthName 0x7FFE).nonempty).mpr ⟨he, hname⟩
  obtain ⟨ip, hip, _, _, _⟩ := h.inode_of_find he hname
  have hres : xop_nresolve noChecksum s 1 (nthName 0x7FFE) = some e.inum := by simp [xop_nresolve, hf, hip]
  have hfile := (hfilled.named e he).1
  -- The file of the last key is removed.
  have hunlink : apply noChecksum s (.unlink 1 (nthName 0x7FFE) false none) = some
      (((s.mapInode e.inum igetv).setDir 1 (chain_delete (s.dirs 1) e.key)).mapInode e.inum unlink_finisher,
        .ok ()) := by
    have hip' : ((s.mapInode e.inum igetv).inodes e.inum).isSome = true := by
      rw [mapInode_isSome, hip]
      rfl
    have hf' : find noChecksum ((s.mapInode e.inum igetv).dirs 1) (nthName 0x7FFE).bytes = some e := hf
    simp only [apply, hfilled.isDir, if_true, hres, unlink, xop_unlink, hf', hfile, setDir_inodes, hip']
    simp
    rfl
  generalize hs1 : (((s.mapInode e.inum igetv).setDir 1 (chain_delete (s.dirs 1) e.key)).mapInode e.inum
    unlink_finisher) = s1 at hunlink
  have hdirs : s1.dirs 1 = chain_delete (s.dirs 1) e.key := by
    rw [← hs1]
    simp [Pfs.mapInode, Pfs.setInode]
  have hlinked := step_linked h (fun hc => hc.elim) hunlink
  have hused : ∀ k, (∃ x ∈ s1.dirs 1, x.key = k) ↔ oneBucket ≤ k ∧ k < oneBucket + 0x7FFF := by
    intro k
    have hall : (∃ x ∈ s.dirs 1, x.key = k) ↔ oneBucket ≤ k ∧ k < oneBucket + 0x8000 := by
      rw [← List.mem_range'_1, ← hfilled.keys, List.mem_map]
    rw [hdirs]
    constructor
    · rintro ⟨x, hx, rfl⟩
      obtain ⟨hx, hne⟩ := mem_chain_delete.mp hx
      have := hall.mp ⟨x, hx, rfl⟩
      omega
    · intro hk
      obtain ⟨x, hx, hxk⟩ := hall.mpr (by omega)
      exact ⟨x, mem_chain_delete.mpr ⟨hx, by omega⟩, hxk⟩
  have hfilled1 : Filled 0x8000 (List.range' oneBucket 0x7FFF) s1 := by
    refine ⟨hlinked, ?_, fun x hx => ?_, ?_⟩
    · obtain ⟨x, hx, _⟩ := (hused oneBucket).mpr (by decide)
      exact hlinked.isDir_of_mem hx
    · rw [hdirs] at hx
      exact hfilled.named x (mem_chain_delete.mp hx).1
    · refine List.Pairwise.eq_of_mem_iff (List.pairwise_map.mpr (hlinked.wf 1).sorted)
        List.pairwise_lt_range' fun k => ?_
      rw [List.mem_map, List.mem_range'_1, hused]
  have hres1 : xop_nresolve noChecksum s1 1 (nthName 0x8000) = none := by
    have hnone := ((hlinked.wf 1).find_eq_none (nthName 0x8000).nonempty).mpr fun x hx hxname => by
      obtain ⟨_, i, hi, hie⟩ := hfilled1.named x hx
      have := nthName_inj (by omega) (by decide) (Name.bytes_inj.mp (hie.symm.trans hxname))
      omega
    simp [xop_nresolve, hnone]
  have hfull : free_lhc noChecksum (s1.dirs 1) (nthName 0x8000).bytes none = .error .enospc := by
    rw [free_lhc_filled hfilled1 (fun k hk => ?_) (scanlhc_end 0x7FFF oneBucket)]
    · decide
    · have hmask : DIRHASH_LOMASK = 0x7FFF := rfl
      have := List.mem_range'_1.mp hk
      omega
  refine ⟨s1, (({ s1 with inode_tid := s1.inode_tid + 1 } : Pfs).setDir 1 (s1.dirs 1)).setInode s1.inode_tid
    (some (unlink_finisher (inode_create_normal .regfile 0o644))), ?_, hres1, ?_, ?_⟩
  · rw [lastKeyRun, exec_append, show (0x8000 : Nat) = 2 * 0x4000 from rfl, hrun]
    simp [exec, step, hunlink]
  · simp [mkEntry, apply, hfilled1.isDir, hres1, create, dirent_create, hfull]
  · refine ⟨?_, ?_, fun x hx hk => ?_⟩
    · rw [show dirhash noChecksum (nthName 0x8000).bytes = oneBucket from dirhash_noChecksum _]
      exact Nat.le_add_right _ _
    · rw [show dirhash noChecksum (nthName 0x8000).bytes = oneBucket from dirhash_noChecksum _]
    · have := (hused _).mp ⟨x, hx, hk⟩
      have hmask : DIRHASH_LOMASK = 0x7FFF := rfl
      omega

end Hammer2.Dir
