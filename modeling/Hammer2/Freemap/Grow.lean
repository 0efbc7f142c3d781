/-
# `Hammer2.Freemap.Grow` — growing a mounted volume

`hammer2_ioctl_growfs` adds the difference of the two sizes to every counter, `allocator_free`
among them.  What the allocator gains is less: a leaf that is initialised keeps the end it was
initialised with, and the 4MB at the base of each 1GB stay reserved.

    growfs             hammer2_ioctl_growfs
    clearVolhdrs       its loop over the backup volume headers
    Valid              what reachable states of a single volume are like, and keep
    freeBytes_grow     what the allocator gains
    growfs_accounts    the counters stay in step only inside the last zone, and only if its
                       leaf is not initialised
-/
import Hammer2.Freemap.Reserved

namespace Hammer2.Alloc

open Machine Loop
open Account (leafOf zoneBytes entry freeBytes entryCount newfsAlign)

/-! ## `hammer2_ioctl_growfs` -/

abbrev numVolhdrs : Nat := 4

/-- The sizes in the volume header and in `hammer2_dev_t`; `size` is the one of `volumes[0]`. -/
structure Volume where
  allocatorBeg : Nat
  voluSize : Nat
  totalSize : Nat
  allocatorSize : Nat
  hmpTotalSize : Nat
  size : Nat
deriving DecidableEq

/-- What the freemap and bulkfree read. -/
def Volume.dev (v : Volume) : Dev := ⟨v.allocatorBeg, v.hmpTotalSize⟩

inductive Errno where
  | einval
  | erofs
  | eopnotsupp
  | ioctl (error : Nat)
deriving DecidableEq

/-- What the call meets: `pfs_hmps[0]`, the mount, the answer of `DIOCGDINFO` with the sectors
and their size, and which of the backup volume headers can be read and written. -/
structure GrowEnv where
  hmp : Bool
  rdonly : Bool
  nvolumes : Nat
  media : Except Nat (Nat × Nat)
  bread : Nat → Bool
  bwrite : Nat → Bool

/-- The returned error and the fields of `hammer2_ioc_growfs_t`, with the backup volume headers
that were cleared. -/
structure GrowReply where
  error : Option Errno
  modified : Bool
  size : Nat
  cleared : List Nat
deriving DecidableEq

/-- The loop over the backup volume headers from `i` on, with `left` of them to go: the headers
cleared, and whether all of them could be. -/
def clearVolhdrs (env : GrowEnv) (voluSize size : Nat) : Nat → Nat → List Nat × Bool
  | _, 0 => ([], true)
  | i, left + 1 =>
      if i * zoneBytes < voluSize then clearVolhdrs env voluSize size (i + 1) left
      else if i * zoneBytes ≥ size then ([], true)
      else if env.bread i = false ∨ env.bwrite i = false then ([], false)
      else
        let r := clearVolhdrs env voluSize size (i + 1) left
        (i :: r.1, r.2)

/-- The size a request comes to: that of the medium unless specified, rounded down to 8MB. -/
def growSize (media size : Nat) : Nat := (if size = 0 then media else size) / newfsAlign * newfsAlign

/-- The size the volume is to have; the medium is asked first. -/
def GrowEnv.grown (env : GrowEnv) (size : Nat) : Nat :=
  match env.media with
  | .error _ => 0
  | .ok (secperunit, secsize) => growSize (secperunit * secsize) size

/-- The counters after growing by `delta`. -/
def Volume.grow (v : Volume) (size delta : Nat) : Volume :=
  { v with
    voluSize := size
    totalSize := v.totalSize + delta
    allocatorSize := v.allocatorSize + delta
    hmpTotalSize := v.hmpTotalSize + delta
    size := v.size + delta }

def State.grow (s : State) (delta : Nat) : State :=
  { s with allocatorFree := s.allocatorFree + BitVec.ofNat 64 delta }

/-- `hammer2_ioctl_growfs`; `none` is the failed assertion. -/
def growfs (env : GrowEnv) (size : Nat) (v : Volume) (s : State) : Option (GrowReply × Volume × State) :=
  if env.hmp = false then some (⟨some .einval, false, size, []⟩, v, s)
  else if env.rdonly = true then some (⟨some .erofs, false, size, []⟩, v, s)
  else if env.nvolumes > 1 then some (⟨some .eopnotsupp, false, size, []⟩, v, s)
  else if v.hmpTotalSize ≠ v.voluSize then none
  else
    match env.media with
    | .error e => some (⟨some (.ioctl e), false, size, []⟩, v, s)
    | .ok (secperunit, secsize) =>
        let media := secperunit * secsize
        if size > media then some (⟨some .einval, false, size, []⟩, v, s)
        else
          let size := growSize media size
          if size > 2 ^ 63 - 1 then some (⟨some .einval, false, size, []⟩, v, s)
          else if size < v.voluSize then some (⟨some .einval, false, size, []⟩, v, s)
          else if size = v.voluSize then some (⟨none, false, size, []⟩, v, s)
          else
            let r := clearVolhdrs env v.voluSize size 0 numVolhdrs
            if r.2 = false then some (⟨some .einval, false, size, r.1⟩, v, s)
            else
              let delta := size - v.voluSize
              some (⟨none, true, size, r.1⟩, v.grow size delta, s.grow delta)

/-- A request that is accepted adds the difference of the sizes, if there is one. -/
theorem growfs_ok {env : GrowEnv} {size : Nat} {v v' : Volume} {s s' : State} {reply : GrowReply}
    (h : growfs env size v s = some (reply, v', s')) (hok : reply.error = none) :
    env.grown size < 2 ^ 63 ∧ env.grown size % newfsAlign = 0 ∧ v.voluSize ≤ env.grown size ∧
      v' = v.grow (env.grown size) (env.grown size - v.voluSize) ∧
      s' = s.grow (env.grown size - v.voluSize) := by
  have herr : ∀ {r : GrowReply} {w : Volume} {u : State}, r.error ≠ none →
      some (r, w, u) = some (reply, v', s') → False := by
    rintro r w u hne heq
    exact hne ((Prod.mk.inj (Option.some.inj heq)).1 ▸ hok)
  unfold growfs at h
  split at h
  · exact (herr (Option.some_ne_none _) h).elim
  split at h
  · exact (herr (Option.some_ne_none _) h).elim
  split at h
  · exact (herr (Option.some_ne_none _) h).elim
  split at h
  · cases h
  next hassert =>
  split at h
  · exact (herr (Option.some_ne_none _) h).elim
  next n k hmedia =>
  dsimp only at h
  split at h
  · exact (herr (Option.some_ne_none _) h).elim
  have haligned : growSize (n * k) size % newfsAlign = 0 := Nat.mul_mod_left ..
  have hgrown : env.grown size = growSize (n * k) size := by
    rw [GrowEnv.grown, hmedia]
  rw [← hgrown] at h haligned
  split at h
  · exact (herr (Option.some_ne_none _) h).elim
  next hmax =>
  split at h
  · exact (herr (Option.some_ne_none _) h).elim
  next hshrink =>
  refine ⟨by omega, haligned, Nat.not_lt.mp hshrink, ?_⟩
  split at h
  · next hsame =>
    -- nothing changes
    obtain ⟨-, heq⟩ := Prod.mk.inj (Option.some.inj h)
    obtain ⟨rfl, rfl⟩ := Prod.mk.inj heq
    rw [hsame, Nat.sub_self, State.grow, BitVec.add_zero]
    exact ⟨rfl, rfl⟩
  · split at h
    · exact (herr (Option.some_ne_none _) h).elim
    · obtain ⟨-, heq⟩ := Prod.mk.inj (Option.some.inj h)
      obtain ⟨rfl, rfl⟩ := Prod.mk.inj heq
      exact ⟨rfl, rfl⟩

/-! ## What the allocator gains -/

section
variable {dev : Dev} {s : State} {new : Nat}

/-- The device with another end. -/
abbrev resize (dev : Dev) (new : Nat) : Dev := { dev with totalSize := new }

/-- The entry is past the old end and before the new one, and its leaf is not there yet. -/
def Gained (s : State) (old new e : Nat) : Prop :=
  old / segSize ≤ e ∧ e < new / segSize ∧ e % 256 ≠ 0 ∧ s.created (leafOf e) = false

instance (s : State) (old new e : Nat) : Decidable (Gained s old new e) :=
  inferInstanceAs (Decidable (_ ∧ _))

theorem usable_resize (hold : dev.totalSize % newfsAlign = 0) (hnew : new % newfsAlign = 0)
    (harea : segUp dev.allocatorBeg ≤ dev.totalSize) (hle : dev.totalSize ≤ new) (e : Nat) :
    Usable (resize dev new) e ↔
      Usable dev e ∨ dev.totalSize / segSize ≤ e ∧ e < new / segSize ∧ e % 256 ≠ 0 := by
  unfold Usable segDown
  simp only [segSize, newfsAlign] at *
  omega

theorem usable_mono {e : Nat} (hle : dev.totalSize ≤ new) (h : Usable dev e) :
    Usable (resize dev new) e := by
  have hend : segDown dev.totalSize ≤ segDown new := Nat.mul_le_mul_right _ (Nat.div_le_div_right hle)
  exact ⟨h.1, h.2.1, Nat.lt_of_lt_of_le h.2.2 hend⟩

/-- The entries of the larger device. -/
theorem entry_resize (hold : dev.totalSize % newfsAlign = 0) (hnew : new % newfsAlign = 0)
    (harea : segUp dev.allocatorBeg ≤ dev.totalSize) (hle : dev.totalSize ≤ new) (e : Nat) :
    entry (resize dev new) s.toState e =
      if Gained s dev.totalSize new e then freeBmap else entry dev s.toState e := by
  have hiff := usable_resize hold hnew harea hle e
  unfold entry
  cases hc : s.created (leafOf e) with
  | true =>
      rw [if_pos rfl, if_pos rfl, if_neg fun hg => by rw [hg.2.2.2] at hc; cases hc]
  | false =>
      rw [if_neg Bool.false_ne_true, if_neg Bool.false_ne_true, usable_iff_freemapInit, usable_iff_freemapInit]
      by_cases hu : Usable dev e
      · rw [if_pos hu, if_pos (hiff.mpr (.inl hu)), ite_self]
      · rw [if_neg hu]
        exact if_congr (hiff.trans ⟨fun h => ⟨(h.resolve_left hu).1, (h.resolve_left hu).2.1,
          (h.resolve_left hu).2.2, hc⟩, fun hg => .inr ⟨hg.1, hg.2.1, hg.2.2.1⟩⟩) rfl rfl

/-- Past the end there is nothing. -/
theorem entry_past (hl : Account.Leaves dev s.toState) {e : Nat} (h : dev.totalSize / segSize ≤ e)
    (hc : s.created (leafOf e) = false ∨ entryCount dev ≤ e) : (entry dev s.toState e).avail.toNat = 0 := by
  have hc' : s.created (leafOf e) = false := by
    rcases hc with hc | hc
    · exact hc
    · by_contra hne
      have hin := hl.inside _ (Bool.not_eq_false _ ▸ hne)
      unfold entryCount at hc
      unfold leafOf at hin
      simp only [freemapLevel1Size, freemapCount, segSize] at *
      omega
  have hu : ¬ Usable dev e := by
    rintro ⟨-, -, h3⟩
    unfold segDown at h3
    simp only [segSize] at *
    omega
  rw [entry, if_neg (by rw [hc']; exact Bool.false_ne_true), usable_iff_freemapInit, if_neg hu]
  rfl

/-- **The gain**: 4MB for each entry that is gained. -/
theorem freeBytes_grow (hl : Account.Leaves dev s.toState) (hold : dev.totalSize % newfsAlign = 0)
    (hnew : new % newfsAlign = 0) (harea : segUp dev.allocatorBeg ≤ dev.totalSize)
    (hle : dev.totalSize ≤ new) :
    freeBytes (resize dev new) s.toState = freeBytes dev s.toState +
      ((Finset.Ico (dev.totalSize / segSize) (new / segSize)).filter
        (Gained s dev.totalSize new)).card * segSize := by
  have hsub : Finset.range (entryCount dev) ⊆ Finset.range (entryCount (resize dev new)) := by
    rw [Finset.range_subset_range]
    exact Nat.mul_le_mul_right _ (Nat.succ_le_succ (Nat.div_le_div_right hle))
  have hsame : freeBytes dev s.toState =
      ∑ e ∈ Finset.range (entryCount (resize dev new)), (entry dev s.toState e).avail.toNat := by
    refine Finset.sum_subset hsub fun e _ hnot => entry_past hl ?_ (.inr ?_)
    · rw [Finset.mem_range, Nat.not_lt, entryCount] at hnot
      simp only [freemapLevel1Size, freemapCount, segSize] at *
      omega
    · rwa [Finset.mem_range, Nat.not_lt] at hnot
  have hfilter : (Finset.Ico (dev.totalSize / segSize) (new / segSize)).filter (Gained s dev.totalSize new) =
      (Finset.range (entryCount (resize dev new))).filter (Gained s dev.totalSize new) := by
    ext e
    rw [Finset.mem_filter, Finset.mem_filter, Finset.mem_Ico, Finset.mem_range]
    refine ⟨fun h => ⟨?_, h.2⟩, fun h => ⟨⟨h.2.1, h.2.2.1⟩, h.2⟩⟩
    have hlt := h.1.2
    unfold entryCount
    simp only [freemapLevel1Size, freemapCount, segSize] at *
    omega
  rw [hfilter, Finset.card_filter, Finset.sum_mul, hsame, freeBytes, ← Finset.sum_add_distrib]
  refine Finset.sum_congr rfl fun e _ => ?_
  rw [entry_resize hold hnew harea hle]
  by_cases hg : Gained s dev.totalSize new e
  · rw [if_pos hg, if_pos hg, entry_past hl hg.1 (.inl hg.2.2.2)]
    rfl
  · rw [if_neg hg, if_neg hg, Nat.zero_mul, Nat.add_zero]

/-! ## Valid states -/

theorem Kept.grow (h : Kept dev s) (hold : dev.totalSize % newfsAlign = 0) (hnew : new % newfsAlign = 0)
    (harea : segUp dev.allocatorBeg ≤ dev.totalSize) (hle : dev.totalSize ≤ new) (delta : Nat) :
    Kept (resize dev new) (s.grow delta) where
  entries e hu := by
    have hsmall : ¬ Usable dev e := fun h => hu (usable_mono hle h)
    show Taken (entry (resize dev new) s.toState e)
    rw [entry_resize hold hnew harea hle, if_neg]
    · exact h.entries e hsmall
    · intro hg
      exact hu ((usable_resize hold hnew harea hle e).mpr (.inr ⟨hg.1, hg.2.1, hg.2.2.1⟩))
  pass p hp := by
    obtain ⟨base, hmap⟩ := h.pass p hp
    refine ⟨base, hmap.sbase_eq, .inl ?_, hmap.pairs, fun n hu => hmap.taken n fun h => hu (usable_mono hle h)⟩
    rcases hmap.sstop_eq with hs | hs
    · exact hs
    · rw [hs]
      simp only [segSize, newfsAlign] at *
      omega

theorem Honest.grow (h : Honest dev s) (hold : dev.totalSize % newfsAlign = 0)
    (hnew : new % newfsAlign = 0) (harea : segUp dev.allocatorBeg ≤ dev.totalSize)
    (hle : dev.totalSize ≤ new) (delta : Nat) : Honest (resize dev new) (s.grow delta) where
  counts e := by
    show (entry (resize dev new) s.toState e).Counts
    rw [entry_resize hold hnew harea hle]
    split
    · exact freeBmap_counts
    · exact h.counts e
  leaves := ⟨fun leaf hc => Nat.le_trans (h.leaves.inside leaf hc) hle⟩
  hints := h.hints

end

/-- A mounted volume: the figures agree, and the freemap is as every run leaves it. -/
structure Valid (v : Volume) (s : State) : Prop where
  kept : Kept v.dev s
  honest : Honest v.dev s
  hmp_eq : v.hmpTotalSize = v.voluSize
  total_eq : v.totalSize = v.voluSize
  size_eq : v.size = v.voluSize
  aligned : v.voluSize % newfsAlign = 0
  area : segUp v.allocatorBeg ≤ v.voluSize

/-- The volume of a new filesystem. -/
def Volume.mount (dev : Dev) (allocatorSize : Nat) : Volume :=
  ⟨dev.allocatorBeg, dev.totalSize, dev.totalSize, allocatorSize, dev.totalSize, dev.totalSize⟩

/-- Every run of a new filesystem is at a valid state. -/
theorem run_valid {opt : Account.MkfsOptions} {dev : Dev} {s₀ : Account.State} {s : State} {evs : List Event}
    (hnew : Account.newfs opt = some (dev, s₀)) (hpos : 0 < dev.totalSize)
    (hrun : exec (step dev) (init s₀.allocatorFree) evs = some s) (allocatorSize : Nat) :
    Valid (Volume.mount dev allocatorSize) s where
  kept := run_kept hrun
  honest := run_honest hrun
  hmp_eq := rfl
  total_eq := rfl
  size_eq := rfl
  aligned := by
    obtain ⟨n, d, f, htotal, -⟩ := Account.newfs_spec hnew
    show dev.totalSize % newfsAlign = 0
    rw [htotal]
    exact Nat.mul_mod_left ..
  area := by
    obtain ⟨n, d, f, htotal, hbeg, -, hroom, -⟩ := Account.newfs_spec hnew
    show segUp dev.allocatorBeg ≤ dev.totalSize
    rw [hbeg, htotal]
    rw [htotal] at hpos
    simp only [newfsAlign, zoneSeg, freemapLevel1Size] at *
    omega

section
variable {env : GrowEnv} {size : Nat} {v v' : Volume} {s s' : State} {reply : GrowReply}

theorem Valid.dev_grow (h : Valid v s) {new : Nat} (hle : v.voluSize ≤ new) :
    (v.grow new (new - v.voluSize)).dev = resize v.dev new := by
  unfold Volume.dev Volume.grow resize
  dsimp only
  rw [h.hmp_eq, Nat.add_sub_cancel' hle]

/-- A valid state is grown to a valid one, to be grown again. -/
theorem Valid.growfs (h : Valid v s) (hgrow : growfs env size v s = some (reply, v', s'))
    (hok : reply.error = none) : Valid v' s' := by
  obtain ⟨-, hnew, hle, rfl, rfl⟩ := growfs_ok hgrow hok
  have hdev := h.dev_grow hle
  have hold : v.dev.totalSize % newfsAlign = 0 := by
    rw [Volume.dev, h.hmp_eq]
    exact h.aligned
  have harea : segUp v.dev.allocatorBeg ≤ v.dev.totalSize := by
    rw [Volume.dev, h.hmp_eq]
    exact h.area
  have hle' : v.dev.totalSize ≤ env.grown size := by
    rw [Volume.dev, h.hmp_eq]
    exact hle
  have hsum := Nat.add_sub_cancel' hle
  refine ⟨?_, ?_, ?_, ?_, ?_, hnew, Nat.le_trans h.area hle⟩
  · rw [hdev]
    exact h.kept.grow hold hnew harea hle' _
  · rw [hdev]
    exact h.honest.grow hold hnew harea hle' _
  · show v.hmpTotalSize + _ = env.grown size
    rw [h.hmp_eq, hsum]
  · show v.totalSize + _ = env.grown size
    rw [h.total_eq, hsum]
  · show v.size + _ = env.grown size
    rw [h.size_eq, hsum]

/-! ## What growing promises -/

/-- After growing from `dev` to `dev'`: nothing outside is handed out, what is new can be, and
`allocator_free` keeps its distance from the free space of the leaves, in every later run. -/
structure Consistent (dev : Dev) (s : State) (dev' : Dev) (s' : State) : Prop where
  outside : ∀ evs t, exec (step dev') s' evs = some t → ∀ req fuel u key,
    freemapAlloc dev' req fuel t = some (u, .off key) → Outside dev' key (1 <<< req.radix)
  allocatable : ∀ x, dev.totalSize ≤ x * freemapBlockSize → ¬ ReservedBlock dev' x →
    (entry dev' s'.toState (x / 256)).hi (x % 256) = false ∧
      (entry dev' s'.toState (x / 256)).lo (x % 256) = false
  accounts : ∀ evs t, exec (Account.step dev') s'.toState evs = some t →
    t.allocatorFree + BitVec.ofNat 64 (freeBytes dev s.toState) =
      s.allocatorFree + BitVec.ofNat 64 (freeBytes dev' t)

/-- The volume keeps its size, or grows inside its last zone, which has no leaf yet. -/
def InsideLast (v : Volume) (s : State) (new : Nat) : Prop :=
  new = v.voluSize ∨ v.voluSize % freemapLevel1Size ≠ 0 ∧
    new ≤ (v.voluSize / freemapLevel1Size + 1) * freemapLevel1Size ∧
    s.created (v.voluSize / freemapLevel1Size) = false

/-- Everything between the two ends is gained. -/
theorem gained_iff (h : Valid v s) {new : Nat} (hnew : new % newfsAlign = 0) (hle : v.voluSize ≤ new) :
    (∀ e ∈ Finset.Ico (v.voluSize / segSize) (new / segSize), Gained s v.voluSize new e) ↔
      InsideLast v s new := by
  have hold := h.aligned
  constructor
  · intro hall
    by_cases hsame : new = v.voluSize
    · exact .inl hsame
    · have hfirst := hall (v.voluSize / segSize) (by
        rw [Finset.mem_Ico]
        simp only [segSize, newfsAlign] at *
        omega)
      have hleaf : leafOf (v.voluSize / segSize) = v.voluSize / freemapLevel1Size := Nat.div_div_eq_div_mul ..
      have hmod := hfirst.2.2.1
      refine .inr ⟨?_, ?_, hleaf ▸ hfirst.2.2.2⟩
      · simp only [segSize, newfsAlign, freemapLevel1Size] at *
        omega
      · by_contra hbig
        -- the next zone begins with 4MB that stay reserved
        have hnext := hall ((v.voluSize / freemapLevel1Size + 1) * 256) (by
          rw [Finset.mem_Ico]
          simp only [segSize, newfsAlign, freemapLevel1Size] at *
          omega)
        exact hnext.2.2.1 (Nat.mul_mod_left ..)
  · rintro (rfl | ⟨hmod, hzone, hc⟩) e he
    · rw [Finset.mem_Ico] at he
      omega
    · rw [Finset.mem_Ico] at he
      have hleaf : leafOf e = v.voluSize / freemapLevel1Size := by
        unfold leafOf
        simp only [segSize, newfsAlign, freemapLevel1Size, freemapCount] at *
        omega
      refine ⟨he.1, he.2, ?_, hleaf ▸ hc⟩
      simp only [segSize, newfsAlign, freemapLevel1Size] at *
      omega

/-- **The counters** move by what the allocator gains only if everything is gained. -/
theorem balance_iff (h : Valid v s) {new : Nat} (hnew : new % newfsAlign = 0) (hle : v.voluSize ≤ new)
    (hmax : new < 2 ^ 63) :
    s.allocatorFree + BitVec.ofNat 64 (new - v.voluSize) + BitVec.ofNat 64 (freeBytes v.dev s.toState) =
        s.allocatorFree + BitVec.ofNat 64 (freeBytes (resize v.dev new) s.toState) ↔
      InsideLast v s new := by
  have htotal : v.dev.totalSize = v.voluSize := h.hmp_eq
  have hbytes := @freeBytes_grow v.dev s new h.honest.leaves (htotal ▸ h.aligned) hnew (htotal ▸ h.area)
    (htotal ▸ hle)
  rw [htotal] at hbytes
  rw [hbytes, ← gained_iff h hnew hle, ← Finset.card_filter_eq_iff, Nat.card_Ico]
  have hcard := Finset.card_filter_le (Finset.Ico (v.voluSize / segSize) (new / segSize))
    (Gained s v.voluSize new)
  rw [Nat.card_Ico] at hcard
  generalize ((Finset.Ico (v.voluSize / segSize) (new / segSize)).filter (Gained s v.voluSize new)).card = g
    at hcard ⊢
  have hold := h.aligned
  rw [BitVec.add_assoc, BitVec.add_right_inj, BitVec.ofNat_add, BitVec.add_comm, BitVec.add_right_inj]
  constructor
  · intro heq
    have hnat := congrArg BitVec.toNat heq
    rw [BitVec.toNat_ofNat, BitVec.toNat_ofNat] at hnat
    simp only [segSize, newfsAlign] at *
    omega
  · rintro rfl
    congr 1
    simp only [segSize, newfsAlign] at *
    omega

theorem Valid.moves (h : Valid v s) {t : Account.State} {evs : List Account.Event}
    (hrun : exec (Account.step v.dev) s.toState evs = some t) : Account.Moves v.dev s.toState t := by
  have hinv : (Account.Inv v.dev t ∧ Account.Leaves v.dev t) ∧ Account.Moves v.dev s.toState t := by
    refine @exec_invariant' _ _ (Account.step v.dev)
      (fun u => (Account.Inv v.dev u ∧ Account.Leaves v.dev u) ∧ Account.Moves v.dev s.toState u)
      (fun u a w hu hstep => ?_) _ _ _
      ⟨⟨h.honest.counts, h.honest.leaves⟩, Account.Moves.refl _ _⟩ hrun
    obtain ⟨⟨hcounts, hmoves⟩, hleaves⟩ := Account.step_moves hu.1.1 hu.1.2 hstep
    refine ⟨⟨hcounts, hleaves⟩, ?_⟩
    have hbefore := hu.2
    unfold Account.Moves at *
    linear_combination hbefore + hmoves
  exact hinv.2

/-- What is not reserved is in a usable entry. -/
theorem usable_of_block {dev : Dev} {x : Nat} (hend : dev.totalSize % newfsAlign = 0)
    (hbeg : segUp dev.allocatorBeg ≤ x * freemapBlockSize) (h : ¬ ReservedBlock dev x) :
    Usable dev (x / 256) := by
  unfold ReservedBlock at h
  unfold Usable segUp segDown at *
  simp only [segSize, freemapBlockSize, freemapLevel1Size, zoneSeg, newfsAlign] at *
  omega

/-- **Growing a volume.**  From every valid state, and whatever size is accepted, nothing outside of
the allocatable area is ever handed out; but what is new can be allocated, and the free space of the
volume header stays in step with the leaves through every later allocation, recovery and pass of
bulkfree, if and only if the volume grows inside its last zone and that has no leaf yet. -/
theorem growfs_consistent (hvalid : Valid v s) (hgrow : growfs env size v s = some (reply, v', s'))
    (hok : reply.error = none) :
    Consistent v.dev s v'.dev s' ↔ InsideLast v s (env.grown size) := by
  have hvalid' := hvalid.growfs hgrow hok
  obtain ⟨hmax, hnew, hle, rfl, rfl⟩ := growfs_ok hgrow hok
  have hdev := hvalid.dev_grow hle
  have htotal : v.dev.totalSize = v.voluSize := hvalid.hmp_eq
  constructor
  · intro h
    have hnow := h.accounts [] _ rfl
    rw [hdev] at hnow
    exact (balance_iff hvalid hnew hle hmax).mp hnow
  · intro hin
    refine ⟨fun evs t hrun req fuel u key heq => ?_, fun x hx hfree => ?_, fun evs t hrun => ?_⟩
    · have hkept : Kept _ t := exec_invariant' (fun _ _ _ hs hstep => step_kept hs hstep) hvalid'.kept hrun
      rcases freemapAlloc_kept hkept heq with hp | ⟨-, hout⟩
      · cases hp
      · exact hout key rfl
    · rw [hdev] at hfree ⊢
      have hu : Usable (resize v.dev (env.grown size)) (x / 256) :=
        usable_of_block hnew (Nat.le_trans (Nat.le_trans hvalid.area htotal.ge) hx) hfree
      -- the entry is gained, as every other
      have hmem : x / 256 ∈ Finset.Ico (v.voluSize / segSize) (env.grown size / segSize) := by
        obtain ⟨-, -, h3⟩ := hu
        rw [Finset.mem_Ico]
        rw [htotal] at hx
        unfold segDown at h3
        simp only [segSize, freemapBlockSize] at *
        omega
      have hgained := (gained_iff hvalid hnew hle).mpr hin _ hmem
      have hentry := @entry_resize v.dev s (env.grown size) (htotal ▸ hvalid.aligned) hnew
        (htotal ▸ hvalid.area) (htotal ▸ hle) (x / 256)
      rw [htotal, if_pos hgained] at hentry
      show (entry (resize v.dev (env.grown size)) s.toState (x / 256)).hi _ = false ∧
        (entry (resize v.dev (env.grown size)) s.toState (x / 256)).lo _ = false
      rw [hentry]
      exact ⟨by simp [BmapData.hi, BmapData.elem, freeBmap], by simp [BmapData.lo, BmapData.elem, freeBmap]⟩
    · have hmoves := hvalid'.moves hrun
      have hnow := (balance_iff hvalid hnew hle hmax).mpr hin
      rw [← hdev] at hnow
      have hsame : freeBytes (v.grow (env.grown size) (env.grown size - v.voluSize)).dev
          (s.grow (env.grown size - v.voluSize)).toState =
          freeBytes (v.grow (env.grown size) (env.grown size - v.voluSize)).dev s.toState := rfl
      have hfree : (s.grow (env.grown size - v.voluSize)).allocatorFree =
          s.allocatorFree + BitVec.ofNat 64 (env.grown size - v.voluSize) := rfl
      unfold Account.Moves at hmoves
      rw [hsame, hfree] at hmoves
      linear_combination hmoves + hnow

end

/-- A medium of `n` sectors, and headers that can all be written. -/
def medium (n : Nat) : GrowEnv := ⟨true, false, 1, .ok (n, 512), fun _ => true, fun _ => true⟩

/-- The volume of a new filesystem with boot and aux areas of 8MB. -/
def mounted (totalSize : Nat) : Volume := Volume.mount ⟨20974592, totalSize⟩ totalSize

theorem mounted_valid {totalSize : Nat} {s : Account.State} (hpos : 0 < totalSize)
    (h : Account.newfs ⟨totalSize, 8388608, 8388608, 2⟩ = some (⟨20974592, totalSize⟩, s)) :
    Valid (mounted totalSize) (init s.allocatorFree) := @run_valid _ _ _ _ [] h hpos rfl totalSize

/-- It grows inside its only zone. -/
theorem growfs_consistent_half : ∃ v s v' s' reply, Valid v s ∧
    growfs (medium 2097152) 0 v s = some (reply, v', s') ∧ Consistent v.dev s v'.dev s' := by
  have hvalid := @mounted_valid 536870912 _ (by decide) rfl
  have hgrow : ∀ s, growfs (medium 2097152) 0 (mounted 536870912) s = some _ := fun s => rfl
  exact ⟨_, _, _, _, _, hvalid, hgrow _,
    (growfs_consistent hvalid (hgrow _) rfl).mpr (.inr ⟨by decide, by decide, rfl⟩)⟩

/-- From 1GB to 2GB: the 4MB at the base of the second are counted as free. -/
theorem growfs_reserved_counted : ¬ ∀ env size v s reply v' s', Valid v s →
    growfs env size v s = some (reply, v', s') → reply.error = none → Consistent v.dev s v'.dev s' := by
  intro h
  have hvalid := @mounted_valid 1073741824 _ (by decide) rfl
  have hgrow : ∀ s, growfs (medium 4194304) 0 (mounted 1073741824) s = some _ := fun s => rfl
  have hnow := (h _ _ _ _ _ _ _ hvalid (hgrow _) rfl).accounts [] _ rfl
  have hin := (@balance_iff _ _ hvalid 2147483648 (by decide) (by decide) (by decide)).mp hnow
  rcases hin with hsame | ⟨hmod, -⟩
  · revert hsame
    decide
  · exact hmod rfl

end Hammer2.Alloc
