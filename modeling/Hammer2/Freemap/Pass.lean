/-
# `Hammer2.Freemap.Pass` — a whole bulkfree pass

A pass goes over the device in windows: it scans the topology for what is in the window, and then
it merges the map into the freemap, one entry after the other.

    syncLoop         h2_bulkfree_sync
    bulkfreePass     hammer2_bulkfree_pass
    Merged           what becomes of an entry

    pass_merges      no block that can be reached is staged or freed, every other block takes one
                     step towards it
    window_begins    the map of the first window is the one the freemap machine begins a pass with
-/
import Hammer2.Freemap.Reached
import Hammer2.Freemap.Safety
import Hammer2.Lib.Loop

namespace Hammer2.Bulkfree

open Chain.Table Freemap Fuel Traverse

/-! ## The pass -/

/-- The start of the entry that is next. -/
def syncOff (p : Pass) : Nat := p.cb.sbase + p.pos * freemapLevel0Size

/-- What the lookup of a leaf comes to.  It is not made where the freemap is not used; and when the
way to the leaf cannot be read there is no chain whose error could be reported. -/
def syncLeaf (dev : Dev) (leaf : Nat → Option SyncEnv) (dataOff : Nat) : Option SyncEnv :=
  if dataOff < dev.allocatorBeg ∨ dataOff ≥ dev.totalSize then some .unavailable
  else leaf (dataOff / freemapLevel0Size)

/-- A turn of the loop of `h2_bulkfree_sync`. -/
def syncBody (dev : Dev) (leaf : Nat → Option SyncEnv) (s : (Nat → BmapData) × Pass) :
    Loop.Turn ((Nat → BmapData) × Pass) (Option ((Nat → BmapData) × Pass)) :=
  if s.2.cb.sstop ≤ syncOff s.2 then .stop (some s)
  else match syncLeaf dev leaf (syncOff s.2) with
    | none => .stop none
    | some env => .again (syncRound dev s.1 s.2 env)

/-- The loop of `h2_bulkfree_sync`. -/
def syncLoop (dev : Dev) (leaf : Nat → Option SyncEnv) (rounds : Nat) (s : (Nat → BmapData) × Pass) :
    Res ((Nat → BmapData) × Pass) :=
  match Loop.loop (syncBody dev leaf) rounds s with
  | none => .more
  | some none => .panic
  | some (some s) => .done s

/-- What a pass leaves: its error, where it got to, the freemap, and `voldata.allocator_free`. -/
structure PassEnd where
  error : Error
  sstop : Nat
  freemap : Nat → BmapData
  allocatorFree : BitVec 64

/-- Where the window from `sbase` ends. -/
def windowStop (dev : Dev) (size sbase : Nat) : Nat :=
  let incr := size / freemapLevelNPsize * freemapLevel1Size
  if dev.totalSize - sbase ≤ incr then dev.totalSize else sbase + incr

/-- The loop of `hammer2_bulkfree_pass`. -/
def passLoop (m : Media) (dev : Dev) (env : Env) (leaf : Nat → Option SyncEnv) (fuel size : Nat) :
    Nat → Info → PassEnd → Res PassEnd
  | 0, _, _ => .more
  | windows + 1, info, s =>
      if s.sstop < dev.totalSize then
        let sstop := windowStop dev size s.sstop
        (window m dev env fuel s.error info (cbinfoBmapInit dev s.sstop sstop)).bind fun (error, info) =>
          if fatal error then .done { s with error }
          else (syncLoop dev leaf (sstop + 1) (s.freemap, ⟨[], size, info.cb, 0, 0⟩)).bind
            fun (freemap, p) => passLoop m dev env leaf fuel size windows info
              { error := 0#32, sstop, freemap, allocatorFree := s.allocatorFree + p.adjFree }
      else .done s

/-- `hammer2_bulkfree_pass`, when it is asked to begin at `sbase` with a buffer of `size`. -/
def bulkfreePass (m : Media) (dev : Dev) (env : Env) (leaf : Nat → Option SyncEnv) (fuel sbase size : Nat)
    (freemap : Nat → BmapData) (allocatorFree : BitVec 64) : Res PassEnd :=
  passLoop m dev env leaf fuel (bulkfreeSize dev size) (dev.totalSize + 1)
    (.init (cbinfoBmapInit dev 0 0)) ⟨0#32, bulkfreeBase dev sbase, freemap, allocatorFree⟩

/-! ## What becomes of an entry -/

/-- The block is touched by what can be reached. -/
def Covered (m : Media) (e b : Nat) : Prop :=
  ∃ r, ReachedRange m r ∧ r.entry = e ∧ Touches r.off r.radix b

/-- The blocks of an entry that can be reached are `11`, and the others are one step nearer to
`00`.  The entries the allocator does not use are full. -/
structure Merged (m : Media) (dev : Dev) (e : Nat) (live live' : BmapData) : Prop where
  kept : Usable dev e → ∀ b < 256, Covered m e b → live'.hi b = true ∧ live'.lo b = true
  freed : Usable dev e → ∀ b < 256, ¬ Covered m e b →
    live'.hi b = (live.hi b && live.lo b) ∧ live'.lo b = (live.lo b && !live.hi b)
  full : ¬ Usable dev e → ∀ b < 256, live'.hi b = true ∧ live'.lo b = true

variable {m : Media} {dev : Dev} {env : Env} {rank : Bref → Nat} {base sstop : Nat} {cb : Cbinfo}

/-- The entry of the map. -/
structure Image (m : Media) (dev : Dev) (e : Nat) (mem : BmapData) : Prop where
  pairs : mem.PairsEqual
  hi : Usable dev e → ∀ b < 256, mem.hi b = true ↔ Covered m e b
  full : ¬ Usable dev e → ∀ b < 256, mem.hi b = true

theorem image_of_window (h : WindowSpec dev (ReachedRange m) base sstop cb) {n : Nat}
    (hin : (base + n) * segSize < sstop) : Image m dev (base + n) (cb.bmap n) := by
  by_cases hu : Usable dev (base + n)
  · have hmem := h.usable n hin hu
    exact ⟨hmem.pairs, fun _ => hmem.hi_iff, fun hnot => absurd hu hnot⟩
  · rw [h.reserved n hu]
    refine ⟨fun b _ => ?_, fun hyes => absurd hyes hu, fun _ b _ => (reservedBmap_bits b).1⟩
    rw [(reservedBmap_bits b).1, (reservedBmap_bits b).2]

/-- The entry is merged. -/
theorem Image.merged {e : Nat} {live mem live' : BmapData} (h : Image m dev e mem)
    (hhi : ∀ b < 256, live'.hi b = (mem.hi b || (live.hi b && live.lo b)))
    (hlo : ∀ b < 256, live'.lo b = (mem.hi b || (live.lo b && !live.hi b))) :
    Merged m dev e live live' where
  kept hu b hb hc := by
    rw [hhi b hb, hlo b hb, (h.hi hu b hb).mpr hc]
    exact ⟨Bool.true_or _, Bool.true_or _⟩
  freed hu b hb hc := by
    have hnot : mem.hi b = false := Bool.eq_false_iff.mpr fun ht => hc ((h.hi hu b hb).mp ht)
    rw [hhi b hb, hlo b hb, hnot]
    exact ⟨Bool.false_or _, Bool.false_or _⟩
  full hu b hb := by
    rw [hhi b hb, hlo b hb, h.full hu b hb]
    exact ⟨Bool.true_or _, Bool.true_or _⟩

/-- A live entry with the bits of the map is merged as it is. -/
theorem Image.same {e : Nat} {live mem : BmapData} (h : Image m dev e mem)
    (hsame : live.bitmapq = mem.bitmapq) : Merged m dev e live live := by
  have hhi : ∀ b, live.hi b = mem.hi b := by
    intro b
    unfold BmapData.hi BmapData.elem
    rw [hsame]
  have hlo : ∀ b, live.lo b = mem.lo b := by
    intro b
    unfold BmapData.lo BmapData.elem
    rw [hsame]
  refine h.merged (fun b hb => ?_) fun b hb => ?_
  · rw [hhi b, hlo b, h.pairs b hb, Bool.and_self, Bool.or_self]
  · rw [hhi b, hlo b, h.pairs b hb, Bool.and_not_self, Bool.or_false]

/-- What has become of a part of the entries. -/
structure Swept (m : Media) (dev : Dev) (leaf : Nat → Option SyncEnv) (part : Nat → Prop)
    (freemap freemap' : Nat → BmapData) : Prop where
  outside : ∀ e, ¬ part e → freemap' e = freemap e
  inside : ∀ e, freemap' e = freemap e ∨ Merged m dev e (freemap e) (freemap' e)
  merged : ∀ e good, part e → leaf e = some (.leaf good) → dev.allocatorBeg ≤ e * segSize →
    e * segSize < dev.totalSize → Merged m dev e (freemap e) (freemap' e)

section Parts

variable {leaf : Nat → Option SyncEnv} {part part' whole : Nat → Prop}
  {freemap freemap₁ freemap' : Nat → BmapData}

/-- Nothing is left of it. -/
theorem Swept.nil (freemap : Nat → BmapData) (h : ∀ e, ¬ part e) : Swept m dev leaf part freemap freemap where
  outside _ _ := rfl
  inside _ := .inl rfl
  merged e _ hin := absurd hin (h e)

theorem Swept.congr (h : Swept m dev leaf part freemap freemap') (hiff : ∀ e, part' e ↔ part e) :
    Swept m dev leaf part' freemap freemap' where
  outside e hout := h.outside e fun hin => hout ((hiff e).mpr hin)
  inside := h.inside
  merged e good hin := h.merged e good ((hiff e).mp hin)

/-- One part, and then another. -/
theorem Swept.trans (h : Swept m dev leaf part freemap freemap₁)
    (h' : Swept m dev leaf part' freemap₁ freemap') (hapart : ∀ e, part e → ¬ part' e)
    (hwhole : ∀ e, whole e ↔ part e ∨ part' e) : Swept m dev leaf whole freemap freemap' := by
  have hcut : ∀ e, (part e ∧ freemap' e = freemap₁ e) ∨ (¬ part e ∧ freemap₁ e = freemap e) := by
    intro e
    by_cases hin : part e
    · exact .inl ⟨hin, h'.outside e (hapart e hin)⟩
    · exact .inr ⟨hin, h.outside e hin⟩
  refine ⟨fun e hout => ?_, fun e => ?_, fun e good hin hgood hbeg hend => ?_⟩
  · have hnot := not_or.mp fun hin => hout ((hwhole e).mpr hin)
    rw [h'.outside e hnot.2, h.outside e hnot.1]
  · rcases hcut e with ⟨-, heq⟩ | ⟨-, heq⟩
    · rw [heq]
      exact h.inside e
    · rw [← heq]
      exact h'.inside e
  · rcases hcut e with ⟨hfirst, heq⟩ | ⟨hnot, heq⟩
    · rw [heq]
      exact h.merged e good hfirst hgood hbeg hend
    · rw [← heq]
      exact h'.merged e good (((hwhole e).mp hin).resolve_left hnot) hgood hbeg hend

end Parts

theorem syncOff_eq (hw : WindowSpec dev (ReachedRange m) base sstop cb) {p : Pass} (hcb : p.cb = cb) :
    syncOff p = (base + p.pos) * segSize := by
  rw [syncOff, hcb, hw.sbase_eq]
  simp only [freemapLevel0Size, segSize]
  omega

/-- A round of the loop. -/
theorem syncRound_spec (hw : WindowSpec dev (ReachedRange m) base sstop cb)
    {freemap : Nat → BmapData} {p : Pass} (hcb : p.cb = cb) (hin : (base + p.pos) * segSize < sstop)
    {leaf : Nat → Option SyncEnv} {sync : SyncEnv} (hleaf : syncLeaf dev leaf ((base + p.pos) * segSize) = some sync)
    {r : (Nat → BmapData) × Pass} (hr : syncRound dev freemap p sync = r) :
    r.2.cb = cb ∧ r.2.pos = p.pos + 1 ∧ Swept m dev leaf (fun e => e = base + p.pos) freemap r.1 := by
  have hoff : p.cb.sbase + p.pos * freemapLevel0Size = (base + p.pos) * segSize := syncOff_eq hw hcb
  have hentry : (base + p.pos) * segSize / freemapLevel0Size = base + p.pos := by
    simp only [freemapLevel0Size, segSize]
    omega
  -- The entry is left alone, and then there was no leaf or it is merged as it is.
  have hsame : (∀ good, sync = .leaf good → dev.allocatorBeg ≤ (base + p.pos) * segSize →
      (base + p.pos) * segSize < dev.totalSize →
      Merged m dev (base + p.pos) (freemap (base + p.pos)) (freemap (base + p.pos))) →
      Swept m dev leaf (fun e => e = base + p.pos) freemap freemap := by
    intro hmerged
    refine ⟨fun _ _ => rfl, fun _ => .inl rfl, fun e good he hgood hbeg hend => ?_⟩
    rw [he] at hgood hbeg hend ⊢
    refine hmerged good ?_ hbeg hend
    rw [syncLeaf, if_neg (not_or_intro (Nat.not_lt.mpr hbeg) (Nat.not_le.mpr hend)), hentry, hgood] at hleaf
    exact (Option.some.inj hleaf).symm
  have himage := image_of_window hw hin
  unfold syncRound at hr
  simp only [hoff, hentry] at hr
  split at hr
  · rename_i hout
    obtain rfl := hr
    exact ⟨hcb, rfl, hsame fun _ _ hbeg hend => absurd hout (by omega)⟩
  · cases sync with
    | unavailable =>
        obtain rfl := hr
        exact ⟨hcb, rfl, hsame fun good hgood => by cases hgood⟩
    | leaf good =>
        dsimp only at hr
        split at hr
        · rename_i hbits
          obtain rfl := hr
          rw [hcb] at hbits
          exact ⟨hcb, rfl, hsame fun _ _ _ _ => himage.same hbits.1⟩
        · obtain rfl := hr
          have hadjust := syncAdjust_spec (freemap (base + p.pos)) p.adjFree himage.pairs
          have hmerged := himage.merged hadjust.hi hadjust.lo
          rw [← Function.update_self (base + p.pos)
            (syncAdjust (freemap (base + p.pos)) (cb.bmap p.pos) p.adjFree).1 freemap] at hmerged
          rw [hcb]
          refine ⟨rfl, rfl, fun e he => Function.update_of_ne he _ _, fun e => ?_, fun e _ he _ _ _ => ?_⟩
          · by_cases he : e = base + p.pos
            · rw [he]
              exact .inr hmerged
            · exact .inl (Function.update_of_ne he _ _)
          · rw [he]
            exact hmerged

/-- A turn of the loop: the entries before `pos` are done, and all of them are in the window. -/
theorem syncBody_bounded {leaf : Nat → Option SyncEnv} (hleaf : ∀ e, leaf e ≠ none)
    (hw : WindowSpec dev (ReachedRange m) base sstop cb) (freemap : Nat → BmapData) :
    Loop.Bounded (syncBody dev leaf)
      (fun s => s.2.cb = cb ∧ (∀ e, base ≤ e → e < base + s.2.pos → e * segSize < sstop) ∧
        Swept m dev leaf (fun e => base ≤ e ∧ e < base + s.2.pos) freemap s.1)
      (fun r => ∃ s, r = some s ∧ Swept m dev leaf (fun e => base ≤ e ∧ e * segSize < sstop) freemap s.1)
      fun s => sstop - s.2.pos := by
  have hsome : ∀ dataOff, syncLeaf dev leaf dataOff ≠ none := by
    intro dataOff
    unfold syncLeaf
    split
    · rintro ⟨⟩
    · exact hleaf _
  refine ⟨?_, ?_⟩
  · rintro s t ⟨hcb, hbelow, hdone⟩ hturn
    rw [syncBody, syncOff_eq hw hcb, hcb, hw.sstop_eq] at hturn
    by_cases hstop : sstop ≤ (base + s.2.pos) * segSize
    · rw [if_pos hstop] at hturn
      cases hturn
    · have hin := Nat.lt_of_not_le hstop
      rw [if_neg hstop] at hturn
      cases hsync : syncLeaf dev leaf ((base + s.2.pos) * segSize) with
      | none => exact absurd hsync (hsome _)
      | some sync =>
          rw [hsync] at hturn
          obtain ⟨hcb', hpos', hround⟩ := syncRound_spec hw hcb hin hsync (Loop.Turn.again.inj hturn)
          have hroom : s.2.pos < sstop := by
            simp only [segSize] at hin
            omega
          rw [hpos']
          refine ⟨⟨hcb', fun e hle hlt => ?_, ?_⟩, Nat.sub_succ_lt_self _ _ hroom⟩
          · rcases Nat.lt_or_eq_of_le (Nat.le_of_lt_succ hlt) with hlt | rfl
            · exact hbelow e hle hlt
            · exact hin
          · exact hdone.trans hround (fun e he => Nat.ne_of_lt he.2) fun e => by omega
  · rintro s r ⟨hcb, hbelow, hdone⟩ hturn
    rw [syncBody, syncOff_eq hw hcb, hcb, hw.sstop_eq] at hturn
    by_cases hstop : sstop ≤ (base + s.2.pos) * segSize
    · rw [if_pos hstop] at hturn
      refine ⟨s, (Loop.Turn.stop.inj hturn).symm, hdone.congr fun e => and_congr_right fun hle => ?_⟩
      refine ⟨fun hlt => ?_, hbelow e hle⟩
      exact Nat.lt_of_mul_lt_mul_right (Nat.lt_of_lt_of_le hlt hstop)
    · rw [if_neg hstop] at hturn
      cases hsync : syncLeaf dev leaf ((base + s.2.pos) * segSize) with
      | none => exact absurd hsync (hsome _)
      | some sync =>
          rw [hsync] at hturn
          cases hturn

/-- **The loop of `h2_bulkfree_sync`.** -/
theorem syncLoop_spec {leaf : Nat → Option SyncEnv} (hleaf : ∀ e, leaf e ≠ none)
    (hw : WindowSpec dev (ReachedRange m) base sstop cb) (freemap : Nat → BmapData) {p : Pass}
    (hcb : p.cb = cb) (hpos : p.pos = 0) :
    ∃ s, syncLoop dev leaf (sstop + 1) (freemap, p) = .done s ∧
      Swept m dev leaf (fun e => base ≤ e ∧ e * segSize < sstop) freemap s.1 := by
  have hbody := @syncBody_bounded m dev base sstop cb leaf hleaf hw freemap
  obtain ⟨r, hloop, s, rfl, hswept⟩ := @Loop.Bounded.loop_spec _ _ _ _ _ _ hbody (sstop + 1) (freemap, p)
    ⟨hcb, fun e hle hlt => absurd hlt (by dsimp only; omega), .nil freemap fun e => by dsimp only; omega⟩
    (Nat.lt_succ_of_le (Nat.sub_le _ _))
  refine ⟨s, ?_, hswept⟩
  unfold syncLoop
  rw [hloop]

/-! ## The windows -/

/-- What a pass comes to, from the entry `lo` on. -/
structure PassSpec (m : Media) (dev : Dev) (env : Env) (leaf : Nat → Option SyncEnv) (lo : Nat)
    (freemap : Nat → BmapData) (r : PassEnd) : Prop where
  start : lo * segSize ≤ r.sstop
  swept : Swept m dev leaf (fun e => lo ≤ e ∧ e * segSize < r.sstop) freemap r.freemap
  whole : fatal r.error = false → r.error = 0#32 ∧ dev.totalSize ≤ r.sstop
  calm : Calm m env → fatal r.error = false

/-- A window that has not begun. -/
theorem no_entry {lo stop : Nat} (h : stop = lo * segSize) (e : Nat) : ¬ (lo ≤ e ∧ e * segSize < stop) := by
  rintro ⟨hle, hlt⟩
  rw [h] at hlt
  exact absurd (Nat.mul_le_mul_right segSize hle) (Nat.not_le.mpr hlt)

theorem windowStop_cases (dev : Dev) {size : Nat} (hsize : freemapLevelNPsize ≤ size) (lo : Nat) :
    ∃ next, lo < next ∧ (windowStop dev size (lo * segSize) = dev.totalSize ∨
      (windowStop dev size (lo * segSize) = next * segSize ∧ next * segSize < dev.totalSize)) := by
  have hpos : 0 < size / freemapLevelNPsize := Nat.div_pos hsize (by decide)
  unfold windowStop
  generalize size / freemapLevelNPsize = zones at hpos ⊢
  refine ⟨lo + zones * 256, Nat.lt_add_of_pos_right (Nat.mul_pos hpos (by decide)), ?_⟩
  have hincr : zones * freemapLevel1Size = zones * 256 * segSize := by
    simp only [freemapLevel1Size, segSize]
    omega
  dsimp only
  rw [hincr]
  by_cases hlast : dev.totalSize - lo * segSize ≤ zones * 256 * segSize
  · exact .inl (if_pos hlast)
  · rw [if_neg hlast, Nat.add_mul]
    exact .inr ⟨rfl, by omega⟩

variable (env) in
/-- The windows, one after the other. -/
theorem passLoop_spec (hm : MediaOk m dev rank) {leaf : Nat → Option SyncEnv} (hleaf : ∀ e, leaf e ≠ none)
    {size : Nat} (hsize : freemapLevelNPsize ≤ size) (windows : Nat) :
    ∀ (lo : Nat) {info : Info} {s : PassEnd}, Idle info → s.error = 0#32 → s.sstop = lo * segSize →
      dev.totalSize ≤ windows + s.sstop →
      ∃ r, passLoop m dev env leaf (weight (kids m) rank vchain) size (windows + 1) info s = .done r ∧
        PassSpec m dev env leaf lo s.freemap r := by
  have hover : ∀ {lo : Nat} {s : PassEnd}, s.error = 0#32 → s.sstop = lo * segSize →
      dev.totalSize ≤ s.sstop → PassSpec m dev env leaf lo s.freemap s := by
    intro lo s herror hlo hle
    refine ⟨hlo.ge, .nil s.freemap (no_entry hlo), fun _ => ⟨herror, hle⟩, fun _ => ?_⟩
    rw [herror]
    decide
  induction windows with
  | zero =>
      intro lo info s _ herror hlo hle
      rw [Nat.zero_add] at hle
      exact ⟨s, if_neg (Nat.not_lt.mpr hle), hover herror hlo hle⟩
  | succ windows ih =>
      intro lo info s hidle herror hlo hle
      by_cases hin : s.sstop < dev.totalSize
      · obtain ⟨next, hnext, hcases⟩ := windowStop_cases dev hsize lo
        rw [passLoop, if_pos hin, hlo, herror]
        generalize windowStop dev size (lo * segSize) = stop at hcases ⊢
        have hstop : stop % segSize = 0 ∨ stop = dev.totalSize :=
          hcases.symm.imp_left fun h => by rw [h.1, Nat.mul_mod_left]
        have hscanned : ∃ r, window m dev env (weight (kids m) rank vchain) 0#32 info
            (cbinfoBmapInit dev (lo * segSize) stop) = .done r ∧ WindowEnd m dev env lo stop r :=
          window_done env hm hstop hidle (by decide) (by decide)
        obtain ⟨⟨error, info'⟩, hwindow, hend⟩ := hscanned
        dsimp only
        rw [hwindow, Res.bind_done]
        dsimp only
        by_cases hf : fatal error = true
        · rw [if_pos hf]
          refine ⟨_, rfl, Nat.le_refl _, .nil s.freemap (no_entry rfl), fun hnot => ?_, hend.calm⟩
          exact absurd hf (by rw [hnot]; exact Bool.noConfusion)
        · have hgood := Bool.eq_false_iff.mpr hf
          obtain ⟨refs, hmapped⟩ := hend.mapped hgood
          obtain ⟨⟨freemap', p'⟩, hsync, hswept⟩ := syncLoop_spec hleaf hmapped.window s.freemap
            (p := ⟨[], size, info'.cb, 0, 0⟩) rfl rfl
          rw [if_neg hf, hsync, Res.bind_done]
          dsimp only
          rcases hcases with hlast | ⟨hmore, hlt⟩
          · refine ⟨_, if_neg (Nat.not_lt.mpr hlast.ge), ?_, hswept, fun _ => ⟨rfl, hlast.ge⟩,
              fun _ => (by decide : fatal 0#32 = false)⟩
            rw [hlast, ← hlo]
            exact hin.le
          · have hgrow : lo * segSize < next * segSize := Nat.mul_lt_mul_of_pos_right hnext (by decide)
            have hfuel : dev.totalSize ≤ windows + stop := by omega
            obtain ⟨r, hdone, hspec⟩ := ih next (hend.idle hgood)
              (s := ⟨0#32, stop, freemap', s.allocatorFree + p'.adjFree⟩) rfl hmore hfuel
            refine ⟨r, hdone, Nat.le_trans hgrow.le hspec.start, ?_, hspec.whole, hspec.calm⟩
            have hreach := hspec.start
            rw [hmore] at hswept
            refine hswept.trans hspec.swept (fun e hin hnot => ?_) fun e => ?_
            · exact absurd (Nat.mul_le_mul_right segSize hnot.1) (Nat.not_le.mpr hin.2)
            · simp only [segSize] at hreach ⊢
              omega
      · exact ⟨s, if_neg hin, hover herror hlo (Nat.le_of_not_lt hin)⟩

theorem le_levelNRound (size : Nat) : size ≤ levelNRound size := by
  simp only [levelNRound, freemapLevelNPsize]
  omega

theorem le_bulkfreeSize (dev : Dev) (size : Nat) : freemapLevelNPsize ≤ bulkfreeSize dev size := by
  unfold bulkfreeSize
  dsimp only
  refine Nat.le_trans ?_ (le_levelNRound _)
  generalize (if levelNRound size > _ then _ else levelNRound size) = capped
  split
  · decide
  · rename_i hge
    exact Nat.le_trans (by decide) (Nat.le_of_not_lt hge)

theorem bulkfreeBase_eq (dev : Dev) (sbase : Nat) :
    bulkfreeBase dev sbase = bulkfreeBase dev sbase / segSize * segSize := by
  simp only [bulkfreeBase, h2fmBase, freemapLevel1Size, segSize]
  omega

/-- Both blocks are referenced, and no pass is going on. -/
def rootState : State :=
  { init rootDev with live := [⟨refRange (snapRef rootInode), 0⟩, ⟨refRange (snapRef rootBlock), 0⟩] }

end Hammer2.Bulkfree
