/-
# `Hammer2.Freemap.Reached` — the scan meets whatever can be reached

    Reached        a blockref with data below the volume, where every chain on the way is read
    MediaOk        what the scan relies on: tables are in order, blockrefs of one `data_off` lead to
                   the same blocks, and none leads back to itself
    Going          what holds while a chain is scanned
    Ran            what a scan of a chain has done

Whatever the limits are, whatever the table forgets and wherever the list is taken up again, a
blockref that was met is opened, or a chain of the same `data_off` is still on the list
(`Traverse.Closed`).
-/
import Hammer2.Freemap.Scan

namespace Hammer2.Bulkfree

open Chain.Table Chain.Merged Fuel Traverse

/-! ## Errors -/

theorem fatal_or (a b : Error) : fatal (a ||| b) = (fatal a || fatal b) := by
  unfold fatal
  rw [← Bool.decide_or, decide_eq_decide, BitVec.and_or_distrib_right, ne_eq, BitVec.or_eq_zero_iff,
    not_and_or]

theorem noEof_or (a b : Error) : noEof (a ||| b) = noEof a ||| noEof b := BitVec.and_or_distrib_right

theorem noEof_noEof (a : Error) : noEof (noEof a) = noEof a := by
  unfold noEof
  rw [BitVec.and_assoc, BitVec.and_self]

theorem noEof_or_self {a b : Error} (ha : noEof a = a) (hb : noEof b = b) : noEof (a ||| b) = a ||| b := by
  rw [noEof_or, ha, hb]

/-! ## The table -/

theorem bucketFind_spec (dedup : Nat → Dedup) (base : Nat) (dataOff : UInt64) :
    ∀ (is : List Nat) (best : Nat), (bucketFind dedup base dataOff best is).1 = true →
      (dedup (base + (bucketFind dedup base dataOff best is).2)).dataOff = dataOff
  | [], _, h => by cases h
  | i :: is, best, h => by
      rw [bucketFind] at h ⊢
      split
      · assumption
      · rename_i hne
        rw [if_neg hne] at h
        exact bucketFind_spec dedup base dataOff is _ h

/-- What the table answers, and what becomes of it. -/
theorem bulkfreeTest_spec (info : Info) (bref : Bref) (pri : Nat) (savedError : Error) :
    ∃ dedup, (bulkfreeTest info bref pri savedError).2 = { info with dedup } ∧
      ((∃ i, (info.dedup i).dataOff = bref.dataOff ∧
          (bulkfreeTest info bref pri savedError).1 = (info.dedup i).savedError ||| errorEof ∧
          ∀ j, (dedup j).dataOff = (info.dedup j).dataOff ∧
            (dedup j).savedError = (info.dedup j).savedError) ∨
        ((bulkfreeTest info bref pri savedError).1 = 0#32 ∧
          ∀ j, dedup j = info.dedup j ∨
            ((dedup j).dataOff = bref.dataOff ∧ (dedup j).savedError = savedError))) := by
  have hfound := bucketFind_spec info.dedup (bucket bref.dataOff) bref.dataOff (List.range 8) 0
  unfold bulkfreeTest
  dsimp only
  generalize bucketFind info.dedup (bucket bref.dataOff) bref.dataOff 0 (List.range 8) = found at hfound ⊢
  split
  · rename_i hhit
    refine ⟨_, rfl, .inl ⟨_, hfound hhit, rfl, fun j => ?_⟩⟩
    by_cases hj : j = bucket bref.dataOff + found.2
    · rw [hj, Function.update_self]
      split
      · exact ⟨rfl, rfl⟩
      · exact ⟨rfl, rfl⟩
    · rw [Function.update_of_ne hj]
      exact ⟨rfl, rfl⟩
  · refine ⟨_, rfl, .inr ⟨rfl, fun j => ?_⟩⟩
    by_cases hj : j = bucket bref.dataOff + found.2
    · rw [hj, Function.update_self]
      exact .inr ⟨rfl, rfl⟩
    · exact .inl (Function.update_of_ne hj _ _)

/-! ## The blockrefs of a chain -/

/-- An inode that holds its data itself has none. -/
def Embeds (m : Media) (p : Bref) : Prop := p.type = .inode ∧ m.direct p = true

instance (m : Media) (p : Bref) : Decidable (Embeds m p) := inferInstanceAs (Decidable (_ ∧ _))

/-- The blockrefs of a chain, in order. -/
def Views (m : Media) (p : Bref) (n : Node) (view : List Bref) : Prop :=
  if Embeds m p then view = [] else Wf n view

/-- A chain that is read is searched from a key on. -/
theorem chainScan_read {m : Media} {p : Bref} (n : Node) {prev : Option Bref} (hload : m.load p = .ok)
    (htype : recurses p.type = true) (hkey : prev.isSome = true → scanKey prev ≠ 0) :
    chainScan m p n prev = if Embeds m p then some (n, errorEof, none)
      else (combinedFind n (scanKey prev) keyMax).map fun (n, _, bref, _) =>
        (n, if bref.isNone then errorEof else 0#32, bref) := by
  unfold chainScan
  rw [if_neg (fun h => hkey h.1 h.2), if_neg (not_not_intro hload), htype, if_neg Bool.noConfusion]
  rfl

/-- A search that begins at the first of `B`. -/
theorem search_first {n : Node} {A B : List Bref} (h : Wf n (A ++ B)) (key : UInt64)
    (hA : ∀ a ∈ A, a.hi < key.toNat) (hB : ∀ b ∈ B, key.toNat ≤ b.lo) :
    ∃ n', Wf n' (A ++ B) ∧ ((combinedFind n key keyMax).map fun (n, _, bref, _) =>
      (n, if bref.isNone then errorEof else 0#32, bref)) =
        some (n', if B = [] then errorEof else 0#32, B.head?) := by
  obtain ⟨c, chain, bref, kn, hfind, hfound⟩ := combinedFind_spec h key keyMax
  refine ⟨n.cache c, h.cache c, ?_⟩
  rw [hfind]
  rcases hfound.step h rfl hA hB with ⟨rfl, rfl⟩ | ⟨e, B', rfl, rfl⟩
  · rfl
  · rfl

/-- The loop is at the first of `B`. -/
theorem chainScan_spec {m : Media} {p : Bref} {n : Node} {A B : List Bref} (hload : m.load p = .ok)
    (htype : recurses p.type = true) (h : Views m p n (A ++ B)) :
    ∃ n', Views m p n' (A ++ B) ∧ chainScan m p n A.getLast? =
      some (n', if B = [] then errorEof else 0#32, B.head?) := by
  by_cases hemb : Embeds m p
  · have hnil := h
    rw [Views, if_pos hemb] at hnil
    obtain ⟨rfl, rfl⟩ := List.append_eq_nil_iff.mp hnil
    refine ⟨n, h, ?_⟩
    rw [chainScan_read n hload htype (by rintro ⟨⟩), if_pos hemb]
    rfl
  · simp only [Views, if_neg hemb] at h ⊢
    rcases List.eq_nil_or_concat A with rfl | ⟨A', a, rfl⟩
    · obtain ⟨n', hwf, heq⟩ := search_first h 0 (fun a ha => absurd ha List.not_mem_nil)
        fun b _ => Nat.zero_le _
      refine ⟨n', hwf, ?_⟩
      rw [chainScan_read n hload htype (by rintro ⟨⟩), if_neg hemb]
      exact heq
    · rw [List.concat_eq_append] at h ⊢
      rw [List.getLast?_concat]
      obtain ⟨hlast, hrest⟩ := h.behind (List.append_assoc A' [a] B)
      by_cases hz : a.key + a.range = 0
      · obtain rfl := hlast hz
        exact ⟨n, h, if_pos ⟨rfl, hz⟩⟩
      · obtain ⟨hA, hB⟩ := hrest hz
        obtain ⟨n', hwf, heq⟩ := search_first h _ hA hB
        refine ⟨n', hwf, ?_⟩
        have hnext : (some a).isSome = true → scanKey (some a) ≠ 0 := fun _ => hz
        rw [chainScan_read n hload htype hnext, if_neg hemb]
        exact heq

/-! ## What can be reached -/

/-- The blockrefs of a chain that have data. -/
def kids (m : Media) (p : Bref) : List Bref :=
  if Embeds m p then [] else (m.node p).live.filter fun b => hasData b.dataOff

/-- A chain that is gone down. -/
def Opens (m : Media) (p : Bref) : Prop := recurses p.type = true ∧ m.load p = .ok

/-- A blockref below the volume, where every chain on the way is read. -/
abbrev Reached (m : Media) : Bref → Prop := Below (kids m) (Opens m) (kids m vchain)

/-- What the scan relies on. -/
structure MediaOk (m : Media) (dev : Dev) (rank : Bref → Nat) : Prop where
  snapshot : m.load vchain = .ok
  tables : ∀ p, p = vchain ∨ Reached m p → Opens m p → ¬ Embeds m p → ∃ view, Wf (m.node p) view
  agree : Agree (kids m) (Opens m) Bref.dataOff (Reached m)
  ranked : ∀ p, p = vchain ∨ Reached m p → Opens m p → ∀ c ∈ kids m p, rank c < rank p
  pfs : ∀ p, p = vchain ∨ Reached m p → m.pfsRoot p = true → m.load p ≠ .eio
  refs : ∀ b, Reached m b → RefOk dev (snapRef b)

/-- No signal, and no chain that cannot be read for another reason than its check. -/
def Calm (m : Media) (env : Env) : Prop :=
  (∀ n, env.signal n = false) ∧ ∀ b, Reached m b → m.load b ≠ .eio

section Topology

variable {m : Media} {dev : Dev} {rank : Bref → Nat}

theorem Views.kids {p : Bref} {view : List Bref} (h : Views m p (m.node p) view) :
    (view.filter fun b => hasData b.dataOff).Perm (kids m p) := by
  unfold Views at h
  unfold Bulkfree.kids
  by_cases hemb : Embeds m p
  · rw [if_pos hemb] at h ⊢
    rw [h]
    exact .nil
  · rw [if_neg hemb] at h ⊢
    exact h.perm.filter _

theorem Views.length_lt {p : Bref} {view : List Bref} (h : Views m p (m.node p) view) :
    view.length < (m.node p).live.length + 1 := by
  unfold Views at h
  by_cases hemb : Embeds m p
  · rw [if_pos hemb] at h
    rw [h]
    exact Nat.succ_pos _
  · rw [if_neg hemb] at h
    exact Nat.lt_succ_of_le h.perm.length_eq.le

theorem MediaOk.views (hm : MediaOk m dev rank) {p : Bref} (hp : p = vchain ∨ Reached m p)
    (ho : Opens m p) : ∃ view, Views m p (m.node p) view := by
  unfold Views
  by_cases hemb : Embeds m p
  · exact ⟨[], by rw [if_pos hemb]⟩
  · obtain ⟨view, hview⟩ := hm.tables p hp ho hemb
    exact ⟨view, by rwa [if_neg hemb]⟩

theorem hasData_of_kids {p c : Bref} (h : c ∈ kids m p) : hasData c.dataOff = true := by
  unfold kids at h
  split at h
  · exact absurd h List.not_mem_nil
  · exact (List.mem_filter.mp h).2

theorem Reached.hasData {b : Bref} (h : Reached m b) : hasData b.dataOff = true := by
  cases h with
  | top hc => exact hasData_of_kids hc
  | down _ _ hc => exact hasData_of_kids hc

theorem opens_vchain (hm : MediaOk m dev rank) : Opens m vchain := ⟨rfl, hm.snapshot⟩

theorem Reached.kid {p c : Bref} (hp : p = vchain ∨ Reached m p) (ho : Opens m p) (hc : c ∈ kids m p) :
    Reached m c := by
  rcases hp with rfl | hp
  · exact .top hc
  · exact .down hp ho hc

/-- The volume has a `data_off` of its own. -/
theorem MediaOk.agree_all (hm : MediaOk m dev rank) :
    Agree (kids m) (Opens m) Bref.dataOff fun p => p = vchain ∨ Reached m p := by
  intro a b ha hb hkey ho
  have hne : ∀ c, Reached m c → c.dataOff ≠ vchain.dataOff := by
    intro c hc heq
    have hdata := hc.hasData
    rw [heq] at hdata
    cases hdata
  rcases ha with rfl | ha
  · rcases hb with rfl | hb
    · exact ⟨ho, fun _ => Iff.rfl⟩
    · exact absurd hkey.symm (hne b hb)
  · rcases hb with rfl | hb
    · exact absurd hkey (hne a ha)
    · exact hm.agree a b ha hb hkey ho

end Topology

/-! ## The list -/

/-- What was saved since the list was `list`, when the next element was to be at `saves`. -/
structure Queue (w : Bref → Nat) (list : List Save) (saves room : Nat) (info : Info)
    (new : List Save) : Prop where
  list : info.list = new ++ list
  fresh : ∀ s ∈ new, saves ≤ s.addr
  room : (new.map fun s => w s.chain).sum ≤ room
  backout : ∀ addr, info.backout = some addr → ∃ s ∈ new, s.addr = addr

/-- The chains of the list. -/
def Info.chains (info : Info) : List Bref := info.list.map Save.chain

theorem insertAfter_spec (save : Save) {addr : Nat} (list : List Save) : ∀ {new : List Save},
    (∃ s ∈ new, s.addr = addr) →
      ∃ new', insertAfter save addr (new ++ list) = some (new' ++ list) ∧ new'.Perm (save :: new)
  | [], ⟨s, hs, _⟩ => absurd hs List.not_mem_nil
  | x :: new, ⟨s, hs, haddr⟩ => by
      rw [List.cons_append, insertAfter]
      by_cases hx : x.addr = addr
      · exact ⟨x :: save :: new, if_pos hx, .swap save x new⟩
      · have hrest : ∃ s ∈ new, s.addr = addr := by
          rcases List.mem_cons.mp hs with rfl | hs
          · exact absurd haddr hx
          · exact ⟨s, hs, haddr⟩
        obtain ⟨new', heq, hperm⟩ := insertAfter_spec save list hrest
        refine ⟨x :: new', ?_, (hperm.cons x).trans (.swap save x new)⟩
        rw [if_neg hx, heq]
        rfl

section Saving

variable {w : Bref → Nat} {list : List Save} {saves room : Nat} {info : Info} {new : List Save}

theorem Queue.mono {room' : Nat} (h : Queue w list saves room info new) (hle : room ≤ room') :
    Queue w list saves room' info new :=
  ⟨h.list, h.fresh, Nat.le_trans h.room hle, h.backout⟩

/-- Only the list matters, and where the next element goes. -/
theorem Queue.congr {info' : Info} (h : Queue w list saves room info new)
    (hlist : info'.list = info.list) (hback : info'.backout = info.backout) :
    Queue w list saves room info' new :=
  ⟨hlist.trans h.list, h.fresh, h.room, fun addr ha => h.backout addr (hback ▸ ha)⟩

theorem Queue.nil (hback : info.backout = none) : Queue w info.list saves room info [] :=
  ⟨rfl, fun _ hs => absurd hs List.not_mem_nil, Nat.zero_le _, fun _ ha => by rw [hback] at ha; cases ha⟩

/-- What is saved later comes first. -/
theorem Queue.trans {info' : Info} {new' : List Save} {saves' room' : Nat}
    (h : Queue w list saves room info new) (h' : Queue w info.list saves' room' info' new')
    (hle : saves ≤ saves') : Queue w list saves (room + room') info' (new' ++ new) where
  list := by rw [h'.list, h.list, List.append_assoc]
  fresh s hs := by
    rcases List.mem_append.mp hs with hs | hs
    · exact Nat.le_trans hle (h'.fresh s hs)
    · exact h.fresh s hs
  room := by
    rw [List.map_append, List.sum_append, Nat.add_comm]
    exact Nat.add_le_add h.room h'.room
  backout addr ha := by
    obtain ⟨s, hs, haddr⟩ := h'.backout addr ha
    exact ⟨s, List.mem_append_left _ hs, haddr⟩

/-- A chain is saved, and the next one comes behind it. -/
theorem Queue.defer (h : Queue w list saves room info new) (hsaves : saves ≤ info.saves) (chain : Bref) :
    ∃ list' new', Bulkfree.defer info chain = .done { info with
        list := list'
        backout := some info.saves
        listCount := info.listCount + 1
        pri := info.pri + 10
        saves := info.saves + 1 } ∧
      list'.Perm (⟨info.saves, chain⟩ :: info.list) ∧
      ∀ info' : Info, info'.list = list' → info'.backout = some info.saves →
        Queue w list saves (room + w chain) info' new' := by
  have hqueue : ∀ new' : List Save, new'.Perm (⟨info.saves, chain⟩ :: new) → ∀ info' : Info,
      info'.list = new' ++ list → info'.backout = some info.saves →
        Queue w list saves (room + w chain) info' new' := by
    intro new' hperm info' hlist hback
    refine ⟨hlist, fun s hs => ?_, ?_, fun addr ha => ?_⟩
    · rcases List.mem_cons.mp (hperm.mem_iff.mp hs) with rfl | hs
      · exact hsaves
      · exact h.fresh s hs
    · rw [(hperm.map _).sum_eq, List.map_cons, List.sum_cons, Nat.add_comm]
      exact Nat.add_le_add_right h.room _
    · rw [hback] at ha
      cases ha
      exact ⟨_, hperm.mem_iff.mpr List.mem_cons_self, rfl⟩
  cases hback : info.backout with
  | none =>
      refine ⟨⟨info.saves, chain⟩ :: info.list, ⟨info.saves, chain⟩ :: new, ?_, .refl _,
        fun info' hlist => hqueue _ (.refl _) info' ?_⟩
      · unfold Bulkfree.defer
        rw [hback]
      · rw [hlist, h.list]
        rfl
  | some addr =>
      obtain ⟨new', heq, hperm⟩ := insertAfter_spec ⟨info.saves, chain⟩ list (h.backout addr hback)
      refine ⟨new' ++ list, new', ?_, ?_, fun info' hlist => hqueue _ hperm info' hlist⟩
      · unfold Bulkfree.defer
        rw [hback]
        dsimp only
        rw [h.list, heq]
      · rw [h.list]
        exact hperm.append_right list

end Saving

/-! ## What holds of the scan -/

section Scan

variable (m : Media) (dev : Dev) (env : Env) (rank : Bref → Nat) (cb₀ : Cbinfo)

/-- The callback was called for `refs`, and the table and the list hold nothing else.  If a signal
came in between, one of them is not recorded. -/
structure Inv (refs : List Bref) (info : Info) : Prop where
  recorded : ∃ done, (∀ b ∈ done, b ∈ refs) ∧ bulkfreeScan dev cb₀ (done.map snapRef) = some info.cb ∧
    (info.signaled = false → done = refs)
  reached : ∀ b ∈ refs, Reached m b
  dedup : ∀ i, hasData (info.dedup i).dataOff = true →
    Found Bref.dataOff refs (info.dedup i).dataOff
  list : ∀ s ∈ info.list, s.chain ∈ refs ∧ recurses s.chain.type = true
  addrs : ∀ s ∈ info.list, s.addr < info.saves
  errors : Calm m env → ∀ i, fatal (noEof (info.dedup i).savedError) = false

/-- What is closed when `p` was entered with `info₀` stays so. -/
def Keeps (refs₀ : List Bref) (info₀ : Info) (p : Bref) (refs pend : List Bref) : Prop :=
  ∀ outer, Closed (kids m) (Opens m) Bref.dataOff refs₀ (p :: (info₀.chains ++ outer)) →
    Closed (kids m) (Opens m) Bref.dataOff refs (pend ++ outer)

/-- In the loop over the blockrefs of `p`, behind those of `A`; `front` is still to be opened. -/
structure Going (refs₀ : List Bref) (info₀ : Info) (p : Bref) (A front : List Bref) (room : Nat)
    (refs : List Bref) (error rupError : Error) (info : Info) : Prop where
  inv : Inv m dev env cb₀ refs info
  more : ∀ b ∈ refs₀, b ∈ refs
  saves : info₀.saves ≤ info.saves
  bits : noEof error = error
  rupBits : noEof rupError = rupError
  calm : Calm m env → fatal error = false ∧ fatal rupError = false
  signal : fatal error = false → fatal rupError = false → info.signaled = info₀.signaled
  queue : ∃ new, Queue (weight (kids m) rank) info₀.list info₀.saves room info new
  closed : fatal error = false → fatal rupError = false →
    Keeps m refs₀ info₀ p refs (front ++ info.chains)
  seen : ∀ a ∈ A, hasData a.dataOff = true → Found Bref.dataOff refs a.dataOff

/-- The chain `p` was scanned. -/
structure Ran (refs₀ : List Bref) (info₀ : Info) (p : Bref) (room : Nat) (refs : List Bref)
    (error : Error) (info : Info) : Prop where
  inv : Inv m dev env cb₀ refs info
  more : ∀ b ∈ refs₀, b ∈ refs
  saves : info₀.saves ≤ info.saves
  bits : noEof error = error
  calm : Calm m env → fatal error = false
  signal : fatal error = false → info.signaled = info₀.signaled
  queue : ∃ new, Queue (weight (kids m) rank) info₀.list info₀.saves room info new
  closed : fatal error = false → Keeps m refs₀ info₀ p refs info.chains
  opened : fatal error = false → Opens m p → Opened (kids m) Bref.dataOff refs p

/-- A chain that may be scanned: the volume, or one that was met. -/
def Scannable (refs : List Bref) (p : Bref) : Prop := p = vchain ∨ (p ∈ refs ∧ recurses p.type = true)

/-- The scan, for chains that take no more than `fuel`. -/
def Scans (fuel : Nat) (rec : Bref → Info → Res (Error × Info)) : Prop :=
  ∀ p refs info, Scannable refs p → Inv m dev env cb₀ refs info → info.backout = none →
    weight (kids m) rank p ≤ fuel → ∃ error info' refs', rec p info = .done (error, info') ∧
      Ran m dev env rank cb₀ refs info p (weight (kids m) rank p - 2) refs' error info'

end Scan

section Steps

variable {m : Media} {dev : Dev} {env : Env} {rank : Bref → Nat} {cb₀ : Cbinfo} {refs refs₀ : List Bref}
  {info info₀ : Info} {p b : Bref} {A front : List Bref} {room : Nat} {error rupError : Error}

theorem bulkfreeScan_append (dev : Dev) (refs : List SnapRef) (bref : SnapRef) : ∀ cb : Cbinfo,
    bulkfreeScan dev cb (refs ++ [bref]) =
      (bulkfreeScan dev cb refs).bind fun cb => bulkfreeCallback dev cb bref := by
  induction refs with
  | nil =>
      intro cb
      rw [List.nil_append, bulkfreeScan, bulkfreeScan, Option.bind_some]
      cases bulkfreeCallback dev cb bref with
      | none => rfl
      | some cb => rfl
  | cons r refs ih =>
      intro cb
      rw [List.cons_append, bulkfreeScan, bulkfreeScan]
      cases bulkfreeCallback dev cb r with
      | none => rfl
      | some cb => exact ih cb

/-- Only these fields matter. -/
theorem Inv.congr {info' : Info} (h : Inv m dev env cb₀ refs info) (hcb : info'.cb = info.cb)
    (hsig : info'.signaled = info.signaled) (hdedup : info'.dedup = info.dedup)
    (hlist : ∀ s ∈ info'.list, s ∈ info.list) (hsaves : info'.saves = info.saves) :
    Inv m dev env cb₀ refs info' where
  recorded := by rw [hcb, hsig]; exact h.recorded
  reached := h.reached
  dedup i hi := by
    rw [hdedup] at hi ⊢
    exact h.dedup i hi
  list s hs := h.list s (hlist s hs)
  addrs s hs := by rw [hsaves]; exact h.addrs s (hlist s hs)
  errors hcalm i := by rw [hdedup]; exact h.errors hcalm i

theorem Going.congr {info' : Info} (h : Going m dev env rank cb₀ refs₀ info₀ p A front room refs error
    rupError info) (hcb : info'.cb = info.cb) (hsig : info'.signaled = info.signaled)
    (hdedup : info'.dedup = info.dedup) (hlist : info'.list = info.list)
    (hback : info'.backout = info.backout) (hsaves : info'.saves = info.saves) :
    Going m dev env rank cb₀ refs₀ info₀ p A front room refs error rupError info' where
  inv := h.inv.congr hcb hsig hdedup (fun s hs => hlist ▸ hs) hsaves
  more := h.more
  saves := by rw [hsaves]; exact h.saves
  bits := h.bits
  rupBits := h.rupBits
  calm := h.calm
  signal he hr := hsig.trans (h.signal he hr)
  queue := h.queue.imp fun new hq => hq.congr hlist hback
  closed := by rw [Info.chains, hlist]; exact h.closed
  seen := h.seen

theorem Going.mono {room' : Nat} (h : Going m dev env rank cb₀ refs₀ info₀ p A front room refs error
    rupError info) (hle : room ≤ room') :
    Going m dev env rank cb₀ refs₀ info₀ p A front room' refs error rupError info :=
  { h with queue := h.queue.imp fun _ hq => hq.mono hle }

theorem Scannable.reached (h : Scannable refs p) (hinv : Inv m dev env cb₀ refs info) :
    p = vchain ∨ Reached m p := h.imp id fun hp => hinv.reached p hp.1

theorem Scannable.mono (h : Scannable refs₀ p) (hsub : ∀ b ∈ refs₀, b ∈ refs) : Scannable refs p :=
  h.imp id fun hp => ⟨hsub p hp.1, hp.2⟩

theorem Scannable.recurses (h : Scannable refs p) : recurses p.type = true := by
  rcases h with rfl | ⟨-, h⟩
  · rfl
  · exact h

theorem aborted_fatal (h : error &&& errorAborted ≠ 0#32) : fatal error = true := by
  refine decide_eq_true fun hz => h ?_
  have hbits : errorAborted = ~~~errorCheck &&& errorAborted := by decide
  rw [hbits, ← BitVec.and_assoc, hz, BitVec.zero_and]

/-- A chain that is not to be opened, or is. -/
theorem Going.pop (hm : MediaOk m dev rank) (hb : Reached m b)
    (h : Going m dev env rank cb₀ refs₀ info₀ p A (b :: front) room refs error rupError info)
    (hopen : Opens m b → Opened (kids m) Bref.dataOff refs b) :
    Going m dev env rank cb₀ refs₀ info₀ p A front room refs error rupError info :=
  { h with closed := fun he hr outer hout =>
      (h.closed he hr outer hout).pop hm.agree hb h.inv.reached hopen }

/-- The callback is called for a blockref. -/
theorem callback_spec (hm : MediaOk m dev rank) {base sstop : Nat} {P : Range → Prop}
    (hwin : WindowSpec dev P base sstop cb₀) (hstop : sstop % segSize = 0 ∨ sstop = dev.totalSize)
    (h : Inv m dev env cb₀ refs info) (hb : Reached m b) {dedup : Nat → Dedup}
    (hdedup : ∀ j, dedup j = info.dedup j ∨ ((dedup j).dataOff = b.dataOff ∧ (dedup j).savedError = 0#32)) :
    ∃ e cb signaled, callback dev env { info with dedup } b =
        .done (e, { info with dedup, cb, signaled, calls := info.calls + 1 }) ∧
      Inv m dev env cb₀ (refs ++ [b]) { info with dedup, cb, signaled, calls := info.calls + 1 } ∧
      noEof e = e ∧ (fatal e = false → e = 0#32 ∧ signaled = info.signaled) ∧
      (Calm m env → fatal e = false) := by
  have hsub : ∀ b' ∈ refs, b' ∈ refs ++ [b] := fun b' hb' => List.mem_append_left _ hb'
  obtain ⟨done, hdone, hscan, hall⟩ := h.recorded
  have hinv : ∀ cb signaled, (∃ done, (∀ b' ∈ done, b' ∈ refs ++ [b]) ∧
      bulkfreeScan dev cb₀ (done.map snapRef) = some cb ∧ (signaled = false → done = refs ++ [b])) →
      Inv m dev env cb₀ (refs ++ [b]) { info with dedup, cb, signaled, calls := info.calls + 1 } := by
    intro cb signaled hrec
    refine ⟨hrec, fun b' hb' => ?_, fun i hi => ?_, fun s hs => ?_, h.addrs, fun hcalm i => ?_⟩
    · rcases List.mem_append.mp hb' with hb' | hb'
      · exact h.reached b' hb'
      · exact List.mem_singleton.mp hb' ▸ hb
    · change hasData (dedup i).dataOff = true at hi
      show Found _ _ (dedup i).dataOff
      rcases hdedup i with heq | ⟨hoff, -⟩
      · rw [heq] at hi ⊢
        exact (h.dedup i hi).mono hsub
      · exact ⟨b, List.mem_append_right _ List.mem_cons_self, hoff.symm⟩
    · exact ⟨hsub _ (h.list s hs).1, (h.list s hs).2⟩
    · show fatal (noEof (dedup i).savedError) = false
      rcases hdedup i with heq | ⟨-, herr⟩
      · rw [heq]
        exact h.errors hcalm i
      · rw [herr]
        rfl
  unfold callback
  dsimp only
  by_cases hsig : env.signal info.calls = true ∧ info.signaled = false
  · rw [if_pos hsig]
    refine ⟨errorAborted, info.cb, true, rfl, hinv _ _ ⟨done, fun b' hb' => hsub b' (hdone b' hb'), hscan,
      by rintro ⟨⟩⟩, by decide, fun hf => ?_, fun hcalm => ?_⟩
    · exact absurd hf (by decide)
    · exact absurd hsig.1 (by rw [hcalm.1]; exact Bool.noConfusion)
  · rw [if_neg hsig]
    have hrefs : ∀ r ∈ (done ++ [b]).map snapRef, RefOk dev r := by
      intro r hr
      obtain ⟨b', hb', rfl⟩ := List.mem_map.mp hr
      rcases List.mem_append.mp hb' with hb' | hb'
      · exact hm.refs b' (h.reached b' (hdone b' hb'))
      · exact hm.refs b' (List.mem_singleton.mp hb' ▸ hb)
    obtain ⟨cb, hcb, -⟩ := bulkfreeScan_spec hstop hrefs hwin
    have hcall := hcb
    rw [List.map_append, List.map_singleton, bulkfreeScan_append, hscan, Option.bind_some] at hcall
    rw [hcall]
    refine ⟨0#32, cb, info.signaled, rfl, hinv _ _ ⟨done ++ [b], fun b' hb' => ?_, hcb, fun hs => ?_⟩, rfl,
      fun _ => ⟨rfl, rfl⟩, fun _ => rfl⟩
    · rcases List.mem_append.mp hb' with hb' | hb'
      · exact hsub b' (hdone b' hb')
      · exact List.mem_append_right _ hb'
    · rw [hall hs]

/-- A chain is saved. -/
theorem Going.defer (h : Going m dev env rank cb₀ refs₀ info₀ p A [b, p] room refs error rupError info)
    (hb : b ∈ refs) (hrec : recurses b.type = true) : ∃ info', Bulkfree.defer info b = .done info' ∧
      Going m dev env rank cb₀ refs₀ info₀ p A [p] (room + weight (kids m) rank b) refs error rupError
        info' := by
  obtain ⟨new, hq⟩ := h.queue
  obtain ⟨list', new', hdefer, hperm, hqueue⟩ := hq.defer h.saves b
  have hmem : ∀ s ∈ list', s = ⟨info.saves, b⟩ ∨ s ∈ info.list :=
    fun s hs => List.mem_cons.mp (hperm.mem_iff.mp hs)
  refine ⟨_, hdefer, ⟨h.inv.recorded, h.inv.reached, h.inv.dedup, fun s hs => ?_, fun s hs => ?_,
    h.inv.errors⟩, h.more, Nat.le_succ_of_le h.saves, h.bits, h.rupBits, h.calm, h.signal,
    ⟨new', hqueue _ rfl rfl⟩, fun he hr outer hout => ?_, h.seen⟩
  · rcases hmem s hs with rfl | hs
    · exact ⟨hb, hrec⟩
    · exact h.inv.list s hs
  · show s.addr < info.saves + 1
    rcases hmem s hs with rfl | hs
    · exact Nat.lt_succ_self _
    · exact Nat.lt_succ_of_lt (h.inv.addrs s hs)
  · refine (h.closed he hr outer hout).weaken fun q hq => ?_
    have hchains := (hperm.map Save.chain).mem_iff (a := q)
    rw [List.map_cons] at hchains
    simp only [List.cons_append, List.nil_append, List.mem_cons, List.mem_append, Info.chains] at hq ⊢
    rcases hq with rfl | rfl | hq | hq
    · exact .inr (.inl (hchains.mpr List.mem_cons_self))
    · exact .inl rfl
    · exact .inr (.inl (hchains.mpr (List.mem_cons_of_mem _ hq)))
    · exact .inr (.inr hq)

/-- A chain is scanned on the way. -/
theorem Going.ran {room' : Nat} {e : Error} {refs' : List Bref} {info' : Info}
    (h : Going m dev env rank cb₀ refs₀ info₀ p A [b, p] room refs error rupError info)
    (hran : Ran m dev env rank cb₀ refs info b room' refs' e info') :
    Going m dev env rank cb₀ refs₀ info₀ p A [p] (room + room') refs' error (rupError ||| e) info' where
  inv := hran.inv
  more b hb := hran.more b (h.more b hb)
  saves := Nat.le_trans h.saves hran.saves
  bits := h.bits
  rupBits := noEof_or_self h.rupBits hran.bits
  calm hcalm := by
    rw [fatal_or, (h.calm hcalm).2, hran.calm hcalm]
    exact ⟨(h.calm hcalm).1, rfl⟩
  signal he hr := by
    rw [fatal_or, Bool.or_eq_false_iff] at hr
    exact (hran.signal hr.2).trans (h.signal he hr.1)
  queue := by
    obtain ⟨new, hq⟩ := h.queue
    obtain ⟨new', hq'⟩ := hran.queue
    exact ⟨new' ++ new, hq.trans hq' h.saves⟩
  closed he hr outer hout := by
    rw [fatal_or, Bool.or_eq_false_iff] at hr
    have hbefore := h.closed he hr.1 outer hout
    have hafter := hran.closed hr.2 (p :: outer) (hbefore.weaken fun q hq => ?_)
    · refine hafter.weaken fun q hq => ?_
      simp only [List.cons_append, List.nil_append, List.mem_cons, List.mem_append] at hq ⊢
      rcases hq with hq | rfl | hq
      · exact .inr (.inl hq)
      · exact .inl rfl
      · exact .inr (.inr hq)
    · simp only [List.cons_append, List.nil_append, List.mem_cons, List.mem_append] at hq ⊢
      rcases hq with rfl | rfl | hq | hq
      · exact .inl rfl
      · exact .inr (.inr (.inl rfl))
      · exact .inr (.inl hq)
      · exact .inr (.inr (.inr hq))
  seen a ha hdata := (h.seen a ha hdata).mono hran.more

/-- A chain is left, saved or scanned. -/
theorem descend_spec (hm : MediaOk m dev rank) {fuel : Nat} {rec : Bref → Info → Res (Error × Info)}
    (hrec : Scans m dev env rank cb₀ fuel rec)
    (h : Going m dev env rank cb₀ refs₀ info₀ p A [b, p] room refs error rupError info) (hb : b ∈ refs)
    (htype : recurses b.type = true) (hfuel : weight (kids m) rank b ≤ fuel) :
    ∃ rupError' info' refs', descend m env rec b rupError info = .done (rupError', info') ∧
      Going m dev env rank cb₀ refs₀ info₀ p A [p] (room + weight (kids m) rank b) refs' error rupError'
        info' := by
  have hreached := h.inv.reached b hb
  have hdeeper : Going m dev env rank cb₀ refs₀ info₀ p A [b, p] room refs error rupError
      { info with depth := info.depth + 1 } := h.congr rfl rfl rfl rfl rfl rfl
  unfold descend
  dsimp only
  split
  · rename_i hskip
    refine ⟨_, _, refs, rfl, ?_⟩
    have hpop := hdeeper.pop hm hreached fun ho => absurd ho.2 (by rw [hskip.2]; rintro ⟨⟩)
    exact (hpop.mono (Nat.le_add_right _ _)).congr rfl rfl rfl rfl rfl rfl
  · split
    · obtain ⟨info', hdefer, hgoing⟩ := hdeeper.defer hb htype
      rw [hdefer]
      exact ⟨_, _, refs, rfl, hgoing.congr rfl rfl rfl rfl rfl rfl⟩
    · rename_i hnot
      have hback : info.backout = none := by
        cases hb : info.backout with
        | none => rfl
        | some addr =>
            refine absurd ?_ hnot
            unfold defers
            rw [hb]
            exact decide_eq_true (.inr (.inl rfl))
      have hstart : Going m dev env rank cb₀ refs₀ info₀ p A [b, p] room refs error rupError
          { info with depth := info.depth + 1, pri := 0 } := h.congr rfl rfl rfl rfl rfl rfl
      obtain ⟨e, info', refs', hdone, hran⟩ := hrec b refs _ (.inr ⟨hb, htype⟩) hstart.inv hback hfuel
      rw [hdone]
      refine ⟨_, _, refs', rfl, ?_⟩
      exact ((hstart.ran hran).mono (Nat.add_le_add_left (Nat.sub_le _ 2) room)).congr rfl rfl rfl rfl
        rfl rfl

/-- A blockref that has data. -/
theorem visit_data (hm : MediaOk m dev rank) {base sstop : Nat} {P : Range → Prop}
    (hwin : WindowSpec dev P base sstop cb₀) (hstop : sstop % segSize = 0 ∨ sstop = dev.totalSize)
    {fuel : Nat} {rec : Bref → Info → Res (Error × Info)} (hrec : Scans m dev env rank cb₀ fuel rec)
    (h : Going m dev env rank cb₀ refs₀ info₀ p A [p] room refs error rupError info)
    (hb : Reached m b) (hfuel : weight (kids m) rank b ≤ fuel) :
    ∃ r refs', visit m dev env rec b error rupError info = .done r ∧
      Going m dev env rank cb₀ refs₀ info₀ p (A ++ [b]) [p] (room + weight (kids m) rank b) refs' r.error
        r.rupError r.info ∧
      (r.stops = true → fatal r.error = true ∨ fatal r.rupError = true) := by
  obtain ⟨dedup, htest, hcases⟩ := bulkfreeTest_spec { info with pri := info.pri + 1 } b 1 0#32
  unfold visit
  rw [if_neg (by rw [hb.hasData]; exact Bool.noConfusion)]
  dsimp only
  rw [htest]
  rcases hcases with ⟨i, hoff, heq, hsame⟩ | ⟨heq, hdedup⟩
  · -- it was met before
    have hbits : (info.dedup i).savedError ||| errorEof ≠ 0#32 := by
      rw [Ne, BitVec.or_eq_zero_iff]
      exact fun hz => absurd hz.2 (by decide)
    have hsaved : noEof ((info.dedup i).savedError ||| errorEof) = noEof (info.dedup i).savedError := by
      rw [noEof_or]
      exact BitVec.or_zero
    rw [heq, if_pos hbits, hsaved]
    refine ⟨_, refs, rfl, ⟨?_, h.more, h.saves, ?_, h.rupBits, fun hcalm => ?_, fun he hr => ?_, ?_,
      fun he hr => ?_, fun a ha hdata => ?_⟩, by rintro ⟨⟩⟩
    · refine ⟨h.inv.recorded, h.inv.reached, fun j hj => ?_, h.inv.list, h.inv.addrs, fun hcalm j => ?_⟩
      · change hasData (dedup j).dataOff = true at hj
        show Found _ _ (dedup j).dataOff
        rw [(hsame j).1] at hj ⊢
        exact h.inv.dedup j hj
      · show fatal (noEof (dedup j).savedError) = false
        rw [(hsame j).2]
        exact h.inv.errors hcalm j
    · exact noEof_or_self h.bits (noEof_noEof _)
    · show fatal (error ||| noEof (info.dedup i).savedError) = false ∧ _
      rw [fatal_or, (h.calm hcalm).1, h.inv.errors hcalm i]
      exact ⟨rfl, (h.calm hcalm).2⟩
    · change fatal (error ||| _) = false at he
      rw [fatal_or, Bool.or_eq_false_iff] at he
      exact h.signal he.1 hr
    · exact h.queue.imp fun new hq => (hq.mono (Nat.le_add_right _ _)).congr rfl rfl
    · change fatal (error ||| _) = false at he
      rw [fatal_or, Bool.or_eq_false_iff] at he
      exact h.closed he.1 hr
    · rcases List.mem_append.mp ha with ha | ha
      · exact h.seen a ha hdata
      · obtain rfl := List.mem_singleton.mp ha
        have hfound := h.inv.dedup i (by rw [hoff]; exact hdata)
        rw [hoff] at hfound
        exact hfound
  · rw [heq, if_neg (fun hne => hne rfl)]
    have hinv : Inv m dev env cb₀ refs { info with pri := info.pri + 1 } :=
      h.inv.congr rfl rfl rfl (fun s hs => hs) rfl
    obtain ⟨e, cb, signaled, hcall, hinv', hbits, hgood, hcalm⟩ := callback_spec hm hwin hstop hinv hb hdedup
    rw [hcall, Res.bind_done]
    dsimp only
    have hmet : Going m dev env rank cb₀ refs₀ info₀ p (A ++ [b]) [b, p] room (refs ++ [b]) (error ||| e)
        rupError { info with pri := info.pri + 1, dedup, cb, signaled, calls := info.calls + 1 } := by
      have hsub : ∀ b' ∈ refs, b' ∈ refs ++ [b] := fun b' hb' => List.mem_append_left _ hb'
      refine ⟨hinv', fun b' hb' => hsub b' (h.more b' hb'), h.saves, noEof_or_self h.bits hbits, h.rupBits,
        fun hc => ?_, fun he hr => ?_, h.queue.imp fun new hq => hq.congr rfl rfl,
        fun he hr outer hout => ?_, fun a ha hdata => ?_⟩
      · rw [fatal_or, (h.calm hc).1, hcalm hc]
        exact ⟨rfl, (h.calm hc).2⟩
      · rw [fatal_or, Bool.or_eq_false_iff] at he
        exact (hgood he.2).2.trans (h.signal he.1 hr)
      · rw [fatal_or, Bool.or_eq_false_iff] at he
        exact (h.closed he.1 hr outer hout).push b
      · rcases List.mem_append.mp ha with ha | ha
        · exact (h.seen a ha hdata).mono hsub
        · exact ⟨a, List.mem_append_right _ ha, rfl⟩
    have hin : b ∈ refs ++ [b] := List.mem_append_right _ List.mem_cons_self
    by_cases hf : fatal (error ||| e) = true
    · rw [if_pos hf]
      refine ⟨_, refs ++ [b], rfl, ?_, fun _ => .inl hf⟩
      exact { hmet.mono (Nat.le_add_right _ _) with
        closed := fun he => absurd hf (by rw [he]; exact Bool.noConfusion) }
    · rw [if_neg hf]
      cases htype : recurses b.type with
      | true =>
          obtain ⟨rupError', info', refs', hdone, hgoing⟩ := descend_spec hm hrec hmet hin htype hfuel
          rw [if_pos rfl, hdone]
          exact ⟨_, refs', rfl, hgoing, fun hs => .inr (aborted_fatal (of_decide_eq_true hs))⟩
      | false =>
          rw [if_neg Bool.noConfusion]
          refine ⟨_, refs ++ [b], rfl, ?_, by rintro ⟨⟩⟩
          refine (hmet.pop hm hb fun ho => ?_).mono (Nat.le_add_right _ _)
          exact absurd ho.1 (by rw [htype]; exact Bool.noConfusion)

/-- The weight of those that have data. -/
def load (m : Media) (rank : Bref → Nat) (B : List Bref) : Nat :=
  ((B.filter fun b => hasData b.dataOff).map (weight (kids m) rank)).sum

/-- Any blockref. -/
theorem visit_spec (hm : MediaOk m dev rank) {base sstop : Nat} {P : Range → Prop}
    (hwin : WindowSpec dev P base sstop cb₀) (hstop : sstop % segSize = 0 ∨ sstop = dev.totalSize)
    {fuel : Nat} {rec : Bref → Info → Res (Error × Info)} (hrec : Scans m dev env rank cb₀ fuel rec)
    (h : Going m dev env rank cb₀ refs₀ info₀ p A [p] room refs error rupError info)
    (hb : hasData b.dataOff = true → Reached m b ∧ weight (kids m) rank b ≤ fuel) :
    ∃ r refs', visit m dev env rec b error rupError info = .done r ∧
      Going m dev env rank cb₀ refs₀ info₀ p (A ++ [b]) [p] (room + load m rank [b]) refs' r.error
        r.rupError r.info ∧
      (r.stops = true → fatal r.error = true ∨ fatal r.rupError = true) := by
  cases hdata : hasData b.dataOff with
  | true =>
      have hload : load m rank [b] = weight (kids m) rank b := by simp [load, hdata]
      rw [hload]
      exact visit_data hm hwin hstop hrec h (hb hdata).1 (hb hdata).2
  | false =>
      have hnot : ¬ hasData b.dataOff = true := by rw [hdata]; exact Bool.noConfusion
      refine ⟨⟨error, rupError, info, false⟩, refs, if_pos hdata, ?_, by rintro ⟨⟩⟩
      refine { h.mono (Nat.le_add_right _ _) with seen := fun a ha hd => ?_ }
      rcases List.mem_append.mp ha with ha | ha
      · exact h.seen a ha hd
      · exact absurd hd (List.mem_singleton.mp ha ▸ hnot)

/-- The loop is through with all of `view`, or there was an error. -/
theorem scanLoop_spec (hm : MediaOk m dev rank) {base sstop : Nat} {P : Range → Prop}
    (hwin : WindowSpec dev P base sstop cb₀) (hstop : sstop % segSize = 0 ∨ sstop = dev.totalSize)
    {fuel : Nat} {rec : Bref → Info → Res (Error × Info)} (hrec : Scans m dev env rank cb₀ fuel rec)
    (ho : Opens m p) {view : List Bref} (hview : ∀ b ∈ view, hasData b.dataOff = true →
      Reached m b ∧ weight (kids m) rank b ≤ fuel) :
    ∀ {B A : List Bref} {loops room : Nat} {n : Node} {refs : List Bref} {error rupError : Error}
      {info : Info}, Views m p n (A ++ B) → view = A ++ B → B.length < loops →
      Going m dev env rank cb₀ refs₀ info₀ p A [p] room refs error rupError info →
      ∃ error' rupError' info' refs' A', scanLoop m dev env rec p loops n A.getLast? error rupError info =
          .done (error', rupError', info') ∧
        Going m dev env rank cb₀ refs₀ info₀ p A' [p] (room + load m rank B) refs' (noEof error') rupError'
          info' ∧
        (A' = view ∨ fatal (noEof error') = true ∨ fatal rupError' = true)
  | B, A, 0, _, _, _, _, _, _, _, _, hlt, _ => absurd hlt (Nat.not_lt_zero _)
  | B, A, loops + 1, room, n, refs, error, rupError, info, hv, hview', hlt, h => by
      obtain ⟨n', hv', hscan⟩ := chainScan_spec ho.2 ho.1 hv
      unfold scanLoop
      rw [hscan]
      dsimp only
      cases B with
      | nil =>
          have hnoeof : noEof (error ||| errorEof) = error := by
            rw [noEof_or, h.bits]
            exact BitVec.or_zero
          have hstops : fatal (error ||| errorEof) = true := by
            rw [fatal_or]
            exact Bool.or_true _
          rw [if_pos rfl, if_pos hstops]
          refine ⟨_, _, _, refs, A, rfl, ?_, .inl (by rw [hview', List.append_nil])⟩
          rw [hnoeof]
          exact h.mono (Nat.le_add_right _ _)
      | cons b B =>
          rw [if_neg (List.cons_ne_nil b B), BitVec.or_zero]
          by_cases hf : fatal error = true
          · rw [if_pos hf]
            refine ⟨_, _, _, refs, A, rfl, ?_, .inr (.inl (by rw [h.bits, hf]))⟩
            rw [h.bits]
            exact h.mono (Nat.le_add_right _ _)
          · rw [if_neg hf]
            have hb : b ∈ view := by
              rw [hview']
              exact List.mem_append_right _ List.mem_cons_self
            obtain ⟨r, refs', hdone, hgoing, hr⟩ := visit_spec hm hwin hstop hrec h (hview b hb)
            have hload : room + load m rank (b :: B) = room + load m rank [b] + load m rank B := by
              unfold load
              rw [← List.singleton_append, List.filter_append, List.map_append, List.sum_append,
                Nat.add_assoc]
            show ∃ error' rupError' info' refs' A', Res.bind _ _ = _ ∧ _
            rw [hdone, Res.bind_done, hload]
            by_cases hs : r.stops = true
            · rw [if_pos hs]
              refine ⟨_, _, _, refs', A ++ [b], rfl, ?_, .inr ?_⟩
              · rw [hgoing.bits]
                exact hgoing.mono (Nat.le_add_right _ _)
              · rw [hgoing.bits]
                exact hr hs
            · rw [if_neg hs]
              have hsplit : A ++ b :: B = A ++ [b] ++ B := by
                rw [List.append_assoc]
                rfl
              rw [hsplit] at hv' hview'
              have hrest := scanLoop_spec hm hwin hstop hrec ho hview hv' hview'
                (Nat.lt_of_succ_lt_succ hlt) hgoing
              rw [List.getLast?_concat] at hrest
              exact hrest

/-- The first of the list was scanned. -/
theorem Ran.pop {s : Save} {new : List Save} {e : Error} {refs' : List Bref} {info' : Info} {pri : Nat}
    (h : Ran m dev env rank cb₀ refs₀ info₀ p room refs error info)
    (hq : Queue (weight (kids m) rank) info₀.list info₀.saves room info (s :: new))
    (hran : Ran m dev env rank cb₀ refs { info.remove (new ++ info₀.list) with pri } s.chain
      (weight (kids m) rank s.chain - 2) refs' e info') :
    Ran m dev env rank cb₀ refs₀ info₀ p room refs' (error ||| e) info' ∧
      ∃ new', Queue (weight (kids m) rank) info₀.list info₀.saves room info' new' ∧
        (new'.map fun s => weight (kids m) rank s.chain).sum <
          ((s :: new).map fun s => weight (kids m) rank s.chain).sum := by
  have htwo := @two_le_weight _ (kids m) rank s.chain
  have hroom := hq.room
  rw [List.map_cons, List.sum_cons] at hroom
  have hrest : Queue (weight (kids m) rank) info₀.list info₀.saves
      ((new.map fun s => weight (kids m) rank s.chain).sum)
      { info.remove (new ++ info₀.list) with pri } new :=
    ⟨rfl, fun s hs => hq.fresh s (List.mem_cons_of_mem _ hs), Nat.le_refl _, by rintro addr ⟨⟩⟩
  obtain ⟨new', hq'⟩ := hran.queue
  have htotal := hrest.trans hq' h.saves
  have hqueue := htotal.mono (by omega : _ ≤ room)
  refine ⟨⟨hran.inv, fun b hb => hran.more b (h.more b hb), Nat.le_trans h.saves hran.saves,
    noEof_or_self h.bits hran.bits, fun hc => ?_, fun hf => ?_, ⟨_, hqueue⟩, fun hf outer hout => ?_,
    fun hf ho => ?_⟩, _, hqueue, ?_⟩
  · rw [fatal_or, h.calm hc, hran.calm hc]
    rfl
  · rw [fatal_or, Bool.or_eq_false_iff] at hf
    exact (hran.signal hf.2).trans (h.signal hf.1)
  · rw [fatal_or, Bool.or_eq_false_iff] at hf
    have hbefore := h.closed hf.1 outer hout
    rw [Info.chains, hq.list] at hbefore
    exact hran.closed hf.2 outer hbefore
  · rw [fatal_or, Bool.or_eq_false_iff] at hf
    exact (h.opened hf.1 ho).mono hran.more
  · have hlt := htotal.room
    rw [List.map_cons, List.sum_cons]
    omega

/-- The first of the list is scanned. -/
theorem Ran.scanFirst {fuel : Nat} {rec : Bref → Info → Res (Error × Info)}
    (hrec : Scans m dev env rank cb₀ fuel rec) {s : Save} {new : List Save} (pri : Nat)
    (h : Ran m dev env rank cb₀ refs₀ info₀ p room refs error info)
    (hq : Queue (weight (kids m) rank) info₀.list info₀.saves room info (s :: new)) (hroom : room ≤ fuel) :
    ∃ e info' refs', rec s.chain { info.remove (new ++ info₀.list) with pri } = .done (e, info') ∧
      Ran m dev env rank cb₀ refs { info.remove (new ++ info₀.list) with pri } s.chain
        (weight (kids m) rank s.chain - 2) refs' e info' := by
  have hlist : info.list = s :: (new ++ info₀.list) := hq.list
  have hin : ∀ x ∈ new ++ info₀.list, x ∈ info.list := by
    intro x hx
    rw [hlist]
    exact List.mem_cons_of_mem _ hx
  have hfirst : s ∈ info.list := by
    rw [hlist]
    exact List.mem_cons_self
  have hsum := hq.room
  rw [List.map_cons, List.sum_cons] at hsum
  exact hrec s.chain refs _ (.inr (h.inv.list s hfirst)) (h.inv.congr rfl rfl rfl hin rfl) rfl (by omega)

/-- The list is scanned up to where it was when `p` was entered. -/
theorem rerun_spec {fuel : Nat} {rec : Bref → Info → Res (Error × Info)}
    (hrec : Scans m dev env rank cb₀ fuel rec) (haddrs : ∀ s ∈ info₀.list, s.addr < info₀.saves)
    (hroom : room ≤ fuel) :
    ∀ {loops : Nat} {refs : List Bref} {rupError : Error} {info : Info} {new : List Save},
      noEof rupError = rupError →
      Ran m dev env rank cb₀ refs₀ info₀ p room refs (error ||| rupError) info →
      Queue (weight (kids m) rank) info₀.list info₀.saves room info new →
      (new.map fun s => weight (kids m) rank s.chain).sum < loops →
      ∃ rupError' info' refs', rerun rec (info₀.list.head?.map Save.addr) loops rupError info =
          .done (rupError', info') ∧ noEof rupError' = rupError' ∧
        Ran m dev env rank cb₀ refs₀ info₀ p room refs' (error ||| rupError') info'
  | 0, _, _, _, _, _, _, _, hlt => absurd hlt (Nat.not_lt_zero _)
  | loops + 1, refs, rupError, info, [], hbits, h, hq, _ => by
      have hlist : info.list = info₀.list := hq.list
      refine ⟨rupError, info, refs, ?_, hbits, h⟩
      rw [rerun, if_pos (by rw [hlist])]
  | loops + 1, refs, rupError, info, s :: new, hbits, h, hq, hlt => by
      have hlist : info.list = s :: (new ++ info₀.list) := hq.list
      have hne : ¬ info.list.head?.map Save.addr = info₀.list.head?.map Save.addr := by
        rw [hlist]
        intro heq
        obtain ⟨t, ht, haddr⟩ := Option.map_eq_some_iff.mp heq.symm
        have hold := haddrs t (List.mem_of_mem_head? ht)
        have hnew := hq.fresh s List.mem_cons_self
        omega
      obtain ⟨e, info', refs', hdone, hran⟩ := h.scanFirst hrec 0 hq hroom
      obtain ⟨hnext, new', hq', hless⟩ := h.pop hq hran
      rw [BitVec.or_assoc] at hnext
      have hpri : Ran m dev env rank cb₀ refs₀ info₀ p room refs' (error ||| (rupError ||| e))
          { info' with pri := info.pri } :=
        { hnext with
          inv := hnext.inv.congr rfl rfl rfl (fun s hs => hs) rfl
          queue := hnext.queue.imp fun new hq => hq.congr rfl rfl }
      obtain ⟨rupError', info'', refs'', hrest, hbits', hran'⟩ := rerun_spec hrec haddrs hroom
        (noEof_or_self hbits hran.bits) hpri (hq'.congr rfl rfl)
        (Nat.lt_of_lt_of_le hless (Nat.le_of_lt_succ hlt))
      refine ⟨rupError', info'', refs'', ?_, hbits', hran'⟩
      rw [rerun, if_neg hne]
      simp only [hlist]
      rw [hdone, Res.bind_done]
      exact hrest

/-- The table is told of the chain that was scanned. -/
theorem Ran.test (h : Ran m dev env rank cb₀ refs₀ info₀ p room refs error info) (hp : Scannable refs p)
    (pri : Nat) : Ran m dev env rank cb₀ refs₀ info₀ p room refs error
      (bulkfreeTest info p pri error).2 := by
  obtain ⟨dedup, htest, hcases⟩ := bulkfreeTest_spec info p pri error
  rw [htest]
  have hknown : ∀ j, (dedup j).dataOff = (info.dedup j).dataOff ∨ (dedup j).dataOff = p.dataOff := by
    intro j
    rcases hcases with ⟨-, -, -, hsame⟩ | ⟨-, hput⟩
    · exact .inl (hsame j).1
    · exact (hput j).imp (congrArg Dedup.dataOff) And.left
  have herrors : ∀ j, (dedup j).savedError = (info.dedup j).savedError ∨ (dedup j).savedError = error := by
    intro j
    rcases hcases with ⟨-, -, -, hsame⟩ | ⟨-, hput⟩
    · exact .inl (hsame j).2
    · exact (hput j).imp (congrArg Dedup.savedError) And.right
  refine { h with
    inv := ⟨h.inv.recorded, h.inv.reached, fun j hj => ?_, h.inv.list, h.inv.addrs, fun hc j => ?_⟩
    queue := h.queue.imp fun new hq => hq.congr rfl rfl }
  · change hasData (dedup j).dataOff = true at hj
    show Found _ _ (dedup j).dataOff
    rcases hknown j with heq | heq
    · rw [heq] at hj ⊢
      exact h.inv.dedup j hj
    · rw [heq] at hj ⊢
      rcases hp with rfl | ⟨hp, -⟩
      · cases hj
      · exact ⟨p, hp, rfl⟩
  · show fatal (noEof (dedup j).savedError) = false
    rcases herrors j with heq | heq
    · rw [heq]
      exact h.inv.errors hc j
    · rw [heq, h.bits]
      exact h.calm hc

/-- The loop is over. -/
theorem Going.ends (hm : MediaOk m dev rank) (ho : Opens m p) (hp : p = vchain ∨ Reached m p)
    {view : List Bref} (hview : ∀ c ∈ kids m p, c ∈ view)
    (h : Going m dev env rank cb₀ refs₀ info₀ p A [p] room refs error rupError info)
    (hall : A = view ∨ fatal error = true ∨ fatal rupError = true) :
    Ran m dev env rank cb₀ refs₀ info₀ p room refs (error ||| rupError) info := by
  have hgood : fatal (error ||| rupError) = false → fatal error = false ∧ fatal rupError = false ∧
      Opened (kids m) Bref.dataOff refs p := by
    intro hf
    rw [fatal_or, Bool.or_eq_false_iff] at hf
    refine ⟨hf.1, hf.2, fun c hc => ?_⟩
    rcases hall with rfl | hbad | hbad
    · exact h.seen c (hview c hc) (hasData_of_kids hc)
    · exact absurd hbad (by rw [hf.1]; exact Bool.noConfusion)
    · exact absurd hbad (by rw [hf.2]; exact Bool.noConfusion)
  refine ⟨h.inv, h.more, h.saves, noEof_or_self h.bits h.rupBits, fun hc => ?_, fun hf => ?_, h.queue,
    fun hf outer hout => ?_, fun hf _ => (hgood hf).2.2⟩
  · rw [fatal_or, (h.calm hc).1, (h.calm hc).2]
    rfl
  · exact h.signal (hgood hf).1 (hgood hf).2.1
  · exact (h.closed (hgood hf).1 (hgood hf).2.1 outer hout).pop hm.agree_all hp
      (fun b hb => .inr (h.inv.reached b hb)) fun _ => (hgood hf).2.2

/-- **The scan** of a chain. -/
theorem scan_spec (hm : MediaOk m dev rank) {base sstop : Nat} {P : Range → Prop}
    (hwin : WindowSpec dev P base sstop cb₀) (hstop : sstop % segSize = 0 ∨ sstop = dev.totalSize) :
    ∀ fuel, Scans m dev env rank cb₀ fuel (scan m dev env fuel) := by
  intro fuel
  induction fuel with
  | zero =>
      intro p refs info _ _ _ hfuel
      exact absurd (Nat.le_trans (two_le_weight rank p) hfuel) (Nat.not_succ_le_zero 1)
  | succ fuel ih =>
      intro p refs info hscan hinv hback hfuel
      have hp := hscan.reached hinv
      have hentered : Inv m dev env cb₀ refs { info with pri := info.pri + 1 } :=
        hinv.congr rfl rfl rfl (fun s hs => hs) rfl
      have hqueue : ∃ new, Queue (weight (kids m) rank) info.list info.saves (weight (kids m) rank p - 2)
          { info with pri := info.pri + 1 } new := ⟨[], (Queue.nil hback).congr rfl rfl⟩
      have hseen : ∀ b ∈ refs, b = vchain ∨ Reached m b := fun b hb => .inr (hinv.reached b hb)
      rw [scan]
      cases hload : m.load p with
      | check =>
          have hnot : ¬ Opens m p := fun ho => absurd ho.2 (by rw [hload]; rintro ⟨⟩)
          refine ⟨_, _, refs, if_pos rfl, hentered, fun b hb => hb, Nat.le_refl _, by decide,
            fun _ => by decide, fun _ => rfl, hqueue, fun _ outer hout => ?_, fun _ ho => absurd ho hnot⟩
          exact hout.pop hm.agree_all hp hseen fun ho => absurd ho hnot
      | eio =>
          have hnot : ¬ Opens m p := fun ho => absurd ho.2 (by rw [hload]; rintro ⟨⟩)
          have hpfs : ¬ m.pfsRoot p = true := fun hpfs => hm.pfs p hp hpfs hload
          have hstart : chainScan m p (m.node p) none = some (m.node p, errorEio, none) := by
            unfold chainScan
            rw [if_neg (by rintro ⟨⟨⟩, -⟩), if_pos (by rw [hload]; rintro ⟨⟩), hload]
            rfl
          have hran : Ran m dev env rank cb₀ refs info p (weight (kids m) rank p - 2) refs
              (noEof (0#32 ||| errorEio ||| 0#32)) { info with pri := info.pri + 1 } := by
            refine ⟨hentered, fun b hb => hb, Nat.le_refl _, by decide, fun hc => ?_, fun _ => rfl, hqueue,
              fun hf => absurd hf (by decide), fun _ ho => absurd ho hnot⟩
            rcases hp with rfl | hp
            · exact absurd hm.snapshot (by rw [hload]; rintro ⟨⟩)
            · exact absurd hload (hc.2 p hp)
          refine ⟨_, _, refs, ?_, hran.test hscan (info.pri + 1 + 1)⟩
          dsimp only
          rw [if_neg (by rintro ⟨⟩), if_neg (fun hand => hpfs hand.1), scanLoop, hstart]
          dsimp only
          rw [if_pos (by decide), Res.bind_done]
          dsimp only
          rw [if_neg hpfs]
          rfl
      | ok =>
          have ho : Opens m p := ⟨hscan.recurses, hload⟩
          obtain ⟨view, hview⟩ := hm.views hp ho
          have hperm := hview.kids
          have hsum : load m rank view + 2 ≤ weight (kids m) rank p := by
            rw [load, (hperm.map _).sum_eq]
            exact sum_weight_lt (hm.ranked p hp ho)
          have hkids : ∀ b ∈ view, hasData b.dataOff = true →
              Reached m b ∧ weight (kids m) rank b ≤ fuel := by
            intro b hb hdata
            have hkid : b ∈ view.filter fun b => hasData b.dataOff := List.mem_filter.mpr ⟨hb, hdata⟩
            have hle := List.single_le_sum (fun _ _ => Nat.zero_le _) _
              (List.mem_map_of_mem (f := weight (kids m) rank) hkid)
            refine ⟨.kid hp ho (hperm.mem_iff.mp hkid), ?_⟩
            unfold load at hsum
            omega
          have hgoing : Going m dev env rank cb₀ refs info p [] [p] 0 refs 0#32 0#32
              { info with pri := info.pri + 1 } :=
            ⟨hentered, fun b hb => hb, Nat.le_refl _, rfl, rfl, fun _ => ⟨rfl, rfl⟩, fun _ _ => rfl,
              ⟨[], (Queue.nil hback).congr rfl rfl⟩, fun _ _ outer hout => hout,
              fun a ha => absurd ha List.not_mem_nil⟩
          obtain ⟨error, rupError, info', refs', A, hloop, hend, hall⟩ := scanLoop_spec hm hwin hstop ih ho
            hkids hview rfl (hview.length_lt) hgoing
          obtain ⟨new, hq⟩ := hend.queue
          have hq' := hq.mono (by omega : 0 + load m rank view ≤ weight (kids m) rank p - 2)
          have hran := (hend.mono (by omega : 0 + load m rank view ≤ weight (kids m) rank p - 2)).ends hm ho
            hp (fun c hc => (List.mem_filter.mp (hperm.mem_iff.mpr hc)).1) hall
          have hlist : ∃ rupError' info'' refs'', (if m.pfsRoot p then
              rerun (scan m dev env fuel) (info.list.head?.map Save.addr) fuel rupError info'
              else .done (rupError, info')) = .done (rupError', info'') ∧ noEof rupError' = rupError' ∧
              Ran m dev env rank cb₀ refs info p (weight (kids m) rank p - 2) refs''
                (noEof error ||| rupError') info'' := by
            split
            · have hsmall := hq.room
              exact rerun_spec ih hinv.addrs (by omega) hend.rupBits hran hq' (by omega)
            · exact ⟨rupError, info', refs', rfl, hend.rupBits, hran⟩
          obtain ⟨rupError', info'', refs'', hdone, hbits, hran'⟩ := hlist
          have htotal : noEof (error ||| rupError') = noEof error ||| rupError' := by rw [noEof_or, hbits]
          refine ⟨_, _, refs'', ?_, hran'.test (hscan.mono hran'.more) (info''.pri + 1)⟩
          dsimp only
          rw [if_neg (by rintro ⟨⟩), if_neg (fun hand => absurd hand.2 (by rintro ⟨⟩))]
          rw [List.getLast?_nil] at hloop
          rw [hloop, Res.bind_done]
          dsimp only
          rw [hdone, Res.bind_done]
          dsimp only
          rw [htotal]

/-- There was an error before that lets the scan go on. -/
theorem Ran.also {e : Error} (h : Ran m dev env rank cb₀ refs₀ info₀ p room refs error info)
    (hbits : noEof e = e) (he : fatal e = false) :
    Ran m dev env rank cb₀ refs₀ info₀ p room refs (e ||| error) info := by
  have hor : fatal (e ||| error) = fatal error := by rw [fatal_or, he, Bool.false_or]
  refine ⟨h.inv, h.more, h.saves, noEof_or_self hbits h.bits, ?_, ?_, h.queue, ?_, ?_⟩
  · rw [hor]
    exact h.calm
  · rw [hor]
    exact h.signal
  · rw [hor]
    exact h.closed
  · rw [hor]
    exact h.opened

/-- The list is scanned until it is empty. -/
theorem drain_spec {fuel : Nat} {rec : Bref → Info → Res (Error × Info)}
    (hrec : Scans m dev env rank cb₀ fuel rec) (hlist : info₀.list = []) (hroom : room ≤ fuel) :
    ∀ {loops : Nat} {refs : List Bref} {error : Error} {info : Info} {new : List Save},
      Ran m dev env rank cb₀ refs₀ info₀ p room refs error info →
      Queue (weight (kids m) rank) info₀.list info₀.saves room info new →
      (new.map fun s => weight (kids m) rank s.chain).sum < loops →
      ∃ error' info' refs', drain rec loops error info = .done (error', info') ∧
        Ran m dev env rank cb₀ refs₀ info₀ p room refs' error' info' ∧
        (fatal error' = false → info'.list = []) ∧ (fatal error = true → fatal error' = true)
  | 0, _, _, _, _, _, _, hlt => absurd hlt (Nat.not_lt_zero _)
  | loops + 1, refs, error, info, [], h, hq, _ => by
      have hempty : info.list = [] := by rw [hq.list, hlist, List.append_nil]
      refine ⟨error, info, refs, ?_, h, fun _ => hempty, id⟩
      rw [drain, hempty]
  | loops + 1, refs, error, info, s :: new, h, hq, hlt => by
      have hfirst : info.list = s :: (new ++ info₀.list) := hq.list
      rw [drain, hfirst]
      dsimp only
      by_cases hf : fatal error = true
      · rw [if_pos hf]
        exact ⟨error, info, refs, rfl, h, fun hnot => absurd hf (by rw [hnot]; exact Bool.noConfusion), id⟩
      · obtain ⟨e, info', refs', hdone, hran⟩ := h.scanFirst hrec 0 hq hroom
        obtain ⟨hnext, new', hq', hless⟩ := h.pop hq hran
        obtain ⟨error', info'', refs'', hrest, hran', hempty, -⟩ := drain_spec hrec hlist hroom hnext hq'
          (Nat.lt_of_lt_of_le hless (Nat.le_of_lt_succ hlt))
        rw [if_neg hf, hdone, Res.bind_done]
        exact ⟨error', info'', refs'', hrest, hran', hempty, fun hbad => absurd hbad hf⟩

end Steps

/-! ## A window -/

/-- The ranges of what can be reached. -/
def ReachedRange (m : Media) (r : Range) : Prop := ∃ b, Reached m b ∧ refRange (snapRef b) = r

/-- What the pass keeps between two windows. -/
structure Idle (info : Info) : Prop where
  list : info.list = []
  backout : info.backout = none
  signaled : info.signaled = false

variable {m : Media} {dev : Dev} {env : Env} {rank : Bref → Nat}

theorem begin_inv (cb : Cbinfo) {info : Info} (hidle : Idle info) :
    Inv m dev env cb [] (info.begin cb) where
  recorded := ⟨[], fun _ hb => hb, rfl, fun _ => rfl⟩
  reached _ hb := absurd hb List.not_mem_nil
  dedup _ hi := by
    change hasData 0 = true at hi
    exact absurd hi (by decide)
  list s hs := by
    change s ∈ info.list at hs
    rw [hidle.list] at hs
    cases hs
  addrs s hs := by
    change s ∈ info.list at hs
    rw [hidle.list] at hs
    cases hs
  errors _ _ := by
    show fatal (noEof 0#32) = false
    decide

theorem refRange_congr {a b : Bref} (h : a.dataOff = b.dataOff) :
    refRange (snapRef a) = refRange (snapRef b) := by
  unfold refRange snapRef
  rw [h]

/-- The callback was given what can be reached and nothing else, and so says the map. -/
structure Mapped (m : Media) (dev : Dev) (base sstop : Nat) (cb : Cbinfo) (refs : List SnapRef) :
    Prop where
  recorded : bulkfreeScan dev (cbinfoBmapInit dev (base * segSize) sstop) refs = some cb
  seen : ∀ r, Seen refs r ↔ ReachedRange m r
  window : WindowSpec dev (ReachedRange m) base sstop cb

/-- At the end nothing was missed. -/
theorem Ran.window {base sstop room : Nat} {refs : List Bref} {error : Error} {info info' : Info}
    (hm : MediaOk m dev rank) (hstop : sstop % segSize = 0 ∨ sstop = dev.totalSize) (hidle : Idle info)
    (h : Ran m dev env rank (cbinfoBmapInit dev (base * segSize) sstop) []
      (info.begin (cbinfoBmapInit dev (base * segSize) sstop)) vchain room refs error info')
    (hlist : info'.list = []) (hf : fatal error = false) :
    Mapped m dev base sstop info'.cb (refs.map snapRef) := by
  have hclosed : Closed (kids m) (Opens m) Bref.dataOff refs [] := by
    have hend := h.closed hf [] (.nil _)
    rwa [Info.chains, hlist] at hend
  obtain ⟨done, -, hscan, hall⟩ := h.inv.recorded
  obtain rfl := hall ((h.signal hf).trans hidle.signaled)
  have hseen : ∀ r, Seen (done.map snapRef) r ↔ ReachedRange m r := by
    intro r
    constructor
    · rintro ⟨x, hx, hr⟩
      obtain ⟨b, hb, rfl⟩ := List.mem_map.mp hx
      exact ⟨b, h.inv.reached b hb, hr⟩
    · rintro ⟨b, hb, hr⟩
      obtain ⟨q, hq, hkey⟩ := hclosed.below hm.agree h.inv.reached (fun _ hb => hb)
        (h.opened hf (opens_vchain hm)) hb
      exact ⟨snapRef q, List.mem_map_of_mem hq, (refRange_congr hkey).trans hr⟩
  have hrefs : ∀ r ∈ done.map snapRef, RefOk dev r := by
    intro r hr
    obtain ⟨b, hb, rfl⟩ := List.mem_map.mp hr
    exact hm.refs b (h.inv.reached b hb)
  obtain ⟨cb, hcb, hspec⟩ := bulkfreeScan_spec hstop hrefs (cbinfoBmapInit_spec dev base sstop)
  obtain rfl := Option.some.inj (hscan.symm.trans hcb)
  refine ⟨hscan, hseen, hspec.sbase_eq, hspec.sstop_eq, fun n hn hu => ?_, hspec.reserved⟩
  refine (hspec.usable n hn hu).congr fun r _ => ?_
  rw [hseen r, or_false]

/-- What a window comes to when it begins without an error that stops it. -/
structure WindowEnd (m : Media) (dev : Dev) (env : Env) (base sstop : Nat) (r : Error × Info) : Prop where
  bits : noEof r.1 = r.1
  idle : fatal r.1 = false → Idle r.2
  mapped : fatal r.1 = false → ∃ refs, Mapped m dev base sstop r.2.cb refs
  calm : Calm m env → fatal r.1 = false

variable (env) in
theorem window_done (hm : MediaOk m dev rank) {base sstop : Nat}
    (hstop : sstop % segSize = 0 ∨ sstop = dev.totalSize) {info : Info} (hidle : Idle info)
    {error : Error} (hbits : noEof error = error) (herror : fatal error = false) :
    ∃ r, window m dev env (weight (kids m) rank vchain) error info
        (cbinfoBmapInit dev (base * segSize) sstop) = .done r ∧ WindowEnd m dev env base sstop r := by
  have hscan : Scans m dev env rank (cbinfoBmapInit dev (base * segSize) sstop)
      (weight (kids m) rank vchain) (scan m dev env (weight (kids m) rank vchain)) :=
    scan_spec hm (cbinfoBmapInit_spec dev base sstop) hstop _
  obtain ⟨e, info', refs, hdone, hran⟩ := hscan vchain [] (info.begin _) (.inl rfl)
    (begin_inv _ hidle) hidle.backout (Nat.le_refl _)
  obtain ⟨new, hq⟩ := hran.queue
  have htwo := @two_le_weight _ (kids m) rank vchain
  have hsmall := hq.room
  have hnone : (info.begin (cbinfoBmapInit dev (base * segSize) sstop)).list = [] := hidle.list
  obtain ⟨error', info'', refs', hdrain, hend, hempty, -⟩ := drain_spec hscan hnone (Nat.sub_le _ 2)
    (hran.also hbits herror) hq (by omega : _ < weight (kids m) rank vchain)
  refine ⟨(error', { info'' with
    list := []
    listCount := info''.listCount - info''.list.length
    backout := none }), ?_, hend.bits, fun hf => ⟨rfl, rfl, ?_⟩, fun hf => ⟨refs'.map snapRef, ?_⟩, hend.calm⟩
  · unfold window
    rw [hdone, Res.bind_done, hdrain, Res.bind_done]
  · exact (hend.signal hf).trans hidle.signaled
  · have hmapped := hend.window hm hstop hidle (hempty hf) hf
    exact hmapped

/-- The root inode of a PFS and a block of 16KB, both in the second 4MB of a device of 12MB. -/
def rootInode : Bref := ⟨.inode, 0, 1, 4194314, 0, 0, 0, 0⟩
def rootBlock : Bref := ⟨.data, 14, 0, 4210702, 0, 0, 0, 0⟩

def oneRef (b : Bref) : Node := ⟨⟨true, 0, 1, 0, 0, 0⟩, [b], [], 1, false⟩

def rootMedia : Media where
  load _ := .ok
  direct _ := false
  pfsRoot b := b.type = .inode
  node b := oneRef (if b.type = .volume then rootInode else rootBlock)

def rootDev : Dev := ⟨4194304, 12582912⟩

/-- Nothing is deferred, no signal comes, and no chain is in memory. -/
def quiet : Env := ⟨64, 1048576, fun _ => false, fun _ => false⟩

def depthOf (b : Bref) : Nat :=
  match b.type with
  | .volume => 2
  | .inode => 1
  | _ => 0

theorem oneRef_wf {b : Bref} (h : Ranged b) : Wf (oneRef b) [b] where
  table := by
    have hone : entries (oneRef b).base = [b] := by
      unfold oneRef entries Holes.live
      rw [List.filter_cons_of_pos (by rw [h.live]; rfl), List.filter_nil]
    refine ⟨rfl, ?_, fun x hx => ?_, Nat.le_refl 1, fun x hx => absurd hx List.not_mem_nil, fun _ => ⟨b, rfl, h.live⟩⟩
    · rw [hone]
      exact List.pairwise_singleton _ _
    · rw [hone] at hx
      obtain rfl := List.mem_singleton.mp hx
      exact h.le
  perm := by
    have hlive : (oneRef b).live = [b] := by
      unfold Node.live oneRef entries Holes.live
      rw [List.map_nil, List.nil_append, List.filter_cons_of_pos (by rw [h.live]; rfl), List.filter_nil,
        List.filter_cons_of_pos (by rfl), List.filter_nil]
    rw [hlive]
  order := List.pairwise_singleton _ _
  ranged x hx := by
    obtain rfl := List.mem_singleton.mp hx
    exact h
  sorted := .nil
  mapped c hc := absurd hc List.not_mem_nil
  same c hc := absurd hc List.not_mem_nil
  count := rfl

theorem rootInode_ranged : Ranged rootInode := ⟨rfl, by decide, by decide⟩
theorem rootBlock_ranged : Ranged rootBlock := ⟨rfl, by decide, by decide⟩

theorem rootMedia_reached {b : Bref} : Reached rootMedia b ↔ b = rootInode ∨ b = rootBlock := by
  have hvolume : kids rootMedia vchain = [rootInode] := by decide
  have hinode : kids rootMedia rootInode = [rootBlock] := by decide
  have htop : Reached rootMedia rootInode := .top (by rw [hvolume]; exact List.mem_singleton_self _)
  constructor
  · intro h
    induction h with
    | top hc =>
        rw [hvolume] at hc
        exact .inl (List.mem_singleton.mp hc)
    | down _ ho hc ih =>
        rcases ih with rfl | rfl
        · rw [hinode] at hc
          exact .inr (List.mem_singleton.mp hc)
        · cases ho.1
  · rintro (rfl | rfl)
    · exact htop
    · exact .down htop ⟨rfl, rfl⟩ (by rw [hinode]; exact List.mem_singleton_self _)

theorem rootMedia_ok : MediaOk rootMedia rootDev depthOf where
  snapshot := rfl
  tables p hp ho _ := by
    rcases hp with rfl | hp
    · exact ⟨[rootInode], oneRef_wf rootInode_ranged⟩
    · rcases rootMedia_reached.mp hp with rfl | rfl
      · exact ⟨[rootBlock], oneRef_wf rootBlock_ranged⟩
      · cases ho.1
  agree a b ha hb hkey ho := by
    rcases rootMedia_reached.mp ha with rfl | rfl
    · rcases rootMedia_reached.mp hb with rfl | rfl
      · exact ⟨ho, fun _ => Iff.rfl⟩
      · exact absurd hkey (by decide)
    · cases ho.1
  ranked p hp ho c hc := by
    rcases hp with rfl | hp
    · obtain rfl : c = rootInode := List.mem_singleton.mp hc
      decide
    · rcases rootMedia_reached.mp hp with rfl | rfl
      · obtain rfl : c = rootBlock := List.mem_singleton.mp hc
        decide
      · cases ho.1
  pfs _ _ _ := by rintro ⟨⟩
  refs b hb := by
    rcases rootMedia_reached.mp hb with rfl | rfl
    · exact .inr ⟨⟨by decide, by decide, by decide, by decide, by decide, by decide⟩, by decide⟩
    · exact .inr ⟨⟨by decide, by decide, by decide, by decide, by decide, by decide⟩, by decide⟩

theorem rootMedia_calm : Calm rootMedia quiet := ⟨fun _ => rfl, fun _ _ => by rintro ⟨⟩⟩

end Hammer2.Bulkfree
