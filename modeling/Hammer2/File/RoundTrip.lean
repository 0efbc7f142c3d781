/-
# `Hammer2.File.RoundTrip` — a written block reads back

When `writeFileCore` completes without an error the block reads back as what was
written, filled up with zeros, exactly under `WriteOk`
(`write_round_trip_iff`).  The condition is about a dedup hit: the write path has
cleared its data pointer and copies nothing, but `chainModify` and `chainResize`
decide for themselves whether the storage of the hit is taken (`Chain.honours`).
It also names the error of a deletion that `zero_write` drops, and the bytes of an
inode beyond its 512 embedded ones.
-/
import Hammer2.File.Write

namespace Hammer2.File

/-! ## The condition -/

/-- The chain as `newmod` sees it once its data is loaded. -/
def Chain.loaded (c : Chain) : Chain :=
  if c.data = false ∧ c.dataOff.base ≠ 0 then { c with initial := false } else c

/-- The chain takes the storage of a dedup hit for a block of `size` bytes: when the
size is right, if it needs new storage; else if it does so after the resize too. -/
def Chain.honours (emerg : Bool) (lsnap mtid : Nat) (c : Chain) (size : Nat) : Prop :=
  if c.bytes = size then c.dataOff.base = 0 ∨ newmod emerg lsnap c = true
  else if c.dataOff.base = 0 ∨ newmod emerg lsnap c.loaded = true then
    ¬ (emerg = true ∧ lsnap < if mtid = 0 then c.modifyTid else mtid)
  else c.dedupable = true

instance (emerg : Bool) (lsnap mtid : Nat) (c : Chain) (size : Nat) :
    Decidable (c.honours emerg lsnap mtid size) := by
  delta Chain.honours
  infer_instance

/-- A resize loads the data of the chain first, which zero-fills an `INITIAL` one. -/
def Chain.zeroFilled (c : Chain) (size : Nat) : Prop :=
  c.bytes ≠ size ∧ c.data = false ∧ c.dataOff.base ≠ 0 ∧ c.initial = true

/-- The memory when the write is done with a dedup hit. -/
def hitMem (h : Dev) (c : Chain) (size : Nat) : Nat → UInt8 :=
  if c.bytes ≠ size ∧ c.data = false ∧ c.dataOff.base ≠ 0 then h.loadedMem c else h.mem

/-- The storage the chain is left with: that of the hit, its own, or after a resize
the answer of the allocator. -/
def keptOff (h : Dev) (lsnap mtid : Nat) (c : Chain) (size : Nat) (hit : DataOff) :
    Option DataOff :=
  if c.honours h.emerg lsnap mtid size then some hit
  else if c.bytes = size then some c.dataOff
  else h.freemap.head?.join

/-- The condition for a dedup hit: the chain takes its storage, or what it is left
with reads as the data anyway. -/
def HitOk (t : Tools) (ip : Inode) (h : Dev) (c : Chain) (mtid comp : Nat) (bs data : Bytes)
    (hit : DataOff) : Prop :=
  (c.honours h.emerg ip.lsnapTid mtid bs.length ∧ ¬ c.zeroFilled bs.length) ∨
    ∃ kept, keptOff h ip.lsnapTid mtid c bs.length hit = some kept ∧
      decodeBlock t comp (Memory.read (hitMem h c bs.length) kept.base bs.length) pbufSize =
        some (padTo pbufSize data)

/-- The condition on a write. -/
def WriteOk (t : Tools) (ip : Inode) (f : Faults) (h : Dev) (chain : Option Chain) (data : Bytes)
    (mtid : Nat) : Prop :=
  match chain with
  | none => True
  | some c =>
      if c.type = .inode then
        makesHole ip data = true ∨ data.drop embeddedBytes = zeros (data.length - embeddedBytes)
      else if makesHole ip data = true then
        f.deleteError = 0 ∨ readBack t h (some c) pbufSize = some (zeros pbufSize)
      else ∀ comp bs hit h', stored t ip data = some (comp, bs) →
        dedupLookup t.toHashes h bs = some (some hit, h') → HitOk t ip h c mtid comp bs data hit

/-! ## Images decode -/

theorem length_padTo {n : Nat} {bs : Bytes} (h : bs.length ≤ n) : (padTo n bs).length = n := by
  rw [padTo, List.length_append, zeros, List.length_replicate]
  omega

theorem padTo_zeros {n k : Nat} (h : k ≤ n) : padTo n (zeros k) = zeros n := by
  unfold padTo zeros
  rw [List.length_replicate, List.replicate_append_replicate, Nat.add_sub_cancel' h]

theorem readLe32_le32 {n : Nat} (h : n < 4294967296) (bs : Bytes) :
    readLe32 (le32 n ++ bs) = n := by
  show (UInt8.ofNat n).toNat + (UInt8.ofNat (n / 256)).toNat * 256 +
    (UInt8.ofNat (n / 65536)).toNat * 65536 + (UInt8.ofNat (n / 16777216)).toNat * 16777216 = n
  simp only [UInt8.toNat_ofNat']
  omega

theorem compBlockSize_spec {n k : Nat} (h : compBlockSize n = some k) :
    n ≤ k ∧ ∃ r, radixMin ≤ r ∧ r ≤ radixMax ∧ k = 2 ^ r := by
  unfold compBlockSize at h
  split at h
  · obtain rfl := Option.some.inj h
    exact ⟨by assumption, 10, by decide⟩
  split at h
  · obtain rfl := Option.some.inj h
    exact ⟨by assumption, 11, by decide⟩
  split at h
  · obtain rfl := Option.some.inj h
    exact ⟨by assumption, 12, by decide⟩
  split at h
  · obtain rfl := Option.some.inj h
    exact ⟨by assumption, 13, by decide⟩
  split at h
  · obtain rfl := Option.some.inj h
    exact ⟨by assumption, 14, by decide⟩
  split at h
  · obtain rfl := Option.some.inj h
    exact ⟨by assumption, 15, by decide⟩
  · cases h

/-- What goes to the device: it decodes to the data, and has a size of the format. -/
structure ImageSpec (t : Tools) (comp : Nat) (bs data : Bytes) : Prop where
  decodes : decodeBlock t comp bs pbufSize = some (padTo pbufSize data)
  size : ∃ r, radixMin ≤ r ∧ r ≤ radixMax ∧ bs.length = 2 ^ r

theorem pow_le_pbuf {r : Nat} (h : r ≤ radixMax) : 2 ^ r ≤ pbufSize :=
  (Nat.pow_le_pow_right (by decide) h).trans (by decide)

theorem plain_spec {t : Tools} {data : Bytes} {r : Nat} (hr : radixMin ≤ r ∧ r ≤ radixMax)
    (hlen : data.length = 2 ^ r) : ImageSpec t compNone data data := by
  have hle := pow_le_pbuf hr.2
  refine ⟨?_, r, hr.1, hr.2, hlen⟩
  unfold decodeBlock
  rw [if_neg (by decide), if_neg (by decide), if_pos rfl, if_neg (by omega)]

theorem lz4_decodes {t : Tools} {data : Bytes} {lim n : Nat} (hlen : data.length ≤ 65536)
    (hlim : lim ≤ 65536) (hne : t.lz4.compress data lim ≠ [])
    (hn : (le32 (t.lz4.compress data lim).length ++ t.lz4.compress data lim).length ≤ n) :
    decodeBlock t compLz4
      (padTo n (le32 (t.lz4.compress data lim).length ++ t.lz4.compress data lim)) pbufSize =
        some (padTo pbufSize data) := by
  have hle := t.lz4.compress_le data lim
  have hinv := t.lz4.inverse data lim pbufSize hne hlen
  generalize t.lz4.compress data lim = c at *
  have hfour : (le32 c.length).length = 4 := rfl
  have hpad := length_padTo hn
  have hread : readLe32 (padTo n (le32 c.length ++ c)) = c.length := by
    rw [padTo, List.append_assoc]
    exact readLe32_le32 (by omega) _
  have hdrop : ((padTo n (le32 c.length ++ c)).drop 4).take c.length = c := by
    rw [padTo, List.append_assoc, List.drop_left' hfour, List.take_left' rfl]
  rw [List.length_append, hfour] at hn
  unfold decodeBlock
  rw [if_pos rfl, hread, hpad, if_neg (by omega), hdrop, hinv, Option.bind_some,
    if_neg (Nat.not_lt.mpr hlen)]

/-- What follows the stream is not read. -/
theorem zlib_decodes {t : Tools} {data : Bytes} {level lim n : Nat} (hlen : data.length ≤ 65536)
    (hne : t.zlib.deflate level data lim ≠ []) :
    decodeBlock t compZlib (padTo n (t.zlib.deflate level data lim)) pbufSize =
      some (padTo pbufSize data) := by
  unfold decodeBlock padTo
  rw [if_neg (by decide), if_pos rfl, t.zlib.inverse level data lim pbufSize _ hne hlen]
  exact if_neg (Nat.not_lt.mpr hlen)

/-- **A compressed image** decodes to the data. -/
theorem image_spec {t : Tools} {ip : Inode} {data bs : Bytes} {comp r : Nat}
    (hr : radixMin ≤ r ∧ r ≤ radixMax) (hlen : data.length = 2 ^ r)
    (hi : image t ip data = some (comp, bs)) : ImageSpec t comp bs data := by
  have hle : data.length ≤ 65536 := hlen ▸ pow_le_pbuf hr.2
  unfold image at hi
  simp only at hi
  split at hi
  · obtain ⟨rfl, rfl⟩ := Prod.mk.inj (Option.some.inj hi)
    exact plain_spec hr hlen
  · rename_i hne
    obtain ⟨n, hn, hi⟩ := Option.map_eq_some_iff.mp hi
    obtain ⟨rfl, rfl⟩ := Prod.mk.inj hi
    obtain ⟨hcn, r', hr', hr'', hpow⟩ := compBlockSize_spec hn
    refine ⟨?_, r', hr', hr'', by rw [length_padTo hcn]; exact hpow⟩
    unfold compressed at hne hcn ⊢
    split at hne
    · rename_i htry
      rw [if_pos htry] at hcn ⊢
      split at hne
      · rename_i hlz
        rw [if_pos hlz] at hcn ⊢
        simp only at hne hcn ⊢
        split at hne
        · exact absurd rfl hne
        · rename_i hc
          rw [if_neg hc] at hcn ⊢
          rw [hlz]
          exact lz4_decodes hle (by omega) hc hcn
      · rename_i hlz
        split at hne
        · rename_i hz
          rw [if_neg hlz, if_pos hz, hz]
          exact zlib_decodes hle hne
        · exact absurd rfl hne
    · exact absurd rfl hne

theorem stored_spec {t : Tools} {ip : Inode} {data bs : Bytes} {comp r : Nat}
    (hr : radixMin ≤ r ∧ r ≤ radixMax) (hlen : data.length = 2 ^ r)
    (hs : stored t ip data = some (comp, bs)) : ImageSpec t comp bs data := by
  unfold stored at hs
  split at hs
  · obtain ⟨rfl, rfl⟩ := Prod.mk.inj (Option.some.inj hs)
    exact plain_spec hr hlen
  · exact image_spec hr hlen hs

/-! ## Storage after a dedup hit -/

theorem getradix_pow {r : Nat} (h : radixMin ≤ r) : getradix (2 ^ r) = r := by
  have hmin : ¬ 2 ^ r < allocMin :=
    Nat.not_lt.mpr ((show allocMin = 2 ^ radixMin by decide) ▸ Nat.pow_le_pow_right (by decide) h)
  unfold getradix
  rw [if_neg hmin, Nat.clog_pow 2 r (by decide), Nat.max_eq_right h]

theorem bytes_pow {off : DataOff} {r : Nat} (hr : radixMin ≤ r) (h : off.radix = r) :
    off.bytes = 2 ^ r := by
  have hne : off.radix ≠ 0 := by
    intro hz
    rw [← h, hz] at hr
    exact absurd hr (by decide)
  unfold DataOff.bytes
  rw [if_neg hne, h]

/-- A hit cannot be put on a chain without a size: reading the block panics. -/
theorem modifyLoaded_hit_bytes {lsnap mtid : Nat} {h : Dev} {c : Chain} {off : DataOff}
    {optdata : Bool} {r : Nat × Chain × Dev} (htype : c.type = .data)
    (hm : modifyLoaded lsnap h c mtid (some off) optdata = some r) : c.bytes ≠ 0 := by
  intro hz
  have hstore : modifyStorage h { c with modified := true, update := true }
      (newmod h.emerg lsnap c) (some off) = some (0, { c with modified := true, update := true }, h) :=
    if_neg (fun hn => hn.1 hz)
  unfold modifyLoaded at hm
  rw [hstore] at hm
  simp only [Option.bind_some] at hm
  rw [if_neg (fun hne => hne rfl), if_neg (fun hn => nomatch hn.2.2.2)] at hm
  obtain ⟨⟨d, h₁⟩, hd, -⟩ := Option.map_eq_some_iff.mp hm
  unfold modifyData at hd
  simp only at hd
  rw [if_neg (fun hd => absurd (htype.symm.trans hd.1) (by decide))] at hd
  obtain ⟨⟨error, h₂⟩, hg, -⟩ := Option.bind_eq_some_iff.mp hd
  have hio : c.dataOff.radix ≠ 0 := (getblk_spec hg).ioOk.1
  have hzero : c.dataOff.bytes = 0 := hz
  unfold DataOff.bytes at hzero
  rw [if_neg hio] at hzero
  exact absurd hzero (Nat.pos_iff_ne_zero.mp (Nat.two_pow_pos _))

/-- **Modifying a chain of the right size for a hit.** -/
theorem chainModify_hit {p : Hashes} {lsnap mtid error : Nat} {h h' : Dev} {c c' : Chain}
    {off : DataOff} (htype : c.type = .data)
    (hm : chainModify p lsnap h c mtid (some off) true = some (error, c', h')) :
    HitModify lsnap h c mtid off h' c' := by
  unfold chainModify at hm
  rw [if_neg (fun hn => nomatch hn.2.2.1)] at hm
  exact modifyLoaded_hit htype (modifyLoaded_hit_bytes htype hm) hm

/-- The chain with its data loaded differs from the chain by `INITIAL` only. -/
theorem loaded_eq (c : Chain) : c.loaded = { c with initial := c.loaded.initial } := by
  unfold Chain.loaded
  split <;> rfl

/-- The memory once the data of the chain is loaded. -/
def Dev.memLoaded (h : Dev) (c : Chain) : Nat → UInt8 :=
  if c.data = false ∧ c.dataOff.base ≠ 0 then h.loadedMem c else h.mem

/-- **Modifying a chain for a hit, its data loaded first.** -/
theorem chainModify_hit_loaded {p : Hashes} {lsnap mtid : Nat} {h h' : Dev} {c c' : Chain}
    {off : DataOff} (htype : c.type = .data)
    (hm : chainModify p lsnap h c mtid (some off) false = some (0, c', h')) :
    HitModify lsnap { h with mem := h.memLoaded c } c.loaded mtid off h' c' := by
  unfold chainModify at hm
  unfold Dev.memLoaded
  split at hm
  · rename_i hneed
    have hyes : c.data = false ∧ c.dataOff.base ≠ 0 := ⟨hneed.1, hneed.2.2.2⟩
    have hloaded : c.loaded = { c with initial := false } := if_pos hyes
    obtain ⟨⟨l, h₀⟩, hl, hm⟩ := Option.bind_eq_some_iff.mp hm
    obtain ⟨hsame, -, -, hfree, hemerg, -, hdone⟩ := chainLoadData_spec hneed.1 hneed.2.2.2 hl
    simp only at hm
    split at hm
    · rename_i hne
      exact absurd (triple_inj (Option.some.inj hm)).1 hne
    · rename_i hne
      obtain ⟨hinit, -, hmem⟩ := hdone (Decidable.not_not.mp hne)
      have hltype : l.type = .data := hsame.type.trans htype
      have hhit := modifyLoaded_hit hltype (modifyLoaded_hit_bytes hltype hm) hm
      have hnew : newmod h.emerg lsnap c.loaded = newmod h₀.emerg lsnap l := by
        rw [hemerg, hloaded]
        unfold newmod
        rw [hsame.modified, hsame.dedupable, hsame.type, hsame.check, hsame.modifyTid, hinit]
      have hcond : c.loaded.dataOff.base = 0 ∨ newmod h.emerg lsnap c.loaded = true ↔
          l.dataOff.base = 0 ∨ newmod h₀.emerg lsnap l = true := by
        rw [hnew, hsame.dataOff, hloaded]
      rw [if_pos hyes]
      refine ⟨?_, hhit.mem.trans hmem, hhit.freemap.trans hfree, hhit.emerg.trans hemerg, ?_,
        hhit.initial, fun hy => hhit.honoured (hcond.mp hy), fun hn => ?_⟩
      · rw [hhit.type, hsame.type, hloaded]
      · rw [hhit.modifyTid, hsame.modifyTid, hloaded]
      · have hign := hhit.ignored (fun hy => hn (hcond.mpr hy))
        rw [hsame.dataOff, hsame.dedupable] at hign
        rw [hloaded]
        exact hign
  · rename_i hneed
    have hbytes := modifyLoaded_hit_bytes htype hm
    have hno : ¬ (c.data = false ∧ c.dataOff.base ≠ 0) :=
      fun hn => hneed ⟨hn.1, hbytes, rfl, hn.2⟩
    have hhit := modifyLoaded_hit htype hbytes hm
    have hloaded : c.loaded = c := if_neg hno
    rw [hloaded, if_neg hno]
    exact hhit

/-- What a resize for a hit leaves: the answer of the allocator, and the flags of the
first of its two modifications. -/
structure HitResize (lsnap : Nat) (h : Dev) (c : Chain) (mtid nradix : Nat) (h' : Dev)
    (c' : Chain) : Prop where
  answer : h.freemap.head?.join = some c'.dataOff
  radix : c'.dataOff.radix = nradix
  base : c'.dataOff.base ≠ 0
  type : c'.type = .data
  emerg : h'.emerg = h.emerg
  mem : h'.mem = h.memLoaded c
  modifyTid : c'.modifyTid = if mtid = 0 then c.modifyTid else mtid
  honoured : c.dataOff.base = 0 ∨ newmod h.emerg lsnap c.loaded = true →
    c'.modified = false ∧ c'.dedupable = true
  ignored : ¬ (c.dataOff.base = 0 ∨ newmod h.emerg lsnap c.loaded = true) →
    c'.modified = true ∧ c'.dedupable = c.dedupable

/-- **Resizing a chain for a hit.** -/
theorem chainResize_hit {p : Hashes} {lsnap mtid nradix : Nat} {h h' : Dev} {c c' : Chain}
    {off : DataOff} (htype : c.type = .data) (hsize : c.bytes ≠ 2 ^ nradix) (hr : nradix ≠ 0)
    (hm : chainResize p lsnap h c mtid (some off) nradix = some (0, c', h')) :
    HitResize lsnap h c mtid nradix h' c' := by
  unfold chainResize at hm
  rw [if_neg (fun hi => absurd (htype.symm.trans hi) (by decide)), if_neg hr, if_neg hsize] at hm
  obtain ⟨⟨e, d, h₁⟩, hmod, hm⟩ := Option.bind_eq_some_iff.mp hm
  simp only at hm
  split at hm
  · rename_i hne
    exact absurd (triple_inj (Option.some.inj hm)).1 hne
  · rename_i hne
    obtain rfl : e = 0 := Decidable.not_not.mp hne
    have hhit := chainModify_hit_loaded htype hmod
    have hfree : h₁.freemap = h.freemap := hhit.freemap
    have hoff : c.loaded.dataOff = c.dataOff := by rw [loaded_eq]
    obtain ⟨⟨e', d', h₂⟩, halloc, hm⟩ := Option.map_eq_some_iff.mp hm
    rcases freemapAlloc_spec halloc with ⟨he', -⟩ | ⟨rfl, answer, answers, hf, hra, hba, rfl, rfl⟩
    · simp only [if_pos he'] at hm
      exact absurd (triple_inj hm).1 he'
    · simp only [ne_eq, not_true_eq_false, if_false] at hm
      obtain ⟨-, rfl, rfl⟩ := triple_inj hm
      refine ⟨?_, hra, hba, ?_, ?_, ?_, ?_, fun hyes => ?_, fun hno => ?_⟩
      · rw [← hfree, hf]
        rfl
      · show d.type = .data
        rw [hhit.type, loaded_eq]
        exact htype
      · have hemerg : h₁.emerg = h.emerg := hhit.emerg
        rw [← hemerg]
        split <;> rfl
      · have hmem : h₁.mem = h.memLoaded c := hhit.mem
        rw [← hmem]
        split <;> rfl
      · show d.modifyTid = _
        rw [hhit.modifyTid, loaded_eq]
      · exact (hhit.honoured (by rw [hoff]; exact hyes)).2
      · have hign := (hhit.ignored (by rw [hoff]; exact hno)).2
        rw [loaded_eq] at hign
        exact hign

/-! ## Physical storage -/

/-- A data chain after `assignData`: without a hit it has the size of the block, with
one it holds the kept storage. -/
structure DataAssigned (t : Tools) (ip : Inode) (h : Dev) (c : Chain) (bs : Bytes) (mtid : Nat)
    (c' : Chain) (h' : Dev) (hit : Bool) : Prop where
  type : c'.type = .data
  size : c'.bytes = bs.length
  miss : hit = false → ∀ off h₁, dedupLookup t.toHashes h bs ≠ some (some off, h₁)
  taken : hit = true → ∃ off h₁, dedupLookup t.toHashes h bs = some (some off, h₁) ∧
    keptOff h ip.lsnapTid mtid c bs.length off = some c'.dataOff ∧ h'.mem = hitMem h c bs.length

/-- A resize without a hit gives the chain the new size. -/
theorem chainResize_plain {p : Hashes} {lsnap mtid nradix : Nat} {h h' : Dev} {c c' : Chain}
    (htype : c.type = .data) (hsize : c.bytes ≠ 2 ^ nradix) (hr : nradix ≠ 0)
    (hm : chainResize p lsnap h c mtid none nradix = some (0, c', h')) :
    c'.type = .data ∧ c'.dataOff.radix = nradix := by
  unfold chainResize at hm
  rw [if_neg (fun hi => absurd (htype.symm.trans hi) (by decide)), if_neg hr, if_neg hsize] at hm
  obtain ⟨⟨e, d, h₁⟩, hmod, hm⟩ := Option.bind_eq_some_iff.mp hm
  have hplain := chainModify_plain hmod
  simp only at hm
  split at hm
  · rename_i hne
    exact absurd (triple_inj (Option.some.inj hm)).1 hne
  · obtain ⟨⟨e', d', h₂⟩, halloc, hm⟩ := Option.map_eq_some_iff.mp hm
    rcases freemapAlloc_spec halloc with ⟨he', -⟩ | ⟨rfl, off, answers, -, hra, -, rfl, -⟩
    · simp only [if_pos he'] at hm
      exact absurd (triple_inj hm).1 he'
    · simp only [ne_eq, not_true_eq_false, if_false] at hm
      obtain ⟨-, rfl, -⟩ := triple_inj hm
      exact ⟨hplain.type.trans htype, hra⟩

/-- Without a hit. -/
theorem assignData_miss {t : Tools} {ip : Inode} {h h₁ : Dev} {c : Chain} {bs : Bytes}
    {mtid r errorp : Nat} {a : Assigned} (htype : c.type = .data) (hr : radixMin ≤ r)
    (hlen : bs.length = 2 ^ r) (hl : dedupLookup t.toHashes h bs = some (none, h₁))
    (ha : assignData t ip errorp h c bs mtid = some a) (he : a.errorp = 0) :
    ∃ c', a.chain = some c' ∧ DataAssigned t ip h c bs mtid c' a.dev a.hit := by
  have hmiss : ∀ off h₂, dedupLookup t.toHashes h bs ≠ some (some off, h₂) := by
    intro off h₂ hc
    rw [hl] at hc
    exact nomatch (Prod.mk.inj (Option.some.inj hc)).1
  unfold assignData at ha
  rw [hl] at ha
  simp only [Option.bind_some] at ha
  split at ha
  · rename_i hsz
    obtain ⟨⟨e, c', h₂⟩, hmod, rfl⟩ := Option.map_eq_some_iff.mp ha
    have hplain := chainModify_plain hmod
    refine ⟨c', rfl, hplain.type.trans htype, ?_, fun _ => hmiss, fun hb => nomatch hb⟩
    rw [← hsz]
    unfold Chain.bytes DataOff.bytes
    rw [hplain.radix]
  · rename_i hsz
    rw [hlen, getradix_pow hr] at ha
    obtain ⟨⟨e, d, h₂⟩, hres, ha⟩ := Option.bind_eq_some_iff.mp ha
    simp only at ha
    split at ha
    · rename_i hne
      obtain rfl := Option.some.inj ha
      exact absurd he hne
    · rename_i hne
      obtain rfl : e = 0 := (Nat.or_eq_zero_iff.mp (Decidable.not_not.mp hne)).2
      obtain ⟨⟨e', c', h₃⟩, hmod, rfl⟩ := Option.map_eq_some_iff.mp ha
      have hplain := chainModify_plain hmod
      obtain ⟨hdt, hdr⟩ := chainResize_plain htype (by rw [← hlen]; exact hsz)
        (fun hz => absurd (hz ▸ hr) (by decide)) hres
      refine ⟨c', rfl, hplain.type.trans hdt, ?_, fun _ => hmiss, fun hb => nomatch hb⟩
      rw [hlen]
      exact bytes_pow hr (hplain.radix.trans hdr)

/-- A hit for a chain of the right size. -/
theorem assignData_hit {t : Tools} {ip : Inode} {h h₁ : Dev} {c : Chain} {bs : Bytes}
    {mtid errorp : Nat} {a : Assigned} {off : DataOff} (htype : c.type = .data)
    (hsz : c.bytes = bs.length) (hl : dedupLookup t.toHashes h bs = some (some off, h₁))
    (ha : assignData t ip errorp h c bs mtid = some a) :
    ∃ c', a.chain = some c' ∧ DataAssigned t ip h c bs mtid c' a.dev a.hit := by
  obtain ⟨hsame, -, -, hhits⟩ := dedupLookup_spec hl
  unfold assignData at ha
  rw [hl] at ha
  simp only [Option.bind_some, if_pos hsz] at ha
  obtain ⟨⟨e, c', h₂⟩, hmod, rfl⟩ := Option.map_eq_some_iff.mp ha
  have hhit := chainModify_hit htype hmod
  have hcond : c.dataOff.base = 0 ∨ newmod h₁.emerg ip.lsnapTid c = true ↔
      c.honours h.emerg ip.lsnapTid mtid bs.length := by
    unfold Chain.honours
    rw [if_pos hsz, hsame.emerg]
  have hmem : h₂.mem = hitMem h c bs.length := by
    unfold hitMem
    rw [if_neg (fun hn => hn.1 hsz)]
    exact hhit.mem.trans hsame.mem
  by_cases hn : c.dataOff.base = 0 ∨ newmod h₁.emerg ip.lsnapTid c = true
  · obtain ⟨hoff, -⟩ := hhit.honoured hn
    refine ⟨c', rfl, hhit.type.trans htype, ?_, (fun hb => nomatch hb),
      fun _ => ⟨off, h₁, hl, ?_, hmem⟩⟩
    · show c'.dataOff.bytes = _
      rw [hoff]
      exact (hhits off rfl).size
    · unfold keptOff
      rw [if_pos (hcond.mp hn), hoff]
  · obtain ⟨hoff, -⟩ := hhit.ignored hn
    refine ⟨c', rfl, hhit.type.trans htype, ?_, (fun hb => nomatch hb),
      fun _ => ⟨off, h₁, hl, ?_, hmem⟩⟩
    · show c'.dataOff.bytes = _
      rw [hoff]
      exact hsz
    · unfold keptOff
      rw [if_neg (fun hy => hn (hcond.mpr hy)), if_pos hsz, hoff]

/-- After the resize the chain has storage, and its flags decide whether the second
modification takes that of the hit. -/
theorem HitResize.honours_iff {lsnap mtid nradix size : Nat} {h h' : Dev} {c d : Chain}
    (hres : HitResize lsnap h c mtid nradix h' d) (hsz : c.bytes ≠ size) :
    d.dataOff.base = 0 ∨ newmod h'.emerg lsnap d = true ↔ c.honours h.emerg lsnap mtid size := by
  unfold Chain.honours
  rw [if_neg hsz, hres.emerg]
  by_cases hfirst : c.dataOff.base = 0 ∨ newmod h.emerg lsnap c.loaded = true
  · obtain ⟨hmo, hde⟩ := hres.honoured hfirst
    rw [if_pos hfirst, ← hres.modifyTid]
    unfold newmod
    simp only [hmo, hde, hres.base, false_or]
    by_cases hem : h.emerg = true ∧ lsnap < d.modifyTid <;> simp [hem]
  · obtain ⟨hmo, hde⟩ := hres.ignored hfirst
    rw [if_neg hfirst]
    unfold newmod
    simp [hmo, hde, hres.base]

/-- A hit for a chain of another size. -/
theorem assignData_hit_resize {t : Tools} {ip : Inode} {h h₁ : Dev} {c : Chain} {bs : Bytes}
    {mtid r errorp : Nat} {a : Assigned} {off : DataOff} (htype : c.type = .data)
    (hr : radixMin ≤ r) (hlen : bs.length = 2 ^ r) (hsz : c.bytes ≠ bs.length)
    (hl : dedupLookup t.toHashes h bs = some (some off, h₁))
    (ha : assignData t ip errorp h c bs mtid = some a) (he : a.errorp = 0) :
    ∃ c', a.chain = some c' ∧ DataAssigned t ip h c bs mtid c' a.dev a.hit := by
  obtain ⟨hsame, -, -, hhits⟩ := dedupLookup_spec hl
  unfold assignData at ha
  rw [hl] at ha
  simp only [Option.bind_some, if_neg hsz] at ha
  rw [hlen, getradix_pow hr] at ha
  obtain ⟨⟨e, d, h₂⟩, hres, ha⟩ := Option.bind_eq_some_iff.mp ha
  simp only at ha
  split at ha
  · rename_i hne
    obtain rfl := Option.some.inj ha
    exact absurd he hne
  · rename_i hne
    obtain rfl : e = 0 := (Nat.or_eq_zero_iff.mp (Decidable.not_not.mp hne)).2
    obtain ⟨⟨e', c', h₃⟩, hmod, rfl⟩ := Option.map_eq_some_iff.mp ha
    have hresize := chainResize_hit htype (by rw [← hlen]; exact hsz)
      (fun hz => absurd (hz ▸ hr) (by decide)) hres
    have hhit := chainModify_hit hresize.type hmod
    have hcond := hresize.honours_iff hsz
    rw [hsame.emerg] at hcond
    have hmem : h₃.mem = hitMem h c bs.length := by
      have hload : h₁.loadedMem c = h.loadedMem c := by
        unfold Dev.loadedMem
        rw [hsame.mem]
      rw [hhit.mem, hresize.mem]
      unfold hitMem Dev.memLoaded
      rw [hload, hsame.mem]
      by_cases hload : c.data = false ∧ c.dataOff.base ≠ 0
      · rw [if_pos hload, if_pos ⟨hsz, hload⟩]
      · rw [if_neg hload, if_neg (fun hn => hload hn.2)]
    by_cases hn : d.dataOff.base = 0 ∨ newmod h₂.emerg ip.lsnapTid d = true
    · obtain ⟨hoff, -⟩ := hhit.honoured hn
      refine ⟨c', rfl, hhit.type.trans hresize.type, ?_, (fun hb => nomatch hb),
        fun _ => ⟨off, h₁, hl, ?_, hmem⟩⟩
      · show c'.dataOff.bytes = _
        rw [hoff]
        exact (hhits off rfl).size
      · unfold keptOff
        rw [if_pos (hcond.mp hn), hoff]
    · obtain ⟨hoff, -⟩ := hhit.ignored hn
      refine ⟨c', rfl, hhit.type.trans hresize.type, ?_, (fun hb => nomatch hb),
        fun _ => ⟨off, h₁, hl, ?_, hmem⟩⟩
      · show c'.dataOff.bytes = _
        rw [hoff, hlen]
        exact bytes_pow hr hresize.radix
      · unfold keptOff
        rw [if_neg (fun hy => hn (hcond.mpr hy)), if_neg hsz, hoff, ← hresize.answer,
          hsame.freemap]

/-- **Storage for a block that has a data chain.** -/
theorem assignData_spec {t : Tools} {ip : Inode} {h : Dev} {c : Chain} {bs : Bytes}
    {mtid r errorp : Nat} {a : Assigned} (htype : c.type = .data) (hr : radixMin ≤ r)
    (hlen : bs.length = 2 ^ r) (ha : assignData t ip errorp h c bs mtid = some a)
    (he : a.errorp = 0) :
    ∃ c', a.chain = some c' ∧ DataAssigned t ip h c bs mtid c' a.dev a.hit := by
  have hlook := ha
  unfold assignData at hlook
  obtain ⟨⟨hit, h₁⟩, hl, -⟩ := Option.bind_eq_some_iff.mp hlook
  cases hit with
  | none => exact assignData_miss htype hr hlen hl ha he
  | some off =>
      by_cases hsz : c.bytes = bs.length
      · exact assignData_hit htype hsz hl ha
      · exact assignData_hit_resize htype hr hlen hsz hl ha he

/-- **Storage for a block that has no chain**: a hit is always taken. -/
theorem assignPhysical_hole {t : Tools} {ip : Inode} {f : Faults} {h : Dev} {bs : Bytes}
    {mtid r : Nat} {a : Assigned} (hr : radixMin ≤ r) (hlen : bs.length = 2 ^ r)
    (ha : assignPhysical t ip f h none bs mtid = some a) (he : a.errorp = 0) :
    ∃ c', a.chain = some c' ∧ c'.type = .data ∧ c'.bytes = bs.length ∧
      (a.hit = true → a.dev.block c'.dataOff = bs) := by
  unfold assignPhysical at ha
  split at ha
  · cases ha
  · obtain ⟨⟨hit, h₁⟩, hl, ha⟩ := Option.bind_eq_some_iff.mp ha
    obtain ⟨hsame, -, -, hhits⟩ := dedupLookup_spec hl
    obtain ⟨⟨e, oc, h₂⟩, hc, rfl⟩ := Option.map_eq_some_iff.mp ha
    have he0 : e = 0 := (Nat.or_eq_zero_iff.mp he).2
    unfold chainCreate at hc
    split at hc
    · rename_i hne
      exact absurd (triple_inj (Option.some.inj hc)).1 (by rw [he0]; exact hne)
    · obtain ⟨⟨e', c', h₃⟩, hmod, hc⟩ := Option.map_eq_some_iff.mp hc
      obtain ⟨-, rfl, rfl⟩ := triple_inj hc
      rw [hlen, getradix_pow hr] at hmod
      cases hit with
      | none =>
          have hplain := chainModify_plain hmod
          refine ⟨c', rfl, hplain.type, ?_, fun hb => nomatch hb⟩
          rw [hlen]
          exact bytes_pow hr hplain.radix
      | some off =>
          have hhit := chainModify_hit rfl hmod
          obtain ⟨hoff, -⟩ := hhit.honoured (Or.inl rfl)
          have hspec := hhits off rfl
          refine ⟨c', rfl, hhit.type, ?_, fun _ => ?_⟩
          · show c'.dataOff.bytes = _
            rw [hoff]
            exact hspec.size
          · show Memory.read h₃.mem _ _ = bs
            rw [hoff, hhit.mem, hsame.mem]
            exact hspec.bytes

/-! ## The end of a write -/

theorem setcheck_spec {p : Hashes} {c c' : Chain} {bs : Bytes} (hs : setcheck p c bs = some c') :
    c' = { c with notTested := false, checkVal := c'.checkVal } := by
  unfold setcheck at hs
  split at hs
  · cases hs
  · rw [← Option.some.inj hs]

theorem finishDedup_spec {t : Tools} {ip : Inode} {c c' : Chain} {comp : Nat} {bs : Bytes}
    (hf : finishDedup t ip c comp bs = some c') :
    c'.type = c.type ∧ c'.comp = comp ∧ c'.dataOff = c.dataOff := by
  obtain ⟨d, hs, rfl⟩ := Option.map_eq_some_iff.mp hf
  have hd := setcheck_spec hs
  rw [hd]
  exact ⟨rfl, rfl, rfl⟩

theorem writeData_spec {t : Tools} {ip : Inode} {h h' : Dev} {c c' : Chain} {comp : Nat}
    {bs : Bytes} (hsize : c.bytes = bs.length)
    (hw : writeData t ip h c comp bs = some (0, c', h')) :
    c'.type = c.type ∧ c'.comp = comp ∧ h'.block c'.dataOff = bs := by
  unfold writeData at hw
  obtain ⟨⟨e, h₁⟩, -, hw⟩ := Option.bind_eq_some_iff.mp hw
  simp only at hw
  split at hw
  · rename_i hne
    exact absurd (triple_inj (Option.some.inj hw)).1 hne
  · obtain ⟨d, hs, hw⟩ := Option.map_eq_some_iff.mp hw
    have hd := setcheck_spec hs
    obtain ⟨-, rfl, rfl⟩ := triple_inj hw
    obtain ⟨hsame, hkeep⟩ := dedupRecord_spec t.toHashes
      (h₁.store c.dataOff (bs.take c.bytes)) { d with initial := false }
      ((h₁.store c.dataOff (bs.take c.bytes)).block d.dataOff)
    have htake : bs.take c.bytes = bs := List.take_of_length_le (Nat.le_of_eq hsize.symm)
    rw [htake] at hsame hkeep ⊢
    have hblock : (dedupRecord t.toHashes (h₁.store c.dataOff bs) { d with initial := false }
        ((h₁.store c.dataOff bs).block d.dataOff)).2.block c.dataOff = bs :=
      (hsame.block_eq c.dataOff).trans (store_block h₁ c.dataOff hsize.symm)
    have hoff : d.dataOff = c.dataOff := by rw [hd]
    rw [hkeep]
    refine ⟨by rw [hd], by rw [hd], ?_⟩
    show Dev.block _ d.dataOff = bs
    rw [hoff] at hblock ⊢
    exact hblock

/-- What the write leaves of the chain it was assigned: after a hit the storage is
untouched, else it holds the bytes. -/
structure Finished (c : Chain) (h : Dev) (hit : Bool) (comp : Nat) (bs : Bytes) (c' : Chain)
    (h' : Dev) : Prop where
  type : c'.type = .data
  comp : c'.comp = comp
  taken : hit = true → c'.dataOff = c.dataOff ∧ h'.mem = h.mem
  copied : hit = false → h'.block c'.dataOff = bs

theorem finished_hit {t : Tools} {ip : Inode} {c c' : Chain} {comp : Nat} {bs : Bytes} (h : Dev)
    (htype : c.type = .data) (hf : finishDedup t ip c comp bs = some c') :
    Finished c h true comp bs c' h := by
  obtain ⟨h1, h2, h3⟩ := finishDedup_spec hf
  exact ⟨h1.trans htype, h2, fun _ => ⟨h3, rfl⟩, fun hm => nomatch hm⟩

theorem finished_miss {t : Tools} {ip : Inode} {h h' : Dev} {c c' : Chain} {comp : Nat}
    {bs : Bytes} (htype : c.type = .data) (hsize : c.bytes = bs.length)
    (hw : writeData t ip h c comp bs = some (0, c', h')) : Finished c h false comp bs c' h' := by
  obtain ⟨h1, h2, h3⟩ := writeData_spec hsize hw
  exact ⟨h1.trans htype, h2, by rintro ⟨⟩, fun _ => h3⟩

/-- **Every path to a data chain** assigns storage for the stored bytes and finishes
them. -/
theorem write_data_path {t : Tools} {ip : Inode} {f : Faults} {h : Dev} {chain : Option Chain}
    {data : Bytes} {mtid : Nat} {w : Written} (hno : makesHole ip data = false)
    (hdata : ∀ bs a, assignPhysical t ip f h chain bs mtid = some a → a.errorp = 0 →
      (∃ comp, stored t ip data = some (comp, bs)) →
      ∃ c, a.chain = some c ∧ c.type = .data ∧ c.bytes = bs.length)
    (hw : writeFileCore t ip f h chain data mtid = some w) (he : w.errorp = 0) :
    ∃ comp bs a c c', stored t ip data = some (comp, bs) ∧
      assignPhysical t ip f h chain bs mtid = some a ∧ a.errorp = 0 ∧ a.chain = some c ∧
      w.chain = some c' ∧ Finished c a.dev a.hit comp bs c' w.dev := by
  -- The chain of the assignment is not an inode.
  have hnot : ∀ {comp bs a c}, stored t ip data = some (comp, bs) →
      assignPhysical t ip f h chain bs mtid = some a → a.errorp = 0 → a.chain = some c →
      c.type = .data ∧ c.bytes = bs.length := by
    intro comp bs a c hst ha hae hc
    obtain ⟨c', hc', htype, hsize⟩ := hdata bs a ha hae ⟨comp, hst⟩
    obtain rfl := Option.some.inj (hc.symm.trans hc')
    exact ⟨htype, hsize⟩
  cases writeFileCore_path hw with
  | hole hhole _ => exact absurd (hno.symm.trans hhole) (by decide)
  | failed _ _ _ hne => exact absurd he hne
  | embedded _ hst ha hae hc htype _ =>
      exact absurd ((hnot hst ha hae hc).1.symm.trans htype) (by decide)
  | modified _ hst ha hae hc htype _ _ _ _ =>
      exact absurd ((hnot hst ha hae hc).1.symm.trans htype) (by decide)
  | shared _ hst ha hae hc hhit hfin =>
      refine ⟨_, _, _, _, _, hst, ha, hae, hc, rfl, ?_⟩
      rw [hhit]
      exact finished_hit _ (hnot hst ha hae hc).1 hfin
  | copied _ hst ha hae hc hmiss htype _ hd =>
      obtain rfl := he
      refine ⟨_, _, _, _, _, hst, ha, hae, hc, rfl, ?_⟩
      rw [hmiss]
      exact finished_miss htype (hnot hst ha hae hc).2 hd

/-! ## Embedded data and holes -/

theorem embed_spec {h h' : Dev} {c : Chain} {bs : Bytes} (hlen : embeddedBytes ≤ bs.length)
    (he : h.embed c bs = some h') :
    Memory.read h'.mem (c.dataOff.base + embeddedOff) embeddedBytes = bs.take embeddedBytes := by
  unfold Dev.embed at he
  split at he
  · obtain rfl := Option.some.inj he
    have htake : (bs.take embeddedBytes).length = embeddedBytes := by
      rw [List.length_take]
      omega
    have hread := Memory.read_write h.mem (c.dataOff.base + embeddedOff) (bs.take embeddedBytes)
    rw [htake] at hread
    exact hread
  · cases he

theorem testBlockZeros_eq {bs : Bytes} (hz : testBlockZeros bs = true) : bs = zeros bs.length := by
  refine List.eq_replicate_iff.mpr ⟨rfl, fun b hb => ?_⟩
  have hb := List.all_eq_true.mp hz b hb
  exact of_decide_eq_true hb

/-- The embedded bytes are all there is exactly when the others are zeros. -/
theorem embedded_iff {data : Bytes} (hlo : embeddedBytes ≤ data.length)
    (hhi : data.length ≤ pbufSize) :
    padTo pbufSize (data.take embeddedBytes) = padTo pbufSize data ↔
      data.drop embeddedBytes = zeros (data.length - embeddedBytes) := by
  have htake : (data.take embeddedBytes).length = embeddedBytes := by
    rw [List.length_take]
    omega
  have hsplit : zeros (pbufSize - embeddedBytes) =
      zeros (data.length - embeddedBytes) ++ zeros (pbufSize - data.length) := by
    unfold zeros
    rw [List.replicate_append_replicate]
    congr 1
    omega
  have hdata : padTo pbufSize data =
      data.take embeddedBytes ++ (data.drop embeddedBytes ++ zeros (pbufSize - data.length)) := by
    rw [← List.append_assoc, List.take_append_drop]
    rfl
  rw [hdata, padTo, htake, hsplit, List.append_cancel_left_eq]
  constructor
  · intro h
    exact (List.append_cancel_right h).symm
  · intro h
    rw [h]

/-- **Every path to an inode** embeds the first bytes. -/
theorem write_inode_path {t : Tools} {ip : Inode} {f : Faults} {h : Dev} {c : Chain} {data : Bytes}
    {mtid : Nat} {w : Written} (htype : c.type = .inode) (hno : makesHole ip data = false)
    (hlen : embeddedBytes ≤ data.length)
    (hw : writeFileCore t ip f h (some c) data mtid = some w) (he : w.errorp = 0) :
    readBack t w.dev w.chain pbufSize = some (padTo pbufSize (data.take embeddedBytes)) := by
  -- What `hammer2_assign_physical` leaves of an inode.
  have hassign : ∀ bs a, assignPhysical t ip f h (some c) bs mtid = some a → a.errorp = 0 →
      ∃ c', a.chain = some c' ∧ c'.type = .inode ∧ a.hit = false := by
    intro bs a ha hae
    unfold assignPhysical at ha
    split at ha
    · cases ha
    · simp only at ha
      split at ha
      · rename_i hne
        obtain rfl := Option.some.inj ha
        exact absurd hae hne
      · simp only [htype] at ha
        obtain ⟨⟨e, c', h'⟩, hmod, rfl⟩ := Option.map_eq_some_iff.mp ha
        exact ⟨c', rfl, (chainModify_plain hmod).type.trans htype, rfl⟩
  have hread : ∀ (c' : Chain) (h' h'' : Dev), c'.type = .inode → h'.embed c' data = some h'' →
      readBack t h'' (some c') pbufSize = some (padTo pbufSize (data.take embeddedBytes)) := by
    intro c' h' h'' ht hem
    unfold readBack
    simp only [ht]
    rw [embed_spec hlen hem]
  cases writeFileCore_path hw with
  | hole hhole _ => exact absurd (hno.symm.trans hhole) (by decide)
  | failed _ _ _ hne => exact absurd he hne
  | embedded _ _ _ _ _ ht hem => exact hread _ _ _ ht hem
  | modified _ _ _ _ _ ht hm herr hchain hdev =>
      rw [if_neg (fun hne => hne (herr ▸ he))] at hdev
      rw [hchain]
      exact hread _ _ _ ((chainModify_plain hm).type.trans ht) hdev
  | shared _ _ ha hae hc hhit _ =>
      obtain ⟨-, -, -, hmiss⟩ := hassign _ _ ha hae
      exact absurd (hhit.symm.trans hmiss) (by decide)
  | copied _ _ ha hae hc _ htype' _ _ =>
      obtain ⟨c', hc', ht, -⟩ := hassign _ _ ha hae
      obtain rfl := Option.some.inj (hc.symm.trans hc')
      exact absurd (htype'.symm.trans ht) (by decide)

/-- **A write that makes a hole** is `zero_write`. -/
theorem write_hole_path {t : Tools} {ip : Inode} {f : Faults} {h : Dev} {chain : Option Chain}
    {data : Bytes} {mtid : Nat} {w : Written} (hyes : makesHole ip data = true)
    (hw : writeFileCore t ip f h chain data mtid = some w) :
    zeroWrite t ip f h chain mtid = some w := by
  cases writeFileCore_path hw with
  | hole _ hzero => exact hzero
  | failed hno _ _ _ => exact absurd (hno.symm.trans hyes) (by decide)
  | embedded hno _ _ _ _ _ _ => exact absurd (hno.symm.trans hyes) (by decide)
  | modified hno _ _ _ _ _ _ _ _ _ => exact absurd (hno.symm.trans hyes) (by decide)
  | shared hno _ _ _ _ _ _ => exact absurd (hno.symm.trans hyes) (by decide)
  | copied hno _ _ _ _ _ _ _ _ => exact absurd (hno.symm.trans hyes) (by decide)

/-- What `zero_write` leaves reads as zeros: the chain is gone, or is an inode, or
was not deleted and held zeros before. -/
theorem zeroWrite_reads {t : Tools} {ip : Inode} {f : Faults} {h : Dev} {chain : Option Chain}
    {mtid : Nat} {w : Written} (hw : zeroWrite t ip f h chain mtid = some w) (he : w.errorp = 0) :
    readBack t w.dev w.chain pbufSize = some (zeros pbufSize) ↔
      ∀ c, chain = some c → c.type ≠ .inode →
        f.deleteError = 0 ∨ readBack t h (some c) pbufSize = some (zeros pbufSize) := by
  unfold zeroWrite at hw
  split at hw
  · obtain rfl := Option.some.inj hw
    exact ⟨fun _ _ hc => (nomatch hc), fun _ => rfl⟩
  · rename_i c
    split at hw
    · rename_i htype
      refine ⟨fun _ c' hc' hne => absurd (Option.some.inj hc' ▸ htype) hne, fun _ => ?_⟩
      split at hw
      · rename_i hne
        obtain rfl := Option.some.inj hw
        exact absurd he hne
      · obtain ⟨⟨e, d, h₁⟩, hmod, hw⟩ := Option.bind_eq_some_iff.mp hw
        simp only at hw
        split at hw
        · rename_i hne
          obtain rfl := Option.some.inj hw
          exact absurd he hne
        · obtain ⟨h', hem, rfl⟩ := Option.map_eq_some_iff.mp hw
          unfold readBack
          simp only [(chainModify_plain hmod).type.trans htype]
          rw [embed_spec (Nat.le_of_eq (List.length_replicate ..).symm) hem, zeros, List.take_replicate]
          exact congrArg some (padTo_zeros (by decide))
    · rename_i htype
      obtain rfl := Option.some.inj hw
      by_cases hdel : f.deleteError = 0
      · simp only [if_pos hdel]
        exact ⟨fun _ _ _ _ => Or.inl hdel, fun _ => rfl⟩
      · simp only [if_neg hdel]
        constructor
        · intro hread c' hc' _
          obtain rfl := Option.some.inj hc'
          exact Or.inr hread
        · intro hok
          exact (hok c rfl htype).resolve_left hdel

/-! ## The round trip -/

/-- What a finished data chain reads as. -/
theorem Finished.reads {t : Tools} {c c' : Chain} {h h' : Dev} {hit : Bool} {comp : Nat} {bs : Bytes}
    (hf : Finished c h hit comp bs c' h') :
    readBack t h' (some c') pbufSize = decodeBlock t comp (h'.block c'.dataOff) pbufSize := by
  unfold readBack
  simp only [hf.type, hf.comp]

/-- The condition for a hit says what the storage the chain is left with decodes to. -/
theorem hitOk_iff {t : Tools} {ip : Inode} {h : Dev} {c : Chain} {mtid comp : Nat} {bs data : Bytes}
    {off kept : DataOff} (himage : ImageSpec t comp bs data) (hspec : HitSpec h bs off)
    (hkept : keptOff h ip.lsnapTid mtid c bs.length off = some kept) :
    HitOk t ip h c mtid comp bs data off ↔
      decodeBlock t comp (Memory.read (hitMem h c bs.length) kept.base bs.length) pbufSize =
        some (padTo pbufSize data) := by
  constructor
  · rintro (⟨hhon, hzf⟩ | ⟨kept', hk, hdec⟩)
    · -- The hit is taken, and its bytes are still there.
      have hk : some off = some kept := by
        rw [← hkept]
        exact (if_pos hhon).symm
      have hmem₀ : hitMem h c bs.length = h.mem := by
        unfold hitMem
        split
        · rename_i hload
          exact if_neg fun hi => hzf ⟨hload.1, hload.2.1, hload.2.2, hi⟩
        · rfl
      have hbytes : Memory.read h.mem off.base off.bytes = bs := hspec.bytes
      rw [hmem₀, ← Option.some.inj hk, ← hspec.size, hbytes]
      exact himage.decodes
    · rw [hkept] at hk
      rw [Option.some.inj hk]
      exact hdec
  · exact fun hdec => Or.inr ⟨kept, hkept, hdec⟩

/-- The sizes `hammer2_calc_physical` returns: none for a block beyond the end of the
file, else a size of the format. -/
def BlockSize (n : Nat) : Prop := n = 0 ∨ ∃ r, radixMin ≤ r ∧ r ≤ radixMax ∧ n = 2 ^ r

/-- A block of no bytes is only ever a hole: it cannot be assigned storage. -/
theorem write_empty {t : Tools} {ip : Inode} {f : Faults} {h : Dev} {chain : Option Chain}
    {mtid : Nat} (hno : makesHole ip [] = false) :
    writeFileCore t ip f h chain [] mtid = none := by
  have himage : image t ip [] = some (compNone, []) := by
    have hlz : t.lz4.compress [] 0 = [] :=
      List.length_eq_zero_iff.mp (Nat.le_zero.mp (t.lz4.compress_le [] 0))
    have hzl : t.zlib.deflate (compLevel ip.compAlgo) [] 0 = [] :=
      List.length_eq_zero_iff.mp (Nat.le_zero.mp (t.zlib.deflate_le _ [] 0))
    have hcomp : compressed t ip [] = [] := by
      unfold compressed
      simp [hlz, hzl]
    unfold image
    rw [hcomp]
    rfl
  have hassign : ∀ {comp bs a}, stored t ip [] = some (comp, bs) →
      assignPhysical t ip f h chain bs mtid = some a → False := by
    intro comp bs a hst ha
    have hbs : bs = [] := by
      unfold stored at hst
      split at hst
      · exact (Prod.mk.inj (Option.some.inj hst)).2.symm
      · rw [himage] at hst
        exact (Prod.mk.inj (Option.some.inj hst)).2.symm
    rw [hbs, show assignPhysical t ip f h chain [] mtid = none from rfl] at ha
    cases ha
  cases hw : writeFileCore t ip f h chain [] mtid with
  | none => rfl
  | some w =>
      exfalso
      cases writeFileCore_path hw with
      | hole hhole _ => exact absurd (hno.symm.trans hhole) (by decide)
      | failed _ hst ha _ => exact hassign hst ha
      | embedded _ hst ha _ _ _ _ => exact hassign hst ha
      | modified _ hst ha _ _ _ _ _ _ _ => exact hassign hst ha
      | shared _ hst ha _ _ _ _ => exact hassign hst ha
      | copied _ hst ha _ _ _ _ _ _ => exact hassign hst ha

/-- **The round trip of a file block.**  A write that completes without an error
reads back as the data, filled up with zeros, exactly under `WriteOk`. -/
theorem write_round_trip_iff {t : Tools} {ip : Inode} {f : Faults} {h : Dev}
    {chain : Option Chain} {data : Bytes} {mtid : Nat} {w : Written}
    (hsize : BlockSize data.length)
    (hw : writeFileCore t ip f h chain data mtid = some w) (he : w.errorp = 0) :
    readBack t w.dev w.chain pbufSize = some (padTo pbufSize data) ↔
      WriteOk t ip f h chain data mtid := by
  have hhi : data.length ≤ pbufSize := by
    rcases hsize with hz | ⟨r, -, hr, hlen⟩
    · rw [hz]
      exact Nat.zero_le _
    · exact hlen ▸ pow_le_pbuf hr
  cases hhole : makesHole ip data with
  | true =>
      -- A hole.
      have hdata : padTo pbufSize data = zeros pbufSize := by
        rw [testBlockZeros_eq (Bool.and_eq_true_iff.mp hhole).2]
        exact padTo_zeros hhi
      rw [hdata, zeroWrite_reads (write_hole_path hhole hw) he]
      unfold WriteOk
      cases chain with
      | none => exact ⟨fun _ => trivial, fun _ _ hc => (nomatch hc)⟩
      | some c =>
          simp only
          by_cases htype : c.type = .inode
          · rw [if_pos htype]
            exact ⟨fun _ => Or.inl hhole, fun _ c' hc' hne => absurd (Option.some.inj hc' ▸ htype) hne⟩
          · rw [if_neg htype, if_pos hhole]
            constructor
            · exact fun hok => hok c rfl htype
            · intro hok c' hc' _
              rw [← Option.some.inj hc']
              exact hok
  | false =>
      obtain ⟨r, hr, hlen⟩ : ∃ r, (radixMin ≤ r ∧ r ≤ radixMax) ∧ data.length = 2 ^ r := by
        rcases hsize with hz | ⟨r, hr, hr', hlen⟩
        · obtain rfl := List.length_eq_zero_iff.mp hz
          rw [write_empty hhole] at hw
          cases hw
        · exact ⟨r, ⟨hr, hr'⟩, hlen⟩
      have hlo : embeddedBytes ≤ data.length := by
        rw [hlen]
        exact Nat.le_trans (by decide) (Nat.pow_le_pow_right (by decide) hr.1)
      cases chain with
      | none =>
          -- No chain: it gets new storage, or that of the hit.
          refine ⟨fun _ => trivial, fun _ => ?_⟩
          obtain ⟨comp, bs, a, c, c', hst, ha, hae, hc, hwc, hfin⟩ :=
            write_data_path hhole (fun bs a ha hae hst => by
              obtain ⟨comp, hst⟩ := hst
              obtain ⟨r', hr', -, hlen'⟩ := (stored_spec hr hlen hst).size
              obtain ⟨c, hc, ht, hs, -⟩ := assignPhysical_hole hr' hlen' ha hae
              exact ⟨c, hc, ht, hs⟩) hw he
          have himage := stored_spec hr hlen hst
          obtain ⟨r', hr', -, hlen'⟩ := himage.size
          obtain ⟨c₁, hc₁, -, -, hhit⟩ := assignPhysical_hole hr' hlen' ha hae
          rw [hc] at hc₁
          obtain rfl := Option.some.inj hc₁
          rw [hwc, hfin.reads]
          have hblock : w.dev.block c'.dataOff = bs := by
            cases hb : a.hit with
            | false => exact hfin.copied hb
            | true =>
                obtain ⟨hoff, hmem⟩ := hfin.taken hb
                rw [← hhit hb, hoff]
                unfold Dev.block
                rw [hmem]
          rw [hblock]
          exact himage.decodes
      | some c₀ =>
          unfold WriteOk
          simp only
          by_cases htype : c₀.type = .inode
          · -- Embedded.
            rw [if_pos htype, write_inode_path htype hhole hlo hw he, Option.some_inj,
              embedded_iff hlo hhi, hhole]
            simp
          · rw [if_neg htype, if_neg (by rw [hhole]; decide)]
            -- A data chain.
            have hassign : ∀ bs a, assignPhysical t ip f h (some c₀) bs mtid = some a →
                a.errorp = 0 → (∃ comp, stored t ip data = some (comp, bs)) →
                ∃ c, a.chain = some c ∧ DataAssigned t ip h c₀ bs mtid c a.dev a.hit := by
              intro bs a ha hae hst
              obtain ⟨comp, hst⟩ := hst
              obtain ⟨r', hr', -, hlen'⟩ := (stored_spec hr hlen hst).size
              unfold assignPhysical at ha
              split at ha
              · cases ha
              · simp only at ha
                split at ha
                · rename_i hne
                  obtain rfl := Option.some.inj ha
                  exact absurd hae hne
                · cases ht : c₀.type with
                  | inode => exact absurd ht htype
                  | data =>
                      simp only [ht] at ha
                      exact assignData_spec ht hr' hlen' ha hae
                  | indirect => simp [ht] at ha
                  | dirent => simp [ht] at ha
            obtain ⟨comp, bs, a, c, c', hst, ha, hae, hc, hwc, hfin⟩ :=
              write_data_path hhole (fun bs a ha hae hst => by
                obtain ⟨c, hc, hd⟩ := hassign bs a ha hae hst
                exact ⟨c, hc, hd.type, hd.size⟩) hw he
            have himage := stored_spec hr hlen hst
            obtain ⟨c₁, hc₁, hd⟩ := hassign bs a ha hae ⟨comp, hst⟩
            rw [hc] at hc₁
            obtain rfl := Option.some.inj hc₁
            rw [hwc, hfin.reads]
            cases hb : a.hit with
            | false =>
                rw [hfin.copied hb]
                refine ⟨fun _ comp' bs' off h₁ hst' hl => ?_, fun _ => himage.decodes⟩
                rw [hst] at hst'
                obtain ⟨rfl, rfl⟩ := Prod.mk.inj (Option.some.inj hst')
                exact absurd hl (hd.miss hb off h₁)
            | true =>
                obtain ⟨off, h₁, hl, hkept, hmem⟩ := hd.taken hb
                obtain ⟨hoff, hmem'⟩ := hfin.taken hb
                have hsize : c.dataOff.bytes = bs.length := hd.size
                have hblock : w.dev.block c'.dataOff =
                    Memory.read (hitMem h c₀ bs.length) c.dataOff.base bs.length := by
                  unfold Dev.block
                  rw [hoff, hmem', hmem, hsize]
                rw [hblock]
                rw [← hitOk_iff himage ((dedupLookup_spec hl).2.2.2 off rfl) hkept]
                constructor
                · intro hok comp' bs' off' h₁' hst' hl'
                  rw [hst] at hst'
                  obtain ⟨rfl, rfl⟩ := Prod.mk.inj (Option.some.inj hst')
                  rw [hl] at hl'
                  obtain ⟨hoff', -⟩ := Prod.mk.inj (Option.some.inj hl')
                  rw [← Option.some.inj hoff']
                  exact hok
                · exact fun hok => hok comp bs off h₁ hst hl

/-! ## Two writes of the same bytes -/

/-- Codecs that never compress, and a hash that is the first byte. -/
def plainTools : Tools where
  xxh64 := fun bs => (bs.headD 0).toNat
  icrc32 := fun _ => 0
  sha192 := fun _ => 0
  lz4 := ⟨fun _ _ => [], fun _ _ => none, fun _ _ => Nat.zero_le _, fun _ _ _ h _ => absurd rfl h⟩
  zlib := ⟨fun _ _ _ => [], fun _ _ => none, fun _ _ _ => Nat.zero_le _,
    fun _ _ _ _ _ h _ => absurd rfl h⟩
  alwaysCompress := false

def noFaults : Faults := ⟨0, 0, 0⟩

def ones : Bytes := List.replicate 1024 1

/-- A device with a block of ones at 8MB that is recorded for dedup. -/
def recordedDev : Dev where
  mem := fun a => if 8388608 ≤ a ∧ a < 8389632 then 1 else 0
  bad := fun _ => false
  dio := fun _ => true
  freemap := [some ⟨8391680, 10⟩]
  mirrorTid := 3
  emerg := false
  dedupEnable := true
  heurDedup := fun i => if i = 0 then ⟨⟨8388608, 10⟩, 1, 0⟩ else ⟨⟨0, 0⟩, 0, 0⟩
  dedupAlloc := fun u => decide (u = 8192)
  dedupValid := fun u => decide (u = 8192)
  ticks := 100
  hz := 100

/-- A chain of a block of zeros behind it, flushed after the last snapshot. -/
def flushedChain (check : Nat) : Chain :=
  { Chain.fresh check 10 with
    dataOff := ⟨8389632, 10⟩, modifyTid := 4, initial := false, blkmapped := true }

set_option maxRecDepth 20000 in
/-- With a check code the chain takes the storage of the hit. -/
theorem write_round_trip_taken :
    ∃ w, writeFileCore plainTools ⟨checkXxhash64, compNone, 0, 2⟩ noFaults recordedDev
        (some (flushedChain checkXxhash64)) ones 5 = some w ∧
      readBack plainTools w.dev w.chain pbufSize = some (padTo pbufSize ones) := by
  obtain ⟨w, hw⟩ := Option.isSome_iff_exists.mp
    (show (writeFileCore plainTools ⟨checkXxhash64, compNone, 0, 2⟩ noFaults recordedDev
      (some (flushedChain checkXxhash64)) ones 5).isSome = true by decide)
  have he : (writeFileCore plainTools ⟨checkXxhash64, compNone, 0, 2⟩ noFaults recordedDev
      (some (flushedChain checkXxhash64)) ones 5).map Written.errorp = some 0 := by
    decide
  rw [hw] at he
  have hlen : ones.length = 2 ^ 10 := List.length_replicate
  refine ⟨w, hw, (write_round_trip_iff (Or.inr ⟨10, by decide, by decide, hlen⟩) hw
    (Option.some.inj he)).mpr ?_⟩
  intro comp bs hit h' hst _
  obtain ⟨-, rfl⟩ := Prod.mk.inj (Option.some.inj hst)
  rw [HitOk, hlen]
  exact Or.inl ⟨by decide, fun hz => hz.1 rfl⟩

set_option maxRecDepth 20000 in
/-- **A write is lost.**  The file has no check code, so its chain is written in
place: `chainModify` keeps the storage of the zeros, and as the hit has cleared the
data pointer nothing is copied there.  The write completes and reads as zeros. -/
theorem dedup_hit_loses_write :
    (writeFileCore plainTools ⟨checkNone, compNone, 0, 2⟩ noFaults recordedDev
        (some (flushedChain checkNone)) ones 5).map
          (fun w => (w.errorp, (readBack plainTools w.dev w.chain pbufSize).map List.head?)) =
      some (0, some (some 0)) ∧
    (padTo pbufSize ones).head? = some 1 := by
  decide

end Hammer2.File
