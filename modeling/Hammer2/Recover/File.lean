/-
# `Hammer2.Recover.File` — the dump of a file

    dumpFileData_runs    a sound file is dumped, with nothing made and no byte outside of a buffer
    dumpFileData_sound   a file whose dump ends is sound
    dumpInumFile_runs    a version of a file is linked or written

The induction is on `FileSound`, and on the fuel for the converse.
-/
import Hammer2.Recover.Reach

namespace Hammer2.Recover

open Fuel
open Fsck (Volume Blockref getVolume pbufsize)

/-- Bytes were written, and nothing was made. -/
def Wrote (s s' : St) : Prop :=
  ∃ es, s' = { s with log := es ++ s.log } ∧ ∀ e ∈ es, e.made = none ∧ e.dumps = none

theorem Wrote.refl (s : St) : Wrote s s := ⟨[], rfl, nofun⟩

theorem Wrote.trans {s s' s'' : St} (h : Wrote s s') (h' : Wrote s' s'') : Wrote s s'' := by
  obtain ⟨es, rfl, hes⟩ := h
  obtain ⟨es', rfl, hes'⟩ := h'
  refine ⟨es' ++ es, by rw [List.append_assoc], fun e he => ?_⟩
  rcases List.mem_append.mp he with he | he
  · exact hes' e he
  · exact hes e he

theorem Wrote.event {s : St} {e : Event} (h : e.made = none) (hd : e.dumps = none) :
    Wrote s (s.event e) := ⟨[e], rfl, fun _ he => List.mem_singleton.mp he ▸ ⟨h, hd⟩⟩

section Data

variable {m : Recovery} {b : Blockref} {l : List UInt8}

theorem decode_take_lt (bs : List UInt8) : Bytes.decode (bs.take 8) < 2 ^ 64 := by
  have h := Bytes.decode_lt (bs.take 8)
  have hlen : (bs.take 8).length ≤ 8 := by
    rw [List.length_take]
    exact Nat.min_le_left _ _
  exact h.trans_le (Nat.pow_le_pow_right (by decide) hlen)

/-- What is written is in the buffer, or the kernel refuses it. -/
theorem writeData_runs {fsize size psize : Nat} (hf : fsize < 2 ^ 64) (hle : psize ≤ size)
    (hsize : size ≤ 2 ^ 17) (dptr : Nat → UInt8) (s : St) :
    ∃ s', writeData fsize b dptr size psize s = .done s' ∧ Wrote s s' := by
  have hkey : b.key < 2 ^ 64 := decode_take_lt _
  have hpwrite : ∀ count, (b.key < 2 ^ 63 → count < 2 ^ 63 → count ≤ size) →
      ∃ s', pwrite dptr size count b.key s = .done s' ∧ Wrote s s' := by
    intro count hcount
    rw [pwrite]
    split
    · exact ⟨s, rfl, .refl s⟩
    · next h =>
      rw [not_or, Nat.not_le, Nat.not_le] at h
      have hle := hcount h.2 h.1
      exact ⟨_, access_of_le (by omega), .event rfl rfl⟩
  rw [writeData]
  split
  · refine hpwrite _ fun hlt hcount => ?_
    omega
  · exact hpwrite _ fun _ _ => hle

/-- The size of the compressed bytes, when it is too large for the block, is read from it. -/
theorem overruns_stack {stack : Nat → UInt8} (hlen : 4 ≤ l.length) :
    cinsize (onStack l stack) = cinsize (onStack l fun _ => 0) := by
  have h : ∀ i < 4, onStack l stack i = onStack l (fun _ => 0) i := by
    intro i hi
    rw [onStack, onStack, if_pos (by omega), if_pos (by omega)]
  rw [cinsize, cinsize, h 0 (by decide), h 1 (by decide), h 2 (by decide), h 3 (by decide)]

theorem cinsize_short {stack : Nat → UInt8} (h : cinsize (onStack l stack) ≤ l.length)
    (hover : pbufsize < 4 + cinsize (onStack l stack)) :
    cinsize (onStack l stack) = cinsize (onStack l fun _ => 0) := by
  refine overruns_stack ?_
  rw [Fsck.pbufsize] at hover
  omega

theorem decompressLz4_runs {inbuf : Nat → UInt8} {insize outsize : Nat}
    (hout : outsize ≤ pbufsize) (h : cinsize inbuf ≤ insize → 4 + cinsize inbuf ≤ pbufsize) :
    ∃ r, decompressLz4 m inbuf insize outsize = .done r := by
  rw [decompressLz4, if_neg (Nat.not_lt.mpr hout)]
  split
  · exact ⟨_, rfl⟩
  · next hin =>
    have hle := h (Int.not_lt.mp hin)
    rw [access_of_le (by rw [Fsck.pbufsize] at *; omega)]
    dsimp only
    split
    · exact ⟨_, rfl⟩
    · exact ⟨_, rfl⟩

theorem decompressLz4_done {inbuf : Nat → UInt8} {insize outsize : Nat} {r}
    (h : decompressLz4 m inbuf insize outsize = .done r) (hin : cinsize inbuf ≤ insize) :
    4 + cinsize inbuf ≤ pbufsize := by
  rw [decompressLz4] at h
  split at h
  · cases h
  rw [if_neg (Int.not_lt.mpr hin), access] at h
  split at h
  · next hle =>
    rw [Fsck.pbufsize] at *
    omega
  · cases h

theorem decompressZlib_runs {inbuf : Nat → UInt8} {insize outsize : Nat}
    (hout : outsize ≤ pbufsize) : ∃ r, decompressZlib m inbuf insize outsize = .done r := by
  rw [decompressZlib, if_neg (Nat.not_lt.mpr hout)]
  dsimp only
  split
  · exact ⟨_, rfl⟩
  · exact ⟨_, rfl⟩

/-- The rest of a block, after the bytes are there. -/
theorem dumpData_write {fsize nsize : Nat} {x : Res ((Nat → UInt8) × Bool)} {res : Bool} {s : St}
    (hf : fsize < 2 ^ 64) (hn : nsize ≤ pbufsize) (hx : ∃ r, x = .done r) :
    ∃ r, (x.bind fun p => (writeData fsize b p.1 outBufSize nsize s).bind fun s =>
      .done (res && p.2, s)) = .done r ∧ Wrote s r.2 := by
  obtain ⟨⟨dptr, res2⟩, rfl⟩ := hx
  have hsize : nsize ≤ outBufSize := hn.trans (Nat.le_add_right _ _)
  obtain ⟨s', hs', hw⟩ := writeData_runs (b := b) hf hsize (by decide) dptr s
  rw [Res.bind_done, hs']
  exact ⟨_, rfl, hw⟩

theorem dumpData_runs {fsize : Nat} (hf : fsize < 2 ^ 64) (hl : l.length ≤ pbufsize)
    (hno : ¬ Overruns b l) (res : Bool) (s : St) :
    ∃ r, dumpData m fsize b l res s = .done r ∧ Wrote s r.2 := by
  rw [dumpData]
  split
  · exact ⟨_, rfl, .refl s⟩
  next hn =>
  have hn' := Nat.not_lt.mp hn
  split
  · next hlz4 =>
    refine dumpData_write hf hn' (decompressLz4_runs hn' fun hin => ?_)
    refine Int.not_lt.mp fun hover => hno ⟨hlz4, hn', ?_⟩
    have heq := cinsize_short hin hover
    rw [heq] at hin hover
    exact ⟨hin, hover⟩
  split
  · exact dumpData_write hf hn' (decompressZlib_runs hn')
  · obtain ⟨s', hs', hw⟩ := writeData_runs (b := b) hf hl (by decide)
      (onStack l (m.host.stack s.log)) s
    rw [hs']
    exact ⟨_, rfl, hw⟩

theorem dumpData_sound {fsize : Nat} {res : Bool} {s : St} {r}
    (h : dumpData m fsize b l res s = .done r) : ¬ Overruns b l := by
  rintro ⟨hlz4, hn, hin, hover⟩
  rw [dumpData, if_neg (Nat.not_lt.mpr hn), if_pos hlz4] at h
  obtain ⟨p, hp, -⟩ := Res.bind_eq_done h
  have heq : cinsize (onStack l (m.host.stack s.log)) = cinsize (onStack l fun _ => 0) := by
    refine overruns_stack ?_
    rw [Fsck.pbufsize] at hover
    omega
  have hle := decompressLz4_done hp (by rw [heq]; exact hin)
  rw [heq] at hle
  exact absurd hover (Int.not_lt.mpr hle)

end Data

/-! ## The recursion -/

section File

variable {m : Recovery} {b : Blockref} {fsize : Nat}

theorem FileBlock.vol {l : List UInt8} (h : FileBlock m b l) :
    (getVolume m.fso b.dataOff).isNone = false := by
  have hb := h.block
  rw [Recover.block] at hb
  cases hvol : getVolume m.fso b.dataOff with
  | none => rw [hvol] at hb; cases hb
  | some vol => rfl

/-- A round reads a block of the file, or does nothing. -/
theorem dumpFileBref_cases (m : Recovery) (fsize : Nat) (b : Blockref) :
    (∃ l, FileBlock m b l ∧ ∀ down r, dumpFileBref m down fsize r b =
      if b.type = Fsck.brefTypeData then dumpData m fsize b l r.1 r.2
      else if b.type = Fsck.brefTypeIndirect then
        (down (blockrefs l) r.2).bind fun (rtmp, s) => .done (r.1 && rtmp, s)
      else .done r) ∨
    ∃ f : Bool → Bool, ∀ down r, dumpFileBref m down fsize r b = .done (f r.1, r.2) := by
  by_cases hskip : b.type = Fsck.brefTypeEmpty ∨ b.dataOff = 0
  · exact .inr ⟨id, fun down r => by rw [dumpFileBref, if_pos hskip]; rfl⟩
  by_cases hvol : (getVolume m.fso b.dataOff).isNone = true
  · exact .inr ⟨id, fun down r => by rw [dumpFileBref, if_neg hskip, if_pos hvol]; rfl⟩
  by_cases hsize : pbufsize < psize b.dataOff
  · exact .inr ⟨fun _ => false, fun down r => by
      rw [dumpFileBref, if_neg hskip, if_neg hvol, if_pos hsize]⟩
  have hread := @readBlock_eq m b (Nat.not_lt.mp hsize)
  cases hblock : block m b with
  | none =>
      refine .inr ⟨fun _ => false, fun down r => ?_⟩
      rw [dumpFileBref, if_neg hskip, if_neg hvol, if_neg hsize, hread, hblock]
      rfl
  | some l =>
      obtain ⟨htype, hoff⟩ := not_or.mp hskip
      refine .inl ⟨l, ⟨htype, hoff, Nat.not_lt.mp hsize, hblock⟩, fun down r => ?_⟩
      rw [dumpFileBref, if_neg hskip, if_neg hvol, if_neg hsize, hread, hblock]
      rfl

theorem dumpFileBref_refines {down down' : List Blockref → St → Res (Bool × St)}
    (h : ∀ l s, Refines (down l s) (down' l s)) (r : Bool × St) (b : Blockref) :
    Refines (dumpFileBref m down fsize r b) (dumpFileBref m down' fsize r b) := by
  rcases dumpFileBref_cases m fsize b with ⟨l, -, heq⟩ | ⟨f, heq⟩
  · rw [heq, heq]
    split
    · exact .refl _
    split
    · exact (h _ _).bind fun _ => .refl _
    · exact .refl _
  · rw [heq, heq]
    exact .refl _

theorem dumpFileData_mono : ∀ (base : List Blockref) (s : St),
    Mono fun n => dumpFileData m fsize n base s := by
  intro base s n
  induction n generalizing base s with
  | zero => exact .inl rfl
  | succ n ih =>
      exact Refines.foldl (fun r b => dumpFileBref_refines ih r b) base (true, s)

/-- **A sound file is dumped.** -/
theorem dumpFileData_runs (hf : fsize < 2 ^ 64) {base : List Blockref} (h : FileSound m base) :
    ∀ s, Runs (fun n => dumpFileData m fsize n base s) fun r => Wrote s r.2 := by
  induction h with
  | @mk base hdata _ ih =>
  intro s
  refine Runs.body (fun n => rfl) ?_
  refine Runs.foldl (I := fun _ r => Wrote s r.2) (l := base)
    (fun r b n => dumpFileBref_refines (fun l s => dumpFileData_mono l s n) r b) ?_
    base [] (true, s) rfl (.refl s)
  intro pre b post r hl hw
  have hb : b ∈ base := hl ▸ List.mem_append_right _ List.mem_cons_self
  rcases dumpFileBref_cases m fsize b with ⟨l, hblock, heq⟩ | ⟨f, heq⟩
  · simp only [heq]
    split
    · next htype =>
      obtain ⟨r', hr', hw'⟩ := dumpData_runs (m := m) hf
        ((length_block hblock.block).trans_le hblock.size) (hdata b hb l hblock htype) r.1 r.2
      rw [hr']
      exact Runs.const (hw.trans hw')
    split
    · next htype =>
      refine Runs.bind (dumpFileData_mono _ _) (fun _ => Mono.const _) (ih b hb l hblock htype r.2) ?_
      intro r' hw'
      exact Runs.const (hw.trans hw')
    · exact Runs.const hw
  · simp only [heq]
    exact Runs.const hw

/-- **A dump that ends is the one of a sound file.** -/
theorem dumpFileData_sound : ∀ (n : Nat) (base : List Blockref) (s : St) (r : Bool × St),
    dumpFileData m fsize n base s = .done r → FileSound m base
  | 0, _, _, _, h => by cases h
  | n + 1, base, s, r, h => by
      have heach := foldl_done_each base (true, s) r h
      refine .mk (fun b hb l hblock htype => ?_) fun b hb l hblock htype => ?_
      all_goals
        obtain ⟨r₁, r₂, hr⟩ := heach b hb
        rw [dumpFileBref, if_neg (not_or.mpr ⟨hblock.type, hblock.dataOff⟩), hblock.vol,
          if_neg Bool.false_ne_true, if_neg (Nat.not_lt.mpr hblock.size), readBlock_eq hblock.size,
          hblock.block, Res.bind_done] at hr
        dsimp only at hr
      · rw [if_pos htype] at hr
        exact dumpData_sound hr
      · have hne : b.type ≠ Fsck.brefTypeData := by
          rw [htype]
          decide
        rw [if_neg hne, if_pos htype] at hr
        obtain ⟨r', hr', -⟩ := Res.bind_eq_done hr
        exact dumpFileData_sound n _ _ _ hr'

/-! ## A version of a file -/

theorem length_blockset {ino : List UInt8} (h : ino.length = Inode.bytes) :
    (Inode.data ino).length = 512 := by
  rw [Inode.data, List.length_take, List.length_drop, h]
  rfl

/-- What the dump of a version leaves: it is dumped, and nothing but its path is made. -/
structure Filed (s s' : St) (i : Nat) (path : Path) : Prop where
  same : s' = { s with log := s'.log, linkFilePath := s'.linkFilePath }
  log : s.log ⊆ s'.log
  dumped : Dumped s' i
  made : ∀ e ∈ s'.log, e ∈ s.log ∨
    (∀ p, e.made = some p → p = path ∨ p = corruptedPath path) ∧ ∀ j, e.dumps = some j → j = i
  others : ∀ j, j ≠ i → s'.linkFilePath j = s.linkFilePath j

theorem Filed.written {s s₁ s' : St} {i : Nat} {path : Path} (es : List Event)
    (hes : ∀ e ∈ es, (∀ p, e.made = some p → p = corruptedPath path) ∧ e.dumps = none)
    (hw : Wrote (s.event (.openFile i path)) s₁)
    (hs' : s' = { s₁ with log := es ++ s₁.log, linkFilePath := s'.linkFilePath })
    (hlink : ∀ j, j ≠ i → s'.linkFilePath j = s₁.linkFilePath j) : Filed s s' i path := by
  obtain ⟨ws, rfl, hws⟩ := hw
  have hlog : s'.log = es ++ (ws ++ .openFile i path :: s.log) := by
    rw [hs']
    rfl
  refine ⟨?_, ?_, ⟨.openFile i path, ?_, rfl⟩, ?_, hlink⟩
  · rw [hs']
    rfl
  · rw [hlog]
    exact fun e he => by simp [he]
  · rw [hlog]
    simp
  · rw [hlog]
    intro e he
    rcases List.mem_append.mp he with he | he
    · refine .inr ⟨fun p hp => .inr ((hes e he).1 p hp), fun j hj => ?_⟩
      rw [(hes e he).2] at hj
      cases hj
    rcases List.mem_append.mp he with he | he
    · refine .inr ⟨fun p hp => ?_, fun j hj => ?_⟩
      · rw [(hws e he).1] at hp
        cases hp
      · rw [(hws e he).2] at hj
        cases hj
    rcases List.mem_cons.mp he with rfl | he
    · exact .inr ⟨fun p hp => .inl (Option.some.inj hp).symm, fun j hj => (Option.some.inj hj).symm⟩
    · exact .inl he

theorem fileContent_mono (ino : List UInt8) (s : St) : Mono fun n => fileContent m n ino s := by
  unfold fileContent
  split
  · exact Mono.const _
  · exact dumpFileData_mono _ _

theorem fileContent_runs {ino : List UInt8} (hlen : ino.length = Inode.bytes)
    (h : Inode.directdata ino = false → FileSound m (Inode.blockset ino)) (s : St) :
    Runs (fun n => fileContent m n ino s) fun r => Wrote s r.2 := by
  unfold fileContent
  split
  · split
    · next hsize =>
      rw [access_of_le (by rw [length_blockset hlen]; omega)]
      exact Runs.const (.event rfl rfl)
    · exact Runs.const (.refl s)
  · next hd => exact dumpFileData_runs (decode_take_lt _) (h (Bool.eq_false_iff.mpr hd)) s

theorem dumpInumFile_mono (i : Nat) (ino : List UInt8) (path : Path) (s : St) :
    Mono fun n => dumpInumFile m n i ino path s := by
  unfold dumpInumFile
  split
  · exact Mono.const _
  · exact Mono.bind (fileContent_mono _ _) fun _ => Mono.const _

/-- **A version is linked or written.** -/
theorem dumpInumFile_runs {i : Nat} {ino : List UInt8} (hlen : ino.length = Inode.bytes)
    (h : Inode.directdata ino = false → FileSound m (Inode.blockset ino)) (path : Path) (s : St) :
    Runs (fun n => dumpInumFile m n i ino path s) fun s' => Filed s s' i path := by
  unfold dumpInumFile
  split
  · refine Runs.const ⟨rfl, fun e he => List.mem_cons_of_mem _ he,
      ⟨.link i path, List.mem_cons_self, rfl⟩, fun e he => ?_, fun _ _ => rfl⟩
    rcases List.mem_cons.mp he with rfl | he
    · exact .inr ⟨fun p hp => .inl (Option.some.inj hp).symm, fun j hj => (Option.some.inj hj).symm⟩
    · exact .inl he
  · refine Runs.bind (fileContent_mono _ _) (fun _ => Mono.const _) (fileContent_runs hlen h _) ?_
    rintro ⟨res, s₁⟩ hw
    cases res with
    | true => exact Runs.const (Filed.written [] nofun hw rfl fun _ hj => if_neg hj)
    | false =>
        refine Runs.const (Filed.written [.rename (corruptedPath path)] ?_ hw rfl fun _ hj => if_neg hj)
        intro e he
        cases List.mem_singleton.mp he
        exact ⟨fun p hp => (Option.some.inj hp).symm, rfl⟩

/-- A version that is not linked is sound when its dump ends. -/
theorem dumpInumFile_sound {n i : Nat} {ino : List UInt8} {path : Path} {s s' : St}
    (h : dumpInumFile m n i ino path s = .done s') (hlink : s.linkFilePath i = none)
    (hd : Inode.directdata ino = false) : FileSound m (Inode.blockset ino) := by
  have hno : linked m i path s = false := by rw [linked, hlink]
  rw [dumpInumFile, if_neg (by rw [hno]; exact Bool.false_ne_true)] at h
  obtain ⟨r, hr, -⟩ := Res.bind_eq_done h
  rw [fileContent, if_neg (by rw [hd]; exact Bool.false_ne_true)] at hr
  exact dumpFileData_sound n _ _ _ hr

/-- The dump that ends leaves the version dumped, and sound. -/
theorem dumpInumFile_done {n i : Nat} {ino : List UInt8} {path : Path} {s s' : St}
    (h : dumpInumFile m n i ino path s = .done s') (hlen : ino.length = Inode.bytes)
    (hfine : s.linkFilePath i ≠ none → Inode.directdata ino = false →
      FileSound m (Inode.blockset ino)) :
    Filed s s' i path ∧ (Inode.directdata ino = false → FileSound m (Inode.blockset ino)) := by
  have hsound : Inode.directdata ino = false → FileSound m (Inode.blockset ino) := by
    intro hd
    by_cases hlink : s.linkFilePath i = none
    · exact dumpInumFile_sound h hlink hd
    · exact hfine hlink hd
  obtain ⟨s₁, hs₁, hfiled⟩ := dumpInumFile_runs (i := i) hlen hsound path s
  cases Ends.unique (dumpInumFile_mono _ _ _ _) ⟨n, h⟩ hs₁
  exact ⟨hfiled, hsound⟩

end File

end Hammer2.Recover
