/-
# `Hammer2.Directory.Readdir` — reading a directory in pieces

A call of `hammer2_readdir` starts at a position, returns entries as long as they fit, and leaves
a position for the next call; each entry carries a position of its own, `d_off`.  `.` and `..` are
at 0 and 1, every other entry at its key without bit 63.

    write_dirent       hammer2_write_dirent
    readdirFeed        hammer2_xop_readdir
    scan               the loop over the feed
    readdir            hammer2_readdir
    run_resumes        what calls return one after the other, whatever position they start at

`d_off` is `uio_offset` and the length of the entry, which is a count of bytes from the second
entry of a call on.
-/
import Hammer2.Directory.Entry
import Hammer2.Lib.Cursor
import Hammer2.Lib.Machine

namespace Hammer2.Readdir

open Dir Machine Cursor

/-! ## Directories -/

def DIRHASH_USERMSK : Nat := 0x7FFFFFFFFFFFFFFF
def DIRHASH_FORCED : Nat := 0x8000

/-- The types of `d_type`. -/
inductive DType where
  | unknown | dir | reg | fifo | chr | blk | lnk | sock
deriving DecidableEq, Repr

def get_dtype : ObjType → DType
  | .unknown => .unknown
  | .directory => .dir
  | .regfile => .reg
  | .fifo => .fifo
  | .cdev => .chr
  | .bdev => .blk
  | .softlink => .lnk
  | .socket => .sock

/-- An entry is an inode, or a blockref of type DIRENT that names one. -/
inductive Kind where
  | inode | dirent
deriving DecidableEq, Repr

structure Entry where
  kind : Kind
  key : Nat
  inum : Nat
  type : ObjType
  name : Name
deriving DecidableEq

/-- A directory: its own numbers, and the entries in the order of their keys, which have the bits
that `hammer2_dirhash` forces. -/
structure Directory where
  inum : Nat
  iparent : Nat
  iroot : Bool
  entries : List Entry
  sorted : entries.Pairwise fun a b => a.key < b.key
  hashed : ∀ e ∈ entries, DIRHASH_VISIBLE + DIRHASH_FORCED ≤ e.key ∧ e.key ≤ KEY_MAX

/-- What is returned of an entry, and its cookie. -/
structure Item where
  cookie : Nat
  fileno : Nat
  type : DType
  name : List UInt8
deriving DecidableEq

def Entry.item (e : Entry) : Item where
  cookie := e.key &&& DIRHASH_USERMSK
  fileno := match e.kind with
    | .inode => e.inum &&& DIRHASH_USERMSK
    | .dirent => e.inum
  type := get_dtype e.type
  name := e.name.bytes

def Directory.dot (d : Directory) : Item := ⟨0, d.inum &&& DIRHASH_USERMSK, .dir, [46]⟩

/-- `..` does not cross the mount point. -/
def Directory.dotdot (d : Directory) : Item :=
  ⟨1, (if d.iroot then d.inum else d.iparent) &&& DIRHASH_USERMSK, .dir, [46, 46]⟩

/-! ## One call -/

/-- `DIRENT_SIZE`: the header of 24 bytes, the name and its NUL, rounded up to 8. -/
def reclen (namlen : Nat) : Nat := (24 + namlen + 1 + 7) / 8 * 8

/-- The size of an entry with the longest name. -/
def maxReclen : Nat := reclen 255

/-- What can fail: the inode's chain, the collect after so many entries, and each `uiomove`, which
then has moved some of the bytes.  `stack` is what `bref.key` holds before it is set. -/
structure Faults where
  chain : Bool
  cut : Option (Nat × MediaError)
  move : Nat → Option (Error × Nat)
  stack : Nat

/-- The position and the room, with the number of calls of `uiomove` so far. -/
structure Uio where
  offset : Nat
  resid : Nat
  moves : Nat
deriving DecidableEq

/-- `hammer2_write_dirent`: `none` if there is no space left, else the error of `uiomove` and the
`d_off` of the entry. -/
def write_dirent (f : Faults) (u : Uio) (i : Item) : Option (Uio × Option Error × Nat) :=
  let len := reclen i.name.length
  if len > u.resid then none
  else
    let off := (u.offset + len) % 2 ^ 64
    match f.move u.moves with
    | none => some (⟨off, u.resid - len, u.moves + 1⟩, none, off)
    | some (e, n) => some (⟨(u.offset + min n len) % 2 ^ 64, u.resid - min n len, u.moves + 1⟩, some e, off)

/-- The entries the two lookups find from `lkey` on: that of the key, if there is one, and those
behind it, or all in the range. -/
def search (entries : List Entry) (lkey : Nat) : List Entry :=
  match entries.filter fun e => decide (e.key = lkey) with
  | e :: _ => e :: entries.filter fun x => decide (e.key + 1 ≤ x.key) && decide (x.key ≤ KEY_MAX)
  | [] => entries.filter fun x => decide (lkey ≤ x.key) && decide (x.key ≤ KEY_MAX)

/-- `hammer2_xop_readdir`: the entries fed, and the error at the end.  Without a chain for the
directory the feed ends at once, and without an error. -/
def readdirFeed (d : Directory) (f : Faults) (lkey : Nat) : List Entry × Option MediaError :=
  if f.chain = false then ([], none)
  else
    match f.cut with
    | none => (search d.entries lkey, none)
    | some (n, e) => ((search d.entries lkey).take n, some e)

/-- What the call has done so far: the entries that reached the caller, with their `d_off`. -/
structure Progress where
  uio : Uio
  saveoff : Nat
  out : List (Item × Nat)
deriving DecidableEq

structure Reply where
  out : List (Item × Nat)
  offset : Nat
  eof : Bool
  error : Option Error
deriving DecidableEq

/-- The end of the call. -/
def done (p : Progress) (eof : Bool) (error : Option Error) : Reply :=
  ⟨p.out, p.saveoff &&& DIRHASH_USERMSK, eof, error⟩

/-- One of the artificial entries: the call is over, or goes on. -/
def artificial (f : Faults) (i : Item) (p : Progress) : Reply ⊕ Progress :=
  if p.saveoff = i.cookie then
    match write_dirent f p.uio i with
    | none => .inl (done p false none)
    | some (u, some e, _) => .inl (done { p with uio := u, saveoff := p.saveoff + 1 } false (some e))
    | some (u, none, off) => .inr ⟨u, p.saveoff + 1, p.out ++ [(i, off)]⟩
  else .inr p

/-- The loop: `key` is `bref.key`.  The error of `uiomove` is lost, the next collect overwrites it.
What comes back is how the last collect ended, `none` if there was no space left. -/
def scan (f : Faults) (last : Option MediaError) : List Entry → Nat → Progress →
    Progress × Nat × Option Error
  | [], key, p => (p, key, some ((last.map (·.toError)).getD .enoent))
  | e :: es, _, p =>
      let p := { p with saveoff := e.item.cookie }
      match write_dirent f p.uio e.item with
      | none => (p, e.key, none)
      | some (u, some _, _) => scan f last es e.key { p with uio := u }
      | some (u, none, off) => scan f last es e.key { p with uio := u, out := p.out ++ [(e.item, off)] }

/-- After the loop. -/
def finish : Progress × Nat × Option Error → Reply
  | (p, _, some .enoent) => done { p with saveoff := KEY_MAX } true none
  | (p, key, error) => done { p with saveoff := key &&& DIRHASH_USERMSK } false error

/-- `hammer2_readdir` of a directory. -/
def readdir (d : Directory) (f : Faults) (offset resid : Nat) : Reply :=
  match artificial f d.dot ⟨⟨offset, resid, 0⟩, offset, []⟩ with
  | .inl r => r
  | .inr p =>
      match artificial f d.dotdot p with
      | .inl r => r
      | .inr p =>
          let feed := readdirFeed d f (p.saveoff ||| DIRHASH_VISIBLE)
          finish (scan f feed.2 feed.1 f.stack p)

/-! ## The listing -/

/-- The whole of a directory, in the order of the cookies. -/
def Directory.listing (d : Directory) : List Item := d.dot :: d.dotdot :: d.entries.map Entry.item

theorem usermsk_eq (n : Nat) : n &&& DIRHASH_USERMSK = n % 2 ^ 63 := Nat.and_two_pow_sub_one_eq_mod n 63

variable {d : Directory} {f : Faults}

/-- The cookie is the key without bit 63. -/
theorem Directory.key_eq {e : Entry} (he : e ∈ d.entries) :
    e.key = DIRHASH_VISIBLE + e.item.cookie ∧ DIRHASH_FORCED ≤ e.item.cookie ∧ e.item.cookie < 2 ^ 63 := by
  obtain ⟨hlo, hhi⟩ := d.hashed e he
  have hcookie : e.item.cookie = e.key % 2 ^ 63 := usermsk_eq _
  rw [hcookie]
  simp only [DIRHASH_VISIBLE, DIRHASH_FORCED, KEY_MAX] at *
  omega

theorem Directory.increasing (d : Directory) : Increasing Item.cookie d.listing := by
  have hentries : Increasing Item.cookie (d.entries.map Entry.item) := by
    refine List.pairwise_map.mpr (d.sorted.imp_of_mem fun {a b} ha hb hlt => ?_)
    have h1 := (d.key_eq ha).1
    have h2 := (d.key_eq hb).1
    omega
  have hforced : ∀ i ∈ d.entries.map Entry.item, DIRHASH_FORCED ≤ i.cookie := by
    intro i hi
    obtain ⟨e, he, rfl⟩ := List.mem_map.mp hi
    exact (d.key_eq he).2.1
  refine List.pairwise_cons.mpr ⟨fun i hi => ?_, List.pairwise_cons.mpr ⟨fun i hi => ?_, hentries⟩⟩
  · show 0 < i.cookie
    rcases List.mem_cons.mp hi with rfl | hi
    · exact Nat.one_pos
    · exact Nat.lt_of_lt_of_le (by decide) (hforced i hi)
  · show 1 < i.cookie
    exact Nat.lt_of_lt_of_le (by decide) (hforced i hi)

theorem lor_visible {o : Nat} (h : o < 2 ^ 63) : o ||| DIRHASH_VISIBLE = DIRHASH_VISIBLE + o := by
  have hor := Nat.two_pow_add_eq_or_of_lt h 1
  rw [Nat.mul_one] at hor
  rw [Nat.or_comm]
  exact hor.symm

/-- The two lookups find what lies at the key or behind it. -/
theorem search_eq (d : Directory) (lkey : Nat) : search d.entries lkey = since Entry.key d.entries lkey := by
  have hrange : ∀ k, (d.entries.filter fun x => decide (k ≤ x.key) && decide (x.key ≤ KEY_MAX)) =
      since Entry.key d.entries k := fun k => List.filter_congr fun x hx => by
    rw [decide_eq_true (d.hashed x hx).2, Bool.and_true]
  unfold search
  split
  · next e es hmatch =>
    have hmem : e ∈ d.entries.filter fun e => decide (e.key = lkey) := by
      rw [hmatch]
      exact List.mem_cons_self ..
    obtain ⟨hin, hkey⟩ := List.mem_filter.mp hmem
    obtain rfl : e.key = lkey := of_decide_eq_true hkey
    obtain ⟨pre, post, heq⟩ := List.append_of_mem hin
    have hsorted : Increasing Entry.key (pre ++ e :: post) := heq ▸ d.sorted
    rw [hrange, heq, since_cookie hsorted, (since_eq_iff hsorted).mpr]
    exact ⟨Nat.lt_succ_self _, fun y hy => hsorted.split.2 y hy⟩
  · exact hrange lkey

/-- What a feed brings from a position on. -/
theorem search_items {o : Nat} (h : 2 ≤ o) (hlt : o < 2 ^ 63) :
    (search d.entries (o ||| DIRHASH_VISIBLE)).map Entry.item = since Item.cookie d.listing o := by
  have hdots : since Item.cookie d.listing o = since Item.cookie (d.entries.map Entry.item) o := by
    show since Item.cookie ([d.dot, d.dotdot] ++ d.entries.map Entry.item) o = _
    rw [since_append, since_eq_nil, List.nil_append]
    intro y hy
    rcases List.mem_cons.mp hy with rfl | hy
    · show 0 < o
      omega
    · rw [List.mem_singleton.mp hy]
      show 1 < o
      omega
  rw [search_eq, lor_visible hlt, hdots, since, since, List.filter_map]
  refine congrArg _ (List.filter_congr fun e he => ?_)
  have hkey := (d.key_eq he).1
  rw [Bool.eq_iff_iff, decide_eq_true_eq, Function.comp_apply, decide_eq_true_eq]
  omega

/-! ## What the loop does -/

/-- The items that reached the caller. -/
def Reply.items (r : Reply) : List Item := r.out.map Prod.fst

/-- The space that items take. -/
def size (l : List Item) : Nat := (l.map fun i => reclen i.name.length).sum

theorem size_append (l m : List Item) : size (l ++ m) = size l + size m := by
  rw [size, List.map_append, List.sum_append]
  rfl

theorem size_cons (i : Item) (l : List Item) : size (i :: l) = reclen i.name.length + size l := List.sum_cons

theorem write_dirent_some {u u' : Uio} {i : Item} {e : Option Error} {off : Nat}
    (h : write_dirent f u i = some (u', e, off)) :
    reclen i.name.length ≤ u.resid ∧ u'.moves = u.moves + 1 ∧ (e = none ↔ f.move u.moves = none) ∧
      (e = none → u' = ⟨off, u.resid - reclen i.name.length, u.moves + 1⟩) := by
  unfold write_dirent at h
  dsimp only at h
  split at h
  · cases h
  · next hfit =>
    split at h
    · next hmove =>
      obtain ⟨rfl, hrest⟩ := Prod.mk.inj (Option.some.inj h)
      obtain ⟨rfl, rfl⟩ := Prod.mk.inj hrest
      exact ⟨Nat.not_lt.mp hfit, rfl, ⟨fun _ => hmove, fun _ => rfl⟩, fun _ => rfl⟩
    · next e n hmove =>
      obtain ⟨rfl, hrest⟩ := Prod.mk.inj (Option.some.inj h)
      obtain ⟨rfl, rfl⟩ := Prod.mk.inj hrest
      refine ⟨Nat.not_lt.mp hfit, rfl, ⟨nofun, fun hnone => ?_⟩, nofun⟩
      rw [hmove] at hnone
      cases hnone

theorem write_dirent_none {u : Uio} {i : Item} (h : write_dirent f u i = none) :
    u.resid < reclen i.name.length := by
  unfold write_dirent at h
  dsimp only at h
  split at h
  · assumption
  · split at h <;> cases h

/-- No `uiomove` that is called fails, except that for the last item before a collect that fails. -/
def Moves (f : Faults) (failed : Prop) (moves resid : Nat) (l : List Item) : Prop :=
  ∀ i < l.length, size (l.take (i + 1)) ≤ resid → f.move (moves + i) ≠ none → i + 1 = l.length ∧ failed

theorem Moves.tail {failed : Prop} {moves resid : Nat} {x : Item} {l : List Item}
    (h : Moves f failed moves resid (x :: l)) (hfit : reclen x.name.length ≤ resid) :
    Moves f failed (moves + 1) (resid - reclen x.name.length) l := by
  intro i hi hroom hmove
  have hsize : size ((x :: l).take (i + 1 + 1)) ≤ resid := by
    rw [List.take_succ_cons, size_cons]
    omega
  have hcall : moves + (i + 1) = moves + 1 + i := by omega
  obtain ⟨hlast, hfailed⟩ := h (i + 1) (Nat.succ_lt_succ hi) hsize (by rwa [hcall])
  exact ⟨Nat.succ.inj hlast, hfailed⟩

/-- How a loop over the feed can end. -/
inductive Ends (last : Option MediaError) (es : List Entry) (key resid : Nat) :
    List Item → Nat → Option Error → Prop
  | full {pre e post} : es = pre ++ e :: post → (pre = [] → resid < reclen e.item.name.length) →
      Ends last es key resid (pre.map Entry.item) e.key none
  | fed : size (es.map Entry.item) ≤ resid →
      Ends last es key resid (es.map Entry.item) ((es.getLast?.map Entry.key).getD key)
        (some ((last.map (·.toError)).getD .enoent))
  | move {init e err} : last = some err → es = init ++ [e] →
      Ends last es key resid (init.map Entry.item) e.key (some err.toError)

/-- One entry more. -/
theorem Ends.cons {last : Option MediaError} {e : Entry} {es : List Entry} {key resid key' : Nat}
    {out : List Item} {r : Option Error} (hfit : reclen e.item.name.length ≤ resid)
    (h : Ends last es e.key (resid - reclen e.item.name.length) out key' r) :
    Ends last (e :: es) key resid (e.item :: out) key' r := by
  cases h with
  | @full pre x post heq _ => exact @Ends.full last (e :: es) key resid (e :: pre) x post (heq ▸ rfl) nofun
  | fed hsize =>
      have hall : size ((e :: es).map Entry.item) ≤ resid := by
        rw [List.map_cons, size_cons]
        omega
      have hlast : ((e :: es).getLast?.map Entry.key).getD key = (es.getLast?.map Entry.key).getD e.key := by
        cases es with
        | nil => rfl
        | cons x xs =>
            rw [List.getLast?_cons_cons, List.getLast?_cons]
            rfl
      exact hlast ▸ Ends.fed hall
  | @move init x err hlast heq => exact @Ends.move last (e :: es) key resid (e :: init) x err hlast (heq ▸ rfl)

/-- The loop returns the entries it is fed until one does not fit. -/
theorem scan_spec {last : Option MediaError} : ∀ {es : List Entry} {key : Nat} {p : Progress},
    Moves f (last ≠ none) p.uio.moves p.uio.resid (es.map Entry.item) →
    ∃ q key' r out, scan f last es key p = (q, key', r) ∧
      q.out.map Prod.fst = p.out.map Prod.fst ++ out ∧ Ends last es key p.uio.resid out key' r
  | [], key, p, _ => ⟨p, key, _, [], rfl, (List.append_nil _).symm, Ends.fed (Nat.zero_le _)⟩
  | e :: es, key, p, hmoves => by
      unfold scan
      dsimp only
      cases hw : write_dirent f p.uio e.item with
      | none =>
          exact ⟨_, _, _, [], rfl, (List.append_nil _).symm,
            @Ends.full last (e :: es) key p.uio.resid [] e es rfl fun _ => write_dirent_none hw⟩
      | some w =>
          obtain ⟨u, err, off⟩ := w
          obtain ⟨hfit, hcalls, herr, hu⟩ := write_dirent_some hw
          cases err with
          | none =>
              obtain rfl := hu rfl
              dsimp only
              obtain ⟨q, key', r, out, heq, hout, hends⟩ := @scan_spec last es e.key
                ⟨⟨off, p.uio.resid - reclen e.item.name.length, p.uio.moves + 1⟩, e.item.cookie,
                  p.out ++ [(e.item, off)]⟩ (hmoves.tail hfit)
              refine ⟨q, key', r, e.item :: out, heq, ?_, hends.cons hfit⟩
              rw [hout, List.map_append, List.append_assoc]
              rfl
          | some err =>
              -- the error is lost, unless this is the last entry before the one of the collect
              have hmove : f.move (p.uio.moves + 0) ≠ none := fun hnone => nomatch herr.mpr hnone
              have hsize : size (((e :: es).map Entry.item).take (0 + 1)) ≤ p.uio.resid := hfit
              obtain ⟨hlast, hfailed⟩ := hmoves 0 (Nat.zero_lt_succ _) hsize hmove
              rw [List.length_map] at hlast
              obtain rfl : es = [] := List.eq_nil_of_length_eq_zero (Nat.succ.inj hlast).symm
              obtain ⟨m, rfl⟩ := Option.ne_none_iff_exists'.mp hfailed
              exact ⟨_, _, _, [], rfl, (List.append_nil _).symm, @Ends.move _ [e] key p.uio.resid [] e m rfl rfl⟩

/-! ## One call -/

/-- What a call that starts where `after` follows must do: return these in their order, and leave a
position that is not past an entry that was not delivered.  Without an error the position is behind
what was delivered, something is delivered if there is anything, and the end is seen at the end;
and there is no error unless a `uiomove` or a collect fails. -/
structure Resumes (d : Directory) (after : List Item) (f : Faults) (r : Reply) : Prop where
  delivered : r.items <+: after
  kept : after.drop r.items.length <:+ since Item.cookie d.listing r.offset
  clean : r.error = none → since Item.cookie d.listing r.offset = after.drop r.items.length ∧
    (after ≠ [] → r.items ≠ []) ∧ (r.eof = true ↔ after.drop r.items.length = [])
  honest : (∀ i, f.move i = none) → f.cut = none → r.error = none

/-- The items a call from `o` on comes to before a collect fails: `2 - o` of them are artificial. -/
def offered (d : Directory) (f : Faults) (o : Nat) : List Item :=
  match f.cut with
  | none => since Item.cookie d.listing o
  | some (n, _) => (since Item.cookie d.listing o).take (2 - o + n)

/-- The call goes well: no `uiomove` fails, unless the collect after it fails as well; the directory's
chain is there, if an entry lies behind the position; the first collect does not fail, unless what
the stack holds is not past such an entry; and the end is not reached by returning an entry with the
highest key. -/
structure GoesWell (d : Directory) (f : Faults) (o resid : Nat) : Prop where
  moves : Moves f (f.cut ≠ none ∧ 2 - o < (offered d f o).length) 0 resid (offered d f o)
  chain : f.chain = true ∨ ∀ e ∈ d.entries, e.item.cookie < o
  cut : ∀ n err, f.cut = some (n, err) → n ≠ 0 ∨
    ∀ e ∈ d.entries, o ≤ e.item.cookie → f.stack &&& DIRHASH_USERMSK ≤ e.item.cookie
  highest : f.cut = none → size (since Item.cookie d.listing o) ≤ resid → ∀ e ∈ d.entries, e.key ≠ KEY_MAX

theorem reclen_mono {n m : Nat} (h : n ≤ m) : reclen n ≤ reclen m := by
  unfold reclen
  omega

theorem reclen_le (e : Entry) : reclen e.item.name.length ≤ maxReclen :=
  reclen_mono (Nat.le_of_lt_succ e.name.short)

/-- An artificial entry is returned if the position is at its cookie. -/
theorem artificial_spec {i : Item} {p : Progress}
    (h : p.saveoff = i.cookie → reclen i.name.length ≤ p.uio.resid ∧ f.move p.uio.moves = none) :
    ∃ q, artificial f i p = .inr q ∧ if p.saveoff = i.cookie then
      q.saveoff = p.saveoff + 1 ∧ q.out.map Prod.fst = p.out.map Prod.fst ++ [i] ∧
        q.uio.resid = p.uio.resid - reclen i.name.length ∧ q.uio.moves = p.uio.moves + 1 else q = p := by
  unfold artificial
  by_cases hat : p.saveoff = i.cookie
  · rw [if_pos hat]
    obtain ⟨hfit, hmove⟩ := h hat
    cases hw : write_dirent f p.uio i with
    | none => exact absurd (write_dirent_none hw) (Nat.not_lt.mpr hfit)
    | some w =>
        obtain ⟨u, err, off⟩ := w
        obtain ⟨-, -, herr, hu⟩ := write_dirent_some hw
        obtain rfl := herr.mpr hmove
        obtain rfl := hu rfl
        refine ⟨_, rfl, ?_⟩
        rw [if_pos hat]
        refine ⟨rfl, ?_, rfl, rfl⟩
        rw [List.map_append]
        rfl
  · rw [if_neg hat]
    exact ⟨p, rfl, by rw [if_neg hat]⟩

/-- The artificial entries from a position on. -/
def Directory.dots (d : Directory) (o : Nat) : List Item := [d.dot, d.dotdot].drop o

theorem Directory.dots_length (d : Directory) (o : Nat) : (d.dots o).length = 2 - o := List.length_drop

theorem dots_since (d : Directory) (o : Nat) :
    since Item.cookie d.listing o = d.dots o ++ since Item.cookie d.listing (max o 2) := by
  have hfrom : ∀ k, since Item.cookie d.listing k =
      since Item.cookie [d.dot] k ++ (since Item.cookie [d.dotdot] k ++
        since Item.cookie (d.entries.map Entry.item) k) := fun k => by
    rw [← since_append, ← since_append]
    rfl
  have hone : ∀ (i : Item) k, since Item.cookie [i] k = if k ≤ i.cookie then [i] else [] := fun i k => by
    by_cases hk : k ≤ i.cookie
    · rw [if_pos hk]
      exact since_eq_self fun y hy => List.mem_singleton.mp hy ▸ hk
    · rw [if_neg hk]
      exact since_eq_nil fun y hy => List.mem_singleton.mp hy ▸ Nat.not_le.mp hk
  have hall : ∀ k, k ≤ 2 → since Item.cookie (d.entries.map Entry.item) k = d.entries.map Entry.item := by
    intro k hk
    refine since_eq_self fun y hy => ?_
    obtain ⟨e, he, rfl⟩ := List.mem_map.mp hy
    have hforced := (d.key_eq he).2.1
    simp only [DIRHASH_FORCED] at hforced
    omega
  have hdotc : d.dot.cookie = 0 := rfl
  have hdotdotc : d.dotdot.cookie = 1 := rfl
  obtain rfl | rfl | ho : o = 0 ∨ o = 1 ∨ 2 ≤ o := by omega
  · rw [hfrom 0, hfrom (max 0 2), hone, hone, hone, hone, hall 0 (by decide), hall (max 0 2) (by decide), hdotc,
      hdotdotc]
    rfl
  · rw [hfrom 1, hfrom (max 1 2), hone, hone, hone, hone, hall 1 (by decide), hall (max 1 2) (by decide), hdotc,
      hdotdotc]
    rfl
  · rw [Nat.max_eq_left ho, Directory.dots, List.drop_eq_nil_of_le ho, List.nil_append]

/-- What comes before the loop. -/
theorem readdir_loop {o resid : Nat} (hresid : maxReclen ≤ resid) (hmove : ∀ i < 2 - o, f.move i = none) :
    ∃ p, readdir d f o resid = finish (scan f (readdirFeed d f (max o 2 ||| DIRHASH_VISIBLE)).2
        (readdirFeed d f (max o 2 ||| DIRHASH_VISIBLE)).1 f.stack p) ∧
      p.out.map Prod.fst = d.dots o ∧ p.uio.moves = 2 - o ∧ p.uio.resid = resid - size (d.dots o) := by
  have hlen : maxReclen = 280 ∧ reclen d.dot.name.length = 32 ∧ reclen d.dotdot.name.length = 32 := by
    show maxReclen = 280 ∧ reclen 1 = 32 ∧ reclen 2 = 32
    decide
  have hrun : ∀ {q t : Progress}, artificial f d.dot ⟨⟨o, resid, 0⟩, o, []⟩ = .inr q →
      artificial f d.dotdot q = .inr t → t.saveoff = max o 2 →
      readdir d f o resid = finish (scan f (readdirFeed d f (max o 2 ||| DIRHASH_VISIBLE)).2
        (readdirFeed d f (max o 2 ||| DIRHASH_VISIBLE)).1 f.stack t) := by
    intro q t hq ht hsave
    unfold readdir
    rw [hq]
    dsimp only
    rw [ht]
    dsimp only
    rw [hsave]
  have hdotc : d.dot.cookie = 0 := rfl
  have hdotdotc : d.dotdot.cookie = 1 := rfl
  obtain ⟨q, hq, hdot⟩ := @artificial_spec f d.dot ⟨⟨o, resid, 0⟩, o, []⟩ fun hat => by
    rw [hdotc] at hat
    dsimp only at hat ⊢
    exact ⟨by omega, hmove 0 (by omega)⟩
  dsimp only at hdot
  rw [hdotc] at hdot
  obtain rfl | rfl | ho : o = 0 ∨ o = 1 ∨ 2 ≤ o := by omega
  · rw [if_pos rfl] at hdot
    obtain ⟨hsave, hout, hroom, hcalls⟩ := hdot
    obtain ⟨t, ht, hdotdot⟩ := @artificial_spec f d.dotdot q fun _ => by
      rw [hroom, hcalls]
      exact ⟨by omega, hmove 1 (by decide)⟩
    rw [hsave, hdotdotc, if_pos rfl] at hdotdot
    obtain ⟨hsave', hout', hroom', hcalls'⟩ := hdotdot
    refine ⟨t, hrun hq ht hsave', by rw [hout', hout]; rfl, by rw [hcalls', hcalls], ?_⟩
    rw [hroom', hroom]
    show resid - reclen d.dot.name.length - reclen d.dotdot.name.length =
      resid - (reclen d.dot.name.length + (reclen d.dotdot.name.length + 0))
    omega
  · rw [if_neg Nat.one_ne_zero] at hdot
    subst hdot
    obtain ⟨t, ht, hdotdot⟩ := @artificial_spec f d.dotdot ⟨⟨1, resid, 0⟩, 1, []⟩ fun _ => by
      dsimp only
      exact ⟨by omega, hmove 0 (by decide)⟩
    rw [hdotdotc, if_pos rfl] at hdotdot
    obtain ⟨hsave', hout', hroom', hcalls'⟩ := hdotdot
    exact ⟨t, hrun hq ht hsave', hout', hcalls', hroom'⟩
  · rw [if_neg (by omega)] at hdot
    subst hdot
    obtain ⟨t, ht, hdotdot⟩ := @artificial_spec f d.dotdot ⟨⟨o, resid, 0⟩, o, []⟩ fun hat => by
      rw [hdotdotc] at hat
      dsimp only at hat
      omega
    rw [hdotdotc, if_neg (by dsimp only; omega)] at hdotdot
    subst hdotdot
    have hnodots : d.dots o = [] := List.drop_eq_nil_of_le ho
    refine ⟨_, hrun hq ht (Nat.max_eq_left ho).symm, hnodots.symm, (Nat.sub_eq_zero_of_le ho).symm, ?_⟩
    rw [hnodots]
    rfl

/-- Nothing is found behind the last entry. -/
theorem search_nil {o : Nat} (hlt : max o 2 < 2 ^ 63) (h : ∀ e ∈ d.entries, e.item.cookie < o) :
    search d.entries (max o 2 ||| DIRHASH_VISIBLE) = [] := by
  rw [search_eq, lor_visible hlt]
  refine since_eq_nil fun e he => ?_
  have hkey := (d.key_eq he).1
  have hbefore := h e he
  omega

theorem mem_search {o : Nat} (hlt : o < 2 ^ 63) {e : Entry} (h : e ∈ search d.entries (o ||| DIRHASH_VISIBLE)) :
    e ∈ d.entries ∧ o ≤ e.item.cookie := by
  rw [search_eq, lor_visible hlt] at h
  obtain ⟨he, hkey⟩ := mem_since.mp h
  have hcookie := (d.key_eq he).1
  exact ⟨he, by omega⟩

/-- What is fed is the beginning of what lies behind the position.  It is all of it if the feed
ends without an error. -/
theorem feed_spec {o resid : Nat} (ho : o < 2 ^ 63) (hf : GoesWell d f o resid) :
    let feed := readdirFeed d f (max o 2 ||| DIRHASH_VISIBLE)
    let found := search d.entries (max o 2 ||| DIRHASH_VISIBLE)
    feed.1 <+: found ∧ offered d f o = d.dots o ++ feed.1.map Entry.item ∧
      (feed.2 = none → feed.1 = found ∧ (f.cut = none ∨ ∀ e ∈ d.entries, e.item.cookie < o)) ∧
      (feed.2 ≠ none → f.cut ≠ none) ∧ (feed.1 ≠ [] → f.cut ≠ none → feed.2 ≠ none) ∧
      (feed.1 = [] → feed.2 ≠ none → ∀ i ∈ found.map Entry.item, f.stack &&& DIRHASH_USERMSK ≤ i.cookie) := by
  have hlkey : max o 2 < 2 ^ 63 := max_lt ho (by decide)
  have hitems := @search_items d (max o 2) (Nat.le_max_right ..) hlkey
  intro feed found
  have hlist : since Item.cookie d.listing o = d.dots o ++ found.map Entry.item := by
    rw [dots_since, ← hitems]
  have hoffered : f.cut = none ∧ offered d f o = d.dots o ++ found.map Entry.item ∨ ∃ n err, f.cut = some (n, err) ∧
      offered d f o = d.dots o ++ (found.take n).map Entry.item := by
    unfold offered
    cases hcut : f.cut with
    | none => exact .inl ⟨rfl, hlist⟩
    | some c =>
        refine .inr ⟨c.1, c.2, rfl, ?_⟩
        show (since Item.cookie d.listing o).take (2 - o + c.1) = _
        rw [hlist, ← d.dots_length o, List.take_length_add_append, List.map_take]
  have hfeed : feed = readdirFeed d f (max o 2 ||| DIRHASH_VISIBLE) := rfl
  unfold readdirFeed at hfeed
  split at hfeed
  · next hchain =>
    have hbefore : ∀ e ∈ d.entries, e.item.cookie < o := by
      refine hf.chain.resolve_left fun htrue => ?_
      rw [hchain] at htrue
      cases htrue
    have hnone : found = [] := search_nil hlkey hbefore
    rw [hnone] at hoffered ⊢
    rw [hfeed]
    refine ⟨List.prefix_refl _, ?_, fun _ => ⟨rfl, .inr hbefore⟩, fun h => absurd rfl h, fun h => absurd rfl h,
      fun _ h => absurd rfl h⟩
    rcases hoffered with ⟨-, hoff⟩ | ⟨n, err, -, hoff⟩
    · exact hoff
    · rwa [List.take_nil] at hoff
  · split at hfeed
    · next hcut =>
      rw [hcut] at hoffered
      rw [hfeed, hcut]
      refine ⟨List.prefix_refl _, ?_, fun _ => ⟨rfl, .inl rfl⟩, fun h => absurd rfl h, fun _ h => absurd rfl h,
        fun _ h => absurd rfl h⟩
      rcases hoffered with ⟨-, hoff⟩ | ⟨n, err, hno, -⟩
      · exact hoff
      · cases hno
    · next n err hcut =>
      rw [hcut] at hoffered
      rw [hfeed, hcut]
      refine ⟨List.take_prefix .., ?_, nofun, nofun, nofun, fun hempty _ i hi => ?_⟩
      · rcases hoffered with ⟨hno, -⟩ | ⟨m, err', heq, hoff⟩
        · cases hno
        · obtain ⟨rfl, rfl⟩ := Prod.mk.inj (Option.some.inj heq)
          exact hoff
      · obtain ⟨e, he, rfl⟩ : ∃ e ∈ found, e.item = i := List.mem_map.mp hi
        obtain ⟨hin, hbehind⟩ := mem_search hlkey he
        rcases hf.cut n err hcut with hn | hstack
        · have hnone : found = [] := (List.take_eq_nil_iff.mp hempty).resolve_left hn
          rw [hnone] at he
          cases he
        · exact hstack e hin (le_trans (Nat.le_max_left ..) hbehind)

theorem Moves.append {failed : Prop} : ∀ {a b : List Item} {moves resid : Nat},
    Moves f failed moves resid (a ++ b) → size a ≤ resid →
      Moves f failed (moves + a.length) (resid - size a) b
  | [], _, _, _, h, _ => h
  | x :: a, b, moves, resid, h, hfit => by
      rw [size_cons] at hfit ⊢
      have htail := Moves.append (h.tail (by omega)) (by omega : size a ≤ resid - reclen x.name.length)
      rwa [Nat.sub_sub, Nat.add_assoc, Nat.add_comm 1] at htail

theorem dots_size (d : Directory) (o : Nat) : size (d.dots o) ≤ 64 := by
  have hlen : reclen d.dot.name.length = 32 ∧ reclen d.dotdot.name.length = 32 := by
    show reclen 1 = 32 ∧ reclen 2 = 32
    decide
  obtain rfl | rfl | ho : o = 0 ∨ o = 1 ∨ 2 ≤ o := by omega
  · show reclen d.dot.name.length + (reclen d.dotdot.name.length + 0) ≤ 64
    omega
  · show reclen d.dotdot.name.length + 0 ≤ 64
    omega
  · rw [Directory.dots, List.drop_eq_nil_of_le ho]
    exact Nat.zero_le _

/-- In a call that goes well the artificial entries are moved, and so are those of the feed. -/
theorem GoesWell.split {o resid : Nat} (ho : o < 2 ^ 63) (hresid : maxReclen ≤ resid) (hf : GoesWell d f o resid) :
    (∀ i < 2 - o, f.move i = none) ∧
      Moves f ((readdirFeed d f (max o 2 ||| DIRHASH_VISIBLE)).2 ≠ none) (2 - o) (resid - size (d.dots o))
        ((readdirFeed d f (max o 2 ||| DIRHASH_VISIBLE)).1.map Entry.item) := by
  obtain ⟨-, hoffered, -, -, hfails, -⟩ := feed_spec ho hf
  have hmoves := hf.moves
  have hmax : maxReclen = 280 := by decide
  have hsize := dots_size d o
  have hroom : size (d.dots o) ≤ resid := by omega
  have hlength := d.dots_length o
  rw [hoffered] at hmoves
  constructor
  · intro i hi
    by_contra hmove
    have hfit : size ((d.dots o ++ (readdirFeed d f (max o 2 ||| DIRHASH_VISIBLE)).1.map Entry.item).take (i + 1)) ≤
        resid := by
      rw [List.take_append_of_le_length (by omega)]
      refine le_trans ?_ hroom
      conv => rhs; rw [← List.take_append_drop (i + 1) (d.dots o), size_append]
      exact Nat.le_add_right ..
    obtain ⟨hlast, -, hbehind⟩ := hmoves i (by rw [List.length_append]; omega) hfit (by rwa [Nat.zero_add])
    omega
  · intro i hi hfit hmove
    have hloop := hmoves.append hroom
    rw [Nat.zero_add, hlength] at hloop
    obtain ⟨hlast, hcut, -⟩ := hloop i hi hfit hmove
    refine ⟨hlast, hfails (fun hempty => ?_) hcut⟩
    rw [hempty] at hi
    cases hi

/-- The position at an entry. -/
theorem mask_cookie (e : Entry) : e.key &&& DIRHASH_USERMSK &&& DIRHASH_USERMSK = e.item.cookie := by
  rw [usermsk_eq, usermsk_eq, Nat.mod_mod]
  exact (usermsk_eq _).symm

/-- What is behind the position of an entry that was found. -/
theorem since_found {o : Nat} {before behind : List Item} {e : Entry}
    (h : since Item.cookie d.listing o = before ++ e.item :: behind) :
    since Item.cookie d.listing e.item.cookie = e.item :: behind := by
  obtain ⟨front, hfront⟩ := d.increasing.since_suffix o
  rw [h, ← List.append_assoc] at hfront
  rw [← hfront]
  exact since_cookie (hfront ▸ d.increasing)

/-- Nothing is behind the position that is left at the end. -/
theorem since_end (h : ∀ e ∈ d.entries, e.key ≠ KEY_MAX) :
    since Item.cookie d.listing (KEY_MAX &&& DIRHASH_USERMSK) = [] := by
  have hend : KEY_MAX &&& DIRHASH_USERMSK = 2 ^ 63 - 1 := by decide
  rw [hend]
  refine since_eq_nil fun i hi => ?_
  rcases List.mem_cons.mp hi with rfl | hi
  · show 0 < 2 ^ 63 - 1
    decide
  rcases List.mem_cons.mp hi with rfl | hi
  · show 1 < 2 ^ 63 - 1
    decide
  obtain ⟨e, he, rfl⟩ := List.mem_map.mp hi
  have hne := h e he
  obtain ⟨hkey, -, hlt⟩ := d.key_eq he
  simp only [DIRHASH_VISIBLE, KEY_MAX] at hkey hne
  omega

/-- **One call**, from a position that stands for the entries behind it. -/
theorem readdir_resumes {o resid : Nat} (ho : o < 2 ^ 63) (hresid : maxReclen ≤ resid)
    (hf : GoesWell d f o resid) : Resumes d (since Item.cookie d.listing o) f (readdir d f o resid) := by
  obtain ⟨hmove, hmoves⟩ := hf.split ho hresid
  obtain ⟨p, hrun, hdots, hcalls, hroom⟩ := @readdir_loop d f o resid hresid hmove
  have hitems := @search_items d (max o 2) (Nat.le_max_right ..) (max_lt ho (by decide))
  have hlist := dots_since d o
  have hsize : size (d.dots o) ≤ resid := by
    have hmax : maxReclen = 280 := by decide
    have hsmall := dots_size d o
    omega
  obtain ⟨⟨rest, hrest⟩, -, hwhole, hcut, -, hstack⟩ := feed_spec ho hf
  generalize readdirFeed d f (max o 2 ||| DIRHASH_VISIBLE) = feed at hrun hrest hwhole hcut hstack hmoves
  obtain ⟨es, last⟩ := feed
  dsimp only at hrun hrest hwhole hcut hstack hmoves
  rw [← hitems, ← hrest] at hlist
  rw [← hcalls, ← hroom] at hmoves
  obtain ⟨q, key, r, out, hscan, hout, hends⟩ := @scan_spec f last es f.stack p hmoves
  rw [hscan] at hrun
  rw [hdots] at hout
  -- a position at an entry that was found
  have hat : ∀ {init : List Entry} {e : Entry} {post : List Entry}, es = init ++ e :: post →
      since Item.cookie d.listing o =
        (d.dots o ++ init.map Entry.item) ++ e.item :: (post ++ rest).map Entry.item := by
    rintro init e post rfl
    rw [hlist]
    simp only [List.map_append, List.map_cons, List.append_assoc, List.cons_append]
  cases hends with
  | @full pre e post heq hfull =>
      have hgot : (readdir d f o resid).items = d.dots o ++ pre.map Entry.item := by
        rw [hrun]
        exact hout
      have hdrop : (since Item.cookie d.listing o).drop (readdir d f o resid).items.length =
          e.item :: (post ++ rest).map Entry.item := by
        rw [hgot, hat heq, List.drop_left]
      have hoffset : (readdir d f o resid).offset = e.item.cookie := by
        rw [hrun]
        exact mask_cookie e
      have hbehind : since Item.cookie d.listing (readdir d f o resid).offset =
          e.item :: (post ++ rest).map Entry.item := by
        rw [hoffset]
        exact since_found (hat heq)
      refine ⟨?_, ?_, fun _ => ⟨?_, fun _ hnone => ?_, ?_⟩, fun _ _ => ?_⟩
      · rw [hgot, hat heq]
        exact List.prefix_append ..
      · have hleft := hdrop.trans hbehind.symm
        exact hleft ▸ List.suffix_refl _
      · rw [hdrop, hbehind]
      · -- nothing was returned, so the room was the whole buffer
        rw [hgot] at hnone
        obtain ⟨hnodots, hnopre⟩ := List.append_eq_nil_iff.mp hnone
        have hsmall := hfull (List.map_eq_nil_iff.mp hnopre)
        rw [hroom, hnodots] at hsmall
        exact absurd hsmall (Nat.not_lt.mpr (le_trans (reclen_le e) hresid))
      · rw [hdrop, hrun]
        exact ⟨by rintro ⟨⟩, by rintro ⟨⟩⟩
      · rw [hrun]
        rfl
  | fed hfits =>
      cases last with
      | none =>
          obtain ⟨hall, hgood⟩ := hwhole rfl
          have hgot : (readdir d f o resid).items = since Item.cookie d.listing o := by
            rw [hlist, hrest, ← hall, hrun]
            exact hout
          have hdrop : (since Item.cookie d.listing o).drop (readdir d f o resid).items.length = [] := by
            rw [hgot, List.drop_length]
          have hhighest : ∀ e ∈ d.entries, e.key ≠ KEY_MAX := by
            rcases hgood with hnocut | hbefore
            · refine hf.highest hnocut ?_
              rw [hlist, hrest, ← hall, size_append]
              omega
            · intro e he hkey
              have hcookie := (d.key_eq he).1
              have hlt := hbefore e he
              simp only [DIRHASH_VISIBLE, KEY_MAX] at hcookie hkey
              omega
          have hbehind : since Item.cookie d.listing (readdir d f o resid).offset = [] := by
            rw [hrun]
            exact since_end hhighest
          refine ⟨hgot ▸ List.prefix_refl _, ?_, fun _ => ⟨?_, fun hne hnone => hne (hgot ▸ hnone), ?_⟩,
            fun _ _ => ?_⟩
          · rw [hdrop]
            exact List.nil_suffix
          · rw [hdrop, hbehind]
          · rw [hdrop, hrun]
            exact ⟨fun _ => rfl, fun _ => rfl⟩
          · rw [hrun]
            rfl
      | some err =>
          have hfinish : readdir d f o resid = done { q with saveoff :=
              ((es.getLast?.map Entry.key).getD f.stack) &&& DIRHASH_USERMSK } false (some err.toError) := by
            rw [hrun]
            cases err <;> rfl
          have hgot : (readdir d f o resid).items = d.dots o ++ es.map Entry.item := by
            rw [hfinish]
            exact hout
          have hafter : since Item.cookie d.listing o =
              (d.dots o ++ es.map Entry.item) ++ rest.map Entry.item := by
            rw [hlist, List.map_append, List.append_assoc]
          have hdrop : (since Item.cookie d.listing o).drop (readdir d f o resid).items.length =
              rest.map Entry.item := by
            rw [hgot, hafter, List.drop_left]
          have herror : (readdir d f o resid).error = some err.toError := by
            rw [hfinish]
            rfl
          refine ⟨?_, ?_, fun hok => ?_, fun _ hok => absurd hok (hcut (by rintro ⟨⟩))⟩
          · rw [hgot, hafter]
            exact List.prefix_append ..
          · rw [hdrop]
            rcases List.eq_nil_or_concat es with rfl | ⟨init, x, rfl⟩
            · -- the position is what the stack holds
              have hbefore := hstack rfl (by rintro ⟨⟩)
              have hoffset : (readdir d f o resid).offset = f.stack &&& DIRHASH_USERMSK := by
                rw [hfinish]
                show f.stack &&& DIRHASH_USERMSK &&& DIRHASH_USERMSK = _
                rw [usermsk_eq, usermsk_eq, Nat.mod_mod]
              rw [List.nil_append] at hrest
              rw [hitems] at hbefore
              rw [hoffset, hrest, hitems]
              exact d.increasing.since_suffix_since hbefore
            · have hoffset : (readdir d f o resid).offset = x.item.cookie := by
                rw [hfinish, List.concat_eq_append, List.getLast?_concat]
                exact mask_cookie x
              rw [hoffset, since_found (hat (List.concat_eq_append ..))]
              exact List.suffix_cons ..
          · rw [herror] at hok
            cases hok
  | @move init e err hlast heq =>
      subst hlast
      have hfinish : readdir d f o resid = done { q with saveoff := e.key &&& DIRHASH_USERMSK } false
          (some err.toError) := by
        rw [hrun]
        cases err <;> rfl
      have hgot : (readdir d f o resid).items = d.dots o ++ init.map Entry.item := by
        rw [hfinish]
        exact hout
      have hdrop : (since Item.cookie d.listing o).drop (readdir d f o resid).items.length =
          e.item :: rest.map Entry.item := by
        rw [hgot, hat heq, List.drop_left, List.nil_append]
      have hoffset : (readdir d f o resid).offset = e.item.cookie := by
        rw [hfinish]
        exact mask_cookie e
      have herror : (readdir d f o resid).error = some err.toError := by
        rw [hfinish]
        rfl
      refine ⟨?_, ?_, fun hok => ?_, fun _ hok => absurd hok (hcut (by rintro ⟨⟩))⟩
      · rw [hgot, hat heq]
        exact List.prefix_append ..
      · have hleft := hdrop.trans (since_found (hat heq)).symm
        rw [hoffset]
        exact hleft ▸ List.suffix_refl _
      · rw [herror] at hok
        cases hok

/-! ## Calls one after the other -/

/-- A position a caller may start from: where a call left off, or the `d_off` of an item it returned.
`after` is what follows there. -/
structure Point where
  offset : Nat
  item : Option Item
  after : List Item
deriving DecidableEq

/-- A call from one of the points known so far.  The buffer has the space of the largest entry. -/
structure Call where
  point : Nat
  resid : Nat
  room : maxReclen ≤ resid
  faults : Faults

/-- The points of a call: where it left off, and each `d_off`.  Behind the position of a call that
failed is what is there. -/
def points (d : Directory) (p : Point) (r : Reply) : List Point :=
  ⟨r.offset, none, if r.error = none then p.after.drop r.items.length else since Item.cookie d.listing r.offset⟩ ::
    r.out.mapIdx fun k x => ⟨x.2, some x.1, p.after.drop (k + 1)⟩

def start (d : Directory) : List Point := [⟨0, none, d.listing⟩]

def step (d : Directory) (s : List Point) (c : Call) : List Point :=
  match s[c.point]? with
  | none => s
  | some p => s ++ points d p (readdir d c.faults p.offset c.resid)

/-- The call goes well, and if it starts at the `d_off` of an item, that lies past the cookie of the
item and not past the cookie of any that follows. -/
structure CallOk (d : Directory) (p : Point) (c : Call) : Prop where
  well : GoesWell d c.faults p.offset c.resid
  cookie : ∀ i, p.item = some i → i.cookie < p.offset ∧ p.offset < 2 ^ 63 ∧ ∀ y ∈ p.after, p.offset ≤ y.cookie

inductive Reachable (d : Directory) : List Point → Prop
  | start : Reachable d (start d)
  | call {s : List Point} {c : Call} : Reachable d s → (∀ p, s[c.point]? = some p → CallOk d p c) →
      Reachable d (step d s c)

/-- What a point says: a position left by a call stands for what follows, and an item that was returned
is in the listing in front of what follows it. -/
structure Point.Ok (d : Directory) (p : Point) : Prop where
  left : p.item = none → p.offset < 2 ^ 63 ∧ since Item.cookie d.listing p.offset = p.after
  item : ∀ i, p.item = some i → ∃ pre, d.listing = pre ++ i :: p.after

/-- The `d_off` of an item stands for what follows it exactly under the condition of `CallOk`. -/
theorem Point.Ok.cookie_iff {p : Point} (hp : p.Ok d) {i : Item} (hi : p.item = some i) :
    since Item.cookie d.listing p.offset = p.after ↔ i.cookie < p.offset ∧ ∀ y ∈ p.after, p.offset ≤ y.cookie := by
  obtain ⟨pre, hpre⟩ := hp.item i hi
  have hincreasing := d.increasing
  rw [hpre] at hincreasing ⊢
  exact since_eq_iff hincreasing

/-- Where a call that meets the condition starts, the rest follows. -/
theorem CallOk.position {p : Point} {c : Call} (hp : p.Ok d) (hc : CallOk d p c) :
    p.offset < 2 ^ 63 ∧ since Item.cookie d.listing p.offset = p.after := by
  cases hi : p.item with
  | none => exact hp.left hi
  | some i =>
      obtain ⟨hpast, hlt, hbefore⟩ := hc.cookie i hi
      exact ⟨hlt, (hp.cookie_iff hi).mpr ⟨hpast, hbefore⟩⟩

theorem CallOk.resumes {p : Point} {c : Call} (hp : p.Ok d) (hc : CallOk d p c) :
    Resumes d p.after c.faults (readdir d c.faults p.offset c.resid) := by
  obtain ⟨hlt, hafter⟩ := hc.position hp
  rw [← hafter]
  exact readdir_resumes hlt c.room hc.well

/-- A position that is left has no bit 63. -/
theorem readdir_offset {o resid : Nat} : (readdir d f o resid).offset < 2 ^ 63 := by
  have hdone : ∀ p eof error, (done p eof error).offset < 2 ^ 63 := fun p eof error => by
    show p.saveoff &&& DIRHASH_USERMSK < 2 ^ 63
    rw [usermsk_eq]
    exact Nat.mod_lt _ (Nat.two_pow_pos 63)
  have hfinish : ∀ x, (finish x).offset < 2 ^ 63 := fun x => by
    unfold finish
    split <;> exact hdone ..
  have hartificial : ∀ i p r, artificial f i p = .inl r → r.offset < 2 ^ 63 := fun i p r h => by
    unfold artificial at h
    split at h
    · split at h
      · exact Sum.inl.inj h ▸ hdone ..
      · exact Sum.inl.inj h ▸ hdone ..
      · cases h
    · cases h
  unfold readdir
  split
  · next r h => exact hartificial _ _ _ h
  · split
    · next r h => exact hartificial _ _ _ h
    · exact hfinish _

/-- The points of a call that meets the condition. -/
theorem points_ok {p : Point} {c : Call} (hp : p.Ok d) (hc : CallOk d p c) :
    ∀ q ∈ points d p (readdir d c.faults p.offset c.resid), q.Ok d := by
  have hresumes := hc.resumes hp
  obtain ⟨-, hafter⟩ := hc.position hp
  intro q hq
  rcases List.mem_cons.mp hq with rfl | hq
  · refine ⟨fun _ => ⟨readdir_offset, ?_⟩, nofun⟩
    dsimp only
    split
    · next herror => exact (hresumes.clean herror).1
    · rfl
  · obtain ⟨k, hk, rfl⟩ := List.mem_mapIdx.mp hq
    refine ⟨nofun, fun i hi => ?_⟩
    obtain rfl := Option.some.inj hi
    obtain ⟨front, hfront⟩ := d.increasing.since_suffix p.offset
    obtain ⟨rest, hrest⟩ := hresumes.delivered
    rw [hafter] at hfront
    have hitem : p.after[k]? = some ((readdir d c.faults p.offset c.resid).out[k]).1 := by
      rw [← hrest, List.getElem?_append_left (by rw [Reply.items, List.length_map]; exact hk), Reply.items,
        List.getElem?_map, List.getElem?_eq_getElem hk]
      rfl
    obtain ⟨hlt, heq⟩ := List.getElem?_eq_some_iff.mp hitem
    refine ⟨front ++ p.after.take k, ?_⟩
    dsimp only
    rw [← heq, List.append_assoc, ← List.drop_eq_getElem_cons hlt, List.take_append_drop, hfront]

/-- **The invariant of a run.** -/
theorem Reachable.ok {s : List Point} (h : Reachable d s) : ∀ p ∈ s, p.Ok d := by
  induction h with
  | start =>
      intro p hp
      rw [List.mem_singleton.mp hp]
      exact ⟨fun _ => ⟨Nat.two_pow_pos 63, since_eq_self fun _ _ => Nat.zero_le _⟩, nofun⟩
  | @call s c _ hc ih =>
      unfold step
      split
      · exact ih
      · next q hq =>
        intro p hp
        rcases List.mem_append.mp hp with hp | hp
        · exact ih p hp
        · exact points_ok (ih q (List.mem_of_getElem? hq)) (hc q hq) p hp

/-- Calls one after the other, each from where the last one left off, until the end is seen. -/
def sweep (d : Directory) (f : Faults) : List Nat → Nat → List Item × Bool
  | [], _ => ([], false)
  | resid :: rs, o =>
      let r := readdir d f o resid
      if r.eof then (r.items, true)
      else
        let t := sweep d f rs r.offset
        (r.items ++ t.1, t.2)

/-- Nothing fails. -/
structure Faults.Calm (f : Faults) : Prop where
  chain : f.chain = true
  cut : f.cut = none
  move : ∀ i, f.move i = none

theorem Faults.Calm.goesWell (hf : f.Calm) (h : ∀ e ∈ d.entries, e.key ≠ KEY_MAX) (o resid : Nat) :
    GoesWell d f o resid where
  moves := fun i _ _ hmove => absurd (hf.move _) hmove
  chain := .inl hf.chain
  cut := fun n err hcut => by
    rw [hf.cut] at hcut
    cases hcut
  highest := fun _ _ => h

/-- Each call returns something, so as many calls as there are items and one more see the end. -/
theorem sweep_all (hf : f.Calm) (h : ∀ e ∈ d.entries, e.key ≠ KEY_MAX) : ∀ {rs : List Nat} {o : Nat}, o < 2 ^ 63 →
    (∀ resid ∈ rs, maxReclen ≤ resid) → (since Item.cookie d.listing o).length < rs.length →
    sweep d f rs o = (since Item.cookie d.listing o, true)
  | [], _, _, _, hlen => absurd hlen (Nat.not_lt_zero _)
  | resid :: rs, o, ho, hroom, hlen => by
      obtain ⟨hresid, hrest⟩ := List.forall_mem_cons.mp hroom
      have hresumes := readdir_resumes ho hresid (hf.goesWell h o resid)
      obtain ⟨hleft, hsome, heof⟩ := hresumes.clean (hresumes.honest hf.move hf.cut)
      have hall : (readdir d f o resid).items ++ (since Item.cookie d.listing o).drop
          (readdir d f o resid).items.length = since Item.cookie d.listing o := by
        obtain ⟨rest, hrest⟩ := hresumes.delivered
        rw [← hrest, List.drop_left]
      unfold sweep
      dsimp only
      split
      · next hend =>
        rw [heof.mp hend, List.append_nil] at hall
        rw [hall]
      · next hend =>
        have hmore : (since Item.cookie d.listing o).drop (readdir d f o resid).items.length ≠ [] :=
          fun hnil => hend (heof.mpr hnil)
        have hne : since Item.cookie d.listing o ≠ [] := fun hnil => hmore (by rw [hnil, List.drop_nil])
        have hshort : ((since Item.cookie d.listing (readdir d f o resid).offset)).length < rs.length := by
          have hpos := List.length_pos_iff.mpr (hsome hne)
          have hall := List.length_pos_iff.mpr hne
          rw [hleft, List.length_drop]
          rw [List.length_cons] at hlen
          omega
        rw [sweep_all hf h readdir_offset hrest hshort, hleft]
        dsimp only
        rw [hall]

/-- **Directory enumeration.**  In every state of a run whose calls meet the condition, the next call
that meets it resumes where it starts; and calls without a failure that follow each other from there
return all that follows, and then the end. -/
theorem run_resumes {s : List Point} (h : Reachable d s) {c : Call} {p : Point} (hp : s[c.point]? = some p)
    (hc : CallOk d p c) : Resumes d p.after c.faults (readdir d c.faults p.offset c.resid) ∧
      ∀ {rs : List Nat}, (∀ e ∈ d.entries, e.key ≠ KEY_MAX) → c.faults.Calm → (∀ resid ∈ rs, maxReclen ≤ resid) →
        p.after.length < rs.length → sweep d c.faults rs p.offset = (p.after, true) := by
  have hok := h.ok p (List.mem_of_getElem? hp)
  refine ⟨hc.resumes hok, fun hkey hcalm hroom hlen => ?_⟩
  obtain ⟨hlt, hafter⟩ := hc.position hok
  rw [← hafter] at hlen ⊢
  exact sweep_all hcalm hkey hlt hroom hlen

/-- No failure. -/
def calm : Faults := ⟨true, none, fun _ => none, 0⟩

theorem calm_calm : calm.Calm := ⟨rfl, rfl, fun _ => rfl⟩

theorem letter_short : ([97] : List UInt8).length < 256 := by decide

/-- An entry at the first hashed key. -/
def letter : Entry := ⟨.dirent, 0x8000000000008000, 5, .regfile, ⟨[97], nofun, letter_short⟩⟩

def oneFile : Directory where
  inum := 4
  iparent := 1
  iroot := false
  entries := [letter]
  sorted := List.pairwise_singleton ..
  hashed := fun e he => by
    rw [List.mem_singleton.mp he]
    decide

/-- Here all is read in one call, and a second one starts at the `d_off` of `..`. -/
theorem run_resumes_letter : (step oneFile (start oneFile) ⟨0, 280, by decide, calm⟩)[3]? =
      some ⟨64, some oneFile.dotdot, [letter.item]⟩ ∧
    Resumes oneFile [letter.item] calm (readdir oneFile calm 64 280) := by
  have hkey : ∀ e ∈ oneFile.entries, e.key ≠ KEY_MAX := fun e he => by
    rw [List.mem_singleton.mp he]
    decide
  have hpoint : (step oneFile (start oneFile) ⟨0, 280, by decide, calm⟩)[3]? =
      some ⟨64, some oneFile.dotdot, [letter.item]⟩ := by decide
  refine ⟨hpoint, (@run_resumes oneFile _ (.call .start fun p hp => ?_) ⟨3, 280, by decide, calm⟩ _ hpoint ?_).1⟩
  · obtain rfl := Option.some.inj hp
    exact ⟨calm_calm.goesWell hkey .., nofun⟩
  · refine ⟨calm_calm.goesWell hkey .., fun i hi => ?_⟩
    obtain rfl := Option.some.inj hi
    decide

def noFile : Directory := ⟨4, 1, false, [], List.Pairwise.nil, nofun⟩

/-- The `d_off` of `.` is 32, and what follows it is at 1. -/
theorem d_off_skips : (step noFile (start noFile) ⟨0, 280, by decide, calm⟩)[2]? =
      some ⟨32, some noFile.dot, [noFile.dotdot]⟩ ∧
    ¬ Resumes noFile [noFile.dotdot] calm (readdir noFile calm 32 280) := by
  refine ⟨by decide, fun h => ?_⟩
  have hnone : (readdir noFile calm 32 280).items = [] := by decide
  exact (h.clean (by decide)).2.1 nofun hnone

end Hammer2.Readdir
