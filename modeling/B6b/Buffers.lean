/-
# The terminator of a string

A string object has a block of memory and a length, and behind its bytes there is a terminator that
is not counted: `strtod`, `strcmp` and the lookahead of `str.expand` rely on it. Each constructor of a
string makes the block by hand, with a length arithmetic of its own. Here they are with their blocks
(`Origin.made`), and what they hold is what the constructors of the model above have (`Str.Is`).

`terminated_iff`: every string has its terminator, but for the buffers of `ffi.pack`, which have none,
those of `inflate` where more has been written than there is room, and copies whose length wraps: of
`ffi.memcpy` with the length -1, and of `str.rtrim` where it has run over the start of the string.

Sizes are those of memory that is there, and are not so large that their sums wrap. The length of a
copy may be anything: that of `ffi.memcpy` comes from a script, and that of `str.rtrim` from an index
that may be -1.

Key definitions: `Str`, `Str.Terminated`, `Origin`, `Origin.made`, `Origin.Keeps`.
-/
import B6b.Expand
import B6b.Ffi
import B6b.Inflate
import B6b.Reading
import B6b.Source
import B6b.Split
import B6b.Trim

namespace B6b

namespace Buffers

open Block

/-- A block of memory. -/
abbrev Buf := List (Option UInt8)

/-- `PTRDIFF_MAX` -/
def ptrdiffMax : ℕ := 2 ^ 63 - 1

/-- A string that is in memory: its block, with the terminator, is no longer than a block can be. -/
abbrev Text := { s : Bytes // s.length < ptrdiffMax }

/-- A string in the memory. -/
structure Stored where
  s : Text
  mem : Trim.Memory
  holds : Trim.Holds mem s.1

/-- A string object: the block at `o->s`, and `o->slen`. -/
structure Str where
  buf : Buf
  slen : ℕ

/-- The block has a byte more than the string, and this is the terminator. -/
def Str.Terminated (o : Str) : Prop := o.slen + 1 ≤ o.buf.length ∧ o.buf[o.slen]? = some (some 0)

/-- The object has this string, and its terminator. -/
structure Str.Is (o : Str) (s : Bytes) : Prop where
  starts : Starts o.buf (s ++ [0])
  slen : o.slen = s.length

variable {s t x d : Bytes} {b : Buf} {o : Str} {n k : ℕ} {c : UInt8}

theorem Str.Is.terminated (h : o.Is s) : o.Terminated := by
  have hlen := h.starts.length_le
  rw [List.length_append, List.length_singleton] at hlen
  refine ⟨by rw [h.slen]; exact hlen, ?_⟩
  refine h.starts.getElem? ?_
  rw [h.slen, List.getElem?_append_right (Nat.le_refl _), Nat.sub_self]
  rfl

/-- A terminator that is stored last is there if there is room for it. -/
theorem terminated_store : Str.Terminated ⟨store b n 0, n⟩ ↔ n < b.length := by
  unfold Str.Terminated
  dsimp only
  rw [getElem?_store_self, length_store, and_iff_right_of_imp Nat.succ_le_of_lt]

/-! ### Copies -/

/-- `malloc` of a size in `size_t`: it fails above `PTRDIFF_MAX`. -/
def mallocSize (n : ℕ) : Option Buf :=
  if n % 2 ^ 64 > ptrdiffMax then none else some (malloc (n % 2 ^ 64))

/-- `b6b_strndup`, of these bytes. -/
def strndup (s : Bytes) : Option Buf :=
  (mallocSize (s.length + 1)).map fun s2 => store (memcpy s2 0 s) s.length 0

/-- `b6b_str_copy` -/
def copy (s : Bytes) : Option Str := (strndup s).map fun s2 => ⟨s2, s.length⟩

/-- Bytes at the start of a block, and the terminator behind them. -/
theorem is_filled (h : s.length < b.length) : Str.Is ⟨store (memcpy b 0 s) s.length 0, s.length⟩ s where
  starts := by
    have hcopy : Starts (memcpy b 0 s) ([] ++ s) := starts_nil.memcpy_at rfl (by omega)
    exact hcopy.store_at rfl (by rwa [length_memcpy])
  slen := rfl

/-- If its size does not wrap, `b6b_strndup` makes a block of that size. -/
theorem strndup_starts (hsize : s.length + 1 < 2 ^ 64) (h : strndup s = some b) :
    b.length = s.length + 1 ∧ Starts b (s ++ [0]) := by
  unfold strndup mallocSize at h
  rw [Nat.mod_eq_of_lt hsize] at h
  split_ifs at h
  · cases h
  · obtain rfl := Option.some.inj h
    refine ⟨by rw [length_store, length_memcpy, length_malloc], (is_filled ?_).starts⟩
    rw [length_malloc]
    exact Nat.lt_succ_self _

theorem copy_of_lt (h : s.length < ptrdiffMax) : ∃ o, copy s = some o ∧ o.Is s := by
  have hmax : ptrdiffMax = 9223372036854775807 := rfl
  have hsize : (s.length + 1) % 2 ^ 64 = s.length + 1 := Nat.mod_eq_of_lt (by omega)
  refine ⟨⟨store (memcpy (malloc (s.length + 1)) 0 s) s.length 0, s.length⟩, ?_, ?_⟩
  · unfold copy strndup mallocSize
    rw [hsize, if_neg (by omega)]
    rfl
  · exact is_filled (by rw [length_malloc]; exact Nat.lt_succ_self _)

/-- A copy is terminated unless its size wraps. -/
theorem copy_terminated_iff (h : copy s = some o) : o.Terminated ↔ s.length + 1 < 2 ^ 64 := by
  unfold copy strndup mallocSize at h
  split_ifs at h
  · cases h
  obtain rfl := Option.some.inj h
  rw [terminated_store, length_memcpy, length_malloc]
  omega

/-! ### Lists and numbers -/

/-- `vasprintf`, `asprintf` and `realpath` make the block themselves. -/
def fmt (s : Bytes) : Str := ⟨memcpy (malloc (s.length + 1)) 0 (s ++ [0]), s.length⟩

theorem fmt_is (s : Bytes) : (fmt s).Is s where
  starts := by
    refine starts_nil.memcpy_at rfl ?_
    rw [length_malloc, List.length_append, List.length_singleton]
    exact Nat.zero_add _ ▸ Nat.le_refl _
  slen := rfl

/-- `malloc(3)` with an empty list. -/
def braces : Str := ⟨store (store (store (malloc 3) 0 lbrac) 1 rbrac) 2 0, 2⟩

/-- One turn of the loop of `b6b_as_str` over the items of a list. There is no string so far while
`o->s` is `NULL`. -/
def joinItemBuf (o : Option Str) (x : Bytes) : Option Str :=
  if x.length ≠ 0 then
    if spaced x then
      match o with
      | some o =>
        let nlen := o.slen + x.length + 3
        let s2 := realloc o.buf (nlen + 1)
        let s2 := store s2 o.slen blank
        let s2 := store s2 (o.slen + 1) lbrac
        let s2 := memcpy s2 (o.slen + 2) x
        let s2 := store s2 (nlen - 1) rbrac
        some ⟨store s2 nlen 0, nlen⟩
      | none =>
        let slen := x.length + 2
        let s := malloc (slen + 1)
        let s := store s 0 lbrac
        let s := memcpy s 1 x
        let s := store s (slen - 1) rbrac
        some ⟨store s slen 0, slen⟩
    else
      match o with
      | some o =>
        let nlen := o.slen + x.length + 1
        let s2 := realloc o.buf (nlen + 1)
        let s2 := store s2 o.slen blank
        let s2 := memcpy s2 (o.slen + 1) x
        some ⟨store s2 nlen 0, nlen⟩
      | none => copy x
  else
    match o with
    | some o =>
      let nlen := o.slen + 3
      let s2 := realloc o.buf (nlen + 1)
      let s2 := store s2 o.slen blank
      let s2 := store s2 (o.slen + 1) lbrac
      let s2 := store s2 (nlen - 1) rbrac
      some ⟨store s2 nlen 0, nlen⟩
    | none => some braces

/-- The loop, and the empty list. -/
def asStrLoop : List Bytes → Option Str → Option Str
  | [], some o => some o
  | [], none => some braces
  | x :: l, o =>
    match joinItemBuf o x with
    | none => none
    | some o => asStrLoop l (some o)

theorem braces_is : braces.Is [lbrac, rbrac] where
  starts := by
    have hopen : Starts (store (malloc 3) 0 lbrac) ([] ++ [lbrac]) := starts_nil.store_at rfl (by decide)
    have hclose := hopen.store_at (i := 1) (c := rbrac) rfl (by decide)
    exact hclose.store_at rfl (by decide)
  slen := rfl

/-- The block of a string, made larger. -/
theorem Str.Is.realloc (h : o.Is s) (hle : o.slen ≤ n) : Starts (Block.realloc o.buf n) s :=
  h.starts.left.realloc (by rw [← h.slen]; exact hle)

/-- An item behind a string: what is written, one behind the other, is at the start of the block. -/
theorem joinItemBuf_some (h : o.Is s) (x : Bytes) :
    ∃ o', joinItemBuf (some o) x = some o' ∧ o'.Is (joinItem (some s) x) := by
  have hlen := h.slen
  unfold joinItemBuf joinItem
  dsimp only
  split_ifs with hx hspaced
  · have hstart : Starts (Block.realloc o.buf (o.slen + x.length + 3 + 1)) s := h.realloc (by omega)
    refine ⟨_, rfl, ?_, by simp [hlen]; omega⟩
    have hsplit : s ++ [blank, lbrac] ++ x ++ [rbrac] ++ [0] =
        s ++ [blank] ++ [lbrac] ++ x ++ [rbrac] ++ [0] := by simp
    rw [hsplit]
    refine .store_at (.store_at (.memcpy_at (.store_at (.store_at hstart hlen ?_) ?_ ?_) ?_ ?_)
      ?_ ?_) ?_ ?_
    all_goals
      simp only [length_store, length_memcpy, length_realloc, List.length_append, List.length_singleton]
      omega
  · have hstart : Starts (Block.realloc o.buf (o.slen + x.length + 1 + 1)) s := h.realloc (by omega)
    refine ⟨_, rfl, ?_, by simp [hlen]; omega⟩
    refine .store_at (.memcpy_at (.store_at hstart hlen ?_) ?_ ?_) ?_ ?_
    all_goals
      simp only [length_store, length_memcpy, length_realloc, List.length_append, List.length_singleton]
      omega
  · have hstart : Starts (Block.realloc o.buf (o.slen + 3 + 1)) s := h.realloc (by omega)
    refine ⟨_, rfl, ?_, by simp [hlen]⟩
    have hsplit : s ++ [blank, lbrac, rbrac] ++ [0] = s ++ [blank] ++ [lbrac] ++ [rbrac] ++ [0] := by simp
    rw [hsplit]
    refine .store_at (.store_at (.store_at (.store_at hstart hlen ?_) ?_ ?_) ?_ ?_) ?_ ?_
    all_goals
      simp only [length_store, length_realloc, List.length_append, List.length_singleton]
      omega

theorem joinItemBuf_none (hx : x.length < ptrdiffMax) :
    ∃ o', joinItemBuf none x = some o' ∧ o'.Is (joinItem none x) := by
  unfold joinItemBuf joinItem
  dsimp only
  split_ifs
  · refine ⟨_, rfl, ?_, by simp⟩
    change Starts _ ([] ++ [lbrac] ++ x ++ [rbrac] ++ [0])
    refine .store_at (.store_at (.memcpy_at (.store_at starts_nil ?_ ?_) ?_ ?_) ?_ ?_) ?_ ?_
    all_goals
      simp only [length_store, length_memcpy, length_malloc, List.length_append, List.length_singleton,
        List.length_nil] <;> omega
  · exact copy_of_lt hx
  · exact ⟨_, rfl, braces_is⟩

/-- **`b6b_as_str` of a list** makes the text of the list. -/
theorem asStrLoop_is : ∀ {l : List Text} {o : Option Str} {s : Option Bytes},
    (o = none ∧ s = none ∨ ∃ o' s', o = some o' ∧ s = some s' ∧ o'.Is s') →
    ∃ o', asStrLoop (l.map (·.1)) o = some o' ∧
      o'.Is (((l.map (·.1)).foldl (fun s x => some (joinItem s x)) s).getD [lbrac, rbrac])
  | [], _, _, .inl ⟨rfl, rfl⟩ => ⟨braces, rfl, braces_is⟩
  | [], _, _, .inr ⟨o', s', rfl, rfl, h⟩ => ⟨o', rfl, h⟩
  | x :: l, o, s, h => by
    have hitem : ∃ o', joinItemBuf o x.1 = some o' ∧ o'.Is (joinItem s x.1) := by
      rcases h with ⟨rfl, rfl⟩ | ⟨o', s', rfl, rfl, h⟩
      · exact joinItemBuf_none x.2
      · exact joinItemBuf_some h x.1
    obtain ⟨o', hrun, his⟩ := hitem
    rw [List.map_cons, asStrLoop, hrun, List.foldl_cons]
    exact asStrLoop_is (.inr ⟨_, _, rfl, rfl, his⟩)

theorem listStr_eq_getD (l : List Bytes) :
    listStr l = (l.foldl (fun s x => some (joinItem s x)) none).getD [lbrac, rbrac] := by
  unfold listStr
  cases l.foldl (fun s x => some (joinItem s x)) none <;> rfl

theorem list_is (l : List Text) :
    ∃ o, asStrLoop (l.map (·.1)) none = some o ∧ o.Is (listStr (l.map (·.1))) := by
  rw [listStr_eq_getD]
  exact asStrLoop_is (.inl ⟨rfl, rfl⟩)

/-- The loop of `b6b_as_str` that strips what `"%.12f"` becomes: from `s[i]` down, for the first `i + 1`
bytes. -/
def stripLoop : ℕ → Buf → ℕ → Str
  | 0, b, out => ⟨b, out⟩
  | i + 1, b, out =>
    if b[i]? = some (some 0x30) then stripLoop i b (out - 1)
    else
      let out := if b[i]? = some (some 0x2e) then out - 1 else out
      ⟨store b out 0, out⟩

/-- `b6b_as_str` of a float, with what `asprintf` makes of it. -/
def asStrFloat (t : Bytes) : Option Str :=
  if t.length = 0 then none else some (stripLoop t.length (fmt t).buf t.length)

/-- A text in front of its trailing zeros. -/
theorem exists_last (h : ∃ c ∈ t, c ≠ 0x30) :
    ∃ u c k, c ≠ 0x30 ∧ t = u ++ [c] ++ List.replicate k 0x30 := by
  induction t using List.reverseRecOn with
  | nil =>
    obtain ⟨c, hc, -⟩ := h
    cases hc
  | append_singleton t d ih =>
    by_cases hd : d = 0x30
    · subst hd
      have ht : ∃ c ∈ t, c ≠ 0x30 := by
        obtain ⟨c, hc, hne⟩ := h
        rcases List.mem_append.mp hc with hc | hc
        · exact ⟨c, hc, hne⟩
        · exact absurd (List.mem_singleton.mp hc) hne
      obtain ⟨u, c, k, hne, rfl⟩ := ih ht
      exact ⟨u, c, k + 1, hne, by simp only [List.replicate_succ', List.append_assoc]⟩
    · exact ⟨t, d, 0, hd, by rw [List.replicate_zero, List.append_nil]⟩

theorem length_zeros (u : Bytes) (c : UInt8) (k : ℕ) :
    (u ++ [c] ++ List.replicate k 0x30).length = u.length + 1 + k := by
  simp only [List.length_append, List.length_singleton, List.length_replicate]

theorem stripZeros_eq {u : Bytes} (hc : c ≠ 0x30) :
    stripZeros (u ++ [c] ++ List.replicate k 0x30) = if c = 0x2e then u else u ++ [c] := by
  have hback : (u ++ [c] ++ List.replicate k 0x30).reverse = List.replicate k 0x30 ++ c :: u.reverse := by
    simp
  have hzeros : ∀ z ∈ List.replicate k (0x30 : UInt8), decide (z = 0x30) = true := fun z hz =>
    decide_eq_true (List.eq_of_mem_replicate hz)
  have hdrop : (List.replicate k 0x30 ++ c :: u.reverse).dropWhile (· = 0x30) = c :: u.reverse := by
    rw [List.dropWhile_append_of_pos hzeros, List.dropWhile_cons_of_neg (by simpa using hc)]
  unfold stripZeros
  rw [hback, hdrop]
  by_cases hdot : c = 0x2e
  · subst hdot
    simp
  · rw [if_neg hdot]
    dsimp only
    split
    · rename_i heq
      exact absurd (List.cons.inj heq).1 hdot
    · simp

/-- The walk over the zeros: it ends at the last byte that is none. -/
theorem stripLoop_zeros {u : Bytes} (hc : c ≠ 0x30) : ∀ {k : ℕ} {v : Bytes},
    Starts b (u ++ [c] ++ List.replicate k 0x30 ++ v) →
    stripLoop (u.length + 1 + k) b (u.length + 1 + k) =
      ⟨store b (if c = 0x2e then u.length else u.length + 1) 0,
        if c = 0x2e then u.length else u.length + 1⟩
  | 0, v, h => by
    have hlast : b[u.length]? = some (some c) := h.getElem? (by simp)
    rw [Nat.add_zero, stripLoop, hlast, if_neg (by simpa using hc)]
    by_cases hdot : c = 0x2e
    · rw [if_pos (by rw [hdot]), if_pos hdot, Nat.add_sub_cancel]
    · rw [if_neg (by simpa using hdot), if_neg hdot]
  | k + 1, v, h => by
    have hsplit : u ++ [c] ++ List.replicate (k + 1) 0x30 ++ v =
        u ++ [c] ++ List.replicate k 0x30 ++ ([0x30] ++ v) := by
      simp only [List.replicate_succ', List.append_assoc]
    rw [hsplit] at h
    have hzero : b[u.length + 1 + k]? = some (some 0x30) := by
      refine h.getElem? ?_
      have hlen := length_zeros u c k
      rw [List.getElem?_append_right (by omega), hlen, Nat.sub_self]
      rfl
    rw [← Nat.add_assoc, stripLoop, hzero, if_pos rfl, Nat.add_sub_cancel]
    exact stripLoop_zeros hc h

/-- A float's text has its terminator, if something is left of it. -/
theorem float_is (h : ∃ c ∈ t, c ≠ 0x30) : ∃ o, asStrFloat t = some o ∧ o.Is (stripZeros t) := by
  obtain ⟨u, c, k, hc, rfl⟩ := exists_last h
  have hlen := length_zeros u c k
  have hstarts := (fmt_is (u ++ [c] ++ List.replicate k 0x30)).starts
  have hroom := hstarts.length_le
  rw [List.length_append, hlen, List.length_singleton] at hroom
  unfold asStrFloat
  rw [if_neg (by omega), hlen, stripLoop_zeros hc hstarts, stripZeros_eq hc]
  refine ⟨_, rfl, ?_, ?_⟩
  · -- the terminator comes right behind what is left
    have hleft : Starts (fmt (u ++ [c] ++ List.replicate k 0x30)).buf (u ++ [c]) := hstarts.left.left
    by_cases hdot : c = 0x2e
    · rw [if_pos hdot, if_pos hdot]
      exact hleft.left.store_at rfl (by omega)
    · rw [if_neg hdot, if_neg hdot]
      exact hleft.store_at (by simp) (by omega)
  · dsimp only
    split_ifs
    · rfl
    · simp

/-- Of a text of zeros nothing is left, and no terminator is stored. -/
theorem stripLoop_all : ∀ {k : ℕ}, Starts b (List.replicate k 0x30 : Bytes) → stripLoop k b k = ⟨b, 0⟩
  | 0, _ => rfl
  | k + 1, h => by
    rw [List.replicate_succ'] at h
    have hzero : b[k]? = some (some 0x30) := h.getElem? (by simp)
    rw [stripLoop, hzero, if_pos rfl, Nat.add_sub_cancel]
    exact stripLoop_all h.left

theorem float_zeros (h : ∀ c ∈ t, c = 0x30) (ho : asStrFloat t = some o) : ¬ o.Terminated := by
  have ht : t = List.replicate t.length 0x30 := List.eq_replicate_of_mem h
  have hstarts : Starts (fmt t).buf (List.replicate t.length 0x30 : Bytes) := ht ▸ (fmt_is t).starts.left
  unfold asStrFloat at ho
  split_ifs at ho with hpos
  obtain rfl := Option.some.inj ho
  rw [stripLoop_all hstarts]
  rintro ⟨-, hnul⟩
  have hfirst : (fmt t).buf[0]? = some (some 0x30) := by
    refine hstarts.getElem? ?_
    rw [List.getElem?_replicate, if_pos (Nat.pos_of_ne_zero hpos)]
  rw [hfirst] at hnul
  cases hnul

/-! ### The procedures of strings -/

/-- The loop of `b6b_str_proc_join`. -/
def joinLoop (d : Bytes) : List Bytes → Str → Str
  | [], o => o
  | x :: l, o =>
    let mlen := o.slen + d.length + x.length
    let ms := Block.realloc o.buf (mlen + 1)
    let ms := memcpy ms o.slen d
    let ms := memcpy ms (o.slen + d.length) x
    joinLoop d l ⟨ms, mlen⟩

/-- `b6b_str_proc_join`, behind its arguments. -/
def join (d : Bytes) : List Bytes → Option Str
  | [] => copy []
  | x :: l =>
    let o := joinLoop d l ⟨memcpy (malloc (x.length + 1)) 0 x, x.length⟩
    some ⟨store o.buf o.slen 0, o.slen⟩

/-- `b6b_str_proc_chr` of an integer. -/
def chr (n : ℤ) : Option Str :=
  if n < 0 ∨ n > 255 then none
  else
    let buf := malloc 2
    let buf := store buf 0 (UInt8.ofInt n)
    some ⟨store buf 1 0, 1⟩

/-- `b6b_str_proc_rtrim`, behind its argument. -/
def rtrim (x : Stored) : Option Str :=
  (Trim.rtrim x.mem x.s.1.length).bind fun r => copy (Trim.copied x.mem r.len)

/-- `b6b_str_proc_expand`: `out` is what its loop has written. -/
def expand (s : Bytes) : Option Str :=
  match Expand.expandLoop s 0 [] with
  | .error _ => none
  | .ok out => some ⟨store (memcpy (malloc (s.length + 1)) 0 out) out.length 0, out.length⟩

/-- `b6b_core_proc_repr`, where it makes a string. -/
def repr (s : Bytes) : Option Str :=
  if s.length ≥ 2 ^ 64 - 1 - 2 then none
  else if s.length = 0 then copy [lbrac, rbrac]
  else if ¬ (s.head? = some lbrac ∧ s.getLast? = some rbrac) ∧ spaced s then
    let len := s.length + 2
    let buf := malloc (len + 1)
    let buf := store buf 0 lbrac
    let buf := memcpy buf 1 s
    let buf := store buf (s.length + 1) rbrac
    some ⟨store buf len 0, len⟩
  else none

/-- The string that `b6b_source` makes of the content of a file. -/
def source (s : Bytes) : Option Str :=
  if s.length = 0 ∨ (s.length : ℤ) ≥ ssizeMax then none
  else
    match s with
    | 0x23 :: 0x21 :: _ => (sourceText s).bind copy
    | _ => some ⟨store (memcpy (malloc (s.length + 1)) 0 s) s.length 0, s.length⟩

/-- The string of the loop: a byte is left for the terminator. -/
structure Str.Open (o : Str) (s : Bytes) : Prop where
  starts : Starts o.buf s
  slen : o.slen = s.length
  room : o.slen < o.buf.length

theorem Str.Open.close (h : o.Open s) : Str.Is ⟨store o.buf o.slen 0, o.slen⟩ s :=
  ⟨h.starts.store_at h.slen h.room, h.slen⟩

theorem joinLoop_open : ∀ {l : List Bytes} {o : Str} {s : Bytes}, o.Open s →
    (joinLoop d l o).Open (l.foldl (fun s y => s ++ d ++ y) s)
  | [], _, _, h => h
  | x :: l, o, s, h => by
    have hlen := h.slen
    have hstart : Starts (Block.realloc o.buf (o.slen + d.length + x.length + 1)) s :=
      h.starts.realloc (by omega)
    rw [joinLoop, List.foldl_cons]
    refine joinLoop_open ⟨?_, by simp [hlen, Nat.add_assoc], ?_⟩
    · refine .memcpy_at (.memcpy_at hstart hlen ?_) ?_ ?_
      all_goals
        simp only [length_memcpy, length_realloc, List.length_append]
        omega
    · rw [length_memcpy, length_memcpy, length_realloc]
      exact Nat.lt_succ_self _

theorem join_is (d : Bytes) (l : List Bytes) : ∃ o, join d l = some o ∧ o.Is (Split.join d l) := by
  cases l with
  | nil => exact copy_of_lt (by decide)
  | cons x l =>
    refine ⟨_, rfl, Str.Open.close (joinLoop_open ⟨?_, rfl, ?_⟩)⟩
    · refine starts_nil.memcpy_at rfl ?_
      rw [length_malloc]
      omega
    · rw [length_memcpy, length_malloc]
      exact Nat.lt_succ_self _

theorem chr_is {n : ℤ} (h : chr n = some o) : o.Is [UInt8.ofInt n] := by
  unfold chr at h
  split_ifs at h
  obtain rfl := Option.some.inj h
  refine ⟨?_, rfl⟩
  have hone : Starts (store (malloc 2) 0 (UInt8.ofInt n)) ([] ++ [UInt8.ofInt n]) :=
    starts_nil.store_at rfl (by rw [length_malloc]; decide)
  exact hone.store_at rfl (by rw [length_store, length_malloc]; decide)

/-- What `str.rtrim` copies where there is nothing but whitespace. -/
theorem rtrim_of_blank {x : Stored} (hne : x.s.1 ≠ []) (hs : Spans.Blank x.s.1) :
    rtrim x = copy (Trim.copied x.mem (if isspace (x.mem (-1)) = false then 0 else 2 ^ 64 - 1)) := by
  have hmax : ((ptrdiffMax : ℕ) : ℤ) = ssizeMax := rfl
  have hlen := x.s.2
  obtain ⟨reads, hrun, -⟩ := Trim.rtrim_blank (by omega) hne hs x.holds
  unfold rtrim
  rw [hrun, Option.bind_some]

/-- What it copies of another string. -/
theorem rtrim_of_split {x : Stored} {u : Bytes} (heq : x.s.1 = t ++ c :: u) (hc : isspace c = false)
    (hu : Spans.Blank u) : rtrim x = copy (Trim.copied x.mem (t.length + 1)) := by
  have hmax : ((ptrdiffMax : ℕ) : ℤ) = ssizeMax := rfl
  have hlen := x.s.2
  have hholds := x.holds
  rw [heq] at hlen hholds
  obtain ⟨reads, hrun, -⟩ := Trim.rtrim_split (by omega) hc hu hholds
  unfold rtrim
  rw [heq, hrun, Option.bind_some]

/-- **The result of `str.rtrim` is terminated** unless its length is -1. -/
theorem rtrim_terminated_iff {x : Stored} (h : rtrim x = some o) : o.Terminated ↔
    x.s.1 = [] ∨ (∃ c ∈ x.s.1, isspace c = false) ∨ isspace (x.mem (-1)) = false := by
  rcases Trim.blank_or_split x.s.1 with hs | ⟨t, c, u, heq, hc, hu⟩
  · by_cases hne : x.s.1 = []
    · refine iff_of_true ?_ (.inl hne)
      unfold rtrim at h
      rw [hne, List.length_nil, Trim.rtrim_nil, Option.bind_some] at h
      rw [copy_terminated_iff h, Trim.length_copied]
      decide
    · rw [rtrim_of_blank hne hs] at h
      rw [copy_terminated_iff h, Trim.length_copied]
      have hnone : ¬ ∃ c ∈ x.s.1, isspace c = false := fun ⟨c, hc, hns⟩ =>
        Bool.false_ne_true (hns.symm.trans (hs c hc))
      by_cases hfront : isspace (x.mem (-1)) = false
      · rw [if_pos hfront]
        exact iff_of_true (by decide) (.inr (.inr hfront))
      · rw [if_neg hfront]
        exact iff_of_false (by decide) fun hor => hor.elim hne fun hor => hor.elim hnone hfront
  · have hmax : ptrdiffMax = 9223372036854775807 := rfl
    have hlen := x.s.2
    rw [heq, List.length_append, List.length_cons] at hlen
    rw [rtrim_of_split heq hc hu] at h
    rw [copy_terminated_iff h, Trim.length_copied]
    exact iff_of_true (by omega) (.inr (.inl ⟨c, by rw [heq]; simp, hc⟩))

/-- The loop of `str.expand` has left a byte for the terminator. -/
theorem expand_is (h : expand s = some o) : ∃ t, Expand.Expands s t ∧ o.Is t := by
  unfold expand at h
  cases hrun : Expand.expandLoop s 0 [] with
  | error e =>
    rw [hrun] at h
    cases h
  | ok out =>
    rw [hrun] at h
    obtain rfl := Option.some.inj h
    have hdecodes : Expand.Decodes s 0 [] := Expand.decodes (Nat.le_refl 0) (Nat.zero_le _)
    obtain ⟨hle, u, hu, hexpands⟩ := hdecodes.accepts out hrun
    obtain rfl : out = u := hu
    refine ⟨out, hexpands, is_filled ?_⟩
    rw [length_malloc]
    omega

theorem repr_is (h : repr s = some o) : o.Is ([lbrac] ++ s ++ [rbrac]) := by
  unfold repr at h
  split_ifs at h with hmax hnil
  · obtain ⟨o', ho', his⟩ : ∃ o, copy [lbrac, rbrac] = some o ∧ o.Is [lbrac, rbrac] :=
      copy_of_lt (by decide)
    obtain rfl := Option.some.inj (ho'.symm.trans h)
    rw [List.length_eq_zero_iff.mp hnil]
    exact his
  · obtain rfl := Option.some.inj h
    refine ⟨?_, by simp⟩
    change Starts _ ([] ++ [lbrac] ++ s ++ [rbrac] ++ [0])
    refine .store_at (.store_at (.memcpy_at (.store_at starts_nil ?_ ?_) ?_ ?_) ?_ ?_) ?_ ?_
    all_goals
      simp only [length_store, length_memcpy, length_malloc, List.length_append, List.length_singleton,
        List.length_nil] <;> omega

theorem sourceText_length (h : sourceText s = some t) : t.length ≤ s.length := by
  unfold sourceText at h
  split at h
  · cases h
  · dsimp only at h
    split_ifs at h
    rw [← Option.some.inj h, List.length_take, List.length_drop]
    omega
  · rw [Option.some.inj h]

theorem source_is (h : source s = some o) : ∃ t, sourceText s = some t ∧ o.Is t := by
  unfold source at h
  split_ifs at h with hlen
  split at h
  · obtain ⟨t, ht, hcopy⟩ := Option.bind_eq_some_iff.mp h
    have hle := sourceText_length ht
    have hmax : ((ptrdiffMax : ℕ) : ℤ) = ssizeMax := rfl
    obtain ⟨o', ho', his⟩ := copy_of_lt (s := t) (by omega)
    obtain rfl := Option.some.inj (ho'.symm.trans hcopy)
    exact ⟨t, ht, his⟩
  · rename_i hplain
    obtain rfl := Option.some.inj h
    have hne : s ≠ [] := fun hs => hlen (.inl (List.length_eq_zero_iff.mpr hs))
    have hshebang : ¬ Source.Shebang s := fun ⟨t, ht⟩ => hplain t ht
    refine ⟨s, (Source.sourceText_plain hne hshebang).1, is_filled ?_⟩
    rw [length_malloc]
    exact Nat.lt_succ_self _

/-! ### Streams, memory and structures -/

/-- `b6b_strm_read`, where it makes a string. (If the capacity overflows, it needs more memory than
there is.) -/
def strmRead {σ : Type} (cb : Reading.Callbacks σ) (eof closed : Bool) (want : ℕ) (s : σ) : Option Str :=
  match (Reading.strmRead cb eof closed want s).result with
  | .ok buf out _ => some ⟨buf, out⟩
  | _ => none

/-- `b6b_ffi_proc_memcpy`, of a length and what is at the address. -/
def ffiMemcpy (mem : ℕ → UInt8) (len : ℤ) : Option Str :=
  if len = 0 then none else copy ((List.range (len % 2 ^ 64).toNat).map mem)

/-- `b6b_ffi_proc_pack`, behind its arguments: what its loop has written is at the start of a block of
`B6B_FFI_MAX_STRUCT_SZ` bytes. -/
def pack {F : Type} (N : Num F) (A : Ffi.Abi F) (fmt : Bytes) (vals : List Addr) (h : Heap F) :
    Option Str :=
  match Ffi.formatCodes fmt with
  | none => none
  | some (packed, cs) =>
    match Ffi.packLoop N A packed cs vals [] h with
    | .ok buf _ => some ⟨memcpy (malloc Ffi.maxStructSz) 0 buf, buf.length⟩
    | _ => none

/-- A read that makes a string makes it of what has been delivered. -/
theorem strmRead_exact {σ : Type} {cb : Reading.Callbacks σ} {eof closed eof' : Bool} {want out : ℕ}
    {s : σ}
    (h : (Reading.strmRead cb eof closed want s).result = .ok b out eof') :
    Reading.Exact want b out (Reading.strmRead cb eof closed want s).chunks := by
  cases eof with
  | true => cases h
  | false =>
    cases closed with
    | true => cases h
    | false =>
      have hends : Reading.Ends cb want (Reading.strmRead cb false false want s) := Reading.strmRead_ends
      obtain hover | ⟨herr, -⟩ | ⟨b', out', eof'', hok, hexact⟩ := hends
      · rw [h] at hover
        cases hover
      · rw [h] at herr
        cases herr
      · rw [h] at hok
        cases hok
        exact hexact

theorem strmRead_is {σ : Type} {cb : Reading.Callbacks σ} {eof closed : Bool} {want : ℕ} {s : σ}
    (h : strmRead cb eof closed want s = some o) :
    o.Is (Reading.strmRead cb eof closed want s).chunks.flatten := by
  unfold strmRead at h
  split at h
  · rename_i buf out eof' hres
    obtain rfl := Option.some.inj h
    have hexact := strmRead_exact hres
    exact ⟨hexact.starts, hexact.length⟩
  · cases h

theorem ffiMemcpy_terminated_iff {mem : ℕ → UInt8} {len : ℤ} (h : ffiMemcpy mem len = some o) :
    o.Terminated ↔ len % 2 ^ 64 + 1 < 2 ^ 64 := by
  unfold ffiMemcpy at h
  split_ifs at h
  rw [copy_terminated_iff h, List.length_map, List.length_range]
  omega

/-- Nothing is stored behind a structure. -/
theorem pack_not_terminated {F : Type} {N : Num F} {A : Ffi.Abi F} {fmt : Bytes} {vals : List Addr}
    {h : Heap F} (ho : pack N A fmt vals h = some o) : ¬ o.Terminated := by
  unfold pack at ho
  split at ho
  · cases ho
  split at ho
  · rename_i buf _ _
    obtain rfl := Option.some.inj ho
    rintro ⟨-, hnul⟩
    dsimp only at hnul
    rw [getElem?_memcpy_of_le (Nat.zero_add _).le] at hnul
    exact getElem?_malloc_ne hnul
  · cases ho

/-! ### Compression -/

/-- The data with which `b6b_zlib_do_inflate` returns, if it does behind these replies. -/
def doInflate (d : Inflate.Data) : List Inflate.Reply → Option Inflate.Data
  | [] => none
  | r :: rs =>
    match Inflate.turn d r with
    | .again d' => doInflate d' rs
    | .done d' => some d'

/-- `b6b_zlib_inflate`: the loop has replies `rs`, and the call behind it the reply `r`; `written` are
the bytes of the output. -/
def inflate (src dst : ℕ) (slen dlen : UInt64) (rs : List Inflate.Reply) (r : Inflate.Reply)
    (written : ℕ → UInt8) : Option Str :=
  if dlen = Inflate.sizeMax then none
  else
    match doInflate (Inflate.start src dst slen dlen) rs with
    | none => none
    | some d =>
      if d.ok = true ∧ r.code = .streamEnd then
        let total := (d.strm.advance r).totalOut.toNat
        let buf := memcpy (malloc (d.dlen.toNat + 1)) 0 ((List.range total).map written)
        some ⟨store buf total 0, total⟩
      else none

/-- `b6b_zlib_deflate`, of a string of `slen` bytes: `mz_deflateBound` is `dlen`, and `mz_deflate` writes
`out` into the room for `dlen` bytes; `head` and `foot` are what `finish` puts around it. -/
def deflate (slen : ℕ) (head foot : Bytes) (dlen : ℕ) (out : { out : Bytes // out.length ≤ dlen }) :
    Option Str :=
  let max := 2 ^ 32 - 1 - head.length - foot.length
  if slen > max ∨ dlen ≥ max ∨ out.1.length > max then none
  else
    let buf := malloc (dlen + head.length + foot.length + 1)
    let buf := memcpy buf head.length out.1
    let buf := memcpy buf 0 head
    let buf := memcpy buf (head.length + out.1.length) foot
    let tot := out.1.length + head.length + foot.length
    some ⟨store buf tot 0, tot⟩

/-- How often the loop makes the buffer longer: with each reply `MZ_OK`. -/
def refills (rs : List Inflate.Reply) : ℕ := (rs.takeWhile fun r => r.code = .ok).length

/-- What the calls of the loop write, up to the first reply that is not `MZ_OK`. -/
def produced (rs : List Inflate.Reply) : ℕ := ((rs.take (refills rs + 1)).map (·.produced.toNat)).sum

theorem deflate_terminated {slen : ℕ} {head foot : Bytes} {dlen : ℕ}
    {out : { out : Bytes // out.length ≤ dlen }}
    (h : deflate slen head foot dlen out = some o) : o.Terminated := by
  unfold deflate at h
  dsimp only at h
  split_ifs at h
  obtain rfl := Option.some.inj h
  have hle := out.2
  rw [terminated_store, length_memcpy, length_memcpy, length_memcpy, length_malloc]
  omega

/-- What a call adds to `total_out`. -/
theorem totalOut_advance (s : Inflate.Strm) (r : Inflate.Reply) :
    (s.advance r).totalOut.toNat = (s.totalOut.toNat + r.produced.toNat) % 2 ^ 64 := by
  unfold Inflate.Strm.advance
  rw [UInt64.toNat_add, UInt32.toNat_toUInt64]

/-- A reply that does not end the loop. -/
theorem counters_ok {r : Inflate.Reply} (hr : r.code = .ok) (rs : List Inflate.Reply) :
    refills (r :: rs) = refills rs + 1 ∧ produced (r :: rs) = r.produced.toNat + produced rs := by
  have hmore : refills (r :: rs) = refills rs + 1 := by
    unfold refills
    rw [List.takeWhile_cons_of_pos (by simpa using hr), List.length_cons]
  refine ⟨hmore, ?_⟩
  unfold produced
  rw [hmore, List.take_succ_cons, List.map_cons, List.sum_cons]

theorem counters_end {r : Inflate.Reply} (hr : r.code ≠ .ok) (rs : List Inflate.Reply) :
    refills (r :: rs) = 0 ∧ produced (r :: rs) = r.produced.toNat := by
  have hnone : refills (r :: rs) = 0 := by
    unfold refills
    rw [List.takeWhile_cons_of_neg (by simpa using hr), List.length_nil]
  refine ⟨hnone, ?_⟩
  unfold produced
  rw [hnone]
  simp

/-- The loop goes on behind `MZ_OK` only, and with a buffer that is longer by a chunk. -/
theorem turn_ok {d d' : Inflate.Data} {r : Inflate.Reply} (h : Inflate.turn d r = .again d') :
    r.code = .ok ∧ d'.ok = d.ok ∧ d'.dlen.toNat = d.dlen.toNat + Inflate.outChunk.toNat ∧
      d'.strm.totalOut = (d.strm.advance r).totalOut := by
  have hcode : r.code = .ok := by
    unfold Inflate.turn at h
    cases hc : r.code with
    | ok => rfl
    | streamEnd =>
      rw [hc] at h
      cases h
    | error =>
      rw [hc] at h
      cases h
  obtain ⟨hlt, mdst, rfl⟩ := Inflate.turn_again h
  refine ⟨hcode, rfl, ?_, rfl⟩
  have hmax : d.dlen.toNat < (Inflate.sizeMax - Inflate.outChunk - 1).toNat := hlt
  have hsum : (Inflate.sizeMax - Inflate.outChunk - 1).toNat + Inflate.outChunk.toNat < 2 ^ 64 := by decide
  change (d.dlen + Inflate.outChunk).toNat = _
  rw [UInt64.toNat_add, Nat.mod_eq_of_lt (by omega)]

/-- It ends with success behind `MZ_STREAM_END` only. -/
theorem turn_end {d d' : Inflate.Data} {r : Inflate.Reply} (hfresh : d.ok = false)
    (h : Inflate.turn d r = .done d') (hok : d'.ok = true) :
    r.code ≠ .ok ∧ d'.dlen = d.dlen ∧ d'.strm = d.strm.advance r := by
  unfold Inflate.turn at h
  cases hc : r.code with
  | streamEnd =>
    rw [hc] at h
    cases h
    exact ⟨nofun, rfl, rfl⟩
  | error =>
    rw [hc] at h
    cases h
    rw [hfresh] at hok
    cases hok
  | ok =>
    rw [hc] at h
    dsimp only at h
    split_ifs at h
    · cases h
      rw [hfresh] at hok
      cases hok
    · split at h
      · cases h
        rw [hfresh] at hok
        cases hok
      · cases h

/-- The counters of the loop, if it ends with the stream. -/
theorem doInflate_counters : ∀ {rs : List Inflate.Reply} {d d' : Inflate.Data}, d.ok = false →
    doInflate d rs = some d' → d'.ok = true →
    d'.dlen.toNat = d.dlen.toNat + refills rs * Inflate.outChunk.toNat ∧
      d'.strm.totalOut.toNat = (d.strm.totalOut.toNat + produced rs) % 2 ^ 64
  | [], _, _, _, h, _ => nomatch h
  | r :: rs, d, d', hfresh, h, hok => by
    rw [doInflate] at h
    cases hturn : Inflate.turn d r with
    | again d₁ =>
      rw [hturn] at h
      obtain ⟨hcode, hkept, hone, hadvance⟩ := turn_ok hturn
      obtain ⟨hlen, htotal⟩ := doInflate_counters (hkept.trans hfresh) h hok
      obtain ⟨hrefills, hproduced⟩ := counters_ok hcode rs
      rw [hadvance, totalOut_advance] at htotal
      rw [hrefills, hproduced, hlen, htotal, hone]
      refine ⟨by ring, ?_⟩
      rw [Nat.mod_add_mod, Nat.add_assoc]
    | done d₁ =>
      rw [hturn] at h
      obtain rfl := Option.some.inj h
      obtain ⟨hcode, hlen, hstrm⟩ := turn_end hfresh hturn hok
      obtain ⟨hrefills, hproduced⟩ := counters_end hcode rs
      rw [hrefills, hproduced, hlen, hstrm, totalOut_advance, Nat.zero_mul, Nat.add_zero]
      exact ⟨rfl, rfl⟩

theorem inflate_terminated_iff {src dst : ℕ} {slen dlen : UInt64} {rs : List Inflate.Reply}
    {r : Inflate.Reply} {written : ℕ → UInt8} (h : inflate src dst slen dlen rs r written = some o) :
    o.Terminated ↔ (produced rs + r.produced.toNat) % 2 ^ 64 ≤
      dlen.toNat + refills rs * Inflate.outChunk.toNat := by
  unfold inflate at h
  split_ifs at h
  split at h
  · cases h
  rename_i d hd
  split_ifs at h with hok
  obtain rfl := Option.some.inj h
  obtain ⟨hlen, htotal⟩ := doInflate_counters rfl hd hok.1
  have hstart : (Inflate.start src dst slen dlen).strm.totalOut.toNat = 0 := rfl
  rw [hstart, Nat.zero_add] at htotal
  rw [terminated_store, length_memcpy, length_malloc, hlen, totalOut_advance, htotal, Nat.mod_add_mod]
  exact Nat.lt_succ_iff

/-! ### Every string -/

/-- Where a string object comes from, with all that decides what it is. `copy` is `b6b_str_copy` of as many
bytes as it is told, which makes the items of a list, the results of `str.index`, `str.range`, `str.split`,
`str.ltrim`, `str.rtrim` and `str.decode`, and every message; `fmt` are the blocks of the C library. -/
inductive Origin (F σ : Type)
  | copy (s : Bytes)
  | fmt (s : Text)
  | list (l : List Text)
  | float (N : Num F) (f : F)
  | int (i : ℤ)
  | join (d : Text) (l : List Text)
  | chr (n : ℤ)
  | rtrim (s : Stored)
  | expand (s : Text)
  | repr (s : Text)
  | source (s : Bytes)
  | strmRead (cb : Reading.Callbacks σ) (eof closed : Bool) (want : ℕ) (s : σ)
  | ffiBuf (s : Text)
  | ffiMemcpy (mem : ℕ → UInt8) (len : ℤ)
  | pack (N : Num F) (A : Ffi.Abi F) (format : Bytes) (vals : List Addr) (h : Heap F)
  | inflate (src dst : ℕ) (slen dlen : UInt64) (rs : List Inflate.Reply) (r : Inflate.Reply)
      (written : ℕ → UInt8)
  | deflate (slen : ℕ) (head foot : Bytes) (dlen : ℕ) (out : { out : Bytes // out.length ≤ dlen })

variable {F σ : Type}

/-- The string object, if one is made. -/
def Origin.made : Origin F σ → Option Str
  | copy s => Buffers.copy s
  | fmt s => some (Buffers.fmt s)
  | list l => asStrLoop (l.map (·.1)) none
  | float N f => asStrFloat (N.fmt f)
  | int i => some (Buffers.fmt (fmtInt i))
  | join d l => Buffers.join d (l.map (·.1))
  | chr n => Buffers.chr n
  | rtrim s => Buffers.rtrim s
  | expand s => Buffers.expand s
  | repr s => Buffers.repr s
  | source s => Buffers.source s
  | strmRead cb eof closed want s => Buffers.strmRead cb eof closed want s
  | ffiBuf s => Buffers.copy s
  | ffiMemcpy mem len => Buffers.ffiMemcpy mem len
  | pack N A format vals h => Buffers.pack N A format vals h
  | inflate src dst slen dlen rs r written => Buffers.inflate src dst slen dlen rs r written
  | deflate slen head foot dlen out => Buffers.deflate slen head foot dlen out

/-- What a string object from there needs for its terminator: a structure never has one; the output of
`inflate` must be no longer than the buffer has become, the length of a copy must not wrap, so that
`str.rtrim` must not have found nothing but whitespace in the string and more in front of it, and a float
must not be written in zeros alone, which `"%.12f"` does not do. -/
def Origin.Keeps : Origin F σ → Prop
  | copy s => s.length + 1 < 2 ^ 64
  | rtrim s => s.s.1 = [] ∨ (∃ c ∈ s.s.1, isspace c = false) ∨ isspace (s.mem (-1)) = false
  | float N f => ∃ c ∈ N.fmt f, c ≠ 0x30
  | ffiMemcpy _ len => len % 2 ^ 64 + 1 < 2 ^ 64
  | pack .. => False
  | inflate _ _ _ dlen rs r _ =>
    (produced rs + r.produced.toNat) % 2 ^ 64 ≤ dlen.toNat + refills rs * Inflate.outChunk.toNat
  | _ => True

theorem terminated_of_is {r : Option Str} (h : ∃ o, r = some o ∧ o.Is s) (ho : r = some o) :
    o.Terminated := by
  obtain ⟨o', ho', his⟩ := h
  obtain rfl := Option.some.inj (ho'.symm.trans ho)
  exact his.terminated

/-- **Every string is terminated**, whatever builtin has made it and from whatever arguments, but for
those of `Origin.Keeps`. -/
theorem terminated_iff (m : Origin F σ) (o : Str) (h : m.made = some o) : o.Terminated ↔ m.Keeps := by
  cases m with
  | copy s => exact copy_terminated_iff h
  | fmt s => exact iff_of_true (terminated_of_is ⟨_, rfl, fmt_is s⟩ h) trivial
  | list l => exact iff_of_true (terminated_of_is (list_is l) h) trivial
  | float N f =>
    by_cases hkeeps : ∃ c ∈ N.fmt f, c ≠ 0x30
    · exact iff_of_true (terminated_of_is (float_is hkeeps) h) hkeeps
    · have hzeros : ∀ c ∈ N.fmt f, c = 0x30 := fun c hc => by
        by_contra hne
        exact hkeeps ⟨c, hc, hne⟩
      exact iff_of_false (float_zeros hzeros h) hkeeps
  | int i => exact iff_of_true (terminated_of_is ⟨_, rfl, fmt_is _⟩ h) trivial
  | join d l => exact iff_of_true (terminated_of_is (join_is d _) h) trivial
  | chr n => exact iff_of_true (chr_is h).terminated trivial
  | rtrim s => exact rtrim_terminated_iff h
  | expand s =>
    obtain ⟨t, -, his⟩ := expand_is h
    exact iff_of_true his.terminated trivial
  | repr s => exact iff_of_true (repr_is h).terminated trivial
  | source s =>
    obtain ⟨t, -, his⟩ := source_is h
    exact iff_of_true his.terminated trivial
  | strmRead cb eof closed want s => exact iff_of_true (strmRead_is h).terminated trivial
  | ffiBuf s => exact iff_of_true (terminated_of_is (copy_of_lt s.2) h) trivial
  | ffiMemcpy mem len => exact ffiMemcpy_terminated_iff h
  | pack N A format vals h' => exact iff_of_false (pack_not_terminated h) id
  | inflate src dst slen dlen rs r written => exact inflate_terminated_iff h
  | deflate slen head foot dlen out => exact iff_of_true (deflate_terminated h) trivial

/-- A blank, behind others. -/
def blanks : Stored := ⟨⟨[blank], by decide⟩, fun _ => blank, fun j hj => by
  obtain rfl : j = 0 := Nat.lt_one_iff.mp hj
  rfl⟩

/-- A letter and a blank. -/
def word : Stored := ⟨⟨[0x61, blank], by decide⟩, fun j => if j = 0 then 0x61 else blank, fun j hj => by
  rcases j with _ | _ | j
  · rfl
  · rfl
  · exact absurd hj (by simp)⟩

/-- A copy whose size wraps to nothing is made. -/
theorem copy_wraps (h : s.length + 1 = 2 ^ 64) : ∃ o, copy s = some o := by
  unfold copy strndup mallocSize
  rw [h, if_neg (by decide)]
  exact ⟨_, rfl⟩

/-- `str.rtrim` of both. -/
theorem rtrim_terminated : (∃ o, (Origin.rtrim blanks : Origin ℤ Unit).made = some o ∧ ¬ o.Terminated) ∧
    ∃ o, (Origin.rtrim word : Origin ℤ Unit).made = some o ∧ o.Terminated := by
  constructor
  · have hmade : (Origin.rtrim blanks : Origin ℤ Unit).made = copy (Trim.copied blanks.mem (2 ^ 64 - 1)) :=
      rtrim_of_blank (by decide) fun c hc => List.mem_singleton.mp hc ▸ rfl
    obtain ⟨o, ho⟩ := copy_wraps (s := Trim.copied blanks.mem (2 ^ 64 - 1)) (congrArg (· + 1) (Trim.length_copied _ _))
    refine ⟨o, hmade.trans ho, fun ht => ?_⟩
    rcases (terminated_iff (Origin.rtrim blanks : Origin ℤ Unit) o (hmade.trans ho)).mp ht with
      hnil | ⟨c, hc, hns⟩ | hfront
    · cases hnil
    · rw [List.mem_singleton.mp hc] at hns
      cases hns
    · cases hfront
  · have hmade : (Origin.rtrim word : Origin ℤ Unit).made = copy (Trim.copied word.mem 1) :=
      rtrim_of_split (t := []) rfl rfl fun c hc => List.mem_singleton.mp hc ▸ rfl
    obtain ⟨o, ho, -⟩ := copy_of_lt (s := Trim.copied word.mem 1) (by decide)
    exact ⟨o, hmade.trans ho, (terminated_iff (Origin.rtrim word : Origin ℤ Unit) o (hmade.trans ho)).mpr
      (.inr (.inl ⟨0x61, List.mem_cons_self, rfl⟩))⟩

/-- `$ffi.pack i 1` -/
theorem pack_unterminated : ¬ ∀ (m : Origin ℤ Unit) (o : Str), m.made = some o → o.Terminated := by
  intro h
  have hsome : (pack wholeNum (Ffi.abi true) [0x69] [0] (Heap.empty.push (.ofInt 1))).isSome = true := by
    decide +kernel
  obtain ⟨o, ho⟩ := Option.isSome_iff_exists.mp hsome
  exact pack_not_terminated ho
    (h (.pack wholeNum (Ffi.abi true) [0x69] [0] (Heap.empty.push (.ofInt 1))) o ho)

end Buffers

end B6b
