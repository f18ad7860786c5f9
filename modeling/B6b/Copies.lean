/-
# The lengths of copies

`b6b_strndup` allocates a byte more than its length, and copies as many bytes as its length is. Where
the length comes from is another thing each time: integers of a script (`str.range`, `ffi.memcpy`),
an index with a sign (`rtrim`), or the difference of two pointers (`str.split`, `b6b_source`, the
parser of lists). Here are the calls that each of these makes (`Caller.calls`), and the counts that
they are for (`Caller.Means`).

`copies_exact_iff`: each length is the count that is meant, it does not wrap, and as many bytes are
copied, but for `ffi.memcpy` of a negative length, `rtrim` of whitespace with whitespace in front of
it in the memory, and `str.split` at a delimiter that matches what is behind the string.

Key definitions: `Call`, `Call.Exact`, `Caller`, `Caller.Means`, `Caller.Keeps`.
-/
import B6b.Buffers
import B6b.Releases
import B6b.Trim

namespace B6b

namespace Copies

open Block Buffers Cuts Releases Spans Trim

/-! ### Calls -/

/-- `b6b_strndup(s, len)`: `p` is the distance of its `s` from the first byte of the string that it
copies from, or an address. -/
structure Call where
  p : ℤ
  len : UInt64
  deriving DecidableEq

/-- The `n` bytes at `p`. -/
def bytesAt (mem : Memory) (p : ℤ) (n : ℕ) : Bytes := copied (fun j => mem (p + j)) n

/-- What `b6b_strndup` returns. -/
def Call.made (c : Call) (mem : Memory) : Option Buf := Buffers.strndup (bytesAt mem c.p c.len.toNat)

/-- The length is the count that is meant, and there is a next one in `size_t`; and of every memory
these bytes are copied, into a block that has one byte more, which is the terminator. -/
structure Call.Exact (n : ℤ) (c : Call) : Prop where
  len : (c.len.toNat : ℤ) = n
  room : c.len.toNat + 1 < 2 ^ 64
  copies : ∀ mem s2, c.made mem = some s2 → s2.length = c.len.toNat + 1 ∧
    Starts s2 (bytesAt mem c.p c.len.toNat ++ [0])

/-- A copy of all of a string. -/
def whole (s : Bytes) : Call := ⟨0, UInt64.ofNat s.length⟩

/-! ### The procedures of strings -/

/-- `b6b_str_proc_range`, behind its arguments. -/
def rangeCalls (slen : ℕ) (start stop : Int64) : List Call :=
  if start < 0 ∨ start.toUInt64 ≥ UInt64.ofNat slen ∨ stop < 0 ∨ stop.toUInt64 ≥ UInt64.ofNat slen ∨
    start > stop then []
  else
    let len := (stop - start).toUInt64
    if len = Inflate.sizeMax then [] else [⟨start.toInt, len + 1⟩]

/-- The first turns of the loop of `b6b_str_proc_split`. It ends at the end of the string, and not
behind it. -/
def splitCalls (mem : Memory) (slen : ℕ) (d : Bytes) : ℕ → ℕ → ℕ → List Call
  | 0, _, _ => []
  | turns + 1, p, prev =>
    if p = slen then if d ≠ [] then [⟨prev, UInt64.ofInt (slen - prev)⟩] else []
    else if d ≠ [] ∧ bytesAt mem p d.length ≠ d then splitCalls mem slen d turns (p + 1) prev
    else
      let next := p + if d ≠ [] then d.length else 1
      ⟨prev, if d ≠ [] then UInt64.ofInt (p - prev) else 1⟩ :: splitCalls mem slen d turns next next

/-- The loop of `b6b_str_proc_ltrim`: where `i` ends. -/
def ltrimLoop (s : Bytes) (i : ℕ) : ℕ :=
  if h : i < s.length then if isspace s[i] = false then i else ltrimLoop s (i + 1) else i
termination_by s.length - i

/-- `b6b_str_proc_ltrim`, behind its argument. -/
def ltrimCalls (s : Bytes) : List Call :=
  [⟨ltrimLoop s 0, UInt64.ofNat s.length - UInt64.ofNat (ltrimLoop s 0)⟩]

/-- `b6b_str_proc_rtrim`, behind its argument. -/
def rtrimCalls (mem : Memory) (slen : ℕ) : List Call :=
  match rtrim mem slen with
  | none => []
  | some r => [⟨0, UInt64.ofNat r.len⟩]

/-! ### Memory, files and expressions -/

/-- `b6b_ffi_proc_memcpy`, behind its arguments. -/
def memcpyCalls (addr len : Int64) : List Call :=
  if len = 0 then [] else if addr = 0 then [] else [⟨addr.toInt, len.toUInt64⟩]

/-- `b6b_source`, of a file with these bytes: the other files are not copied. -/
def sourceCalls (file : Bytes) : List Call :=
  if file.length = 0 ∨ (file.length : ℤ) ≥ ssizeMax then []
  else
    match file with
    | 0x23 :: 0x21 :: _ =>
      let pos := (cstr file).findIdx (· = Source.newline)
      if pos < (cstr file).length then
        let off : ℤ := if pos ≠ 0 then pos + 1 else pos
        [⟨pos, UInt64.ofInt (file.length - off)⟩]
      else []
    | _ => []

/-- A turn of `b6b_do_as_list` at `s[i]`: the `start` and the `end` of the item, if there is one, and
where the parser goes on. -/
def tokenAt (s : Bytes) (i : ℕ) : Except ParseError (Option (ℕ × ℕ) × ℕ) :=
  match read s i with
  | .error e => .error e
  | .ok c =>
    if c = lbrac then
      match bracScan s (i + 1) 1 with
      | .error e => .error e
      | .ok j => .ok (some (i + 1, j), i + (j - (i + 1)) + 2)
    else if c = lbrak then
      match brakScan s (i + 1) 1 0 with
      | .error e => .error e
      | .ok j => .ok (some (i, j + 1), i + (j + 1 - i) + 0)
    else if isspace c then .ok (none, i + 1)
    else
      match wordEnd s (i + 1) with
      | .error e => .error e
      | .ok j => .ok (some (i, j), i + (j - i) + 1)

/-- A turn goes on behind its byte. -/
theorem lt_of_tokenAt {s : Bytes} {i k : ℕ} {x : Option (ℕ × ℕ)} (h : tokenAt s i = .ok (x, k)) :
    i < k := by
  unfold tokenAt at h
  split at h
  · cases h
  split_ifs at h
  · split at h
    · cases h
    · have hk := (Prod.mk.inj (Except.ok.inj h)).2
      omega
  · split at h
    · cases h
    · rename_i j hj
      have hle := le_brakScan s (i + 1) 1 0 hj
      have hk := (Prod.mk.inj (Except.ok.inj h)).2
      omega
  · have hk := (Prod.mk.inj (Except.ok.inj h)).2
    omega
  · split at h
    · cases h
    · have hk := (Prod.mk.inj (Except.ok.inj h)).2
      omega

/-- The loop of `b6b_do_as_list` from index `i`. -/
def tokenCalls (s : Bytes) (i : ℕ) : List Call :=
  if i < s.length then
    match _h : tokenAt s i with
    | .error _ => []
    | .ok (none, k) => tokenCalls s k
    | .ok (some (start, stop), k) => ⟨start, UInt64.ofInt (stop - start)⟩ :: tokenCalls s k
  else []
termination_by s.length - i
decreasing_by all_goals
  have hlt := lt_of_tokenAt _h
  omega

/-- `b6b_eval`: a message, or the items of the statement in the brackets. -/
def evalCalls (exp : Bytes) : List Call :=
  if exp.head? = some lbrak then
    if exp.length = 1 ∨ exp.getLast? ≠ some rbrak then [whole (bytes "uneven []")]
    else
      (tokenCalls ((exp.drop 1).take (exp.length - 2)) 0).map fun c => { c with p := 1 + c.p }
  else []

/-- `b6b_as_str` of a list, behind the strings of its items: an item that goes into the text as it is,
and is the first one. -/
def asStrCalls : List Bytes → List Call
  | x :: _ => if x.length ≠ 0 ∧ spaced x = false then [whole x] else []
  | [] => []

/-! ### What the lengths are for -/

/-- The items in front of the first token that is not closed. -/
inductive Items : Bytes → List Bytes → Prop
  | nil : Items [] []
  | unclosed {t : Bytes} : Unclosed t → Items t []
  | space {c : UInt8} {t : Bytes} {l : List Bytes} : isspace c = true → Items t l → Items (c :: t) l
  | word {w t : Bytes} {l : List Bytes} : IsWord w → Breaks t → Items t l → Items (w ++ t) (w :: l)
  | brac {x t : Bytes} {l : List Bytes} : BracBalanced x → Items t l →
      Items (lbrac :: x ++ rbrac :: t) (x :: l)
  | brak {x t : Bytes} {l : List Bytes} : IsBrak x → Items t l → Items (x ++ t) (x :: l)

/-- What is copied of an expression: the items between its brackets, or why it has none. -/
def Evaluates (exp : Bytes) (l : List Bytes) : Prop :=
  (∃ x, exp = lbrak :: x ++ [rbrak] ∧ Items x l) ∨
    (exp.head? = some lbrak ∧ (∀ x, exp ≠ lbrak :: x ++ [rbrak]) ∧ l = [bytes "uneven []"]) ∨
    exp.head? ≠ some lbrak ∧ l = []

/-- What calls `b6b_strndup`, and of what: the procedures behind their arguments, the parser of lists
(of the statements that are executed, and of each of them), and the text of a list. `message` is any
text of the source, and any other string that is copied as a whole. -/
inductive Caller
  | range (s : Text) (start stop : Int64)
  | split (s : Stored) (d : Text)
  | ltrim (s : Text)
  | rtrim (s : Stored)
  | memcpy (addr len : Int64)
  | buf (s : Text)
  | source (file : Bytes)
  | eval (exp : Text)
  | asList (s : Text)
  | asStr (l : List Text)
  | message (s : Text)

/-- The calls, in their order: of `str.split` those in the first turns of its loop. -/
def Caller.calls (turns : ℕ) : Caller → List Call
  | range s start stop => rangeCalls s.1.length start stop
  | split s d => splitCalls s.mem s.s.1.length d.1 turns 0 0
  | ltrim s => ltrimCalls s.1
  | rtrim s => rtrimCalls s.mem s.s.1.length
  | memcpy addr len => memcpyCalls addr len
  | buf s => [whole s.1]
  | source file => sourceCalls file
  | eval exp => evalCalls exp.1
  | asList s => tokenCalls s.1 0
  | asStr l => asStrCalls (l.map (·.1))
  | message s => [whole s.1]

/-- The counts that are meant. -/
def Caller.Means : Caller → List ℤ → Prop
  | range _ start stop, ns => ns = [stop.toInt - start.toInt + 1]
  | split s d, ns =>
    if d.1 = [] then ns = List.replicate s.s.1.length 1
    else ∃ ps q, Cut d.1 s.s.1 ps q ∧ ns = (ps ++ [q]).map fun x => (x.length : ℤ)
  | ltrim s, ns => ns = [((s.1.dropWhile isspace).length : ℤ)]
  | rtrim s, ns => ∃ t, Trimmed s.s.1 t ∧ ns = [(t.length : ℤ)]
  | memcpy _ len, ns => ns = [len.toInt]
  | buf s, ns => ns = [(s.1.length : ℤ)]
  | source file, ns => ns = [((Source.code file).length : ℤ)]
  | eval exp, ns => ∃ l, Evaluates exp.1 l ∧ ns = l.map fun x => (x.length : ℤ)
  | asList s, ns => ∃ l, Items s.1 l ∧ ns = l.map fun x => (x.length : ℤ)
  | asStr l, ns => ns = (l.take 1).map fun x => (x.1.length : ℤ)
  | message s, ns => ns = [(s.1.length : ℤ)]

/-- The calls are exact for the first of these counts. -/
def Fits (ns : List ℤ) (cs : List Call) : Prop := ∃ ms, ms <+: ns ∧ List.Forall₂ Call.Exact ms cs

/-- Every call is exact for the count that is meant. -/
def Caller.Right (c : Caller) : Prop := ∃ ns, c.Means ns ∧ ∀ turns, Fits ns (c.calls turns)

/-- What is needed for that. A length from a script is not negative, if there is something to copy;
in front of whitespace there is none in the memory; and behind its last delimiter a string, with the
memory that follows, has no delimiter that goes over its end. -/
def Caller.Keeps : Caller → Prop
  | split s d => d.1 ≠ [] → ∃ ps q, Cut d.1 s.s.1 ps q ∧ ∀ k, k < q.length →
    bytesAt s.mem (s.s.1.length - q.length + k) d.1.length ≠ d.1
  | rtrim s => s.s.1 = [] ∨ (∃ c ∈ s.s.1, isspace c = false) ∨ isspace (s.mem (-1)) = false
  | memcpy addr len => addr = 0 ∨ 0 ≤ len
  | _ => True

/-- The calls are those of the procedures as they are modelled: where nothing goes wrong they are for
the pieces of `str.split` and for the items of the parser, and what they copy is the buffer of
`ffi.memcpy` and the text that `b6b_source` executes. -/
def Caller.Agrees : Caller → Prop
  | split s d => s.mem s.s.1.length = 0 → ∀ all l, Split.split all s.s.1 d.1 = .ok l →
    ∀ turns, Fits (l.map fun x => (x.length : ℤ)) (splitCalls s.mem s.s.1.length d.1 turns 0 0)
  | memcpy addr len => addr ≠ 0 → ∀ mem : Memory,
    Buffers.ffiMemcpy (fun j => mem (addr.toInt + j)) len.toInt =
      (memcpyCalls addr len).head?.bind fun c => Buffers.copy (bytesAt mem c.p c.len.toNat)
  | source file => Source.Shebang file → (file.length : ℤ) < ssizeMax → ∀ mem, Trim.Holds mem file →
    (sourceCalls file).map (fun c => bytesAt mem c.p c.len.toNat) = (sourceText file).toList
  | asList s => ∀ l, doAsList s.1 = .ok l →
    Fits (l.map fun x => (x.length : ℤ)) (tokenCalls s.1 0)
  | _ => True

variable {c : Call} {cs : List Call} {n p : ℤ} {ns : List ℤ} {len : UInt64} {mem : Memory} {k : ℕ}
  {s d t x : Bytes}

/-! ### Exact calls -/

theorem length_bytesAt (mem : Memory) (p : ℤ) (n : ℕ) : (bytesAt mem p n).length = n := length_copied _ _

/-- A call is exact if its length is the count, and does not wrap. -/
theorem exact_iff : Call.Exact n c ↔ (c.len.toNat : ℤ) = n ∧ c.len.toNat + 1 < 2 ^ 64 := by
  refine ⟨fun h => ⟨h.len, h.room⟩, fun ⟨hlen, hroom⟩ => ⟨hlen, hroom, fun mem s2 hmade => ?_⟩⟩
  have hcopy := length_bytesAt mem c.p c.len.toNat
  have hstarts := strndup_starts (by rwa [hcopy]) hmade
  rwa [hcopy] at hstarts

/-- A call with a length that is no longer than a string. -/
theorem exact_iff_eq (hlen : len.toNat = k) (hk : k < ptrdiffMax) : Call.Exact n ⟨p, len⟩ ↔ n = k := by
  have hmax : ptrdiffMax = 9223372036854775807 := rfl
  rw [exact_iff]
  dsimp only
  rw [hlen]
  exact ⟨fun h => h.1.symm, fun h => ⟨h.symm, by omega⟩⟩

/-- The length of a string is the same in `size_t`. -/
theorem toNat_ofNat (hk : k < ptrdiffMax) : (UInt64.ofNat k).toNat = k :=
  UInt64.toNat_ofNat_of_lt' (hk.trans (by decide))

/-- A difference that is a length is that length in `size_t`. -/
theorem toNat_ofInt {i : ℤ} (hi : i = k) (hk : k < ptrdiffMax) : (UInt64.ofInt i).toNat = k := by
  have hmod : (i % 2 ^ 64).toNat = k := by
    have hlt : k < 2 ^ 64 := hk.trans (by decide)
    omega
  unfold UInt64.ofInt
  rw [hmod, toNat_ofNat hk]

theorem exact_ofInt_iff {i : ℤ} (hi : i = k) (hk : k < ptrdiffMax) :
    Call.Exact n ⟨p, UInt64.ofInt i⟩ ↔ n = k := exact_iff_eq (toNat_ofInt hi hk) hk

theorem exact_whole (h : s.length < ptrdiffMax) : Call.Exact s.length (whole s) :=
  (exact_iff_eq (toNat_ofNat h) h).mpr rfl

theorem fits_nil : Fits ns [] := ⟨[], List.nil_prefix, .nil⟩

theorem fits_cons : Fits (n :: ns) (c :: cs) ↔ Call.Exact n c ∧ Fits ns cs := by
  constructor
  · rintro ⟨ms, hms, hall⟩
    cases hall with
    | cons hc hcs =>
      obtain ⟨rfl, hrest⟩ := List.cons_prefix_cons.mp hms
      exact ⟨hc, _, hrest, hcs⟩
  · rintro ⟨hc, ms, hms, hcs⟩
    exact ⟨n :: ms, List.cons_prefix_cons.mpr ⟨rfl, hms⟩, .cons hc hcs⟩

theorem fits_one : Fits [n] [c] ↔ Call.Exact n c := by
  rw [fits_cons]
  exact and_iff_left fits_nil

/-- Where a copy comes from makes no difference. -/
theorem fits_map {f : Call → Call} (hf : ∀ c, (f c).len = c.len) (h : Fits ns cs) :
    Fits ns (cs.map f) := by
  obtain ⟨ms, hms, hall⟩ := h
  refine ⟨ms, hms, List.forall₂_map_right_iff.mpr (hall.imp fun n c hc => ?_)⟩
  rw [exact_iff] at hc ⊢
  rwa [hf c]

/-! ### Splitting -/

/-- What is in the memory of a string. -/
theorem bytesAt_eq (h : Trim.Holds mem s) {p n : ℕ} (hle : p + n ≤ s.length) :
    bytesAt mem p n = (s.drop p).take n := by
  have hdrop : Trim.Holds (fun j => mem (p + j)) (s.drop p) := fun j hj => by
    rw [List.length_drop] at hj
    have hat := h (p + j) (by omega)
    rw [List.getElem_drop]
    rwa [Nat.cast_add] at hat
  rw [← List.take_append_drop n (s.drop p)] at hdrop
  have hlen : ((s.drop p).take n).length = n := by
    rw [List.length_take, List.length_drop]
    omega
  have hcopy := copied_append hdrop
  rwa [hlen] at hcopy

/-- So a delimiter that has room in the string is found where it stands. -/
theorem bytesAt_eq_iff (h : Trim.Holds mem s) {p : ℕ} (hle : p + d.length ≤ s.length) :
    bytesAt mem p d.length = d ↔ d <+: s.drop p := by
  rw [bytesAt_eq h hle, List.prefix_iff_eq_take, eq_comm]

/-- All calls of the loop are exact for the first of these counts. -/
def SplitFits (mem : Memory) (slen : ℕ) (d : Bytes) (ns : List ℤ) (p prev : ℕ) : Prop :=
  ∀ turns, Fits ns (splitCalls mem slen d turns p prev)

variable {slen p prev : ℕ}

/-- At a place where the delimiter does not stand. -/
theorem splitFits_next (hd : d ≠ []) (hp : p ≠ slen) (hno : bytesAt mem p d.length ≠ d) :
    SplitFits mem slen d ns p prev ↔ SplitFits mem slen d ns (p + 1) prev := by
  have hturn (turns : ℕ) :
      splitCalls mem slen d (turns + 1) p prev = splitCalls mem slen d turns (p + 1) prev := by
    rw [splitCalls, if_neg hp, if_pos ⟨hd, hno⟩]
  constructor
  · intro h turns
    have hfits := h (turns + 1)
    rwa [hturn] at hfits
  · intro h turns
    cases turns with
    | zero => exact fits_nil
    | succ turns =>
      rw [hturn]
      exact h turns

/-- At a place where it stands. -/
theorem splitFits_found (hd : d ≠ []) (hp : p ≠ slen) (hyes : bytesAt mem p d.length = d) :
    SplitFits mem slen d (n :: ns) p prev ↔ Call.Exact n ⟨prev, UInt64.ofInt (p - prev)⟩ ∧
      SplitFits mem slen d ns (p + d.length) (p + d.length) := by
  have hturn (turns : ℕ) : splitCalls mem slen d (turns + 1) p prev =
      ⟨prev, UInt64.ofInt (p - prev)⟩ ::
        splitCalls mem slen d turns (p + d.length) (p + d.length) := by
    rw [splitCalls, if_neg hp, if_neg (fun h => h.2 hyes)]
    simp only [if_pos hd]
  constructor
  · intro h
    refine ⟨?_, fun turns => ?_⟩
    · have hfits := h 1
      rw [hturn] at hfits
      exact (fits_cons.mp hfits).1
    · have hfits := h (turns + 1)
      rw [hturn] at hfits
      exact (fits_cons.mp hfits).2
  · rintro ⟨hexact, hrest⟩ turns
    cases turns with
    | zero => exact fits_nil
    | succ turns =>
      rw [hturn]
      exact fits_cons.mpr ⟨hexact, hrest turns⟩

/-- At the end of the string. -/
theorem splitFits_end (hd : d ≠ []) : SplitFits mem slen d [n] slen prev ↔
    Call.Exact n ⟨prev, UInt64.ofInt (slen - prev)⟩ := by
  have hturn (turns : ℕ) :
      splitCalls mem slen d (turns + 1) slen prev = [⟨prev, UInt64.ofInt (slen - prev)⟩] := by
    rw [splitCalls, if_pos rfl, if_pos hd]
  constructor
  · intro h
    have hfits := h 1
    rwa [hturn, fits_one] at hfits
  · intro h turns
    cases turns with
    | zero => exact fits_nil
    | succ turns => rwa [hturn, fits_one]

/-- Over places where it does not stand. -/
theorem splitFits_walk (hd : d ≠ []) : ∀ (m : ℕ) {p : ℕ},
    (∀ k, k < m → p + k ≠ slen ∧ bytesAt mem ((p + k : ℕ) : ℤ) d.length ≠ d) →
    (SplitFits mem slen d ns p prev ↔ SplitFits mem slen d ns (p + m) prev)
  | 0, _, _ => Iff.rfl
  | m + 1, p, hall => by
    obtain ⟨hp, hno⟩ := hall 0 (Nat.succ_pos m)
    rw [Nat.add_zero] at hp hno
    have hrest := splitFits_walk hd m (p := p + 1) fun k hk => by
      have hk' := hall (k + 1) (Nat.succ_lt_succ hk)
      rwa [Nat.add_right_comm, Nat.add_assoc p]
    rw [splitFits_next hd hp hno, hrest, Nat.add_right_comm, Nat.add_assoc]

/-- In the rest behind the last delimiter the calls are exact if none is found there: one that is
found goes over the end, and its piece is too short. -/
theorem splitFits_rest (hd : d ≠ []) {m : ℕ} (hend : prev + m = slen) (hlen : slen < ptrdiffMax) :
    ∀ (i : ℕ) {j : ℕ}, j + i = m → (SplitFits mem slen d [(m : ℤ)] (prev + j) prev ↔
      ∀ k, j ≤ k → k < m → bytesAt mem ((prev + k : ℕ) : ℤ) d.length ≠ d)
  | 0, j, hj => by
    obtain rfl : j = m := hj
    rw [hend, splitFits_end hd, exact_ofInt_iff (k := j) (by omega) (by omega)]
    exact iff_of_true rfl fun k h1 h2 => absurd h2 (Nat.not_lt.mpr h1)
  | i + 1, j, hj => by
    have hp : prev + j ≠ slen := by omega
    by_cases hfound : bytesAt mem ((prev + j : ℕ) : ℤ) d.length = d
    · refine iff_of_false ?_ fun hall => hall j (Nat.le_refl j) (by omega) hfound
      rw [splitFits_found hd hp hfound, exact_ofInt_iff (k := j) (by omega) (by omega)]
      omega
    · have hrest := splitFits_rest hd hend hlen i (j := j + 1) (by omega)
      rw [splitFits_next hd hp hfound, Nat.add_assoc, hrest]
      constructor
      · intro hall k h1 h2
        rcases Nat.eq_or_lt_of_le h1 with rfl | hlt
        · exact hfound
        · exact hall k hlt h2
      · exact fun hall k h1 h2 => hall k (Nat.le_of_succ_le h1) h2

/-- **The calls of the loop are exact for the pieces of the cut**, if no delimiter goes over the end. -/
theorem splitFits_cut (hd : d ≠ []) (hlen : s.length < ptrdiffMax) (hmem : Trim.Holds mem s) {u q : Bytes}
    {ps : List Bytes} (hcut : Cut d u ps q) : ∀ {p : ℕ}, p ≤ s.length → s.drop p = u →
    (SplitFits mem s.length d ((ps ++ [q]).map fun x => (x.length : ℤ)) p p ↔
      ∀ k, k < q.length → bytesAt mem (s.length - q.length + k) d.length ≠ d) := by
  have hpos := List.length_pos_of_ne_nil hd
  induction hcut with
  | @last q hfree =>
    intro p hp hs
    have hq := congrArg List.length hs
    rw [List.length_drop] at hq
    have hend : p + q.length = s.length := by omega
    have hrest : SplitFits mem s.length d [(q.length : ℤ)] (p + 0) p ↔ _ :=
      splitFits_rest hd hend hlen q.length (Nat.zero_add _)
    have hat (k : ℕ) : (s.length : ℤ) - q.length + k = ((p + k : ℕ) : ℤ) := by omega
    rw [Nat.add_zero] at hrest
    rw [List.nil_append, List.map_singleton, hrest]
    simp only [hat]
    exact ⟨fun hall k hk => hall k (Nat.zero_le k) hk, fun hall k _ hk => hall k hk⟩
  | @cons x t ps q hfree _ ih =>
    intro p hp hs
    obtain ⟨hle, hnext⟩ := Split.drop_piece hp hs
    have hat (k : ℕ) : s.drop (p + k) = (x ++ d ++ t).drop k := by rw [← hs, List.drop_drop]
    have hwalk : SplitFits mem s.length d (((x :: ps) ++ [q]).map fun x => (x.length : ℤ)) p p ↔
        SplitFits mem s.length d (((x :: ps) ++ [q]).map fun x => (x.length : ℤ)) (p + x.length) p := by
      refine splitFits_walk hd x.length fun k hk => ⟨by omega, ?_⟩
      rw [Ne, bytesAt_eq_iff hmem (by omega), hat k]
      exact hfree k hk
    have hstand : bytesAt mem ((p + x.length : ℕ) : ℤ) d.length = d := by
      rw [bytesAt_eq_iff hmem (by omega), hat, List.append_assoc, List.drop_left]
      exact List.prefix_append d t
    rw [hwalk, List.cons_append, List.map_cons, splitFits_found hd (by omega) hstand,
      exact_ofInt_iff (k := x.length) (by omega) (by omega), and_iff_right rfl]
    exact ih hle hnext

/-- Without a delimiter each byte is copied. -/
theorem fits_bytes : ∀ (turns : ℕ) {m p : ℕ}, p + m = slen →
    Fits (List.replicate m 1) (splitCalls mem slen [] turns p p)
  | 0, _, _, _ => fits_nil
  | turns + 1, m, p, hend => by
    have hnil : ¬ ([] : Bytes) ≠ [] := not_not.mpr rfl
    by_cases hp : p = slen
    · rw [splitCalls, if_pos hp, if_neg hnil]
      exact fits_nil
    · obtain ⟨m, rfl⟩ : ∃ m', m = m' + 1 := ⟨m - 1, by omega⟩
      rw [splitCalls, if_neg hp, if_neg (fun h => hnil h.1), List.replicate_succ]
      simp only [if_neg hnil]
      refine fits_cons.mpr ⟨(exact_iff_eq (k := 1) rfl (by decide)).mpr rfl, ?_⟩
      exact fits_bytes turns (by omega)

theorem bytesAt_add (mem : Memory) (p : ℤ) (m n : ℕ) :
    bytesAt mem p (m + n) = bytesAt mem p m ++ bytesAt mem (p + m) n := by
  unfold bytesAt copied
  rw [List.range_add, List.map_append, List.map_map]
  refine congrArg _ (List.map_congr_left fun j _ => ?_)
  rw [Function.comp_apply, Nat.cast_add]
  exact congrArg mem (Int.add_assoc _ _ _).symm

/-- With its terminator in the memory, a delimiter that is found over the end of the string matches the
terminator. -/
theorem not_clear_of_found {r : Bytes} {all : Bool} (h : Trim.Holds mem s) (hnul : mem s.length = 0)
    (hp : p ≤ s.length) (hr : s.drop p = r) (hno : ¬ d <+: r) (hfound : bytesAt mem p d.length = d) :
    ¬ Split.ClearAt all d r := by
  have hlen : s.length - p = r.length := by rw [← List.length_drop, hr]
  have hlong : r.length < d.length := by
    by_contra hle
    rw [bytesAt_eq_iff h (by omega), hr] at hfound
    exact hno hfound
  have hpre : r ++ [0] <+: d := by
    obtain ⟨n, hn⟩ : ∃ n, d.length = r.length + 1 + n := ⟨d.length - (r.length + 1), by omega⟩
    have hstr : bytesAt mem p r.length = r := by
      rw [bytesAt_eq h (by omega), hr, List.take_length]
    have hend : (p : ℤ) + r.length = s.length := by omega
    have hlast : bytesAt mem (p + r.length) 1 = [0] := by
      rw [hend]
      exact congrArg (fun c => [c]) ((congrArg mem (Int.add_zero _)).trans hnul)
    rw [hn, bytesAt_add, bytesAt_add, hstr, hlast] at hfound
    exact ⟨_, hfound⟩
  unfold Split.ClearAt
  split_ifs
  · rintro ⟨hle, hne⟩
    refine hne (hpre.eq_of_length (Nat.le_antisymm hpre.length_le ?_)).symm
    rwa [List.length_append]
  · exact not_not.mpr hpre

/-- **The calls are for the pieces that `str.split` makes**, where nothing goes wrong. -/
theorem fits_split {all : Bool} {l : List Bytes} (hlen : s.length < ptrdiffMax) (h : Trim.Holds mem s)
    (hnul : mem s.length = 0) (hl : Split.split all s d = .ok l) (turns : ℕ) :
    Fits (l.map fun x => (x.length : ℤ)) (splitCalls mem s.length d turns 0 0) := by
  unfold Split.split at hl
  by_cases hd : d = []
  · subst hd
    rw [Split.splitLoop_nil all s s.length (Nat.zero_add _)] at hl
    obtain rfl := Except.ok.inj hl
    have hone : ((s.drop 0).map fun c => [c]).map (fun x => (x.length : ℤ)) =
        List.replicate s.length 1 := by
      rw [List.drop_zero, List.map_map]
      exact List.map_const' (l := s) (b := (1 : ℤ))
    rw [hone]
    exact fits_bytes turns (Nat.zero_add _)
  · obtain ⟨ps, q, hcut⟩ := exists_cut hd s
    have hclear : Split.Clear all d q := by
      by_contra hnot
      obtain ⟨e, he⟩ := Split.splitLoop_error hd hcut hnot (Nat.zero_le _) List.drop_zero
      rw [he] at hl
      cases hl
    rw [Split.splitLoop_ok hd hcut hclear (Nat.zero_le _) List.drop_zero] at hl
    obtain rfl := Except.ok.inj hl
    refine (splitFits_cut hd hlen h hcut (Nat.zero_le _) List.drop_zero).mpr (fun k hk hfound => ?_) turns
    obtain ⟨u, rfl⟩ := hcut.suffix
    have hat : ((u ++ q).length : ℤ) - q.length + k = ((u.length + k : ℕ) : ℤ) := by
      rw [List.length_append]
      omega
    have hdrop : (u ++ q).drop (u.length + k) = q.drop k := by rw [← List.drop_drop, List.drop_left]
    rw [hat] at hfound
    refine not_clear_of_found h hnul ?_ hdrop (hcut.free k hk) hfound (hclear k hk)
    rw [List.length_append]
    omega

/-! ### Ranges and whitespace -/

theorem toNat_toUInt64 (i : Int64) : (i.toUInt64.toNat : ℤ) = i.toInt % 2 ^ 64 := by
  have hint : i.toInt = (i.toUInt64.toNat : ℤ).bmod (2 ^ 64) := BitVec.toInt_eq_toNat_bmod i.toBitVec
  have hlt := i.toUInt64.toNat_lt
  calc (i.toUInt64.toNat : ℤ)
    _ = i.toUInt64.toNat % ((2 ^ 64 : ℕ) : ℤ) := by omega
    _ = (i.toUInt64.toNat : ℤ).bmod (2 ^ 64) % ((2 ^ 64 : ℕ) : ℤ) := Int.bmod_emod.symm
    _ = i.toInt % 2 ^ 64 := by
      rw [hint]
      rfl

/-- An integer that is not negative is the same in `size_t`. -/
theorem toNat_of_nonneg {i : Int64} (h : 0 ≤ i) :
    0 ≤ i.toInt ∧ (i.toUInt64.toNat : ℤ) = i.toInt ∧ i.toUInt64.toNat < 2 ^ 63 := by
  have hpos : 0 ≤ i.toInt := Int64.le_iff_toInt_le.mp h
  have hlt := i.toInt_lt
  have hmod := toNat_toUInt64 i
  rw [Int.emod_eq_of_lt hpos (by omega)] at hmod
  omega

theorem fits_range (hs : slen < ptrdiffMax) (start stop : Int64) :
    Fits [stop.toInt - start.toInt + 1] (rangeCalls slen start stop) := by
  have hmax : ptrdiffMax = 9223372036854775807 := rfl
  unfold rangeCalls
  split_ifs with hbad
  · exact fits_nil
  obtain ⟨hstart, hbad⟩ := not_or.mp hbad
  obtain ⟨-, hbad⟩ := not_or.mp hbad
  obtain ⟨hend, hbad⟩ := not_or.mp hbad
  obtain ⟨hlast, hle⟩ := not_or.mp hbad
  obtain ⟨hstart, -, -⟩ := toNat_of_nonneg (Int64.not_lt.mp hstart)
  obtain ⟨hend, hnat, -⟩ := toNat_of_nonneg (Int64.not_lt.mp hend)
  have hle := Int64.le_iff_toInt_le.mp (Int64.not_lt.mp hle)
  have hlast : stop.toUInt64.toNat < slen := by
    have hlt := UInt64.lt_iff_toNat_lt.mp (UInt64.not_le.mp hlast)
    rwa [toNat_ofNat hs] at hlt
  -- the difference is less than the length of the string
  have hsub : (stop - start).toInt = stop.toInt - start.toInt := by
    rw [Int64.toInt_sub]
    exact Int.bmod_eq_of_le (by omega) (by omega)
  have hlen : ((stop - start).toUInt64.toNat : ℤ) = stop.toInt - start.toInt :=
    calc ((stop - start).toUInt64.toNat : ℤ)
      _ = (stop - start).toInt % 2 ^ 64 := toNat_toUInt64 _
      _ = (stop.toInt - start.toInt) % 2 ^ 64 := by rw [hsub]
      _ = stop.toInt - start.toInt := by omega
  have hnext : ((stop - start).toUInt64 + 1).toNat = (stop - start).toUInt64.toNat + 1 := by
    rw [UInt64.toNat_add]
    refine Nat.mod_eq_of_lt ?_
    show (stop - start).toUInt64.toNat + 1 < 2 ^ 64
    omega
  dsimp only
  split_ifs
  · exact fits_nil
  · rw [fits_one, exact_iff_eq hnext (by omega)]
    omega

theorem ltrimLoop_eq {s : Bytes} {i : ℕ} (hi : i ≤ s.length) :
    ltrimLoop s i ≤ s.length ∧ s.drop (ltrimLoop s i) = (s.drop i).dropWhile isspace := by
  fun_induction ltrimLoop s i with
  | case1 i h hc =>
    refine ⟨hi, ?_⟩
    rw [List.drop_eq_getElem_cons h, List.dropWhile_cons_of_neg (by rw [hc]; exact Bool.false_ne_true)]
  | case2 i h hc ih =>
    obtain ⟨hle, hdrop⟩ := ih h
    refine ⟨hle, ?_⟩
    rw [hdrop, List.drop_eq_getElem_cons h, List.dropWhile_cons_of_pos (by simpa using hc)]
  | case3 i h =>
    refine ⟨hi, ?_⟩
    rw [List.drop_eq_nil_of_le (Nat.le_of_not_lt h)]
    rfl

theorem fits_ltrim (hs : s.length < ptrdiffMax) :
    Fits [((s.dropWhile isspace).length : ℤ)] (ltrimCalls s) := by
  obtain ⟨hle, hdrop⟩ := ltrimLoop_eq (Nat.zero_le s.length)
  have hrest := congrArg List.length hdrop
  rw [List.length_drop, List.drop_zero] at hrest
  have hnat {n : ℕ} (hn : n ≤ s.length) : (UInt64.ofNat n).toNat = n :=
    toNat_ofNat (Nat.lt_of_le_of_lt hn hs)
  have hsub : (UInt64.ofNat s.length - UInt64.ofNat (ltrimLoop s 0)).toNat =
      (s.dropWhile isspace).length := by
    rw [UInt64.toNat_sub_of_le _ _ (UInt64.le_iff_toNat_le.mpr (by rwa [hnat le_rfl, hnat hle])),
      hnat le_rfl, hnat hle, hrest]
  unfold ltrimCalls
  rw [fits_one, exact_iff_eq hsub (by omega)]

theorem trimmed_nil (hs : Blank s) : Trimmed s [] := ⟨⟨s, rfl, hs⟩, nofun⟩

/-- A string that is not all whitespace is trimmed behind its last byte that is none. -/
theorem rtrimCalls_split {c : UInt8} {u : Bytes} (hlen : (t ++ c :: u).length < ptrdiffMax)
    (hc : isspace c = false) (hu : Blank u) (h : Trim.Holds mem (t ++ c :: u)) :
    rtrimCalls mem (t ++ c :: u).length = [⟨0, UInt64.ofNat (t.length + 1)⟩] ∧
      Trimmed (t ++ c :: u) (t ++ [c]) := by
  have hmax : ((ptrdiffMax : ℕ) : ℤ) = ssizeMax := rfl
  obtain ⟨reads, hrun, -⟩ := rtrim_split (by omega) hc hu h
  unfold rtrimCalls
  rw [hrun]
  refine ⟨rfl, ⟨u, List.append_cons t c u, hu⟩, fun d hd => ?_⟩
  rw [List.getLast?_concat] at hd
  rwa [← Option.some.inj hd]

/-- What `rtrim` copies of whitespace. -/
theorem rtrimCalls_blank (hlen : s.length < ptrdiffMax) (hne : s ≠ []) (hs : Blank s)
    (h : Trim.Holds mem s) : rtrimCalls mem s.length =
      [⟨0, if isspace (mem (-1)) = false then 0 else Inflate.sizeMax⟩] := by
  have hmax : ((ptrdiffMax : ℕ) : ℤ) = ssizeMax := rfl
  obtain ⟨reads, hrun, -⟩ := rtrim_blank (by omega) hne hs h
  unfold rtrimCalls
  rw [hrun]
  split_ifs <;> rfl

/-- **The length that `rtrim` copies is exact exactly if the string is not whitespace behind
whitespace.** -/
theorem rtrim_right_iff (o : Stored) : (Caller.rtrim o).Right ↔ (Caller.rtrim o).Keeps := by
  obtain ⟨⟨s, hlen⟩, mem, h⟩ := o
  dsimp only at h
  rcases blank_or_split s with hs | ⟨t, c, u, rfl, hc, hu⟩
  · by_cases hne : s = []
    · subst hne
      refine iff_of_true ⟨[0], ⟨[], trimmed_nil hs, rfl⟩, fun _ => ?_⟩ (.inl rfl)
      exact fits_one.mpr ((exact_iff_eq (k := 0) rfl (by decide)).mpr rfl)
    · have hcalls := rtrimCalls_blank hlen hne hs h
      by_cases hfront : isspace (mem (-1)) = false
      · rw [if_pos hfront] at hcalls
        refine iff_of_true ⟨[0], ⟨[], trimmed_nil hs, rfl⟩, fun _ => ?_⟩ (.inr (.inr hfront))
        show Fits _ (rtrimCalls mem s.length)
        rw [hcalls, fits_one, exact_iff_eq (k := 0) rfl (by decide)]
        rfl
      · rw [if_neg hfront] at hcalls
        refine iff_of_false ?_ ?_
        · rintro ⟨ns, ⟨t, -, rfl⟩, hall⟩
          have hfits : Fits _ (rtrimCalls mem s.length) := hall 0
          rw [hcalls, fits_one] at hfits
          exact absurd hfits.room (by decide)
        · rintro (hnil | ⟨c, hc, hns⟩ | hfront')
          · exact hne hnil
          · rw [hs c hc] at hns
            cases hns
          · exact hfront hfront'
  · obtain ⟨hcalls, htrimmed⟩ := rtrimCalls_split hlen hc hu h
    refine iff_of_true ⟨_, ⟨_, htrimmed, rfl⟩, fun _ => ?_⟩ (.inr (.inl ⟨c, by simp, hc⟩))
    show Fits _ (rtrimCalls mem (t ++ c :: u).length)
    rw [List.length_append, List.length_cons] at hlen
    rw [hcalls, fits_one, exact_iff_eq (toNat_ofNat (by omega)) (by omega)]
    simp

/-! ### Memory and files -/

/-- **The length that `ffi.memcpy` copies is exact exactly if it is not negative**, or there is no
address. -/
theorem memcpy_right_iff (addr len : Int64) :
    (Caller.memcpy addr len).Right ↔ (Caller.memcpy addr len).Keeps := by
  have hright : (Caller.memcpy addr len).Right ↔ Fits [len.toInt] (memcpyCalls addr len) :=
    ⟨fun ⟨_, hns, hall⟩ => hns ▸ hall 0, fun h => ⟨_, rfl, fun _ => h⟩⟩
  rw [hright]
  unfold memcpyCalls Caller.Keeps
  dsimp only
  split_ifs with hzero haddr
  · refine iff_of_true fits_nil (.inr ?_)
    rw [hzero]
    decide
  · exact iff_of_true fits_nil (.inl haddr)
  · rw [fits_one, or_iff_right haddr]
    constructor
    · intro h
      rw [Int64.le_iff_toInt_le, ← h.len]
      exact Int.natCast_nonneg _
    · intro h
      obtain ⟨-, hnat, hlt⟩ := toNat_of_nonneg h
      rw [exact_iff]
      exact ⟨hnat, by dsimp only; omega⟩

/-- These are the bytes of the buffer that `ffi.memcpy` makes. -/
theorem memcpyCalls_made {addr len : Int64} (haddr : addr ≠ 0) (mem : Memory) :
    Buffers.ffiMemcpy (fun j => mem (addr.toInt + j)) len.toInt =
      (memcpyCalls addr len).head?.bind fun c => Buffers.copy (bytesAt mem c.p c.len.toNat) := by
  have hzero : len.toInt = 0 ↔ len = 0 := ⟨fun h => Int64.toInt_inj.mp h, fun h => by rw [h]; rfl⟩
  have hmod := toNat_toUInt64 len
  unfold Buffers.ffiMemcpy memcpyCalls
  simp only [hzero, if_neg haddr]
  split_ifs
  · rfl
  · rw [← hmod]
    rfl

variable {file : Bytes}

/-- Of a file without `#!` nothing is copied. -/
theorem sourceCalls_plain (hs : ¬ Source.Shebang file) : sourceCalls file = [] := by
  unfold sourceCalls
  split_ifs with hrefused
  · rfl
  · split
    · rename_i t
      exact absurd ⟨t, rfl⟩ hs
    · rfl

/-- With `#!` the copy is from the newline, and as long as what is behind it. -/
theorem sourceCalls_shebang (hs : Source.Shebang file) (hlen : (file.length : ℤ) < ssizeMax) :
    sourceCalls file =
      if (cstr file).findIdx (· = Source.newline) < (cstr file).length then
        [⟨(cstr file).findIdx (· = Source.newline),
          UInt64.ofInt (file.length - ((cstr file).findIdx (· = Source.newline) + 1))⟩]
      else [] := by
  obtain ⟨t, rfl⟩ := hs
  -- the newline is not the first byte
  have hpos : (cstr (0x23 :: 0x21 :: t)).findIdx (· = Source.newline) ≠ 0 := by
    simp [cstr, List.findIdx_cons, Source.newline]
  unfold sourceCalls
  rw [if_neg (by rintro (hnil | hlong); exacts [Nat.succ_ne_zero _ hnil, Int.not_lt.mpr hlong hlen])]
  simp only [if_pos hpos]

theorem fits_source (file : Bytes) : Fits [((Source.code file).length : ℤ)] (sourceCalls file) := by
  have hmax : ((ptrdiffMax : ℕ) : ℤ) = ssizeMax := rfl
  by_cases hs : Source.Shebang file
  · by_cases hlen : (file.length : ℤ) < ssizeMax
    · rw [sourceCalls_shebang hs hlen]
      split_ifs with hnl
      · have hmem : Source.newline ∈ cstr file := by
          obtain ⟨c, hc, heq⟩ := List.findIdx_lt_length.mp hnl
          rwa [of_decide_eq_true heq] at hc
        obtain ⟨-, hdrop⟩ := Source.drop_newline hmem
        rw [← Source.code_shebang hs] at hdrop
        have hrest := congrArg List.length hdrop
        rw [List.length_drop, List.length_cons] at hrest
        rw [fits_one, exact_ofInt_iff (k := (Source.code file).length) (by omega) (by omega)]
      · exact fits_nil
    · unfold sourceCalls
      rw [if_pos (.inr (Int.not_lt.mp hlen))]
      exact fits_nil
  · rw [sourceCalls_plain hs]
    exact fits_nil

/-- It is a copy of the text that is executed. -/
theorem sourceCalls_text (hs : Source.Shebang file) (hlen : (file.length : ℤ) < ssizeMax)
    (h : Trim.Holds mem file) :
    (sourceCalls file).map (fun c => bytesAt mem c.p c.len.toNat) = (sourceText file).toList := by
  have hmax : ((ptrdiffMax : ℕ) : ℤ) = ssizeMax := rfl
  have hle : (cstr file).length ≤ file.length := (List.takeWhile_prefix _).length_le
  rw [sourceCalls_shebang hs hlen, Source.sourceText_eq hs]
  split_ifs with hnl
  · have hnat : (UInt64.ofInt (file.length - ((cstr file).findIdx (· = Source.newline) + 1))).toNat =
        file.length - ((cstr file).findIdx (· = Source.newline) + 1) :=
      toNat_ofInt (by omega) (by omega)
    rw [List.map_singleton]
    dsimp only
    rw [hnat, bytesAt_eq h (by omega)]
    rfl
  · rfl

/-! ### Expressions -/

variable {i : ℕ} {l : List Bytes}

/-- The turn of the parser copies from the `start` of its item to its `end`. -/
theorem parseTurn_eq (s : Bytes) (i : ℕ) : parseTurn s i =
    match tokenAt s i with
    | .error e => .error e
    | .ok (none, k) => .ok (none, k)
    | .ok (some (start, stop), k) => (strCopy s start stop).map fun x => (some x, k) := by
  unfold parseTurn tokenAt
  cases read s i with
  | error e => rfl
  | ok c =>
    dsimp only
    split_ifs
    · cases bracScan s (i + 1) 1 with
      | error e => rfl
      | ok j =>
        dsimp only
        cases strCopy s (i + 1) j <;> rfl
    · cases brakScan s (i + 1) 1 0 with
      | error e => rfl
      | ok j =>
        dsimp only
        cases strCopy s i (j + 1) <;> rfl
    · rfl
    · cases wordEnd s (i + 1) with
      | error e => rfl
      | ok j =>
        dsimp only
        cases strCopy s i j <;> rfl

/-- The byte behind a word is skipped with it. -/
theorem items_skip (ht : Breaks t) (h : Items (t.drop 1) l) : Items t l := by
  cases t with
  | nil => exact h
  | cons c t => exact .space (ht c rfl) h

/-- The turn at an item. -/
theorem item_of_tokenAt {start stop : ℕ} (hlt : i < s.length)
    (h : tokenAt s i = .ok (some (start, stop), k)) : ∃ x : Bytes, stop = start + x.length ∧
      stop ≤ s.length ∧ ∀ l, Items (s.drop k) l → Items (s.drop i) (x :: l) := by
  unfold tokenAt at h
  rw [read_of_lt hlt] at h
  dsimp only at h
  split_ifs at h with hb hk hsp
  · split at h
    · cases h
    rename_i j hj
    cases h
    obtain ⟨x, hd, hx, hend⟩ := bracScan_ok hlt hj
    have hlen := congrArg List.length hd
    rw [List.length_drop, List.length_append, List.length_cons] at hlen
    refine ⟨x, hend, by omega, fun l hl => ?_⟩
    rw [show i + (stop - (i + 1)) + 2 = stop + 1 by omega] at hl
    rw [List.drop_eq_getElem_cons hlt, hb, hd]
    exact .brac hx hl
  · split at h
    · cases h
    rename_i j hj
    cases h
    obtain ⟨x, hd, hx, hend⟩ := brakScan_ok hlt hk hj
    have hlen := congrArg List.length hd
    rw [List.length_drop, List.length_append] at hlen
    refine ⟨x, hend, by omega, fun l hl => ?_⟩
    rw [show i + (j + 1 - i) + 0 = j + 1 by omega] at hl
    rw [hd]
    exact .brak hx hl
  · cases h
  · split at h
    · cases h
    rename_i j hj
    cases h
    obtain ⟨w, hd, hw, ht, hend⟩ := wordScan_ok hlt hb hk (Bool.eq_false_iff.mpr hsp) hj
    have hlen := congrArg List.length hd
    rw [List.length_drop, List.length_append] at hlen
    refine ⟨w, hend, by omega, fun l hl => ?_⟩
    rw [show i + (stop - i) + 1 = stop + 1 by omega, ← List.drop_drop] at hl
    rw [hd]
    exact .word hw ht (items_skip ht hl)

/-- **The calls of the parser are exact for the items** in front of the first token that is not closed.
By induction on its run. -/
theorem tokenCalls_fits (hs : s.length < ptrdiffMax) :
    ∃ l, Items (s.drop i) l ∧ Fits (l.map fun x => (x.length : ℤ)) (tokenCalls s i) := by
  fun_induction tokenCalls s i with
  | case1 i hlt e he =>
    have hturn : parseTurn s i = .error e := by rw [parseTurn_eq, he]
    exact ⟨[], .unclosed (unclosed_of_parseTurn hlt hturn), fits_nil⟩
  | case2 i hlt k hk ih =>
    have hturn : parseTurn s i = .ok (none, k) := by rw [parseTurn_eq, hk]
    obtain ⟨rfl, hsp⟩ := space_of_parseTurn hlt hturn
    obtain ⟨l, hl, hfits⟩ := ih
    refine ⟨l, ?_, hfits⟩
    rw [List.drop_eq_getElem_cons hlt]
    exact .space hsp hl
  | case3 i hlt start stop k hk ih =>
    obtain ⟨x, rfl, hle, hitem⟩ := item_of_tokenAt hlt hk
    obtain ⟨l, hl, hfits⟩ := ih
    refine ⟨x :: l, hitem l hl, fits_cons.mpr ⟨?_, hfits⟩⟩
    exact (exact_ofInt_iff (by omega) (by omega)).mpr rfl
  | case4 i hlt =>
    rw [List.drop_eq_nil_of_le (Nat.le_of_not_lt hlt)]
    exact ⟨[], .nil, fits_nil⟩

/-- Of a text that the parser accepts, they are exact for the items that it returns. -/
theorem tokenCalls_of_ok (hs : s.length < ptrdiffMax) (h : doAsListAt s i = .ok l) :
    Fits (l.map fun x => (x.length : ℤ)) (tokenCalls s i) := by
  fun_induction tokenCalls s i generalizing l with
  | case1 => exact fits_nil
  | case2 i hlt k hk ih =>
    have hturn : parseTurn s i = .ok (none, k) := by rw [parseTurn_eq, hk]
    rw [doAsListAt_turn hlt, hturn] at h
    exact ih h
  | case3 i hlt start stop k hk ih =>
    obtain ⟨x, rfl, hle, -⟩ := item_of_tokenAt hlt hk
    have hturn : parseTurn s i = .ok (some (slice s start (start + x.length)), k) := by
      rw [parseTurn_eq, hk]
      dsimp only
      rw [strCopy, if_pos ⟨Nat.le_add_right _ _, hle⟩]
      rfl
    rw [doAsListAt_turn hlt, hturn] at h
    dsimp only at h
    cases hrest : doAsListAt s k with
    | error e =>
      rw [hrest] at h
      cases h
    | ok l' =>
      rw [hrest] at h
      obtain rfl := Except.ok.inj h
      have hlen : (slice s start (start + x.length)).length = x.length := by
        rw [slice, List.length_take, List.length_drop]
        omega
      refine fits_cons.mpr ⟨(exact_ofInt_iff (k := x.length) (by omega) (by omega)).mpr ?_, ih hrest⟩
      exact congrArg _ hlen
  | case4 => exact fits_nil

/-- The text of a statement: what is between the brackets. -/
theorem evalCalls_fits (hs : s.length < ptrdiffMax) :
    ∃ l, Evaluates s l ∧ Fits (l.map fun x => (x.length : ℤ)) (evalCalls s) := by
  unfold evalCalls
  split_ifs with hhead hbad
  · refine ⟨_, .inr (.inl ⟨hhead, ?_, rfl⟩), fits_one.mpr (exact_whole (by decide))⟩
    rintro x rfl
    rcases hbad with hone | hlast
    · simp at hone
    · exact hlast List.getLast?_concat
  · obtain ⟨hone, hlast⟩ := not_or.mp hbad
    obtain ⟨rest, rfl⟩ : ∃ rest, s = lbrak :: rest := by
      cases s with
      | nil => cases hhead
      | cons c rest => exact ⟨rest, by rw [Option.some.inj hhead]⟩
    obtain ⟨x, rfl⟩ : ∃ x, rest = x ++ [rbrak] := by
      rcases List.eq_nil_or_concat rest with rfl | ⟨x, d, rfl⟩
      · exact absurd rfl hone
      · rw [List.concat_eq_append, ← List.cons_append, List.getLast?_concat, not_not] at hlast
        exact ⟨x, by rw [List.concat_eq_append, Option.some.inj hlast]⟩
    have hbody : ((lbrak :: (x ++ [rbrak])).drop 1).take ((lbrak :: (x ++ [rbrak])).length - 2) = x := by
      rw [List.drop_one, List.tail_cons, List.length_cons, List.length_append, List.length_singleton]
      exact List.take_left
    have hx : x.length < ptrdiffMax := by
      rw [List.length_cons, List.length_append] at hs
      omega
    obtain ⟨l, hl, hfits⟩ := tokenCalls_fits (i := 0) hx
    rw [hbody]
    exact ⟨l, .inl ⟨x, rfl, hl⟩, fits_map (fun _ => rfl) hfits⟩
  · exact ⟨[], .inr (.inr ⟨hhead, rfl⟩), fits_nil⟩

theorem fits_asStr (l : List Text) :
    Fits ((l.take 1).map fun x => (x.1.length : ℤ)) (asStrCalls (l.map (·.1))) := by
  cases l with
  | nil => exact fits_nil
  | cons x l =>
    rw [List.map_cons, asStrCalls]
    split_ifs
    · exact fits_one.mpr (exact_whole x.2)
    · exact fits_nil

/-! ### Every call -/

/-- **The lengths that `str.split` copies are exact exactly if no delimiter goes over the end.** -/
theorem split_right_iff (o : Stored) (d : Text) : (Caller.split o d).Right ↔ (Caller.split o d).Keeps := by
  unfold Caller.Right Caller.Means Caller.Keeps
  by_cases hd : d.1 = []
  · simp only [if_pos hd]
    refine iff_of_true ⟨_, rfl, fun turns => ?_⟩ fun hne => absurd hd hne
    show Fits _ (splitCalls o.mem o.s.1.length d.1 turns 0 0)
    rw [hd]
    exact fits_bytes turns (Nat.zero_add _)
  · have hcalls {ps : List Bytes} {q : Bytes} (hcut : Cut d.1 o.s.1 ps q) :=
      splitFits_cut hd o.s.2 o.holds hcut (Nat.zero_le _) List.drop_zero
    simp only [ne_eq, hd, not_false_eq_true, forall_const]
    constructor
    · rintro ⟨ns, ⟨ps, q, hcut, rfl⟩, hall⟩
      exact ⟨ps, q, hcut, (hcalls hcut).mp hall⟩
    · rintro ⟨ps, q, hcut, hno⟩
      exact ⟨_, ⟨ps, q, hcut, rfl⟩, (hcalls hcut).mpr hno⟩

/-- A caller with lengths that are always exact. -/
theorem right_of_fits {c : Caller} (hns : c.Means ns) (h : ∀ turns, Fits ns (c.calls turns)) : c.Right :=
  ⟨ns, hns, h⟩

theorem right_iff (c : Caller) : c.Right ↔ c.Keeps := by
  cases c with
  | range s start stop =>
    exact iff_of_true (right_of_fits rfl fun _ => fits_range s.2 start stop) trivial
  | split s d => exact split_right_iff s d
  | ltrim s => exact iff_of_true (right_of_fits rfl fun _ => fits_ltrim s.2) trivial
  | rtrim s => exact rtrim_right_iff s
  | memcpy addr len => exact memcpy_right_iff addr len
  | buf s => exact iff_of_true (right_of_fits rfl fun _ => fits_one.mpr (exact_whole s.2)) trivial
  | source file => exact iff_of_true (right_of_fits rfl fun _ => fits_source file) trivial
  | eval exp =>
    obtain ⟨l, hl, hfits⟩ := evalCalls_fits exp.2
    exact iff_of_true (right_of_fits ⟨l, hl, rfl⟩ fun _ => hfits) trivial
  | asList s =>
    obtain ⟨l, hl, hfits⟩ := tokenCalls_fits (i := 0) s.2
    exact iff_of_true (right_of_fits ⟨l, hl, rfl⟩ fun _ => hfits) trivial
  | asStr l => exact iff_of_true (right_of_fits rfl fun _ => fits_asStr l) trivial
  | message s => exact iff_of_true (right_of_fits rfl fun _ => fits_one.mpr (exact_whole s.2)) trivial

theorem agrees (c : Caller) : c.Agrees := by
  cases c with
  | split s d => exact fun hnul all l hl turns => fits_split s.s.2 s.holds hnul hl turns
  | memcpy addr len => exact fun haddr mem => memcpyCalls_made haddr mem
  | source file => exact fun hs hlen mem h => sourceCalls_text hs hlen h
  | asList s => exact fun l hl => tokenCalls_of_ok s.2 hl
  | _ => trivial

/-- **Every call of `b6b_strndup` copies the count that is meant, and its length does not wrap**, but for
those of `Caller.Keeps`. -/
theorem copies_exact_iff (c : Caller) : (c.Right ↔ c.Keeps) ∧ c.Agrees := ⟨right_iff c, agrees c⟩

/-- `{$ffi.memcpy 1 -1}`: the length in `size_t` has no next one. -/
theorem memcpy_wraps : ¬ ∀ c : Caller, c.Right := by
  intro hall
  obtain ⟨ns, -, hcalls⟩ := hall (.memcpy 1 (-1))
  obtain ⟨ms, -, hexact⟩ := hcalls 0
  have hcall : Caller.calls 0 (.memcpy 1 (-1)) = [⟨1, Inflate.sizeMax⟩] := by decide +kernel
  rw [hcall] at hexact
  cases hexact with
  | cons h _ => exact absurd h.room (by decide)

end Copies

end B6b
