/-
# The read loop of a stream

`b6b_strm_read` reads in turns: it asks how much comes next (`peeksz`), makes its buffer larger by
that estimate, but by no more than it still wants, and has the callback `read` store at the end of
what it has. The capacity grows by what was estimated and the fill level by what was really read,
so the fill level stays below the capacity, and there is room for the terminator.

`strm_read_exact`: whatever the callbacks do, nothing is stored outside of the buffer, and its content
is what they have delivered.

Key definitions: `Callbacks`, `readLoop`, `strmRead`, `Inv`, `Exact`.
-/
import B6b.Strm
import B6b.Lib.Block
import Mathlib.Tactic.Ring

namespace B6b

namespace Reading

open Block

/-! ### The loop -/

/-- What a callback `read` has stored: the bytes that it tells of, then bytes that it does not; and
whether it has set `eof`, and left `again` as it was. -/
structure Chunk where
  data : Bytes
  rest : Bytes
  eof : Bool
  again : Bool

/-- All that is stored. -/
def Chunk.stored (c : Chunk) : Bytes := c.data ++ c.rest

/-- The callbacks of a stream that the loop calls, on the state of what is outside: a callback `read`
stores no more than it may. `peeksz` may be absent; a negative estimate, and `none`, are errors. -/
structure Callbacks (σ : Type) where
  peeksz : Option (σ → ℤ × σ)
  read : σ → (len : ℕ) → Option { c : Chunk // c.stored.length ≤ len } × σ

/-- How the loop ends: `len` overflows, something is accessed outside of the buffer, `B6B_ERR`,
`B6B_OK` with nothing, or `B6B_OK` with the first `out` bytes of the buffer. -/
inductive Result
  | overflow
  | oob
  | err
  | null
  | ok (buf : List (Option UInt8)) (out : ℕ) (eof : Bool)
deriving DecidableEq

/-- What becomes of a read: its result, the bytes of the chunks that were delivered, one behind the
other, and what is outside. -/
structure Reply (σ : Type) where
  result : Result
  chunks : List Bytes
  env : σ

variable {σ : Type}

/-- `b6b_strm_peeksz`; `none` is an error. -/
def strmPeeksz (cb : Callbacks σ) (s : σ) : Option ℕ × σ :=
  match cb.peeksz with
  | none => (some strmBufsiz.toNat, s)
  | some peeksz =>
    if (peeksz s).1 < 0 then (none, (peeksz s).2) else (some (peeksz s).1.toNat, (peeksz s).2)

/-- `buf[out] = '\0'`, and the string of `buf`. -/
def finish (buf : List (Option UInt8)) (out : ℕ) (eof : Bool) : Result :=
  if out < buf.length then .ok (store buf out 0) out eof else .oob

/-- The loop of `b6b_strm_read`. The estimate is never larger than what is wanted, and a chunk never
larger than the estimate, so `want` does not become negative. -/
def readLoop (cb : Callbacks σ) (want : ℕ) (buf : List (Option UInt8)) (len out est : ℕ)
    (chunks : List Bytes) (s : σ) : Reply σ :=
  if ((len + est : ℕ) : ℤ) > ssizeMax then ⟨.overflow, chunks, s⟩
  else
    let len := len + est
    let buf := realloc buf len
    if est = 0 then ⟨finish buf out false, chunks, s⟩
    else if buf.length < out + est then ⟨.oob, chunks, s⟩
    else
      match cb.read s est with
      | (none, s) => ⟨.err, chunks, s⟩
      | (some c, s) =>
        let buf := memcpy buf out c.1.stored
        let more := c.1.data.length
        let out := out + more
        let chunks := chunks ++ [c.1.data]
        if c.1.eof then ⟨finish buf out true, chunks, s⟩
        else if _hmore : more = 0 ∨ c.1.again = false then ⟨finish buf out false, chunks, s⟩
        else if _hwant : want - more = 0 then ⟨finish buf out false, chunks, s⟩
        else
          match strmPeeksz cb s with
          | (none, s) => ⟨.err, chunks, s⟩
          | (some est, s) =>
            if est = 0 then ⟨finish buf out false, chunks, s⟩
            else readLoop cb (want - more) buf len out (min est (want - more)) chunks s
termination_by want
decreasing_by
  have hpos : c.1.data.length ≠ 0 := fun h => _hmore (.inl h)
  omega

/-- `b6b_strm_read`, of a stream with these flags and a callback `read`. -/
def strmRead (cb : Callbacks σ) (eof closed : Bool) (want : ℕ) (s : σ) : Reply σ :=
  if eof then ⟨.null, [], s⟩
  else if closed then ⟨.err, [], s⟩
  else
    match strmPeeksz cb s with
    | (none, s) => ⟨.err, [], s⟩
    | (some est, s) => readLoop cb want [] 1 0 (min est want) [] s

/-! ### One turn -/

/-- The callback has stored `c`, and there is more to come: the loop asks for another estimate. -/
structure GoesOn (cb : Callbacks σ) (want est : ℕ) (s : σ) (c : { c : Chunk // c.stored.length ≤ est })
    (s' : σ) : Prop where
  read : cb.read s est = (some c, s')
  notEof : c.1.eof = false
  brings : c.1.data.length ≠ 0
  again : c.1.again = true
  wanted : want - c.1.data.length ≠ 0

/-- What one turn of the loop does, by the way it takes out. -/
inductive OneTurn (cb : Callbacks σ) (want : ℕ) (buf : List (Option UInt8)) (len out est : ℕ)
    (chunks : List Bytes) (s : σ) : Reply σ → Prop
  | overflow : ((len + est : ℕ) : ℤ) > ssizeMax →
      OneTurn cb want buf len out est chunks s ⟨.overflow, chunks, s⟩
  | nothing : ((len + est : ℕ) : ℤ) ≤ ssizeMax → est = 0 → OneTurn cb want buf len out est chunks s
      ⟨finish (realloc buf (len + est)) out false, chunks, s⟩
  | oob : ((len + est : ℕ) : ℤ) ≤ ssizeMax → est ≠ 0 → (realloc buf (len + est)).length < out + est →
      OneTurn cb want buf len out est chunks s ⟨.oob, chunks, s⟩
  | fails {s' : σ} : ((len + est : ℕ) : ℤ) ≤ ssizeMax → est ≠ 0 → cb.read s est = (none, s') →
      OneTurn cb want buf len out est chunks s ⟨.err, chunks, s'⟩
  | last {c : { c : Chunk // c.stored.length ≤ est }} {s' : σ} (eof : Bool) :
      ((len + est : ℕ) : ℤ) ≤ ssizeMax → est ≠ 0 → cb.read s est = (some c, s') →
      (c.1.eof = true ∨ c.1.data.length = 0 ∨ c.1.again = false ∨ want - c.1.data.length = 0) →
      OneTurn cb want buf len out est chunks s
        ⟨finish (memcpy (realloc buf (len + est)) out c.1.stored) (out + c.1.data.length) eof,
          chunks ++ [c.1.data], s'⟩
  | unknown {c : { c : Chunk // c.stored.length ≤ est }} {s' s'' : σ} :
      ((len + est : ℕ) : ℤ) ≤ ssizeMax → est ≠ 0 → GoesOn cb want est s c s' →
      strmPeeksz cb s' = (none, s'') →
      OneTurn cb want buf len out est chunks s ⟨.err, chunks ++ [c.1.data], s''⟩
  | noMore {c : { c : Chunk // c.stored.length ≤ est }} {s' s'' : σ} :
      ((len + est : ℕ) : ℤ) ≤ ssizeMax → est ≠ 0 → GoesOn cb want est s c s' →
      strmPeeksz cb s' = (some 0, s'') → OneTurn cb want buf len out est chunks s
        ⟨finish (memcpy (realloc buf (len + est)) out c.1.stored) (out + c.1.data.length) false,
          chunks ++ [c.1.data], s''⟩
  | again {c : { c : Chunk // c.stored.length ≤ est }} {s' s'' : σ} {est' : ℕ} :
      ((len + est : ℕ) : ℤ) ≤ ssizeMax → est ≠ 0 → GoesOn cb want est s c s' →
      strmPeeksz cb s' = (some est', s'') → est' ≠ 0 → OneTurn cb want buf len out est chunks s
        (readLoop cb (want - c.1.data.length) (memcpy (realloc buf (len + est)) out c.1.stored)
          (len + est) (out + c.1.data.length) (min est' (want - c.1.data.length)) (chunks ++ [c.1.data]) s'')

/-- The loop, by its first turn. -/
theorem readLoop_turn (cb : Callbacks σ) (want : ℕ) (buf : List (Option UInt8)) (len out est : ℕ)
    (chunks : List Bytes) (s : σ) : ∃ r, readLoop cb want buf len out est chunks s = r ∧
      OneTurn cb want buf len out est chunks s r := by
  refine ⟨_, rfl, ?_⟩
  rw [readLoop]
  dsimp only
  split_ifs with hover hest hoob
  · exact .overflow hover
  · exact .nothing (Int.not_lt.mp hover) hest
  · exact .oob (Int.not_lt.mp hover) hest hoob
  have hmax := Int.not_lt.mp hover
  split
  · rename_i s' hread
    exact .fails hmax hest hread
  rename_i c s' hread
  split_ifs with heof hmore hwant
  · exact .last true hmax hest hread (.inl heof)
  · exact .last false hmax hest hread (hmore.elim (fun h => .inr (.inl h)) fun h => .inr (.inr (.inl h)))
  · exact .last false hmax hest hread (.inr (.inr (.inr hwant)))
  obtain ⟨hsome, hagain⟩ := not_or.mp hmore
  have hon : GoesOn cb want est s c s' :=
    ⟨hread, Bool.eq_false_iff.mpr heof, hsome, Bool.eq_true_of_not_eq_false hagain, hwant⟩
  split
  · rename_i s'' hpeek
    exact .unknown hmax hest hon hpeek
  rename_i est' s'' hpeek
  split_ifs with hest'
  · subst hest'
    exact .noMore hmax hest hon hpeek
  · exact .again hmax hest hon hpeek hest'

/-! ### Capacity, fill level and budget -/

variable {cb : Callbacks σ} {want total len out est : ℕ} {buf : List (Option UInt8)}
  {chunks : List Bytes} {s : σ}

/-- What holds in front of each turn: the buffer starts with what has been delivered, the capacity is
above the fill level, and what is still wanted is the rest of the total. -/
structure Inv (total want : ℕ) (buf : List (Option UInt8)) (len out est : ℕ) (chunks : List Bytes) :
    Prop where
  starts : Starts buf chunks.flatten
  fill : out = chunks.flatten.length
  room : out < len
  budget : out + want = total
  est_le : est ≤ want

/-- The string is what has been delivered, with the terminator behind it, and no longer than what was
wanted. -/
structure Exact (total : ℕ) (buf : List (Option UInt8)) (out : ℕ) (chunks : List Bytes) : Prop where
  starts : Starts buf (chunks.flatten ++ [0])
  length : out = chunks.flatten.length
  le : out ≤ total

theorem inv_first (want est : ℕ) : Inv want want [] 1 0 (min est want) [] where
  starts := starts_nil
  fill := rfl
  room := Nat.one_pos
  budget := Nat.zero_add want
  est_le := Nat.min_le_right _ _

/-- With room for the terminator, the string is exact. -/
theorem finish_exact (eof : Bool) (hstarts : Starts buf chunks.flatten)
    (hfill : out = chunks.flatten.length) (hroom : out < buf.length) (hle : out ≤ total) :
    finish buf out eof = .ok (store buf out 0) out eof ∧ Exact total (store buf out 0) out chunks := by
  refine ⟨if_pos hroom, ?_, hfill, hle⟩
  subst hfill
  exact hstarts.store hroom

/-- The capacity of a turn has room for what the callback may store, and for the terminator. -/
theorem Inv.grown (h : Inv total want buf len out est chunks) :
    Starts (realloc buf (len + est)) chunks.flatten ∧ out + est < (realloc buf (len + est)).length := by
  have hroom := h.room
  have hfill := h.fill
  refine ⟨h.starts.realloc (by omega), ?_⟩
  rw [length_realloc]
  omega

/-- What a callback has stored is at the end of what was there. -/
theorem Inv.delivered (h : Inv total want buf len out est chunks) {c : Chunk}
    (hc : c.stored.length ≤ est) :
    Starts (memcpy (realloc buf (len + est)) out c.stored) (chunks ++ [c.data]).flatten ∧
      out + c.data.length = (chunks ++ [c.data]).flatten.length ∧
      (memcpy (realloc buf (len + est)) out c.stored).length = len + est ∧
      out + c.data.length < len + est ∧ c.data.length ≤ want ∧ c.data.length ≤ est := by
  obtain ⟨hstarts, hroom⟩ := h.grown
  have hfill := h.fill
  have hest := h.est_le
  have hlen : (memcpy (realloc buf (len + est)) out c.stored).length = len + est := by
    rw [length_memcpy, length_realloc]
  have hdata : c.data.length ≤ c.stored.length := by
    unfold Chunk.stored
    rw [List.length_append]
    exact Nat.le_add_right _ _
  have hflat : (chunks ++ [c.data]).flatten = chunks.flatten ++ c.data := by
    rw [List.flatten_append, List.flatten_singleton]
  rw [length_realloc] at hroom
  refine ⟨?_, ?_, hlen, by omega, by omega, by omega⟩
  · have hall : Starts (memcpy (realloc buf (len + est)) out c.stored) (chunks.flatten ++ c.stored) := by
      rw [hfill]
      refine hstarts.memcpy ?_
      rw [length_realloc]
      omega
    rw [hflat]
    unfold Chunk.stored at hall ⊢
    rw [← List.append_assoc] at hall
    exact hall.left
  · rw [hflat, List.length_append, hfill]

/-! ### A whole read -/

/-- No estimate is negative, and the callback `read` has no error. -/
structure NoErrors (cb : Callbacks σ) : Prop where
  peeksz : ∀ peeksz, cb.peeksz = some peeksz → ∀ s, 0 ≤ (peeksz s).1
  read : ∀ s len, (cb.read s len).1 ≠ none

/-- How a read may end: with an overflow of its capacity, with an error if a callback has one, or with
a string that is exact. It does not end with an access outside of the buffer. -/
def Ends (cb : Callbacks σ) (total : ℕ) (r : Reply σ) : Prop :=
  r.result = .overflow ∨ r.result = .err ∧ ¬ NoErrors cb ∨
    ∃ buf out eof, r.result = .ok buf out eof ∧ Exact total buf out r.chunks

/-- An estimate that fails is an error. -/
theorem strmPeeksz_none {s' : σ} (h : strmPeeksz cb s = (none, s')) : ¬ NoErrors cb := by
  intro hno
  unfold strmPeeksz at h
  split at h
  · cases h
  · rename_i peeksz hpeek
    have hpos := hno.peeksz peeksz hpeek s
    rw [if_neg (Int.not_lt.mpr hpos)] at h
    cases h

theorem ends_ok {eof : Bool} {s : σ} (hstarts : Starts buf chunks.flatten)
    (hfill : out = chunks.flatten.length) (hroom : out < buf.length) (hle : out ≤ total) :
    Ends cb total ⟨finish buf out eof, chunks, s⟩ := by
  obtain ⟨hfinish, hexact⟩ := finish_exact eof hstarts hfill hroom hle
  exact .inr (.inr ⟨_, _, _, hfinish, hexact⟩)

/-- By induction on what is still wanted: each turn takes some of it. -/
theorem readLoop_ends : ∀ {want : ℕ} {buf : List (Option UInt8)} {len out est : ℕ}
    {chunks : List Bytes} {s : σ}, Inv total want buf len out est chunks →
    Ends cb total (readLoop cb want buf len out est chunks s) := by
  intro want
  induction want using Nat.strongRecOn with
  | _ want ih =>
    intro buf len out est chunks s hinv
    obtain ⟨hstarts, hroom⟩ := hinv.grown
    have hbudget := hinv.budget
    obtain ⟨r, hr, hturn⟩ := readLoop_turn cb want buf len out est chunks s
    rw [hr]
    have hends {c : Chunk} (hc : c.stored.length ≤ est) (eof : Bool) (s : σ) : Ends cb total
        ⟨finish (memcpy (realloc buf (len + est)) out c.stored) (out + c.data.length) eof,
          chunks ++ [c.data], s⟩ := by
      obtain ⟨hstarts', hfill', hlen', hroom', hdata, -⟩ := hinv.delivered hc
      exact ends_ok hstarts' hfill' (by rw [hlen']; exact hroom') (by omega)
    cases hturn with
    | overflow => exact .inl rfl
    | nothing => exact ends_ok hstarts hinv.fill (by omega) (by omega)
    | oob _ _ hoob => omega
    | @fails s' _ _ hread =>
      refine .inr (.inl ⟨rfl, fun hno => hno.read s est ?_⟩)
      rw [hread]
    | @last c s' eof => exact hends c.2 eof s'
    | unknown _ _ _ hpeek => exact .inr (.inl ⟨rfl, strmPeeksz_none hpeek⟩)
    | @noMore c s' s'' => exact hends c.2 false s''
    | @again c s' s'' est' _ _ hon =>
      obtain ⟨hstarts', hfill', -, hroom', hdata, -⟩ := hinv.delivered c.2
      have hsome := hon.brings
      have hwanted := hon.wanted
      exact ih (want - c.1.data.length) (by omega)
        ⟨hstarts', hfill', hroom', by omega, Nat.min_le_right _ _⟩

theorem strmRead_ends : Ends cb want (strmRead cb false false want s) := by
  unfold strmRead
  rw [if_neg (by exact nofun), if_neg (by exact nofun)]
  split
  · rename_i s' hpeek
    exact .inr (.inl ⟨rfl, strmPeeksz_none hpeek⟩)
  · exact readLoop_ends (inv_first _ _)

/-- The estimates are so small that they never overflow if half the square of what is wanted is: each
is at most what is wanted then, and each turn takes some of it. -/
theorem readLoop_no_overflow : ∀ {want : ℕ} {buf : List (Option UInt8)} {len out est : ℕ}
    {chunks : List Bytes} {s : σ}, est ≤ want →
    ((2 * len + want * (want + 1) : ℕ) : ℤ) ≤ 2 * ssizeMax →
    (readLoop cb want buf len out est chunks s).result ≠ .overflow := by
  intro want
  induction want using Nat.strongRecOn with
  | _ want ih =>
    intro buf len out est chunks s hle hmax
    have hfinish {buf : List (Option UInt8)} {out : ℕ} {eof : Bool} : finish buf out eof ≠ .overflow := by
      unfold finish
      split_ifs <;> exact nofun
    have hwant : want * 2 ≤ want * (want + 1) := by
      rcases Nat.eq_zero_or_pos want with rfl | hpos
      · exact Nat.le_refl _
      · exact Nat.mul_le_mul_left want (Nat.succ_le_succ hpos)
    obtain ⟨r, hr, hturn⟩ := readLoop_turn cb want buf len out est chunks s
    rw [hr]
    cases hturn with
    | overflow hover => omega
    | nothing => exact hfinish
    | oob => exact nofun
    | fails => exact nofun
    | last => exact hfinish
    | unknown => exact nofun
    | noMore => exact hfinish
    | @again c s' s'' est' _ _ hon =>
      have hsome := hon.brings
      have hwanted := hon.wanted
      refine ih (want - c.1.data.length) (by omega) (Nat.min_le_right _ _) ?_
      -- what is wanted is less by one at least, and the capacity larger by at most what was wanted
      obtain ⟨w, rfl⟩ : ∃ w, want = w + 1 := ⟨want - 1, by omega⟩
      have hw : w + 1 - c.1.data.length ≤ w := by omega
      have hmul : (w + 1 - c.1.data.length) * (w + 1 - c.1.data.length + 1) ≤ w * (w + 1) :=
        Nat.mul_le_mul hw (Nat.succ_le_succ hw)
      have hsquare : (w + 1) * (w + 1 + 1) = w * (w + 1) + 2 * (w + 1) := by ring
      omega

/-- What every callback keeps of the outside, the loop keeps. By induction on what is still wanted. -/
theorem readLoop_env {P : σ → Prop} (hpeek : ∀ s, P s → P (strmPeeksz cb s).2)
    (hread : ∀ s len, P s → P (cb.read s len).2) : ∀ {want : ℕ} {buf : List (Option UInt8)}
    {len out est : ℕ} {chunks : List Bytes} {s : σ}, P s →
    P (readLoop cb want buf len out est chunks s).env := by
  intro want
  induction want using Nat.strongRecOn with
  | _ want ih =>
    intro buf len out est chunks s hs
    have hs' := hread s est hs
    obtain ⟨r, hr, hturn⟩ := readLoop_turn cb want buf len out est chunks s
    rw [hr]
    have hkept {c : { c : Chunk // c.stored.length ≤ est }} {s' : σ}
        (hread' : cb.read s est = (some c, s')) : P s' := by
      rw [hread'] at hs'
      exact hs'
    cases hturn with
    | overflow => exact hs
    | nothing => exact hs
    | oob => exact hs
    | fails _ _ hnone =>
      rw [hnone] at hs'
      exact hs'
    | last _ _ _ hread' => exact hkept hread'
    | @unknown c s' s'' _ _ hon hnone =>
      have hs'' := hpeek s' (hkept hon.read)
      rw [hnone] at hs''
      exact hs''
    | @noMore c s' s'' _ _ hon hnone =>
      have hs'' := hpeek s' (hkept hon.read)
      rw [hnone] at hs''
      exact hs''
    | @again c s' s'' est' _ _ hon hsome =>
      have hs'' := hpeek s' (hkept hon.read)
      rw [hsome] at hs''
      have hpos := hon.brings
      have hwanted := hon.wanted
      exact ih (want - c.1.data.length) (by omega) hs''

/-- **The read loop is exact and in bounds.** If the capacity does not overflow, a read of a stream
whose callbacks have no errors ends with the string of all that they have delivered, with its
terminator inside of the buffer, and no longer than wanted; or the stream was at its end. -/
theorem strm_read_exact (cb : Callbacks σ) (eof closed : Bool) (want : ℕ) (s : σ)
    (hcb : NoErrors cb) (hopen : closed = true → eof = true)
    (hno : (strmRead cb eof closed want s).result ≠ .overflow) :
    (eof = true ∧ (strmRead cb eof closed want s).result = .null ∧
        (strmRead cb eof closed want s).chunks = []) ∨
      ∃ buf out eof', (strmRead cb eof closed want s).result = .ok buf out eof' ∧
        Exact want buf out (strmRead cb eof closed want s).chunks := by
  cases eof with
  | true => exact .inl ⟨rfl, rfl, rfl⟩
  | false =>
    obtain rfl : closed = false := Bool.eq_false_iff.mpr fun h => nomatch hopen h
    have hends : Ends cb want (strmRead cb false false want s) := strmRead_ends
    obtain hover | herr | hok := hends
    · exact absurd hover hno
    · exact absurd hcb herr.2
    · exact .inr hok

/-- If half the square of what is wanted does not overflow, the capacity does not. -/
theorem strmRead_no_overflow {eof closed : Bool}
    (hmax : ((2 + want * (want + 1) : ℕ) : ℤ) ≤ 2 * ssizeMax) :
    (strmRead cb eof closed want s).result ≠ .overflow := by
  unfold strmRead
  split_ifs
  · exact nofun
  · exact nofun
  · split
    · exact nofun
    · exact readLoop_no_overflow (Nat.min_le_right _ _) hmax

/-- A stream with the bytes `s`, of which `n` are delivered at a time. It is at its end when it has none
left. -/
def inPieces (n : ℕ) : Callbacks Bytes where
  peeksz := none
  read s len := (some ⟨⟨s.take (min n len), [], decide (s.length ≤ min n len), true⟩,
    by simp [Chunk.stored]⟩, s.drop (min n len))

/-- Five bytes of six, in three turns. -/
theorem read_five :
    (false = true ∧ (strmRead (inPieces 2) false false 5 [1, 2, 3, 4, 5, 6]).result = .null ∧
      (strmRead (inPieces 2) false false 5 [1, 2, 3, 4, 5, 6]).chunks = []) ∨
    ∃ buf out eof', (strmRead (inPieces 2) false false 5 [1, 2, 3, 4, 5, 6]).result = .ok buf out eof' ∧
      Exact 5 buf out (strmRead (inPieces 2) false false 5 [1, 2, 3, 4, 5, 6]).chunks :=
  strm_read_exact (inPieces 2) false false 5 [1, 2, 3, 4, 5, 6] ⟨nofun, fun _ _ => nofun⟩ nofun
    (strmRead_no_overflow (by decide))

end Reading

end B6b
