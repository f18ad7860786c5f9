/-
# Lists as text

The two conversions between a list and its text: the parser `b6b_do_as_list`
of `b6b_list.c` (`doAsList`) and the list branch of `b6b_as_str` of
`b6b_str.c` (`listStr`). The parser walks the text by index, as the source
does; every access to the text goes through `read`, so an access outside it
would show as `ParseError.oob`.

Key definitions: `doAsList`, `bracScan`, `brakScan`, `joinItem`, `listStr`.
-/
import Mathlib.Data.List.Basic
import Mathlib.Algebra.GroupWithZero.Nat
import Mathlib.Algebra.Ring.Int.Defs

namespace B6b

/-- A byte string, as `o->s` with its length `o->slen`. -/
abbrev Bytes := List UInt8

abbrev lbrac : UInt8 := 0x7b
abbrev rbrac : UInt8 := 0x7d
abbrev lbrak : UInt8 := 0x5b
abbrev rbrak : UInt8 := 0x5d
abbrev blank : UInt8 := 0x20

/-- `SSIZE_MAX` -/
abbrev ssizeMax : ℤ := 2 ^ 63 - 1

/-- `b6b_isspace` -/
def isspace (c : UInt8) : Bool := c == 0x20 || c == 0x09 || c == 0x0a || c == 0x0d

/-- `b6b_spaced` -/
def spaced (s : Bytes) : Bool := s.any isspace

/-! ### The parser -/

/-- Why the parser stops: a `{` or `[` token that runs past the end of the text
(`return 0`), or an access to `s[j]` outside the text. -/
inductive ParseError
  | uneven
  | oob (j : ℕ)
  deriving DecidableEq, Repr

/-- `s[j]` -/
def read (s : Bytes) (j : ℕ) : Except ParseError UInt8 :=
  match s[j]? with
  | some c => .ok c
  | none => .error (.oob j)

theorem lt_of_read {s : Bytes} {j : ℕ} {c : UInt8} (h : read s j = .ok c) : j < s.length := by
  by_contra hc
  simp [read, List.getElem?_eq_none (Nat.le_of_not_lt hc)] at h

/-- `last = len - 1`, in `size_t` -/
def last (s : Bytes) : ℕ := if s.length = 0 then 2 ^ 64 - 1 else s.length - 1

/-- The scan of a `{` token: the index of the `}` that closes it. -/
def bracScan (s : Bytes) (j nbrac : ℕ) : Except ParseError ℕ :=
  if j ≤ last s then
    match _h : read s j with
    | .error e => .error e
    | .ok c =>
      if c = lbrac then bracScan s (j + 1) (nbrac + 1)
      else if c = rbrac then
        if nbrac - 1 = 0 then .ok j else bracScan s (j + 1) (nbrac - 1)
      else bracScan s (j + 1) nbrac
  else .error .uneven
termination_by s.length - j
decreasing_by all_goals exact Nat.sub_succ_lt_self _ _ (lt_of_read _h)

/-- The scan of a `[` token: the index of its last `]`. The source counts in
`size_t`; a text has fewer than `2^64` bytes, so its counters are zero exactly
when these are. -/
def brakScan (s : Bytes) (j : ℕ) (nbrak nbrac : ℤ) : Except ParseError ℕ :=
  if j ≤ last s then
    match _h : read s j with
    | .error e => .error e
    | .ok c =>
      if c = lbrac then brakScan s (j + 1) nbrak (nbrac + 1)
      else if c = rbrac then brakScan s (j + 1) nbrak (nbrac - 1)
      else if c = lbrak then brakScan s (j + 1) (nbrak + 1) nbrac
      else if c = rbrak then
        -- `--nbrak` happens before the test, also inside braces
        if nbrak - 1 = 0 ∧ nbrac = 0 then .ok j else brakScan s (j + 1) (nbrak - 1) nbrac
      else brakScan s (j + 1) nbrak nbrac
  else .error .uneven
termination_by s.length - j
decreasing_by all_goals exact Nat.sub_succ_lt_self _ _ (lt_of_read _h)

/-- The end of any other token: the nearest whitespace, or the end of the text. -/
def wordEnd (s : Bytes) (j : ℕ) : Except ParseError ℕ :=
  if j ≠ s.length then
    match _h : read s j with
    | .error e => .error e
    | .ok c => if isspace c then .ok j else wordEnd s (j + 1)
  else .ok j
termination_by s.length - j
decreasing_by exact Nat.sub_succ_lt_self _ _ (lt_of_read _h)

theorem le_brakScan (s : Bytes) (j : ℕ) (nbrak nbrac : ℤ) {k : ℕ}
    (h : brakScan s j nbrak nbrac = .ok k) : j ≤ k := by
  fun_induction brakScan s j nbrak nbrac
  case case2 ih | case3 ih | case4 ih | case6 ih | case7 ih => exact Nat.le_of_succ_le (ih h)
  case case5 => exact Nat.le_of_eq (Except.ok.inj h)
  case case1 | case8 => simp at h

/-- The bytes from `s[i]` up to `s[j]`. -/
def slice (s : Bytes) (i j : ℕ) : Bytes := (s.drop i).take (j - i)

/-- `b6b_str_copy(&s[i], j - i)`: it reads all bytes in between. -/
def strCopy (s : Bytes) (i j : ℕ) : Except ParseError Bytes :=
  if i ≤ j ∧ j ≤ s.length then .ok (slice s i j) else .error (.oob j)

/-- The loop of `b6b_do_as_list` from index `i`: the items it adds from there on. -/
def doAsListAt (s : Bytes) (i : ℕ) : Except ParseError (List Bytes) :=
  if i < s.length then
    match read s i with
    | .error e => .error e
    | .ok c =>
      if c = lbrac then
        match bracScan s (i + 1) 1 with
        | .error e => .error e
        | .ok j =>
          match strCopy s (i + 1) j with
          | .error e => .error e
          | .ok x => (doAsListAt s (i + (j - (i + 1)) + 2)).map (x :: ·)
      else if c = lbrak then
        match _h : brakScan s (i + 1) 1 0 with
        | .error e => .error e
        | .ok j =>
          match strCopy s i (j + 1) with
          | .error e => .error e
          | .ok x => (doAsListAt s (i + (j + 1 - i) + 0)).map (x :: ·)
      else if isspace c then doAsListAt s (i + 1)
      else
        match wordEnd s (i + 1) with
        | .error e => .error e
        | .ok j =>
          match strCopy s i j with
          | .error e => .error e
          | .ok x => (doAsListAt s (i + (j - i) + 1)).map (x :: ·)
  else .ok []
termination_by s.length - i
decreasing_by
  · omega
  · have := le_brakScan s (i + 1) 1 0 _h
    omega
  · omega
  · omega

/-- `b6b_do_as_list` -/
def doAsList (s : Bytes) : Except ParseError (List Bytes) := doAsListAt s 0

/-! ### The list branch of `b6b_as_str` -/

/-- One turn of the loop over the items: the text so far (`none` while `o->s` is
`NULL`) and the string of the next item. -/
def joinItem (s : Option Bytes) (x : Bytes) : Bytes :=
  if x.length ≠ 0 then
    if spaced x then
      match s with
      | some s => s ++ [blank, lbrac] ++ x ++ [rbrac]
      | none => [lbrac] ++ x ++ [rbrac]
    else
      match s with
      | some s => s ++ [blank] ++ x
      | none => x
  else
    match s with
    | some s => s ++ [blank, lbrac, rbrac]
    | none => [lbrac, rbrac]

/-- The text of a list whose items have the strings `l`; `{}` if there are none. -/
def listStr (l : List Bytes) : Bytes :=
  match l.foldl (fun s x => some (joinItem s x)) none with
  | some s => s
  | none => [lbrac, rbrac]

end B6b
