/-
# Integers that are read from their numerals

`b6b_as_int` reads a text through `b6b_as_float`, so an integer is rounded to a floating point
number on its way. Of the 64 bits of an integer, 53 are left (`as_int_numeral`): the result is the
integer itself exactly if these are enough, and near the upper end it is too large to be cast back.

Key definitions: `Binary64`, `Unread`.
-/
import B6b.Graph
import B6b.Container
import B6b.Lib.Rounding
import Mathlib.Data.List.TakeWhile

namespace B6b

namespace Numerals

open Rounding

/-- `INT64_MIN` -/
def intMin : ℤ := -2 ^ 63

/-- What the C library does with the numeral of `i`, by binary64. `strtod` reads all of it, and rounds it
to 53 digits, to the nearest and to even; `whole` are the floats that are whole numbers. `floor` leaves
these as they are, and the cast raises `FE_INVALID` exactly if they do not fit. -/
structure Binary64 {F : Type} (N : Num F) (whole : ℤ → F) (i : ℤ) : Prop where
  strtod : ∃ y, NearestEven 53 i y ∧ N.strtod (fmtInt i) = (whole y, (fmtInt i).length)
  floor : ∀ y, Short 53 y → N.floor (whole y) = if intMin ≤ y ∧ y ≤ intMax then some y else none

/-- The object has the numeral of `i` as its string. It has no integer yet, and if it has a float, it is
the one read from this string. -/
structure Unread {F : Type} (N : Num F) (h : Heap F) (a : Addr) (i : ℤ) : Prop where
  lt : a < h.next
  str : (h.obj a).s = some (fmtInt i)
  int : (h.obj a).i = none
  float : ∀ f, (h.obj a).f = some f → f = (N.strtod (fmtInt i)).1

variable {F : Type} {N : Num F} {whole : ℤ → F} {h : Heap F} {a : Addr} {i y : ℤ}

/-! ### Numerals -/

theorem byte_ne_zero {c : Char} (hc : c.isDigit = true ∨ c = '-') : UInt8.ofNat c.toNat ≠ 0 := by
  intro h
  have hmod : c.toNat % 256 = 0 := by
    have hnat := congrArg UInt8.toNat h
    rwa [UInt8.toNat_ofNat'] at hnat
  rcases hc with hdigit | rfl
  · have hval : 48 ≤ c.toNat ∧ c.toNat ≤ 57 := by
      unfold Char.isDigit at hdigit
      simp only [Bool.and_eq_true, decide_eq_true_eq] at hdigit
      exact hdigit
    omega
  · exact absurd hmod (by decide)

theorem mem_toDigits {c : Char} {n : ℕ} (hc : c ∈ Nat.toDigits 10 n) : c.isDigit = true :=
  Nat.isDigit_of_mem_toDigits (by decide) (by decide) hc

/-- The characters of a numeral. -/
theorem repr_chars (i : ℤ) :
    i.repr.toList ≠ [] ∧ ∀ c ∈ i.repr.toList, c.isDigit = true ∨ c = '-' := by
  rw [Int.repr_eq_if]
  split_ifs
  · rw [Nat.toList_repr]
    exact ⟨Nat.toDigits_ne_nil, fun c hc => .inl (mem_toDigits hc)⟩
  · rw [String.toList_append, Nat.toList_repr]
    refine ⟨List.append_ne_nil_of_right_ne_nil _ Nat.toDigits_ne_nil, fun c hc => ?_⟩
    rcases List.mem_append.mp hc with hminus | hdigit
    · exact .inr (List.mem_singleton.mp hminus)
    · exact .inl (mem_toDigits hdigit)

/-- A numeral has bytes, and no zero byte. -/
theorem fmtInt_text (i : ℤ) : fmtInt i ≠ [] ∧ cstr (fmtInt i) = fmtInt i := by
  obtain ⟨hne, hchars⟩ := repr_chars i
  have hmap : fmtInt i = i.repr.toList.map fun c => UInt8.ofNat c.toNat := rfl
  rw [hmap]
  refine ⟨fun h => hne (List.map_eq_nil_iff.mp h), ?_⟩
  refine List.takeWhile_eq_self_iff.mpr fun b hb => ?_
  obtain ⟨c, hc, rfl⟩ := List.mem_map.mp hb
  exact decide_eq_true (byte_ne_zero (hchars c hc))

/-! ### Near the ends -/

theorem short_two_pow (k : ℕ) : Short 53 (2 ^ k) := ⟨1, k, (Int.one_mul _).symm, by decide⟩

/-- An integer of 64 bits is rounded to one, or to `2 ^ 63`: this, exactly if it is as near as the
largest one of 53 digits below. -/
theorem rounded_iff (h : NearestEven 53 i y) (hlo : intMin ≤ i) (hhi : i ≤ intMax) :
    intMin ≤ y ∧ (y ≤ intMax ↔ i < 2 ^ 63 - 512) := by
  unfold intMin at *
  unfold intMax at *
  have hlow : Short 53 (-2 ^ 63) := ⟨-1, 63, by decide, by decide⟩
  have hbelow : Short 53 (2 ^ 63 - 1024) := ⟨2 ^ 53 - 1, 10, by decide, by decide⟩
  have h1 := h.nearest _ hlow
  have h2 := h.nearest _ (short_two_pow 63)
  have h3 := h.nearest _ hbelow
  refine ⟨by omega, fun hy => ?_, fun hi => by omega⟩
  by_contra hbig
  -- there is no number of 53 digits in between
  have hdvd : (2 ^ 10 : ℤ) ∣ y := h.short.dvd (by decide) (by omega)
  obtain ⟨t, ht⟩ := hdvd
  have hy' : y = 2 ^ 63 - 1024 := by omega
  have htie : (i - 2 ^ 63).natAbs = (i - y).natAbs := by omega
  have heven : Short 52 y := h.even _ (short_two_pow 63) htie (by omega)
  have hdvd' : (2 ^ 11 : ℤ) ∣ y := heven.dvd (by decide) (by omega)
  obtain ⟨t', ht'⟩ := hdvd'
  omega

/-- Up to `2 ^ 53` nothing is lost. -/
theorem short_of_le (hi : i.natAbs ≤ 2 ^ 53) : Short 53 i := by
  have hshort := short_mul (p := 53) (by decide) hi 0
  rwa [pow_zero, Int.mul_one] at hshort

/-! ### The conversion -/

/-- `b6b_as_float` reads the numeral. -/
theorem asFloat_unread (hu : Unread N h a i) (hread : N.strtod (fmtInt i) = (whole y, (fmtInt i).length)) :
    ∃ h', asFloat N a h = .ok (whole y) h' ∧ a < h'.next := by
  obtain ⟨hne, hcstr⟩ := fmtInt_text i
  unfold asFloat
  rw [Op.bind_ok (load_ok hu.lt)]
  cases hf : (h.obj a).f with
  | some f =>
    obtain rfl : f = whole y := by rw [hu.float f hf, hread]
    exact ⟨h, rfl, hu.lt⟩
  | none =>
    have hstr : strFloat N (fmtInt i) = some (whole y) := by
      have hempty : (fmtInt i).isEmpty = false := List.isEmpty_eq_false_iff.mpr hne
      unfold strFloat
      rw [hempty, hcstr, hread]
      simp
    have hsome : (h.obj a).s.isSome = true ∨ (h.obj a).l.isSome = true := .inl (by rw [hu.str]; rfl)
    refine ⟨h.set a ((h.obj a).withFloat (whole y)), ?_, hu.lt⟩
    dsimp only
    rw [if_pos hsome, Op.bind_ok (asStr_of_text hu.lt hu.str), hstr]
    rfl

/-- `b6b_as_int` casts what it has read, if it can. -/
theorem asInt_unread (hu : Unread N h a i)
    (hread : N.strtod (fmtInt i) = (whole y, (fmtInt i).length)) :
    match N.floor (whole y) with
    | some j => ∃ h', asInt N a h = .ok j h'
    | none => ∃ h', asInt N a h = .fail h' := by
  obtain ⟨h', hfloat, -⟩ := asFloat_unread hu hread
  unfold asInt
  rw [Op.bind_ok (load_ok hu.lt), hu.int]
  dsimp only
  rw [Op.bind_ok hfloat]
  split
  · rename_i j hj
    rw [hj]
    exact ⟨_, rfl⟩
  · rename_i hj
    rw [hj]
    exact ⟨_, rfl⟩

/-- **An integer that is read from its numeral is rounded to 53 digits:** it is kept exactly if it has
no more, and the conversion fails exactly if it is rounded up to `2 ^ 63`. -/
theorem as_int_numeral (N : Num F) (whole : ℤ → F) (h : Heap F) (a : Addr) (i : ℤ)
    (hN : Binary64 N whole i) (hlo : intMin ≤ i) (hhi : i ≤ intMax) (hu : Unread N h a i) :
    ∃ y, NearestEven 53 i y ∧ (y = i ↔ Short 53 i) ∧ (i.natAbs ≤ 2 ^ 53 → y = i) ∧
      if i < 2 ^ 63 - 512 then ∃ h', asInt N a h = .ok y h' else ∃ h', asInt N a h = .fail h' := by
  obtain ⟨y, hy, hread⟩ := hN.strtod
  obtain ⟨hmin, hmax⟩ := rounded_iff hy hlo hhi
  have hrun := asInt_unread hu hread
  rw [hN.floor y hy.short] at hrun
  refine ⟨y, hy, hy.eq_iff, fun hle => hy.eq_iff.mpr (short_of_le hle), ?_⟩
  split_ifs with hi
  · rwa [if_pos ⟨hmin, hmax.mpr hi⟩] at hrun
  · rwa [if_neg fun hin => hi (hmax.mp hin.2)] at hrun

/-! ### An integer of 54 digits -/

/-- The numbers of the C library as far as they are whole, rounded to 53 digits. -/
def wholeBinary64 : Num ℤ :=
  { wholeNum with
    strtod := fun s => (roundEven 53 (wholeNum.strtod s).1, (wholeNum.strtod s).2)
    ofInt := roundEven 53
    floor := fun y => if intMin ≤ y ∧ y ≤ intMax then some y else none }

theorem wholeBinary64_reads : Binary64 wholeBinary64 id (2 ^ 53 + 1) where
  strtod := ⟨roundEven 53 (2 ^ 53 + 1), nearestEven_roundEven (by decide) _, by decide +kernel⟩
  floor := fun _ _ => rfl

/-- An object with the numeral of an integer. -/
def numeral (i : ℤ) : Heap ℤ := Heap.empty.push (.ofStr (fmtInt i))

theorem numeral_unread (i : ℤ) : Unread wholeBinary64 (numeral i) 0 i :=
  ⟨Nat.one_pos, rfl, rfl, nofun⟩

/-- `9007199254740993` -/
theorem as_int_54 : ∃ y, NearestEven 53 (2 ^ 53 + 1) y ∧ (y = 2 ^ 53 + 1 ↔ Short 53 (2 ^ 53 + 1)) ∧
    ((2 ^ 53 + 1 : ℤ).natAbs ≤ 2 ^ 53 → y = 2 ^ 53 + 1) ∧
    if (2 ^ 53 + 1 : ℤ) < 2 ^ 63 - 512 then
      ∃ h', asInt wholeBinary64 0 (numeral (2 ^ 53 + 1)) = .ok y h'
    else ∃ h', asInt wholeBinary64 0 (numeral (2 ^ 53 + 1)) = .fail h' :=
  as_int_numeral wholeBinary64 id (numeral (2 ^ 53 + 1)) 0 (2 ^ 53 + 1) wholeBinary64_reads
    (by decide) (by decide) (numeral_unread _)

/-- `9007199254740993` is read as `9007199254740992`. -/
theorem as_int_differs : ¬ ∀ (N : Num ℤ) (whole : ℤ → ℤ) (h : Heap ℤ) (a : Addr) (i : ℤ),
    Binary64 N whole i → intMin ≤ i → i ≤ intMax → Unread N h a i →
      (∃ h', asInt N a h = .ok i h') ∨ ∃ h', asInt N a h = .fail h' := by
  intro hall
  have hread : wholeBinary64.strtod (fmtInt (2 ^ 53 + 1)) =
      (id (2 ^ 53), (fmtInt (2 ^ 53 + 1)).length) := by
    decide +kernel
  obtain ⟨h', hrun⟩ : ∃ h', asInt wholeBinary64 0 (numeral (2 ^ 53 + 1)) = .ok (2 ^ 53) h' :=
    asInt_unread (numeral_unread _) hread
  rcases hall _ _ _ _ _ wholeBinary64_reads (by decide) (by decide) (numeral_unread _) with
    ⟨h'', hsame⟩ | ⟨h'', hfail⟩
  · rw [hrun] at hsame
    injection hsame with hval
    exact absurd hval (by decide)
  · rw [hrun] at hfail
    cases hfail

end Numerals

end B6b
