/-
# Integers of a fixed width

An integer of `n` bytes in two's complement, in either byte order: `ofInt` writes its
bytes, `unsigned` and `signed` read them. Each reads back the integers that fit its type
(`unsigned_ofInt`, `signed_ofInt`).
-/
import Mathlib.Tactic.Positivity

namespace Word

/-- The `n` lowest bytes of a number, the lowest one first. -/
def digits : ℕ → ℕ → List UInt8
  | 0, _ => []
  | n + 1, v => UInt8.ofNat v :: digits n (v / 256)

/-- The number with these bytes. -/
def value : List UInt8 → ℕ
  | [] => 0
  | b :: bs => b.toNat + 256 * value bs

@[simp] theorem length_digits : ∀ n v : ℕ, (digits n v).length = n
  | 0, _ => rfl
  | n + 1, v => by rw [digits, List.length_cons, length_digits n]

theorem value_digits : ∀ n v : ℕ, value (digits n v) = v % 256 ^ n
  | 0, v => (Nat.mod_one v).symm
  | n + 1, v => by
    have hpow : 256 ^ (n + 1) = 256 * 256 ^ n := pow_succ' 256 n
    have hmod : v % (256 * 256 ^ n) = v % 256 + 256 * (v / 256 % 256 ^ n) := Nat.mod_mul
    have hbyte : (UInt8.ofNat v).toNat = v % 256 := UInt8.toNat_ofNat'
    rw [digits, value, value_digits n, hbyte, hpow, hmod]

/-- The bytes of an integer, in two's complement. -/
def ofInt (little : Bool) (n : ℕ) (i : ℤ) : List UInt8 :=
  if little then digits n (i % 256 ^ n).toNat else (digits n (i % 256 ^ n).toNat).reverse

/-- The integer without a sign that has these bytes. -/
def unsigned (little : Bool) (b : List UInt8) : ℤ := value (if little then b else b.reverse)

/-- The integer with a sign that has these bytes. -/
def signed (little : Bool) (b : List UInt8) : ℤ := (unsigned little b).bmod (256 ^ b.length)

variable {little : Bool} {n : ℕ} {i : ℤ}

@[simp] theorem length_ofInt : (ofInt little n i).length = n := by
  cases little <;> simp [ofInt]

theorem unsigned_ofInt_eq : unsigned little (ofInt little n i) = i % 256 ^ n := by
  have hvalue : unsigned little (ofInt little n i) = (value (digits n (i % 256 ^ n).toNat) : ℤ) := by
    cases little <;> simp [unsigned, ofInt]
  have hpos : (0 : ℤ) < 256 ^ n := by positivity
  rw [hvalue, value_digits, Int.natCast_mod, Int.toNat_of_nonneg (Int.emod_nonneg i hpos.ne')]
  push_cast
  exact Int.emod_emod_of_dvd i (dvd_refl _)

/-- An integer without a sign is read back. -/
theorem unsigned_ofInt (h : 0 ≤ i) (hlt : i < 256 ^ n) : unsigned little (ofInt little n i) = i := by
  rw [unsigned_ofInt_eq, Int.emod_eq_of_lt h hlt]

/-- An integer with a sign is read back. -/
theorem signed_ofInt (h : -256 ^ n ≤ i * 2) (hlt : i * 2 < 256 ^ n) :
    signed little (ofInt little n i) = i := by
  have hmod : i % 256 ^ n = i % ((256 ^ n : ℕ) : ℤ) := by push_cast; rfl
  unfold signed
  rw [length_ofInt, unsigned_ofInt_eq, hmod, Int.emod_bmod]
  exact Int.bmod_eq_of_le_mul_two (by push_cast; exact h) (by push_cast; exact hlt)

end Word
