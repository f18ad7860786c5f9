/-
# Rounding integers to a number of binary digits

`Short p x`: the integer `x` has no more than `p` binary digits between its first and its last one,
so that a floating point number with `p` digits can hold it. `NearestEven p x y`: of these numbers, `y`
is nearest to `x`, and of two that are nearest, the one with the even last digit, which can do with
one digit less.

`roundEven` computes it (`nearestEven_roundEven`): it rounds to a multiple of the place of the last
digit that is kept.
-/
import Mathlib.Algebra.Order.Ring.Int
import Mathlib.Tactic.Ring
import Mathlib.Tactic.Linarith

namespace Rounding

/-- No more than `p` digits. -/
def Short (p : ℕ) (x : ℤ) : Prop := ∃ (m : ℤ) (e : ℕ), x = m * 2 ^ e ∧ m.natAbs < 2 ^ p

/-- `y` is `x`, rounded to `p` digits: to the nearest, and to an even one of two. -/
structure NearestEven (p : ℕ) (x y : ℤ) : Prop where
  short : Short p y
  nearest : ∀ z, Short p z → (x - y).natAbs ≤ (x - z).natAbs
  even : ∀ z, Short p z → (x - z).natAbs = (x - y).natAbs → z ≠ y → Short (p - 1) y

/-- The multiple of `u` that is nearest to `x`; of two, the even one. -/
def toMultiple (u x : ℤ) : ℤ :=
  let q := x / u
  let r := x % u
  if 2 * r < u then q * u
  else if u < 2 * r then (q + 1) * u
  else if q % 2 = 0 then q * u
  else (q + 1) * u

/-- Round `x` to `p` digits. -/
def roundEven (p : ℕ) (x : ℤ) : ℤ := toMultiple (2 ^ (x.natAbs.log2 + 1 - p)) x

variable {p k : ℕ} {x y z u : ℤ}

/-! ### Short integers -/

/-- A multiple of a power of two by a number of `p` digits, or by the next larger one. -/
theorem short_mul (hp : 1 ≤ p) {n : ℤ} (hn : n.natAbs ≤ 2 ^ p) (k : ℕ) : Short p (n * 2 ^ k) := by
  rcases Nat.lt_or_eq_of_le hn with hlt | heq
  · exact ⟨n, k, rfl, hlt⟩
  · have hone : 1 < 2 ^ p := Nat.one_lt_two_pow (by omega)
    have hcast : ((2 ^ p : ℕ) : ℤ) = 2 ^ p := by push_cast; rfl
    rcases Int.natAbs_eq n with hpos | hneg
    · refine ⟨1, p + k, ?_, hone⟩
      rw [hpos, heq, hcast, pow_add, one_mul]
    · refine ⟨-1, p + k, ?_, hone⟩
      rw [hneg, heq, hcast, pow_add]
      ring

/-- A short number that is large is a multiple of a large power of two. -/
theorem Short.dvd (h : Short p z) (hp : 1 ≤ p) (hle : 2 ^ (p + k - 1) ≤ z.natAbs) : (2 ^ k : ℤ) ∣ z := by
  obtain ⟨m, e, rfl, hm⟩ := h
  have hpow : ((2 : ℤ) ^ e).natAbs = 2 ^ e := by rw [Int.natAbs_pow]; rfl
  have hke : k ≤ e := by
    by_contra hlt
    have hexp : p + e ≤ p + k - 1 := by omega
    have hmul : m.natAbs * 2 ^ e < 2 ^ p * 2 ^ e := Nat.mul_lt_mul_of_pos_right hm (Nat.two_pow_pos e)
    have hall : 2 ^ (p + e) ≤ 2 ^ (p + k - 1) := Nat.pow_le_pow_right (by omega) hexp
    rw [Int.natAbs_mul, hpow] at hle
    rw [pow_add] at hall
    omega
  exact Dvd.dvd.mul_left (pow_dvd_pow 2 hke) m

/-- A number rounds to itself exactly if it is short. -/
theorem NearestEven.eq_iff (h : NearestEven p x y) : y = x ↔ Short p x := by
  constructor
  · rintro rfl
    exact h.short
  · intro hx
    have hle := h.nearest x hx
    omega

/-! ### The nearest multiple -/

/-- The two multiples next to `x`, and which of them is taken. -/
theorem toMultiple_cases (hu : 0 < u) (x : ℤ) : ∃ n r : ℤ, toMultiple u x = n * u ∧ x = n * u + r ∧
    -u ≤ 2 * r ∧ 2 * r ≤ u ∧ ((2 * r = u ∨ 2 * r = -u) → n % 2 = 0) := by
  have hdiv : x = x / u * u + x % u := by
    rw [Int.mul_comm]
    exact (Int.mul_ediv_add_emod x u).symm
  have hr0 := Int.emod_nonneg x (Int.ne_of_gt hu)
  have hr1 := Int.emod_lt_of_pos x hu
  have hnext : x = (x / u + 1) * u + (x % u - u) := by
    rw [Int.add_mul]
    omega
  unfold toMultiple
  dsimp only
  split_ifs with h1 h2 h3
  · exact ⟨x / u, x % u, rfl, hdiv, by omega, by omega, by omega⟩
  · exact ⟨x / u + 1, x % u - u, rfl, hnext, by omega, by omega, by omega⟩
  · exact ⟨x / u, x % u, rfl, hdiv, by omega, by omega, fun _ => h3⟩
  · exact ⟨x / u + 1, x % u - u, rfl, hnext, by omega, by omega, by omega⟩

/-- No multiple is nearer than one in half the distance between two, and another one that is as near
is at half of it. -/
theorem nearest_multiple {n r : ℤ} (hx : x = n * u + r) (h1 : -u ≤ 2 * r) (h2 : 2 * r ≤ u) (m : ℤ) :
    (x - n * u).natAbs ≤ (x - m * u).natAbs ∧
      ((x - m * u).natAbs = (x - n * u).natAbs → m * u = n * u ∨ 2 * r = u ∨ 2 * r = -u) := by
  have hn : x - n * u = r := by omega
  have hm : x - m * u = (n - m) * u + r := by rw [Int.sub_mul]; omega
  rw [hn, hm]
  rcases Int.lt_trichotomy (n - m) 0 with hlt | heq | hgt
  · have hle : (n - m) * u ≤ -1 * u := by nlinarith
    omega
  · have hmn : m = n := by omega
    rw [heq, Int.zero_mul, hmn]
    omega
  · have hle : 1 * u ≤ (n - m) * u := by nlinarith
    omega

/-! ### Rounding -/

/-- A short number is a multiple of the last place of `x`, or `x` is farther from it than from a
multiple. -/
theorem multiple_or_farther (hp : 1 ≤ p) (hx : 2 ^ (p + k - 1) ≤ x.natAbs) (hz : Short p z) :
    (∃ m, z = m * 2 ^ k) ∨ ∃ m : ℤ, (x - m * 2 ^ k).natAbs < (x - z).natAbs := by
  rcases Nat.lt_or_ge z.natAbs (2 ^ (p + k - 1)) with hlt | hge
  · have hexp : p + k - 1 = p - 1 + k := by omega
    have hpow : ((2 ^ (p + k - 1) : ℕ) : ℤ) = 2 ^ (p - 1) * 2 ^ k := by
      rw [hexp, pow_add]
      push_cast
      rfl
    right
    rcases Int.lt_or_le x 0 with hneg | hpos
    · refine ⟨-2 ^ (p - 1), ?_⟩
      rw [Int.neg_mul, ← hpow]
      omega
    · refine ⟨2 ^ (p - 1), ?_⟩
      rw [← hpow]
      omega
  · obtain ⟨m, hm⟩ := hz.dvd hp hge
    exact .inl ⟨m, by rw [hm, Int.mul_comm]⟩

/-- A number with `k` digits too many is rounded to the place of its digit `k`. -/
theorem nearestEven_toMultiple (hp : 2 ≤ p) (hlo : 2 ^ (p + k - 1) ≤ x.natAbs)
    (hhi : x.natAbs < 2 ^ (p + k)) : NearestEven p x (toMultiple (2 ^ k) x) := by
  have hu : (0 : ℤ) < 2 ^ k := Int.pow_pos (by decide)
  obtain ⟨n, r, hy, hx, h1, h2, heven⟩ := toMultiple_cases hu x
  have hpow : ((2 ^ (p + k) : ℕ) : ℤ) = 2 ^ p * 2 ^ k := by
    rw [pow_add]
    push_cast
    rfl
  have hcast : ((2 ^ p : ℕ) : ℤ) = 2 ^ p := by push_cast; rfl
  -- a multiplier beyond `2 ^ p` would take `x` beyond `2 ^ (p + k)`
  have hn : n.natAbs ≤ 2 ^ p := by
    by_contra hbig
    rcases Int.lt_or_le n 0 with hneg | hpos
    · have hle : n * 2 ^ k ≤ (-2 ^ p - 1) * 2 ^ k := by
        refine Int.mul_le_mul_of_nonneg_right ?_ (Int.le_of_lt hu)
        omega
      rw [Int.sub_mul, Int.neg_mul, Int.one_mul, ← hpow] at hle
      omega
    · have hle : (2 ^ p + 1) * 2 ^ k ≤ n * 2 ^ k := by
        refine Int.mul_le_mul_of_nonneg_right ?_ (Int.le_of_lt hu)
        omega
      rw [Int.add_mul, Int.one_mul, ← hpow] at hle
      omega
  rw [hy]
  refine ⟨short_mul (by omega) hn k, fun z hz => ?_, fun z hz htie hne => ?_⟩
  · rcases multiple_or_farther (by omega) hlo hz with ⟨m, rfl⟩ | ⟨m, hfar⟩
    · exact (nearest_multiple hx h1 h2 m).1
    · exact Nat.le_of_lt (Nat.lt_of_le_of_lt (nearest_multiple hx h1 h2 m).1 hfar)
  · rcases multiple_or_farther (by omega) hlo hz with ⟨m, rfl⟩ | ⟨m, hfar⟩
    · rcases (nearest_multiple hx h1 h2 m).2 htie with heq | hhalf
      · exact absurd heq hne
      · obtain ⟨n', rfl⟩ := Int.dvd_of_emod_eq_zero (heven hhalf)
        have hsplit : 2 ^ p = 2 * 2 ^ (p - 1) := by
          rw [← pow_succ']
          congr 1
          omega
        have hn' : n'.natAbs ≤ 2 ^ (p - 1) := by
          rw [Int.natAbs_mul, hsplit] at hn
          exact Nat.le_of_mul_le_mul_left hn (by decide)
        have hshort := short_mul (by omega) hn' (k + 1)
        have hmul : 2 * n' * 2 ^ k = n' * 2 ^ (k + 1) := by
          rw [pow_succ]
          ring
        rwa [hmul]
    · have hle := (nearest_multiple hx h1 h2 m).1
      omega

/-- **Rounding to `p` digits finds the nearest number with `p` digits, and of two the even one.** -/
theorem nearestEven_roundEven (hp : 2 ≤ p) (x : ℤ) : NearestEven p x (roundEven p x) := by
  unfold roundEven
  rcases Nat.eq_zero_or_pos (x.natAbs.log2 + 1 - p) with hk | hk
  · -- nothing is cut off
    have hself : toMultiple (2 ^ (x.natAbs.log2 + 1 - p)) x = x := by
      rw [hk]
      unfold toMultiple
      simp
    have hshort : Short p x := by
      refine ⟨x, 0, by ring, ?_⟩
      exact Nat.lt_of_lt_of_le Nat.lt_log2_self (Nat.pow_le_pow_right (by decide) (by omega))
    rw [hself]
    refine ⟨hshort, fun z _ => ?_, fun z _ htie hne => absurd ?_ hne⟩
    · omega
    · omega
  · have hx0 : x.natAbs ≠ 0 := by
      intro h0
      rw [h0, Nat.log2_zero] at hk
      omega
    refine nearestEven_toMultiple hp ?_ ?_
    · have hexp : p + (x.natAbs.log2 + 1 - p) - 1 = x.natAbs.log2 := by omega
      rw [hexp]
      exact Nat.log2_self_le hx0
    · have hexp : p + (x.natAbs.log2 + 1 - p) = x.natAbs.log2 + 1 := by omega
      rw [hexp]
      exact Nat.lt_log2_self

end Rounding
