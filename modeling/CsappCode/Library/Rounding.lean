import CsappCode.Library.BinaryFormat
import Mathlib.Algebra.Order.Group.Abs
import Mathlib.Algebra.Order.Ring.Int
import Mathlib.Data.Nat.Log

/-!
# Rounding to a binary floating-point format

`nearest p u` is the pattern without its sign whose magnitude is nearest to `u` units of the least
denormal one. Of two patterns that are equally near, it is the even one.

* `scaled_floor` and `scaled_ceil` give the two patterns around `u`.
* `abs_scaled_nearest_sub_le` says that no pattern is nearer.
* `nearest_scaled` says that a magnitude that a pattern has is rounded to that pattern.

## Conventions

**Units.** The magnitude to be rounded is a natural number of units of the least denormal one, the
same in which `BinaryFormat` gives the magnitudes of patterns. Integers, sums and products of
magnitudes are of this kind; a quotient is not, and would need a finer unit.

**Ties to even** is the default mode of the standard for such formats. The other modes choose among
the same two patterns.

**No overflow.** There is always a nearest pattern here, however large the magnitude, because
`BinaryFormat` has no largest exponent. A format that ends somewhere turns the patterns behind its
end into infinities after rounding, which is what the standard prescribes for this mode.

**The sign** plays no part, since the mode is symmetric about zero.
-/

namespace BinaryFormat

/-- `n / 2 ^ k` to the nearest integer, ties to the even one. -/
def roundShift (n k : ℕ) : ℕ :=
  let q := n / 2 ^ k
  let r := n % 2 ^ k
  if 2 ^ k < 2 * r ∨ 2 * r = 2 ^ k ∧ q % 2 = 1 then q + 1 else q

/-- How many bits of `u` do not fit in a fraction of `p` bits. -/
def excess (p u : ℕ) : ℕ := u.log2 - p

/-- The pattern nearest to `u`. -/
def nearest (p u : ℕ) : ℕ := roundShift u (excess p u) + 2 ^ p * excess p u

/-! ### The two patterns around a magnitude -/

theorem div_two_pow_excess_lt (p u : ℕ) : u / 2 ^ excess p u < 2 ^ (p + 1) := by
  rw [Nat.div_lt_iff_lt_mul (Nat.two_pow_pos _), ← Nat.pow_add]
  refine Nat.lt_of_lt_of_le Nat.lt_log2_self (Nat.pow_le_pow_right (by decide) ?_)
  rw [excess]
  omega

theorem two_pow_le_div_two_pow_excess {p u : ℕ} (h : excess p u ≠ 0) :
    2 ^ p ≤ u / 2 ^ excess p u := by
  have hu : u ≠ 0 := by
    rintro rfl
    simp [excess] at h
  rw [Nat.le_div_iff_mul_le (Nat.two_pow_pos _), ← Nat.pow_add]
  rw [excess] at h ⊢
  rw [show p + (u.log2 - p) = u.log2 by omega]
  exact Nat.log2_self_le hu

/-- A significand with an exponent. -/
theorem scaled_significand {p q k : ℕ} (hlo : k = 0 ∨ 2 ^ p ≤ q) (hhi : q ≤ 2 ^ (p + 1)) :
    scaled p (q + 2 ^ p * k) = q * 2 ^ k := by
  have hpow := Nat.two_pow_pos p
  have hsucc : 2 ^ (p + 1) = 2 ^ p + 2 ^ p := by rw [Nat.pow_succ, Nat.mul_two]
  by_cases hlt : q < 2 ^ p
  · obtain rfl : k = 0 := by omega
    rw [Nat.mul_zero, Nat.add_zero, scaled_of_lt hlt, Nat.pow_zero, Nat.mul_one]
  rcases Nat.lt_or_eq_of_le hhi with hhi | rfl
  · have hsplit : q + 2 ^ p * k = 2 ^ p * (k + 1) + (q - 2 ^ p) := by
      rw [Nat.mul_succ]
      omega
    rw [hsplit, scaled_normal (by omega), Nat.add_sub_cancel' (by omega)]
  · -- The carry into the next exponent.
    have hsplit : 2 ^ (p + 1) + 2 ^ p * k = 2 ^ p * (k + 1 + 1) + 0 := by
      rw [hsucc, Nat.mul_succ, Nat.mul_succ]
      omega
    rw [hsplit, scaled_normal hpow, Nat.pow_succ, Nat.pow_succ]
    ring

theorem scaled_floor (p u : ℕ) :
    scaled p (u / 2 ^ excess p u + 2 ^ p * excess p u) =
      u / 2 ^ excess p u * 2 ^ excess p u := by
  refine scaled_significand ?_ (div_two_pow_excess_lt p u).le
  by_cases h : excess p u = 0
  · exact Or.inl h
  · exact Or.inr (two_pow_le_div_two_pow_excess h)

theorem scaled_ceil (p u : ℕ) :
    scaled p (u / 2 ^ excess p u + 1 + 2 ^ p * excess p u) =
      (u / 2 ^ excess p u + 1) * 2 ^ excess p u := by
  refine scaled_significand ?_ (div_two_pow_excess_lt p u)
  by_cases h : excess p u = 0
  · exact Or.inl h
  · exact Or.inr ((two_pow_le_div_two_pow_excess h).trans (Nat.le_succ _))

/-! ### The nearest pattern -/

/-- **No pattern is nearer.** -/
theorem abs_scaled_nearest_sub_le (p u m : ℕ) :
    |(scaled p (nearest p u) : ℤ) - u| ≤ |(scaled p m : ℤ) - u| := by
  have hfloor := scaled_floor p u
  have hceil := scaled_ceil p u
  have hsplit := Nat.div_add_mod u (2 ^ excess p u)
  have hmod := Nat.mod_lt u (Nat.two_pow_pos (excess p u))
  rw [Nat.mul_comm] at hsplit
  rw [Nat.add_mul, Nat.one_mul] at hceil
  -- A pattern is at most the one below `u`, or at least the one above it.
  have hside : scaled p m ≤ u / 2 ^ excess p u * 2 ^ excess p u ∨
      u / 2 ^ excess p u * 2 ^ excess p u + 2 ^ excess p u ≤ scaled p m := by
    rw [← hceil, ← hfloor, (scaled_strictMono p).le_iff_le, (scaled_strictMono p).le_iff_le]
    omega
  rw [nearest, roundShift]
  by_cases hup : 2 ^ excess p u < 2 * (u % 2 ^ excess p u) ∨
      2 * (u % 2 ^ excess p u) = 2 ^ excess p u ∧ u / 2 ^ excess p u % 2 = 1
  · rw [if_pos hup, hceil, le_abs, abs_le, abs_le]
    omega
  · rw [if_neg hup, hfloor, le_abs, abs_le, abs_le]
    omega

/-- **A magnitude of the format is not changed.** -/
theorem nearest_scaled (p m : ℕ) : nearest p (scaled p m) = m := by
  have hle := abs_scaled_nearest_sub_le p (scaled p m) m
  rw [Int.sub_self, abs_zero] at hle
  have hsame := abs_nonpos_iff.mp hle
  exact (scaled_strictMono p).injective (by omega)

/-- What is at most the magnitude of a pattern is rounded to that pattern at most. -/
theorem nearest_le {p u m : ℕ} (h : u ≤ scaled p m) : nearest p u ≤ m := by
  by_contra hgt
  have hscaled := scaled_strictMono p (Nat.lt_of_not_le hgt)
  have hle := abs_scaled_nearest_sub_le p u m
  rw [abs_of_nonneg (by omega), abs_of_nonneg (by omega)] at hle
  omega

theorem le_nearest {p u m : ℕ} (h : scaled p m ≤ u) : m ≤ nearest p u := by
  by_contra hlt
  have hscaled := scaled_strictMono p (Nat.lt_of_not_le hlt)
  have hle := abs_scaled_nearest_sub_le p u m
  rw [abs_of_nonpos (by omega), abs_of_nonpos (by omega)] at hle
  omega

end BinaryFormat
