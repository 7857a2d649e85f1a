import Mathlib.Order.Monotone.Basic
import Mathlib.Tactic.Ring

/-!
# Binary floating-point formats

A pattern without its sign bit is a number: the exponent above, `p` bits of the fraction below. The
patterns below `2 ^ p` are the denormal ones. `scaled` is the magnitude that such a pattern stands
for, in units of the least denormal one.

* `scaled_two_mul` doubles a denormal pattern, also where the result is a normal one.
* `scaled_add` doubles a normal pattern by one more in the exponent.
* `scaled_strictMono` says that the magnitudes have the order of the patterns. So only one pattern
  has twice the magnitude of a pattern (`scaled_eq_two_mul_iff`).

## Conventions

**Natural numbers.** In units of the least denormal magnitude every magnitude of the format is a
natural number, and no rational or real numbers are needed to compare, to double or to round.

**No largest exponent.** A pattern may be any natural number here. Where a format has a largest
exponent, for infinities and NaNs, the patterns from there on mean something else, and whoever uses
this module treats them apart: the order and the doubling below stay as they are.

**The width of the fraction** is the parameter `p`. A format with a hidden bit has `p` stored bits,
23 for single and 52 for double precision.
-/

namespace BinaryFormat

/-- The magnitude of a pattern. -/
def scaled (p m : ℕ) : ℕ :=
  if m < 2 ^ p then m else (2 ^ p + m % 2 ^ p) * 2 ^ (m / 2 ^ p - 1)

theorem scaled_of_lt {p m : ℕ} (h : m < 2 ^ p) : scaled p m = m := if_pos h

/-- A normal pattern, split at its exponent. -/
theorem scaled_normal {p e f : ℕ} (hf : f < 2 ^ p) :
    scaled p (2 ^ p * (e + 1) + f) = (2 ^ p + f) * 2 ^ e := by
  have hpow := Nat.two_pow_pos p
  have hdiv : (2 ^ p * (e + 1) + f) / 2 ^ p = e + 1 := by
    rw [Nat.mul_add_div hpow, Nat.div_eq_of_lt hf, Nat.add_zero]
  have hmod : (2 ^ p * (e + 1) + f) % 2 ^ p = f := by
    rw [Nat.mul_add_mod, Nat.mod_eq_of_lt hf]
  have hge : ¬ 2 ^ p * (e + 1) + f < 2 ^ p := by
    rw [Nat.mul_succ]
    omega
  rw [scaled, if_neg hge, hdiv, hmod, Nat.add_sub_cancel]

/-- Every pattern that is not denormal is a normal one. -/
theorem exists_normal {p m : ℕ} (h : 2 ^ p ≤ m) :
    ∃ e f, f < 2 ^ p ∧ m = 2 ^ p * (e + 1) + f := by
  have hdiv : 0 < m / 2 ^ p := Nat.div_pos h (Nat.two_pow_pos p)
  refine ⟨m / 2 ^ p - 1, m % 2 ^ p, Nat.mod_lt _ (Nat.two_pow_pos p), ?_⟩
  rw [Nat.sub_add_cancel hdiv, Nat.div_add_mod]

/-- **A denormal pattern doubled.** -/
theorem scaled_two_mul {p m : ℕ} (h : m < 2 ^ p) : scaled p (2 * m) = 2 * scaled p m := by
  rw [scaled_of_lt h]
  by_cases hlt : 2 * m < 2 ^ p
  · exact scaled_of_lt hlt
  · have hsplit : 2 * m = 2 ^ p * (0 + 1) + (2 * m - 2 ^ p) := by omega
    rw [hsplit, scaled_normal (by omega), Nat.pow_zero, Nat.mul_one]
    omega

/-- **One more in the exponent doubles a normal pattern.** -/
theorem scaled_add {p m : ℕ} (h : 2 ^ p ≤ m) : scaled p (m + 2 ^ p) = 2 * scaled p m := by
  obtain ⟨e, f, hf, rfl⟩ := exists_normal h
  have hsplit : 2 ^ p * (e + 1) + f + 2 ^ p = 2 ^ p * (e + 1 + 1) + f := by ring
  rw [hsplit, scaled_normal hf, scaled_normal hf]
  ring

/-- **A greater pattern has a greater magnitude.** -/
theorem scaled_strictMono (p : ℕ) : StrictMono (scaled p) := by
  refine strictMono_nat_of_lt_succ fun m ↦ ?_
  have hpow := Nat.two_pow_pos p
  by_cases hm : m < 2 ^ p
  · rw [scaled_of_lt hm]
    rcases Nat.lt_or_eq_of_le (Nat.succ_le_of_lt hm) with hlt | heq
    · rw [scaled_of_lt hlt]
      exact Nat.lt_succ_self m
    · have hfirst : scaled p (2 ^ p * (0 + 1) + 0) = (2 ^ p + 0) * 2 ^ 0 := scaled_normal hpow
      rw [Nat.zero_add, Nat.mul_one, Nat.add_zero, Nat.pow_zero, Nat.mul_one, ← heq] at hfirst
      rw [hfirst]
      exact Nat.lt_succ_self m
  · obtain ⟨e, f, hf, rfl⟩ := exists_normal (Nat.not_lt.1 hm)
    rw [scaled_normal hf]
    rcases Nat.lt_or_eq_of_le (Nat.succ_le_of_lt hf) with hlt | heq
    · rw [Nat.add_assoc, scaled_normal hlt]
      exact Nat.mul_lt_mul_of_pos_right (by omega) (Nat.two_pow_pos e)
    · -- The next pattern is the first one with the next exponent.
      have hnext : 2 ^ p * (e + 1) + f + 1 = 2 ^ p * (e + 1 + 1) + 0 := by
        rw [Nat.mul_succ _ (e + 1)]
        omega
      rw [hnext, scaled_normal hpow, Nat.pow_succ, Nat.add_zero, Nat.mul_comm (2 ^ e),
        ← Nat.mul_assoc]
      exact Nat.mul_lt_mul_of_pos_right (by omega) (Nat.two_pow_pos e)

/-- **Twice the magnitude** is the magnitude of one pattern. -/
theorem scaled_eq_two_mul_iff {p m n : ℕ} :
    scaled p n = 2 * scaled p m ↔ n = if m < 2 ^ p then 2 * m else m + 2 ^ p := by
  split_ifs with h
  · rw [← scaled_two_mul h, (scaled_strictMono p).injective.eq_iff]
  · rw [← scaled_add (Nat.not_lt.1 h), (scaled_strictMono p).injective.eq_iff]

end BinaryFormat
