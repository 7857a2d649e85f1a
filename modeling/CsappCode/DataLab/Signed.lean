import CsappCode.DataLab.Words
import Mathlib.Order.Defs.Unbundled

/-!
# Division and comparison without their operators

`divpwr2` divides with a shift. A shift rounds down, so it adds `2 ^ n - 1` to a negative number
first. `isLessOrEqual` compares with the signs of the numbers and of their difference.

* `toInt_bias` is what is added, and `bias_add_bounds` says that the sum stays in the range.
* `toInt_divpwr2` is the quotient, truncated toward zero.
* `divpwr2_rounds_toward_zero` says that the quotient is that of `/`, and that nothing overflows.
* `isLessOrEqual_eq_ite` is the comparison, and `isLessOrEqual_signed` says that the order is the
  one of signed integers, and linear.

## What the results rest on

**Truncation.** `Int.tdiv` is the quotient of C. For a number that is not negative it is the rounded
down one, which is what the shift computes; for a negative one the bias moves the sum up to the next
multiple at most.

**The difference of two numbers** overflows only where their signs differ, and `isLessOrEqual` looks
at the difference only where they agree. That it wraps elsewhere does no harm.

**Assumed** is a shift count of at most 30, as the comment of the puzzle says, and 32-bit integers
in two's complement with arithmetic right shifts. The comparison is for all pairs.
-/

namespace CsappCode.DataLab

/-! ### Division -/

/-- What `divpwr2` adds to `x`. -/
def bias (x : Word) (n : ℕ) : Word :=
  let mask := (((1 : Word) <<< 31) &&& x).sshiftRight 31
  (((1 : Word) <<< n) + ~~~1 + 1) &&& mask

/-- `divpwr2(x, n)`. -/
def divpwr2 (x : Word) (n : ℕ) : Word := (bias x n + x).sshiftRight n

/-- `test_divpwr2(x, n)`. -/
def testDivpwr2 (x : Word) (n : ℕ) : Word :=
  let p2n := (1 : Word) <<< n
  x.sdiv p2n

/-- The mask is the sign bit in all places. -/
theorem sign_mask (x : Word) :
    (((1 : Word) <<< 31) &&& x).sshiftRight 31 = if x.toInt < 0 then -1 else 0 := by
  have hsign : (((1 : Word) <<< 31) &&& x).toInt < 0 ↔ x.toInt < 0 := by
    rw [← decide_eq_decide, ← BitVec.msb_eq_toInt, ← BitVec.msb_eq_toInt, BitVec.msb_and,
      show ((1 : Word) <<< 31).msb = true by decide, Bool.true_and]
  rw [sshiftRight_sign, if_congr hsign rfl rfl]

theorem toInt_one_shiftLeft {n : ℕ} (hn : n ≤ 30) : ((1 : Word) <<< n).toInt = 2 ^ n := by
  have hpow : 2 ^ n ≤ 2 ^ 30 := Nat.pow_le_pow_right (by decide) hn
  have hnat := toNat_one_shiftLeft (Nat.lt_of_le_of_lt hn (by decide))
  rw [BitVec.toInt_eq_toNat_of_lt (by omega), hnat]
  push_cast
  rfl

/-- Adding `~1` and then `1` subtracts one. -/
theorem bias_eq (x : Word) (n : ℕ) :
    bias x n = if x.toInt < 0 then (1 : Word) <<< n + -1 else 0 := by
  rw [bias, sign_mask, BitVec.add_assoc, show ~~~(1 : Word) + 1 = -1 by decide]
  split_ifs
  · exact BitVec.and_allOnes
  · exact BitVec.and_zero

/-- **The bias**: `2 ^ n - 1` for a negative number. -/
theorem toInt_bias (x : Word) {n : ℕ} (hn : n ≤ 30) :
    (bias x n).toInt = if x.toInt < 0 then 2 ^ n - 1 else 0 := by
  have hpow : (0 : ℤ) < 2 ^ n := Int.pow_pos (by decide)
  have hone := toInt_one_shiftLeft hn
  obtain ⟨-, hhi⟩ := toInt_bounds ((1 : Word) <<< n)
  have hminus : (-1 : Word).toInt = -1 := by decide
  rw [bias_eq]
  split_ifs
  · rw [toInt_add (by omega) (by omega)]
    omega
  · rfl

/-- A negative number divided with the bias. -/
theorem add_sub_one_ediv {x d : ℤ} (hx : x < 0) (hd : 0 < d) : (d - 1 + x) / d = x.tdiv d := by
  have hsplit := Int.emod_add_mul_ediv (-x) d
  have hlo := Int.emod_nonneg (-x) hd.ne'
  have hhi := Int.emod_lt_of_pos (-x) hd
  have hx' : d - 1 + x = (d - 1 - -x % d) + d * -(-x / d) := by
    rw [Int.mul_neg]
    omega
  rw [hx', Int.add_mul_ediv_left _ _ hd.ne', Int.ediv_eq_zero_of_lt (by omega) (by omega),
    Int.zero_add, ← Int.tdiv_eq_ediv_of_nonneg (by omega), Int.neg_tdiv, Int.neg_neg]

/-- **The sum that `divpwr2` shifts** stays inside the range. -/
theorem bias_add_bounds (x : Word) {n : ℕ} (hn : n ≤ 30) :
    -2 ^ 31 ≤ (bias x n).toInt + x.toInt ∧ (bias x n).toInt + x.toInt < 2 ^ 31 := by
  have hpow : (0 : ℤ) < 2 ^ n := Int.pow_pos (by decide)
  obtain ⟨-, hone⟩ := toInt_bounds ((1 : Word) <<< n)
  rw [toInt_one_shiftLeft hn] at hone
  obtain ⟨hlo, hhi⟩ := toInt_bounds x
  rw [toInt_bias x hn]
  split_ifs <;> omega

/-- **The quotient** is truncated toward zero. -/
theorem toInt_divpwr2 (x : Word) {n : ℕ} (hn : n ≤ 30) :
    (divpwr2 x n).toInt = x.toInt.tdiv (2 ^ n) := by
  have hpow : (0 : ℤ) < 2 ^ n := Int.pow_pos (by decide)
  obtain ⟨hlo, hhi⟩ := bias_add_bounds x hn
  rw [divpwr2, BitVec.toInt_sshiftRight, toInt_add hlo hhi, toInt_bias x hn,
    Int.shiftRight_eq_div_pow]
  push_cast
  split_ifs with hx
  · exact add_sub_one_ediv hx hpow
  · rw [Int.zero_add, Int.tdiv_eq_ediv_of_nonneg (by omega)]

theorem toInt_testDivpwr2 (x : Word) {n : ℕ} (hn : n ≤ 30) :
    (testDivpwr2 x n).toInt = x.toInt.tdiv (2 ^ n) := by
  have hone := toInt_one_shiftLeft hn
  -- The quotient of the least integer and `-1` would overflow, but no power of two is `-1`.
  have hne : (1 : Word) <<< n ≠ -1 := fun h ↦ by
    have hpow : (0 : ℤ) < 2 ^ n := Int.pow_pos (by decide)
    rw [h, show (-1 : Word).toInt = -1 by decide] at hone
    omega
  rw [testDivpwr2, BitVec.toInt_sdiv_of_ne_or_ne _ _ (.inr hne), hone]

/-- **Division rounds toward zero.** `divpwr2` is the division of the test, its quotient is the one
truncated toward zero, and the sum that it shifts does not overflow. -/
theorem divpwr2_rounds_toward_zero (x : Word) {n : ℕ} (hn : n ≤ 30) :
    divpwr2 x n = testDivpwr2 x n ∧ (divpwr2 x n).toInt = x.toInt.tdiv (2 ^ n) ∧
      (bias x n).saddOverflow x = false := by
  obtain ⟨hlo, hhi⟩ := bias_add_bounds x hn
  refine ⟨BitVec.eq_of_toInt_eq ?_, toInt_divpwr2 x hn, saddOverflow_eq_false hlo hhi⟩
  rw [toInt_divpwr2 x hn, toInt_testDivpwr2 x hn]

/-- A negative number that is no multiple of the divisor. -/
theorem divpwr2_rounds_toward_zero_neg_33 :
    divpwr2 (-33) 4 = testDivpwr2 (-33) 4 ∧ (divpwr2 (-33) 4).toInt = -2 ∧
      (bias (-33) 4).saddOverflow (-33) = false :=
  divpwr2_rounds_toward_zero (-33) (by decide : 4 ≤ 30)

/-! ### Comparison -/

/-- `isLessOrEqual(x, y)`. -/
def isLessOrEqual (x y : Word) : Word :=
  let xTag := x.sshiftRight 31 &&& 1
  let yTag := y.sshiftRight 31 &&& 1
  let sub := ~~~x + 1 + y
  let subTag := sub.sshiftRight 31 &&& 1
  (xTag &&& lnot yTag) ||| (lnot subTag &&& lnot (xTag ^^^ yTag))

/-- `test_isLessOrEqual(x, y)`. -/
def testIsLessOrEqual (x y : Word) : Word := if x.sle y then 1 else 0

/-- What `isLessOrEqual` reads: the two signs, and the sign of the difference where they agree. -/
theorem isLessOrEqual_eq (x y : Word) :
    isLessOrEqual x y =
      if x.toInt < 0 ∧ ¬ y.toInt < 0 ∨
        ¬ (~~~x + 1 + y).toInt < 0 ∧ (x.toInt < 0 ↔ y.toInt < 0) then 1 else 0 := by
  rw [isLessOrEqual, sshiftRight_sign_and_one, sshiftRight_sign_and_one, sshiftRight_sign_and_one]
  by_cases hx : x.toInt < 0 <;> by_cases hy : y.toInt < 0 <;>
    by_cases hsub : (~~~x + 1 + y).toInt < 0 <;> simp only [hx, hy, hsub, if_true, if_false] <;> rfl

/-- Numbers of one sign have a difference inside the range. -/
theorem toInt_difference {x y : Word} (h : x.toInt < 0 ↔ y.toInt < 0) :
    (~~~x + 1 + y).toInt = y.toInt - x.toInt := by
  obtain ⟨hxlo, hxhi⟩ := toInt_bounds x
  obtain ⟨hylo, hyhi⟩ := toInt_bounds y
  have hneg : ~~~x + 1 = -x := (BitVec.neg_eq_not_add x).symm
  rw [hneg, BitVec.add_comm, ← BitVec.sub_eq_add_neg, BitVec.toInt_sub, Int.bmod_eq_of_le]
  · omega
  · omega

/-- **The order of signed integers.** -/
theorem isLessOrEqual_eq_ite (x y : Word) :
    isLessOrEqual x y = if x.toInt ≤ y.toInt then 1 else 0 := by
  rw [isLessOrEqual_eq]
  refine if_congr ?_ rfl rfl
  by_cases h : x.toInt < 0 ↔ y.toInt < 0
  · rw [toInt_difference h]
    omega
  · omega

theorem isLessOrEqual_eq_one (x y : Word) : isLessOrEqual x y = 1 ↔ x.toInt ≤ y.toInt := by
  rw [isLessOrEqual_eq_ite]
  split_ifs with h
  · exact iff_of_true rfl h
  · exact iff_of_false (by decide) h

/-- **`isLessOrEqual` is the signed order.** On every pair it is `1` where the first integer is at
most the second one and `0` otherwise, which is what the test computes. So it is a linear order. -/
theorem isLessOrEqual_signed :
    (∀ x y, isLessOrEqual x y = (if x.toInt ≤ y.toInt then 1 else 0) ∧
      isLessOrEqual x y = testIsLessOrEqual x y) ∧
    IsLinearOrder Word fun x y ↦ isLessOrEqual x y = 1 := by
  refine ⟨fun x y ↦ ⟨isLessOrEqual_eq_ite x y, ?_⟩, ?_⟩
  · simp only [isLessOrEqual_eq_ite, testIsLessOrEqual, BitVec.sle_eq_decide, decide_eq_true_eq]
  · simp only [isLessOrEqual_eq_one]
    exact { refl := fun x ↦ le_refl x.toInt
            trans := fun x y z ↦ le_trans
            antisymm := fun x y hxy hyx ↦ BitVec.eq_of_toInt_eq (le_antisymm hxy hyx)
            total := fun x y ↦ le_total x.toInt y.toInt }

end CsappCode.DataLab
