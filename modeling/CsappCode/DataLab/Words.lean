import Mathlib.Data.BitVec

/-!
# The integers of the data lab

`bits.c` assumes 32-bit integers in two's complement and arithmetic right shifts. A word stands for
an `int` and for an `unsigned` alike; `>>` on an `int` is `BitVec.sshiftRight`.

* `lnot` is the operator `!`.
* `toInt_add` and `saddOverflow_eq_false` are sums that stay in the range.
* `sshiftRight_sign` is the word of sign bits, which several puzzles build.
* `toNat_sshiftRight` and `toNat_sshiftRight_and` are the shifts of numbers that are not negative,
  or whose sign bits are masked away.

## Conventions

**Shift counts.** A count by which the functions shift is a natural number. All of these are less
than 32 where a theorem is about them; with larger ones the operation is undefined in C.

**Signed and unsigned.** `toInt` and `toNat` read one word in the two ways. The lemmas here are the
bridges between them that the modules on the puzzles share, so that each of those modules speaks of
one reading only.

**Truth values** are the words 0 and 1, as the functions return them.
-/

namespace CsappCode.DataLab

/-- `int` and `unsigned`. -/
abbrev Word := BitVec 32

/-- `!x`. -/
def lnot (x : Word) : Word := if x = 0 then 1 else 0

/-- `!!x`. -/
theorem lnot_lnot (x : Word) : lnot (lnot x) = if x = 0 then 0 else 1 := by
  rw [lnot, lnot]
  split_ifs <;> simp_all

/-- `1 << n`. -/
theorem toNat_one_shiftLeft {n : ℕ} (hn : n < 32) : ((1 : Word) <<< n).toNat = 2 ^ n := by
  have hpow : 2 ^ n < 2 ^ 32 := Nat.pow_lt_pow_right (by decide) hn
  rw [BitVec.toNat_shiftLeft, show (1 : Word).toNat = 1 from rfl, Nat.one_shiftLeft,
    Nat.mod_eq_of_lt hpow]

theorem toInt_bounds (x : Word) : -2 ^ 31 ≤ x.toInt ∧ x.toInt < 2 ^ 31 :=
  ⟨BitVec.le_toInt x, BitVec.toInt_lt⟩

/-- A sum that stays inside the range does not overflow. -/
theorem saddOverflow_eq_false {x y : Word} (hlo : -2 ^ 31 ≤ x.toInt + y.toInt)
    (hhi : x.toInt + y.toInt < 2 ^ 31) : x.saddOverflow y = false := by
  rw [BitVec.saddOverflow, Bool.or_eq_false_iff, decide_eq_false_iff_not, decide_eq_false_iff_not]
  omega

/-- Such a sum is the one of the integers. -/
theorem toInt_add {x y : Word} (hlo : -2 ^ 31 ≤ x.toInt + y.toInt)
    (hhi : x.toInt + y.toInt < 2 ^ 31) : (x + y).toInt = x.toInt + y.toInt :=
  BitVec.toInt_add_of_not_saddOverflow (Bool.not_eq_true _ ▸ saddOverflow_eq_false hlo hhi)

/-- The sign bit in all places. -/
theorem sshiftRight_sign (x : Word) : x.sshiftRight 31 = if x.toInt < 0 then -1 else 0 := by
  obtain ⟨hlo, hhi⟩ := toInt_bounds x
  refine BitVec.eq_of_toInt_eq ?_
  rw [BitVec.toInt_sshiftRight, Int.shiftRight_eq_div_pow]
  split_ifs
  · rw [show (-1 : Word).toInt = -1 by decide]
    omega
  · rw [show (0 : Word).toInt = 0 by decide]
    omega

/-- The sign bit. -/
theorem sshiftRight_sign_and_one (x : Word) :
    x.sshiftRight 31 &&& 1 = if x.toInt < 0 then 1 else 0 := by
  rw [sshiftRight_sign]
  split_ifs <;> rfl

/-- A number that is not negative is shifted like an unsigned one. -/
theorem toNat_sshiftRight {x : Word} (h : x.toNat < 2 ^ 31) (k : ℕ) :
    (x.sshiftRight k).toNat = x.toNat >>> k := by
  have hmsb : x.msb = false := BitVec.msb_eq_false_iff_two_mul_lt.2 (by omega)
  rw [BitVec.sshiftRight_eq_of_msb_false hmsb, BitVec.toNat_ushiftRight]

/-- A mask that drops the copies of the sign. -/
theorem toNat_sshiftRight_and (x : Word) {i : Word} {k : ℕ} (hi : i.toNat < 2 ^ (32 - k)) :
    (x.sshiftRight k &&& i).toNat = x.toNat >>> k &&& i.toNat := by
  rw [← BitVec.toNat_ushiftRight, ← BitVec.toNat_and]
  refine congrArg BitVec.toNat (BitVec.eq_of_getLsbD_eq fun j hj ↦ ?_)
  rw [BitVec.getLsbD_and, BitVec.getLsbD_and]
  by_cases hjk : k + j < 32
  · rw [BitVec.getLsbD_sshiftRight, BitVec.getLsbD_ushiftRight, if_pos hjk]
    simp only [Nat.not_le.2 hj, decide_false, Bool.not_false, Bool.true_and]
  · have hzero : i.getLsbD j = false :=
      Nat.testBit_lt_two_pow (Nat.lt_of_lt_of_le hi (Nat.pow_le_pow_right Nat.two_pos (by omega)))
    rw [hzero, Bool.and_false, Bool.and_false]

end CsappCode.DataLab
