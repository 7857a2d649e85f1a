import CsappCode.Library.Rounding
import CsappCode.DataLab.FloatTwice

/-!
# The floating-point puzzles and their tests

The tests compute with values of type `float`. A finite value is a sign and a number of units of
`2 ^ -149`, the least denormal magnitude. `u2f` and `f2u` go between values and patterns, and an
operation rounds its exact result.

* `f2u_u2f` says that the two unions of the tests are inverse.
* `floatNeg_agrees` and `doubled_testFloatTwice` are about the two functions of a pattern.
* `floatI2f_eq_iff` says that `float_i2f`, which converts the value back instead of taking its
  pattern, is right about zero only.
* `floatPuzzles_spec` puts the three puzzles together.

## How floats are modelled

**Rounding** is to nearest, ties to even, which is what C uses unless a program asks for another
mode. The library on rounding does it on natural numbers, and a magnitude that comes out too large
is infinite.

**NaNs** are one value. The functions and their tests return their argument for a NaN, so that the
pattern of one is never asked for.

**Conversions.** From an `int` to a `float` every number is rounded. From a `float` to an
`unsigned`, C leaves open what a value outside the range gives, and negative values are outside.
What the machine gives there is the parameter `outOfRange`, and the results are for all of them.
-/

namespace CsappCode.DataLab

open BinaryFormat

/-! ### Values of type `float` -/

/-- A value of type `float`. -/
inductive Single where
  | nan
  | infinity (negative : Bool)
  | finite (negative : Bool) (units : ℕ)
  deriving DecidableEq

/-- The sign bit of a pattern, as a number. -/
def signBit (negative : Bool) : ℕ := if negative then 2 ^ 31 else 0

/-- `u2f(u)`. -/
def u2f (u : Word) : Single :=
  if exponent u = 255 then
    if fraction u = 0 then .infinity (sign u = 1) else .nan
  else
    .finite (sign u = 1) (scaled 23 (magnitude u))

/-- `f2u(f)`. The tests do not call it for a NaN. -/
def f2u : Single → Word
  | .nan => 0x7fc00000
  | .infinity negative => BitVec.ofNat 32 (signBit negative + 255 * 2 ^ 23)
  | .finite negative units => BitVec.ofNat 32 (signBit negative + nearest 23 units)

/-- The value nearest to a number of units. It is an infinity from half a unit in the last place
above the largest finite value on. -/
def Single.round (negative : Bool) (units : ℕ) : Single :=
  if nearest 23 units < 255 * 2 ^ 23 then .finite negative (scaled 23 (nearest 23 units))
  else .infinity negative

/-- `-f`. -/
def Single.neg : Single → Single
  | .nan => .nan
  | .infinity negative => .infinity !negative
  | .finite negative units => .finite (!negative) units

/-- `2*f`. -/
def Single.twice : Single → Single
  | .nan => .nan
  | .infinity negative => .infinity negative
  | .finite negative units => .round negative (2 * units)

/-- `(float) x`. -/
def Single.ofInt (x : ℤ) : Single := .round (x < 0) (x.natAbs * 2 ^ 149)

/-- A `float` assigned to an `unsigned`. The result for a value that is out of range is not
defined in C: `outOfRange` is what the machine gives. -/
def Single.toUnsigned (outOfRange : Single → Word) : Single → Word
  | .finite negative units =>
    if units / 2 ^ 149 < 2 ^ 32 ∧ (negative = false ∨ units / 2 ^ 149 = 0) then
      BitVec.ofNat 32 (units / 2 ^ 149)
    else
      outOfRange (.finite negative units)
  | f => outOfRange f

/-! ### The functions -/

/-- `float_neg(uf)`. -/
def floatNeg (uf : Word) : Word :=
  let mask := (1 : Word) <<< 31
  let t := uf ||| mask
  let t := t.sshiftRight 23
  if uf <<< 9 ≠ 0 ∧ lnot (~~~t) ≠ 0 then uf
  else uf ^^^ mask

/-- `test_float_neg(uf)`. -/
def testFloatNeg (uf : Word) : Word :=
  let f := u2f uf
  let nf := f.neg
  if f = .nan then uf else f2u nf

/-- `float_i2f(x)`. -/
def floatI2f (outOfRange : Single → Word) (x : Word) : Word :=
  let a := Single.ofInt x.toInt
  a.toUnsigned outOfRange

/-- `test_float_i2f(x)`. -/
def testFloatI2f (x : Word) : Word :=
  let f := Single.ofInt x.toInt
  f2u f

/-- `test_float_twice(uf)`. -/
def testFloatTwice (uf : Word) : Word :=
  let f := u2f uf
  let tf := f.twice
  if f = .nan then uf else f2u tf

/-! ### Patterns and values -/

theorem u2f_eq_nan_iff {uf : Word} : u2f uf = .nan ↔ exponent uf = 255 ∧ fraction uf ≠ 0 := by
  rw [u2f]
  split_ifs <;> simp_all

theorem sign_eq_zero_or_one (uf : Word) : sign uf = 0 ∨ sign uf = 1 := by
  have hlt := sign_lt uf
  omega

theorem signBit_sign (uf : Word) : signBit (sign uf = 1) = 2 ^ 31 * sign uf := by
  rcases sign_eq_zero_or_one uf with h | h <;> rw [h] <;> rfl

/-- A pattern from its sign and its magnitude. -/
theorem ofNat_sign_magnitude (uf : Word) :
    BitVec.ofNat 32 (signBit (sign uf = 1) + magnitude uf) = uf := by
  rw [signBit_sign, ← toNat_eq]
  exact BitVec.ofNat_toNat 32 uf ▸ BitVec.setWidth_eq uf

theorem magnitude_of_infinity {uf : Word} (he : exponent uf = 255) (hf : fraction uf = 0) :
    magnitude uf = 255 * 2 ^ 23 := by
  rw [magnitude_eq, he, hf, Nat.add_zero, Nat.mul_comm]

/-- **The unions are inverse.** -/
theorem f2u_u2f {uf : Word} (h : u2f uf ≠ .nan) : f2u (u2f uf) = uf := by
  have hpattern := ofNat_sign_magnitude uf
  rw [u2f] at h ⊢
  split_ifs at h ⊢ with he hf
  · rw [magnitude_of_infinity he hf] at hpattern
    exact hpattern
  · exact absurd rfl h
  · rw [f2u, nearest_scaled]
    exact hpattern

/-! ### `float_neg` -/

theorem toNat_or_sign (uf : Word) : (uf ||| (1 : Word) <<< 31).toNat = 2 ^ 31 + magnitude uf := by
  have hsplit := Nat.div_add_mod (uf.toNat ||| 2 ^ 31) (2 ^ 31)
  have hsign : sign uf ||| 1 = 1 := by
    rcases sign_eq_zero_or_one uf with h | h <;> rw [h] <;> rfl
  rw [Nat.or_div_two_pow, Nat.or_mod_two_pow, Nat.mod_self, Nat.or_zero, Nat.div_self (by decide)]
    at hsplit
  rw [BitVec.toNat_or, toNat_one_shiftLeft (by decide), ← hsplit]
  show 2 ^ 31 * (sign uf ||| 1) + magnitude uf = _
  rw [hsign, Nat.mul_one]

theorem toNat_xor_sign (uf : Word) :
    (uf ^^^ (1 : Word) <<< 31).toNat = 2 ^ 31 * (1 - sign uf) + magnitude uf := by
  have hsplit := Nat.div_add_mod (uf.toNat ^^^ 2 ^ 31) (2 ^ 31)
  have hsign : sign uf ^^^ 1 = 1 - sign uf := by
    rcases sign_eq_zero_or_one uf with h | h <;> rw [h] <;> rfl
  rw [Nat.xor_div_two_pow, Nat.xor_mod_two_pow, Nat.mod_self, Nat.xor_zero,
    Nat.div_self (by decide)] at hsplit
  rw [BitVec.toNat_xor, toNat_one_shiftLeft (by decide), ← hsplit]
  show 2 ^ 31 * (sign uf ^^^ 1) + magnitude uf = _
  rw [hsign]

theorem shiftLeft_nine_eq_zero_iff (uf : Word) : uf <<< 9 = 0 ↔ fraction uf = 0 := by
  rw [← BitVec.toNat_inj, BitVec.toNat_shiftLeft, Nat.shiftLeft_eq, fraction,
    show (0 : Word).toNat = 0 from rfl]
  omega

/-- The exponent behind the sign, shifted down with ones above it, is all ones. -/
theorem exponent_test_iff (uf : Word) :
    lnot (~~~((uf ||| (1 : Word) <<< 31).sshiftRight 23)) ≠ 0 ↔ exponent uf = 255 := by
  have hlnot : ∀ y : Word, lnot y ≠ 0 ↔ y = 0 := by
    intro y
    rw [lnot]
    split_ifs with hy
    · exact iff_of_true (by decide) hy
    · exact iff_of_false (by decide) hy
  have hmag := magnitude_eq uf
  have hexp := exponent_lt uf
  have hfrac := fraction_lt uf
  rw [hlnot, BitVec.not_eq_comm, ← BitVec.toInt_inj, BitVec.toInt_sshiftRight,
    Int.shiftRight_eq_div_pow, BitVec.toInt_eq_toNat_cond, toNat_or_sign, if_neg (by omega),
    show (~~~(0 : Word)).toInt = -1 by decide]
  push_cast
  omega

/-- **`float_neg` is the negation**, and keeps a NaN. -/
theorem floatNeg_agrees (uf : Word) : floatNeg uf = testFloatNeg uf := by
  have hnan : (uf <<< 9 ≠ 0 ∧ lnot (~~~((uf ||| (1 : Word) <<< 31).sshiftRight 23)) ≠ 0) ↔
      u2f uf = .nan := by
    rw [exponent_test_iff, Ne, shiftLeft_nine_eq_zero_iff, u2f_eq_nan_iff, and_comm]
  rw [floatNeg, testFloatNeg]
  show (if uf <<< 9 ≠ 0 ∧ lnot (~~~((uf ||| (1 : Word) <<< 31).sshiftRight 23)) ≠ 0 then uf
    else _) = if u2f uf = .nan then uf else _
  rw [if_congr hnan rfl rfl]
  split_ifs with h
  · rfl
  · -- Only the sign bit of the pattern changes.
    have hsign : signBit (!decide (sign uf = 1)) = 2 ^ 31 * (1 - sign uf) := by
      rcases sign_eq_zero_or_one uf with h | h <;> rw [h] <;> rfl
    have hflip : BitVec.ofNat 32 (signBit (!decide (sign uf = 1)) + magnitude uf) =
        uf ^^^ (1 : Word) <<< 31 := by
      rw [hsign, ← toNat_xor_sign]
      exact BitVec.ofNat_toNat 32 _ ▸ BitVec.setWidth_eq _
    rw [u2f] at h ⊢
    split_ifs at h ⊢ with he hf
    · rw [magnitude_of_infinity he hf] at hflip
      exact hflip.symm
    · exact absurd rfl h
    · show _ = BitVec.ofNat 32 (_ + nearest 23 (scaled 23 (magnitude uf)))
      rw [nearest_scaled]
      exact hflip.symm

/-! ### `float_twice` -/

theorem sign_magnitude_ofNat {s m : ℕ} (hs : s < 2) (hm : m < 2 ^ 31) :
    sign (BitVec.ofNat 32 (2 ^ 31 * s + m)) = s ∧
      magnitude (BitVec.ofNat 32 (2 ^ 31 * s + m)) = m := by
  rw [sign, magnitude, BitVec.toNat_ofNat, Nat.mod_eq_of_lt (by omega)]
  omega

theorem f2u_infinity (uf : Word) :
    sign (f2u (.infinity (sign uf = 1))) = sign uf ∧
      magnitude (f2u (.infinity (sign uf = 1))) = 255 * 2 ^ 23 := by
  rw [f2u, signBit_sign]
  exact sign_magnitude_ofNat (sign_lt uf) (by decide)

/-- **`test_float_twice` computes the double.** -/
theorem doubled_testFloatTwice (uf : Word) : Doubled uf (testFloatTwice uf) := by
  have hmag := magnitude_eq uf
  have hfrac := fraction_lt uf
  have hexp := exponent_lt uf
  rw [testFloatTwice]
  by_cases he : exponent uf = 255
  · -- An infinity or a NaN is its own double.
    have hsame : (if u2f uf = .nan then uf else f2u (u2f uf).twice) = uf := by
      by_cases hf : fraction uf = 0
      · have hinf : u2f uf = .infinity (sign uf = 1) := by rw [u2f, if_pos he, if_pos hf]
        have hback : f2u (u2f uf) = uf := f2u_u2f (by rw [hinf]; exact Single.noConfusion)
        rw [hinf] at hback ⊢
        exact hback
      · rw [if_pos (u2f_eq_nan_iff.mpr ⟨he, hf⟩)]
    show Doubled uf (if u2f uf = .nan then uf else f2u (u2f uf).twice)
    rw [hsame]
    exact ⟨rfl, by omega, by omega, by omega, fun _ ↦ rfl⟩
  · have hfinite : u2f uf = .finite (sign uf = 1) (scaled 23 (magnitude uf)) := by
      rw [u2f, if_neg he]
    have hdouble : ∃ m, 2 * scaled 23 (magnitude uf) = scaled 23 m ∧
        m = if magnitude uf < 2 ^ 23 then 2 * magnitude uf else magnitude uf + 2 ^ 23 :=
      ⟨_, (scaled_eq_two_mul_iff.mpr rfl).symm, rfl⟩
    obtain ⟨m, hm, hmeq⟩ := hdouble
    rw [hfinite]
    show Doubled uf (f2u (Single.round (sign uf = 1) (2 * scaled 23 (magnitude uf))))
    rw [hm, Single.round, nearest_scaled]
    by_cases hlast : exponent uf = 254
    · rw [if_neg (by rw [hmeq]; split_ifs <;> omega), doubled_iff_infinity hlast]
      exact f2u_infinity uf
    · have hlt : m < 255 * 2 ^ 23 := by
        rw [hmeq]
        split_ifs <;> omega
      rw [if_pos hlt, doubled_iff_scaled (by omega), f2u, nearest_scaled, signBit_sign, hm]
      obtain ⟨hs, hm'⟩ := sign_magnitude_ofNat (sign_lt uf) (show m < 2 ^ 31 by omega)
      exact ⟨hs, by rw [hm']⟩

/-! ### `float_i2f` -/

/-- A number whose pattern is the number itself is zero. -/
theorem scaled_div_ne {m : ℕ} (hm : 0 < m) : scaled 23 m / 2 ^ 149 ≠ m := by
  intro h
  by_cases hden : m < 2 ^ 23
  · rw [scaled_of_lt hden] at h
    omega
  obtain ⟨e, f, hf, rfl⟩ := exists_normal (Nat.not_lt.1 hden)
  rw [scaled_normal hf] at h
  rcases Nat.lt_or_ge e 149 with he | he
  · -- Less than `2 ^ 23`, and the pattern of a normal number is more.
    have hsmall : (2 ^ 23 + f) * 2 ^ e < 2 ^ 23 * 2 ^ 149 := by
      have hpow : 2 ^ e ≤ 2 ^ 148 := Nat.pow_le_pow_right (by decide) (by omega)
      calc (2 ^ 23 + f) * 2 ^ e ≤ (2 ^ 23 + f) * 2 ^ 148 := Nat.mul_le_mul_left _ hpow
        _ < 2 ^ 23 * 2 ^ 149 := by omega
    have hquot := (Nat.div_lt_iff_lt_mul (Nat.two_pow_pos 149)).mpr hsmall
    omega
  · obtain ⟨d, rfl⟩ := Nat.exists_eq_add_of_le he
    rw [Nat.pow_add, Nat.mul_left_comm, Nat.mul_div_cancel_left _ (Nat.two_pow_pos 149)] at h
    rcases Nat.lt_or_ge d 8 with hd | hd
    · -- Below `2 ^ 30` up to `d = 6`. At `d = 7`, 127 would divide `29 * 2 ^ 23`.
      rcases (by omega : d = 7 ∨ d ≤ 6) with rfl | hd
      · omega
      · have hpow : 2 ^ d ≤ 2 ^ 6 := Nat.pow_le_pow_right (by decide) hd
        have hle : (2 ^ 23 + f) * 2 ^ d ≤ (2 ^ 23 + f) * 2 ^ 6 := Nat.mul_le_mul_left _ hpow
        omega
    · obtain ⟨c, rfl⟩ := Nat.exists_eq_add_of_le hd
      have hpow : c + 1 ≤ 2 ^ c := Nat.lt_two_pow_self
      have hle : 2 ^ 23 * (2 ^ 8 * (c + 1)) ≤ (2 ^ 23 + f) * 2 ^ (8 + c) := by
        rw [Nat.pow_add 2 8]
        exact Nat.mul_le_mul (by omega) (Nat.mul_le_mul_left _ hpow)
      omega

/-- The conversion of an integer is finite. Its magnitude is between those of 1 and `2 ^ 31`,
unless the integer is zero. -/
theorem ofInt_eq (x : Word) :
    ∃ m, Single.ofInt x.toInt = .finite (x.toInt < 0) (scaled 23 m) ∧ m ≤ 158 * 2 ^ 23 ∧
      (x.toInt = 0 → m = 0) ∧ (x.toInt ≠ 0 → 127 * 2 ^ 23 ≤ m) := by
  obtain ⟨hlo, hhi⟩ := toInt_bounds x
  have hone : scaled 23 (127 * 2 ^ 23) = 2 ^ 149 := by decide +kernel
  have hmax : scaled 23 (158 * 2 ^ 23) = 2 ^ 31 * 2 ^ 149 := by decide +kernel
  have hle : nearest 23 (x.toInt.natAbs * 2 ^ 149) ≤ 158 * 2 ^ 23 := by
    refine nearest_le ?_
    rw [hmax]
    exact Nat.mul_le_mul_right _ (by omega)
  refine ⟨_, if_pos (by omega), hle, fun hx ↦ ?_, fun hx ↦ le_nearest ?_⟩
  · rw [hx]
    decide +kernel
  · rw [hone]
    exact Nat.le_mul_of_pos_left _ (by omega)

/-- **`float_i2f` is right about zero only.** A positive number is never its own pattern. Of a
negative one C leaves the result open. -/
theorem floatI2f_eq_iff (outOfRange : Single → Word) (x : Word) :
    floatI2f outOfRange x = testFloatI2f x ↔ x = 0 ∨
      x.toInt < 0 ∧ outOfRange (.ofInt x.toInt) = testFloatI2f x := by
  obtain ⟨m, hm, hle, hzero, hpos⟩ := ofInt_eq x
  have hone : scaled 23 (127 * 2 ^ 23) = 2 ^ 149 := by decide +kernel
  have hmax : scaled 23 (158 * 2 ^ 23) = 2 ^ 31 * 2 ^ 149 := by decide +kernel
  have hquot : scaled 23 m / 2 ^ 149 ≤ 2 ^ 31 := by
    have hmono := (scaled_strictMono 23).monotone hle
    rw [hmax] at hmono
    exact (Nat.div_le_iff_le_mul_add_pred (Nat.two_pow_pos _)).mpr (by omega)
  have hx0 : x = 0 ↔ x.toInt = 0 := by
    rw [← BitVec.toInt_inj, show (0 : Word).toInt = 0 from rfl]
  rw [floatI2f, testFloatI2f, hx0]
  show (Single.ofInt x.toInt).toUnsigned outOfRange = f2u (Single.ofInt x.toInt) ↔ _
  rcases lt_trichotomy x.toInt 0 with hx | hx | hx
  · -- The value is at most `-1`, so the conversion back is out of range.
    have hne : scaled 23 m / 2 ^ 149 ≠ 0 := by
      have hmono := (scaled_strictMono 23).monotone (hpos hx.ne)
      rw [hone] at hmono
      exact (Nat.div_pos hmono (Nat.two_pow_pos _)).ne'
    have hback : (Single.ofInt x.toInt).toUnsigned outOfRange = outOfRange (.ofInt x.toInt) := by
      rw [hm, decide_eq_true hx]
      exact if_neg fun h ↦ hne (h.2.resolve_left (by decide))
    rw [hback]
    simp [hx, hx.ne]
  · refine iff_of_true ?_ (Or.inl hx)
    have hnone : nearest 23 0 = 0 := by decide +kernel
    rw [hm, hzero hx, hx, scaled_of_lt (by decide)]
    have hback : (Single.finite false 0).toUnsigned outOfRange = 0 := by
      simp [Single.toUnsigned]
    show (Single.finite false 0).toUnsigned outOfRange = BitVec.ofNat 32 (0 + nearest 23 0)
    rw [hback, hnone]
    rfl
  · refine iff_of_false ?_ (by omega)
    have hback : (Single.ofInt x.toInt).toUnsigned outOfRange =
        BitVec.ofNat 32 (scaled 23 m / 2 ^ 149) := by
      rw [hm, decide_eq_false (by omega)]
      exact if_pos ⟨by omega, Or.inl rfl⟩
    have hpattern : f2u (Single.ofInt x.toInt) = BitVec.ofNat 32 m := by
      rw [hm, decide_eq_false (by omega), f2u, nearest_scaled]
      show BitVec.ofNat 32 (0 + m) = _
      rw [Nat.zero_add]
    rw [hback, hpattern, ← BitVec.toNat_inj, BitVec.toNat_ofNat, BitVec.toNat_ofNat,
      Nat.mod_eq_of_lt (by omega), Nat.mod_eq_of_lt (by omega)]
    have hge := hpos hx.ne'
    exact scaled_div_ne (by omega)

/-- **The puzzles about patterns.** On every pattern `float_neg` is the negation of its test, and
the test of `float_twice` computes the one double. `float_i2f` is right about zero only, where C
does not leave its result open. -/
theorem floatPuzzles_spec (outOfRange : Single → Word) :
    (∀ uf, floatNeg uf = testFloatNeg uf) ∧ (∀ uf, Doubled uf (testFloatTwice uf)) ∧
      ∀ x, floatI2f outOfRange x = testFloatI2f x ↔ x = 0 ∨
        x.toInt < 0 ∧ outOfRange (.ofInt x.toInt) = testFloatI2f x :=
  ⟨floatNeg_agrees, doubled_testFloatTwice, floatI2f_eq_iff outOfRange⟩

end CsappCode.DataLab
