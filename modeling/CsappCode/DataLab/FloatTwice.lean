import CsappCode.Library.BinaryFormat
import CsappCode.DataLab.Words

/-!
# Doubling a float

`float_twice` should return the single-precision pattern of `2 * f`. It tests for a NaN, and returns
its argument on either branch of the test.

* `Doubled` says what the pattern of `2 * f` is, by the exponent field of the argument.
* `doubled_iff_scaled` says that a finite result is the one pattern of that sign with twice the
  magnitude, and `doubled_iff_infinity` is the case of an overflow.
* `existsUnique_doubled`: every pattern has one double.
* `floatTwice_doubled_iff` says that the function doubles zeros, infinities and NaNs only.

## What the statement rests on

**Magnitudes** are natural numbers, in units of the least denormal number. So doubling is exact on
denormals and on all normal numbers but those of the largest exponent, where the double is infinite.
No rounding is needed, because twice a single-precision number is one again or overflows.

**NaNs** are to be returned as they are. The comment of the puzzle asks for this, and it is the one
thing that the code does on purpose in both branches.

**Patterns** of 32 bits stand for themselves: `Doubled` relates two patterns, and no floating-point
arithmetic of the machine is used.
-/

namespace CsappCode.DataLab

open BinaryFormat

/-- `float_twice(uf)`. -/
def floatTwice (uf : Word) : Word :=
  let mask := (1 : Word) <<< 31
  let t := uf ||| mask
  let t := t.sshiftRight 23
  if uf <<< 9 ≠ 0 ∧ lnot (~~~t) ≠ 0 then uf
  else uf

/-! ### Single precision -/

/-- The sign bit. -/
def sign (uf : Word) : ℕ := uf.toNat / 2 ^ 31

/-- The eight bits of the exponent. -/
def exponent (uf : Word) : ℕ := uf.toNat / 2 ^ 23 % 2 ^ 8

/-- The 23 bits of the fraction. -/
def fraction (uf : Word) : ℕ := uf.toNat % 2 ^ 23

/-- The low 31 bits: the exponent and the fraction. -/
def magnitude (uf : Word) : ℕ := uf.toNat % 2 ^ 31

theorem magnitude_eq (uf : Word) : magnitude uf = 2 ^ 23 * exponent uf + fraction uf := by
  rw [magnitude, exponent, fraction]
  omega

theorem exponent_lt (uf : Word) : exponent uf < 256 := Nat.mod_lt _ (by decide)

theorem fraction_lt (uf : Word) : fraction uf < 2 ^ 23 := Nat.mod_lt _ (by decide)

/-- `r` is the pattern of twice what `uf` is the pattern of. -/
structure Doubled (uf r : Word) : Prop where
  /-- The sign stays. -/
  sign_eq : sign r = sign uf
  /-- A zero or a denormal is doubled as a number, which may carry into the exponent. -/
  denormal : exponent uf = 0 → magnitude r = 2 * magnitude uf
  /-- A normal pattern gets the next exponent. -/
  normal : 1 ≤ exponent uf → exponent uf ≤ 253 →
    exponent r = exponent uf + 1 ∧ fraction r = fraction uf
  /-- The last normal exponent overflows to the infinity. -/
  overflow : exponent uf = 254 → exponent r = 255 ∧ fraction r = 0
  /-- Infinities and NaNs stay. -/
  special : exponent uf = 255 → r = uf

theorem toNat_eq (uf : Word) : uf.toNat = 2 ^ 31 * sign uf + magnitude uf :=
  (Nat.div_add_mod _ _).symm

theorem sign_lt (uf : Word) : sign uf < 2 := Nat.div_lt_of_lt_mul uf.isLt

/-- A sign and a magnitude are those of one pattern. -/
theorem existsUnique_pattern {s m : ℕ} (hs : s < 2) (hm : m < 2 ^ 31) :
    ∃! r, sign r = s ∧ magnitude r = m := by
  have hnat : (BitVec.ofNat 32 (2 ^ 31 * s + m)).toNat = 2 ^ 31 * s + m := by
    rw [BitVec.toNat_ofNat, Nat.mod_eq_of_lt (by omega)]
  refine ⟨BitVec.ofNat 32 (2 ^ 31 * s + m), ⟨?_, ?_⟩, ?_⟩
  · rw [sign, hnat]
    omega
  · rw [magnitude, hnat]
    omega
  · intro r hr
    obtain ⟨rfl, rfl⟩ := hr
    exact BitVec.eq_of_toNat_eq ((toNat_eq r).trans hnat.symm)

/-- **A finite result**: the pattern of the same sign with twice the magnitude. -/
theorem doubled_iff_scaled {uf r : Word} (h : exponent uf ≤ 253) :
    Doubled uf r ↔ sign r = sign uf ∧
      scaled 23 (magnitude r) = 2 * scaled 23 (magnitude uf) := by
  have hmag := magnitude_eq uf
  have hmag' := magnitude_eq r
  have hlt := fraction_lt uf
  have hlt' := fraction_lt r
  rw [scaled_eq_two_mul_iff]
  constructor
  · intro hd
    refine ⟨hd.sign_eq, ?_⟩
    rcases Nat.eq_zero_or_pos (exponent uf) with hzero | hpos
    · rw [if_pos (by omega)]
      exact hd.denormal hzero
    · obtain ⟨hexp, hfrac⟩ := hd.normal hpos h
      rw [if_neg (by omega)]
      omega
  · intro hr
    obtain ⟨hs, hm⟩ := hr
    refine ⟨hs, fun hzero ↦ ?_, fun hpos _ ↦ ?_, by omega, by omega⟩
    · rwa [if_pos (by omega)] at hm
    · rw [if_neg (by omega)] at hm
      omega

/-- **An overflow**: the infinity of the same sign. -/
theorem doubled_iff_infinity {uf r : Word} (h : exponent uf = 254) :
    Doubled uf r ↔ sign r = sign uf ∧ magnitude r = 255 * 2 ^ 23 := by
  have hmag := magnitude_eq r
  have hlt := fraction_lt r
  constructor
  · intro hd
    obtain ⟨hexp, hfrac⟩ := hd.overflow h
    exact ⟨hd.sign_eq, by omega⟩
  · intro hr
    obtain ⟨hs, hm⟩ := hr
    exact ⟨hs, by omega, by omega, fun _ ↦ by omega, by omega⟩

/-- **Every pattern has one double.** -/
theorem existsUnique_doubled (uf : Word) : ∃! r, Doubled uf r := by
  have hmag := magnitude_eq uf
  have hlt := fraction_lt uf
  have hexp := exponent_lt uf
  by_cases hfinite : exponent uf ≤ 253
  · simp only [doubled_iff_scaled hfinite, scaled_eq_two_mul_iff]
    refine existsUnique_pattern (sign_lt uf) ?_
    split_ifs <;> omega
  by_cases hover : exponent uf = 254
  · simp only [doubled_iff_infinity hover]
    exact existsUnique_pattern (sign_lt uf) (by decide)
  · exact ⟨uf, ⟨rfl, by omega, by omega, by omega, fun _ ↦ rfl⟩,
      fun r hr ↦ hr.special (by omega)⟩

/-! ### The function -/

/-- Both branches return the argument. -/
theorem floatTwice_eq (uf : Word) : floatTwice uf = uf := ite_self uf

/-- **`float_twice` doubles no pattern but those that are their own double**: it returns the pattern
of `2 * f` just for infinities, NaNs and the two zeros. -/
theorem floatTwice_doubled_iff (uf : Word) :
    Doubled uf (floatTwice uf) ↔ exponent uf = 255 ∨ magnitude uf = 0 := by
  rw [floatTwice_eq]
  have hlt := exponent_lt uf
  have hmag := magnitude_eq uf
  constructor
  · intro h
    rcases Nat.eq_zero_or_pos (exponent uf) with hzero | hpos
    · have hdouble := h.denormal hzero
      omega
    · by_contra hno
      by_cases hnormal : exponent uf ≤ 253
      · have hnext := (h.normal hpos hnormal).1
        omega
      · have hinf := (h.overflow (by omega)).1
        omega
  · intro h
    exact ⟨rfl, by omega, by omega, by omega, fun _ ↦ rfl⟩

/-- The least normal pattern is not doubled. -/
theorem floatTwice_wrong : ¬ Doubled 0x00800000 (floatTwice 0x00800000) := fun h ↦
  absurd (h.normal (by decide) (by decide)).1 (by decide)

end CsappCode.DataLab
