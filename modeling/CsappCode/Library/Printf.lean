import CsappCode.Library.Scanf
import Mathlib.Data.Nat.Digits.Lemmas
import Mathlib.Data.List.TakeWhile

/-!
# Printing integers

The conversions `%d` and `%u`, and how the numerals they write are read back.

* `unsigned` is a number in a base, without leading zeros. `numeral_unsigned` says that it is a
  numeral of the number, and `length_unsigned_le` how long it gets.
* `signed` is `%d`. `readInteger_signed` reads it back, at the end of a string or in front of a
  character that does not continue it.

## How it is used

**Round trips.** A program that prints a number and another one that scans it agree on it just if
the scanner stops where the printer did. So the reading lemmas have a condition on what follows:
nothing, or a character that is no digit of the base.

**Buffers.** A printed number has to fit the array it is printed to. `length_unsigned_le` bounds the
number of digits by the size of the number; a caller adds the sign and the text around it.

**Integers of any size** can be printed here. The range of a machine integer is a hypothesis where
it matters, on the reading side: a scanner that stores into a variable may cut or refuse, and that
is the business of `Scanf`.

**Field widths, flags and precisions** are left out, for no conversion with them is used.
-/

namespace Printf

open Scanf

/-- The bytes of a text. -/
def bytes (s : String) : List UInt8 := s.toList.map fun c ↦ UInt8.ofNat c.toNat

/-- A number in a base. -/
def unsigned (base n : ℕ) : List UInt8 :=
  (if n = 0 then [0] else (base.digits n).reverse).map digitChar

/-- `%d`. -/
def signed (v : ℤ) : List UInt8 :=
  if v < 0 then 45 :: unsigned 10 v.natAbs else unsigned 10 v.natAbs

/-- A list of digits, the most significant one first. -/
theorem numeral_map_digitChar {base : ℕ} (hbase : base ≤ 36) {ds : List ℕ}
    (hds : ∀ d ∈ ds, d < base) :
    numeral base (ds.map digitChar) = Nat.ofDigits base ds.reverse := by
  rw [numeral, List.foldl_map, Nat.ofDigits_eq_foldr, List.foldr_reverse]
  have key : ∀ n : ℕ, ds.foldl (fun n d ↦ n * base + (digitValue (digitChar d)).getD 0) n =
      ds.foldl (fun n d ↦ (d : ℕ) + base * n) n := by
    induction ds with
    | nil => exact fun _ ↦ rfl
    | cons d ds ih =>
      intro n
      have hd : d < base := hds d List.mem_cons_self
      rw [List.foldl_cons, List.foldl_cons, ih fun d' hd' ↦ hds d' (List.mem_cons_of_mem _ hd'),
        digitValue_digitChar d (hd.trans_le hbase), Option.getD_some, Nat.mul_comm, Nat.add_comm]
  exact key 0

/-- **What is printed is a numeral.** -/
theorem numeral_unsigned {base : ℕ} (htwo : 2 ≤ base) (hbase : base ≤ 36) (n : ℕ) :
    Numeral base n (unsigned base n) := by
  have hlt : ∀ d ∈ (if n = 0 then [0] else (base.digits n).reverse), d < base := by
    intro d hd
    split_ifs at hd
    · rw [List.mem_singleton.1 hd]
      omega
    · exact Nat.digits_lt_base htwo (List.mem_reverse.1 hd)
  refine ⟨?_, fun b hb ↦ ?_, ?_⟩
  · rw [unsigned]
    split_ifs with hn
    · simp
    · simpa using Nat.digits_ne_nil_iff_ne_zero.2 hn
  · obtain ⟨d, hd, rfl⟩ := List.mem_map.1 hb
    exact isDigit_digitChar hbase (hlt d hd)
  · rw [unsigned, numeral_map_digitChar hbase hlt]
    split_ifs with hn
    · rw [hn]
      rfl
    · rw [List.reverse_reverse, Nat.ofDigits_digits]

/-- A number below a power of the base has no more digits than the exponent, unless it is zero. -/
theorem length_unsigned_le {base n k : ℕ} (htwo : 2 ≤ base) (hk : 0 < k) (hn : n < base ^ k) :
    (unsigned base n).length ≤ k := by
  rw [unsigned, List.length_map]
  split_ifs with hzero
  · exact hk
  · rw [List.length_reverse]
    exact (Nat.digits_length_le_iff htwo n).2 hn

/-! ### Reading back -/

/-- Digits are read up to the end of the string. -/
theorem readDigits_numeral_nil {base n : ℕ} {ds : List UInt8} (hds : Numeral base n ds) :
    readDigits base ds = (some n, []) := by
  rw [readDigits, List.takeWhile_eq_self_iff.2 hds.digits, List.dropWhile_eq_nil_iff.2 hds.digits]
  simp only [if_neg hds.ne_nil, hds.value]

/-- What may follow a numeral: the end of the string, or a character that is no digit. -/
def Stops (rest : List UInt8) : Prop := ∀ b ∈ rest.head?, isDigit 10 b = false

theorem readDigits_unsigned {n : ℕ} {rest : List UInt8} (hrest : Stops rest) :
    readDigits 10 (unsigned 10 n ++ rest) = (some n, rest) := by
  have hds := numeral_unsigned (by decide : 2 ≤ 10) (by decide) n
  cases rest with
  | nil =>
    rw [List.append_nil]
    exact readDigits_numeral_nil hds
  | cons b rest => exact readDigits_numeral hds (hrest b rfl)

/-- **An integer is read back.** -/
theorem readInteger_signed (v : ℤ) {rest : List UInt8} (hrest : Stops rest) :
    readInteger 10 (signed v ++ rest) = (some v, rest) := by
  rw [signed]
  split_ifs with hneg
  · have hsign : readSign (45 :: unsigned 10 v.natAbs ++ rest) =
        (true, unsigned 10 v.natAbs ++ rest) := rfl
    rw [readInteger, hsign]
    dsimp only
    rw [if_neg (by decide), readDigits_unsigned hrest]
    show (some (-(v.natAbs : ℤ)), rest) = _
    rw [show -(v.natAbs : ℤ) = v by omega]
  · have hsign : readSign (unsigned 10 v.natAbs ++ rest) =
        (false, unsigned 10 v.natAbs ++ rest) := by
      have hds := numeral_unsigned (by decide : 2 ≤ 10) (by decide) v.natAbs
      obtain ⟨d, ds, hcons⟩ := List.exists_cons_of_ne_nil hds.ne_nil
      obtain ⟨hplus, hminus⟩ := not_sign_of_isDigit (hds.digits d (hcons ▸ List.mem_cons_self))
      rw [hcons, List.cons_append, readSign, if_neg hplus, if_neg hminus]
    rw [readInteger, hsign]
    dsimp only
    rw [if_neg (by decide), readDigits_unsigned hrest]
    show (some (v.natAbs : ℤ), rest) = _
    rw [show (v.natAbs : ℤ) = v by omega]

end Printf
