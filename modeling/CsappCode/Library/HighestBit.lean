import Mathlib.Data.Nat.Bitwise

/-!
# The highest one bit

A binary search for the highest one bit of a number: where something is left of the number behind
half of the window, the search goes on there, else in the lower half.

* `IsHighestBit` says of a bit that it is one, and that all bits above it are zero.
* `IsHighestBit.unique`: there is one such bit, and `IsHighestBit.of_shiftRight` finds it behind a
  shift.
* `search` is the search, in a window of `2 ^ k` bits.
* `search_isHighestBit` says that the search finds the bit.

## What is assumed

The number is not zero and fits the window. The search itself asks neither: on zero it comes to the
lowest position, and of a number that is too large it looks at the window only.

The window has a power of two for its size, and each turn halves it, so that there are `k` turns. A
search that unrolls its turns, as branch-free code does, computes the same thing stage by stage:
`search` adds up the halves that it goes up, from the largest to the smallest, in that order.

Nothing here depends on a word size.
-/

namespace HighestBit

/-- Bit `k` is the highest one bit of `x`. -/
def IsHighestBit (x k : ℕ) : Prop := x.testBit k = true ∧ ∀ j, k < j → x.testBit j = false

theorem IsHighestBit.unique {x k l : ℕ} (hk : IsHighestBit x k) (hl : IsHighestBit x l) :
    k = l := by
  rcases Nat.lt_trichotomy k l with hlt | heq | hlt
  · exact absurd (hk.2 l hlt) (Bool.not_eq_false _ ▸ hl.1)
  · exact heq
  · exact absurd (hl.2 k hlt) (Bool.not_eq_false _ ▸ hk.1)

/-- The highest bit behind a shift. -/
theorem IsHighestBit.of_shiftRight {x s k : ℕ} (h : IsHighestBit (x >>> s) k) :
    IsHighestBit x (s + k) := by
  refine ⟨by rw [← Nat.testBit_shiftRight]; exact h.1, fun j hj ↦ ?_⟩
  have hrest := h.2 (j - s) (by omega)
  rwa [Nat.testBit_shiftRight, Nat.add_sub_cancel' (by omega)] at hrest

/-- A highest bit is at most a bound of the bits. -/
theorem IsHighestBit.lt {x k n : ℕ} (h : IsHighestBit x k) (hx : x < 2 ^ n) : k < n := by
  by_contra hk
  have hzero : x.testBit k = false :=
    Nat.testBit_lt_two_pow (Nat.lt_of_lt_of_le hx (Nat.pow_le_pow_right Nat.two_pos (by omega)))
  rw [h.1] at hzero
  exact Bool.noConfusion hzero

/-- A search in a window of `2 ^ k` bits. -/
def search : ℕ → ℕ → ℕ
  | 0, _ => 0
  | k + 1, x => if x >>> 2 ^ k = 0 then search k x else 2 ^ k + search k (x >>> 2 ^ k)

/-- **The search finds the highest one bit.** -/
theorem search_isHighestBit {k : ℕ} : ∀ {x : ℕ}, 0 < x → x < 2 ^ 2 ^ k →
    IsHighestBit x (search k x) := by
  induction k with
  | zero =>
    intro x hpos hlt
    have hone : x = 1 := by
      rw [Nat.pow_zero, Nat.pow_one] at hlt
      omega
    rw [hone]
    exact ⟨rfl, fun j hj ↦ Nat.testBit_lt_two_pow (Nat.one_lt_two_pow (by omega))⟩
  | succ k ih =>
    intro x hpos hlt
    rw [search]
    split_ifs with h
    · refine ih hpos ?_
      rw [Nat.shiftRight_eq_div_pow] at h
      exact Nat.lt_of_div_eq_zero (Nat.two_pow_pos _) h
    · refine (ih (Nat.pos_of_ne_zero h) ?_).of_shiftRight
      rw [Nat.shiftRight_eq_div_pow, Nat.div_lt_iff_lt_mul (Nat.two_pow_pos _), ← Nat.pow_add,
        ← Nat.two_mul, ← Nat.pow_succ']
      exact hlt

end HighestBit
