import Mathlib.Data.BitVec
import Mathlib.Data.Int.ModEq
import Mathlib.Data.List.Range

/-!
# Rings indexed by a counter that wraps

A ring of `n` slots is often indexed by a counter that is only ever incremented, taken modulo `n`
when it is used. In signed machine integers of `w` bits the counter wraps, and the remainder of a
negative number is not positive. `lastCount` is the last count up to which the index is the one
meant: `2 ^ (w - 1)` if `n` divides that, and one less otherwise.

* `slot_ofNat` says that up to there the index is the count modulo `n`.
* `inside_slots_iff` says that a ring with more than one slot is left after that.

## What is assumed

**Wrapping.** Signed overflow is undefined in C, and wraps here. So the results on large counts are
about machines and compilers on which it does; up to `lastCount` no sum overflows but the very last,
and they hold everywhere.

**The remainder** is that of C: it has the sign of the dividend. With a remainder that is never
negative, the counter would stay in the ring and only the order of the slots would break, unless the
size divides the range of the counter.

**The size** is a positive machine integer of the same width. One slot is a case of its own, because
every number is congruent to zero then.
-/

namespace WrappingRing

variable {w : ℕ}

/-- The slot for a counter: the truncated remainder, read as a signed integer. -/
def slot (n c : BitVec w) : ℤ := (c.srem n).toInt

/-- The last count for which the slot is right. -/
def lastCount (n : BitVec w) : ℕ :=
  if n.toInt ∣ 2 ^ (w - 1) then 2 ^ (w - 1) else 2 ^ (w - 1) - 1

theorem slot_eq_tmod (n c : BitVec w) : slot n c = c.toInt.tmod n.toInt := BitVec.toInt_srem c n

/-! ### Counters as integers -/

/-- Below half of the range the counter is the count. -/
theorem toInt_ofNat_of_lt {k : ℕ} (hk : 2 * k < 2 ^ w) : (BitVec.ofNat w k).toInt = k := by
  rw [BitVec.toInt_ofNat']
  have hcast : (2 * k : ℤ) < (2 ^ w : ℕ) := by exact_mod_cast hk
  exact Int.bmod_eq_of_le_mul_two (by omega) (by omega)

/-- In the other half it is negative. -/
theorem toInt_ofNat_of_le {k : ℕ} (hle : 2 ^ w ≤ 2 * k) (hlt : k < 2 ^ w) :
    (BitVec.ofNat w k).toInt = k - 2 ^ w := by
  rw [BitVec.toInt_eq_toNat_cond, BitVec.toNat_ofNat, Nat.mod_eq_of_lt hlt, if_neg (by omega)]
  push_cast
  rfl

/-- A positive number has a sign bit and a bit besides. -/
theorem two_le_width {n : BitVec w} (hn : 0 < n.toInt) : 2 ≤ w := by
  have hlt := BitVec.toInt_lt (x := n)
  by_contra hw
  obtain rfl | rfl : w = 0 ∨ w = 1 := by omega
  · rw [Nat.zero_sub, pow_zero] at hlt
    omega
  · rw [Nat.sub_self, pow_zero] at hlt
    omega

/-- The range is twice its half, which is even. -/
theorem exists_half (hw : 2 ≤ w) : ∃ m : ℕ, 0 < m ∧ 2 ^ (w - 1) = 2 * m ∧ 2 ^ w = 4 * m := by
  obtain ⟨v, rfl⟩ := Nat.exists_eq_add_of_le' hw
  refine ⟨2 ^ v, Nat.two_pow_pos v, ?_, ?_⟩
  · rw [Nat.add_sub_assoc (by decide), pow_succ, mul_comm]
  · rw [pow_add, mul_comm]
    rfl

theorem range_eq_half_add_half (hw : 2 ≤ w) : (2 : ℤ) ^ w = 2 ^ (w - 1) + 2 ^ (w - 1) := by
  obtain ⟨m, -, hhalf, hrange⟩ := exists_half hw
  have heq : 2 ^ w = 2 ^ (w - 1) + 2 ^ (w - 1) := by omega
  exact_mod_cast heq

/-! ### The slot of a count -/

variable {n : BitVec w}

/-- **Up to the last count the slot is the count modulo the size.** With one slot it always is. -/
theorem slot_ofNat (hn : 0 < n.toInt) {k : ℕ} (hk : n.toInt = 1 ∨ k ≤ lastCount n) :
    slot n (BitVec.ofNat w k) = k % n.toInt := by
  rw [slot_eq_tmod]
  by_cases hone : n.toInt = 1
  · rw [hone, Int.tmod_one, Int.emod_one]
  have hle : k ≤ lastCount n := hk.resolve_left hone
  obtain ⟨m, hpos, hhalf, hrange⟩ := exists_half (two_le_width hn)
  by_cases hlt : k < 2 ^ (w - 1)
  · rw [toInt_ofNat_of_lt (by omega), Int.tmod_eq_emod_of_nonneg (by omega)]
  · -- the one count that is negative as an integer, and is still right
    rw [lastCount] at hle
    split_ifs at hle with hdvd
    · have heq : (k : ℤ) = 2 ^ (w - 1) := by
        have heq : k = 2 ^ (w - 1) := by omega
        exact_mod_cast heq
      have hneg : (BitVec.ofNat w k).toInt = -2 ^ (w - 1) := by
        rw [toInt_ofNat_of_le (by omega) (by omega), heq,
          range_eq_half_add_half (two_le_width hn)]
        omega
      rw [hneg, heq, Int.tmod_eq_zero_of_dvd (Int.dvd_neg.2 hdvd), Int.emod_eq_zero_of_dvd hdvd]
    · omega

/-- A slot is inside the ring just if the counter is not negative, or a multiple of the size. -/
theorem slot_nonneg_iff (n c : BitVec w) :
    0 ≤ slot n c ↔ 0 ≤ c.toInt ∨ n.toInt ∣ c.toInt := by
  rw [slot_eq_tmod]
  constructor
  · intro h
    by_contra hnot
    push Not at hnot
    obtain ⟨hneg, hdvd⟩ := hnot
    have hopp : (-c.toInt).tmod n.toInt = -c.toInt.tmod n.toInt := Int.neg_tmod ..
    have hopp' := Int.tmod_nonneg n.toInt (show 0 ≤ -c.toInt by omega)
    exact hdvd (Int.dvd_of_tmod_eq_zero (by omega))
  · rintro (h | h)
    · exact Int.tmod_nonneg _ h
    · rw [Int.tmod_eq_zero_of_dvd h]

/-- Behind the last count comes one whose slot is negative. -/
theorem exists_slot_neg (hn : 0 < n.toInt) (hone : n.toInt ≠ 1) :
    slot n (BitVec.ofNat w (lastCount n + 1)) < 0 := by
  obtain ⟨m, hpos, hhalf, hrange⟩ := exists_half (two_le_width hn)
  have hcast := range_eq_half_add_half (two_le_width hn)
  have hhalf' : (2 : ℤ) ^ (w - 1) = 2 * m := by exact_mod_cast hhalf
  by_contra hnonneg
  rw [not_lt, slot_nonneg_iff, lastCount] at hnonneg
  split_ifs at hnonneg with hdvd
  · rw [toInt_ofNat_of_le (by omega) (by omega)] at hnonneg
    push_cast at hnonneg
    obtain hle | hmul := hnonneg
    · omega
    · -- it divides the half and its successor
      have hsum : n.toInt ∣ 1 := by
        have : (1 : ℤ) = 2 ^ (w - 1) + (2 ^ (w - 1) + 1 - 2 ^ w) := by omega
        rw [this]
        exact Int.dvd_add hdvd hmul
      exact hone (Int.eq_one_of_dvd_one hn.le hsum)
  · rw [Nat.sub_add_cancel (by omega), toInt_ofNat_of_le (by omega) (by omega)] at hnonneg
    push_cast at hnonneg
    obtain hle | hmul := hnonneg
    · omega
    · refine hdvd (Int.dvd_neg.1 ?_)
      have : -(2 : ℤ) ^ (w - 1) = 2 ^ (w - 1) - 2 ^ w := by omega
      rwa [this]

/-! ### The slots visited -/

/-- The slots for the counts `1` to `k`. -/
def slots (n : BitVec w) (k : ℕ) : List ℤ :=
  (List.range k).map fun j ↦ slot n (BitVec.ofNat w (j + 1))

theorem slots_succ (n : BitVec w) (k : ℕ) :
    slots n (k + 1) = slots n k ++ [slot n (BitVec.ofNat w (k + 1))] := by
  rw [slots, List.range_succ, List.map_append]
  rfl

/-- **The counter stays in the ring** just up to the last count, or if there is only one slot. -/
theorem inside_slots_iff (hn : 0 < n.toInt) (k : ℕ) :
    (∀ i ∈ slots n k, 0 ≤ i ∧ i < n.toInt) ↔ n.toInt = 1 ∨ k ≤ lastCount n := by
  simp only [slots, List.forall_mem_map, List.mem_range]
  constructor
  · intro h
    by_contra hnot
    push Not at hnot
    have hneg := exists_slot_neg hn hnot.1
    have := (h (lastCount n) hnot.2).1
    omega
  · intro h j hj
    rw [slot_ofNat hn (h.imp_right fun hle ↦ by omega)]
    exact ⟨Int.emod_nonneg _ hn.ne', Int.emod_lt_of_pos _ hn⟩

/-- And up to there it goes round. -/
theorem isChain_slots (hn : 0 < n.toInt) {k : ℕ} (hk : n.toInt = 1 ∨ k ≤ lastCount n) :
    (slots n k).IsChain fun i j ↦ j = (i + 1) % n.toInt := by
  rw [slots, List.isChain_map, List.isChain_range]
  intro j hj
  rw [slot_ofNat hn (hk.imp_right fun hle ↦ by omega),
    slot_ofNat hn (hk.imp_right fun hle ↦ by omega), Int.emod_add_emod]
  push_cast
  rfl

end WrappingRing
