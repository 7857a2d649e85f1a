import CsappCode.CacheLab.Refinement

/-!
# The geometries that `process` can serve

`process_help` lets a cache of one set through, `s = 0`, and `init_cache` builds it. But `process`
makes the mask for the set index by shifting a 64-bit constant by `64 - s`, which is then the whole
width of the operand.

* `AdmittedGeometry` are the geometries that are let through and lie within an `int` address.
* `decompose_isSome_iff` lists the three shifts, each with the width of its operand.
* `decompose_in_range_iff` says that on the geometries let through the decomposition is defined and
  in range just for `s ≠ 0`.
* `fullyAssociative_not_served` is one that is let through and not served.

## What is assumed

A shift by the width of the operand is undefined in C, and so here. A machine that shifts by zero
then makes a mask of all bits, and the set index is the whole block number.

The bounds on `s` and `b` are those of the address: with more bits than an `int` has there is no
decomposition to speak of. Within them the equivalence is for every geometry and every address, and
it needs nothing of the cache but its number of sets.
-/

namespace CsappCode.CacheLab

/-- The geometries let through whose sets and blocks lie within an `int` address. -/
structure AdmittedGeometry extends Arguments where
  s_le : s ≤ 30
  sum_le : s + b ≤ 31
  one_le_E : 1 ≤ E

/-- **The shifts of `process`**, each by less than the width of its operand. -/
theorem decompose_isSome_iff (args : Arguments) (address : BitVec 32) :
    (decompose args address).isSome ↔ args.b < 32 ∧ 64 - args.s < 64 ∧ args.s < 32 := by
  rw [decompose, sshr?, ushr?]
  split_ifs with hb hs
  · rw [Option.bind_eq_bind, Option.bind_some, Option.bind_eq_bind, Option.bind_some, sshr?]
    split_ifs with hs'
    · simp [hb, hs, hs']
    · simp [hs']
  · simp [hs]
  · simp [hb]
  · simp [hb]

/-- **Exactly which geometries are served.** Every shift is defined, and the set index is one of a
set that `init_cache` has allocated, just if there is more than one set. -/
theorem decompose_in_range_iff (A : AdmittedGeometry) (address : BitVec 32) :
    (∃ setIndex tagBits, decompose A.toArguments address = some (setIndex, tagBits) ∧
        0 ≤ setIndex.toInt ∧ setIndex.toInt < (initCache A.toArguments).length) ↔ A.s ≠ 0 := by
  refine ⟨fun h hs ↦ ?_, fun hs ↦ ?_⟩
  · obtain ⟨setIndex, tagBits, hdec, -⟩ := h
    have hdefined := (decompose_isSome_iff A.toArguments address).1 (by rw [hdec]; rfl)
    omega
  · let G : Geometry := ⟨A.toArguments, Nat.one_le_iff_ne_zero.2 hs, A.s_le, A.sum_le, A.one_le_E⟩
    obtain ⟨setIndex, tagBits, hdec, hset, -⟩ := decompose_eq G address
    have hlt : setIndex.toNat < 2 ^ A.s := place_fst_lt G _ hset
    have hpow : 2 ^ A.s ≤ 2 ^ 30 := Nat.pow_le_pow_right (by decide) A.s_le
    have hint : setIndex.toInt = setIndex.toNat := BitVec.toInt_eq_toNat_of_lt (by omega)
    refine ⟨setIndex, tagBits, hdec, ?_, ?_⟩
    · rw [hint]
      exact Int.natCast_nonneg _
    · rw [hint, initCache, List.length_replicate]
      exact_mod_cast hlt

/-- The fully associative cache of two lines, with blocks of one byte. -/
def fullyAssociative : AdmittedGeometry where
  s := 0
  E := 2
  b := 0
  s_le := by decide
  sum_le := by decide
  one_le_E := Nat.succ_le_succ (Nat.zero_le 1)

/-- **A cache of one set is let through and not served.** -/
theorem fullyAssociative_not_served :
    ¬ ∀ (A : AdmittedGeometry) (address : BitVec 32), ∃ setIndex tagBits,
      decompose A.toArguments address = some (setIndex, tagBits) ∧
        0 ≤ setIndex.toInt ∧ setIndex.toInt < (initCache A.toArguments).length := by
  intro h
  obtain ⟨setIndex, tagBits, hdec, -⟩ := h fullyAssociative 0
  have hnone : decompose fullyAssociative.toArguments 0 = none := by decide
  exact absurd (hnone.symm.trans hdec) (by simp)

end CsappCode.CacheLab
