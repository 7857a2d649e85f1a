import CsappCode.Library.HighestBit
import CsappCode.DataLab.Words

/-!
# The logarithm

`ilog2` halves the window with the highest one bit five times. It adds to the local variable
`result`, which nothing sets before the first addition: the value that the variable happens to hold
is a parameter here.

* `stage_eq` is one stage, with the mask for the upper half of the window, and `stages_fst` all of
  them.
* `ilog2_eq_add` says that the function returns the position of the highest bit plus that value.
* `testIlog2Loop_eq` is the loop of the test, which walks down to the highest bit.
* `ilog2_iff_result_zero` says that the function returns the position just where the value is zero.
* `ilog2_wrong` is a value that makes it wrong.

## What is assumed

**The argument** is positive, as the comment of the puzzle says. Then no shift of the stages moves a
sign in, and the arithmetic shifts of the code are divisions.

**The unset variable** may hold anything. C leaves undefined what a read of it gives; taking it for
some fixed value is the reading most in favour of the code, and the function is wrong even so.

**The position of the highest bit** is `IsHighestBit`, from the library, which speaks of natural
numbers only.
-/

namespace CsappCode.DataLab

open HighestBit

/-- `ilog2(x)`, where `result` is what the local variable holds before its first assignment. -/
def ilog2 (result x : Word) : Word :=
  let flag := lnot (lnot (x.sshiftRight 16))
  let result := result + flag <<< 4
  let x := x.sshiftRight (flag <<< 4).toNat
  let flag := lnot (lnot (x.sshiftRight 8))
  let result := result + flag <<< 3
  let x := x.sshiftRight (flag <<< 3).toNat
  let flag := lnot (lnot (x.sshiftRight 4))
  let result := result + flag <<< 2
  let x := x.sshiftRight (flag <<< 2).toNat
  let flag := lnot (lnot (x.sshiftRight 2))
  let result := result + flag <<< 1
  let x := x.sshiftRight (flag <<< 1).toNat
  let flag := lnot (lnot (x.sshiftRight 1))
  let result := result + flag <<< 0
  -- Nothing reads the last assignment to `x`.
  result

/-- The loop of `test_ilog2` from `result` on. `none` stands for the shift by `-1`. -/
def testIlog2Loop (x : Word) : ℕ → Option Word
  | 0 => if x &&& (1 : Word) <<< 0 = 0 then none else some 0
  | result + 1 =>
    if x &&& (1 : Word) <<< (result + 1) = 0 then testIlog2Loop x result
    else some (BitVec.ofNat 32 (result + 1))

/-- `test_ilog2(x)`. -/
def testIlog2 (x : Word) : Option Word := testIlog2Loop x 31

/-! ### The stages -/

/-- One stage of `ilog2` on `result` and `x`. -/
def stage (k : ℕ) (p : Word × Word) : Word × Word :=
  let flag := lnot (lnot (p.2.sshiftRight (2 ^ k)))
  (p.1 + flag <<< k, p.2.sshiftRight (flag <<< k).toNat)

/-- The last `k` stages. -/
def stages : ℕ → Word × Word → Word × Word
  | 0, p => p
  | k + 1, p => stages k (stage k p)

theorem ilog2_eq_stages (result x : Word) : ilog2 result x = (stages 5 (result, x)).1 := rfl

/-- **One stage** tests the upper half of the window and keeps the half with the highest bit. -/
theorem stage_eq {k : ℕ} {result x : Word} (hk : k < 5) (hx : x.toNat < 2 ^ 31) :
    stage k (result, x) =
      if x.toNat >>> 2 ^ k = 0 then (result, x)
      else (result + BitVec.ofNat 32 (2 ^ k), x.sshiftRight (2 ^ k)) := by
  have hflag : x.sshiftRight (2 ^ k) = 0 ↔ x.toNat >>> 2 ^ k = 0 := by
    rw [← BitVec.toNat_inj, toNat_sshiftRight hx]
    rfl
  have hone : ((1 : Word) <<< k).toNat = 2 ^ k := toNat_one_shiftLeft (by omega)
  have hzero : (0 : Word) <<< k = 0 := BitVec.zero_shiftLeft k
  show (result + lnot (lnot (x.sshiftRight (2 ^ k))) <<< k,
    x.sshiftRight (lnot (lnot (x.sshiftRight (2 ^ k))) <<< k).toNat) = _
  rw [lnot_lnot]
  by_cases hnone : x.sshiftRight (2 ^ k) = 0
  · rw [if_pos hnone, if_pos (hflag.1 hnone), hzero]
    exact congrArg₂ _ (BitVec.add_zero result) BitVec.sshiftRight_zero
  · rw [if_neg hnone, if_neg (mt hflag.2 hnone), hone, ← hone, BitVec.ofNat_toNat,
      BitVec.setWidth_eq]

/-- **All stages** search for the highest bit. -/
theorem stages_fst {k : ℕ} (hk : k ≤ 5) : ∀ {result x : Word}, x.toNat < 2 ^ 31 →
    (stages k (result, x)).1 = result + BitVec.ofNat 32 (search k x.toNat) := by
  induction k with
  | zero => exact fun _ ↦ (BitVec.add_zero _).symm
  | succ k ih =>
    intro result x hx
    rw [stages, stage_eq (by omega) hx, search]
    split_ifs with h
    · exact ih (by omega) hx
    · have hshift : (x.sshiftRight (2 ^ k)).toNat = x.toNat >>> 2 ^ k := toNat_sshiftRight hx _
      rw [ih (by omega), hshift, BitVec.ofNat_add, BitVec.add_assoc]
      rw [hshift, Nat.shiftRight_eq_div_pow]
      exact Nat.lt_of_le_of_lt (Nat.div_le_self _ _) hx

theorem toNat_pos_lt {x : Word} (hx : 0 < x.toInt) : 0 < x.toNat ∧ x.toNat < 2 ^ 31 := by
  rw [BitVec.toInt_eq_toNat_cond] at hx
  split_ifs at hx <;> omega

/-- **The position of the highest bit plus what the variable held.** -/
theorem ilog2_eq_add {x : Word} (hx : 0 < x.toInt) : ∃ k < 31, IsHighestBit x.toNat k ∧
    ∀ result, ilog2 result x = result + BitVec.ofNat 32 k := by
  obtain ⟨hpos, hlt⟩ := toNat_pos_lt hx
  have hbit : IsHighestBit x.toNat (search 5 x.toNat) := search_isHighestBit hpos (by omega)
  refine ⟨search 5 x.toNat, hbit.lt hlt, hbit, fun result ↦ ?_⟩
  rw [ilog2_eq_stages, stages_fst le_rfl hlt]

/-! ### The loop -/

/-- The test of one bit. -/
theorem and_mask_eq_zero (x : Word) {n : ℕ} (hn : n < 32) :
    x &&& (1 : Word) <<< n = 0 ↔ x.toNat.testBit n = false := by
  have hmask : (1 : Word) <<< n ≠ 0 := fun h ↦ by
    have hpow := Nat.two_pow_pos n
    rw [← toNat_one_shiftLeft hn, h] at hpow
    exact Nat.lt_irrefl 0 hpow
  rw [show (1 : Word) <<< n = BitVec.twoPow 32 n from (BitVec.twoPow_eq 32 n).symm] at hmask ⊢
  rw [BitVec.and_twoPow, BitVec.testBit_toNat]
  cases x.getLsbD n
  · exact iff_of_true rfl rfl
  · exact iff_of_false hmask Bool.noConfusion

/-- **The loop** walks down to the highest bit. -/
theorem testIlog2Loop_eq {x : Word} {k : ℕ} (h : IsHighestBit x.toNat k) {n : ℕ} (hn : n < 32) :
    k ≤ n → testIlog2Loop x n = some (BitVec.ofNat 32 k) := by
  induction n with
  | zero =>
    intro hk
    obtain rfl := Nat.le_zero.1 hk
    rw [testIlog2Loop, if_neg]
    · rfl
    · rw [and_mask_eq_zero x hn, h.1]
      exact Bool.noConfusion
  | succ n ih =>
    intro hk
    rw [testIlog2Loop]
    rcases Nat.lt_or_eq_of_le hk with hlt | rfl
    · rw [if_pos ((and_mask_eq_zero x hn).2 (h.2 _ hlt))]
      exact ih (by omega) (Nat.lt_succ_iff.1 hlt)
    · rw [if_neg]
      rw [and_mask_eq_zero x hn, h.1]
      exact Bool.noConfusion

/-- **`ilog2` needs the zero that nothing stores.** It returns the position of the highest bit, like
the loop of the test, just where the variable `result` holds zero before its first assignment. -/
theorem ilog2_iff_result_zero {x : Word} (hx : 0 < x.toInt) (result : Word) :
    (∃ k, IsHighestBit x.toNat k ∧ ilog2 result x = BitVec.ofNat 32 k ∧
      testIlog2 x = some (ilog2 result x)) ↔ result = 0 := by
  obtain ⟨k, hk, hbit, heq⟩ := ilog2_eq_add hx
  constructor
  · intro h
    obtain ⟨l, hl, hres, -⟩ := h
    rw [heq, hl.unique hbit] at hres
    exact BitVec.add_left_eq_self.1 hres
  · intro hresult
    have hzero : ilog2 result x = BitVec.ofNat 32 k := by
      rw [heq, hresult]
      exact BitVec.zero_add _
    refine ⟨k, hbit, hzero, ?_⟩
    rw [hzero, testIlog2, testIlog2Loop_eq hbit (by decide) (by omega)]

/-- `ilog2(16)` with a zero in the variable. -/
theorem ilog2_iff_result_zero_sixteen :
    (∃ k, IsHighestBit (16 : Word).toNat k ∧ ilog2 0 16 = BitVec.ofNat 32 k ∧
      testIlog2 16 = some (ilog2 0 16)) ↔ (0 : Word) = 0 :=
  ilog2_iff_result_zero (by decide) 0

/-- `ilog2(1)` is `1` where the variable holds a one. -/
theorem ilog2_wrong : 0 < (1 : Word).toInt ∧ ¬ ∃ k, IsHighestBit (1 : Word).toNat k ∧
    ilog2 1 1 = BitVec.ofNat 32 k ∧ testIlog2 1 = some (ilog2 1 1) := by
  refine ⟨by decide, fun h ↦ ?_⟩
  obtain ⟨k, -, -, hloop⟩ := h
  exact absurd hloop (show testIlog2 1 ≠ some (ilog2 1 1) by decide)

end CsappCode.DataLab
