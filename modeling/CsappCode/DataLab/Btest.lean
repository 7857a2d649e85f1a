import CsappCode.DataLab.Words
import Mathlib.Data.Int.Range

/-!
# The test harness of the data lab

`btest.c` generates values for the arguments of a function, compares the function with its test on
all of them, and adds up the ratings of the functions that pass. A test stops at the first
difference, or when the alarm comes.

`genVals_spec` is about the values for an integer argument: where `gen_vals` is defined, which
values it can try, and which ones it always tries. What the scores of a whole run say about the
functions is in `DataLab/Verdicts.lean`, and the table of the repository in `DataLab/TestSet.lean`.

## What a run depends on

**The functions under test** are arbitrary. They are functions of their arguments alone; a call that
does not return, or whose result C does not define, is `none`.

**The random values.** `draw k min max` is what call `k` of `random_val(min, max)` returns. Where it
matters it is assumed to lie between `min` and `max` (`Draws`), as the comment there has it.

**The clock.** `test_function` sets an alarm, and a test that is still in its loops when the alarm
comes is left through `siglongjmp`, with one error. When that is, only a run can tell, so a
`TestRec` carries it (`Alarm`). The alarm is not taken back: one that comes when its test is over
jumps into a call that has returned, which C does not define. A new alarm takes the place of the one
before.
-/

namespace CsappCode.DataLab.Btest

/-- `TEST_RANGE`. -/
def testRange : ℕ := 500000

/-- `MAX_TEST_VALS`. -/
def maxTestVals : ℕ := 13 * testRange

/-- When the alarm comes that is set for a test: not before the next one is set, if ever; in the
loops of the test; or behind them. -/
inductive Alarm where
  | never
  | inLoops
  | after
  deriving DecidableEq

/-- `test_rec`, but for the texts and limits that only the other tools read, and with the alarm of
its test. A function takes the list of its arguments. A call with another number of arguments is not
defined. -/
structure TestRec where
  name : String
  solutionFunct : List Word → Option Word
  testFunct : List Word → Option Word
  args : ℤ
  rating : ℤ
  argRanges : Fin 3 → ℤ × ℤ
  alarm : Alarm

/-- The command line. `argval` is for the flags `-1`, `-2` and `-3`. -/
structure Options where
  testFname : Option String
  argval : Fin 3 → Option Word
  globalRating : ℤ
  timeoutLimit : ℤ

/-- No flag is given, and the limit is `TIMEOUT_LIMIT`. -/
def Options.noFlags : Options := ⟨none, fun _ ↦ none, 0, 10⟩

/-- The alarm of a test. With a limit that is not positive none is set. -/
def Options.alarm (o : Options) (t : TestRec) : Alarm :=
  if 0 < o.timeoutLimit then t.alarm else .never

/-- How `btest` gives no score: `exit(1)` after a configuration error, or behaviour that C does not
define, or a loop without end and without an alarm. -/
inductive Exit where
  | configuration
  | undefined
  deriving DecidableEq

/-! ### The values of one argument -/

/-- The body of the loop of `gen_vals` for patterns of floats. -/
def floatVals (i : ℕ) : List Word :=
  let i : Word := BitVec.ofNat 32 i
  let smallestNorm : Word := 0x00800000
  let one : Word := 0x3f800000
  let largestNorm : Word := 0x7f000000
  let sign : Word := 0x80000000
  [i, sign ||| i,
    smallestNorm + i, smallestNorm - i, sign ||| (smallestNorm + i), sign ||| (smallestNorm - i),
    one + i, one - i, sign ||| (one + i), sign ||| (one - i),
    largestNorm - i, sign ||| (largestNorm - i)]

/-- The patterns behind that loop: the infinities and two NaNs. -/
def specialVals : List Word :=
  let inf : Word := 0x7f800000
  let nan : Word := 0x7fc00000
  let sign : Word := 0x80000000
  [inf, sign ||| inf, nan, sign ||| nan]

/-- The body of the loop that samples a large range. -/
def sampleVals (draw : ℕ → ℤ → ℤ → ℤ) (min max : ℤ) (k i : ℕ) : List ℤ :=
  [min + i, max - i] ++
    (if min ≤ (i : ℤ) ∧ (i : ℤ) ≤ max then [(i : ℤ)] else []) ++
    (if min ≤ -(i : ℤ) ∧ -(i : ℤ) ≤ max then [-(i : ℤ)] else []) ++
    [draw (k + i) min max]

/-- The array `test_vals` holds `MAX_TEST_VALS` values. -/
def store (vals : List Word) : Option (List Word) :=
  if vals.length ≤ maxTestVals then some vals else none

/-- `gen_vals(test_vals, min, max, test_range, arg)`, when `random_val` has been called `k` times:
the values, and the number of calls after that. -/
def genVals (o : Options) (draw : ℕ → ℤ → ℤ → ℤ) (min max : ℤ) (range : ℕ) (arg : Fin 3) (k : ℕ) :
    Option (List Word × ℕ) :=
  match o.argval arg with
  | some v => some ([v], k)
  | none =>
    if min = 1 ∧ max = 1 then do
      let range := if range > 2 ^ 23 then 2 ^ 23 else range
      return (← store ((List.range range).flatMap floatVals ++ specialVals), k)
    else if max - maxTestVals < -2 ^ 31 then
      -- The difference is an `int`.
      none
    else if max - maxTestVals ≤ min then
      if min ≤ max ∧ max = 2 ^ 31 - 1 then
        -- The counter of the loop never exceeds the largest `int`.
        none
      else do
        return (← store ((Int.range min (max + 1)).map (BitVec.ofInt 32)), k)
    else do
      let vals := (List.range range).flatMap (sampleVals draw min max k)
      return (← store (vals.map (BitVec.ofInt 32)), k + range)

/-! ### One function -/

/-- `test_0_arg`, `test_1_arg`, `test_2_arg` and `test_3_arg`, on the list of the arguments. -/
def testArgs (t : TestRec) (as : List Word) : Option ℕ := do
  let r ← t.solutionFunct as
  let rt ← t.testFunct as
  return if r ≠ rt then 1 else 0

/-- A loop over values that returns at the first error. -/
def firstError (f : Word → Option ℕ) : List Word → Option ℕ
  | [] => some 0
  | a :: vals => do
    let errors ← f a
    if errors ≠ 0 then return errors else firstError f vals

/-- The nest of the loops over `a1`, `a2` and `a3`, as deep as there are arguments. -/
def testAll (t : TestRec) : List (List Word) → List Word → Option ℕ
  | [], as => testArgs t as
  | vals :: rest, as => firstError (fun a ↦ testAll t rest (as ++ [a])) vals

/-- `arg_test_range`. The powers of `TEST_RANGE` are truncated to an `int`. -/
def argTestRange (args : ℤ) : ℕ :=
  if args = 1 then testRange
  else if args = 2 then 707
  else 79

/-- The loop that creates a test set for each argument. -/
def genAll (o : Options) (draw : ℕ → ℤ → ℤ → ℤ) (t : TestRec) :
    List (Fin 3) → ℕ → Option (List (List Word) × ℕ)
  | [], k => some ([], k)
  | i :: is, k => do
    let (vals, k) ← genVals o draw (t.argRanges i).1 (t.argRanges i).2 (argTestRange t.args) i k
    let (rest, k) ← genAll o draw t is k
    return (vals :: rest, k)

/-- `test_function(t)`. -/
def testFunction (o : Options) (draw : ℕ → ℤ → ℤ → ℤ) (t : TestRec) (k : ℕ) :
    Except Exit (ℕ × ℕ) :=
  if t.args < 0 ∨ t.args > 3 then
    .error .configuration
  else
    match genAll o draw t ((List.finRange 3).take t.args.toNat) k with
    | none => .error .undefined
    | some (vals, k) =>
      match o.alarm t with
      | .inLoops => .ok (1, k)
      | .after => .error .undefined
      | .never =>
        match testAll t vals [] with
        | none => .error .undefined
        | some errors => .ok (errors, k)

/-! ### All functions -/

/-- The sums of `run_tests`. The points are whole numbers. -/
structure Score where
  errors : ℕ
  points : ℤ
  maxPoints : ℤ
  deriving DecidableEq

/-- The weight of a function. -/
def rating (o : Options) (t : TestRec) : ℤ :=
  if o.globalRating ≠ 0 then o.globalRating else t.rating

/-- What a function with `terrors` errors adds to the sums. -/
def Score.add (s : Score) (o : Options) (t : TestRec) (terrors : ℕ) : Score :=
  ⟨s.errors + terrors, s.points + (if terrors = 0 then rating o t else 0),
    s.maxPoints + rating o t⟩

/-- The flag `-f` selects one function. -/
def selected (o : Options) (t : TestRec) : Bool := o.testFname = none ∨ o.testFname = some t.name

/-- The loop of `run_tests` from one entry of `test_set` on. -/
def runTests (o : Options) (draw : ℕ → ℤ → ℤ → ℤ) : List TestRec → ℕ → Score → Except Exit Score
  | [], _, s => .ok s
  | t :: ts, k, s =>
    if selected o t then
      match testFunction o draw t k with
      | .error e => .error e
      | .ok (terrors, k) => runTests o draw ts k (s.add o t terrors)
    else
      runTests o draw ts k s

/-! ### The values that are generated -/

variable {o : Options} {draw : ℕ → ℤ → ℤ → ℤ} {min max : ℤ} {range k k' : ℕ} {arg : Fin 3}
  {vals : List Word}

theorem toInt_ofInt {x : ℤ} (hlo : -2 ^ 31 ≤ x) (hhi : x < 2 ^ 31) :
    (BitVec.ofInt 32 x).toInt = x := by
  rw [BitVec.toInt_ofInt, Int.bmod_eq_of_le (by omega) (by omega)]

/-- What `random_val` says about itself: it returns a value between `min` and `max`. -/
def Draws (draw : ℕ → ℤ → ℤ → ℤ) : Prop :=
  ∀ k min max, min ≤ max → min ≤ draw k min max ∧ draw k min max ≤ max

/-- The range of an integer argument in `test_set`. -/
structure IntegerRange (min max : ℤ) : Prop where
  lo : -2 ^ 31 ≤ min
  le : min ≤ max
  hi : max < 2 ^ 31
  /-- The range `{1, 1}` marks the pattern of a float. -/
  notMarker : ¬ (min = 1 ∧ max = 1)

theorem store_map_eq_none_iff {xs : List ℤ} :
    store (xs.map (BitVec.ofInt 32)) = none ↔ maxTestVals < xs.length := by
  rw [store, List.length_map]
  split_ifs with h
  · exact iff_of_false (fun h ↦ by cases h) (by omega)
  · exact iff_of_true rfl (by omega)

theorem genVals_of_small (ho : o.argval arg = none) (hr : IntegerRange min max)
    (hdiff : -2 ^ 31 ≤ max - maxTestVals) (hsmall : max - maxTestVals ≤ min)
    (hmax : max ≠ 2 ^ 31 - 1) :
    genVals o draw min max range arg k =
      (store ((Int.range min (max + 1)).map (BitVec.ofInt 32))).map fun vals ↦ (vals, k) := by
  rw [genVals, ho]
  show (if min = 1 ∧ max = 1 then _ else _) = _
  rw [if_neg hr.notMarker, if_neg (by omega), if_pos hsmall, if_neg fun h ↦ hmax h.2]
  cases store ((Int.range min (max + 1)).map (BitVec.ofInt 32)) <;> rfl

theorem genVals_of_large (ho : o.argval arg = none) (hr : IntegerRange min max)
    (hlarge : min < max - maxTestVals) :
    genVals o draw min max range arg k =
      (store (((List.range range).flatMap (sampleVals draw min max k)).map (BitVec.ofInt 32))).map
        fun vals ↦ (vals, k + range) := by
  have hlo := hr.lo
  rw [genVals, ho]
  show (if min = 1 ∧ max = 1 then _ else _) = _
  rw [if_neg hr.notMarker, if_neg (by omega), if_neg (by omega)]
  show (store _).bind _ = _
  cases store (((List.range range).flatMap (sampleVals draw min max k)).map (BitVec.ofInt 32)) <;>
    rfl

theorem length_sampleVals_le (draw : ℕ → ℤ → ℤ → ℤ) (min max : ℤ) (k i : ℕ) :
    (sampleVals draw min max k i).length ≤ 5 := by
  rw [sampleVals]
  split_ifs <;> simp

/-- A sample fits in the array. -/
theorem length_sample_le (draw : ℕ → ℤ → ℤ → ℤ) (min max : ℤ) (k : ℕ) (hrange : range ≤ testRange) :
    ((List.range range).flatMap (sampleVals draw min max k)).length ≤ maxTestVals := by
  have hle : ∀ is : List ℕ, (is.flatMap (sampleVals draw min max k)).length ≤ 5 * is.length := by
    intro is
    induction is with
    | nil => exact Nat.zero_le _
    | cons i is ih =>
      have hi := length_sampleVals_le draw min max k i
      rw [List.flatMap_cons, List.length_append, List.length_cons]
      omega
  have hsample := hle (List.range range)
  rw [List.length_range] at hsample
  rw [maxTestVals]
  omega

theorem length_intRange (min max : ℤ) :
    (Int.range min (max + 1)).length = (max + 1 - min).toNat := by
  rw [Int.range, List.length_map, List.length_range]

/-- Where the behaviour of `gen_vals` is not defined: the difference with `MAX_TEST_VALS` overflows,
the counter of the loop overflows, or the loop stores one value more than the array holds. -/
theorem genVals_eq_none_iff (draw : ℕ → ℤ → ℤ → ℤ) (k : ℕ) (ho : o.argval arg = none)
    (hr : IntegerRange min max) (hrange : range ≤ testRange) :
    genVals o draw min max range arg k = none ↔
      max - maxTestVals < -2 ^ 31 ∨ max - min ≤ maxTestVals ∧ max = 2 ^ 31 - 1 ∨
        max - min = maxTestVals := by
  have hle := hr.le
  by_cases hdiff : max - maxTestVals < -2 ^ 31
  · refine iff_of_true ?_ (Or.inl hdiff)
    rw [genVals, ho]
    show (if min = 1 ∧ max = 1 then _ else _) = _
    rw [if_neg hr.notMarker, if_pos hdiff]
  by_cases hsmall : max - maxTestVals ≤ min
  · by_cases hmax : max = 2 ^ 31 - 1
    · refine iff_of_true ?_ (Or.inr (Or.inl ⟨by omega, hmax⟩))
      rw [genVals, ho]
      show (if min = 1 ∧ max = 1 then _ else _) = _
      rw [if_neg hr.notMarker, if_neg hdiff, if_pos hsmall, if_pos ⟨hle, hmax⟩]
    · rw [genVals_of_small ho hr (by omega) hsmall hmax, Option.map_eq_none_iff,
        store_map_eq_none_iff, length_intRange]
      omega
  · have hfit := length_sample_le draw min max k hrange
    rw [genVals_of_large ho hr (by omega), Option.map_eq_none_iff, store_map_eq_none_iff]
    omega

/-- A value of a loop is one of the array. -/
theorem toInt_of_mem_map {xs : List ℤ} (hr : IntegerRange min max)
    (hxs : ∀ x ∈ xs, min ≤ x ∧ x ≤ max) {v : Word} (hv : v ∈ xs.map (BitVec.ofInt 32)) :
    min ≤ v.toInt ∧ v.toInt ≤ max := by
  obtain ⟨x, hx, rfl⟩ := List.mem_map.mp hv
  have hlo := hr.lo
  have hhi := hr.hi
  obtain ⟨hxlo, hxhi⟩ := hxs x hx
  rw [toInt_ofInt (by omega) (by omega)]
  exact ⟨hxlo, hxhi⟩

theorem mem_sampleVals_iff {x : ℤ} {i : ℕ} :
    x ∈ sampleVals draw min max k i ↔ x = min + i ∨ x = max - i ∨
      (min ≤ x ∧ x ≤ max) ∧ (x = i ∨ x = -i) ∨ x = draw (k + i) min max := by
  have hif : ∀ y : ℤ, (x ∈ if min ≤ y ∧ y ≤ max then [y] else []) ↔
      (min ≤ x ∧ x ≤ max) ∧ x = y := by
    intro y
    split_ifs with hy
    · rw [List.mem_singleton]
      constructor
      · intro h
        exact ⟨h ▸ hy, h⟩
      · intro h
        exact h.2
    · refine iff_of_false List.not_mem_nil fun h ↦ hy ?_
      rw [← h.2]
      exact h.1
  rw [sampleVals, List.mem_append, List.mem_append, List.mem_append, hif, hif, List.mem_singleton,
    List.mem_cons, List.mem_singleton]
  tauto

theorem mem_sampleVals (hdraw : Draws draw) (hlarge : min < max - maxTestVals) {i : ℕ}
    (hi : i < testRange) {x : ℤ} (hx : x ∈ sampleVals draw min max k i) : min ≤ x ∧ x ≤ max := by
  have hmax : testRange ≤ maxTestVals := by decide
  obtain ⟨hdlo, hdhi⟩ := hdraw (k + i) min max (by omega)
  rcases mem_sampleVals_iff.mp hx with h | h | h | h <;> omega

theorem map_store_eq_some {xs vals : List Word} {n n' : ℕ}
    (h : ((store xs).map fun vals ↦ (vals, n)) = some (vals, n')) : vals = xs ∧ n' = n := by
  rw [store] at h
  split_ifs at h
  · cases h
    exact ⟨rfl, rfl⟩
  · cases h

/-- What a defined call of `gen_vals` has stored. -/
theorem genVals_cases (ho : o.argval arg = none) (hr : IntegerRange min max)
    (hrange : range ≤ testRange) (h : genVals o draw min max range arg k = some (vals, k')) :
    (max - min < maxTestVals ∧ vals = (Int.range min (max + 1)).map (BitVec.ofInt 32) ∧ k' = k) ∨
      (maxTestVals < max - min ∧
        vals = ((List.range range).flatMap (sampleVals draw min max k)).map (BitVec.ofInt 32) ∧
        k' = k + range) := by
  have hdefined : ¬ (max - maxTestVals < -2 ^ 31 ∨ max - min ≤ maxTestVals ∧ max = 2 ^ 31 - 1 ∨
      max - min = maxTestVals) := by
    rw [← genVals_eq_none_iff draw k ho hr hrange, h]
    exact Option.some_ne_none _
  by_cases hsmall : max - maxTestVals ≤ min
  · rw [genVals_of_small ho hr (by omega) hsmall (by omega)] at h
    exact Or.inl ⟨by omega, map_store_eq_some h⟩
  · rw [genVals_of_large ho hr (by omega)] at h
    exact Or.inr ⟨by omega, map_store_eq_some h⟩

/-- **The values are in the range.** -/
theorem genVals_sound (ho : o.argval arg = none) (hr : IntegerRange min max) (hdraw : Draws draw)
    (hrange : range ≤ testRange) (h : genVals o draw min max range arg k = some (vals, k')) :
    ∀ v ∈ vals, min ≤ v.toInt ∧ v.toInt ≤ max := by
  intro v hv
  rcases genVals_cases ho hr hrange h with ⟨-, rfl, -⟩ | ⟨hlarge, rfl, -⟩
  · refine toInt_of_mem_map hr (fun x hx ↦ ?_) hv
    rw [Int.mem_range_iff] at hx
    omega
  · refine toInt_of_mem_map hr (fun x hx ↦ ?_) hv
    obtain ⟨i, hi, hx⟩ := List.mem_flatMap.mp hx
    exact mem_sampleVals hdraw (by omega) (by rw [List.mem_range] at hi; omega) hx

/-- The windows that `gen_vals` tries in a large range: at both ends, and around zero. -/
def InWindow (min max : ℤ) (range : ℕ) (x : ℤ) : Prop :=
  x - min < range ∨ max - x < range ∨ x.natAbs < range

/-- **A range that is small enough is tried in full**, and the windows of one that is not. -/
theorem genVals_complete (ho : o.argval arg = none) (hr : IntegerRange min max)
    (hrange : range ≤ testRange) (h : genVals o draw min max range arg k = some (vals, k'))
    {x : ℤ} (hx : min ≤ x ∧ x ≤ max)
    (hwindow : max - min < maxTestVals ∨ InWindow min max range x) :
    BitVec.ofInt 32 x ∈ vals := by
  rcases genVals_cases ho hr hrange h with ⟨-, rfl, -⟩ | ⟨hlarge, rfl, -⟩
  · refine List.mem_map_of_mem ?_
    rw [Int.mem_range_iff]
    omega
  · refine List.mem_map_of_mem (List.mem_flatMap.mpr ?_)
    rcases hwindow.resolve_left (by omega) with hdist | hdist | hdist
    · exact ⟨(x - min).toNat, List.mem_range.mpr (by omega), mem_sampleVals_iff.mpr (by omega)⟩
    · exact ⟨(max - x).toNat, List.mem_range.mpr (by omega), mem_sampleVals_iff.mpr (by omega)⟩
    · exact ⟨x.natAbs, List.mem_range.mpr hdist, mem_sampleVals_iff.mpr (by omega)⟩

/-- **The values for an integer argument.** A run is undefined just where a difference or a counter
overflows, or where the range has one value more than the array holds. In any other run all values
are in the range, and a small range is tried in full, a large one in its windows. -/
theorem genVals_spec (ho : o.argval arg = none) (hr : IntegerRange min max) (hdraw : Draws draw)
    (hrange : range ≤ testRange) :
    (genVals o draw min max range arg k = none ↔
      max - maxTestVals < -2 ^ 31 ∨ max - min ≤ maxTestVals ∧ max = 2 ^ 31 - 1 ∨
        max - min = maxTestVals) ∧
    ∀ vals k', genVals o draw min max range arg k = some (vals, k') →
      (∀ v ∈ vals, min ≤ v.toInt ∧ v.toInt ≤ max) ∧
      ∀ x, min ≤ x ∧ x ≤ max → (max - min < maxTestVals ∨ InWindow min max range x) →
        BitVec.ofInt 32 x ∈ vals :=
  ⟨genVals_eq_none_iff draw k ho hr hrange, fun _ _ h ↦
    ⟨genVals_sound ho hr hdraw hrange h, fun _ hx ↦ genVals_complete ho hr hrange h hx⟩⟩

/-- The argument of `ilog2`, and a source of random values that always returns the least one. -/
theorem genVals_spec_ilog2 :
    (genVals .noFlags (fun _ min _ ↦ min) 1 (2 ^ 31 - 1) testRange 0 0 = none ↔
      (2 ^ 31 - 1 : ℤ) - maxTestVals < -2 ^ 31 ∨
        (2 ^ 31 - 1 : ℤ) - 1 ≤ maxTestVals ∧ (2 ^ 31 - 1 : ℤ) = 2 ^ 31 - 1 ∨
        (2 ^ 31 - 1 : ℤ) - 1 = maxTestVals) ∧
    ∀ vals k', genVals .noFlags (fun _ min _ ↦ min) 1 (2 ^ 31 - 1) testRange 0 0 = some (vals, k') →
      (∀ v ∈ vals, 1 ≤ v.toInt ∧ v.toInt ≤ 2 ^ 31 - 1) ∧
      ∀ x, 1 ≤ x ∧ x ≤ 2 ^ 31 - 1 →
        ((2 ^ 31 - 1 : ℤ) - 1 < maxTestVals ∨ InWindow 1 (2 ^ 31 - 1) testRange x) →
        BitVec.ofInt 32 x ∈ vals :=
  genVals_spec rfl ⟨by decide, by decide, by decide, by decide⟩
    (fun _ _ _ h ↦ ⟨le_rfl, h⟩) le_rfl

end CsappCode.DataLab.Btest
