import Mathlib.Data.List.Basic
import Mathlib.Data.List.Flatten

/-!
# Printing a buffer into itself

`sprintf(buf, "%s…", buf)` is written to append to the string in `buf`. But source and target
overlap, so C leaves undefined what it does, and libraries differ. One that writes the bytes in the
order in which it reads them appends. One that empties the buffer first, as the checked `sprintf` of
an optimised build does, finds nothing to copy there and keeps the new text alone.

* `SelfSprintf` is what one library makes of such a call; `SelfSprintf.append` and
  `SelfSprintf.keepLast` are the two above.
* `printAll_eq_some` says that a series of calls in a large enough array does not overflow it.
* `length_of_printAll` bounds what a series of calls leaves.
* `foldl_append` and `foldl_keepLast` are what the two libraries leave.

## What is assumed

**A library is a function** of the string in the buffer and of the text behind it. It makes the same
of the same call every time, and does not look at what is stored elsewhere.

**It writes no more than the two texts have.** This is all that is assumed of it, and what a program
needs to know to keep within its array. What is proved for every `SelfSprintf` does not depend on
the library, and where a result does, the library is named in it.

**The array** is checked call by call: the string that is left has to fit with its NUL, and a series
is cut off at the first call that does not.
-/

namespace Printf

/-- What a library leaves in a buffer, by the string there and the text that comes behind `%s`. -/
structure SelfSprintf where
  result : List UInt8 → List UInt8 → List UInt8
  length_le : ∀ old text, (result old text).length ≤ old.length + text.length

namespace SelfSprintf

/-- The text is appended. -/
def append : SelfSprintf := ⟨fun old text ↦ old ++ text, fun _ _ ↦ Nat.le_of_eq List.length_append⟩

/-- Only the text is left. -/
def keepLast : SelfSprintf := ⟨fun _ text ↦ text, fun _ _ ↦ Nat.le_add_left _ _⟩

variable (lib : SelfSprintf)

/-- A call in an array of `capacity` bytes: nothing if the string does not fit. -/
def print (capacity : ℕ) (buf text : List UInt8) : Option (List UInt8) :=
  if (lib.result buf text).length < capacity then some (lib.result buf text) else none

/-- The calls for several texts, one after the other. -/
def printAll (capacity : ℕ) (buf : List UInt8) (texts : List (List UInt8)) :
    Option (List UInt8) :=
  texts.foldlM (lib.print capacity) buf

variable {lib} {capacity : ℕ} {texts : List (List UInt8)}

/-- **An array with room for all texts does not overflow.** -/
theorem printAll_eq_some : ∀ {buf : List UInt8},
    buf.length + texts.flatten.length < capacity →
      lib.printAll capacity buf texts = some (texts.foldl lib.result buf) := by
  induction texts with
  | nil => exact fun _ ↦ rfl
  | cons text texts ih =>
    intro buf h
    rw [List.flatten_cons, List.length_append] at h
    have hle := lib.length_le buf text
    have hcall : lib.print capacity buf text = some (lib.result buf text) := if_pos (by omega)
    rw [printAll, List.foldlM_cons, hcall, List.foldl_cons]
    exact ih (by omega)

/-- What is left fits the array. -/
theorem length_of_printAll : ∀ {buf out : List UInt8}, buf.length < capacity →
    lib.printAll capacity buf texts = some out → out.length < capacity := by
  induction texts with
  | nil =>
    intro buf out hbuf h
    rwa [← Option.some.inj h]
  | cons text texts ih =>
    intro buf out _ h
    rw [printAll, List.foldlM_cons, print] at h
    split_ifs at h with hfits
    · exact ih hfits h
    · exact absurd h (by simp)

theorem foldl_append : ∀ {buf : List UInt8},
    texts.foldl append.result buf = buf ++ texts.flatten := by
  induction texts with
  | nil => exact (List.append_nil _).symm
  | cons text texts ih =>
    intro buf
    rw [List.foldl_cons, ih, append, List.flatten_cons, List.append_assoc]

theorem foldl_keepLast : ∀ {buf : List UInt8},
    texts.foldl keepLast.result buf = texts.getLast?.getD buf := by
  induction texts with
  | nil => exact rfl
  | cons text texts ih =>
    intro buf
    rw [List.foldl_cons, ih, List.getLast?_cons, Option.getD_some, keepLast]

end SelfSprintf

end Printf
