import CsappCode.Library.Scanf
import Mathlib.Data.List.TakeWhile

/-!
# Words and variables

The conversion `%s`, and numeric conversions whose result nobody looks at: a variable is assigned,
or keeps its value.

* `readWord` is `%s`: the characters up to the next white space. `readWord_append` finds the first
  word of a text, and `readWord_blank` says that there is none in white space.
* `readVariable` is `%d` or `%u` into a variable that may or may not hold a value.
  `readVariable_numeral` reads a numeral back.

## How it is used

**Unchecked calls.** A program that calls `fscanf(f, "%d", &x)` and does not look at what it returns
goes on with `x` as it was if there is no number. So what a conversion assigns is an option here,
and it is the program's step that keeps the old value, or says what reading a variable means that
never had one.

**Words** may be of any length. An array that a word is stored to has a size, and whether the word
fits is for the user to ask, before the word is used.

**Numerals** are followed by white space in the lemma that reads them back. At the end of a file, or
in front of other characters, `readVariable` is defined as well, but nothing is proved about it
here.
-/

namespace Scanf

/-! ### Words -/

/-- `%s`: white space is skipped, and the characters up to the next white space are the word. There
is no word at the end of the input. -/
def readWord (s : List UInt8) : Option (List UInt8 × List UInt8) :=
  match s.dropWhile isSpace with
  | [] => none
  | b :: s => some ((b :: s).takeWhile (!isSpace ·), (b :: s).dropWhile (!isSpace ·))

/-- A word is taken from the front. -/
theorem readWord_length_lt {s word rest : List UInt8} (h : readWord s = some (word, rest)) :
    rest.length < s.length := by
  have hskip := (List.dropWhile_suffix (l := s) isSpace).length_le
  have hfirst : ∀ b t, s.dropWhile isSpace = b :: t → isSpace b = false := by
    intro b t heq
    have hhead := List.head?_dropWhile_not isSpace s
    rw [heq] at hhead
    simpa using hhead
  rw [readWord] at h
  generalize s.dropWhile isSpace = t at h hskip hfirst
  rcases t with - | ⟨b, t⟩
  · exact absurd h (by simp)
  · obtain ⟨-, rfl⟩ := Prod.mk.inj (Option.some.inj h)
    rw [List.dropWhile_cons_of_pos (by simp [hfirst b t rfl])]
    exact Nat.lt_of_le_of_lt (List.dropWhile_suffix _).length_le (Nat.lt_of_succ_le hskip)

/-- A word and what follows it are no longer than the input. -/
theorem readWord_length_add_le {s word rest : List UInt8} (h : readWord s = some (word, rest)) :
    word.length + rest.length ≤ s.length := by
  have hskip := (List.dropWhile_suffix (l := s) isSpace).length_le
  rw [readWord] at h
  generalize s.dropWhile isSpace = t at h hskip
  rcases t with - | ⟨b, t⟩
  · exact absurd h (by simp)
  · obtain ⟨rfl, rfl⟩ := Prod.mk.inj (Option.some.inj h)
    have hsplit := congrArg List.length
      (List.takeWhile_append_dropWhile (p := (!isSpace ·)) (l := b :: t))
    rw [List.length_append] at hsplit
    exact hsplit.le.trans hskip

theorem readWord_blank {s : List UInt8} (hs : ∀ b ∈ s, isSpace b = true) : readWord s = none := by
  rw [readWord, List.dropWhile_eq_nil_iff.2 hs]

/-- **The first word of a text.** -/
theorem readWord_append {blank word rest : List UInt8} {c : UInt8}
    (hblank : ∀ b ∈ blank, isSpace b = true) (hne : word ≠ [])
    (hword : ∀ b ∈ word, isSpace b = false) (hc : isSpace c = true) :
    readWord (blank ++ (word ++ c :: rest)) = some (word, c :: rest) := by
  obtain ⟨b, word, rfl⟩ := List.exists_cons_of_ne_nil hne
  have hskip : (blank ++ (b :: word ++ c :: rest)).dropWhile isSpace = b :: word ++ c :: rest :=
    dropWhile_append_of_all hblank (hword b List.mem_cons_self)
  have hall : ∀ d ∈ b :: word, (!isSpace d) = true := fun d hd ↦ by rw [hword d hd]; rfl
  have hstop : (!isSpace c) = false := by rw [hc]; rfl
  rw [readWord, hskip, List.cons_append]
  dsimp only
  rw [← List.cons_append, takeWhile_append_of_all hall hstop, dropWhile_append_of_all hall hstop]

/-! ### Variables -/

/-- A numeric conversion for values from `lo` to `hi`: the value that is assigned, if any, and the
input after it. Other values are undefined behaviour. -/
def readVariable (lo hi : ℤ) (s : List UInt8) : Option (Option (BitVec 32) × List UInt8) :=
  match s.dropWhile isSpace with
  | [] => some (none, [])
  | b :: s =>
    match readInteger 10 (b :: s) with
    | (none, rest) => some (none, rest)
    | (some v, rest) => if lo ≤ v ∧ v ≤ hi then some (some (BitVec.ofInt 32 v), rest) else none

/-- `%d`. -/
def readInt : List UInt8 → Option (Option (BitVec 32) × List UInt8) :=
  readVariable (-2 ^ 31) (2 ^ 31 - 1)

/-- `%u`, which takes what `strtoul` does. -/
def readUnsigned : List UInt8 → Option (Option (BitVec 32) × List UInt8) :=
  readVariable (-(2 ^ 32 - 1)) (2 ^ 32 - 1)

variable {lo hi : ℤ} {s rest : List UInt8}

theorem readVariable_length_le {v : Option (BitVec 32)}
    (h : readVariable lo hi s = some (v, rest)) : rest.length ≤ s.length := by
  have hskip := (List.dropWhile_suffix (l := s) isSpace).length_le
  rw [readVariable] at h
  generalize s.dropWhile isSpace = t at h hskip
  rcases t with - | ⟨b, t⟩
  · obtain ⟨-, rfl⟩ := Prod.mk.inj (Option.some.inj h)
    exact Nat.zero_le _
  have hle := readInteger_length_le 10 (b :: t)
  dsimp only at h
  generalize readInteger 10 (b :: t) = q at h hle
  rcases q with ⟨- | v, rest'⟩
  · obtain ⟨-, rfl⟩ := Prod.mk.inj (Option.some.inj h)
    exact hle.trans hskip
  · dsimp only at h
    split_ifs at h
    obtain ⟨-, rfl⟩ := Prod.mk.inj (Option.some.inj h)
    exact hle.trans hskip

/-- **A numeral is assigned**, when it is followed by white space. -/
theorem readVariable_numeral {n : ℕ} {blank ds : List UInt8} {b : UInt8}
    (hblank : ∀ c ∈ blank, isSpace c = true) (hds : Numeral 10 n ds) (hb : isSpace b = true)
    (hlo : lo ≤ n) (hhi : n ≤ hi) :
    readVariable lo hi (blank ++ (ds ++ b :: s)) = some (some (BitVec.ofNat 32 n), b :: s) := by
  have hlt := lt_of_isSpace hb
  have hdigit : isDigit 10 b = false := by
    by_contra hdigit
    have := le_of_isDigit (Bool.eq_true_of_not_eq_false hdigit)
    omega
  have hx : b ≠ 120 ∧ b ≠ 88 := by
    constructor <;> (intro heq; rw [heq] at hlt; exact absurd hlt (by decide))
  obtain ⟨d, ds, rfl⟩ := List.exists_cons_of_ne_nil hds.ne_nil
  have hskip : (blank ++ (d :: ds ++ b :: s)).dropWhile isSpace = d :: ds ++ b :: s :=
    dropWhile_append_of_all hblank (isSpace_eq_false_of_isDigit (hds.digits d List.mem_cons_self))
  have hread := readInteger_numeral (s := s) hds hdigit hx
  rw [List.cons_append] at hread
  rw [readVariable, hskip, List.cons_append]
  dsimp only
  rw [hread]
  dsimp only
  rw [if_pos ⟨hlo, hhi⟩]
  rfl

end Scanf
