import Mathlib.Data.BitVec

/-!
# Scanning formatted input

The part of `scanf` that reads characters and integers, as C99 specifies it: a call executes the
directives of its format in turn, and ends early at the first that fails.

* `isDigit`, `numeral` and `Numeral` are the digits of the bases up to 36, in either case.
  `exists_numeral` writes every number.
* `readInteger` takes the longest input item that is, or begins, an integer in the given base.
  `readInteger_numeral` reads a numeral back.
* `Directive.read` is one directive: it matches, or meets other characters, or finds no character.
* `scanf` is a call. Running out of characters before the first conversion is the return of `EOF`.

## Conventions

**What is read stays read.** A directive that fails in the middle of an item has taken the
characters up to there, but for one that may be put back. `0x` without a digit behind it is such an
item: it is taken and is no number.

**Out of range.** An integer that the variable cannot represent is undefined behaviour, and is
reported as such. What a variable can represent is a function of the directive, `storeLong` or
`storeInt`.

**White space** is that of the C locale. A white-space directive matches any amount of it, also
none, and `%c` is the one conversion that does not skip it.

**Not here** are field widths, the other conversions, and suppressed assignment.
-/

namespace Scanf

/-! ### Digits -/

/-- `isspace`. -/
def isSpace (b : UInt8) : Bool := b = 32 ∨ (9 ≤ b ∧ b ≤ 13)

/-- What a digit or a letter counts. -/
def digitValue (b : UInt8) : Option ℕ :=
  if 48 ≤ b ∧ b ≤ 57 then some (b.toNat - 48)
  else if 65 ≤ b ∧ b ≤ 90 then some (b.toNat - 55)
  else if 97 ≤ b ∧ b ≤ 122 then some (b.toNat - 87)
  else none

/-- A digit of the base. -/
def isDigit (base : ℕ) (b : UInt8) : Bool := (digitValue b).any (· < base)

/-- The value of a string of digits. -/
def numeral (base : ℕ) (ds : List UInt8) : ℕ :=
  ds.foldl (fun n b ↦ n * base + (digitValue b).getD 0) 0

/-- The digits write the number in the base, possibly with leading zeros. -/
structure Numeral (base n : ℕ) (ds : List UInt8) : Prop where
  ne_nil : ds ≠ []
  digits : ∀ b ∈ ds, isDigit base b = true
  value : numeral base ds = n

/-- The digit for a value below 36, in lower case. -/
def digitChar (n : ℕ) : UInt8 := if n < 10 then UInt8.ofNat (48 + n) else UInt8.ofNat (87 + n)

theorem digitValue_digitChar : ∀ n < 36, digitValue (digitChar n) = some n := by decide

theorem isDigit_digitChar {base n : ℕ} (hbase : base ≤ 36) (hn : n < base) :
    isDigit base (digitChar n) = true := by
  rw [isDigit, digitValue_digitChar n (by omega), Option.any_some, decide_eq_true hn]

/-- White space is below the digits. -/
theorem lt_of_isSpace {b : UInt8} (hb : isSpace b = true) : b.toNat < 48 := by
  rcases of_decide_eq_true hb with rfl | ⟨-, hle⟩
  · decide
  · have := UInt8.le_iff_toNat_le.1 hle
    exact lt_of_le_of_lt this (by decide)

theorem le_of_isDigit {base : ℕ} {b : UInt8} (hb : isDigit base b = true) : 48 ≤ b.toNat := by
  by_contra hlt
  have hnone : digitValue b = none := by
    simp only [digitValue, UInt8.le_iff_toNat_le, UInt8.reduceToNat]
    rw [if_neg (by omega), if_neg (by omega), if_neg (by omega)]
  rw [isDigit, hnone] at hb
  exact absurd hb (by simp)

/-- A digit is not white space. -/
theorem isSpace_eq_false_of_isDigit {base : ℕ} {b : UInt8} (hb : isDigit base b = true) :
    isSpace b = false := by
  by_contra hspace
  have := lt_of_isSpace (Bool.eq_true_of_not_eq_false hspace)
  have := le_of_isDigit hb
  omega

/-- A digit is not a sign. -/
theorem not_sign_of_isDigit {base : ℕ} {b : UInt8} (hb : isDigit base b = true) :
    b ≠ 43 ∧ b ≠ 45 := by
  have := le_of_isDigit hb
  refine ⟨?_, ?_⟩ <;> rintro rfl <;> exact absurd this (by decide)

/-- **Every number has a numeral.** -/
theorem exists_numeral {base : ℕ} (htwo : 2 ≤ base) (hbase : base ≤ 36) (n : ℕ) :
    ∃ ds, Numeral base n ds := by
  induction n using Nat.strong_induction_on with
  | _ n ih =>
    rcases Nat.lt_or_ge n base with hlt | hge
    · refine ⟨[digitChar n], by simp, by simpa using isDigit_digitChar hbase hlt, ?_⟩
      simp [numeral, digitValue_digitChar n (by omega)]
    · have hmod : n % base < base := Nat.mod_lt n (by omega)
      obtain ⟨ds, -, hdigits, hvalue⟩ := ih (n / base) (Nat.div_lt_self (by omega) htwo)
      refine ⟨ds ++ [digitChar (n % base)], by simp, fun b hb ↦ ?_, ?_⟩
      · rcases List.mem_append.1 hb with hb | hb
        · exact hdigits b hb
        · rw [List.mem_singleton.1 hb]
          exact isDigit_digitChar hbase hmod
      · rw [numeral] at hvalue
        rw [numeral, List.foldl_append, hvalue, List.foldl_cons, List.foldl_nil,
          digitValue_digitChar _ (by omega), Option.getD_some, Nat.div_add_mod']

/-! ### Integers -/

/-- An optional sign. -/
def readSign : List UInt8 → Bool × List UInt8
  | [] => (false, [])
  | b :: s => if b = 43 then (false, s) else if b = 45 then (true, s) else (false, b :: s)

/-- The prefix `0x` or `0X` that a hexadecimal integer may have. -/
def dropHexPrefix : List UInt8 → List UInt8
  | b :: x :: s => if b = 48 ∧ (x = 120 ∨ x = 88) then s else b :: x :: s
  | s => s

/-- The digits up to the first other character. There may be none. -/
def readDigits (base : ℕ) (s : List UInt8) : Option ℕ × List UInt8 :=
  let ds := s.takeWhile (isDigit base)
  (if ds = [] then none else some (numeral base ds), s.dropWhile (isDigit base))

/-- An input item for an integer in the given base, and what follows it. There is no value when the
item is empty or only begins an integer. -/
def readInteger (base : ℕ) (s : List UInt8) : Option ℤ × List UInt8 :=
  let (neg, s) := readSign s
  let (m, rest) := readDigits base (if base = 16 then dropHexPrefix s else s)
  (m.map fun m ↦ if neg then -(m : ℤ) else m, rest)

/-- An input item is taken from the front. -/
theorem readInteger_length_le (base : ℕ) (s : List UInt8) :
    (readInteger base s).2.length ≤ s.length := by
  have hsign : (readSign s).2.length ≤ s.length := by
    rcases s with - | ⟨b, s⟩
    · exact le_rfl
    · rw [readSign]
      split_ifs <;> simp
  have hdrop : ∀ s, (dropHexPrefix s).length ≤ s.length := by
    rintro (- | ⟨b, - | ⟨x, s⟩⟩)
    · exact le_rfl
    · exact le_rfl
    · rw [dropHexPrefix]
      split_ifs
      · exact (Nat.le_succ _).trans (Nat.le_succ _)
      · exact le_rfl
  have hdigits : ∀ s, (readDigits base s).2.length ≤ s.length :=
    fun s ↦ (List.dropWhile_suffix (l := s) _).length_le
  refine (hdigits _).trans (le_trans ?_ hsign)
  split_ifs
  · exact hdrop _
  · exact le_rfl

section Numerals

variable {base n : ℕ} {ds s : List UInt8} {b : UInt8}

theorem takeWhile_append_of_all {p : UInt8 → Bool} (hds : ∀ d ∈ ds, p d = true)
    (hb : p b = false) : (ds ++ b :: s).takeWhile p = ds := by
  rw [List.takeWhile_append_of_pos hds, List.takeWhile_cons_of_neg (by simp [hb]), List.append_nil]

theorem dropWhile_append_of_all {p : UInt8 → Bool} (hds : ∀ d ∈ ds, p d = true)
    (hb : p b = false) : (ds ++ b :: s).dropWhile p = b :: s := by
  rw [List.dropWhile_append_of_pos hds, List.dropWhile_cons_of_neg (by simp [hb])]

/-- Digits are read up to the end of the numeral. -/
theorem readDigits_numeral (hds : Numeral base n ds) (hb : isDigit base b = false) :
    readDigits base (ds ++ b :: s) = (some n, b :: s) := by
  rw [readDigits, takeWhile_append_of_all hds.digits hb, dropWhile_append_of_all hds.digits hb]
  simp only [if_neg hds.ne_nil, hds.value]

/-- Hexadecimal digits are not mistaken for the prefix. -/
theorem dropHexPrefix_digits (hds : ∀ d ∈ ds, isDigit 16 d = true) (hne : ds ≠ [])
    (hb : b ≠ 120 ∧ b ≠ 88) : dropHexPrefix (ds ++ b :: s) = ds ++ b :: s := by
  rcases ds with - | ⟨d, - | ⟨x, ds⟩⟩
  · exact absurd rfl hne
  · exact if_neg fun h ↦ h.2.elim hb.1 hb.2
  · refine if_neg fun h ↦ ?_
    have hx := hds x (by simp)
    rcases h.2 with rfl | rfl <;> exact absurd hx (by decide)

/-- **A numeral is read back**, up to a character that does not continue it. -/
theorem readInteger_numeral (hds : Numeral base n ds) (hb : isDigit base b = false)
    (hx : b ≠ 120 ∧ b ≠ 88) : readInteger base (ds ++ b :: s) = (some (n : ℤ), b :: s) := by
  have hsign : readSign (ds ++ b :: s) = (false, ds ++ b :: s) := by
    rcases ds with - | ⟨d, ds⟩
    · exact absurd rfl hds.ne_nil
    · obtain ⟨hplus, hminus⟩ := not_sign_of_isDigit (hds.digits d List.mem_cons_self)
      rw [List.cons_append, readSign, if_neg hplus, if_neg hminus]
  have hdrop : (if base = 16 then dropHexPrefix (ds ++ b :: s) else ds ++ b :: s) =
      ds ++ b :: s := by
    split_ifs with h16
    · exact dropHexPrefix_digits (h16 ▸ hds.digits) hds.ne_nil hx
    · rfl
  rw [readInteger, hsign]
  dsimp only
  rw [hdrop, readDigits_numeral hds hb]
  rfl

end Numerals

/-! ### Directives -/

/-- A directive of a format: `%c`, white space, an ordinary character, `%lx`, `%d`. -/
inductive Directive where
  | char
  | space
  | ordinary (c : UInt8)
  | hexLong
  | int
  deriving DecidableEq, Repr

/-- What a conversion assigns. -/
inductive Value where
  | char (c : UInt8)
  | long (v : BitVec 64)
  | int (v : BitVec 32)
  deriving DecidableEq, Repr

/-- How a directive ends: it matches, with what it assigns and the input after it; or it fails for
other characters; or for want of characters; or it assigns a value out of range. -/
inductive Outcome where
  | matched (assigned : Option Value) (rest : List UInt8)
  | mismatch (rest : List UInt8)
  | inputFailure
  | undefined
  deriving DecidableEq, Repr

/-- An integer conversion in the given base, which assigns by `store`. -/
def readNumber (base : ℕ) (store : ℤ → Option Value) (s : List UInt8) : Outcome :=
  match s.dropWhile isSpace with
  | [] => .inputFailure
  | b :: s =>
    match readInteger base (b :: s) with
    | (none, rest) => .mismatch rest
    | (some v, rest) => (store v).elim .undefined fun x ↦ .matched (some x) rest

/-- The object of a `%lx`, which takes what `strtoul` can return. -/
def storeLong (v : ℤ) : Option Value :=
  if -2 ^ 64 < v ∧ v < 2 ^ 64 then some (.long (BitVec.ofInt 64 v)) else none

/-- The object of a `%d`. -/
def storeInt (v : ℤ) : Option Value :=
  if -2 ^ 31 ≤ v ∧ v < 2 ^ 31 then some (.int (BitVec.ofInt 32 v)) else none

/-- The execution of a directive. -/
def Directive.read : Directive → List UInt8 → Outcome
  | .char, [] => .inputFailure
  | .char, b :: s => .matched (some (.char b)) s
  | .space, s => .matched none (s.dropWhile isSpace)
  | .ordinary _, [] => .inputFailure
  | .ordinary c, b :: s => if b = c then .matched none s else .mismatch (b :: s)
  | .hexLong, s => readNumber 16 storeLong s
  | .int, s => readNumber 10 storeInt s

/-- What is left of the input after a directive that does not find it used up. -/
def Outcome.rest? : Outcome → Option (List UInt8)
  | .matched _ rest | .mismatch rest => some rest
  | .inputFailure | .undefined => none

theorem readNumber_length_le {base : ℕ} {store : ℤ → Option Value} {s rest : List UInt8}
    (h : (readNumber base store s).rest? = some rest) : rest.length ≤ s.length := by
  have hskip := (List.dropWhile_suffix (l := s) isSpace).length_le
  rw [readNumber] at h
  generalize s.dropWhile isSpace = t at h hskip
  rcases t with - | ⟨b, t⟩
  · exact absurd h (by simp [Outcome.rest?])
  have hle := readInteger_length_le base (b :: t)
  dsimp only at h
  generalize readInteger base (b :: t) = q at h hle
  rcases q with ⟨- | v, rest'⟩
  · exact Option.some.inj h ▸ hle.trans hskip
  · dsimp only at h
    generalize store v = x at h
    rcases x with - | x
    · exact absurd h (by simp [Outcome.rest?])
    · exact Option.some.inj h ▸ hle.trans hskip

/-- No directive puts characters back. -/
theorem Directive.read_length_le (d : Directive) (s : List UInt8) {rest : List UInt8}
    (h : (d.read s).rest? = some rest) : rest.length ≤ s.length := by
  cases d with
  | char =>
    rcases s with - | ⟨b, s⟩
    · exact absurd h (by simp [read, Outcome.rest?])
    · exact Option.some.inj h ▸ Nat.le_succ _
  | space => exact Option.some.inj h ▸ (List.dropWhile_suffix (l := s) isSpace).length_le
  | ordinary c =>
    rcases s with - | ⟨b, s⟩
    · exact absurd h (by simp [read, Outcome.rest?])
    · rw [read] at h
      split_ifs at h
      · exact Option.some.inj h ▸ Nat.le_succ _
      · exact Option.some.inj h ▸ le_rfl
  | hexLong => exact readNumber_length_le h
  | int => exact readNumber_length_le h

/-- A directive skips white space and reads a numeral back. -/
theorem readNumber_numeral {base n : ℕ} {store : ℤ → Option Value} {x : Value}
    {blank ds s : List UInt8} {b : UInt8} (hblank : ∀ c ∈ blank, isSpace c = true)
    (hds : Numeral base n ds) (hb : isDigit base b = false) (hx : b ≠ 120 ∧ b ≠ 88)
    (hstore : store n = some x) :
    readNumber base store (blank ++ (ds ++ b :: s)) = .matched (some x) (b :: s) := by
  obtain ⟨d, ds, rfl⟩ := List.exists_cons_of_ne_nil hds.ne_nil
  have hskip : (blank ++ (d :: ds ++ b :: s)).dropWhile isSpace = d :: ds ++ b :: s := by
    have hd := isSpace_eq_false_of_isDigit (hds.digits d List.mem_cons_self)
    exact dropWhile_append_of_all hblank hd
  have hread := readInteger_numeral (s := s) hds hb hx
  rw [List.cons_append] at hread
  rw [readNumber, hskip, List.cons_append]
  dsimp only
  rw [hread]
  dsimp only
  rw [hstore, Option.elim_some]

/-- A character that is no white space, no sign and no digit ends the conversion where it is. -/
theorem readNumber_mismatch {base : ℕ} {store : ℤ → Option Value} {b : UInt8} {s : List UInt8}
    (hspace : isSpace b = false) (hsign : b ≠ 43 ∧ b ≠ 45) (hzero : b ≠ 48)
    (hb : isDigit base b = false) : readNumber base store (b :: s) = .mismatch (b :: s) := by
  have hread : readInteger base (b :: s) = (none, b :: s) := by
    have hdrop : (if base = 16 then dropHexPrefix (b :: s) else b :: s) = b :: s := by
      split_ifs
      · rcases s with - | ⟨x, s⟩
        · rfl
        · exact if_neg fun h ↦ hzero h.1
      · rfl
    rw [readInteger, readSign, if_neg hsign.1, if_neg hsign.2]
    dsimp only
    rw [hdrop, readDigits, List.takeWhile_cons_of_neg (by simp [hb]),
      List.dropWhile_cons_of_neg (by simp [hb])]
    rfl
  rw [readNumber, List.dropWhile_cons_of_neg (by simp [hspace])]
  dsimp only
  rw [hread]

/-! ### A call -/

/-- What a call does: it returns `EOF`; or it returns the number of the values it has assigned, and
leaves the rest of the input; or its behaviour is undefined. -/
inductive Result where
  | eof
  | returned (values : List Value) (rest : List UInt8)
  | undefined
  deriving DecidableEq, Repr

/-- The rest of a call that has assigned `values`. -/
def scanfFrom (values : List Value) : List Directive → List UInt8 → Result
  | [], s => .returned values s
  | d :: ds, s =>
    match d.read s with
    | .matched assigned rest => scanfFrom (values ++ assigned.toList) ds rest
    | .mismatch rest => .returned values rest
    | .inputFailure => if values = [] then .eof else .returned values []
    | .undefined => .undefined

/-- `scanf(format, ...)` on the input. -/
def scanf (format : List Directive) (s : List UInt8) : Result := scanfFrom [] format s

section Calls

variable {values : List Value} {d : Directive} {ds : List Directive} {s rest : List UInt8}

theorem scanfFrom_of_matched {assigned : Option Value} (h : d.read s = .matched assigned rest) :
    scanfFrom values (d :: ds) s = scanfFrom (values ++ assigned.toList) ds rest := by
  rw [scanfFrom, h]

theorem scanfFrom_of_mismatch (h : d.read s = .mismatch rest) :
    scanfFrom values (d :: ds) s = .returned values rest := by
  rw [scanfFrom, h]

/-- A call whose format begins with `%c` takes a character, unless there is none. -/
theorem scanf_char_nil : scanf (.char :: ds) [] = .eof := rfl

theorem scanf_char_cons {b : UInt8} :
    scanf (.char :: ds) (b :: s) = scanfFrom [.char b] ds s := rfl

theorem scanfFrom_length_le (ds : List Directive) : ∀ {values values' : List Value}
    {s rest : List UInt8}, scanfFrom values ds s = .returned values' rest →
      rest.length ≤ s.length := by
  induction ds with
  | nil =>
    intro values values' s rest h
    obtain ⟨-, rfl⟩ := Result.returned.inj h
    exact le_rfl
  | cons d ds ih =>
    intro values values' s rest h
    have hle := fun rest' ↦ @Directive.read_length_le d s rest'
    rw [scanfFrom] at h
    generalize d.read s = o at h hle
    rcases o with ⟨assigned, rest'⟩ | rest' | - | -
    · exact (ih h).trans (hle rest' rfl)
    · obtain ⟨-, rfl⟩ := Result.returned.inj h
      exact hle rest' rfl
    · dsimp only at h
      split_ifs at h
      obtain ⟨-, rfl⟩ := Result.returned.inj h
      exact Nat.zero_le _
    · exact absurd h (by simp)

/-- A call that begins with `%c` and returns has taken a character. -/
theorem length_lt_of_scanf_char (h : scanf (.char :: ds) s = .returned values rest) :
    rest.length < s.length := by
  rcases s with - | ⟨b, s⟩
  · exact absurd h (by simp [scanf_char_nil])
  · exact Nat.lt_succ_of_le (scanfFrom_length_le ds h)

end Calls

end Scanf
