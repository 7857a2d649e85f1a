import CsappCode.Library.Scanf
import CsappCode.CacheLab.Traces

/-!
# Reading a trace file

`main` counts the lines of the trace with `num_lines`, makes room for as many operations, and lets
`parse_traces` fill it. Nothing in the format `"%c %lx,%d\n"` skips the space in front of a data
line. It is the white space at the end of the format that does, one line ahead; on the first line
`%c` takes the space itself, `%lx` fails on the letter, and the loop sees that `size` still is -1.

* `parseTraces` and `numLines` are the two functions, on the bytes of the file.
* `Rendered` is the documented format of a line, in whatever digits and white space.
* `scanf_lineBody` scans one line. `parseLoop_rendered` is the induction over the file, for a
  scanner that stands behind the white space in front of the next line.
* `traces_round_trip` puts the two functions together.

## What is assumed

**The operations** are documented ones: one of the four letters, with an address and a size that are
not negative. A file of them may be of any length. `parseTraces` itself is defined on any file, and
the modules that follow are about the others.

**`fscanf`** is the interpreter of `Scanf`, with the conversions of this one format. A number out of
range has no value there.

**Counting.** A counter of type `int` counts to `2 ^ 31 - 1`, and so `numLines` says how many lines
there are as long as there are fewer than `2 ^ 31` (`numLines_wraps`). The indices at which the
operations are stored are 32-bit too.
-/

namespace CsappCode.CacheLab

open Scanf

/-! ### `parse_traces` -/

def newlineChar : UInt8 := 10
def commaChar : UInt8 := ','.toUInt8
def spaceChar : UInt8 := ' '.toUInt8

/-- `"%c %lx,%d\n"` -/
def traceFormat : List Directive := [.char, .space, .hexLong, .ordinary commaChar, .int, .space]

/-- The variables `op`, `address` and `size` after a call of `fscanf` has assigned to them. -/
def assign (vars : Operation) : List Value → Operation
  | [.char op] => { vars with op := op }
  | [.char op, .long address] => { vars with op := op, address := address }
  | [.char op, .long address, .int size] => ⟨op, address, size⟩
  | _ => vars

/-- The loop of `parse_traces`, for at most `fuel` turns: the stores into `operations`, each with
its index. There is no value when a call of `fscanf` is undefined. -/
def parseLoop : ℕ → Operation → BitVec 32 → List UInt8 → Option (List (BitVec 32 × Operation))
  | 0, _, _, _ => none
  | fuel + 1, vars, i, file =>
    match scanf traceFormat file with
    | .undefined => none
    | .eof => some []
    | .returned values rest =>
      if (assign vars values).size = -1 then parseLoop fuel (assign vars values) i rest
      else (parseLoop fuel (assign vars values) (i + 1) rest).map ((i, assign vars values) :: ·)

/-- `parse_traces(operations, filename)` on the bytes of the file. The variables `op` and `address`
are not initialised. -/
def parseTraces (op : UInt8) (address : BitVec 64) (file : List UInt8) :
    Option (List (BitVec 32 × Operation)) :=
  parseLoop (file.length + 1) ⟨op, address, -1⟩ 0 file

/-- **The loop ends on every file**: each turn takes a character, so more turns than these change
nothing. -/
theorem parseLoop_fuel (fuel : ℕ) : ∀ {fuel' : ℕ} {vars : Operation} {i : BitVec 32}
    {file : List UInt8}, file.length < fuel → file.length < fuel' →
      parseLoop fuel vars i file = parseLoop fuel' vars i file := by
  induction fuel with
  | zero => exact fun h ↦ absurd h (Nat.not_lt_zero _)
  | succ fuel ih =>
    intro fuel' vars i file hfuel hfuel'
    obtain ⟨fuel', rfl⟩ := Nat.exists_eq_add_one_of_ne_zero
      (Nat.ne_of_gt (Nat.zero_lt_of_lt hfuel'))
    rw [parseLoop, parseLoop]
    rcases hscan : scanf traceFormat file with - | ⟨values, rest⟩ | -
    · rfl
    · have hlt := length_lt_of_scanf_char hscan
      have hrest := fun {vars : Operation} {i : BitVec 32} ↦
        @ih fuel' vars i rest (by omega) (by omega)
      dsimp only
      rw [hrest, hrest]
    · rfl

/-! ### `num_lines` -/

/-- The loop of `num_lines`, for at most `fuel` turns. -/
def numLinesLoop : ℕ → BitVec 32 → List UInt8 → Option (BitVec 32)
  | 0, _, _ => none
  | fuel + 1, n, file =>
    match scanf [.char] file with
    | .eof => some n
    | .returned [.char c] rest => numLinesLoop fuel (if c = newlineChar then n + 1 else n) rest
    | _ => none

/-- `num_lines(filename)` on the bytes of the file. -/
def numLines (file : List UInt8) : Option (BitVec 32) := numLinesLoop (file.length + 1) 0 file

theorem numLinesLoop_eq (file : List UInt8) : ∀ {fuel : ℕ} (n : BitVec 32), file.length < fuel →
    numLinesLoop fuel n file = some (n + BitVec.ofNat 32 (file.count newlineChar)) := by
  induction file with
  | nil =>
    intro fuel n hfuel
    obtain ⟨fuel, rfl⟩ := Nat.exists_eq_add_one_of_ne_zero (Nat.ne_of_gt hfuel)
    rw [numLinesLoop, scanf_char_nil, List.count_nil]
    exact congrArg some (BitVec.add_zero n).symm
  | cons c file ih =>
    intro fuel n hfuel
    rw [List.length_cons] at hfuel
    obtain ⟨fuel, rfl⟩ := Nat.exists_eq_add_one_of_ne_zero (Nat.ne_of_gt (Nat.zero_lt_of_lt hfuel))
    rw [numLinesLoop, scanf_char_cons, scanfFrom]
    dsimp only
    rw [ih _ (Nat.lt_of_succ_lt_succ hfuel)]
    rcases eq_or_ne c newlineChar with rfl | hne
    · rw [if_pos rfl, List.count_cons_self, BitVec.ofNat_add, BitVec.add_assoc,
        BitVec.add_comm (BitVec.ofNat 32 _)]
      rfl
    · rw [if_neg hne, List.count_cons_of_ne hne]

/-- **`num_lines` counts the newlines**, as an `int` does. -/
theorem numLines_eq (file : List UInt8) :
    numLines file = some (BitVec.ofNat 32 (file.count newlineChar)) := by
  rw [numLines, numLinesLoop_eq file 0 (Nat.lt_succ_self _)]
  exact congrArg some (BitVec.zero_add _)

/-! ### The documented format -/

/-- The line in front of which stands a space, unless it records an instruction. -/
def indent (op : UInt8) : List UInt8 := if op = 'I'.toUInt8 then [] else [spaceChar]

/-- A line behind its indentation. -/
def lineBody (op : UInt8) (blank hex dec : List UInt8) : List UInt8 :=
  op :: (blank ++ (hex ++ commaChar :: (dec ++ [newlineChar])))

/-- The line renders the operation: an `I` in column 0 or another letter behind a space, white
space, the address in hexadecimal, a comma, the size in decimal, and a newline. -/
inductive Rendered : Operation → List UInt8 → Prop
  | line {op : UInt8} {address : BitVec 64} {size : BitVec 32} {blank hex dec : List UInt8}
      (hblank : blank ≠ []) (hspace : ∀ b ∈ blank, isSpace b = true ∧ b ≠ newlineChar)
      (hhex : Numeral 16 address.toNat hex) (hdec : Numeral 10 size.toNat dec) :
      Rendered ⟨op, address, size⟩ (indent op ++ lineBody op blank hex dec)

/-- Every operation has a rendering. -/
theorem exists_rendered (o : Operation) : ∃ line, Rendered o line := by
  obtain ⟨hex, hhex⟩ := exists_numeral (by decide : 2 ≤ 16) (by decide) o.address.toNat
  obtain ⟨dec, hdec⟩ := exists_numeral (by decide : 2 ≤ 10) (by decide) o.size.toNat
  refine ⟨_, .line (List.cons_ne_nil spaceChar []) (fun b hb ↦ ?_) hhex hdec⟩
  rw [List.mem_singleton.1 hb]
  decide

/-- What the format can record: one of the four letters, and numbers that are not negative. -/
structure Operation.Documented (o : Operation) : Prop where
  op : o.op ∈ traceOps
  address : 0 ≤ o.address.toInt
  size : 0 ≤ o.size.toInt

/-! ### Scanning a line -/

section Line

variable {op : UInt8} {address : BitVec 64} {size : BitVec 32} {blank hex dec rest : List UInt8}

/-- None of the letters is white space, or can begin a hexadecimal integer. -/
theorem traceOps_char (hop : op ∈ traceOps) :
    isSpace op = false ∧ (op ≠ 43 ∧ op ≠ 45) ∧ op ≠ 48 ∧ isDigit 16 op = false := by
  simp only [traceOps, List.mem_cons, List.not_mem_nil, or_false] at hop
  rcases hop with rfl | rfl | rfl | rfl <;> decide

theorem storeLong_toNat (address : BitVec 64) :
    storeLong address.toNat = some (.long address) := by
  have := address.isLt
  rw [storeLong, if_pos (by omega), BitVec.ofInt_natCast, BitVec.ofNat_toNat, BitVec.setWidth_eq]

theorem storeInt_toNat (hsize : size.toNat < 2 ^ 31) : storeInt size.toNat = some (.int size) := by
  rw [storeInt, if_pos (by omega), BitVec.ofInt_natCast, BitVec.ofNat_toNat, BitVec.setWidth_eq]

/-- **One call scans one line** and the white space in front of the next. -/
theorem scanf_lineBody (hspace : ∀ b ∈ blank, isSpace b = true)
    (hhex : Numeral 16 address.toNat hex) (hdec : Numeral 10 size.toNat dec)
    (hsize : size.toNat < 2 ^ 31) :
    scanf traceFormat (lineBody op blank hex dec ++ rest) =
      .returned [.char op, .long address, .int size] (rest.dropWhile isSpace) := by
  obtain ⟨d, hex', hcons⟩ := List.exists_cons_of_ne_nil hhex.ne_nil
  have hline : lineBody op blank hex dec ++ rest =
      op :: (blank ++ (hex ++ commaChar :: (dec ++ newlineChar :: rest))) := by
    simp [lineBody]
  have hskip : (blank ++ (hex ++ commaChar :: (dec ++ newlineChar :: rest))).dropWhile isSpace =
      hex ++ commaChar :: (dec ++ newlineChar :: rest) := by
    have hd := isSpace_eq_false_of_isDigit (hhex.digits d (by rw [hcons]; simp))
    rw [hcons]
    exact dropWhile_append_of_all hspace hd
  have hlong : Directive.read .hexLong (hex ++ commaChar :: (dec ++ newlineChar :: rest)) =
      .matched (some (.long address)) (commaChar :: (dec ++ newlineChar :: rest)) :=
    @readNumber_numeral 16 _ _ _ [] _ _ _ (by simp) hhex (by decide) (by decide)
      (storeLong_toNat address)
  have hcomma : Directive.read (.ordinary commaChar) (commaChar :: (dec ++ newlineChar :: rest)) =
      .matched none (dec ++ newlineChar :: rest) := by
    rw [Directive.read, if_pos rfl]
  have hint : Directive.read .int (dec ++ newlineChar :: rest) =
      .matched (some (.int size)) (newlineChar :: rest) :=
    @readNumber_numeral 10 _ _ _ [] _ _ _ (by simp) hdec (by decide) (by decide)
      (storeInt_toNat hsize)
  have hnext : Directive.read .space (newlineChar :: rest) =
      .matched none (rest.dropWhile isSpace) := rfl
  rw [hline, traceFormat, scanf_char_cons, scanfFrom_of_matched (congrArg _ hskip),
    scanfFrom_of_matched hlong, scanfFrom_of_matched hcomma, scanfFrom_of_matched hint,
    scanfFrom_of_matched hnext]
  rfl

/-- The first line's space is taken for the operation, and then the letter is no address. -/
theorem scanf_indented (hop : op ∈ traceOps) :
    scanf traceFormat (spaceChar :: (lineBody op blank hex dec ++ rest)) =
      .returned [.char spaceChar] (lineBody op blank hex dec ++ rest) := by
  obtain ⟨hspace, hsign, hzero, hdigit⟩ := traceOps_char hop
  have hskip : (lineBody op blank hex dec ++ rest).dropWhile isSpace =
      lineBody op blank hex dec ++ rest :=
    List.dropWhile_cons_of_neg (by simp [hspace])
  have hlong : Directive.read .hexLong (lineBody op blank hex dec ++ rest) =
      .mismatch (lineBody op blank hex dec ++ rest) :=
    readNumber_mismatch hspace hsign hzero hdigit
  rw [traceFormat, scanf_char_cons, scanfFrom_of_matched (congrArg _ hskip),
    scanfFrom_of_mismatch hlong]
  rfl

/-- Behind its white space a line begins with its letter. -/
theorem dropWhile_indent (hop : op ∈ traceOps) :
    (indent op ++ lineBody op blank hex dec ++ rest).dropWhile isSpace =
      lineBody op blank hex dec ++ rest := by
  have hspace : ∀ b ∈ indent op, isSpace b = true := by
    intro b hb
    rw [indent] at hb
    split_ifs at hb
    · exact absurd hb (by simp)
    · obtain rfl := List.mem_singleton.1 hb
      decide
  rw [List.append_assoc]
  exact dropWhile_append_of_all hspace (traceOps_char hop).1

end Line

/-! ### The file -/

theorem size_ne_of_nonneg {size : BitVec 32} (hsize : 0 ≤ size.toInt) :
    size ≠ -1 ∧ size.toNat < 2 ^ 31 := by
  refine ⟨?_, ?_⟩
  · rintro rfl
    exact absurd hsize (by decide)
  · have := BitVec.toInt_eq_toNat_cond size
    have := size.isLt
    omega

/-- One turn of the loop. -/
theorem parseLoop_of_returned (vars' : Operation) {fuel : ℕ} {vars : Operation} {i : BitVec 32}
    {file rest : List UInt8} {values : List Value}
    (hscan : scanf traceFormat file = .returned values rest) (hvars : assign vars values = vars') :
    parseLoop (fuel + 1) vars i file =
      if vars'.size = -1 then parseLoop fuel vars' i rest
      else (parseLoop fuel vars' (i + 1) rest).map ((i, vars') :: ·) := by
  subst hvars
  rw [parseLoop, hscan]

/-- **The loop over a rendered file**, from behind the white space in front of its first line: it
stores the operations one after the other, whatever the variables hold. -/
theorem parseLoop_rendered {ops : List Operation} {lines : List (List UInt8)}
    (hlines : List.Forall₂ Rendered ops lines) :
    (∀ o ∈ ops, o.Documented) → ∀ {fuel : ℕ} {vars : Operation} {i : BitVec 32},
      (lines.flatten.dropWhile isSpace).length < fuel →
        parseLoop fuel vars i (lines.flatten.dropWhile isSpace) =
          some (ops.mapIdx fun k o ↦ (i + BitVec.ofNat 32 k, o)) := by
  induction hlines with
  | nil =>
    intro _ fuel vars i hfuel
    obtain ⟨fuel, rfl⟩ := Nat.exists_eq_add_one_of_ne_zero (Nat.ne_of_gt hfuel)
    rfl
  | @cons o line ops lines hline hlines ih =>
    intro hops fuel vars i hfuel
    obtain ⟨fuel, rfl⟩ := Nat.exists_eq_add_one_of_ne_zero
      (Nat.ne_of_gt (Nat.zero_lt_of_lt hfuel))
    have hdoc := hops o List.mem_cons_self
    obtain @⟨op, address, size, blank, hex, dec, -, hspace, hhex, hdec⟩ := hline
    obtain ⟨hne, hlt⟩ := size_ne_of_nonneg hdoc.size
    rw [List.flatten_cons, dropWhile_indent hdoc.op] at hfuel ⊢
    have hshorter : (lines.flatten.dropWhile isSpace).length < fuel := by
      have := (List.dropWhile_suffix (l := lines.flatten) isSpace).length_le
      rw [List.length_append, lineBody, List.length_cons] at hfuel
      omega
    have hscan := @scanf_lineBody op _ _ _ _ _ lines.flatten (fun b hb ↦ (hspace b hb).1)
      hhex hdec hlt
    rw [parseLoop_of_returned ⟨op, address, size⟩ hscan rfl, if_neg hne,
      ih (fun o ho ↦ hops o (List.mem_cons_of_mem _ ho)) hshorter, List.mapIdx_cons]
    simp [BitVec.add_assoc, BitVec.ofNat_add, BitVec.add_comm (1#32)]

/-- **A rendered file is read back**, whether or not its first line is indented. -/
theorem parseTraces_rendered {ops : List Operation} {lines : List (List UInt8)}
    (hops : ∀ o ∈ ops, o.Documented) (hlines : List.Forall₂ Rendered ops lines) (op : UInt8)
    (address : BitVec 64) :
    parseTraces op address lines.flatten =
      some (ops.mapIdx fun k o ↦ (BitVec.ofNat 32 k, o)) := by
  have hloop : ∀ (fuel : ℕ) (vars : Operation),
      (lines.flatten.dropWhile isSpace).length < fuel →
        parseLoop fuel vars 0 (lines.flatten.dropWhile isSpace) =
          some (ops.mapIdx fun k o ↦ (BitVec.ofNat 32 k, o)) := by
    intro fuel vars hfuel
    rw [parseLoop_rendered hlines hops hfuel]
    exact congrArg some (congrArg (List.mapIdx · ops) (funext₂ fun k o ↦ by simp))
  rcases hlines with - | @⟨o, line, ops, lines, hline, hlines⟩
  · rfl
  have hdoc := hops o List.mem_cons_self
  obtain @⟨letter, a, n, blank, hex, dec, -, hspace, hhex, hdec⟩ := hline
  rw [List.flatten_cons, dropWhile_indent hdoc.op] at hloop
  rw [parseTraces, List.flatten_cons, List.append_assoc]
  by_cases hI : letter = 'I'.toUInt8
  · rw [indent, if_pos hI, List.nil_append]
    exact hloop _ _ (Nat.lt_succ_self _)
  · -- the first turn stores nothing, and leaves the scanner in front of the letter
    rw [indent, if_neg hI, List.singleton_append,
      parseLoop_of_returned ⟨spaceChar, address, -1⟩ (scanf_indented hdoc.op) rfl,
      if_pos rfl]
    exact hloop _ _ (Nat.lt_succ_self _)

/-- A rendered line has one newline, at its end. -/
theorem Rendered.count_newline {o : Operation} {line : List UInt8} (hline : Rendered o line)
    (hop : o.op ∈ traceOps) : line.count newlineChar = 1 := by
  obtain @⟨letter, address, size, blank, hex, dec, -, hspace, hhex, hdec⟩ := hline
  have hindent : ∀ op, newlineChar ∉ indent op := by
    intro op h
    rw [indent] at h
    split_ifs at h
    · exact absurd h (by simp)
    · exact absurd h (by decide)
  have hletter : letter ≠ newlineChar := by
    intro h
    have hspace : isSpace newlineChar = false := h ▸ (traceOps_char hop).1
    exact absurd hspace (by decide)
  have hdigits : ∀ {base n : ℕ} {ds : List UInt8}, Numeral base n ds → newlineChar ∉ ds :=
    fun hds hmem ↦ absurd (le_of_isDigit (hds.digits _ hmem)) (by decide)
  rw [lineBody, List.count_append, List.count_eq_zero.2 (hindent _),
    List.count_cons_of_ne hletter, List.count_append,
    List.count_eq_zero.2 fun h ↦ (hspace _ h).2 rfl, List.count_append,
    List.count_eq_zero.2 (hdigits hhex), List.count_cons_of_ne (by decide), List.count_append,
    List.count_eq_zero.2 (hdigits hdec), List.count_singleton_self]

/-- A rendered file has a newline for each operation. -/
theorem count_newline {ops : List Operation} {lines : List (List UInt8)}
    (hlines : List.Forall₂ Rendered ops lines) :
    (∀ o ∈ ops, o.Documented) → lines.flatten.count newlineChar = ops.length := by
  induction hlines with
  | nil => exact fun _ ↦ rfl
  | @cons o line ops lines hline _ ih =>
    intro hops
    have hone := hline.count_newline (hops o List.mem_cons_self).op
    rw [List.flatten_cons, List.count_append, hone,
      ih fun o ho ↦ hops o (List.mem_cons_of_mem _ ho), List.length_cons, Nat.add_comm]

/-- **Traces survive the round trip through a file.** Whatever documented operations are rendered,
one to a line and the first in either form, `parse_traces` stores them in order at the indices
`0, 1, 2, …`, and `num_lines` returns their number, both as `int`s: the number itself as long as
there are fewer than `2 ^ 31`. -/
theorem traces_round_trip {ops : List Operation} {lines : List (List UInt8)}
    (hops : ∀ o ∈ ops, o.Documented) (hlines : List.Forall₂ Rendered ops lines) (op : UInt8)
    (address : BitVec 64) :
    parseTraces op address lines.flatten =
        some (ops.mapIdx fun k o ↦ (BitVec.ofNat 32 k, o)) ∧
      numLines lines.flatten = some (BitVec.ofNat 32 ops.length) ∧
      (ops.length < 2 ^ 31 → (BitVec.ofNat 32 ops.length).toInt = ops.length) := by
  refine ⟨parseTraces_rendered hops hlines op address, ?_, fun hlt ↦ ?_⟩
  · rw [numLines_eq, count_newline hlines hops]
  · rw [BitVec.toInt_ofNat', Int.bmod_eq_of_le] <;> omega

/-- The first two lines of `trans.trace`, ` S 00600aa0,1` and `I  004005b6,5`. -/
theorem traces_round_trip_trans :
    let ops : List Operation := [⟨83, 0x600aa0#64, 1#32⟩, ⟨73, 0x4005b6#64, 5#32⟩]
    let file : List UInt8 := [[32, 83, 32, 48, 48, 54, 48, 48, 97, 97, 48, 44, 49, 10],
      [73, 32, 32, 48, 48, 52, 48, 48, 53, 98, 54, 44, 53, 10]].flatten
    parseTraces 0 0 file = some (ops.mapIdx fun k o ↦ (BitVec.ofNat 32 k, o)) ∧
      numLines file = some (BitVec.ofNat 32 ops.length) ∧
      (ops.length < 2 ^ 31 → (BitVec.ofNat 32 ops.length).toInt = ops.length) := by
  have hstore : Rendered ⟨83, 0x600aa0#64, 1#32⟩
      [32, 83, 32, 48, 48, 54, 48, 48, 97, 97, 48, 44, 49, 10] :=
    @Rendered.line 83 _ _ [32] [48, 48, 54, 48, 48, 97, 97, 48] [49] (by decide)
      (by simp [isSpace, newlineChar]) ⟨by decide, List.all_eq_true.1 rfl, rfl⟩
      ⟨by decide, List.all_eq_true.1 rfl, rfl⟩
  have hfetch : Rendered ⟨73, 0x4005b6#64, 5#32⟩
      [73, 32, 32, 48, 48, 52, 48, 48, 53, 98, 54, 44, 53, 10] :=
    @Rendered.line 73 _ _ [32, 32] [48, 48, 52, 48, 48, 53, 98, 54] [53] (by decide)
      (by simp [isSpace, newlineChar]) ⟨by decide, List.all_eq_true.1 rfl, rfl⟩
      ⟨by decide, List.all_eq_true.1 rfl, rfl⟩
  refine traces_round_trip (fun o ho ↦ ?_) (.cons hstore (.cons hfetch .nil)) 0 0
  simp only [List.mem_cons, List.not_mem_nil, or_false] at ho
  rcases ho with rfl | rfl <;> exact ⟨by decide, by decide, by decide⟩

/-- The fetch of the instruction at address 0. -/
def fetchZero : Operation := ⟨73, 0, 0⟩

/-- `I 0,0` -/
def fetchZeroLine : List UInt8 := [73, 32, 48, 44, 48, 10]

theorem fetchZero_rendered : Rendered fetchZero fetchZeroLine :=
  @Rendered.line 73 _ _ [32] [48] [48] (by decide) (by simp [isSpace, newlineChar])
    ⟨by decide, List.all_eq_true.1 rfl, rfl⟩ ⟨by decide, List.all_eq_true.1 rfl, rfl⟩

theorem replicate_rendered (n : ℕ) :
    (∀ o ∈ List.replicate n fetchZero, o.Documented) ∧
      List.Forall₂ Rendered (List.replicate n fetchZero) (List.replicate n fetchZeroLine) := by
  refine ⟨fun o ho ↦ ?_, ?_⟩
  · rw [List.eq_of_mem_replicate ho]
    exact ⟨by decide, by decide, by decide⟩
  · induction n with
    | zero => exact .nil
    | succ n ih => exact .cons fetchZero_rendered ih

/-- On `2 ^ 31` lines the `int` that `num_lines` returns is not their number. -/
theorem numLines_wraps :
    (∀ o ∈ List.replicate (2 ^ 31) fetchZero, o.Documented) ∧
      List.Forall₂ Rendered (List.replicate (2 ^ 31) fetchZero)
        (List.replicate (2 ^ 31) fetchZeroLine) ∧
      (numLines (List.replicate (2 ^ 31) fetchZeroLine).flatten).map BitVec.toInt =
        some (-2 ^ 31) ∧
      (List.replicate (2 ^ 31) fetchZero).length = 2 ^ 31 := by
  obtain ⟨hops, hlines⟩ := replicate_rendered (2 ^ 31)
  refine ⟨hops, hlines, ?_, List.length_replicate⟩
  rw [numLines_eq, count_newline hlines hops, List.length_replicate]
  decide

end CsappCode.CacheLab
