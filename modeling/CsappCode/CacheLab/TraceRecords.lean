import CsappCode.CacheLab.TraceFile
import CsappCode.Library.ScanfItems

/-!
# The records of a trace file

What `parse_traces` makes of a file that need not be in the documented format. `Record` says, on the
text alone, what one call of `fscanf` takes off the file: a character, and behind it as much of
`address,size` as is there. A record that breaks off assigns no size, and the operation that is
stored is then given the address and the size of the one before.

* `scanf_eq_of_record` and `exists_record` say that a call reads just the next record.
* `FileRecords` are the records of a file, one behind the other up to its end.
* `storedOps` are the characters of the records that `parse_traces` stores.
  `parseTraces_of_fileRecords` is the function in these terms, and `exists_fileRecords` says that
  there are no other files on which it is defined.

## The grammar and the interpreter

**The grammar** is written without `fscanf`: `NumberText` is the longest text of a number, and the
four constructors of `Record` are the places where a record can break off. The two directions are
proved apart, for a text can be read in one way only if it can be read at all.

**Numbers out of range.** A number that `strtoul` cannot convert, or that is no `int`, leaves the
conversion undefined; `InLong` and `InInt` are the ranges. A file with such a number has no records.

**The size in force.** The loop skips a record while `size` is -1. So whether a record is stored
depends on the last size that was read, which need not be its own (`Assigned.size_eq`).
-/

namespace CsappCode.CacheLab

open Scanf

/-! ### One call -/

/-- A number that `strtoul` can convert. -/
def InLong (v : ℤ) : Prop := -2 ^ 64 < v ∧ v < 2 ^ 64

/-- A number that an `int` can hold. -/
def InInt (v : ℤ) : Prop := -2 ^ 31 ≤ v ∧ v < 2 ^ 31

/-- **A record in front of `rest`**, with its character and the size if it has one. It is complete,
with the white space behind it; or there is no number behind the comma, or no comma behind the
address, or no address. -/
inductive Record : List UInt8 → UInt8 → Option ℤ → List UInt8 → Prop
  | complete {op : UInt8} {s₁ s₂ s₃ : List UInt8} {address size : ℤ} :
    NumberText 16 s₁ (some address) (commaChar :: s₂) → InLong address →
    NumberText 10 s₂ (some size) s₃ → InInt size →
    Record (op :: s₁) op (some size) (s₃.dropWhile isSpace)
  | noSize {op : UInt8} {s₁ s₂ rest : List UInt8} {address : ℤ} :
    NumberText 16 s₁ (some address) (commaChar :: s₂) → InLong address →
    NumberText 10 s₂ none rest → Record (op :: s₁) op none rest
  | noComma {op : UInt8} {s₁ rest : List UInt8} {address : ℤ} :
    NumberText 16 s₁ (some address) rest → InLong address → commaChar ∉ rest.head? →
    Record (op :: s₁) op none rest
  | noAddress {op : UInt8} {s₁ rest : List UInt8} : NumberText 16 s₁ none rest →
    Record (op :: s₁) op none rest

theorem storeLong_of_inLong {v : ℤ} (h : InLong v) :
    storeLong v = some (.long (BitVec.ofInt 64 v)) := if_pos h

theorem storeLong_of_not_inLong {v : ℤ} (h : ¬ InLong v) : storeLong v = none := if_neg h

theorem storeInt_of_inInt {v : ℤ} (h : InInt v) :
    storeInt v = some (.int (BitVec.ofInt 32 v)) := if_pos h

theorem storeInt_of_not_inInt {v : ℤ} (h : ¬ InInt v) : storeInt v = none := if_neg h

/-- The white space behind the `%c` of the format changes nothing, for the conversion behind it
skips white space too. -/
theorem numberText_dropWhile {base : ℕ} {s rest : List UInt8} {v : Option ℤ}
    (h : NumberText base s v rest) : NumberText base (s.dropWhile isSpace) v rest := by
  obtain @⟨blank, sign, pre, ds, rest, hblank, hhead, hitem⟩ := h
  have hskip : (blank ++ (sign ++ (pre ++ (ds ++ rest)))).dropWhile isSpace =
      sign ++ (pre ++ (ds ++ rest)) := by
    rw [List.dropWhile_append_of_pos hblank]
    rcases ht : sign ++ (pre ++ (ds ++ rest)) with - | ⟨b, t⟩
    · rfl
    · rw [ht] at hhead
      exact List.dropWhile_cons_of_neg (by simp [hhead b rfl])
  rw [hskip]
  exact @NumberText.mk base [] _ _ _ _ (fun b hb ↦ absurd hb List.not_mem_nil) hhead hitem

/-- The variables after a record: its character, and its size if it has one. -/
structure Assigned (vars vars' : Operation) (op : UInt8) (size : Option ℤ) : Prop where
  op : vars'.op = op
  size : vars'.size = size.elim vars.size (BitVec.ofInt 32)

/-- **A call reads a record.** -/
theorem scanf_eq_of_record {file rest : List UInt8} {op : UInt8} {size : Option ℤ}
    (h : Record file op size rest) : ∃ values, scanf traceFormat file = .returned values rest ∧
      ∀ vars, Assigned vars (assign vars values) op size := by
  cases h with
  | @complete _ s₁ s₂ s₃ address size haddress hlong hsize hint =>
    refine ⟨[.char op, .long (.ofInt 64 address), .int (.ofInt 32 size)], ?_, fun _ ↦ ⟨rfl, rfl⟩⟩
    rw [traceFormat, scanf_char_cons, scanfFrom_space,
      scanfFrom_number rfl (numberText_dropWhile haddress) (storeLong_of_inLong hlong),
      scanfFrom_ordinary, scanfFrom_number rfl hsize (storeInt_of_inInt hint), scanfFrom_space]
    rfl
  | @noSize _ s₁ s₂ _ address haddress hlong hsize =>
    refine ⟨[.char op, .long (.ofInt 64 address)], ?_, fun _ ↦ ⟨rfl, rfl⟩⟩
    rw [traceFormat, scanf_char_cons, scanfFrom_space,
      scanfFrom_number rfl (numberText_dropWhile haddress) (storeLong_of_inLong hlong),
      scanfFrom_ordinary, scanfFrom_noNumber rfl hsize (by simp)]
    rfl
  | @noComma _ s₁ _ address haddress hlong hcomma =>
    refine ⟨[.char op, .long (.ofInt 64 address)], ?_, fun _ ↦ ⟨rfl, rfl⟩⟩
    rw [traceFormat, scanf_char_cons, scanfFrom_space,
      scanfFrom_number rfl (numberText_dropWhile haddress) (storeLong_of_inLong hlong),
      scanfFrom_notOrdinary hcomma (by simp)]
    rfl
  | noAddress haddress =>
    refine ⟨[.char op], ?_, fun _ ↦ ⟨rfl, rfl⟩⟩
    rw [traceFormat, scanf_char_cons, scanfFrom_space,
      scanfFrom_noNumber rfl (numberText_dropWhile haddress) (by simp)]

/-- **A call that finds a character reads a record**, unless a number is out of range. -/
theorem exists_record (op : UInt8) (s : List UInt8) :
    scanf traceFormat (op :: s) = .undefined ∨ ∃ size rest, Record (op :: s) op size rest := by
  obtain ⟨v, s₁, haddress⟩ := exists_numberText 16 s
  rcases v with - | address
  · exact .inr ⟨none, s₁, .noAddress haddress⟩
  by_cases hlong : InLong address
  swap
  · refine .inl ?_
    rw [traceFormat, scanf_char_cons, scanfFrom_space]
    exact scanfFrom_outOfRange rfl (numberText_dropWhile haddress) (storeLong_of_not_inLong hlong)
  by_cases hcomma : commaChar ∈ s₁.head?
  swap
  · exact .inr ⟨none, s₁, .noComma haddress hlong hcomma⟩
  obtain ⟨s₂, rfl⟩ : ∃ s₂, s₁ = commaChar :: s₂ := by
    rcases s₁ with - | ⟨b, s₂⟩
    · exact absurd hcomma (by simp)
    · exact ⟨s₂, by rw [Option.some.inj hcomma]⟩
  obtain ⟨w, s₃, hsize⟩ := exists_numberText 10 s₂
  rcases w with - | size
  · exact .inr ⟨none, s₃, .noSize haddress hlong hsize⟩
  by_cases hint : InInt size
  · exact .inr ⟨some size, _, .complete haddress hlong hsize hint⟩
  · refine .inl ?_
    rw [traceFormat, scanf_char_cons, scanfFrom_space,
      scanfFrom_number rfl (numberText_dropWhile haddress) (storeLong_of_inLong hlong),
      scanfFrom_ordinary]
    exact scanfFrom_outOfRange rfl hsize (storeInt_of_not_inInt hint)

/-! ### The file -/

/-- The records of a file, one behind the other up to its end. -/
inductive FileRecords : List UInt8 → List (UInt8 × Option ℤ) → Prop
  | nil : FileRecords [] []
  | cons {file rest : List UInt8} {op : UInt8} {size : Option ℤ}
      {records : List (UInt8 × Option ℤ)} : Record file op size rest → FileRecords rest records →
      FileRecords file ((op, size) :: records)

/-- The characters of the records that are stored, from a size in force: that of the last record
that had one. While it is -1 the records are passed over. -/
def storedOps : ℤ → List (UInt8 × Option ℤ) → List UInt8
  | _, [] => []
  | size, (op, size') :: records =>
    if size'.getD size = -1 then storedOps (size'.getD size) records
    else op :: storedOps (size'.getD size) records

theorem Record.inInt {file rest : List UInt8} {op : UInt8} {n : ℤ}
    (h : Record file op (some n) rest) : InInt n := by
  cases h with
  | complete _ _ _ hint => exact hint

/-- An `int` that can be represented is -1 only if the number is. -/
theorem ofInt_eq_neg_one_iff {n : ℤ} (hn : InInt n) : BitVec.ofInt 32 n = -1 ↔ n = -1 := by
  obtain ⟨hlo, hhi⟩ := hn
  constructor
  · intro h
    have hint := congrArg BitVec.toInt h
    rw [BitVec.toInt_ofInt, Int.bmod_eq_of_le (by omega) (by omega)] at hint
    rw [hint]
    decide
  · rintro rfl
    decide

/-- **The size in force** after a record. -/
theorem Assigned.size_eq {vars vars' : Operation} {op : UInt8} {size' : Option ℤ} {size : ℤ}
    (h : Assigned vars vars' op size') (hsize : vars.size = BitVec.ofInt 32 size) :
    vars'.size = BitVec.ofInt 32 (size'.getD size) := by
  rw [h.size]
  rcases size' with - | n
  · exact hsize
  · rfl

/-- **The loop over the records of a file** stores the operations one after the other: the
characters are those of `storedOps`. -/
theorem parseLoop_of_fileRecords {file : List UInt8} {records : List (UInt8 × Option ℤ)}
    (h : FileRecords file records) : ∀ {fuel : ℕ} {vars : Operation} {i : BitVec 32} {size : ℤ},
      file.length < fuel → InInt size → vars.size = BitVec.ofInt 32 size →
        ∃ ops : List Operation,
          parseLoop fuel vars i file = some (ops.mapIdx fun k o ↦ (i + BitVec.ofNat 32 k, o)) ∧
          ops.map Operation.op = storedOps size records := by
  induction h with
  | nil =>
    intro fuel vars i size hfuel _ _
    obtain ⟨fuel, rfl⟩ := Nat.exists_eq_add_one_of_ne_zero (Nat.ne_of_gt hfuel)
    exact ⟨[], rfl, rfl⟩
  | @cons file rest op size' records hrecord _ ih =>
    intro fuel vars i size hfuel hint hvars
    obtain ⟨fuel, rfl⟩ := Nat.exists_eq_add_one_of_ne_zero
      (Nat.ne_of_gt (Nat.zero_lt_of_lt hfuel))
    obtain ⟨values, hscan, hassign⟩ := scanf_eq_of_record hrecord
    have hlt := length_lt_of_scanf_char hscan
    have hint' : InInt (size'.getD size) := by
      rcases size' with - | n
      · exact hint
      · exact hrecord.inInt
    have hvars' := (hassign vars).size_eq hvars
    rw [parseLoop_of_returned _ hscan rfl, storedOps]
    by_cases hskip : size'.getD size = -1
    · rw [if_pos hskip, if_pos (hvars'.trans ((ofInt_eq_neg_one_iff hint').2 hskip))]
      exact ih (by omega) hint' hvars'
    · have hne : (assign vars values).size ≠ -1 := fun heq ↦
        hskip ((ofInt_eq_neg_one_iff hint').1 (hvars'.symm.trans heq))
      obtain ⟨ops, hloop, hops⟩ := @ih fuel (assign vars values) (i + 1) _ (by omega) hint' hvars'
      rw [if_neg hskip, if_neg hne, hloop]
      refine ⟨assign vars values :: ops, ?_, ?_⟩
      · rw [List.mapIdx_cons, Option.map_some]
        simp [BitVec.add_assoc, BitVec.ofNat_add, BitVec.add_comm (1#32)]
      · rw [List.map_cons, hops, (hassign vars).op]

/-- **If the loop is defined, the file consists of records.** -/
theorem exists_fileRecords (fuel : ℕ) : ∀ {vars : Operation} {i : BitVec 32} {file : List UInt8}
    {stores : List (BitVec 32 × Operation)}, parseLoop fuel vars i file = some stores →
      ∃ records, FileRecords file records := by
  induction fuel with
  | zero => exact fun h ↦ absurd h (by simp [parseLoop])
  | succ fuel ih =>
    intro vars i file stores h
    rcases file with - | ⟨op, s⟩
    · exact ⟨[], .nil⟩
    obtain hundefined | ⟨size, rest, hrecord⟩ := exists_record op s
    · rw [parseLoop, hundefined] at h
      exact absurd h (by simp)
    · obtain ⟨values, hscan, -⟩ := scanf_eq_of_record hrecord
      rw [parseLoop_of_returned _ hscan rfl] at h
      split_ifs at h
      · obtain ⟨records, hrecords⟩ := ih h
        exact ⟨_, .cons hrecord hrecords⟩
      · obtain ⟨stores', hstores, -⟩ := Option.map_eq_some_iff.1 h
        obtain ⟨records, hrecords⟩ := ih hstores
        exact ⟨_, .cons hrecord hrecords⟩

/-- **What `parse_traces` does with any file**: if it consists of records, it stores those that
`storedOps` says, at `0, 1, 2, …`. -/
theorem parseTraces_of_fileRecords (op : UInt8) (address : BitVec 64) {file : List UInt8}
    {records : List (UInt8 × Option ℤ)} (h : FileRecords file records) : ∃ ops : List Operation,
      parseTraces op address file = some (ops.mapIdx fun k o ↦ (BitVec.ofNat 32 k, o)) ∧
        ops.map Operation.op = storedOps (-1) records := by
  obtain ⟨ops, hloop, hops⟩ := @parseLoop_of_fileRecords _ _ h (file.length + 1)
    ⟨op, address, -1⟩ 0 (-1) (Nat.lt_succ_self _) ⟨by decide, by decide⟩ rfl
  refine ⟨ops, ?_, hops⟩
  rw [parseTraces, hloop]
  exact congrArg some (congrArg (List.mapIdx · ops) (funext₂ fun k o ↦ by simp))

end CsappCode.CacheLab
