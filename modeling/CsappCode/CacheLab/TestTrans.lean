import CsappCode.CacheLab.TraceFile
import Mathlib.Data.List.ReduceOption
import Mathlib.Data.List.TakeWhile

/-!
# The trace that `test-trans` cuts out

`eval_perf` runs `tracegen` under valgrind and reads its output line by line. Between the first
access to `marker_start` and the next one to `marker_end` it copies the data accesses below
`0xffffffff` to a file, which a simulator then reads.

* `extract` is the loop, on the bytes of `trace.tmp`.
* `Logged` is what valgrind prints: the data accesses in the documented format, among other lines.
* `window` are the accesses that should be in the file.
* `scanAddr_data` reads the address of a data line, and `extractLoop_logged` is the loop on what
  valgrind prints.
* `extract_simulated` says that the accesses of the window are in the file, and that `csim`, which
  keeps 32 bits of an address, is right about them.

## Why the cut of the address does no harm here

`process` drops the upper half of an address, and in general this merges blocks. But only addresses
below `0xffffffff` are copied, so all bits that are dropped are zero, and the blocks stay apart
(`blocksApart_of_low`). The totals then are those of a simulator with full addresses by
`summaryCorrect_of_blocksApart`.

## What is assumed

Valgrind's data lines are in the documented format and fit into the buffer of `fgets`. Any other
line may be anything without a newline that does not look like a data line. There are fewer than
`2 ^ 31` accesses in the window. That valgrind runs and that the files can be opened is not
modelled.
-/

namespace CsappCode.CacheLab

open Scanf

/-! ### The source -/

/-- `fgets` with room for so many characters. No character stands for its `NULL`. -/
def fgets : ℕ → List UInt8 → List UInt8 × List UInt8
  | 0, file => ([], file)
  | _ + 1, [] => ([], [])
  | room + 1, b :: file =>
    if b = newlineChar then ([b], file) else (b :: (fgets room file).1, (fgets room file).2)

/-- The string in a buffer. -/
def cString (buf : List UInt8) : List UInt8 := buf.takeWhile (· ≠ 0)

/-- `buf[0]==' ' && buf[2]==' ' && (buf[1]=='S' || buf[1]=='M' || buf[1]=='L')`. In a shorter line
the one of these characters behind its end is no such letter or no space. -/
def isData (buf : List UInt8) : Bool :=
  buf[0]? = some spaceChar ∧ buf[2]? = some spaceChar ∧
    (buf[1]? = some 'S'.toUInt8 ∨ buf[1]? = some 'M'.toUInt8 ∨ buf[1]? = some 'L'.toUInt8)

/-- `addr` after `sscanf(buf+3, "%llx,%u", &addr, &len)`. Nothing reads `len`. -/
def scanAddr (addr : BitVec 64) (buf : List UInt8) : Option (BitVec 64) :=
  match scanf [.hexLong] (cString (buf.drop 3)) with
  | .returned [.long a] _ => some a
  | .undefined => none
  | _ => some addr

/-- The loop of `eval_perf` over the complete trace, for at most `fuel` turns: what it writes to the
file of the function, and whether it closes that file. There is no value where a call of `sscanf` is
undefined. -/
def extractLoop (markerStart markerEnd : BitVec 64) :
    ℕ → BitVec 64 → Bool → List UInt8 → Option (List UInt8 × Bool)
  | 0, _, _, _ => none
  | fuel + 1, addr, flag, file =>
    let (buf, rest) := fgets 999 file
    if buf = [] then some ([], false)
    else if isData buf then
      (scanAddr addr buf).bind fun addr ↦
        let flag := flag || addr = markerStart
        let written := if flag ∧ addr < 0xffffffff then cString buf else []
        if addr = markerEnd then some (written, true)
        else (extractLoop markerStart markerEnd fuel addr flag rest).map fun q ↦
          (written ++ q.1, q.2)
    else extractLoop markerStart markerEnd fuel addr flag rest

/-- What `eval_perf` writes to the file of a function, and whether it closes it before it runs the
simulator. `addr` is not initialised. -/
def extract (markerStart markerEnd addr : BitVec 64) (file : List UInt8) :
    Option (List UInt8 × Bool) :=
  extractLoop markerStart markerEnd (file.length + 1) addr false file

/-! ### The complete trace -/

/-- A line of valgrind's output, with the access if it records one. A line has no newline before its
end, and fits into the buffer. -/
inductive Logged : Option Operation → List UInt8 → Prop
  | access {o : Operation} {line : List UInt8} (hline : Rendered o line)
      (hdata : isData line = true) (hdoc : o.Documented) (hlen : line.length ≤ 999) :
      Logged (some o) line
  | other {text : List UInt8} (htext : newlineChar ∉ text) (hlen : text.length < 999)
      (hdata : isData (text ++ [newlineChar]) = false) :
      Logged none (text ++ [newlineChar])

/-- The accesses up to the first one to `markerEnd`. -/
def upTo (markerEnd : BitVec 64) (ops : List Operation) : List Operation :=
  ops.take (ops.findIdx (·.address = markerEnd) + 1)

/-- The accesses from where the flag is set. -/
def flagged (markerStart : BitVec 64) (flag : Bool) (ops : List Operation) : List Operation :=
  if flag then ops else ops.dropWhile (·.address ≠ markerStart)

/-- **The accesses between the markers**, below `0xffffffff`. -/
def window (markerStart markerEnd : BitVec 64) (flag : Bool) (ops : List Operation) :
    List Operation :=
  (flagged markerStart flag (upTo markerEnd ops)).filter (·.address < 0xffffffff)

/-! ### A line -/

/-- `fgets` reads a line that fits. -/
theorem fgets_line (text rest : List UInt8) : ∀ {room : ℕ}, newlineChar ∉ text →
    text.length < room →
      fgets room (text ++ newlineChar :: rest) = (text ++ [newlineChar], rest) := by
  induction text with
  | nil =>
    intro room _ hlen
    obtain ⟨room, rfl⟩ := Nat.exists_eq_add_one_of_ne_zero (Nat.ne_of_gt hlen)
    rw [List.nil_append, fgets, if_pos rfl]
    rfl
  | cons b text ih =>
    intro room htext hlen
    obtain ⟨room, rfl⟩ := Nat.exists_eq_add_one_of_ne_zero (Nat.ne_of_gt (Nat.zero_lt_of_lt hlen))
    have hb : newlineChar ≠ b := List.ne_of_not_mem_cons htext
    rw [List.cons_append, fgets, if_neg hb.symm,
      ih (List.not_mem_of_not_mem_cons htext) (Nat.lt_of_succ_lt_succ hlen)]
    rfl

/-- A line of the output is read by one call. -/
theorem Logged.fgets_append {r : Option Operation} {line : List UInt8} (h : Logged r line)
    (rest : List UInt8) : fgets 999 (line ++ rest) = (line, rest) ∧ line ≠ [] := by
  cases h with
  | @access o _ hline _ hdoc hlen =>
    have hcount := hline.count_newline hdoc.op
    obtain @⟨op, address, size, blank, hex, dec, -, -, -, -⟩ := hline
    have hsplit : indent op ++ lineBody op blank hex dec =
        (indent op ++ op :: (blank ++ (hex ++ commaChar :: dec))) ++ [newlineChar] := by
      simp [lineBody]
    rw [hsplit] at hcount hlen ⊢
    rw [List.count_append, List.count_singleton_self] at hcount
    rw [List.length_append, List.length_singleton] at hlen
    refine ⟨?_, List.append_ne_nil_of_right_ne_nil _ (List.cons_ne_nil _ _)⟩
    rw [List.append_assoc, List.singleton_append]
    exact fgets_line _ _ (List.count_eq_zero.1 (by omega)) (by omega)
  | @other text htext hlen _ =>
    refine ⟨?_, List.append_ne_nil_of_right_ne_nil _ (List.cons_ne_nil _ _)⟩
    rw [List.append_assoc, List.singleton_append]
    exact fgets_line _ _ htext hlen

/-- A rendered line has no null character. -/
theorem cString_rendered {op : UInt8} {address : BitVec 64} {size : BitVec 32}
    {blank hex dec : List UInt8} (hop : op ∈ traceOps) (hspace : ∀ b ∈ blank, isSpace b = true)
    (hhex : Numeral 16 address.toNat hex) (hdec : Numeral 10 size.toNat dec) :
    ∀ b ∈ indent op ++ lineBody op blank hex dec, b ≠ 0 := by
  have hdigit : ∀ {base n : ℕ} {ds : List UInt8}, Numeral base n ds → ∀ b ∈ ds, b ≠ 0 := by
    rintro base n ds hds b hb rfl
    exact absurd (le_of_isDigit (hds.digits _ hb)) (by decide)
  intro b hb
  rcases List.mem_append.1 hb with hb | hb
  · rw [indent] at hb
    split_ifs at hb
    · exact absurd hb List.not_mem_nil
    · rw [List.mem_singleton.1 hb]
      decide
  · rw [lineBody, List.mem_cons, List.mem_append, List.mem_append, List.mem_cons,
      List.mem_append, List.mem_singleton] at hb
    rcases hb with rfl | hb | hb | rfl | hb | rfl
    · rintro rfl
      exact absurd hop (by decide)
    · rintro rfl
      exact absurd (hspace _ hb) (by decide)
    · exact hdigit hhex b hb
    · decide
    · exact hdigit hdec b hb
    · decide

/-- **The address of a data line is read**, and the line is written as it stands. -/
theorem scanAddr_data {o : Operation} {line : List UInt8} (hline : Rendered o line)
    (hdata : isData line = true) (hdoc : o.Documented) (addr : BitVec 64) :
    scanAddr addr line = some o.address ∧ cString line = line := by
  obtain @⟨op, address, size, blank, hex, dec, hblank, hspace, hhex, hdec⟩ := hline
  have hspace : ∀ b ∈ blank, isSpace b = true := fun b hb ↦ (hspace b hb).1
  have hnull := cString_rendered hdoc.op hspace hhex hdec
  have hstring : ∀ {s : List UInt8}, (∀ b ∈ s, b ≠ 0) → cString s = s := fun hs ↦
    List.takeWhile_eq_self_iff.2 fun b hb ↦ decide_eq_true (hs b hb)
  refine ⟨?_, hstring hnull⟩
  obtain ⟨c, blank, rfl⟩ := List.exists_cons_of_ne_nil hblank
  have hindent : indent op = [spaceChar] := by
    rw [indent] at hdata ⊢
    split_ifs at hdata ⊢ with hI
    · have hfirst := (of_decide_eq_true hdata).1
      rw [List.nil_append, lineBody, List.getElem?_cons_zero, hI] at hfirst
      exact absurd hfirst (by decide)
    · rfl
  have hdrop : (indent op ++ lineBody op (c :: blank) hex dec).drop 3 =
      blank ++ (hex ++ commaChar :: (dec ++ [newlineChar])) := by
    rw [hindent, lineBody]
    rfl
  have hread : Directive.read .hexLong (blank ++ (hex ++ commaChar :: (dec ++ [newlineChar]))) =
      .matched (some (.long address)) (commaChar :: (dec ++ [newlineChar])) :=
    @readNumber_numeral 16 _ _ _ blank _ _ _ (fun b hb ↦ hspace b (List.mem_cons_of_mem _ hb)) hhex
      (by decide) (by decide) (storeLong_toNat address)
  rw [scanAddr, hstring fun b hb ↦ hnull b (List.mem_of_mem_drop hb), hdrop, scanf,
    scanfFrom_of_matched hread]
  rfl

/-! ### The window -/

section Window

variable {markerStart markerEnd : BitVec 64} {flag : Bool} {o : Operation} {ops : List Operation}

theorem upTo_cons : upTo markerEnd (o :: ops) =
    o :: if o.address = markerEnd then [] else upTo markerEnd ops := by
  rw [upTo, List.findIdx_cons]
  split_ifs with h
  · simp [h]
  · simp [h, upTo]

theorem flagged_cons : flagged markerStart flag (o :: ops) =
    if flag || o.address = markerStart then o :: flagged markerStart true ops
    else flagged markerStart false ops := by
  rcases flag with - | -
  · rcases eq_or_ne o.address markerStart with h | h
    · rw [flagged, if_neg (by simp), List.dropWhile_cons_of_neg (by simp [h]), if_pos (by simp [h])]
      rfl
    · rw [flagged, if_neg (by simp), List.dropWhile_cons_of_pos (by simp [h]), if_neg (by simp [h])]
      rfl
  · rfl

/-- What one more access in front does to the window. -/
theorem window_cons : window markerStart markerEnd flag (o :: ops) =
    (if (flag || o.address = markerStart) ∧ o.address < 0xffffffff then [o] else []) ++
      if o.address = markerEnd then []
      else window markerStart markerEnd (flag || o.address = markerStart) ops := by
  have hrest : ∀ flag, (flagged markerStart flag
      (if o.address = markerEnd then [] else upTo markerEnd ops)).filter (·.address < 0xffffffff) =
        if o.address = markerEnd then [] else window markerStart markerEnd flag ops := by
    intro flag
    rcases eq_or_ne o.address markerEnd with h | h
    · rw [if_pos h, if_pos h]
      rcases flag with - | - <;> rfl
    · rw [if_neg h, if_neg h, window]
  rw [window, upTo_cons, flagged_cons]
  generalize (flag || decide (o.address = markerStart)) = flag
  rcases flag with - | -
  · simp only [Bool.false_eq_true, false_and, if_false, List.nil_append]
    exact hrest false
  · rw [if_pos rfl, List.filter_cons, hrest true]
    simp only [true_and, decide_eq_true_eq]
    rcases Classical.em (o.address < 0xffffffff) with hlow | hhigh
    · rw [if_pos hlow, if_pos hlow, List.singleton_append]
    · rw [if_neg hhigh, if_neg hhigh, List.nil_append]

end Window

/-! ### The loop -/

section Loop

variable {markerStart markerEnd addr : BitVec 64} {flag : Bool} {fuel : ℕ}
  {line rest : List UInt8}

/-- A turn of the loop on a line that is not about data. -/
theorem extractLoop_other (hline : Logged none line) :
    extractLoop markerStart markerEnd (fuel + 1) addr flag (line ++ rest) =
      extractLoop markerStart markerEnd fuel addr flag rest := by
  obtain ⟨hread, hne⟩ := hline.fgets_append rest
  have hdata : isData line = false := by
    cases hline with
    | other _ _ hdata => exact hdata
  rw [extractLoop, hread]
  simp only [hne, hdata, Bool.false_eq_true, if_false]

/-- A turn of the loop on a data access. -/
theorem extractLoop_access {o : Operation} (hline : Logged (some o) line) {flag' : Bool}
    (hflag : (flag || decide (o.address = markerStart)) = flag') :
    extractLoop markerStart markerEnd (fuel + 1) addr flag (line ++ rest) =
      if o.address = markerEnd then
        some (if flag' ∧ o.address < 0xffffffff then line else [], true)
      else (extractLoop markerStart markerEnd fuel o.address flag' rest).map fun q ↦
        ((if flag' ∧ o.address < 0xffffffff then line else []) ++ q.1, q.2) := by
  subst hflag
  obtain ⟨hread, hne⟩ := hline.fgets_append rest
  obtain ⟨hrendered, hdata, hdoc, -⟩ := hline
  obtain ⟨hscan, hstring⟩ := scanAddr_data hrendered hdata hdoc addr
  rw [extractLoop, hread]
  simp only [hne, hdata, if_true, if_false, hscan, Option.bind_some, hstring]

/-- **The loop writes the lines of the window**, and none of them twice. -/
theorem extractLoop_logged {records : List (Option Operation)} {lines : List (List UInt8)}
    (h : List.Forall₂ Logged records lines) : ∀ {fuel : ℕ} {addr : BitVec 64} {flag : Bool},
      lines.length < fuel → ∃ written : List (List UInt8),
        extractLoop markerStart markerEnd fuel addr flag lines.flatten =
            some (written.flatten, records.reduceOption.any (·.address = markerEnd)) ∧
          List.Forall₂ Rendered (window markerStart markerEnd flag records.reduceOption)
            written := by
  induction h with
  | nil =>
    intro fuel addr flag hfuel
    obtain ⟨fuel, rfl⟩ := Nat.exists_eq_add_one_of_ne_zero (Nat.ne_of_gt hfuel)
    refine ⟨[], rfl, ?_⟩
    rcases flag with - | - <;> exact .nil
  | @cons r line records lines hline _ ih =>
    intro fuel addr flag hfuel
    obtain ⟨fuel, rfl⟩ := Nat.exists_eq_add_one_of_ne_zero (Nat.ne_of_gt (Nat.zero_lt_of_lt hfuel))
    have hfuel : lines.length < fuel := Nat.lt_of_succ_lt_succ hfuel
    rcases r with - | o
    · rw [List.flatten_cons, extractLoop_other hline, List.reduceOption_cons_of_none]
      exact ih hfuel
    · obtain ⟨hrendered, -, -, -⟩ := id hline
      rw [List.flatten_cons, extractLoop_access hline rfl, List.reduceOption_cons_of_some,
        window_cons]
      generalize (flag || decide (o.address = markerStart)) = flag
      obtain ⟨written, hloop, hwritten⟩ := @ih fuel o.address flag hfuel
      -- the access is written or left out, and the loop goes on or ends
      have hkept : ∃ ls : List (List UInt8),
          (if flag ∧ o.address < 0xffffffff then line else []) = ls.flatten ∧
            List.Forall₂ Rendered (if flag ∧ o.address < 0xffffffff then [o] else []) ls := by
        rcases Classical.em (flag ∧ o.address < 0xffffffff) with hkeep | hdrop
        · rw [if_pos hkeep, if_pos hkeep]
          exact ⟨[line], by simp, .cons hrendered .nil⟩
        · rw [if_neg hdrop, if_neg hdrop]
          exact ⟨[], rfl, .nil⟩
      obtain ⟨ls, hls, hrel⟩ := hkept
      rw [hls]
      rcases eq_or_ne o.address markerEnd with hend | hend
      · rw [if_pos hend, if_pos hend, List.append_nil, List.any_cons, decide_eq_true hend,
          Bool.true_or]
        exact ⟨ls, rfl, hrel⟩
      · rw [if_neg hend, if_neg hend, hloop, Option.map_some, ← List.flatten_append, List.any_cons,
          decide_eq_false hend, Bool.false_or]
        exact ⟨ls ++ written, rfl, List.rel_append hrel hwritten⟩

end Loop

/-! ### The simulation -/

section Simulation

variable {records : List (Option Operation)} {lines : List (List UInt8)}

theorem length_le_flatten (h : List.Forall₂ Logged records lines) :
    lines.length ≤ lines.flatten.length := by
  induction h with
  | nil => exact Nat.le_refl 0
  | cons hline _ ih =>
    have hpos := List.length_pos_iff.2 (hline.fgets_append []).2
    rw [List.flatten_cons, List.length_cons, List.length_append]
    omega

/-- What is recorded is in the documented format. -/
theorem documented_of_logged (h : List.Forall₂ Logged records lines) :
    ∀ o, some o ∈ records → o.Documented := by
  induction h with
  | nil => exact fun o ho ↦ absurd ho List.not_mem_nil
  | @cons r line records lines hline _ ih =>
    intro o ho
    rcases List.mem_cons.1 ho with rfl | ho
    · obtain ⟨-, -, hdoc, -⟩ := hline
      exact hdoc
    · exact ih o ho

/-- The window is a part of the trace, below `0xffffffff`. -/
theorem mem_window {markerStart markerEnd : BitVec 64} {flag : Bool} {ops : List Operation}
    {o : Operation} (ho : o ∈ window markerStart markerEnd flag ops) :
    o ∈ ops ∧ o.address < 0xffffffff := by
  obtain ⟨hflagged, hlow⟩ := List.mem_filter.1 ho
  refine ⟨?_, of_decide_eq_true hlow⟩
  have hupTo : o ∈ upTo markerEnd ops := by
    rcases flag with - | -
    · exact (List.dropWhile_sublist _).subset hflagged
    · exact hflagged
  exact List.mem_of_mem_take hupTo

/-- **Low addresses are kept apart**: the bits that `process` does not see are zero. -/
theorem blocksApart_of_low {b : ℕ} {ops : List Operation}
    (h : ∀ o ∈ ops, o.address < 0xffffffff) : BlocksApart b ops := by
  have hlow : ∀ x ∈ accesses ops, (toInt32 x).toNat = x.toNat := by
    intro x hx
    obtain ⟨o, ho, hx⟩ := List.mem_flatMap.1 hx
    have hlt := BitVec.lt_def.1 (h o ho)
    have hxo : x = o.address := by
      rw [Operation.accesses] at hx
      split_ifs at hx <;> simp_all
    rw [toInt32, BitVec.toNat_setWidth, hxo]
    exact Nat.mod_eq_of_lt (hlt.trans (by decide))
  intro x hx y hy hxy
  have hshift := congrArg BitVec.toNat hxy
  rw [BitVec.toNat_ushiftRight, BitVec.toNat_ushiftRight, hlow x hx, hlow y hy] at hshift
  refine BitVec.eq_of_toNat_eq ?_
  rw [BitVec.toNat_ushiftRight, BitVec.toNat_ushiftRight, hshift]

/-- **What `test-trans` measures.** Whatever else valgrind prints, the file that is cut out is
closed exactly if the end marker is accessed, and is read back by `parse_traces` as the accesses
between the markers below `0xffffffff`. On these `csim`, for all that it keeps 32 bits of an
address, has the totals of the simulation with full addresses. -/
theorem extract_simulated (G : Geometry) (h : List.Forall₂ Logged records lines)
    (markerStart markerEnd addr : BitVec 64) (op : UInt8) (address : BitVec 64)
    (hlen : (accesses (window markerStart markerEnd false records.reduceOption)).length < 2 ^ 31) :
    ∃ file, extract markerStart markerEnd addr lines.flatten =
        some (file, records.reduceOption.any (·.address = markerEnd)) ∧
      parseTraces op address file =
        some ((window markerStart markerEnd false records.reduceOption).mapIdx
          fun k o ↦ (BitVec.ofNat 32 k, o)) ∧
      SummaryCorrect G.toArguments (window markerStart markerEnd false records.reduceOption) := by
  have hdoc : ∀ o ∈ window markerStart markerEnd false records.reduceOption, o.Documented :=
    fun o ho ↦ documented_of_logged h o (List.reduceOption_mem_iff.1 (mem_window ho).1)
  have hfuel : lines.length < lines.flatten.length + 1 :=
    Nat.lt_succ_of_le (length_le_flatten h)
  obtain ⟨written, hextract, hwritten⟩ := extractLoop_logged h hfuel
  refine ⟨written.flatten, hextract, parseTraces_rendered hdoc hwritten op address, ?_⟩
  exact summaryCorrect_of_blocksApart G (fun o ho ↦ (hdoc o ho).op) hlen
    (blocksApart_of_low fun o ho ↦ (mem_window ho).2)

/-- The start marker, a load, a fetch, an access to the stack and the end marker, behind a line that
is not in the format: the file has the marker lines and the load. -/
theorem extract_simulated_markers :
    ∃ file, extract 0x38b08c 0x38b08d 0 [[61, 61, 55, 61, 61, 10],
        [32, 83, 32, 51, 56, 98, 48, 56, 99, 44, 49, 10], [32, 76, 32, 51, 48, 44, 52, 10],
        [73, 32, 32, 52, 44, 50, 10],
        [32, 76, 32, 102, 102, 102, 102, 102, 102, 102, 102, 44, 52, 10],
        [32, 83, 32, 51, 56, 98, 48, 56, 100, 44, 49, 10]].flatten = some (file, true) ∧
      parseTraces 0 0 file =
        some [(0, ⟨83, 0x38b08c, 1⟩), (1, ⟨76, 0x30, 4⟩), (2, ⟨83, 0x38b08d, 1⟩)] ∧
      SummaryCorrect directMapped.toArguments
        [⟨83, 0x38b08c, 1⟩, ⟨76, 0x30, 4⟩, ⟨83, 0x38b08d, 1⟩] := by
  have hlog : List.Forall₂ Logged
      [none, some ⟨83, 0x38b08c, 1⟩, some ⟨76, 0x30, 4⟩, none, some ⟨76, 0xffffffff, 4⟩,
        some ⟨83, 0x38b08d, 1⟩]
      [[61, 61, 55, 61, 61, 10], [32, 83, 32, 51, 56, 98, 48, 56, 99, 44, 49, 10],
        [32, 76, 32, 51, 48, 44, 52, 10], [73, 32, 32, 52, 44, 50, 10],
        [32, 76, 32, 102, 102, 102, 102, 102, 102, 102, 102, 44, 52, 10],
        [32, 83, 32, 51, 56, 98, 48, 56, 100, 44, 49, 10]] := by
    have hblank : ∀ b ∈ ([32] : List UInt8), isSpace b = true ∧ b ≠ newlineChar := by
      simp [isSpace, newlineChar]
    have haccess : ∀ {op : UInt8} {address : BitVec 64} {size : BitVec 32} {hex dec : List UInt8},
        Numeral 16 address.toNat hex → Numeral 10 size.toNat dec →
        isData (indent op ++ lineBody op [32] hex dec) = true →
        Operation.Documented ⟨op, address, size⟩ →
        (indent op ++ lineBody op [32] hex dec).length ≤ 999 →
        Logged (some ⟨op, address, size⟩) (indent op ++ lineBody op [32] hex dec) :=
      fun hhex hdec ↦ .access (.line (by decide) hblank hhex hdec)
    refine .cons (@Logged.other [61, 61, 55, 61, 61] (by decide) (by decide) rfl) (.cons ?_
      (.cons ?_ (.cons (@Logged.other [73, 32, 32, 52, 44, 50] (by decide) (by decide) rfl)
        (.cons ?_ (.cons ?_ .nil)))))
    · exact @haccess 83 _ _ [51, 56, 98, 48, 56, 99] [49] ⟨by decide, List.all_eq_true.1 rfl, rfl⟩
        ⟨by decide, List.all_eq_true.1 rfl, rfl⟩ rfl ⟨by decide, by decide, by decide⟩ (by decide)
    · exact @haccess 76 _ _ [51, 48] [52] ⟨by decide, List.all_eq_true.1 rfl, rfl⟩
        ⟨by decide, List.all_eq_true.1 rfl, rfl⟩ rfl ⟨by decide, by decide, by decide⟩ (by decide)
    · exact @haccess 76 _ _ [102, 102, 102, 102, 102, 102, 102, 102] [52]
        ⟨by decide, List.all_eq_true.1 rfl, rfl⟩ ⟨by decide, List.all_eq_true.1 rfl, rfl⟩ rfl
        ⟨by decide, by decide, by decide⟩ (by decide)
    · exact @haccess 83 _ _ [51, 56, 98, 48, 56, 100] [49] ⟨by decide, List.all_eq_true.1 rfl, rfl⟩
        ⟨by decide, List.all_eq_true.1 rfl, rfl⟩ rfl ⟨by decide, by decide, by decide⟩ (by decide)
  exact extract_simulated directMapped hlog 0x38b08c 0x38b08d 0 0 0 (by decide)

end Simulation

end CsappCode.CacheLab
