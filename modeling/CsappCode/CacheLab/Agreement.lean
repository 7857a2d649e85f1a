import CsappCode.CacheLab.Access
import CsappCode.CacheLab.TraceRecords

/-!
# The two passes over a trace file

`main` allocates one operation for each newline that `num_lines` counts, lets `parse_traces` store
what `fscanf` makes of the file, and then reads as many operations as it has allocated. The two
counts are of different things.

* `entry` is the array after the stores, and `mainLoop` the loop over it, which can come upon an
  entry that was never stored.
* `entry_storesOf` and `stores_below_iff` are about the stores, `mainLoop_ne_unstored` and
  `exists_mainLoop_unstored` about the loop.
* `CountsAgree` compares the counts on the text of the file, by its records. `passes_agree_iff` says
  that this is exactly when nothing is stored behind the array and nothing read that is not stored.

## How the two passes can disagree

**One store too many** is what a last line without its newline makes. It goes to the entry behind
the array (`noNewline_disagrees`).

**One store too few** is what a blank line makes. Then the loop of `main` reads an entry that nobody
has stored, unless an operation before it ends the process: one that is none of the four letters
does (`mainLoop_ne_unstored`).

## What the results assume

The file may be anything, and `op` and `address` may hold anything when `parse_traces` is called.
The property asks for all command lines, so that in the direction from the code to the text of the
file there is a geometry to choose. That the array could be allocated is assumed.
-/

namespace CsappCode.CacheLab

/-! ### Reading the operations -/

/-- `operations[i]` after the stores: the last one there, if any. -/
def entry (stores : List (BitVec 32 × Operation)) (i : BitVec 32) : Option Operation :=
  (stores.reverse.find? fun s ↦ s.1 = i).map Prod.snd

/-- Why the loop of `main` does not come to its end: the reasons of `replayOperation`, or an entry
that was never stored. -/
inductive Halt where
  | stop (reason : Stop)
  | unstored (i : BitVec 32)
  deriving DecidableEq, Repr

/-- The loop of `main` over `operations[i]`, for so many turns. -/
def mainLoop (args : Arguments) (stores : List (BitVec 32 × Operation)) :
    ℕ → BitVec 32 → Simulator → Except Halt Simulator
  | 0, _, st => .ok st
  | turns + 1, i, st =>
    match entry stores i with
    | none => .error (.unstored i)
    | some o =>
      match replayOperation args st o with
      | .error reason => .error (.stop reason)
      | .ok st => mainLoop args stores turns (i + 1) st

/-- **The two passes agree.** `parse_traces` is defined, stores only below `num_lines`, and whatever
the command line, the loop of `main` reads only what it has stored. -/
def PassesAgree (op : UInt8) (address : BitVec 64) (file : List UInt8) : Prop :=
  ∃ stores numOp, parseTraces op address file = some stores ∧ numLines file = some numOp ∧
    (∀ s ∈ stores, 0 ≤ s.1.toInt ∧ s.1.toInt < numOp.toInt) ∧
    ∀ args i, mainLoop args stores numOp.toInt.toNat 0 (start args) ≠ .error (.unstored i)

/-! ### The stores -/

/-- The stores of `parse_traces`: one behind the other. -/
def storesOf (ops : List Operation) : List (BitVec 32 × Operation) :=
  ops.mapIdx fun k o ↦ (BitVec.ofNat 32 k, o)

theorem mem_storesOf_iff {ops : List Operation} {s : BitVec 32 × Operation} :
    s ∈ storesOf ops ↔ ∃ k, ∃ h : k < ops.length, s = (BitVec.ofNat 32 k, ops[k]) := by
  rw [storesOf, List.mem_mapIdx]
  exact exists_congr fun k ↦ exists_congr fun h ↦ eq_comm

theorem ofNat_inj {j k : ℕ} (hj : j < 2 ^ 32) (hk : k < 2 ^ 32)
    (h : BitVec.ofNat 32 j = BitVec.ofNat 32 k) : j = k := by
  have hnat := congrArg BitVec.toNat h
  rwa [BitVec.toNat_ofNat, BitVec.toNat_ofNat, Nat.mod_eq_of_lt hj, Nat.mod_eq_of_lt hk] at hnat

/-- **An entry is what was stored there**, as long as the index does not come round. -/
theorem entry_storesOf {ops : List Operation} (hops : ops.length ≤ 2 ^ 32) {k : ℕ}
    (hk : k < 2 ^ 32) : entry (storesOf ops) (BitVec.ofNat 32 k) = ops[k]? := by
  rw [entry]
  generalize hfind : (storesOf ops).reverse.find? _ = r
  rcases r with - | s
  · rcases Nat.lt_or_ge k ops.length with hlt | hge
    · have hmem : (BitVec.ofNat 32 k, ops[k]) ∈ (storesOf ops).reverse :=
        List.mem_reverse.2 (mem_storesOf_iff.2 ⟨k, hlt, rfl⟩)
      exact absurd (List.find?_eq_none.1 hfind _ hmem) (by simp)
    · rw [List.getElem?_eq_none hge]
      rfl
  · have hidx : s.1 = BitVec.ofNat 32 k := by simpa using List.find?_some hfind
    obtain ⟨j, hj, rfl⟩ := mem_storesOf_iff.1 (List.mem_reverse.1 (List.mem_of_find?_eq_some hfind))
    obtain rfl := ofNat_inj (by omega) hk hidx
    rw [List.getElem?_eq_getElem hj]
    rfl

/-- **Nothing is stored behind the array** just if there are no more stores than entries. -/
theorem stores_below_iff {ops : List Operation} {n : BitVec 32} :
    (∀ s ∈ storesOf ops, 0 ≤ s.1.toInt ∧ s.1.toInt < n.toInt) ↔
      (ops.length : ℤ) ≤ max n.toInt 0 := by
  have hn : n.toInt < 2 ^ 31 := BitVec.toInt_lt
  have hint : ∀ k : ℕ, k < 2 ^ 31 → (BitVec.ofNat 32 k).toInt = k := by
    intro k hk
    rw [BitVec.toInt_ofNat', Int.bmod_eq_of_le (by omega) (by omega)]
  constructor
  · intro h
    by_contra hlt
    -- the first store that is not below `n`
    have hk : (max n.toInt 0).toNat < ops.length := by omega
    obtain ⟨-, hbelow⟩ := h _ (mem_storesOf_iff.2 ⟨_, hk, rfl⟩)
    dsimp only at hbelow
    rw [hint _ (by omega)] at hbelow
    omega
  · intro h s hs
    obtain ⟨k, hk, rfl⟩ := mem_storesOf_iff.1 hs
    dsimp only
    rw [hint k (by omega)]
    omega

/-! ### The loop -/

/-- Only the four letters are replayed. -/
theorem mem_traceOps_of_replayOperation {args : Arguments} {st st' : Simulator} {o : Operation}
    (h : replayOperation args st o = .ok st') : o.op ∈ traceOps := by
  by_contra hop
  simp only [traceOps, List.mem_cons, List.not_mem_nil, or_false, not_or] at hop
  obtain ⟨hI, hL, hS, hM⟩ := hop
  rw [replayOperation, if_neg hI, if_neg hM, if_neg hL, if_neg hS] at h
  exact absurd h (by simp)

/-- On a geometry they are all replayed. -/
theorem exists_replayOperation {G : Geometry} {st : Simulator} {o : Operation}
    (hst : Shaped G.toArguments st.cache) (hop : o.op ∈ traceOps) :
    ∃ st', replayOperation G.toArguments st o = .ok st' ∧ Shaped G.toArguments st'.cache := by
  obtain ⟨st', os, hall, hst'⟩ := exists_processAll (o.accesses.map toInt32) hst
  refine ⟨st', ?_, hst'⟩
  rw [replayOperation_eq _ _ hop, hall]
  rfl

theorem ofNat_succ (k : ℕ) : BitVec.ofNat 32 k + 1 = BitVec.ofNat 32 (k + 1) :=
  (BitVec.ofNat_add k 1).symm

/-- The operations from `k` on. -/
theorem drop_of_getElem? {ops : List Operation} {k : ℕ} :
    (ops[k]? = none → ops.drop k = []) ∧
      ∀ o, ops[k]? = some o → ops.drop k = o :: ops.drop (k + 1) := by
  refine ⟨fun h ↦ List.drop_eq_nil_of_le (List.getElem?_eq_none_iff.1 h), fun o h ↦ ?_⟩
  obtain ⟨hk, rfl⟩ := List.getElem?_eq_some_iff.1 h
  exact List.drop_eq_getElem_cons hk

/-- **The loop reads only what is stored** if enough is, or one of the operations ends it. -/
theorem mainLoop_ne_unstored (args : Arguments) {ops : List Operation}
    (hops : ops.length ≤ 2 ^ 32) (turns : ℕ) : ∀ {k : ℕ} {st : Simulator}, k + turns ≤ 2 ^ 32 →
      (turns ≤ (ops.drop k).length ∨ ∃ o ∈ ops.drop k, o.op ∉ traceOps) →
      ∀ i, mainLoop args (storesOf ops) turns (BitVec.ofNat 32 k) st ≠ .error (.unstored i) := by
  induction turns with
  | zero => exact fun _ _ i h ↦ absurd h (by simp [mainLoop])
  | succ turns ih =>
    intro k st hk henough i
    rw [mainLoop, entry_storesOf hops (by omega)]
    rcases hget : ops[k]? with - | o
    · rw [drop_of_getElem?.1 hget] at henough
      exact absurd henough (by simp)
    dsimp only
    rw [drop_of_getElem?.2 o hget] at henough
    rcases hreplay : replayOperation args st o with reason | st'
    · exact fun h ↦ absurd h (by simp)
    · dsimp only
      rw [ofNat_succ]
      refine ih (by omega) (henough.imp ?_ ?_) i
      · exact fun hle ↦ Nat.le_of_succ_le_succ hle
      · rintro ⟨o', ho', hnot⟩
        rcases List.mem_cons.1 ho' with rfl | ho'
        · exact absurd (mem_traceOps_of_replayOperation hreplay) hnot
        · exact ⟨o', ho', hnot⟩

/-- **Otherwise it comes upon an entry that was never stored**, on every geometry. -/
theorem exists_mainLoop_unstored (G : Geometry) {ops : List Operation}
    (hops : ops.length ≤ 2 ^ 32) (turns : ℕ) : ∀ {k : ℕ} {st : Simulator}, k + turns ≤ 2 ^ 32 →
      Shaped G.toArguments st.cache → (ops.drop k).length < turns →
      (∀ o ∈ ops.drop k, o.op ∈ traceOps) →
      ∃ i, mainLoop G.toArguments (storesOf ops) turns (BitVec.ofNat 32 k) st =
        .error (.unstored i) := by
  induction turns with
  | zero => exact fun _ _ hlt ↦ absurd hlt (Nat.not_lt_zero _)
  | succ turns ih =>
    intro k st hk hst hlt hall
    rw [mainLoop, entry_storesOf hops (by omega)]
    rcases hget : ops[k]? with - | o
    · exact ⟨_, rfl⟩
    rw [drop_of_getElem?.2 o hget] at hlt hall
    obtain ⟨st', hreplay, hst'⟩ := exists_replayOperation hst (hall o List.mem_cons_self)
    dsimp only
    rw [hreplay]
    dsimp only
    rw [ofNat_succ]
    exact ih (by omega) hst' (Nat.lt_of_succ_lt_succ hlt) fun o' ho' ↦
      hall o' (List.mem_cons_of_mem _ ho')

/-! ### When the passes agree -/

/-- The newlines of the file, counted by an `int`. -/
def newlines (file : List UInt8) : ℤ := (BitVec.ofNat 32 (file.count newlineChar)).toInt

/-- **The counts agree.** The file consists of records; no more of them are stored than there are
newlines; and as many are, or one of those stored has none of the four letters. -/
def CountsAgree (file : List UInt8) : Prop :=
  ∃ records, FileRecords file records ∧
    ((storedOps (-1) records).length : ℤ) ≤ max (newlines file) 0 ∧
    (newlines file ≤ (storedOps (-1) records).length ∨
      ∃ op ∈ storedOps (-1) records, op ∉ traceOps)

/-- **The two passes agree exactly on the files whose counts agree**, whatever `op` and `address`
hold at first. -/
theorem passes_agree_iff (op : UInt8) (address : BitVec 64) (file : List UInt8) :
    PassesAgree op address file ↔ CountsAgree file := by
  have hlt : newlines file < 2 ^ 31 := BitVec.toInt_lt
  constructor
  · rintro ⟨stores, numOp, hparse, hnum, hbelow, hreads⟩
    obtain ⟨records, hrecords⟩ := exists_fileRecords _ hparse
    obtain ⟨ops, hparse', hops⟩ := parseTraces_of_fileRecords op address hrecords
    obtain rfl : stores = storesOf ops := Option.some.inj (hparse.symm.trans hparse')
    obtain rfl : numOp = BitVec.ofNat 32 (file.count newlineChar) :=
      Option.some.inj (hnum.symm.trans (numLines_eq file))
    have hle : (ops.length : ℤ) ≤ max (newlines file) 0 := stores_below_iff.1 hbelow
    have hlen : (storedOps (-1) records).length = ops.length := by rw [← hops, List.length_map]
    refine ⟨records, hrecords, by rwa [hlen], ?_⟩
    by_contra hnot
    obtain ⟨hshort, hall⟩ := not_or.1 hnot
    rw [hlen] at hshort
    have hvalid : ∀ o ∈ ops.drop 0, o.op ∈ traceOps := by
      intro o ho
      by_contra hop
      exact hall ⟨o.op, hops ▸ List.mem_map_of_mem ho, hop⟩
    have hturns : (ops.drop 0).length < (newlines file).toNat := by
      rw [List.drop_zero]
      omega
    have hstart : Shaped directMapped.toArguments (start directMapped.toArguments).cache :=
      shaped_initCache directMapped.toArguments
    obtain ⟨i, hi⟩ := exists_mainLoop_unstored directMapped (by omega) (newlines file).toNat
      (by omega) hstart hturns hvalid
    exact hreads directMapped.toArguments i hi
  · rintro ⟨records, hrecords, hle, henough⟩
    obtain ⟨ops, hparse, hops⟩ := parseTraces_of_fileRecords op address hrecords
    have hlen : (storedOps (-1) records).length = ops.length := by rw [← hops, List.length_map]
    rw [hlen] at hle henough
    refine ⟨storesOf ops, _, hparse, numLines_eq file, stores_below_iff.2 hle, fun args i ↦ ?_⟩
    refine @mainLoop_ne_unstored args ops (by omega) (newlines file).toNat 0 _ (by omega) ?_ i
    refine henough.imp (fun hn ↦ ?_) ?_
    · rw [List.drop_zero]
      exact Int.toNat_le.2 hn
    · rintro ⟨letter, hmem, hnot⟩
      obtain ⟨o, ho, rfl⟩ := List.mem_map.1 (hops.symm ▸ hmem)
      exact ⟨o, ho, hnot⟩

/-- `I 0,1`, without a newline. -/
def noNewline : List UInt8 := [73, 32, 48, 44, 49]

/-- **The last line may lack its newline**: one operation is stored in an array of none. -/
theorem noNewline_disagrees : ¬ ∀ op address file, PassesAgree op address file := by
  intro h
  obtain ⟨stores, numOp, hparse, hnum, hbelow, -⟩ := h 0 0 noNewline
  have hparse' : parseTraces 0 0 noNewline = some [(0, ⟨73, 0, 1⟩)] := by decide
  have hnum' : numLines noNewline = some 0 := by decide
  obtain rfl := Option.some.inj (hparse.symm.trans hparse')
  obtain rfl := Option.some.inj (hnum.symm.trans hnum')
  exact absurd (hbelow _ List.mem_cons_self).2 (by decide)

end CsappCode.CacheLab
