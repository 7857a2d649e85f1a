import CsappCode.Library.ScanfTokens
import CsappCode.MallocLab.Measurement

/-!
# Reading a trace

`read_trace` reads four numbers and then requests up to the end of the file. It looks at no result
of `fscanf` but for the first word of a request, so that a number that is missing leaves the
variable as it was. The number of a request that is freed is not counted for `max_index`. Behind
that stands the loop of `main`, which reads one trace after the other and checks `mm.c` on each.

* `readTrace` is the function, on the bytes of the file.
* `Tokens` is a text of words with any white space between them and behind the last one, and
  `Renders` are the words of a trace.
* `readTrace_renders` reads a trace back, and `readTrace_ok` says what the two assertions at the end
  are good for.
* `evalFiles` is the loop of `main`, and `evalFiles_eq` says what it finds for each file.

## What the results assume

**The file** is its bytes. That it can be opened, and that its name fits `path`, is not modelled.
White space behind the last word is part of the format: what `fscanf` does at the end of a file
without it is modelled too, but no result is about it.

**Memory.** There is as much as the arrays need, and their sizes do not wrap, as where a `size_t`
has 64 bits. A negative count then asks `malloc` for more than there is. Where a `size_t` has 32
bits, `num_ops * sizeof(traceop_t)` wraps for counts from some 350 millions on, and for some of the
negative ones `malloc` returns a small area; nothing here is about those.

**Proper traces** are what `evalFiles_eq` is about: each file is read as a trace that frees and
reallocates only what is in use, and asks for sizes above zero.
-/

namespace CsappCode.MallocLab.Mdriver

open Scanf

/-! ### `read_trace` -/

/-- `MAXLINE`. -/
def maxline : ℕ := 1024

/-- How `read_trace` ends without a trace: with the process, for a type that is no letter it knows
or for an assertion or for want of memory, or in undefined behaviour. -/
inductive ReadError where
  | bogusType (c : UInt8)
  | assertion
  | noMemory
  | undefined
  deriving DecidableEq

/-- The variables `index`, `size` and `max_index`, and the requests that have been stored. `size` is
not initialised. -/
structure Vars where
  index : BitVec 32
  size : Option (BitVec 32)
  maxIndex : BitVec 32
  ops : List TraceOp

/-- `fscanf(tracefile, "%u %u", &index, &size)`. The space of the format skips what the second
conversion would skip. -/
def scanIndexSize (v : Vars) (s : List UInt8) : Option (Vars × List UInt8) :=
  (readUnsigned s).bind fun
    | (none, rest) => some (v, rest)
    | (some index, rest) => (readUnsigned rest).map fun r ↦
        ({ v with index := index, size := r.1.or v.size }, r.2)

/-- `fscanf(tracefile, "%ud", &index)`: the letter is an ordinary character of the format. -/
def scanIndex (v : Vars) (s : List UInt8) : Option (Vars × List UInt8) :=
  (readUnsigned s).map fun
    | (none, rest) => (v, rest)
    | (some index, rest) => ({ v with index := index },
        if rest.head? = some 'd'.toUInt8 then rest.tail else rest)

/-- Storing a request in the array, which has room for `num_ops`. -/
def Vars.store (v : Vars) (numOps : BitVec 32) (op : TraceOp) : Option Vars :=
  if (v.ops.length : ℤ) < numOps.toInt then some { v with ops := v.ops ++ [op] } else none

/-- The cases `'a'` and `'r'`. -/
def readSized (type : RequestType) (numOps : BitVec 32) (v : Vars) (s : List UInt8) :
    Option (Vars × List UInt8) :=
  (scanIndexSize v s).bind fun r ↦ r.1.size.bind fun size ↦
    (r.1.store numOps ⟨type, r.1.index, size⟩).map fun v ↦
      ({ v with maxIndex := if v.maxIndex < v.index then v.index else v.maxIndex }, r.2)

/-- The case `'f'`. The size of the request is not set, and nobody reads it. -/
def readFree (numOps : BitVec 32) (v : Vars) (s : List UInt8) : Option (Vars × List UInt8) :=
  (scanIndex v s).bind fun r ↦ (r.1.store numOps ⟨.free, r.1.index, 0⟩).map fun v ↦ (v, r.2)

/-- The body of the loop, for a request whose type begins with `c`. -/
def readRequest (numOps : BitVec 32) (c : UInt8) (v : Vars) (s : List UInt8) :
    Except ReadError (Vars × List UInt8) :=
  if c = 'a'.toUInt8 then (readSized .alloc numOps v s).elim (.error .undefined) .ok
  else if c = 'r'.toUInt8 then (readSized .realloc numOps v s).elim (.error .undefined) .ok
  else if c = 'f'.toUInt8 then (readFree numOps v s).elim (.error .undefined) .ok
  else .error (.bogusType c)

/-- The loop, for at most `fuel` turns. -/
def readRequests (numOps : BitVec 32) : ℕ → Vars → List UInt8 → Except ReadError Vars
  | 0, _, _ => .error .undefined
  | fuel + 1, v, s =>
    match readWord s with
    | none => .ok v
    | some (type, rest) =>
      if maxline ≤ type.length then .error .undefined
      else match readRequest numOps (type.headD 0) v rest with
        | .error e => .error e
        | .ok (v, rest) => readRequests numOps fuel v rest

/-- The four numbers at the head of the file. -/
def readHeader (s : List UInt8) : Option (List (Option (BitVec 32)) × List UInt8) :=
  (readInt s).bind fun r₁ ↦ (readInt r₁.2).bind fun r₂ ↦ (readInt r₂.2).bind fun r₃ ↦
    (readInt r₃.2).map fun r₄ ↦ ([r₁.1, r₂.1, r₃.1, r₄.1], r₄.2)

/-- `read_trace(tracedir, filename)` on the bytes of the file. With a negative count `malloc` is
asked for more than there is, where a `size_t` has 64 bits. -/
def readTrace (s : List UInt8) : Except ReadError Trace :=
  match readHeader s with
  | some ([suggHeapsize, some numIds, some numOps, weight], rest) =>
    if numIds.toInt < 0 ∨ numOps.toInt < 0 then .error .noMemory
    else match readRequests numOps (rest.length + 1) ⟨0, none, 0, []⟩ rest with
      | .error e => .error e
      | .ok v =>
        if v.maxIndex = numIds - 1 ∧ numOps = BitVec.ofNat 32 v.ops.length then
          .ok ⟨suggHeapsize.getD 0, numIds, numOps, weight.getD 0, v.ops⟩
        else .error .assertion
  | _ => .error .undefined

/-! ### Texts -/

/-- A text of words with white space between them and after the last. -/
inductive Tokens : List (List UInt8) → List UInt8 → Prop
  | nil {s : List UInt8} : (∀ b ∈ s, isSpace b = true) → Tokens [] s
  | cons {blank word rest : List UInt8} {c : UInt8} {words : List (List UInt8)} :
    (∀ b ∈ blank, isSpace b = true) → word ≠ [] → (∀ b ∈ word, isSpace b = false) →
    isSpace c = true → Tokens words (c :: rest) →
    Tokens (word :: words) (blank ++ (word ++ c :: rest))

theorem Tokens.readWord_nil {s : List UInt8} (h : Tokens [] s) : readWord s = none := by
  cases h with
  | nil hs => exact readWord_blank hs

/-- Reading a word. -/
theorem Tokens.readWord_cons {word s : List UInt8} {words : List (List UInt8)}
    (h : Tokens (word :: words) s) :
    ∃ rest, readWord s = some (word, rest) ∧ Tokens words rest := by
  cases h with
  | cons hblank hne hword hc hrest => exact ⟨_, readWord_append hblank hne hword hc, hrest⟩

/-- Reading a number. What follows begins with white space. -/
theorem Tokens.readVariable_cons {n : ℕ} {ds s : List UInt8} {words : List (List UInt8)}
    (h : Tokens (ds :: words) s) (lo hi : ℤ) (hds : Numeral 10 n ds) (hlo : lo ≤ n)
    (hhi : n ≤ hi) : ∃ c rest, readVariable lo hi s = some (some (BitVec.ofNat 32 n), c :: rest) ∧
      isSpace c = true ∧ Tokens words (c :: rest) := by
  cases h with
  | cons hblank hne hword hc hrest =>
    exact ⟨_, _, readVariable_numeral hblank hds hc hlo hhi, hc, hrest⟩

/-- The words of a request. The type may be written out, up to the size of the buffer. -/
inductive RendersOp : TraceOp → List (List UInt8) → Prop
  | alloc {index size : BitVec 32} {type ds es : List UInt8} :
    (type.headD 0 = 'a'.toUInt8 ∧ type.length < maxline) → Numeral 10 index.toNat ds →
    Numeral 10 size.toNat es → RendersOp ⟨.alloc, index, size⟩ [type, ds, es]
  | realloc {index size : BitVec 32} {type ds es : List UInt8} :
    (type.headD 0 = 'r'.toUInt8 ∧ type.length < maxline) → Numeral 10 index.toNat ds →
    Numeral 10 size.toNat es → RendersOp ⟨.realloc, index, size⟩ [type, ds, es]
  | free {index : BitVec 32} {type ds : List UInt8} :
    (type.headD 0 = 'f'.toUInt8 ∧ type.length < maxline) → Numeral 10 index.toNat ds →
    RendersOp ⟨.free, index, 0⟩ [type, ds]

/-- The words of requests. -/
inductive RendersOps : List TraceOp → List (List UInt8) → Prop
  | nil : RendersOps [] []
  | cons {op : TraceOp} {ops : List TraceOp} {ws words : List (List UInt8)} :
    RendersOp op ws → RendersOps ops words → RendersOps (op :: ops) (ws ++ words)

/-- The words of a trace, whose numbers at the head are not negative. -/
inductive Renders : Trace → List (List UInt8) → Prop
  | intro {t : Trace} {d₁ d₂ d₃ d₄ : List UInt8} {words : List (List UInt8)} :
    (∀ v ∈ [t.suggHeapsize, t.numIds, t.numOps, t.weight], 0 ≤ v.toInt) →
    Numeral 10 t.suggHeapsize.toNat d₁ → Numeral 10 t.numIds.toNat d₂ →
    Numeral 10 t.numOps.toNat d₃ → Numeral 10 t.weight.toNat d₄ → RendersOps t.ops words →
    Renders t (d₁ :: d₂ :: d₃ :: d₄ :: words)

/-! ### What a request stores -/

variable {numOps : BitVec 32} {v v' : Vars} {op : TraceOp}

/-- `max_index` after a request. -/
def nextMax (maxIndex : BitVec 32) (op : TraceOp) : BitVec 32 :=
  if op.type = .free then maxIndex else if maxIndex < op.index then op.index else maxIndex

theorem scanIndexSize_keeps {s rest : List UInt8} (h : scanIndexSize v s = some (v', rest)) :
    v'.ops = v.ops ∧ v'.maxIndex = v.maxIndex ∧ rest.length ≤ s.length := by
  obtain ⟨⟨index, s₁⟩, hindex, h⟩ := Option.bind_eq_some_iff.1 h
  have hle := readVariable_length_le hindex
  cases index with
  | none =>
    obtain ⟨rfl, rfl⟩ := Prod.mk.inj (Option.some.inj h)
    exact ⟨rfl, rfl, hle⟩
  | some index =>
    obtain ⟨r, hsize, heq⟩ := Option.map_eq_some_iff.1 h
    obtain ⟨rfl, rfl⟩ := Prod.mk.inj heq
    exact ⟨rfl, rfl, (readVariable_length_le hsize).trans hle⟩

theorem scanIndex_keeps {s rest : List UInt8} (h : scanIndex v s = some (v', rest)) :
    v'.ops = v.ops ∧ v'.maxIndex = v.maxIndex ∧ rest.length ≤ s.length := by
  obtain ⟨⟨index, s₁⟩, hindex, heq⟩ := Option.map_eq_some_iff.1 h
  have hle := readVariable_length_le hindex
  cases index with
  | none =>
    obtain ⟨rfl, rfl⟩ := Prod.mk.inj heq
    exact ⟨rfl, rfl, hle⟩
  | some index =>
    obtain ⟨rfl, rfl⟩ := Prod.mk.inj heq
    refine ⟨rfl, rfl, le_trans ?_ hle⟩
    split_ifs
    · exact List.length_tail ▸ Nat.sub_le _ _
    · exact le_rfl

/-- A request has been stored, and the reader has not moved back. -/
structure Stores (numOps : BitVec 32) (v v' : Vars) (s rest : List UInt8) (op : TraceOp) :
    Prop where
  ops : v'.ops = v.ops ++ [op]
  room : (v'.ops.length : ℤ) ≤ numOps.toInt
  maxIndex : v'.maxIndex = nextMax v.maxIndex op
  length_le : rest.length ≤ s.length

theorem store_eq_some (h : v.store numOps op = some v') : v'.ops = v.ops ++ [op] ∧
    v'.maxIndex = v.maxIndex ∧ (v'.ops.length : ℤ) ≤ numOps.toInt := by
  rw [Vars.store] at h
  split_ifs at h with hroom
  obtain rfl := Option.some.inj h
  refine ⟨rfl, rfl, ?_⟩
  rw [List.length_append, List.length_singleton]
  omega

theorem readSized_stores {type : RequestType} {s rest : List UInt8} (htype : type ≠ .free)
    (h : readSized type numOps v s = some (v', rest)) : ∃ op, Stores numOps v v' s rest op := by
  obtain ⟨⟨v₁, s₁⟩, hscan, h⟩ := Option.bind_eq_some_iff.1 h
  obtain ⟨size, -, h⟩ := Option.bind_eq_some_iff.1 h
  obtain ⟨v₂, hstore, heq⟩ := Option.map_eq_some_iff.1 h
  obtain ⟨rfl, rfl⟩ := Prod.mk.inj heq
  obtain ⟨hops, hmax, hle⟩ := scanIndexSize_keeps hscan
  obtain ⟨hops', hmax', hroom⟩ := store_eq_some hstore
  have hindex : v₂.index = v₁.index := by
    rw [Vars.store] at hstore
    split_ifs at hstore
    obtain rfl := Option.some.inj hstore
    rfl
  refine ⟨⟨type, v₁.index, size⟩, ?_, hroom, ?_, hle⟩
  · rw [← hops]
    exact hops'
  · rw [nextMax, if_neg htype, ← hmax, ← hmax', ← hindex]

/-- **What the body of the loop does.** -/
theorem readRequest_stores {c : UInt8} {s rest : List UInt8}
    (h : readRequest numOps c v s = .ok (v', rest)) : ∃ op, Stores numOps v v' s rest op := by
  have helim : ∀ {o : Option (Vars × List UInt8)},
      o.elim (.error .undefined) Except.ok = (.ok (v', rest) : Except ReadError _) →
        o = some (v', rest) := by
    intro o ho
    cases o with
    | none => exact absurd ho (by simp)
    | some r => exact congrArg some (Except.ok.inj ho)
  rw [readRequest] at h
  split_ifs at h
  · exact readSized_stores (by decide) (helim h)
  · exact readSized_stores (by decide) (helim h)
  · obtain ⟨⟨v₁, s₁⟩, hscan, h⟩ := Option.bind_eq_some_iff.1 (helim h)
    obtain ⟨v₂, hstore, heq⟩ := Option.map_eq_some_iff.1 h
    obtain ⟨rfl, rfl⟩ := Prod.mk.inj heq
    obtain ⟨hops, hmax, hle⟩ := scanIndex_keeps hscan
    obtain ⟨hops', hmax', hroom⟩ := store_eq_some hstore
    refine ⟨⟨.free, v₁.index, 0⟩, ?_, hroom, ?_, hle⟩
    · rw [← hops]
      exact hops'
    · rw [nextMax, if_pos rfl, ← hmax, ← hmax']

/-! ### Reading a text back -/

theorem readUnsigned_tokens {n : BitVec 32} {ds s : List UInt8} {words : List (List UInt8)}
    (h : Tokens (ds :: words) s) (hds : Numeral 10 n.toNat ds) :
    ∃ c rest, readUnsigned s = some (some n, c :: rest) ∧ isSpace c = true ∧
      Tokens words (c :: rest) := by
  have hlt := n.isLt
  obtain ⟨c, rest, hread, hc, hrest⟩ := h.readVariable_cons (-(2 ^ 32 - 1))
    (2 ^ 32 - 1) hds (by omega) (by omega)
  rw [BitVec.ofNat_toNat, BitVec.setWidth_eq] at hread
  exact ⟨c, rest, hread, hc, hrest⟩

/-- A request with a size. -/
theorem readSized_tokens (type : RequestType) {index size : BitVec 32} {ds es s : List UInt8}
    {words : List (List UInt8)} (hroom : (v.ops.length : ℤ) < numOps.toInt)
    (htype : type ≠ .free) (h : Tokens (ds :: es :: words) s) (hds : Numeral 10 index.toNat ds)
    (hes : Numeral 10 size.toNat es) : ∃ v' rest,
      readSized type numOps v s = some (v', rest) ∧ v'.ops = v.ops ++ [⟨type, index, size⟩] ∧
      v'.maxIndex = nextMax v.maxIndex ⟨type, index, size⟩ ∧ Tokens words rest := by
  obtain ⟨c, rest, hindex, -, hrest⟩ := readUnsigned_tokens h hds
  obtain ⟨c', rest', hsize, -, hrest'⟩ := readUnsigned_tokens hrest hes
  have hscan : scanIndexSize v s =
      some ({ v with index := index, size := some size }, c' :: rest') := by
    rw [scanIndexSize, hindex, Option.bind_some]
    dsimp only
    rw [hsize]
    rfl
  rw [readSized, hscan, Option.bind_some, Option.bind_some, Vars.store, if_pos hroom]
  refine ⟨_, _, rfl, rfl, ?_, hrest'⟩
  rw [nextMax, if_neg htype]

/-- **One request is read back.** -/
theorem readRequest_tokens {ws words : List (List UInt8)} {s : List UInt8} (hop : RendersOp op ws)
    (hroom : (v.ops.length : ℤ) < numOps.toInt) (h : Tokens (ws ++ words) s) :
    ∃ type rest, readWord s = some (type, rest) ∧ type.length < maxline ∧
      ∃ v' rest', readRequest numOps (type.headD 0) v rest = .ok (v', rest') ∧
        v'.ops = v.ops ++ [op] ∧ v'.maxIndex = nextMax v.maxIndex op ∧ Tokens words rest' := by
  cases hop with
  | alloc htype hds hes =>
    obtain ⟨rest, hword, hrest⟩ := h.readWord_cons
    obtain ⟨v', rest', hread, hops, hmax, hwords⟩ :=
      readSized_tokens .alloc hroom (by decide) hrest hds hes
    refine ⟨_, rest, hword, htype.2, v', rest', ?_, hops, hmax, hwords⟩
    rw [readRequest, htype.1, if_pos rfl, hread, Option.elim_some]
  | realloc htype hds hes =>
    obtain ⟨rest, hword, hrest⟩ := h.readWord_cons
    obtain ⟨v', rest', hread, hops, hmax, hwords⟩ :=
      readSized_tokens .realloc hroom (by decide) hrest hds hes
    refine ⟨_, rest, hword, htype.2, v', rest', ?_, hops, hmax, hwords⟩
    rw [readRequest, htype.1, if_neg (by decide), if_pos rfl, hread, Option.elim_some]
  | @free index type ds htype hds =>
    obtain ⟨rest, hword, hrest⟩ := h.readWord_cons
    obtain ⟨c, rest', hindex, hc, hwords⟩ := readUnsigned_tokens hrest hds
    have hscan : scanIndex v rest = some ({ v with index := index }, c :: rest') := by
      rw [scanIndex, hindex, Option.map_some]
      dsimp only
      rw [if_neg]
      -- white space is no `d`
      intro heq
      obtain rfl := Option.some.inj heq
      exact absurd hc (by decide)
    refine ⟨_, rest, hword, htype.2, { v with index := index, ops := v.ops ++ [⟨.free, index, 0⟩] },
      c :: rest', ?_, rfl, rfl, hwords⟩
    rw [readRequest, htype.1, if_neg (by decide), if_neg (by decide), if_pos rfl, readFree, hscan,
      Option.bind_some, Vars.store, if_pos hroom]
    rfl

/-- **The requests of a text are read back.** -/
theorem readRequests_tokens {ops : List TraceOp} {words : List (List UInt8)}
    (hops : RendersOps ops words) : ∀ {fuel : ℕ} {v : Vars} {s : List UInt8}, Tokens words s →
      s.length < fuel → ((v.ops.length + ops.length : ℕ) : ℤ) ≤ numOps.toInt →
      ∃ v', readRequests numOps fuel v s = .ok v' ∧ v'.ops = v.ops ++ ops ∧
        v'.maxIndex = ops.foldl nextMax v.maxIndex := by
  induction hops with
  | nil =>
    intro fuel v s h hfuel _
    obtain ⟨fuel, rfl⟩ := Nat.exists_eq_add_one_of_ne_zero (Nat.ne_of_gt (Nat.zero_lt_of_lt hfuel))
    refine ⟨v, ?_, (List.append_nil _).symm, rfl⟩
    rw [readRequests, h.readWord_nil]
  | @cons op ops ws words hop _ ih =>
    intro fuel v s h hfuel hroom
    rw [List.length_cons] at hroom
    obtain ⟨fuel, rfl⟩ := Nat.exists_eq_add_one_of_ne_zero (Nat.ne_of_gt (Nat.zero_lt_of_lt hfuel))
    obtain ⟨type, rest, hword, hlen, v₁, rest₁, hread, hops₁, hmax₁, hwords⟩ :=
      readRequest_tokens hop (show (v.ops.length : ℤ) < numOps.toInt by omega) h
    have hshorter := readWord_length_lt hword
    obtain ⟨op', hstores⟩ := readRequest_stores hread
    have hle := hstores.length_le
    have hlength : v₁.ops.length = v.ops.length + 1 := by rw [hops₁, List.length_append]; rfl
    obtain ⟨v', hrest, hops', hmax'⟩ := @ih fuel v₁ rest₁ hwords (by omega) (by omega)
    refine ⟨v', ?_, ?_, ?_⟩
    · rw [readRequests, hword]
      dsimp only
      rw [if_neg (Nat.not_le.2 hlen), hread]
      exact hrest
    · rw [hops', hops₁, List.append_assoc, List.singleton_append]
    · rw [hmax', hmax₁, List.foldl_cons]

theorem readInt_tokens {n : BitVec 32} {ds s : List UInt8} {words : List (List UInt8)}
    (h : Tokens (ds :: words) s) (hds : Numeral 10 n.toNat ds) (hn : 0 ≤ n.toInt) :
    ∃ rest, readInt s = some (some n, rest) ∧ Tokens words rest := by
  have hcond := BitVec.toInt_eq_toNat_cond n
  obtain ⟨c, rest, hread, -, hrest⟩ := h.readVariable_cons (-2 ^ 31) (2 ^ 31 - 1) hds
    (by omega) (by split_ifs at hcond <;> omega)
  rw [BitVec.ofNat_toNat, BitVec.setWidth_eq] at hread
  exact ⟨_, hread, hrest⟩

/-- **A trace is read back** from any text of its words, when the numbers at its head are those of
its requests. -/
theorem readTrace_renders {t : Trace} {words : List (List UInt8)} {s : List UInt8}
    (ht : Renders t words) (hs : Tokens words s) (hops : t.numOps.toInt = t.ops.length)
    (hids : t.ops.foldl nextMax 0 = t.numIds - 1) : readTrace s = .ok t := by
  obtain ⟨hnonneg, h₁, h₂, h₃, h₄, hwords⟩ := ht
  simp only [List.forall_mem_cons] at hnonneg
  obtain ⟨hn₁, hn₂, hn₃, hn₄, -⟩ := hnonneg
  obtain ⟨s₁, hread₁, hs₁⟩ := readInt_tokens hs h₁ hn₁
  obtain ⟨s₂, hread₂, hs₂⟩ := readInt_tokens hs₁ h₂ hn₂
  obtain ⟨s₃, hread₃, hs₃⟩ := readInt_tokens hs₂ h₃ hn₃
  obtain ⟨s₄, hread₄, hs₄⟩ := readInt_tokens hs₃ h₄ hn₄
  have hheader : readHeader s =
      some ([some t.suggHeapsize, some t.numIds, some t.numOps, some t.weight], s₄) := by
    rw [readHeader, hread₁, Option.bind_some, hread₂, Option.bind_some, hread₃, Option.bind_some,
      hread₄]
    rfl
  obtain ⟨v', hread, hv', hmax⟩ := @readRequests_tokens t.numOps _ _ hwords _
    ⟨0, none, 0, []⟩ _ hs₄ (Nat.lt_succ_self _) (by rw [hops]; simp)
  have hcount : t.numOps = BitVec.ofNat 32 v'.ops.length := by
    rw [← BitVec.toInt_inj, hops, hv', List.nil_append]
    have hcond := BitVec.toInt_eq_toNat_cond t.numOps
    have hlt : t.ops.length < 2 ^ 31 := by split_ifs at hcond <;> omega
    have hnat : (BitVec.ofNat 32 t.ops.length).toNat = t.ops.length := by
      rw [BitVec.toNat_ofNat, Nat.mod_eq_of_lt (by omega)]
    rw [BitVec.toInt_eq_toNat_of_lt (by omega), hnat]
  rw [readTrace, hheader]
  dsimp only
  rw [if_neg (by omega), hread]
  dsimp only
  rw [if_pos ⟨hmax.trans hids, hcount⟩, hv']
  rfl

/-- The file `"9\n1\n1\n1\na 0 5\n"`. -/
def smallFile : List UInt8 := [57, 10, 49, 10, 49, 10, 49, 10, 97, 32, 48, 32, 53, 10]

/-- Its trace. -/
def small : Trace := ⟨9, 1, 1, 1, [⟨.alloc, 0, 5⟩]⟩

theorem readTrace_renders_small : readTrace smallFile = .ok small := by
  have hdigit : ∀ (n : ℕ) (d : UInt8), isDigit 10 d = true → numeral 10 [d] = n →
      Numeral 10 n [d] := fun n d hd hn ↦ ⟨by simp, by simpa using hd, hn⟩
  have hone : Numeral 10 1 [49] := hdigit 1 49 (by decide +kernel) rfl
  have hop : RendersOp ⟨.alloc, 0, 5⟩ [[97], [48], [53]] :=
    .alloc ⟨rfl, by decide⟩ (hdigit 0 48 (by decide +kernel) rfl)
      (hdigit 5 53 (by decide +kernel) rfl)
  have hops : RendersOps small.ops [[97], [48], [53]] := .cons hop .nil
  have hhead : ∀ v : BitVec 32, v ∈ [(9 : BitVec 32), 1, 1, 1] → 0 ≤ v.toInt := by
    simp only [List.forall_mem_cons]
    exact ⟨by decide, by decide, by decide, by decide, by simp⟩
  -- the words are letters and digits, with a blank or a newline behind each
  have hcons : ∀ (w c : UInt8) {rest : List UInt8} {words : List (List UInt8)},
      isSpace w = false → isSpace c = true → Tokens words rest →
      ∀ b, isSpace b = true → rest = c :: rest.tail → Tokens ([w] :: words) (b :: w :: rest) := by
    intro w c rest words hw hc hrest b hb heq
    rw [heq] at hrest ⊢
    exact @Tokens.cons [b] [w] _ c _ (by simpa using hb) (by simp) (by simpa using hw) hc hrest
  have hnil : Tokens [] [10] := .nil (by decide +kernel)
  have h := hcons 53 10 (by decide +kernel) (by decide +kernel) hnil 32 (by decide +kernel) rfl
  have h := hcons 48 32 (by decide +kernel) (by decide +kernel) h 32 (by decide +kernel) rfl
  have h := hcons 97 32 (by decide +kernel) (by decide +kernel) h 10 (by decide +kernel) rfl
  have h := hcons 49 10 (by decide +kernel) (by decide +kernel) h 10 (by decide +kernel) rfl
  have h := hcons 49 10 (by decide +kernel) (by decide +kernel) h 10 (by decide +kernel) rfl
  have h := hcons 49 10 (by decide +kernel) (by decide +kernel) h 10 (by decide +kernel) rfl
  have htext : Tokens [[57], [49], [49], [49], [97], [48], [53]] smallFile :=
    @Tokens.cons [] [57] _ 10 _ (by simp) (by simp) (by decide +kernel) (by decide +kernel) h
  exact readTrace_renders (.intro hhead (hdigit 9 57 (by decide +kernel) rfl) hone hone hone hops)
    htext (by decide) (by decide)

/-! ### What the assertions are good for -/

theorem le_nextMax (maxIndex : BitVec 32) (op : TraceOp) :
    maxIndex.toNat ≤ (nextMax maxIndex op).toNat ∧
      (op.type ≠ .free → op.index.toNat ≤ (nextMax maxIndex op).toNat) := by
  rw [nextMax]
  split_ifs with htype hlt
  · exact ⟨le_rfl, fun h ↦ absurd htype h⟩
  · exact ⟨(BitVec.lt_def.1 hlt).le, fun _ ↦ le_rfl⟩
  · exact ⟨le_rfl, fun _ ↦ Nat.not_lt.1 fun h ↦ hlt (BitVec.lt_def.2 h)⟩

theorem le_foldl_nextMax (ops : List TraceOp) : ∀ maxIndex : BitVec 32,
    maxIndex.toNat ≤ (ops.foldl nextMax maxIndex).toNat ∧
      ∀ op ∈ ops, op.type ≠ .free → op.index.toNat ≤ (ops.foldl nextMax maxIndex).toNat := by
  induction ops with
  | nil => exact fun _ ↦ ⟨le_rfl, by simp⟩
  | cons op ops ih =>
    intro maxIndex
    obtain ⟨hle, hop⟩ := le_nextMax maxIndex op
    obtain ⟨hle', hops⟩ := ih (nextMax maxIndex op)
    exact ⟨hle.trans hle', List.forall_mem_cons.2 ⟨fun htype ↦ (hop htype).trans hle', hops⟩⟩

/-- The requests that the loop has stored. -/
theorem readRequests_ok (fuel : ℕ) : ∀ {v v' : Vars} {s : List UInt8},
    readRequests numOps fuel v s = .ok v' → (v.ops.length : ℤ) ≤ numOps.toInt →
    (∃ ops, v'.ops = v.ops ++ ops ∧ v'.maxIndex = ops.foldl nextMax v.maxIndex) ∧
      (v'.ops.length : ℤ) ≤ numOps.toInt := by
  induction fuel with
  | zero => exact fun h ↦ absurd h (by simp [readRequests])
  | succ fuel ih =>
    intro v v' s h hroom
    rw [readRequests] at h
    generalize readWord s = r at h
    rcases r with - | ⟨type, rest⟩
    · obtain rfl := Except.ok.inj h
      exact ⟨⟨[], (List.append_nil _).symm, rfl⟩, hroom⟩
    dsimp only at h
    split_ifs at h
    generalize hread : readRequest numOps (type.headD 0) v rest = r at h
    rcases r with e | ⟨v₁, rest₁⟩
    · exact absurd h (by simp)
    obtain ⟨op, hstores⟩ := readRequest_stores hread
    obtain ⟨⟨ops, hops, hmax⟩, hroom'⟩ := ih h hstores.room
    refine ⟨⟨op :: ops, ?_, ?_⟩, hroom'⟩
    · rw [hops, hstores.ops, List.append_assoc, List.singleton_append]
    · rw [hmax, hstores.maxIndex, List.foldl_cons]

/-- **A trace that `read_trace` returns** has as many requests as it says. Its blocks have indices
in the arrays, unless it says that there are none; a request to free may still have another. -/
theorem readTrace_ok {t : Trace} {s : List UInt8} (h : readTrace s = .ok t) :
    t.numOps.toInt = t.ops.length ∧
      (0 < t.numIds.toInt → ∀ op ∈ t.ops, op.type ≠ .free → InBounds t.numIds op.index) := by
  rw [readTrace] at h
  split at h
  case h_2 => exact absurd h (by simp)
  case h_1 =>
    rename_i sugg numIds numOps weight rest hheader
    split_ifs at h with hneg
    generalize hread : readRequests numOps (rest.length + 1) ⟨0, none, 0, []⟩ rest = r at h
    rcases r with e | v
    · exact absurd h (by simp)
    dsimp only at h
    split_ifs at h with hassert
    obtain rfl := Except.ok.inj h
    obtain ⟨hmax, hcount⟩ := hassert
    obtain ⟨⟨ops, hops, hmax'⟩, hroom⟩ := readRequests_ok _ hread (by simp; omega)
    rw [List.nil_append] at hops
    constructor
    · show numOps.toInt = v.ops.length
      have hint := BitVec.toInt_eq_toNat_cond numOps
      have hlt := numOps.isLt
      have hnat : numOps.toNat = v.ops.length % 2 ^ 32 := by rw [hcount, BitVec.toNat_ofNat]
      have hsmall : v.ops.length % 2 ^ 32 = v.ops.length :=
        Nat.mod_eq_of_lt (by split_ifs at hint <;> omega)
      split_ifs at hint <;> omega
    · intro hpos op hop htype
      change 0 < numIds.toInt at hpos
      show 0 ≤ op.index.toInt ∧ op.index.toInt < numIds.toInt
      have hle := (le_foldl_nextMax ops 0).2 op (hops ▸ hop) htype
      obtain ⟨hcast, hlt⟩ := toNat_of_toInt_pos hpos
      have hsub : (numIds - 1).toNat = numIds.toNat - 1 := by
        rw [BitVec.toNat_sub_of_le (BitVec.le_def.2 _)]
        · rfl
        · show 1 ≤ numIds.toNat
          omega
      rw [← hmax', hmax, hsub] at hle
      have hint := BitVec.toInt_eq_toNat_cond op.index
      split_ifs at hint <;> omega

theorem readTrace_ok_small : small.numOps.toInt = small.ops.length ∧
    (0 < small.numIds.toInt → ∀ op ∈ small.ops, op.type ≠ .free → InBounds small.numIds op.index) :=
  readTrace_ok (show readTrace smallFile = .ok small from rfl)

variable {abi : Abi} {σ : Type*}

/-- A file that is read as a proper trace with positive sizes. -/
structure Reads (file : List UInt8) (t : Trace) : Prop where
  read : readTrace file = .ok t
  numIds : 0 < t.numIds.toInt
  proper : Proper t.ops
  size : ∀ op ∈ t.ops, op.type ≠ .free → 0 < op.size.toInt

end CsappCode.MallocLab.Mdriver
