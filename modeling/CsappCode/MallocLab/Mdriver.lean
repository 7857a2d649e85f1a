import CsappCode.MallocLab.Mm
import Mathlib.Data.List.Basic

/-!
# The trace-driven checker `mdriver.c`

`mdriver` replays a trace of requests on a malloc package and checks the pointers that come back.
The package is a parameter here, since the driver is linked with whatever `mm.c` defines;
`mmPackage` is the one of the repository.

* `addRange`, `removeRange` and `clearRanges` keep the payloads that are in use.
* `evalMmValid` is the correctness check, `evalMmUtil` the space measurement and `evalMmSpeed` the
  run that is timed. They share the arrays `blocks` and `block_sizes` of the trace.
* `Passes` says what a request does when it passes, and `validStep_eq_ok` that this is one turn of
  the loop.

## How the code is modelled

**A package** has a state of its own besides the memory, and its calls are partial functions: there
is no value where the behaviour is undefined. A package that loops for ever is not covered.

**Stops.** A check ends early with a report and the return of 0, with the process, or where C leaves
the behaviour undefined. A read of an entry of the arrays that was never written is of the last
kind. `malloc_error` prints a report; the text is the `Message`.

**The list of ranges** is a linked list in the code, newest first, and a list here. That its nodes
could be allocated is assumed.

**Integers.** Indices and sizes are 32-bit, and the size of a block is a `size_t`, whose width is a
parameter. `char` is signed, as on the machines the Makefile compiles for: the byte that is read
back is compared as a number from -128 to 127.
-/

namespace CsappCode.MallocLab.Mdriver

open ByteMemory

/-! ### The range list -/

/-- `ALIGNMENT`. -/
def alignment : ℕ := 8

/-- `IS_ALIGNED(p)`: the address is cut to an `unsigned int` first. -/
def isAligned (p : ℕ) : Prop := p % 2 ^ 32 % alignment = 0

instance (p : ℕ) : Decidable (isAligned p) := inferInstanceAs (Decidable (_ = _))

/-- `range_t`: the first and the last byte of a payload. -/
structure Range where
  lo : ℕ
  hi : ℕ
  deriving DecidableEq

/-- What `malloc_error` is called with. -/
inductive Message where
  | notAligned (lo : ℕ)
  | outsideHeap (lo hi : ℕ) (heapLo heapHi : ℤ)
  | overlaps (lo hi : ℕ) (p : Range)
  | initFailed
  | mallocFailed
  | reallocFailed
  | notPreserved
  deriving DecidableEq

/-- The text, when `%p` prints an address by `ptr`. -/
def Message.text (ptr : ℤ → String) : Message → String
  | notAligned lo => "Payload address (" ++ ptr lo ++ ") not aligned to 8 bytes"
  | outsideHeap lo hi heapLo heapHi => "Payload (" ++ ptr lo ++ ":" ++ ptr hi ++
      ") lies outside heap (" ++ ptr heapLo ++ ":" ++ ptr heapHi ++ ")"
  | overlaps lo hi p => "Payload (" ++ ptr lo ++ ":" ++ ptr hi ++
      ") overlaps another payload (" ++ ptr p.lo ++ ":" ++ ptr p.hi ++ ")\n"
  | initFailed => "mm_init failed."
  | mallocFailed => "mm_malloc failed."
  | reallocFailed => "mm_realloc failed."
  | notPreserved => "mm_realloc did not preserve the data from old block"

/-- The test for an overlap in `add_range`: whether one of the ends of the new payload lies in the
old one. -/
def Range.Hits (lo hi : ℕ) (p : Range) : Prop :=
  (p.lo ≤ lo ∧ lo ≤ p.hi) ∨ (p.lo ≤ hi ∧ hi ≤ p.hi)

instance (lo hi : ℕ) (p : Range) : Decidable (p.Hits lo hi) := inferInstanceAs (Decidable (_ ∨ _))

/-- `add_range(ranges, lo, size, ...)`: the new list, or what is reported. There is no value when
the assertion fails. -/
def addRange (h : Heap) (ranges : List Range) (lo : ℕ) (size : BitVec 32) :
    Option (Except Message (List Range)) :=
  if size.toInt ≤ 0 then none
  else
    let hi := lo + size.toNat - 1
    if ¬ isAligned lo then some (.error (.notAligned lo))
    else if (lo : ℤ) < memHeapLo h ∨ memHeapHi h < lo ∨ (hi : ℤ) < memHeapLo h ∨ memHeapHi h < hi
    then some (.error (.outsideHeap lo hi (memHeapLo h) (memHeapHi h)))
    else match ranges.find? (·.Hits lo hi) with
      | some p => some (.error (.overlaps lo hi p))
      | none => some (.ok (⟨lo, hi⟩ :: ranges))

/-- `remove_range(ranges, lo)`: the first record that begins there is taken out. -/
def removeRange (ranges : List Range) (lo : ℕ) : List Range := ranges.eraseP (·.lo = lo)

/-- `clear_ranges(ranges)`. -/
def clearRanges (_ranges : List Range) : List Range := []

/-! ### Traces -/

/-- The type of a request. -/
inductive RequestType where
  | alloc
  | free
  | realloc
  deriving DecidableEq

/-- `traceop_t`. -/
structure TraceOp where
  type : RequestType
  index : BitVec 32
  size : BitVec 32
  deriving DecidableEq

/-- `trace_t`, without its two arrays. -/
structure Trace where
  suggHeapsize : BitVec 32
  numIds : BitVec 32
  numOps : BitVec 32
  weight : BitVec 32
  ops : List TraceOp
  deriving DecidableEq

/-- The arrays `blocks` and `block_sizes` of a trace, where they have been written. -/
structure Blocks (abi : Abi) where
  ptr : ℕ → Option ℕ
  size : ℕ → Option (SizeT abi)

variable {abi : Abi}

/-- The arrays as `malloc` returns them. -/
def Blocks.fresh : Blocks abi := ⟨fun _ ↦ none, fun _ ↦ none⟩

/-- An index into the arrays. -/
def InBounds (numIds index : BitVec 32) : Prop := 0 ≤ index.toInt ∧ index.toInt < numIds.toInt

instance (numIds index : BitVec 32) : Decidable (InBounds numIds index) :=
  inferInstanceAs (Decidable (_ ∧ _))

/-- `trace->blocks[index]`. -/
def Blocks.getPtr (bs : Blocks abi) (numIds index : BitVec 32) : Option ℕ :=
  if InBounds numIds index then bs.ptr index.toNat else none

/-- `trace->block_sizes[index]`. -/
def Blocks.getSize (bs : Blocks abi) (numIds index : BitVec 32) : Option (SizeT abi) :=
  if InBounds numIds index then bs.size index.toNat else none

/-- `trace->blocks[index] = p; trace->block_sizes[index] = size;` -/
def Blocks.set (bs : Blocks abi) (numIds index : BitVec 32) (p : ℕ) (size : SizeT abi) :
    Option (Blocks abi) :=
  if InBounds numIds index then
    some ⟨Function.update bs.ptr index.toNat (some p),
      Function.update bs.size index.toNat (some size)⟩
  else none

/-! ### Packages -/

/-- The memory system and the variables of a package. -/
structure World (σ : Type*) where
  heap : Heap
  vars : σ

/-- A malloc package. A call has no value where its behaviour is undefined. -/
structure Package (abi : Abi) (σ : Type*) where
  /-- `mm_init()`, and whether its result is not negative. -/
  init : World σ → Bool × World σ
  /-- `mm_malloc(size)`. -/
  malloc : World σ → SizeT abi → Option (Option ℕ × World σ)
  /-- `mm_free(ptr)`. -/
  free : World σ → ℕ → Option (World σ)
  /-- `mm_realloc(ptr, size)`. -/
  realloc : World σ → ℕ → SizeT abi → Option (Option ℕ × World σ)

/-- The package of `mm.c`, which has no variables of its own. -/
def mmPackage (abi : Abi) : Package abi Unit where
  init w := (true, w)
  malloc w size := some ((mmMalloc w.heap size).1, ⟨(mmMalloc w.heap size).2, ()⟩)
  free w p := some ⟨mmFree w.heap p, ()⟩
  realloc w p size := (mmRealloc w.heap p size).map fun r ↦ (r.1, ⟨r.2, ()⟩)

/-! ### `eval_mm_valid` -/

/-- What `malloc_error` prints. -/
structure Report where
  tracenum : ℕ
  line : ℕ
  msg : Message
  deriving DecidableEq

/-- `malloc_error(tracenum, opnum, msg)`, with `LINENUM(opnum)`. -/
def mallocError (tracenum opnum : ℕ) (msg : Message) : Report := ⟨tracenum, opnum + 5, msg⟩

/-- How a check ends early: with the return of 0, when the package, its memory and the range list
are left as they are; or with the process; or where the behaviour is undefined. -/
inductive Stop (σ : Type*) where
  | invalid (report : Report) (world : World σ) (ranges : List Range)
  | abort
  | undefined

/-- What the check works on. -/
structure Driver (abi : Abi) (σ : Type*) where
  world : World σ
  ranges : List Range
  blocks : Blocks abi

variable {σ : Type*}

/-- A `char` as an `int`. -/
def charToInt (b : UInt8) : BitVec 32 := b.toBitVec.signExtend 32

/-- The byte that `memset` makes of `index & 0xFF`. -/
def indexByte (index : BitVec 32) : UInt8 := ⟨(index &&& 0xFF).setWidth 8⟩

/-- `memset(p, index & 0xFF, size)`. -/
def World.memset (w : World σ) (p : ℕ) (index size : BitVec 32) : World σ :=
  { w with heap := { w.heap with
      mem := ByteMemory.memset w.heap.mem p (indexByte index) size.toNat } }

/-- What is done with a block that `mm_malloc` has returned, or `mm_realloc` once the old range is
gone: the test of its range, the test `check` of its contents, and the notes about it. -/
def accept (tracenum opnum : ℕ) (numIds : BitVec 32) (op : TraceOp)
    (check : World σ → Option Bool) (d : Driver abi σ) (p : ℕ) :
    Except (Stop σ) (Driver abi σ) :=
  match addRange d.world.heap d.ranges p op.size with
  | none => .error .abort
  | some (.error msg) => .error (.invalid (mallocError tracenum opnum msg) d.world d.ranges)
  | some (.ok ranges) =>
    match check d.world with
    | none => .error .undefined
    | some false => .error (.invalid (mallocError tracenum opnum .notPreserved) d.world ranges)
    | some true =>
      match d.blocks.set numIds op.index p (op.size.signExtend _) with
      | none => .error .undefined
      | some blocks => .ok ⟨d.world.memset p op.index op.size, ranges, blocks⟩

/-- The loop that compares the first bytes of a reallocated block with the index, for the size of
the old block. -/
def preserved (newp : ℕ) (op : TraceOp) (blockSize : SizeT abi) (w : World σ) : Bool :=
  let oldsize : BitVec 32 := blockSize.setWidth 32
  let oldsize := if op.size.toInt < oldsize.toInt then op.size else oldsize
  (List.range oldsize.toInt.toNat).all fun j ↦
    charToInt (w.heap.mem (newp + j)) = op.index &&& 0xFF

/-- One turn of the loop of `eval_mm_valid`. -/
def validStep (pkg : Package abi σ) (tracenum opnum : ℕ) (numIds : BitVec 32) (op : TraceOp)
    (d : Driver abi σ) : Except (Stop σ) (Driver abi σ) :=
  match op.type with
  | .alloc =>
    match pkg.malloc d.world (op.size.signExtend _) with
    | none => .error .undefined
    | some (none, w) => .error (.invalid (mallocError tracenum opnum .mallocFailed) w d.ranges)
    | some (some p, w) =>
      accept tracenum opnum numIds op (fun _ ↦ true) { d with world := w } p
  | .realloc =>
    match d.blocks.getPtr numIds op.index with
    | none => .error .undefined
    | some oldp =>
      match pkg.realloc d.world oldp (op.size.signExtend _) with
      | none => .error .undefined
      | some (none, w) =>
        .error (.invalid (mallocError tracenum opnum .reallocFailed) w d.ranges)
      | some (some newp, w) =>
        accept tracenum opnum numIds op
          (fun w ↦ (d.blocks.getSize numIds op.index).map (preserved newp op · w))
          { d with world := w, ranges := removeRange d.ranges oldp } newp
  | .free =>
    match d.blocks.getPtr numIds op.index with
    | none => .error .undefined
    | some p =>
      match pkg.free d.world p with
      | none => .error .undefined
      | some w => .ok { d with world := w, ranges := removeRange d.ranges p }

/-- The loop of `eval_mm_valid`, from request `opnum` on. -/
def validLoop (pkg : Package abi σ) (tracenum : ℕ) (numIds : BitVec 32) :
    ℕ → List TraceOp → Driver abi σ → Except (Stop σ) (Driver abi σ)
  | _, [], d => .ok d
  | opnum, op :: ops, d =>
    match validStep pkg tracenum opnum numIds op d with
    | .error stop => .error stop
    | .ok d => validLoop pkg tracenum numIds (opnum + 1) ops d

/-- `eval_mm_valid(trace, tracenum, ranges)`. It returns 1 in the case of a value. -/
def evalMmValid (pkg : Package abi σ) (trace : Trace) (tracenum : ℕ) (d : Driver abi σ) :
    Except (Stop σ) (Driver abi σ) :=
  match pkg.init { d.world with heap := memResetBrk d.world.heap } with
  | (false, w) => .error (.invalid (mallocError tracenum 0 .initFailed) w (clearRanges d.ranges))
  | (true, w) =>
    validLoop pkg tracenum trace.numIds 0 trace.ops ⟨w, clearRanges d.ranges, d.blocks⟩

/-! ### What passes -/

theorem toNat_of_toInt_pos {size : BitVec 32} (h : 0 < size.toInt) :
    (size.toNat : ℤ) = size.toInt ∧ size.toNat < 2 ^ 31 := by
  have hcond := BitVec.toInt_eq_toNat_cond size
  have hlt := size.isLt
  split_ifs at hcond <;> omega

/-- What `add_range` lets through. -/
structure Fits (h : Heap) (ranges : List Range) (lo : ℕ) (size : BitVec 32) : Prop where
  pos : 0 < size.toInt
  aligned : isAligned lo
  heapLo_le : memHeapLo h ≤ lo
  le_heapHi : ((lo + size.toNat - 1 : ℕ) : ℤ) ≤ memHeapHi h
  clear : ∀ p ∈ ranges, ¬ p.Hits lo (lo + size.toNat - 1)

variable {h : Heap} {ranges ranges' : List Range} {lo : ℕ} {size : BitVec 32}

theorem addRange_of_fits (hfits : Fits h ranges lo size) :
    addRange h ranges lo size = some (.ok (⟨lo, lo + size.toNat - 1⟩ :: ranges)) := by
  obtain ⟨hpos, haligned, hlo, hhi, hclear⟩ := hfits
  obtain ⟨hcast, -⟩ := toNat_of_toInt_pos hpos
  have hfind : ranges.find? (·.Hits lo (lo + size.toNat - 1)) = none :=
    List.find?_eq_none.2 (by simpa using hclear)
  rw [addRange, if_neg (by omega)]
  dsimp only
  rw [if_neg (not_not.2 haligned), if_neg (by omega), hfind]

theorem fits_of_addRange (hadd : addRange h ranges lo size = some (.ok ranges')) :
    Fits h ranges lo size ∧ ranges' = ⟨lo, lo + size.toNat - 1⟩ :: ranges := by
  rw [addRange] at hadd
  by_cases hpos : size.toInt ≤ 0
  · rw [if_pos hpos] at hadd
    exact absurd hadd (by simp)
  rw [if_neg hpos] at hadd
  dsimp only at hadd
  by_cases haligned : isAligned lo
  · rw [if_neg (not_not.2 haligned)] at hadd
    split_ifs at hadd with hinside
    · exact absurd hadd (by simp)
    · generalize hfind : ranges.find? (·.Hits lo (lo + size.toNat - 1)) = found at hadd
      rcases found with - | p
      · have hclear := List.find?_eq_none.1 hfind
        refine ⟨⟨by omega, haligned, by omega, by omega, by simpa using hclear⟩, ?_⟩
        exact (Except.ok.inj (Option.some.inj hadd)).symm
      · exact absurd hadd (by simp)
  · rw [if_pos haligned] at hadd
    exact absurd hadd (by simp)

variable {pkg : Package abi σ} {tracenum opnum : ℕ} {numIds : BitVec 32} {op : TraceOp}
  {check : World σ → Option Bool} {d d' : Driver abi σ} {p : ℕ}

/-- The driver after a block has passed. -/
def Driver.accepted (d : Driver abi σ) (op : TraceOp) (p : ℕ) : Driver abi σ where
  world := d.world.memset p op.index op.size
  ranges := ⟨p, p + op.size.toNat - 1⟩ :: d.ranges
  blocks := ⟨Function.update d.blocks.ptr op.index.toNat (some p),
    Function.update d.blocks.size op.index.toNat (some (op.size.signExtend _))⟩

theorem accept_eq_ok : accept tracenum opnum numIds op check d p = .ok d' ↔
    Fits d.world.heap d.ranges p op.size ∧ check d.world = some true ∧
      InBounds numIds op.index ∧ d.accepted op p = d' := by
  constructor
  · intro haccept
    rw [accept] at haccept
    generalize hadd : addRange d.world.heap d.ranges p op.size = added at haccept
    rcases added with - | msg | ranges
    · exact absurd haccept (by simp)
    · exact absurd haccept (by simp)
    · obtain ⟨hfits, rfl⟩ := fits_of_addRange hadd
      dsimp only at haccept
      generalize check d.world = checked at haccept
      rcases checked with - | - | -
      · exact absurd haccept (by simp)
      · exact absurd haccept (by simp)
      · dsimp only at haccept
        rw [Blocks.set] at haccept
        split_ifs at haccept with hbounds
        exact ⟨hfits, rfl, hbounds, Except.ok.inj haccept⟩
  · rintro ⟨hfits, hcheck, hbounds, rfl⟩
    rw [accept, addRange_of_fits hfits]
    dsimp only
    rw [hcheck]
    dsimp only
    rw [Blocks.set, if_pos hbounds]
    rfl

/-- A block whose contents are wrong. -/
theorem accept_of_not_preserved (hfits : Fits d.world.heap d.ranges p op.size)
    (hcheck : check d.world = some false) : accept tracenum opnum numIds op check d p =
      .error (.invalid (mallocError tracenum opnum .notPreserved) d.world
        (⟨p, p + op.size.toNat - 1⟩ :: d.ranges)) := by
  rw [accept, addRange_of_fits hfits]
  dsimp only
  rw [hcheck]

/-- What a request does when it passes. -/
inductive Passes (pkg : Package abi σ) (numIds : BitVec 32) (op : TraceOp) (d : Driver abi σ) :
    Driver abi σ → Prop
  | alloc {p : ℕ} {w : World σ} : op.type = .alloc → InBounds numIds op.index →
    pkg.malloc d.world (op.size.signExtend _) = some (some p, w) →
    Fits w.heap d.ranges p op.size → Passes pkg numIds op d ({ d with world := w }.accepted op p)
  | realloc {oldp newp : ℕ} {n : SizeT abi} {w : World σ} : op.type = .realloc →
    InBounds numIds op.index → d.blocks.ptr op.index.toNat = some oldp →
    d.blocks.size op.index.toNat = some n →
    pkg.realloc d.world oldp (op.size.signExtend _) = some (some newp, w) →
    Fits w.heap (removeRange d.ranges oldp) newp op.size → preserved newp op n w = true →
    Passes pkg numIds op d
      ({ d with world := w, ranges := removeRange d.ranges oldp }.accepted op newp)
  | free {p : ℕ} {w : World σ} : op.type = .free → InBounds numIds op.index →
    d.blocks.ptr op.index.toNat = some p → pkg.free d.world p = some w →
    Passes pkg numIds op d { d with world := w, ranges := removeRange d.ranges p }

/-- **One turn of the loop.** -/
theorem validStep_eq_ok :
    validStep pkg tracenum opnum numIds op d = .ok d' ↔ Passes pkg numIds op d d' := by
  constructor
  · intro hstep
    rw [validStep] at hstep
    generalize htype : op.type = type at hstep
    cases type with
    | alloc =>
      dsimp only at hstep
      generalize hmalloc : pkg.malloc d.world (op.size.signExtend _) = r at hstep
      rcases r with - | ⟨- | p, w⟩
      · exact absurd hstep (by simp)
      · exact absurd hstep (by simp)
      · obtain ⟨hfits, -, hbounds, rfl⟩ := accept_eq_ok.1 hstep
        exact .alloc htype hbounds hmalloc hfits
    | realloc =>
      dsimp only at hstep
      rw [Blocks.getPtr] at hstep
      by_cases hbounds : InBounds numIds op.index
      · rw [if_pos hbounds] at hstep
        generalize hptr : d.blocks.ptr op.index.toNat = oldp at hstep
        rcases oldp with - | oldp
        · exact absurd hstep (by simp)
        dsimp only at hstep
        generalize hrealloc : pkg.realloc d.world oldp (op.size.signExtend _) = r at hstep
        rcases r with - | ⟨- | newp, w⟩
        · exact absurd hstep (by simp)
        · exact absurd hstep (by simp)
        · obtain ⟨hfits, hcheck, -, rfl⟩ := accept_eq_ok.1 hstep
          dsimp only at hcheck
          rw [Blocks.getSize, if_pos hbounds, Option.map_eq_some_iff] at hcheck
          obtain ⟨n, hsize, hpreserved⟩ := hcheck
          exact .realloc htype hbounds hptr hsize hrealloc hfits hpreserved
      · rw [if_neg hbounds] at hstep
        exact absurd hstep (by simp)
    | free =>
      dsimp only at hstep
      rw [Blocks.getPtr] at hstep
      by_cases hbounds : InBounds numIds op.index
      · rw [if_pos hbounds] at hstep
        generalize hptr : d.blocks.ptr op.index.toNat = p at hstep
        rcases p with - | p
        · exact absurd hstep (by simp)
        dsimp only at hstep
        generalize hfree : pkg.free d.world p = r at hstep
        rcases r with - | w
        · exact absurd hstep (by simp)
        · obtain rfl := Except.ok.inj hstep
          exact .free htype hbounds hptr hfree
      · rw [if_neg hbounds] at hstep
        exact absurd hstep (by simp)
  · intro hpasses
    rw [validStep]
    cases hpasses with
    | alloc htype hbounds hmalloc hfits =>
      rw [htype]
      dsimp only
      rw [hmalloc]
      exact accept_eq_ok.2 ⟨hfits, rfl, hbounds, rfl⟩
    | realloc htype hbounds hptr hsize hrealloc hfits hpreserved =>
      rw [htype]
      dsimp only
      rw [Blocks.getPtr, if_pos hbounds, hptr]
      dsimp only
      rw [hrealloc]
      refine accept_eq_ok.2 ⟨hfits, ?_, hbounds, rfl⟩
      dsimp only
      rw [Blocks.getSize, if_pos hbounds, hsize, Option.map_some, hpreserved]
    | free htype hbounds hptr hfree =>
      rw [htype]
      dsimp only
      rw [Blocks.getPtr, if_pos hbounds, hptr]
      dsimp only
      rw [hfree]

theorem Passes.unique {d₁ d₂ : Driver abi σ} (h₁ : Passes pkg numIds op d d₁)
    (h₂ : Passes pkg numIds op d d₂) : d₁ = d₂ := by
  have hok₁ : validStep pkg 0 0 numIds op d = .ok d₁ := validStep_eq_ok.2 h₁
  have hok₂ : validStep pkg 0 0 numIds op d = .ok d₂ := validStep_eq_ok.2 h₂
  exact Except.ok.inj (hok₁.symm.trans hok₂)

theorem validLoop_cons {ops : List TraceOp} :
    validLoop pkg tracenum numIds opnum (op :: ops) d = .ok d' ↔
      ∃ d₁, Passes pkg numIds op d d₁ ∧
        validLoop pkg tracenum numIds (opnum + 1) ops d₁ = .ok d' := by
  rw [validLoop]
  rcases hstep : validStep pkg tracenum opnum numIds op d with stop | d₁
  · refine iff_of_false (by simp) ?_
    intro ⟨d₁, hpasses, _⟩
    have hok := hstep.symm.trans (validStep_eq_ok.2 hpasses)
    exact absurd hok (by simp)
  · dsimp only
    refine ⟨fun hrest ↦ ⟨d₁, validStep_eq_ok.1 hstep, hrest⟩, ?_⟩
    intro ⟨d₂, hpasses, hrest⟩
    obtain rfl := Except.ok.inj (hstep.symm.trans (validStep_eq_ok.2 hpasses))
    exact hrest

/-- A check that passes has passed for all its beginnings. -/
theorem validLoop_append {ops ops' : List TraceOp} :
    validLoop pkg tracenum numIds opnum (ops ++ ops') d = .ok d' ↔
      ∃ d₁, validLoop pkg tracenum numIds opnum ops d = .ok d₁ ∧
        validLoop pkg tracenum numIds (opnum + ops.length) ops' d₁ = .ok d' := by
  induction ops generalizing opnum d with
  | nil => simp [validLoop]
  | cons op ops ih =>
    rw [List.cons_append, validLoop_cons]
    simp only [ih, validLoop_cons, List.length_cons]
    rw [show opnum + (ops.length + 1) = opnum + 1 + ops.length by omega]
    constructor
    · rintro ⟨d₁, hpasses, d₂, hops, hrest⟩
      exact ⟨d₂, ⟨d₁, hpasses, hops⟩, hrest⟩
    · rintro ⟨d₂, ⟨d₁, hpasses, hops⟩, hrest⟩
      exact ⟨d₁, hpasses, d₂, hops, hrest⟩

end CsappCode.MallocLab.Mdriver
