import CsappCode.MallocLab.Requests
import CsappCode.MallocLab.Safety

/-!
# Which traces `mm.c` passes

`mm_malloc` takes a fresh piece of the heap for every block, so the check of a trace goes through
exactly while the heap has room, up to what the driver itself rejects: sizes that are not positive,
and the reallocation of a block whose index has its eighth bit set. There the bytes of the block are
negative as `char`, and never equal to `index & 0xFF`.

* `Room` is the room for a payload. `mmMalloc_of_room` and `mmRealloc_of_room` say what the calls do
  with it.
* `Placed` is what a run keeps of the heap, and `Filled` what it keeps of the contents.
* `eval_mm_valid_realloc_index` rejects indices for all packages.
* `eval_mm_valid_iff` is the exact condition for `mm.c`.

## What the results rest on

**The exact condition is for definite traces.** A trace that frees or reallocates an index that has
not been allocated makes the driver read an entry of `blocks` that nothing has been written to. What
it finds there is whatever `malloc` has left, and the check may well go on: `mm_free` does nothing.
Nothing is said of such traces, nor of those with an index outside the arrays (`Definite`).

**The memory system** may be in any state that `mem_init` has left with the break moved since. The
run begins with `mem_reset_brk`, and what the heap holds does not matter.

**The contents.** A block that is allocated is filled by the driver with the low byte of its index,
and nothing else writes into it while it is in use. A reallocated block is compared as far as its
noted size goes, which is at least a byte.
-/

namespace CsappCode.MallocLab.Mdriver

open ByteMemory

/-! ### Room in the heap -/

variable {abi : Abi} {h : Heap} {blocks : List Block} {size : SizeT abi}

/-- What `mm_malloc` takes from the heap for a payload: the size word, and rounding. -/
def rounded (n : ℕ) : ℕ := 8 * ((n + 15) / 8)

/-- The heap has room for a payload. -/
def Room (h : Heap) (n : ℕ) : Prop := rounded n < 2 ^ 31 ∧ h.memBrk + rounded n ≤ h.memMaxAddr

theorem newsize_rounded (hsize : SizeOk size) : (newsize size).toNat = rounded size.toNat := by
  have hle := hsize.le
  have hw : 32 ≤ 8 * abi.sizeofSizeT := by cases abi <;> decide
  have hpow : 2 ^ 32 ≤ 2 ^ (8 * abi.sizeofSizeT) := Nat.pow_le_pow_right (by decide) hw
  have hsum : (size + sizeTSize abi).toNat = size.toNat + 8 := by
    rw [BitVec.toNat_add, sizeTSize_toNat, Nat.mod_eq_of_lt (by omega)]
  rw [newsize, BitVec.toNat_setWidth, align_toNat (by omega), hsum, Nat.mod_eq_of_lt (by omega)]
  rfl

/-- **When `mm_malloc` succeeds.** -/
theorem mmMalloc_of_room (hsize : SizeOk size) (hroom : Room h size.toNat) :
    mmMalloc h size =
      (some (h.memBrk + 8), h.extend abi ((size.toNat + 15) / 8) size.toNat) := by
  obtain ⟨hlt, hle⟩ := hroom
  have hnew := newsize_rounded hsize
  have hint : (newsize size).toInt = rounded size.toNat := by
    rw [BitVec.toInt_eq_toNat_of_lt (by omega), hnew]
  rw [mmMalloc, memSbrk, if_neg (by rw [hint]; omega)]
  dsimp only
  rw [sizeTSize_toNat, hint]
  rfl

theorem mmMalloc_of_no_room (hsize : SizeOk size) (hroom : ¬ Room h size.toNat) :
    mmMalloc h size = (none, h) := by
  have hnew := newsize_rounded hsize
  have hcond := BitVec.toInt_eq_toNat_cond (newsize size)
  have hlt := (newsize size).isLt
  rw [mmMalloc, memSbrk, if_pos]
  rw [Room] at hroom
  split_ifs at hcond <;> omega

/-- A block that `mm_realloc` has moved. -/
theorem mmRealloc_of_room (hl : Layout abi h blocks) {b : Block} (hb : b ∈ blocks)
    (hsize : SizeOk size) (hroom : Room h size.toNat) : ∃ mem,
      mmRealloc h b.ptr size = some (some (h.memBrk + 8),
        { h.extend abi ((size.toNat + 15) / 8) size.toNat with mem := mem }) ∧
      (∀ i < min b.size size.toNat, mem (h.memBrk + 8 + i) = h.mem (b.ptr + i)) ∧
      ∀ x, ¬ Within (h.memBrk + 8) size.toNat x →
        mem x = (h.extend abi ((size.toNat + 15) / 8) size.toNat).mem x := by
  have hmalloc := mmMalloc_of_room hsize hroom
  rcases mmRealloc_cases hl hb hsize with hnone | ⟨k, mem, -, hsome, hcopied, hkept⟩
  · rw [mmRealloc, hmalloc] at hnone
    obtain ⟨mem, -, heq⟩ := Option.map_eq_some_iff.1 hnone
    exact absurd heq (by simp)
  · refine ⟨mem, ?_, hcopied, hkept⟩
    -- the break says how much was taken
    have hbrk := hsome
    rw [mmRealloc, hmalloc] at hbrk
    obtain ⟨mem', -, heq⟩ := Option.map_eq_some_iff.1 hbrk
    have hk : h.memBrk + 8 * ((size.toNat + 15) / 8) = h.memBrk + 8 * k :=
      congrArg Heap.memBrk (Prod.mk.inj heq).2
    rw [hsome, show k = (size.toNat + 15) / 8 by omega]

theorem mmRealloc_of_no_room (p : ℕ) (hsize : SizeOk size) (hroom : ¬ Room h size.toNat) :
    mmRealloc h p size = some (none, h) := by
  rw [mmRealloc, mmMalloc_of_no_room hsize hroom]

/-! ### Runs of `mm.c` -/

/-- The memory system as `mem_init` sets it up, wherever the break is. -/
structure Initialized (h : Heap) : Prop where
  aligned : 8 ∣ h.memStartBrk
  limit : h.memMaxAddr = h.memStartBrk + maxHeap

/-- The heap of a run that has taken `used` bytes: a row of blocks, among them those of the indices
in `written`. -/
structure Placed (abi : Abi) (h : Heap) (ptr : ℕ → Option ℕ) (used : ℕ) (written : List ℕ)
    (blocks : List Block) : Prop where
  initialized : Initialized h
  layout : Layout abi h blocks
  brk : h.memBrk = h.memStartBrk + used
  noted : ∀ i ∈ written, ∃ b ∈ blocks, ptr i = some b.ptr

variable {ptr : ℕ → Option ℕ} {used n i : ℕ} {written : List ℕ}

/-- The heap with another block, whose payload may have been written to. -/
def withBlock (abi : Abi) (h : Heap) (n : ℕ) (mem : Memory) : Heap :=
  { h.extend abi ((n + 15) / 8) n with mem := mem }

/-- The bytes outside the payload are those that `mm_malloc` leaves. -/
def Spares (abi : Abi) (h : Heap) (n : ℕ) (mem : Memory) : Prop :=
  ∀ x, ¬ Within (h.memBrk + 8) n x → mem x = (h.extend abi ((n + 15) / 8) n).mem x

theorem Placed.room_iff (hp : Placed abi h ptr used written blocks) :
    Room h n ↔ used + rounded n ≤ maxHeap := by
  have hbrk := hp.brk
  have hlimit := hp.initialized.limit
  rw [Room, maxHeap] at *
  omega

/-- **A new block.** -/
theorem Placed.add (hp : Placed abi h ptr used written blocks) (hsize : SizeOk size) {mem : Memory}
    (hmem : Spares abi h size.toNat mem) (i : ℕ) :
    Placed abi (withBlock abi h size.toNat mem) (Function.update ptr i (some (h.memBrk + 8)))
      (used + rounded size.toNat) (i :: written) (blocks ++ [⟨h.memBrk + 8, size.toNat⟩]) where
  initialized := ⟨hp.initialized.aligned, hp.initialized.limit⟩
  layout := by
    have hlayout := hp.layout.malloc hsize (show size.toNat + 8 ≤ 8 * ((size.toNat + 15) / 8) by
      omega)
    refine hlayout.congr_mem fun c hc x hx ↦ hmem x fun hx' ↦ ?_
    exact (hlayout.apart_word (List.mem_append_right _ List.mem_cons_self) hc).not_within hx' hx
  brk := by
    show h.memBrk + 8 * ((size.toNat + 15) / 8) = h.memStartBrk + (used + rounded size.toNat)
    rw [hp.brk, rounded, Nat.add_assoc]
  noted := by
    intro j hj
    by_cases heq : j = i
    · subst heq
      exact ⟨⟨h.memBrk + 8, size.toNat⟩, List.mem_append_right _ List.mem_cons_self,
        Function.update_self ..⟩
    · obtain ⟨b, hb, hptr⟩ := hp.noted j (List.mem_of_ne_of_mem heq hj)
      exact ⟨b, List.mem_append_left _ hb, (Function.update_of_ne heq ..).trans hptr⟩

/-- Fewer indices may be noted. -/
theorem Placed.mono {written' : List ℕ} (hp : Placed abi h ptr used written blocks)
    (hsub : written' ⊆ written) : Placed abi h ptr used written' blocks :=
  ⟨hp.initialized, hp.layout, hp.brk, fun i hi ↦ hp.noted i (hsub hi)⟩

/-- The bytes of the other payloads stay. -/
theorem spares_payload (hl : Layout abi h blocks) {mem : Memory} (hmem : Spares abi h n mem)
    {b : Block} (hb : b ∈ blocks) {x : ℕ} (hx : Within b.ptr b.size x) : mem x = h.mem x := by
  have hhi := hl.hi b hb
  have hlt := hx.2
  rw [hmem x fun hx' ↦ by have := hx'.1; omega]
  exact storeWord_of_outside fun hx' ↦ by have := hx'.1; omega

/-! ### The sizes and the indices of a trace -/

theorem toInt_signExtend (abi : Abi) (size : BitVec 32) :
    (size.signExtend (8 * abi.sizeofSizeT)).toInt = size.toInt :=
  BitVec.toInt_signExtend_of_le (by cases abi <;> decide)

/-- A positive `int` as a `size_t`. -/
theorem toNat_signExtend (abi : Abi) {size : BitVec 32} (hpos : 0 < size.toInt) :
    (size.signExtend (8 * abi.sizeofSizeT)).toNat = size.toNat := by
  have hint := toInt_signExtend abi size
  obtain ⟨hcast, -⟩ := toNat_of_toInt_pos hpos
  have hcond := BitVec.toInt_eq_toNat_cond (size.signExtend (8 * abi.sizeofSizeT))
  have hlt := (size.signExtend (8 * abi.sizeofSizeT)).isLt
  split_ifs at hcond <;> omega

theorem sizeOk_signExtend (abi : Abi) {size : BitVec 32} (hpos : 0 < size.toInt) :
    SizeOk (size.signExtend (8 * abi.sizeofSizeT)) := by
  obtain ⟨hcast, hlt⟩ := toNat_of_toInt_pos hpos
  constructor <;> rw [toNat_signExtend abi hpos] <;> omega

/-- A noted size as an `int`. -/
theorem toInt_setWidth {n : SizeT abi} (hn : SizeOk n) : (n.setWidth 32).toInt = n.toNat := by
  have hle := hn.le
  have hw : (n.setWidth 32).toNat = n.toNat := by
    rw [BitVec.toNat_setWidth, Nat.mod_eq_of_lt (by omega)]
  rw [BitVec.toInt_eq_toNat_of_lt (by omega), hw]

theorem toNat_and_255 (index : BitVec 32) : (index &&& 0xFF).toNat = index.toNat % 256 := by
  rw [BitVec.toNat_and, show (0xFF : BitVec 32).toNat = 2 ^ 8 - 1 from rfl,
    Nat.and_two_pow_sub_one_eq_mod]

theorem indexByte_toNat (index : BitVec 32) : (indexByte index).toNat = index.toNat % 256 := by
  show ((index &&& 0xFF).setWidth 8).toNat = _
  rw [BitVec.toNat_setWidth, toNat_and_255]
  omega

/-- **The comparison in the driver.** A `char` equals the low byte of the index as an `int` when it
is that byte and its top bit is clear. -/
theorem charToInt_eq {b : UInt8} {index : BitVec 32} :
    charToInt b = index &&& 0xFF ↔ b.toNat = index.toNat % 256 ∧ index.toNat % 256 < 128 := by
  have hchar : (charToInt b).toInt =
      if 2 * b.toNat < 256 then (b.toNat : ℤ) else b.toNat - 256 := by
    rw [charToInt, BitVec.toInt_signExtend_of_le (by decide), BitVec.toInt_eq_toNat_cond]
    rfl
  have hindex : (index &&& 0xFF).toInt = index.toNat % 256 := by
    rw [BitVec.toInt_eq_toNat_of_lt (by rw [toNat_and_255]; omega), toNat_and_255]
    rfl
  have hlt := b.toNat_lt
  rw [← BitVec.toInt_inj, hchar, hindex]
  split_ifs <;> omega

/-- The comparison of all bytes that an old block of `n` bytes has in common with the new one. -/
theorem preserved_iff {σ : Type*} {newp : ℕ} {op : TraceOp} {n : SizeT abi} {w : World σ}
    (hpos : 0 < op.size.toInt) (hn : SizeOk n) : preserved newp op n w = true ↔
      ∀ j < min n.toNat op.size.toNat, (w.heap.mem (newp + j)).toNat = op.index.toNat % 256 ∧
        op.index.toNat % 256 < 128 := by
  obtain ⟨hcast, hlt⟩ := toNat_of_toInt_pos hpos
  have hint := toInt_setWidth hn
  have hmin : (if op.size.toInt < (n.setWidth 32).toInt then op.size
      else n.setWidth 32).toInt.toNat = min n.toNat op.size.toNat := by
    split_ifs <;> omega
  rw [preserved, hmin]
  simp only [List.all_eq_true, List.mem_range, decide_eq_true_eq, charToInt_eq]

/-! ### The calls of the package -/

/-- A call of `mm_malloc` with room for the block. -/
theorem Placed.malloc {w : World Unit} (hp : Placed abi w.heap ptr used written blocks)
    {size : BitVec 32} (hpos : 0 < size.toInt) (hroom : used + rounded size.toNat ≤ maxHeap) :
    ∃ mem, (mmPackage abi).malloc w (size.signExtend _) = some (some (w.heap.memBrk + 8),
        ⟨withBlock abi w.heap size.toNat mem, ()⟩) ∧ Spares abi w.heap size.toNat mem := by
  have hnat := toNat_signExtend abi hpos
  have hmalloc := mmMalloc_of_room (h := w.heap) (sizeOk_signExtend abi hpos)
    (hnat.symm ▸ hp.room_iff.2 hroom)
  rw [hnat] at hmalloc
  refine ⟨_, ?_, fun _ _ ↦ rfl⟩
  show some ((mmMalloc w.heap _).1, (⟨(mmMalloc w.heap _).2, ()⟩ : World Unit)) = _
  rw [hmalloc]
  rfl

/-- A call of `mm_realloc` with room for the block. -/
theorem Placed.realloc {w : World Unit} (hp : Placed abi w.heap ptr used written blocks)
    {size : BitVec 32} (hpos : 0 < size.toInt) (hroom : used + rounded size.toNat ≤ maxHeap)
    {b : Block} (hb : b ∈ blocks) :
    ∃ mem, (mmPackage abi).realloc w b.ptr (size.signExtend _) = some (some (w.heap.memBrk + 8),
        ⟨withBlock abi w.heap size.toNat mem, ()⟩) ∧ Spares abi w.heap size.toNat mem ∧
      ∀ i < min b.size size.toNat, mem (w.heap.memBrk + 8 + i) = w.heap.mem (b.ptr + i) := by
  have hnat := toNat_signExtend abi hpos
  obtain ⟨mem, hrealloc, hcopied, hkept⟩ := mmRealloc_of_room hp.layout hb
    (sizeOk_signExtend abi hpos) (hnat.symm ▸ hp.room_iff.2 hroom)
  rw [hnat] at hrealloc hcopied hkept
  refine ⟨mem, ?_, hkept, hcopied⟩
  show (mmRealloc w.heap b.ptr _).map _ = _
  rw [hrealloc]
  rfl

/-- The calls without room. -/
theorem Placed.malloc_failed {w : World Unit} (hp : Placed abi w.heap ptr used written blocks)
    {size : BitVec 32} (hpos : 0 < size.toInt) (hroom : ¬ used + rounded size.toNat ≤ maxHeap) :
    (mmPackage abi).malloc w (size.signExtend _) = some (none, w) := by
  rw [← hp.room_iff, ← toNat_signExtend abi hpos] at hroom
  show some ((mmMalloc w.heap _).1, (⟨(mmMalloc w.heap _).2, ()⟩ : World Unit)) = _
  rw [mmMalloc_of_no_room (sizeOk_signExtend abi hpos) hroom]

theorem Placed.realloc_failed {w : World Unit} (hp : Placed abi w.heap ptr used written blocks)
    {size : BitVec 32} (hpos : 0 < size.toInt) (hroom : ¬ used + rounded size.toNat ≤ maxHeap)
    (p : ℕ) : (mmPackage abi).realloc w p (size.signExtend _) = some (none, w) := by
  rw [← hp.room_iff, ← toNat_signExtend abi hpos] at hroom
  show (mmRealloc w.heap p _).map _ = _
  rw [mmRealloc_of_no_room p (sizeOk_signExtend abi hpos) hroom]
  rfl

/-! ### Indices that no package passes -/

/-- All sizes that have been noted are those of payloads. -/
def Sized {σ : Type*} (d : Driver abi σ) : Prop := ∀ i n, d.blocks.size i = some n → SizeOk n

theorem Sized.accepted {σ : Type*} {d : Driver abi σ} (hd : Sized d) {op : TraceOp}
    (hpos : 0 < op.size.toInt) (p : ℕ) : Sized (d.accepted op p) := by
  intro i n hn
  change Function.update d.blocks.size op.index.toNat (some (op.size.signExtend _)) i = some n at hn
  by_cases heq : i = op.index.toNat
  · rw [heq, Function.update_self] at hn
    exact Option.some.inj hn ▸ sizeOk_signExtend abi hpos
  · rw [Function.update_of_ne heq] at hn
    exact hd i n hn

theorem Sized.step {σ : Type*} {pkg : Package abi σ} {numIds : BitVec 32} {op : TraceOp}
    {d d' : Driver abi σ} (hd : Sized d) (hpasses : Passes pkg numIds op d d') : Sized d' ∧
      (op.type = .realloc → op.index.toNat % 256 < 128) := by
  cases hpasses with
  | alloc htype _ _ hfits =>
    exact ⟨Sized.accepted (d := { d with world := _ }) hd hfits.pos _, by simp [htype]⟩
  | @realloc oldp newp n w htype _ _ hsize _ hfits hpreserved =>
    refine ⟨Sized.accepted (d := { d with world := _, ranges := _ }) hd hfits.pos _, fun _ ↦ ?_⟩
    have hn := hd _ _ hsize
    have hone := hn.one_le
    obtain ⟨hcast, -⟩ := toNat_of_toInt_pos hfits.pos
    have hpos := hfits.pos
    exact ((preserved_iff hfits.pos hn).1 hpreserved 0 (by omega)).2
  | free htype _ _ _ => exact ⟨hd, by simp [htype]⟩

theorem Sized.run {σ : Type*} {pkg : Package abi σ} {tracenum : ℕ} {numIds : BitVec 32}
    {d' : Driver abi σ} (ops : List TraceOp) : ∀ {opnum : ℕ} {d : Driver abi σ}, Sized d →
      validLoop pkg tracenum numIds opnum ops d = .ok d' →
      ∀ op ∈ ops, op.type = .realloc → op.index.toNat % 256 < 128 := by
  induction ops with
  | nil => simp
  | cons op ops ih =>
    intro opnum d hd hloop
    obtain ⟨d₁, hpasses, hrest⟩ := validLoop_cons.1 hloop
    obtain ⟨hd₁, hop⟩ := hd.step hpasses
    exact List.forall_mem_cons.2 ⟨hop, ih hd₁ hrest⟩

/-- **No package passes a trace that reallocates an index with its eighth bit set**, whatever it
does with the contents. -/
theorem eval_mm_valid_realloc_index {σ : Type*} {pkg : Package abi σ} {trace : Trace}
    {tracenum : ℕ} {w : World σ} {ranges : List Range} {d' : Driver abi σ}
    (hvalid : evalMmValid pkg trace tracenum ⟨w, ranges, .fresh⟩ = .ok d') :
    ∀ op ∈ trace.ops, op.type = .realloc → op.index.toNat % 256 < 128 := by
  rw [evalMmValid] at hvalid
  generalize pkg.init { w with heap := memResetBrk w.heap } = r at hvalid
  rcases r with ⟨- | -, w'⟩
  · exact absurd hvalid (by simp)
  · have hfresh : Sized ⟨w', clearRanges ranges, (.fresh : Blocks abi)⟩ := by
      intro i n hn
      exact absurd hn (by simp [Blocks.fresh])
    exact hfresh.run trace.ops hvalid

/-- A block is allocated and grows. -/
def regrown (index : BitVec 32) : Trace :=
  ⟨4096, index + 1, 2, 1, [⟨.alloc, index, 5⟩, ⟨.realloc, index, 9⟩]⟩

theorem eval_mm_valid_realloc_index_regrown : (127 : BitVec 32).toNat % 256 < 128 := by
  obtain ⟨d', hvalid⟩ : ∃ d', evalMmValid (mmPackage .ilp32) (regrown 127) 0
      ⟨⟨memInit 4096 fun _ ↦ 0, ()⟩, [], .fresh⟩ = .ok d' := ⟨_, rfl⟩
  have hop : ⟨.realloc, 127, 9⟩ ∈ (regrown 127).ops := by simp [regrown]
  exact eval_mm_valid_realloc_index hvalid ⟨.realloc, 127, 9⟩ hop rfl

/-- The next index is rejected, although `mm.c` copies the contents. -/
example : ∃ w ranges, evalMmValid (mmPackage .ilp32) (regrown 128) 0
    ⟨⟨memInit 4096 fun _ ↦ 0, ()⟩, [], .fresh⟩ =
      .error (.invalid ⟨0, 6, .notPreserved⟩ w ranges) := ⟨_, _, rfl⟩

/-! ### The contents -/

/-- The state of the check after requests that have taken `used` bytes: the blocks of the indices in
`written` hold the low bytes of their indices. -/
structure Filled (d : Driver abi Unit) (used : ℕ) (written : List ℕ) (blocks : List Block) :
    Prop where
  placed : Placed abi d.world.heap d.blocks.ptr used written blocks
  fresh : ∀ i ∉ written, d.blocks.ptr i = none
  filled : ∀ i ∈ written, ∃ b ∈ blocks, ∃ n : SizeT abi, d.blocks.ptr i = some b.ptr ∧
    d.blocks.size i = some n ∧ SizeOk n ∧ n.toNat = b.size ∧
      ∀ x, Within b.ptr b.size x → (d.world.heap.mem x).toNat = i % 256
  below : ∀ r ∈ d.ranges, r.hi < d.world.heap.memBrk

variable {d d' : Driver abi Unit} {op : TraceOp}

/-- The new block passes `add_range`. -/
theorem Filled.fits (hf : Filled d used written blocks) (hpos : 0 < op.size.toInt)
    {mem : Memory} {ranges : List Range} (hranges : ranges ⊆ d.ranges) :
    Fits (withBlock abi d.world.heap op.size.toNat mem) ranges (d.world.heap.memBrk + 8)
      op.size where
  pos := hpos
  aligned := by
    have hdvd := hf.placed.layout.brk_aligned
    rw [isAligned, alignment]
    omega
  heapLo_le := by
    have hle := hf.placed.layout.start_le
    show (d.world.heap.memStartBrk : ℤ) ≤ (d.world.heap.memBrk + 8 : ℕ)
    omega
  le_heapHi := by
    obtain ⟨hcast, -⟩ := toNat_of_toInt_pos hpos
    show ((d.world.heap.memBrk + 8 + op.size.toNat - 1 : ℕ) : ℤ) ≤
      (d.world.heap.memBrk + 8 * ((op.size.toNat + 15) / 8) : ℕ) - 1
    omega
  clear := by
    intro r hr
    have hbelow := hf.below r (hranges hr)
    rw [Range.Hits]
    omega

/-- **A new block that the driver has filled.** -/
theorem Filled.accepted (hf : Filled d used written blocks) (hpos : 0 < op.size.toInt)
    {mem : Memory} (hmem : Spares abi d.world.heap op.size.toNat mem) {ranges : List Range}
    (hranges : ranges ⊆ d.ranges) :
    Filled ((⟨⟨withBlock abi d.world.heap op.size.toNat mem, ()⟩, ranges, d.blocks⟩ :
        Driver abi Unit).accepted op (d.world.heap.memBrk + 8))
      (used + rounded op.size.toNat) (op.index.toNat :: written)
      (blocks ++ [⟨d.world.heap.memBrk + 8, op.size.toNat⟩]) := by
  have hsize := sizeOk_signExtend abi hpos
  have hnat := toNat_signExtend abi hpos
  -- the driver writes to the payload only
  have hspares : Spares abi d.world.heap op.size.toNat (ByteMemory.memset mem
      (d.world.heap.memBrk + 8) (indexByte op.index) op.size.toNat) :=
    fun x hx ↦ (memset_of_outside hx).trans (hmem x hx)
  constructor
  case placed =>
    have hadd := hf.placed.add hsize (hnat.symm ▸ hspares) op.index.toNat
    rw [hnat] at hadd
    exact hadd
  case fresh =>
    intro i hi
    have hne : i ≠ op.index.toNat := fun heq ↦ hi (heq ▸ List.mem_cons_self)
    exact (Function.update_of_ne hne ..).trans
      (hf.fresh i fun hmem ↦ hi (List.mem_cons_of_mem _ hmem))
  case filled =>
    intro i hi
    by_cases heq : i = op.index.toNat
    · subst heq
      refine ⟨_, List.mem_append_right _ List.mem_cons_self, op.size.signExtend _,
        Function.update_self .., Function.update_self .., hsize, hnat, fun x hx ↦ ?_⟩
      exact (congrArg UInt8.toNat (memset_of_within hx)).trans (indexByte_toNat op.index)
    · obtain ⟨b, hb, n, hptr, hn, hok, hbn, hbytes⟩ := hf.filled i (List.mem_of_ne_of_mem heq hi)
      refine ⟨b, List.mem_append_left _ hb, n, (Function.update_of_ne heq ..).trans hptr,
        (Function.update_of_ne heq ..).trans hn, hok, hbn, fun x hx ↦ ?_⟩
      rw [← hbytes x hx]
      exact congrArg UInt8.toNat (spares_payload hf.placed.layout hspares hb hx)
  case below =>
    obtain ⟨hcast, -⟩ := toNat_of_toInt_pos hpos
    refine List.forall_mem_cons.2 ⟨?_, fun r hr ↦ ?_⟩
    · show d.world.heap.memBrk + 8 + op.size.toNat - 1 <
        d.world.heap.memBrk + 8 * ((op.size.toNat + 15) / 8)
      omega
    · exact Nat.lt_of_lt_of_le (hf.below r (hranges hr)) (Nat.le_add_right _ _)

/-! ### What is served -/

/-- What a request takes from the heap. -/
def cost (op : TraceOp) : ℕ := if op.type = .free then 0 else rounded op.size.toNat

/-- The condition on one request, when `used` bytes are taken and the indices in `written` have been
allocated. -/
structure Served (numIds : BitVec 32) (used : ℕ) (written : List ℕ) (op : TraceOp) : Prop where
  bounds : InBounds numIds op.index
  size : op.type ≠ .free → 0 < op.size.toInt
  room : op.type ≠ .free → used + cost op ≤ maxHeap
  byte : op.type = .realloc → op.index.toNat % 256 < 128
  order : op.type = .alloc ∨ op.index.toNat ∈ written

/-- The indices in `written` matter as a set. -/
theorem Filled.congr {written' : List ℕ} (hf : Filled d used written blocks)
    (hmem : ∀ i, i ∈ written' ↔ i ∈ written) : Filled d used written' blocks where
  placed := hf.placed.mono fun i hi ↦ (hmem i).1 hi
  fresh i hi := hf.fresh i fun h ↦ hi ((hmem i).2 h)
  filled i hi := hf.filled i ((hmem i).1 hi)
  below := hf.below

/-- **A request that is served** passes, and the next state is as described. -/
theorem Filled.serve (hf : Filled d used written blocks) {numIds : BitVec 32}
    (hserved : Served numIds used written op) : ∃ d' blocks',
      Passes (mmPackage abi) numIds op d d' ∧
        Filled d' (used + cost op) (op.index.toNat :: written) blocks' := by
  obtain ⟨hbounds, hsize, hroom, hbyte, horder⟩ := hserved
  cases htype : op.type with
  | alloc =>
    have hpos := hsize (by simp [htype])
    have hcost : cost op = rounded op.size.toNat := by simp [cost, htype]
    have hroom := hcost ▸ hroom (by simp [htype])
    obtain ⟨mem, hmalloc, hmem⟩ := hf.placed.malloc hpos hroom
    exact ⟨_, _, .alloc htype hbounds hmalloc (hf.fits hpos (List.Subset.refl _)),
      hcost ▸ hf.accepted hpos hmem (List.Subset.refl _)⟩
  | realloc =>
    have hpos := hsize (by simp [htype])
    have hcost : cost op = rounded op.size.toNat := by simp [cost, htype]
    have hroom := hcost ▸ hroom (by simp [htype])
    have hi := horder.resolve_left (by simp [htype])
    obtain ⟨b, hb, n, hptr, hn, hnok, hbn, hbytes⟩ := hf.filled _ hi
    obtain ⟨mem, hrealloc, hmem, hcopied⟩ := hf.placed.realloc hpos hroom hb
    refine ⟨_, _, .realloc htype hbounds hptr hn hrealloc (hf.fits hpos List.eraseP_subset) ?_,
      hcost ▸ hf.accepted hpos hmem List.eraseP_subset⟩
    refine (preserved_iff hpos hnok).2 fun j hj ↦ ⟨?_, hbyte htype⟩
    rw [hbn] at hj
    rw [← hbytes (b.ptr + j) ⟨Nat.le_add_right _ _, by omega⟩]
    exact congrArg UInt8.toNat (hcopied j hj)
  | free =>
    have hi := horder.resolve_left (by simp [htype])
    obtain ⟨b, hb, n, hptr, -⟩ := hf.filled _ hi
    have hcost : cost op = 0 := by simp [cost, htype]
    refine ⟨_, blocks, .free htype hbounds hptr rfl, ?_⟩
    rw [hcost]
    have hremoved : Filled { d with ranges := removeRange d.ranges b.ptr } used written blocks :=
      ⟨hf.placed, hf.fresh, hf.filled, fun r hr ↦ hf.below r (List.eraseP_subset hr)⟩
    refine hremoved.congr fun i ↦ ?_
    exact ⟨fun h ↦ (List.mem_cons.1 h).elim (· ▸ hi) id, List.mem_cons_of_mem _⟩

/-- **Nothing else passes.** -/
theorem Filled.served_of_passes (hf : Filled d used written blocks) {numIds : BitVec 32}
    (hpasses : Passes (mmPackage abi) numIds op d d') : Served numIds used written op := by
  have hwritten : ∀ {p}, d.blocks.ptr op.index.toNat = some p → op.index.toNat ∈ written := by
    intro p hptr
    by_contra hi
    exact absurd (hf.fresh _ hi) (by simp [hptr])
  cases hpasses with
  | @alloc p w htype hbounds hmalloc hfits =>
    refine ⟨hbounds, fun _ ↦ hfits.pos, fun _ ↦ ?_, by simp [htype], .inl htype⟩
    rw [show cost op = rounded op.size.toNat by simp [cost, htype]]
    by_contra hroom
    have hnone := hmalloc.symm.trans (hf.placed.malloc_failed hfits.pos hroom)
    exact absurd hnone (by simp)
  | @realloc oldp newp n w htype hbounds hptr hn hrealloc hfits hpreserved =>
    refine ⟨hbounds, fun _ ↦ hfits.pos, fun _ ↦ ?_, fun _ ↦ ?_, .inr (hwritten hptr)⟩
    · rw [show cost op = rounded op.size.toNat by simp [cost, htype]]
      by_contra hroom
      have hnone := hrealloc.symm.trans (hf.placed.realloc_failed hfits.pos hroom oldp)
      exact absurd hnone (by simp)
    · obtain ⟨b, -, n', -, hn', hok, -⟩ := hf.filled _ (hwritten hptr)
      obtain rfl := Option.some.inj (hn.symm.trans hn')
      obtain ⟨hcast, -⟩ := toNat_of_toInt_pos hfits.pos
      have hone := hok.one_le
      have hpos := hfits.pos
      exact ((preserved_iff hfits.pos hok).1 hpreserved 0 (by omega)).2
  | free htype hbounds hptr _ =>
    exact ⟨hbounds, by simp [htype], by simp [htype], by simp [htype], .inr (hwritten hptr)⟩

/-! ### The exact condition -/

/-- What the requests take together. -/
def demand (ops : List TraceOp) : ℕ := (ops.map cost).sum

/-- Only indices that have been allocated are freed or reallocated. They need not be in use. -/
def AllocatedFirst : List ℕ → List TraceOp → Prop
  | _, [] => True
  | written, op :: ops => (op.type = .alloc ∨ op.index.toNat ∈ written) ∧
      AllocatedFirst (op.index.toNat :: written) ops

/-- The condition on the requests of a trace, from a state as in `Served`. -/
structure Passable (numIds : BitVec 32) (used : ℕ) (written : List ℕ) (ops : List TraceOp) :
    Prop where
  bounds : ∀ op ∈ ops, InBounds numIds op.index
  size : ∀ op ∈ ops, op.type ≠ .free → 0 < op.size.toInt
  room : used + demand ops ≤ maxHeap
  byte : ∀ op ∈ ops, op.type = .realloc → op.index.toNat % 256 < 128
  order : AllocatedFirst written ops

theorem passable_cons {numIds : BitVec 32} {ops : List TraceOp} :
    Passable numIds used written (op :: ops) ↔ Served numIds used written op ∧
      Passable numIds (used + cost op) (op.index.toNat :: written) ops := by
  have hdemand : demand (op :: ops) = cost op + demand ops := rfl
  constructor
  · rintro ⟨hbounds, hsize, hroom, hbyte, horder⟩
    rw [hdemand] at hroom
    obtain ⟨hbounds, hbounds'⟩ := List.forall_mem_cons.1 hbounds
    obtain ⟨hsize, hsize'⟩ := List.forall_mem_cons.1 hsize
    obtain ⟨hbyte, hbyte'⟩ := List.forall_mem_cons.1 hbyte
    exact ⟨⟨hbounds, hsize, fun _ ↦ by omega, hbyte, horder.1⟩,
      ⟨hbounds', hsize', by omega, hbyte', horder.2⟩⟩
  · rintro ⟨hserved, hbounds, hsize, hroom, hbyte, horder⟩
    exact ⟨List.forall_mem_cons.2 ⟨hserved.bounds, hbounds⟩,
      List.forall_mem_cons.2 ⟨hserved.size, hsize⟩, by omega,
      List.forall_mem_cons.2 ⟨hserved.byte, hbyte⟩, hserved.order, horder⟩

/-- Requests that pass one after the other, from a state as in `Filled`. -/
theorem Filled.run (tracenum : ℕ) {numIds : BitVec 32} (ops : List TraceOp) :
    ∀ (opnum : ℕ) {d : Driver abi Unit} {used : ℕ} {written : List ℕ} {blocks : List Block},
      Filled d used written blocks → used ≤ maxHeap →
      ((∃ d', validLoop (mmPackage abi) tracenum numIds opnum ops d = .ok d') ↔
        Passable numIds used written ops) := by
  induction ops with
  | nil =>
    intro opnum d used written blocks _ hused
    refine iff_of_true ⟨d, rfl⟩ ⟨by simp, by simp, ?_, by simp, trivial⟩
    exact hused
  | cons op ops ih =>
    intro opnum d used written blocks hf hused
    rw [passable_cons]
    have hcost : ∀ {numIds}, Served numIds used written op → used + cost op ≤ maxHeap := by
      intro numIds hserved
      by_cases htype : op.type = .free
      · rw [cost, if_pos htype]
        exact hused
      · exact hserved.room htype
    constructor
    · rintro ⟨d', hloop⟩
      obtain ⟨d₁, hpasses, hrest⟩ := validLoop_cons.1 hloop
      have hserved := hf.served_of_passes hpasses
      obtain ⟨d₂, blocks', hpasses', hf'⟩ := hf.serve hserved
      obtain rfl := hpasses.unique hpasses'
      exact ⟨hserved, (ih _ hf' (hcost hserved)).1 ⟨d', hrest⟩⟩
    · rintro ⟨hserved, hpassable⟩
      obtain ⟨d₁, blocks', hpasses, hf'⟩ := hf.serve hserved
      obtain ⟨d', hrest⟩ := (ih (opnum + 1) hf' (hcost hserved)).2 hpassable
      exact ⟨d', validLoop_cons.2 ⟨d₁, hpasses, hrest⟩⟩

/-- The heap after `mem_reset_brk`. -/
theorem placed_reset {h : Heap} (hh : Initialized h) (ptr : ℕ → Option ℕ) :
    Placed abi (memResetBrk h) ptr 0 [] [] where
  initialized := ⟨hh.aligned, hh.limit⟩
  layout :=
    { start_le := le_rfl
      brk_aligned := hh.aligned
      aligned := by simp
      lo := by simp
      hi := by simp
      ordered := .nil
      word := by simp }
  brk := rfl
  noted := by simp

theorem filled_reset (abi : Abi) {w : World Unit} (hw : Initialized w.heap) :
    Filled (⟨⟨memResetBrk w.heap, ()⟩, [], .fresh⟩ : Driver abi Unit) 0 [] [] where
  placed := placed_reset hw _
  fresh _ _ := rfl
  filled := by simp
  below := by simp

/-- **A definite trace**: its indices lie in the arrays, and it frees and reallocates only indices
that have been allocated before. So it reads only entries of the arrays that have been written. -/
structure Definite (trace : Trace) : Prop where
  bounds : ∀ op ∈ trace.ops, InBounds trace.numIds op.index
  order : AllocatedFirst [] trace.ops

/-- The sizes asked for are positive. -/
def SizesPos (trace : Trace) : Prop := ∀ op ∈ trace.ops, op.type ≠ .free → 0 < op.size.toInt

/-- The blocks with their size words fit in the heap together, although freed ones are given back,
and the indices that are reallocated have their eighth bit clear. -/
def Suits (trace : Trace) : Prop := demand trace.ops ≤ maxHeap ∧
  ∀ op ∈ trace.ops, op.type = .realloc → op.index.toNat % 256 < 128

instance (trace : Trace) : Decidable (Suits trace) := inferInstanceAs (Decidable (_ ∧ _))

theorem Definite.passable_iff {trace : Trace} (h : Definite trace) :
    Passable trace.numIds 0 [] trace.ops ↔ SizesPos trace ∧ Suits trace := by
  constructor
  · intro hpassable
    have hroom := hpassable.room
    exact ⟨hpassable.size, by omega, hpassable.byte⟩
  · intro ⟨hsize, hroom, hbyte⟩
    exact ⟨h.bounds, hsize, by omega, hbyte, h.order⟩

/-- **The definite traces that `mm.c` passes**, from any state of the memory system: the sizes are
positive, the blocks fit in the heap together, and the indices that are reallocated have their
eighth bit clear. -/
theorem eval_mm_valid_iff (abi : Abi) {trace : Trace} (htrace : Definite trace) (tracenum : ℕ)
    {w : World Unit} (hw : Initialized w.heap) (ranges : List Range) :
    (∃ d', evalMmValid (mmPackage abi) trace tracenum ⟨w, ranges, .fresh⟩ = .ok d') ↔
      SizesPos trace ∧ Suits trace :=
  ((filled_reset abi hw).run tracenum trace.ops 0 (Nat.zero_le _)).trans htrace.passable_iff

theorem definite_regrown : Definite (regrown 127) :=
  ⟨by decide, .inl rfl, .inr (by decide), trivial⟩

theorem eval_mm_valid_iff_regrown :
    (∃ d', evalMmValid (mmPackage .lp64) (regrown 127) 0
      ⟨⟨memInit 4096 fun _ ↦ 0, ()⟩, [], .fresh⟩ = .ok d') ↔
      SizesPos (regrown 127) ∧ Suits (regrown 127) :=
  eval_mm_valid_iff .lp64 definite_regrown 0 ⟨by decide, rfl⟩ []

end CsappCode.MallocLab.Mdriver
