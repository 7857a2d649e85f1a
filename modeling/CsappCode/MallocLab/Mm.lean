import CsappCode.Library.ByteMemory
import Mathlib.Data.BitVec

/-!
# The malloc package `mm.c` and the memory system `memlib.c`

Addresses are unbounded; the integers of the code have their widths. `size_t` has four bytes where
the Makefile compiles for (`-m32`) and eight on the usual 64-bit machines, and both are covered.

* `memInit`, `memSbrk`, `memResetBrk`, `memHeapLo` and `memHeapHi` are the memory system.
* `mmMalloc`, `mmFree` and `mmRealloc` are the package.
* `align_toNat` says what `ALIGN` computes, and `newsize_of_nonneg` what a size comes to.

## How the code is modelled

**The size.** `mm_malloc` rounds the size in `size_t` and passes it to `mem_sbrk` as an `int`, so
that sizes close to `2 ^ 31` arrive as negative increments and are refused. `newsize_of_nonneg` is
about the others.

**A block** is the size word, stored at the old break, and the payload behind it. The size word
takes eight bytes of the block, of which it uses as many as a `size_t` has.

**`mm_realloc`** always allocates anew and copies. The number of bytes it copies is read from the
size word of the old block and cut to the new size. The copy has no value if the areas overlap; that
they do not is a theorem.

**Memory** is that of `ByteMemory`. Whether the address of the heap is a multiple of eight is up to
`malloc`, and a hypothesis where it matters.
-/

namespace CsappCode.MallocLab

open ByteMemory

/-! ### `memlib.c` -/

/-- The simulated heap: the three private variables, and the contents of memory. -/
structure Heap where
  memStartBrk : ℕ
  memBrk : ℕ
  memMaxAddr : ℕ
  mem : Memory

/-- `MAX_HEAP`. -/
def maxHeap : ℕ := 20 * 2 ^ 20

/-- `mem_init()`, when `malloc` returns `base`. -/
def memInit (base : ℕ) (mem : Memory) : Heap := ⟨base, base, base + maxHeap, mem⟩

/-- `mem_reset_brk()`. -/
def memResetBrk (h : Heap) : Heap := { h with memBrk := h.memStartBrk }

/-- `mem_sbrk(incr)`: the old break, or none for the return of `-1`, and the heap after. -/
def memSbrk (h : Heap) (incr : BitVec 32) : Option ℕ × Heap :=
  if incr.toInt < 0 ∨ (h.memMaxAddr : ℤ) < h.memBrk + incr.toInt then (none, h)
  else (some h.memBrk, { h with memBrk := (h.memBrk + incr.toInt).toNat })

/-- `mem_heap_lo()`. -/
def memHeapLo (h : Heap) : ℤ := h.memStartBrk

/-- `mem_heap_hi()`, the last byte of the heap. -/
def memHeapHi (h : Heap) : ℤ := h.memBrk - 1

/-! ### `mm.c` -/

/-- What the machine decides: the size of a `size_t`. -/
inductive Abi where
  | ilp32
  | lp64
  deriving DecidableEq

/-- `sizeof(size_t)`. -/
def Abi.sizeofSizeT : Abi → ℕ
  | ilp32 => 4
  | lp64 => 8

/-- A `size_t`. -/
abbrev SizeT (abi : Abi) := BitVec (8 * abi.sizeofSizeT)

/-- `ALIGN(size)`: the constant `~0x7` is an `int`, extended with its sign. -/
def align {abi : Abi} (size : SizeT abi) : SizeT abi :=
  (size + 7) &&& (~~~(7 : BitVec 32)).signExtend _

/-- `SIZE_T_SIZE`. -/
def sizeTSize (abi : Abi) : SizeT abi := align (BitVec.ofNat _ abi.sizeofSizeT)

/-- The `int newsize` of `mm_malloc`. -/
def newsize {abi : Abi} (size : SizeT abi) : BitVec 32 := (align (size + sizeTSize abi)).setWidth 32

/-- `mm_malloc(size)`: the pointer, or none for `NULL`, and the heap after. -/
def mmMalloc {abi : Abi} (h : Heap) (size : SizeT abi) : Option ℕ × Heap :=
  match memSbrk h (newsize size) with
  | (none, h) => (none, h)
  | (some p, h) =>
    (some (p + (sizeTSize abi).toNat),
      { h with mem := storeWord abi.sizeofSizeT h.mem p size.toNat })

/-- `mm_free(ptr)`. -/
def mmFree (h : Heap) (_ptr : ℕ) : Heap := h

/-- `mm_realloc(ptr, size)`. There is no value when the copy is undefined. -/
def mmRealloc {abi : Abi} (h : Heap) (ptr : ℕ) (size : SizeT abi) : Option (Option ℕ × Heap) :=
  match mmMalloc h size with
  | (none, h) => some (none, h)
  | (some newptr, h) =>
    let stored := loadWord abi.sizeofSizeT h.mem (ptr - (sizeTSize abi).toNat)
    let copySize := if size.toNat < stored then size.toNat else stored
    (memcpy h.mem newptr ptr copySize).map fun mem ↦
      (some newptr, mmFree { h with mem := mem } ptr)

/-! ### Rounding -/

theorem sizeTSize_toNat (abi : Abi) : (sizeTSize abi).toNat = 8 := by
  cases abi <;> rfl

/-- Clearing the low three bits. -/
theorem toNat_and_not_seven {w : ℕ} (x : BitVec w) :
    (x &&& (~~~(7 : BitVec 32)).signExtend w).toNat = 8 * (x.toNat / 8) := by
  have hshift : x &&& (~~~(7 : BitVec 32)).signExtend w = (x >>> 3) <<< 3 := by
    refine BitVec.eq_of_getLsbD_eq fun i hi ↦ ?_
    have hseven : ((~~~(7 : BitVec 32)).signExtend w).getLsbD i = decide (3 ≤ i) := by
      have hlow : ∀ k < 32, (~~~(7 : BitVec 32)).getLsbD k = decide (3 ≤ k) := by decide
      rw [BitVec.getLsbD_signExtend, decide_eq_true hi, Bool.true_and]
      split_ifs with h32
      · exact hlow i h32
      · rw [decide_eq_true (show 3 ≤ i by omega)]
        rfl
    rw [BitVec.getLsbD_and, hseven, BitVec.getLsbD_shiftLeft, BitVec.getLsbD_ushiftRight]
    by_cases h3 : 3 ≤ i
    · simp [h3, hi, Nat.not_lt.2 h3]
    · simp [h3, Nat.lt_of_not_le h3]
  have hlt : 8 * (x.toNat / 8) < 2 ^ w := lt_of_le_of_lt (Nat.mul_div_le _ _) x.isLt
  rw [hshift, BitVec.toNat_shiftLeft, BitVec.toNat_ushiftRight, Nat.shiftRight_eq_div_pow,
    Nat.shiftLeft_eq, Nat.mul_comm]
  exact Nat.mod_eq_of_lt hlt

/-- **What `ALIGN` computes**, when the size is not close to the largest `size_t`. -/
theorem align_toNat {abi : Abi} {size : SizeT abi} (h : size.toNat + 7 < 2 ^ 32) :
    (align size).toNat = 8 * ((size.toNat + 7) / 8) := by
  have hw : 32 ≤ 8 * abi.sizeofSizeT := by cases abi <;> decide
  have hpow : 2 ^ 32 ≤ 2 ^ (8 * abi.sizeofSizeT) := Nat.pow_le_pow_right (by decide) hw
  have hseven : (7 : SizeT abi).toNat = 7 := by cases abi <;> rfl
  rw [align, toNat_and_not_seven, BitVec.toNat_add, hseven, Nat.mod_eq_of_lt (by omega)]

/-- **What `mm_malloc` asks `mem_sbrk` for.** If it is not negative, it is a multiple of the
alignment with room for the size word and the payload. -/
theorem newsize_of_nonneg {abi : Abi} {size : SizeT abi} (hsize : size.toNat < 2 ^ 31)
    (h : 0 ≤ (newsize size).toInt) :
    ∃ k : ℕ, (newsize size).toInt = (8 * k : ℕ) ∧ size.toNat + 8 ≤ 8 * k := by
  have hw : 32 ≤ 8 * abi.sizeofSizeT := by cases abi <;> decide
  have hpow : 2 ^ 32 ≤ 2 ^ (8 * abi.sizeofSizeT) := Nat.pow_le_pow_right (by decide) hw
  have hsum : (size + sizeTSize abi).toNat = size.toNat + 8 := by
    rw [BitVec.toNat_add, sizeTSize_toNat, Nat.mod_eq_of_lt (by omega)]
  have hnew : (newsize size).toNat = 8 * ((size.toNat + 8 + 7) / 8) := by
    rw [newsize, BitVec.toNat_setWidth, align_toNat (by omega), hsum, Nat.mod_eq_of_lt (by omega)]
  refine ⟨(size.toNat + 8 + 7) / 8, ?_, by omega⟩
  rw [← hnew]
  have hcond := BitVec.toInt_eq_toNat_cond (newsize size)
  split_ifs at hcond with hlt
  · exact hcond
  · have := (newsize size).isLt
    omega

end CsappCode.MallocLab
