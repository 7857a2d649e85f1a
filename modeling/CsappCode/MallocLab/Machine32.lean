import CsappCode.MallocLab.Mm
import Mathlib

/-!
# `mm_malloc` on the 32-bit machine

The Makefile compiles with `-m32`. There a pointer has 32 bits like a `size_t`, and the sum of the
break and the increment that `mem_sbrk` compares with the limit wraps. So does the size that
`mm_malloc` rounds up. `NULL` is the pointer 0, and the failure of `mem_sbrk` the pointer -1.

* `newsize_toNat` says what is asked of `mem_sbrk`, for every size.
* `mmMalloc_unbounded` says that where nothing wraps this is the `mm_malloc` of unbounded addresses.
* `Served` is a request with a block for it, and `Answered` says that it is served, or that `NULL`
  is returned and the break stays.
* `mm_malloc_bounded_iff` says which requests are answered so.
* `hugeRequest_not_answered` is one that is not.

## What is assumed

**The heap** is valid: the break lies between its beginning and the limit, and the limit is a
pointer. Nothing else is asked of its place. It may end close to the last address, which is where
the sum can wrap.

**Pointer arithmetic** beyond the array is undefined in C; here it wraps, as it does on the machine.
The comparison of the two pointers is unsigned.

**The two models** of `mm_malloc`, this one and that of unbounded addresses, are translated from the
same source. The theorem between them carries the results on the allocator's safety over to the
sizes for which nothing wraps.
-/

namespace CsappCode.MallocLab.Machine32

open ByteMemory

/-! ### The functions -/

/-- The simulated heap. -/
structure Heap where
  memStartBrk : BitVec 32
  memBrk : BitVec 32
  memMaxAddr : BitVec 32
  mem : Memory

/-- A `size_t`. -/
abbrev Size := SizeT .ilp32

/-- `mem_sbrk(incr)`. -/
def memSbrk (h : Heap) (incr : BitVec 32) : BitVec 32 × Heap :=
  if incr.toInt < 0 ∨ h.memMaxAddr < h.memBrk + incr then (-1, h)
  else (h.memBrk, { h with memBrk := h.memBrk + incr })

/-- `mm_malloc(size)`. -/
def mmMalloc (h : Heap) (size : Size) : BitVec 32 × Heap :=
  let (p, h) := memSbrk h (newsize size)
  if p = -1 then (0, h)
  else (p + (sizeTSize .ilp32).setWidth 32, { h with mem := storeWord 4 h.mem p.toNat size.toNat })

/-- The break is in the heap, which ends before the last address. -/
structure Heap.Valid (h : Heap) : Prop where
  start : h.memStartBrk.toNat ≤ h.memBrk.toNat
  brk : h.memBrk.toNat ≤ h.memMaxAddr.toNat
  limit : h.memMaxAddr.toNat = h.memStartBrk.toNat + maxHeap

/-! ### What is asked of `mem_sbrk` -/

/-- **The rounded size**, for every size: the sum of the size, the size word and the rounding wraps
before the last bits are cleared. -/
theorem newsize_toNat (size : Size) :
    (newsize size).toNat = 8 * ((size.toNat + 15) % 2 ^ 32 / 8) := by
  have hlt := size.isLt
  have hseven : (7 : Size).toNat = 7 := rfl
  have hword : (sizeTSize .ilp32).toNat = 8 := sizeTSize_toNat _
  have hpow : 2 ^ (8 * Abi.ilp32.sizeofSizeT) = 2 ^ 32 := rfl
  rw [newsize, BitVec.toNat_setWidth, align, toNat_and_not_seven, BitVec.toNat_add,
    BitVec.toNat_add, hseven, hword, hpow]
  omega

/-- What `mm_malloc` asks `mem_sbrk` for, as the `int` that arrives there. -/
theorem newsize_toInt_neg_iff (size : Size) :
    (newsize size).toInt < 0 ↔ 2 ^ 31 ≤ (newsize size).toNat := by
  have hlt := (newsize size).isLt
  have hcond := BitVec.toInt_eq_toNat_cond (newsize size)
  split_ifs at hcond <;> omega

/-! ### The three ways a call can go -/

variable {h : Heap} {size : Size}

/-- The request is refused. -/
theorem mmMalloc_of_refused (hrefused : 2 ^ 31 ≤ (newsize size).toNat ∨
    h.memMaxAddr.toNat < (h.memBrk + newsize size).toNat) : mmMalloc h size = (0, h) := by
  rw [mmMalloc, memSbrk, if_pos (hrefused.imp (newsize_toInt_neg_iff size).2 BitVec.lt_def.2)]
  rfl

/-- Otherwise it is granted. -/
theorem not_refused (hnonneg : (newsize size).toNat < 2 ^ 31)
    (hroom : (h.memBrk + newsize size).toNat ≤ h.memMaxAddr.toNat) :
    ¬ ((newsize size).toInt < 0 ∨ h.memMaxAddr < h.memBrk + newsize size) := by
  rw [newsize_toInt_neg_iff, BitVec.lt_def]
  omega

/-- The break is moved, and the call returns what lies behind the size word. -/
theorem mmMalloc_of_moved (hnonneg : (newsize size).toNat < 2 ^ 31)
    (hroom : (h.memBrk + newsize size).toNat ≤ h.memMaxAddr.toNat) (hbrk : h.memBrk ≠ -1) :
    mmMalloc h size = (h.memBrk + 8, { h with
      memBrk := h.memBrk + newsize size
      mem := storeWord 4 h.mem h.memBrk.toNat size.toNat }) := by
  rw [mmMalloc, memSbrk, if_neg (not_refused hnonneg hroom)]
  exact if_neg hbrk

/-- The break was at the last address, which is taken for the failure of `mem_sbrk`. -/
theorem mmMalloc_of_last (hnonneg : (newsize size).toNat < 2 ^ 31)
    (hroom : (h.memBrk + newsize size).toNat ≤ h.memMaxAddr.toNat) (hbrk : h.memBrk = -1) :
    mmMalloc h size = (0, { h with memBrk := h.memBrk + newsize size }) := by
  rw [mmMalloc, memSbrk, if_neg (not_refused hnonneg hroom)]
  exact if_pos hbrk

/-! ### Where nothing wraps -/

/-- The heap at its addresses. -/
def Heap.unbounded (h : Heap) : MallocLab.Heap :=
  ⟨h.memStartBrk.toNat, h.memBrk.toNat, h.memMaxAddr.toNat, h.mem⟩

/-- A pointer at its address, or none for `NULL`. -/
def address (p : BitVec 32) : Option ℕ := if p = 0 then none else some p.toNat

/-- Neither the rounded size wraps nor the sum that is compared with the limit. -/
def NoWrap (h : Heap) (size : Size) : Prop :=
  size.toNat + 15 < 2 ^ 32 ∧
    (2 ^ 31 ≤ 8 * ((size.toNat + 15) / 8) ∨ h.memBrk.toNat + 8 * ((size.toNat + 15) / 8) < 2 ^ 32)

/-- **Where nothing wraps** the 32-bit `mm_malloc` is that of unbounded addresses. -/
theorem mmMalloc_unbounded (hwrap : NoWrap h size) :
    MallocLab.mmMalloc h.unbounded size =
      (address (mmMalloc h size).1, (mmMalloc h size).2.unbounded) := by
  obtain ⟨hsize, hbrk⟩ := hwrap
  have hnew : (newsize size).toNat = 8 * ((size.toNat + 15) / 8) := by
    rw [newsize_toNat, Nat.mod_eq_of_lt hsize]
  rw [← hnew] at hbrk
  have hword : (sizeTSize .ilp32).toNat = 8 := sizeTSize_toNat _
  by_cases hneg : 2 ^ 31 ≤ (newsize size).toNat
  · rw [mmMalloc_of_refused (.inl hneg), MallocLab.mmMalloc, MallocLab.memSbrk,
      if_pos (.inl ((newsize_toInt_neg_iff size).2 hneg))]
    rfl
  have hsum : (h.memBrk + newsize size).toNat = h.memBrk.toNat + (newsize size).toNat := by
    rw [BitVec.toNat_add, Nat.mod_eq_of_lt (hbrk.resolve_left hneg)]
  have hint : (newsize size).toInt = (newsize size).toNat := by
    rw [BitVec.toInt_eq_toNat_of_lt (by omega)]
  by_cases hfull : h.memMaxAddr.toNat < (h.memBrk + newsize size).toNat
  · rw [mmMalloc_of_refused (.inr hfull), MallocLab.mmMalloc, MallocLab.memSbrk, if_pos]
    · rfl
    · rw [hint]
      exact .inr (show (h.memMaxAddr.toNat : ℤ) < h.memBrk.toNat + (newsize size).toNat by omega)
  · have hnotlast : h.memBrk ≠ -1 := fun heq ↦ by
      have hval : h.memBrk.toNat = 2 ^ 32 - 1 := by rw [heq]; rfl
      omega
    have height : (h.memBrk + 8).toNat = h.memBrk.toNat + 8 := by
      rw [BitVec.toNat_add, Nat.mod_eq_of_lt]
      · rfl
      · change h.memBrk.toNat + 8 < 2 ^ 32
        omega
    have hnull : h.memBrk + 8 ≠ 0 := fun heq ↦ by
      rw [heq] at height
      exact absurd height (by simp)
    rw [mmMalloc_of_moved (by omega) (by omega) hnotlast, MallocLab.mmMalloc, MallocLab.memSbrk,
      if_neg, address, if_neg hnull, height]
    · simp only [Heap.unbounded, hint, hsum, hword]
      rfl
    · rw [hint]
      change ¬ (_ ∨ (h.memMaxAddr.toNat : ℤ) < h.memBrk.toNat + (newsize size).toNat)
      omega

/-! ### Which requests are answered -/

/-- **A request served.** The bytes of the size word and of the block lie between the old break and
the new one, and the new one is within the limit. -/
structure Served (h h' : Heap) (p : BitVec 32) (size : Size) : Prop where
  word : Set.Ico (p.toNat - 8 : ℤ) (p.toNat - 8 + 4) ⊆ Set.Ico h.memBrk.toNat h'.memBrk.toNat
  block : Set.Ico (p.toNat : ℤ) (p.toNat + size.toNat) ⊆ Set.Ico h.memBrk.toNat h'.memBrk.toNat
  limit : h'.memBrk.toNat ≤ h'.memMaxAddr.toNat

/-- The call returns `NULL` and leaves the break, or it serves the request. -/
def Answered (h : Heap) (size : Size) : Prop :=
  ((mmMalloc h size).1 = 0 ∧ (mmMalloc h size).2.memBrk = h.memBrk) ∨
    Served h (mmMalloc h size).2 (mmMalloc h size).1 size

/-- There is no room between breaks that do not grow. -/
theorem not_served_of_le {h' : Heap} {p : BitVec 32} (hle : h'.memBrk.toNat ≤ h.memBrk.toNat) :
    ¬ Served h h' p size := by
  intro hs
  have hmem := hs.word (Set.mem_Ico.2 ⟨le_rfl, by omega⟩)
  rw [Set.mem_Ico] at hmem
  omega

/-- There is none for a block that runs over the last address. -/
theorem not_served_of_large {h' : Heap} {p : BitVec 32} (hle : 2 ^ 32 ≤ p.toNat + size.toNat) :
    ¬ Served h h' p size := by
  intro hs
  have hlt := h'.memBrk.isLt
  have hlast : (p.toNat + size.toNat - 1 : ℤ) ∈ Set.Ico (p.toNat : ℤ) (p.toNat + size.toNat) :=
    Set.mem_Ico.2 ⟨by omega, by omega⟩
  have hmem := Set.mem_Ico.1 (hs.block hlast)
  omega

/-- When the request is granted the break is the sum, wrapped. -/
theorem memBrk_of_granted (hnonneg : (newsize size).toNat < 2 ^ 31)
    (hroom : (h.memBrk + newsize size).toNat ≤ h.memMaxAddr.toNat) :
    (mmMalloc h size).2.memBrk = h.memBrk + newsize size ∧
      ((mmMalloc h size).1 = 0 ∨ (mmMalloc h size).1 = h.memBrk + 8) := by
  by_cases hbrk : h.memBrk = -1
  · rw [mmMalloc_of_last hnonneg hroom hbrk]
    exact ⟨rfl, .inl rfl⟩
  · rw [mmMalloc_of_moved hnonneg hroom hbrk]
    exact ⟨rfl, .inr rfl⟩

/-- A size word at the break: the break is not the last address, and what lies behind the word does
not wrap. -/
theorem room_for_word (hroom : h.memBrk.toNat + 8 < 2 ^ 32) :
    h.memBrk ≠ -1 ∧ (h.memBrk + 8).toNat = h.memBrk.toNat + 8 := by
  refine ⟨fun heq ↦ ?_, ?_⟩
  · have hval : h.memBrk.toNat = 2 ^ 32 - 1 := by rw [heq]; rfl
    omega
  · rw [BitVec.toNat_add, show (8 : BitVec 32).toNat = 8 from rfl, Nat.mod_eq_of_lt hroom]

/-- Where nothing wraps the request is answered. -/
theorem answered_of_noWrap (hwrap : NoWrap h size) : Answered h size := by
  obtain ⟨hsize, hbrk⟩ := hwrap
  have hnew : (newsize size).toNat = 8 * ((size.toNat + 15) / 8) := by
    rw [newsize_toNat, Nat.mod_eq_of_lt hsize]
  by_cases hrefused : 2 ^ 31 ≤ (newsize size).toNat ∨
      h.memMaxAddr.toNat < (h.memBrk + newsize size).toNat
  · rw [Answered, mmMalloc_of_refused hrefused]
    exact .inl ⟨rfl, rfl⟩
  rw [not_or, not_le, not_lt] at hrefused
  obtain ⟨hnonneg, hroom⟩ := hrefused
  have hsum : (h.memBrk + newsize size).toNat = h.memBrk.toNat + (newsize size).toNat := by
    rw [BitVec.toNat_add, Nat.mod_eq_of_lt (by omega)]
  obtain ⟨hnotlast, height⟩ := room_for_word (h := h) (by omega)
  rw [Answered, mmMalloc_of_moved hnonneg hroom hnotlast]
  refine .inr ⟨?_, ?_, hroom⟩
  · refine Set.Ico_subset_Ico ?_ ?_ <;> simp only [hsum, height] <;> omega
  · refine Set.Ico_subset_Ico ?_ ?_ <;> simp only [hsum, height] <;> omega

/-- When the sum wraps, the break moves down. -/
theorem not_answered_of_wraps (hh : h.Valid) (hnonneg : (newsize size).toNat < 2 ^ 31)
    (hwrap : 2 ^ 32 ≤ h.memBrk.toNat + (newsize size).toNat) : ¬ Answered h size := by
  have hlt := h.memBrk.isLt
  have hsum : (h.memBrk + newsize size).toNat =
      h.memBrk.toNat + (newsize size).toNat - 2 ^ 32 := by
    rw [BitVec.toNat_add]
    omega
  have hbrk := hh.brk
  obtain ⟨hmoved, -⟩ := memBrk_of_granted (h := h) hnonneg (by omega)
  rintro (⟨-, hsame⟩ | hserved)
  · rw [hmoved] at hsame
    rw [hsame] at hsum
    omega
  · exact not_served_of_le (by rw [hmoved]; omega) hserved

/-- When 8 bytes are asked for and the size is close to the largest one, the request is answered
just if it is refused. -/
theorem answered_iff_of_eight (hh : h.Valid) (hsize : 2 ^ 32 - 7 ≤ size.toNat)
    (hnew : (newsize size).toNat = 8) : Answered h size ↔
      h.memMaxAddr.toNat < h.memBrk.toNat + 8 ∧ h.memBrk.toNat + 8 < 2 ^ 32 := by
  by_cases hwrap : 2 ^ 32 ≤ h.memBrk.toNat + 8
  · refine iff_of_false (not_answered_of_wraps hh (by omega) (by omega)) (by omega)
  have hsum : (h.memBrk + newsize size).toNat = h.memBrk.toNat + 8 := by
    rw [BitVec.toNat_add, hnew, Nat.mod_eq_of_lt (by omega)]
  by_cases hfull : h.memMaxAddr.toNat < h.memBrk.toNat + 8
  · refine iff_of_true ?_ ⟨hfull, by omega⟩
    rw [Answered, mmMalloc_of_refused (.inr (by rw [hsum]; exact hfull))]
    exact .inl ⟨rfl, rfl⟩
  · refine iff_of_false ?_ fun hboth ↦ hfull hboth.1
    obtain ⟨hnotlast, height⟩ := room_for_word (h := h) (by omega)
    rw [Answered, mmMalloc_of_moved (by omega) (by rw [hsum]; omega) hnotlast]
    rintro (⟨-, hsame⟩ | hserved)
    · change h.memBrk + newsize size = h.memBrk at hsame
      rw [hsame] at hsum
      omega
    · exact not_served_of_large (by simp only [height]; omega) hserved

/-- When nothing is asked for, the break stays, and the request is answered just if the pointer is
`NULL`. -/
theorem answered_iff_of_zero (hh : h.Valid) (hnew : (newsize size).toNat = 0) : Answered h size ↔
    h.memBrk.toNat = 2 ^ 32 - 8 ∨ h.memBrk.toNat = 2 ^ 32 - 1 := by
  have hlt := h.memBrk.isLt
  have hstays : h.memBrk + newsize size = h.memBrk := by
    rw [BitVec.eq_of_toNat_eq (y := 0) hnew]
    exact BitVec.add_zero _
  have hroom : (h.memBrk + newsize size).toNat ≤ h.memMaxAddr.toNat := by
    rw [hstays]
    exact hh.brk
  by_cases hbrk : h.memBrk = -1
  · refine iff_of_true ?_ (.inr (by rw [hbrk]; rfl))
    rw [Answered, mmMalloc_of_last (by omega) hroom hbrk, hstays]
    exact .inl ⟨rfl, rfl⟩
  have hnotlast : h.memBrk.toNat ≠ 2 ^ 32 - 1 := fun heq ↦ hbrk (BitVec.eq_of_toNat_eq heq)
  rw [or_iff_left hnotlast, Answered, mmMalloc_of_moved (by omega) hroom hbrk, hstays]
  constructor
  · rintro (⟨hnull, -⟩ | hserved)
    · have hnull' := congrArg BitVec.toNat hnull
      rw [BitVec.toNat_add, show (8 : BitVec 32).toNat = 8 from rfl,
        show (0 : BitVec 32).toNat = 0 from rfl] at hnull'
      omega
    · exact absurd hserved (not_served_of_le le_rfl)
  · intro heq
    refine .inl ⟨BitVec.eq_of_toNat_eq ?_, rfl⟩
    rw [BitVec.toNat_add, heq]
    rfl

/-- **Which requests are answered.** Either nothing wraps. Or the rounded size wraps to 8, and there
are not even 8 bytes left. Or it wraps to 0, and the break is where the pointer returned is `NULL`,
or is taken for a failure. -/
theorem mm_malloc_bounded_iff (hh : h.Valid) : Answered h size ↔
    NoWrap h size ∨
    (2 ^ 32 - 7 ≤ size.toNat ∧ h.memMaxAddr.toNat < h.memBrk.toNat + 8 ∧
      h.memBrk.toNat + 8 < 2 ^ 32) ∨
    (2 ^ 32 - 15 ≤ size.toNat ∧ size.toNat ≤ 2 ^ 32 - 8 ∧
      (h.memBrk.toNat = 2 ^ 32 - 8 ∨ h.memBrk.toNat = 2 ^ 32 - 1)) := by
  have hlt : size.toNat < 2 ^ 32 := size.isLt
  have hnew := newsize_toNat size
  by_cases hsize : size.toNat + 15 < 2 ^ 32
  · rw [Nat.mod_eq_of_lt hsize] at hnew
    rw [or_iff_left (by omega)]
    refine ⟨fun hanswered ↦ ⟨hsize, ?_⟩, answered_of_noWrap⟩
    rw [← hnew]
    by_contra hnot
    exact not_answered_of_wraps hh (by omega) (by omega) hanswered
  have hwraps : ¬ NoWrap h size := fun hwrap ↦ hsize hwrap.1
  rw [or_iff_right hwraps]
  by_cases height : 2 ^ 32 - 7 ≤ size.toNat
  · rw [answered_iff_of_eight hh height (by omega), or_iff_left (by omega), and_iff_right height]
  · refine (answered_iff_of_zero hh (by omega)).trans
      ⟨fun hbrk ↦ .inr ⟨by omega, by omega, hbrk⟩, ?_⟩
    rintro (⟨hlarge, -⟩ | ⟨-, -, hbrk⟩)
    · exact absurd hlarge height
    · exact hbrk

/-- A heap at the address `2 ^ 27`. -/
def freshHeap : Heap where
  memStartBrk := 0x8000000
  memBrk := 0x8000000
  memMaxAddr := 0x9400000
  mem := fun _ ↦ 0

theorem valid_freshHeap : freshHeap.Valid := ⟨by decide, by decide, by decide⟩

/-- A request for 100 bytes. -/
theorem mm_malloc_bounded_hundred : Answered freshHeap 100 ↔
    NoWrap freshHeap 100 ∨
    (2 ^ 32 - 7 ≤ (100 : Size).toNat ∧
      freshHeap.memMaxAddr.toNat < freshHeap.memBrk.toNat + 8 ∧
      freshHeap.memBrk.toNat + 8 < 2 ^ 32) ∨
    (2 ^ 32 - 15 ≤ (100 : Size).toNat ∧ (100 : Size).toNat ≤ 2 ^ 32 - 8 ∧
      (freshHeap.memBrk.toNat = 2 ^ 32 - 8 ∨ freshHeap.memBrk.toNat = 2 ^ 32 - 1)) :=
  mm_malloc_bounded_iff valid_freshHeap

/-- A request for all but eight of the bytes there are: the rounded size is 0, and the pointer
returned is to no byte of the heap. -/
theorem hugeRequest_not_answered :
    ¬ ∀ (h : Heap) (size : Size), h.Valid → Answered h size := by
  intro hall
  have hanswered := hall freshHeap 0xFFFFFFF8 valid_freshHeap
  rw [answered_iff_of_zero valid_freshHeap (by decide)] at hanswered
  exact absurd hanswered (by decide)

end CsappCode.MallocLab.Machine32
