import CsappCode.MallocLab.Mm
import Mathlib.Data.List.Pairwise
import Mathlib.Logic.Relation

/-!
# The safety of the malloc package

A client allocates, frees and reallocates in any order and writes to its payloads. The heap that
comes out of this is a row of blocks, each a size word, eight bytes reserved for it, and a payload
(`Layout`); freed blocks stay in it. `Layout.malloc` adds a block at the break, and
`Layout.congr_mem` says that only writes to size words could harm it.

* `mmMalloc_cases` and `mmRealloc_cases` say what the calls can do.
* `Reaches` are the runs, and `Invariant` what all of them keep, by `Invariant.step`.
* `allocator_safe` is read off it.

## What is assumed of the client

**Sizes** are from 1 to `2 ^ 31 - 1`. The package does not refuse a size of zero, and larger ones
can wrap.

**Writes** go to payloads of its own that are live. Nothing in the package guards a size word, so a
client that writes in front of its block can break the next `mm_realloc`.

**Pointers.** `mm_free` and `mm_realloc` are called with live pointers. That `mm_free` does nothing
is why a pointer that was freed does no harm in this package.

**The machine.** Addresses are unbounded, and the heap begins at a multiple of eight. Both widths of
`size_t` are covered.
-/

namespace CsappCode.MallocLab

open ByteMemory

/-! ### The client -/

/-- A pointer that was returned, and the size it was asked for with. -/
structure Block where
  ptr : ℕ
  size : ℕ
  deriving DecidableEq

/-- The heap, all blocks that have been returned, oldest first, and those among them that have been
neither freed nor reallocated. -/
structure State where
  heap : Heap
  blocks : List Block
  live : List Block

/-- The sizes a client asks for. -/
structure SizeOk {abi : Abi} (size : SizeT abi) : Prop where
  one_le : 1 ≤ size.toNat
  le : size.toNat ≤ 2 ^ 31 - 1

/-- After `mem_init`, in which `malloc` returns `base`, and `mem_reset_brk`. -/
def start (base : ℕ) (mem : Memory) : State := ⟨memResetBrk (memInit base mem), [], []⟩

/-- One call, or one write of the client to a payload of its own. -/
inductive Step (abi : Abi) : State → State → Prop
  | malloc {s : State} {size : SizeT abi} {p : ℕ} {h : Heap} : SizeOk size →
    mmMalloc s.heap size = (some p, h) →
    Step abi s ⟨h, s.blocks ++ [⟨p, size.toNat⟩], s.live ++ [⟨p, size.toNat⟩]⟩
  | mallocFailed {s : State} {size : SizeT abi} {h : Heap} : SizeOk size →
    mmMalloc s.heap size = (none, h) → Step abi s { s with heap := h }
  | free {s : State} {b : Block} : b ∈ s.live →
    Step abi s ⟨mmFree s.heap b.ptr, s.blocks, s.live.filter (· ≠ b)⟩
  | realloc {s : State} {b : Block} {size : SizeT abi} {p : ℕ} {h : Heap} : b ∈ s.live →
    SizeOk size → mmRealloc s.heap b.ptr size = some (some p, h) →
    Step abi s ⟨h, s.blocks ++ [⟨p, size.toNat⟩], s.live.filter (· ≠ b) ++ [⟨p, size.toNat⟩]⟩
  | reallocFailed {s : State} {b : Block} {size : SizeT abi} {h : Heap} : b ∈ s.live →
    SizeOk size → mmRealloc s.heap b.ptr size = some (none, h) → Step abi s { s with heap := h }
  | write {s : State} {b : Block} {a : ℕ} {v : UInt8} : b ∈ s.live → Within b.ptr b.size a →
    Step abi s { s with heap := { s.heap with mem := Function.update s.heap.mem a v } }

/-- The states that a client can reach. -/
def Reaches (abi : Abi) (base : ℕ) (mem : Memory) (s : State) : Prop :=
  Relation.ReflTransGen (Step abi) (start base mem) s

/-! ### The layout of the heap -/

/-- The heap is a row of blocks, each behind its size word. -/
structure Layout (abi : Abi) (h : Heap) (blocks : List Block) : Prop where
  start_le : h.memStartBrk ≤ h.memBrk
  brk_aligned : 8 ∣ h.memBrk
  aligned : ∀ b ∈ blocks, 8 ∣ b.ptr
  lo : ∀ b ∈ blocks, h.memStartBrk + 8 ≤ b.ptr
  hi : ∀ b ∈ blocks, b.ptr + b.size ≤ h.memBrk
  ordered : blocks.Pairwise fun b c ↦ b.ptr + b.size + 8 ≤ c.ptr
  word : ∀ b ∈ blocks, loadWord abi.sizeofSizeT h.mem (b.ptr - 8) = b.size

theorem sizeofSizeT_le (abi : Abi) : abi.sizeofSizeT ≤ 8 := by
  cases abi <;> decide

variable {abi : Abi} {h : Heap} {blocks : List Block} {size : SizeT abi}

/-- Payloads keep clear of the size words of all blocks. -/
theorem Layout.apart_word (hl : Layout abi h blocks) {b c : Block} (hb : b ∈ blocks)
    (hc : c ∈ blocks) : Apart b.ptr b.size (c.ptr - 8) abi.sizeofSizeT := by
  have hsz := sizeofSizeT_le abi
  have hlob := hl.lo b hb
  have hloc := hl.lo c hc
  by_cases heq : b = c
  · subst heq
    exact .inr (by omega)
  · have : Std.Symm fun b c : Block ↦
        b.ptr + b.size + 8 ≤ c.ptr ∨ c.ptr + c.size + 8 ≤ b.ptr := ⟨fun _ _ ↦ Or.symm⟩
    have hpairs : blocks.Pairwise fun b c ↦
        b.ptr + b.size + 8 ≤ c.ptr ∨ c.ptr + c.size + 8 ≤ b.ptr := hl.ordered.imp Or.inl
    rcases hpairs.forall hb hc heq with hlt | hlt
    · exact .inl (by omega)
    · exact .inr (by omega)

/-- Writes that spare the size words. -/
theorem Layout.congr_mem (hl : Layout abi h blocks) {mem : Memory}
    (hmem : ∀ b ∈ blocks, ∀ x, Within (b.ptr - 8) abi.sizeofSizeT x → mem x = h.mem x) :
    Layout abi { h with mem := mem } blocks where
  start_le := hl.start_le
  brk_aligned := hl.brk_aligned
  aligned := hl.aligned
  lo := hl.lo
  hi := hl.hi
  ordered := hl.ordered
  word b hb := (loadWord_congr _ (hmem b hb)).trans (hl.word b hb)

/-! ### The calls -/

/-- The heap after a block has been added at the break. -/
def Heap.extend (abi : Abi) (h : Heap) (k n : ℕ) : Heap :=
  { h with memBrk := h.memBrk + 8 * k, mem := storeWord abi.sizeofSizeT h.mem h.memBrk n }

/-- **What `mm_malloc` does**: nothing, or it adds a block at the break. -/
theorem mmMalloc_cases (h : Heap) (hsize : SizeOk size) : mmMalloc h size = (none, h) ∨
    ∃ k, size.toNat + 8 ≤ 8 * k ∧
      mmMalloc h size = (some (h.memBrk + 8), h.extend abi k size.toNat) := by
  have hle := hsize.le
  rw [mmMalloc, memSbrk]
  split_ifs with hrefused
  · exact .inl rfl
  · obtain ⟨k, hnew, hk⟩ := newsize_of_nonneg (by omega) (Int.not_lt.1 fun hneg ↦
      hrefused (.inl hneg))
    refine .inr ⟨k, hk, ?_⟩
    dsimp only
    rw [sizeTSize_toNat, hnew]
    rfl

/-- **A new block** keeps the layout. -/
theorem Layout.malloc (hl : Layout abi h blocks) (hsize : SizeOk size) {k : ℕ}
    (hk : size.toNat + 8 ≤ 8 * k) : Layout abi (h.extend abi k size.toNat)
      (blocks ++ [⟨h.memBrk + 8, size.toNat⟩]) where
  start_le := Nat.le_add_right_of_le hl.start_le
  brk_aligned := (Nat.dvd_add_right hl.brk_aligned).2 (Nat.dvd_mul_right 8 k)
  aligned := List.forall_mem_append.2 ⟨hl.aligned, by
    simpa using (Nat.dvd_add_right hl.brk_aligned).2 (Nat.dvd_refl 8)⟩
  lo := List.forall_mem_append.2 ⟨hl.lo, by simpa [Heap.extend] using hl.start_le⟩
  hi := List.forall_mem_append.2 ⟨fun b hb ↦ Nat.le_add_right_of_le (hl.hi b hb), by
    simp only [List.mem_singleton, forall_eq, Heap.extend]
    omega⟩
  ordered := by
    refine List.pairwise_append.2 ⟨hl.ordered, List.pairwise_singleton _ _, fun b hb c hc ↦ ?_⟩
    rw [List.mem_singleton.1 hc]
    exact Nat.add_le_add_right (hl.hi b hb) 8
  word := by
    refine List.forall_mem_append.2 ⟨fun b hb ↦ ?_, ?_⟩
    · refine (loadWord_congr _ fun x hx ↦ storeWord_of_outside fun hx' ↦ ?_).trans (hl.word b hb)
      -- the size words of the other blocks lie below the old break
      have hsz := sizeofSizeT_le abi
      have hlo := hl.lo b hb
      have hhi := hl.hi b hb
      have hlt := hx.2
      have hge := hx'.1
      omega
    · have hfits : size.toNat < 256 ^ abi.sizeofSizeT := by
        have hle := hsize.le
        cases abi <;> simp only [Abi.sizeofSizeT] at * <;> omega
      simp only [List.mem_singleton, forall_eq, Nat.add_sub_cancel]
      exact loadWord_storeWord _ hfits

/-- **What `mm_realloc` does** to a block in the layout: nothing, or it adds a block and copies what
the two have in common. -/
theorem mmRealloc_cases (hl : Layout abi h blocks) {b : Block} (hb : b ∈ blocks)
    (hsize : SizeOk size) : mmRealloc h b.ptr size = some (none, h) ∨
    ∃ k mem, size.toNat + 8 ≤ 8 * k ∧
      mmRealloc h b.ptr size =
        some (some (h.memBrk + 8), { h.extend abi k size.toNat with mem := mem }) ∧
      (∀ i < min b.size size.toNat, mem (h.memBrk + 8 + i) = h.mem (b.ptr + i)) ∧
      ∀ x, ¬ Within (h.memBrk + 8) size.toNat x → mem x = (h.extend abi k size.toNat).mem x := by
  rcases mmMalloc_cases h hsize with hnone | ⟨k, hk, hsome⟩
  · rw [mmRealloc, hnone]
    exact .inl rfl
  · have hword := (hl.malloc hsize hk).word b (List.mem_append_left _ hb)
    have hhi := hl.hi b hb
    have hlo := hl.lo b hb
    have hcopy : (if size.toNat < b.size then size.toNat else b.size) = min b.size size.toNat := by
      split_ifs <;> omega
    have hle : min b.size size.toNat ≤ b.size := Nat.min_le_left _ _
    have hle' : min b.size size.toNat ≤ size.toNat := Nat.min_le_right _ _
    -- the source ends at the old break
    obtain ⟨mem, hmemcpy, hcopied, hkept⟩ := @memcpy_apply (h.extend abi k size.toNat).mem
      (h.memBrk + 8) b.ptr (min b.size size.toNat) (.inr (by omega))
    refine .inr ⟨k, mem, hk, ?_, fun i hi ↦ ?_, fun x hx ↦ hkept x fun hx' ↦ hx ?_⟩
    · rw [mmRealloc, hsome]
      dsimp only
      rw [sizeTSize_toNat, hword, hcopy, hmemcpy]
      rfl
    · rw [hcopied i hi]
      refine storeWord_of_outside fun hx ↦ ?_
      have hge := hx.1
      omega
    · exact ⟨hx'.1, lt_of_lt_of_le hx'.2 (Nat.add_le_add_left hle' _)⟩

/-! ### Runs -/

/-- What every run keeps. -/
structure Invariant (abi : Abi) (s : State) : Prop where
  layout : Layout abi s.heap s.blocks
  live : s.live.Sublist s.blocks

theorem invariant_start {base : ℕ} (hbase : 8 ∣ base) (mem : Memory) :
    Invariant abi (start base mem) where
  layout :=
    { start_le := le_rfl
      brk_aligned := hbase
      aligned := by simp [start]
      lo := by simp [start]
      hi := by simp [start]
      ordered := .nil
      word := by simp [start] }
  live := List.Sublist.refl _

/-- **One step keeps the invariant.** -/
theorem Invariant.step {s s' : State} (hs : Invariant abi s) (hstep : Step abi s s') :
    Invariant abi s' := by
  cases hstep with
  | malloc hsize hmalloc =>
    rcases mmMalloc_cases s.heap hsize with hnone | ⟨k, hk, hsome⟩
    · exact absurd (hnone.symm.trans hmalloc) (by simp)
    · obtain ⟨rfl, rfl⟩ : s.heap.memBrk + 8 = _ ∧ s.heap.extend abi k _ = _ := by
        simpa using hsome.symm.trans hmalloc
      exact ⟨hs.layout.malloc hsize hk, hs.live.append (List.Sublist.refl _)⟩
  | mallocFailed hsize hmalloc =>
    rcases mmMalloc_cases s.heap hsize with hnone | ⟨k, hk, hsome⟩
    · obtain rfl : s.heap = _ := (Prod.mk.inj (hnone.symm.trans hmalloc)).2
      exact hs
    · exact absurd (hsome.symm.trans hmalloc) (by simp)
  | free hb => exact ⟨hs.layout, List.filter_sublist.trans hs.live⟩
  | @realloc b size p h hb hsize hrealloc =>
    rcases mmRealloc_cases hs.layout (hs.live.subset hb) hsize with
      hnone | ⟨k, mem, hk, hsome, -, hkept⟩
    · exact absurd (hnone.symm.trans hrealloc) (by simp)
    · obtain ⟨rfl, rfl⟩ : s.heap.memBrk + 8 = p ∧
          { s.heap.extend abi k size.toNat with mem := mem } = h := by
        simpa using hsome.symm.trans hrealloc
      have hlayout := hs.layout.malloc hsize hk
      refine ⟨hlayout.congr_mem fun c hc x hx ↦ hkept x fun hx' ↦ ?_,
        (List.filter_sublist.trans hs.live).append (List.Sublist.refl _)⟩
      -- the copy goes to the payload of the new block
      exact (hlayout.apart_word (List.mem_append_right _ List.mem_cons_self) hc).not_within hx' hx
  | reallocFailed hb hsize hrealloc =>
    rcases mmRealloc_cases hs.layout (hs.live.subset hb) hsize with hnone | ⟨k, mem, hk, hsome, -⟩
    · obtain rfl : s.heap = _ := (Prod.mk.inj (Option.some.inj (hnone.symm.trans hrealloc))).2
      exact hs
    · exact absurd (hsome.symm.trans hrealloc) (by simp)
  | @write b a v hb ha =>
    refine ⟨hs.layout.congr_mem fun c hc x hx ↦ Function.update_of_ne ?_ v s.heap.mem, hs.live⟩
    rintro rfl
    exact (hs.layout.apart_word (hs.live.subset hb) hc).not_within ha hx

theorem Reaches.invariant {base : ℕ} {mem : Memory} {s : State} (hbase : 8 ∣ base)
    (hrun : Reaches abi base mem s) : Invariant abi s := by
  induction hrun with
  | refl => exact invariant_start hbase mem
  | tail _ hstep ih => exact ih.step hstep

/-! ### Safety -/

/-- The live payloads are aligned, inside the heap, and clear of each other and of the size word of
every block that has ever been returned. -/
structure Safe (abi : Abi) (s : State) : Prop where
  aligned : ∀ b ∈ s.live, 8 ∣ b.ptr
  inside : ∀ b ∈ s.live, ∀ a, Within b.ptr b.size a →
    memHeapLo s.heap ≤ a ∧ (a : ℤ) ≤ memHeapHi s.heap
  apart : s.live.Pairwise fun b c ↦ Apart b.ptr b.size c.ptr c.size
  words : ∀ b ∈ s.live, ∀ c ∈ s.blocks,
    Apart b.ptr b.size (c.ptr - (sizeTSize abi).toNat) abi.sizeofSizeT

theorem Invariant.safe {s : State} (hs : Invariant abi s) : Safe abi s where
  aligned b hb := hs.layout.aligned b (hs.live.subset hb)
  inside b hb a ha := by
    have hlo := hs.layout.lo b (hs.live.subset hb)
    have hhi := hs.layout.hi b (hs.live.subset hb)
    obtain ⟨hge, hlt⟩ := ha
    rw [memHeapLo, memHeapHi]
    omega
  apart := (hs.layout.ordered.sublist hs.live).imp fun hbc ↦ .inl (by omega)
  words b hb c hc := by
    rw [sizeTSize_toNat]
    exact hs.layout.apart_word (hs.live.subset hb) hc

/-- **The allocator is safe.** In every state that a client can reach the live payloads are aligned,
inside the heap and apart from each other and from all size words. There, a call that returns `NULL`
leaves the heap as it is, and `mm_realloc` of a live pointer is defined and copies the bytes that
the old and the new block have in common. -/
theorem allocator_safe (abi : Abi) (base : ℕ) (mem : Memory) (hbase : 8 ∣ base) (s : State)
    (hrun : Reaches abi base mem s) :
    Safe abi s ∧
    (∀ size : SizeT abi, SizeOk size → ∀ h, mmMalloc s.heap size = (none, h) → h = s.heap) ∧
    ∀ b ∈ s.live, ∀ size : SizeT abi, SizeOk size →
      ∃ r h, mmRealloc s.heap b.ptr size = some (r, h) ∧ (r = none → h = s.heap) ∧
        ∀ p, r = some p → ∀ i < min b.size size.toNat, h.mem (p + i) = s.heap.mem (b.ptr + i) := by
  have hs := hrun.invariant hbase
  refine ⟨hs.safe, fun size hsize h hnull ↦ ?_, fun b hb size hsize ↦ ?_⟩
  · rcases mmMalloc_cases s.heap hsize with hnone | ⟨k, -, hsome⟩
    · exact (Prod.mk.inj (hnull.symm.trans hnone)).2
    · exact absurd (hnull.symm.trans hsome) (by simp)
  · rcases mmRealloc_cases hs.layout (hs.live.subset hb) hsize with
      hnone | ⟨k, mem', -, hsome, hcopied, -⟩
    · exact ⟨none, s.heap, hnone, fun _ ↦ rfl, fun p hp ↦ absurd hp (by simp)⟩
    · refine ⟨_, _, hsome, fun hnull ↦ absurd hnull (by simp), fun p hp i hi ↦ ?_⟩
      obtain rfl := Option.some.inj hp
      exact hcopied i hi

/-- A heap at address 4096 after `mm_malloc(5)`. -/
def afterMalloc : State where
  heap := (memResetBrk (memInit 4096 fun _ ↦ 0)).extend .lp64 2 5
  blocks := [⟨4104, 5⟩]
  live := [⟨4104, 5⟩]

/-- The client writes to the block. -/
def afterWrite : State :=
  { afterMalloc with
    heap := { afterMalloc.heap with mem := Function.update afterMalloc.heap.mem 4105 7 } }

/-- Another block is allocated behind it. -/
def twoBlocks : State where
  heap := afterWrite.heap.extend .lp64 2 3
  blocks := [⟨4104, 5⟩, ⟨4120, 3⟩]
  live := [⟨4104, 5⟩, ⟨4120, 3⟩]

theorem reaches_twoBlocks : Reaches .lp64 4096 (fun _ ↦ 0) twoBlocks := by
  have hfirst : mmMalloc (start 4096 fun _ ↦ 0).heap (5 : SizeT .lp64) =
      (some 4104, afterMalloc.heap) := rfl
  have hsecond : mmMalloc afterWrite.heap (3 : SizeT .lp64) = (some 4120, twoBlocks.heap) := rfl
  have hmalloc : Reaches .lp64 4096 (fun _ ↦ 0) afterMalloc :=
    .single (.malloc ⟨by decide, by decide⟩ hfirst)
  have hwrite : Reaches .lp64 4096 (fun _ ↦ 0) afterWrite :=
    hmalloc.tail (.write (b := ⟨4104, 5⟩) List.mem_cons_self ⟨by decide, by decide⟩)
  exact hwrite.tail (.malloc ⟨by decide, by decide⟩ hsecond)

/-- Growing the first block to 9 bytes keeps its 5, among them the one that was written. -/
theorem allocator_safe_twoBlocks :
    Safe .lp64 twoBlocks ∧
    (∀ h, mmMalloc twoBlocks.heap (2147483647 : SizeT .lp64) = (none, h) → h = twoBlocks.heap) ∧
    twoBlocks.heap.mem 4105 = 7 ∧
    ∃ r h, mmRealloc twoBlocks.heap 4104 (9 : SizeT .lp64) = some (r, h) ∧
      (r = none → h = twoBlocks.heap) ∧
      ∀ p, r = some p → ∀ i < 5, h.mem (p + i) = twoBlocks.heap.mem (4104 + i) := by
  obtain ⟨hsafe, hmalloc, hrealloc⟩ := allocator_safe .lp64 4096 (fun _ ↦ 0) (by decide)
    twoBlocks reaches_twoBlocks
  exact ⟨hsafe, hmalloc 2147483647 ⟨by decide, by decide⟩, by decide,
    hrealloc ⟨4104, 5⟩ List.mem_cons_self 9 ⟨by decide, by decide⟩⟩

end CsappCode.MallocLab
