import CsappCode.MallocLab.Requests
import Mathlib.Data.List.Pairwise

/-!
# What the range check of `mdriver.c` is worth

`add_range` compares the two ends of a new payload with the payloads on the list. An old payload
strictly inside the new one is not noticed. So a package that passes a trace has returned aligned
payloads inside the heap of which any two are apart, or the newer one encloses the older one.

* `clear_iff` says which payloads `add_range` takes for clear of each other.
* `Package.Grows` is what is asked of a package.
* `Tracked` is the invariant: the list holds the payloads of the blocks in use, in their order.
  `Tracked.step` is one request, and `Tracked.run` a trace.
* `eval_mm_valid_sound` is the meaning of a check that passes, after every request, for any package.

## What is assumed

**Of the package**: its calls move neither the beginning of the heap nor the break downwards. This
is how `memlib.c` describes its model, in which the heap cannot be shrunk; without it an old payload
could lie outside the heap of the moment. Nothing else is asked, in particular not that the package
is right.

**Of the trace**: it is proper, so that the blocks in use can be told from the requests. The check
does not ask for that itself.

**Enclosed payloads.** The newer one is larger by nine bytes at least, because both begin at
multiples of eight, and both ends of the newer lie strictly outside the older. A package that does
this exists, so the exception is needed.
-/

namespace CsappCode.MallocLab.Mdriver

variable {abi : Abi} {σ : Type*}

/-! ### Pairs of payloads -/

/-- No byte in common. -/
def Range.Apart (new old : Range) : Prop := new.hi < old.lo ∨ old.hi < new.lo

/-- The newer payload begins below the older one and ends above it. -/
def Range.Encloses (new old : Range) : Prop := new.lo < old.lo ∧ old.hi < new.hi

/-- **The test for an overlap** misses the payloads that are enclosed. -/
theorem clear_iff {new old : Range} (hnew : new.lo ≤ new.hi) :
    ¬ old.Hits new.lo new.hi ↔ new.Apart old ∨ new.Encloses old := by
  rw [Range.Hits, Range.Apart, Range.Encloses]
  omega

/-! ### The invariant -/

/-- The break has been moved by `mem_sbrk`, if at all. -/
def Extends (h h' : Heap) : Prop := h'.memStartBrk = h.memStartBrk ∧ h.memBrk ≤ h'.memBrk

/-- Nothing else moves the break. -/
structure Package.Grows (pkg : Package abi σ) : Prop where
  malloc : ∀ {w size r}, pkg.malloc w size = some r → Extends w.heap r.2.heap
  free : ∀ {w p w'}, pkg.free w p = some w' → Extends w.heap w'.heap
  realloc : ∀ {w p size r}, pkg.realloc w p size = some r → Extends w.heap r.2.heap

/-- The payload of a block. -/
def payload (bs : Blocks abi) (b : ℕ × ℕ) : Range :=
  ⟨(bs.ptr b.1).getD 0, (bs.ptr b.1).getD 0 + b.2 - 1⟩

/-- The range list holds the payloads of the blocks in use. They are aligned, inside the heap, and
clear of each other as far as `add_range` can tell. -/
structure Tracked (d : Driver abi σ) (live : Live) : Prop where
  nodup : (live.map Prod.fst).Nodup
  noted : ∀ b ∈ live, ∃ p, d.blocks.ptr b.1 = some p
  pos : ∀ b ∈ live, 0 < b.2
  ranges : d.ranges = live.map (payload d.blocks)
  aligned : ∀ b ∈ live, 8 ∣ (payload d.blocks b).lo
  heapLo_le : ∀ b ∈ live, memHeapLo d.world.heap ≤ (payload d.blocks b).lo
  le_heapHi : ∀ b ∈ live, (payload d.blocks b).hi ≤ memHeapHi d.world.heap
  clear : live.Pairwise fun new old ↦ (payload d.blocks new).Apart (payload d.blocks old) ∨
    (payload d.blocks new).Encloses (payload d.blocks old)

variable {d d' : Driver abi σ} {live live' : Live}

theorem tracked_nil {w : World σ} {bs : Blocks abi} : Tracked ⟨w, [], bs⟩ [] where
  nodup := .nil
  noted := by simp
  pos := by simp
  ranges := rfl
  aligned := by simp
  heapLo_le := by simp
  le_heapHi := by simp
  clear := .nil

theorem payload_le (bs : Blocks abi) {b : ℕ × ℕ} (hpos : 0 < b.2) :
    (payload bs b).lo ≤ (payload bs b).hi := by
  show (bs.ptr b.1).getD 0 ≤ (bs.ptr b.1).getD 0 + b.2 - 1
  omega

/-- A payload with another index keeps its place when one is noted. -/
theorem payload_update {bs : Blocks abi} {i p : ℕ} {sizes : ℕ → Option (SizeT abi)} {b : ℕ × ℕ}
    (hne : b.1 ≠ i) : payload ⟨Function.update bs.ptr i (some p), sizes⟩ b = payload bs b := by
  simp only [payload, Function.update_of_ne hne]

theorem payload_self {bs : Blocks abi} {i p n : ℕ} {sizes : ℕ → Option (SizeT abi)} :
    payload ⟨Function.update bs.ptr i (some p), sizes⟩ (i, n) = ⟨p, p + n - 1⟩ := by
  simp only [payload, Function.update_self, Option.getD_some]

/-- The blocks in use begin at different addresses. -/
theorem Tracked.lo_ne (ht : Tracked d live) : live.Pairwise fun new old ↦
    (payload d.blocks new).lo ≠ (payload d.blocks old).lo := by
  have hmem : live.Pairwise fun new old ↦ 0 < new.2 ∧ 0 < old.2 :=
    List.pairwise_of_forall_mem_list fun b hb c hc ↦ ⟨ht.pos b hb, ht.pos c hc⟩
  refine (ht.clear.and hmem).imp ?_
  intro new old ⟨hclear, hnew, hold⟩
  have hle := payload_le d.blocks hnew
  have hle' := payload_le d.blocks hold
  rw [Range.Apart, Range.Encloses] at hclear
  omega

/-- Taking out the range that begins where a block does. -/
theorem eraseP_map_payload {bs : Blocks abi} {b : ℕ × ℕ} (hnodup : (live.map Prod.fst).Nodup)
    (hlo : live.Pairwise fun new old ↦ (payload bs new).lo ≠ (payload bs old).lo) (hb : b ∈ live) :
    (live.map (payload bs)).eraseP (·.lo = (payload bs b).lo) =
      (live.release b.1).map (payload bs) := by
  induction live with
  | nil => exact absurd hb List.not_mem_nil
  | cons c live ih =>
    obtain ⟨hfresh, hnodup⟩ := List.nodup_cons.1 (List.map_cons ▸ hnodup)
    obtain ⟨hhead, hlo⟩ := List.pairwise_cons.1 hlo
    rw [Live.release, List.map_cons]
    rcases List.mem_cons.1 hb with rfl | hb
    · rw [List.eraseP_cons_of_pos (by simp), List.filter_cons_of_neg (by simp)]
      congr 1
      refine (List.filter_eq_self.2 fun c hc ↦ ?_).symm
      simp only [ne_eq, decide_eq_true_eq]
      intro heq
      exact hfresh (heq ▸ List.mem_map_of_mem hc)
    · have hne : c.1 ≠ b.1 := fun heq ↦ hfresh (heq ▸ List.mem_map_of_mem hb)
      rw [List.eraseP_cons_of_neg (by simpa using hhead b hb),
        List.filter_cons_of_pos (by simpa using hne), List.map_cons, ih hnodup hlo hb]
      rfl

/-- A call of the package, which changes neither the list nor the arrays. -/
theorem Tracked.grow (ht : Tracked d live) {w : World σ} (hgrows : Extends d.world.heap w.heap) :
    Tracked { d with world := w } live where
  nodup := ht.nodup
  noted := ht.noted
  pos := ht.pos
  ranges := ht.ranges
  aligned := ht.aligned
  heapLo_le b hb := by
    have hlo := ht.heapLo_le b hb
    rw [memHeapLo] at hlo ⊢
    rw [hgrows.1]
    exact hlo
  le_heapHi b hb := by
    have hhi := ht.le_heapHi b hb
    have hle := hgrows.2
    rw [memHeapHi] at hhi ⊢
    dsimp only
    omega
  clear := ht.clear

/-- A block is given back. -/
theorem Tracked.remove (ht : Tracked d live) {i p : ℕ} (huses : live.Uses i)
    (hptr : d.blocks.ptr i = some p) :
    Tracked { d with ranges := removeRange d.ranges p } (live.release i) where
  nodup := release_nodup ht.nodup
  noted b hb := ht.noted b (mem_release.1 hb).1
  pos b hb := ht.pos b (mem_release.1 hb).1
  ranges := by
    obtain ⟨b, hb, rfl⟩ := List.mem_map.1 huses
    have hlo : (payload d.blocks b).lo = p := by rw [payload, hptr, Option.getD_some]
    dsimp only
    rw [ht.ranges, removeRange, ← hlo]
    exact eraseP_map_payload ht.nodup ht.lo_ne hb
  aligned b hb := ht.aligned b (mem_release.1 hb).1
  heapLo_le b hb := ht.heapLo_le b (mem_release.1 hb).1
  le_heapHi b hb := ht.le_heapHi b (mem_release.1 hb).1
  clear := ht.clear.sublist List.filter_sublist

/-- A block is added. -/
theorem Tracked.add (ht : Tracked d live) {op : TraceOp} {p : ℕ}
    (huses : ¬ live.Uses op.index.toNat) (hfits : Fits d.world.heap d.ranges p op.size) :
    Tracked (d.accepted op p) ((op.index.toNat, op.size.toNat) :: live) := by
  have hne : ∀ b ∈ live, b.1 ≠ op.index.toNat := fun b hb heq ↦ huses (heq ▸ uses_of_mem hb)
  have hself : payload (d.accepted op p).blocks (op.index.toNat, op.size.toNat) =
      ⟨p, p + op.size.toNat - 1⟩ := payload_self
  have hother : ∀ b ∈ live, payload (d.accepted op p).blocks b = payload d.blocks b :=
    fun b hb ↦ payload_update (hne b hb)
  obtain ⟨hcast, -⟩ := toNat_of_toInt_pos hfits.pos
  have hpos : 0 < op.size.toNat := by have := hfits.pos; omega
  constructor
  case nodup => exact List.nodup_cons.2 ⟨huses, ht.nodup⟩
  case noted =>
    refine List.forall_mem_cons.2 ⟨⟨p, Function.update_self ..⟩, fun b hb ↦ ?_⟩
    obtain ⟨q, hq⟩ := ht.noted b hb
    exact ⟨q, (Function.update_of_ne (hne b hb) ..).trans hq⟩
  case pos => exact List.forall_mem_cons.2 ⟨hpos, ht.pos⟩
  case ranges =>
    rw [List.map_cons, hself, List.map_congr_left hother, ← ht.ranges]
    rfl
  case aligned =>
    refine List.forall_mem_cons.2 ⟨?_, fun b hb ↦ hother b hb ▸ ht.aligned b hb⟩
    have haligned := hfits.aligned
    rw [isAligned, alignment] at haligned
    rw [hself]
    dsimp only
    omega
  case heapLo_le =>
    refine List.forall_mem_cons.2 ⟨?_, fun b hb ↦ hother b hb ▸ ht.heapLo_le b hb⟩
    rw [hself]
    exact hfits.heapLo_le
  case le_heapHi =>
    refine List.forall_mem_cons.2 ⟨?_, fun b hb ↦ hother b hb ▸ ht.le_heapHi b hb⟩
    rw [hself]
    exact hfits.le_heapHi
  case clear =>
    refine List.pairwise_cons.2 ⟨fun b hb ↦ ?_, ?_⟩
    · rw [hself, hother b hb]
      refine (clear_iff ?_).1 (hfits.clear _ ?_)
      · show p ≤ p + op.size.toNat - 1
        omega
      · rw [ht.ranges]
        exact List.mem_map_of_mem hb
    · refine ht.clear.imp_of_mem ?_
      intro b c hb hc hclear
      rw [hother b hb, hother c hc]
      exact hclear

/-- **One request keeps the invariant.** -/
theorem Tracked.step {pkg : Package abi σ} (hpkg : pkg.Grows) {numIds : BitVec 32} {op : TraceOp}
    (ht : Tracked d live) (hpasses : Passes pkg numIds op d d')
    (hrequest : request live op = some live') : Tracked d' live' := by
  cases hpasses with
  | alloc htype _ hmalloc hfits =>
    obtain ⟨huses, rfl⟩ := (request_of_alloc htype).1 hrequest
    exact (ht.grow (hpkg.malloc hmalloc)).add huses hfits
  | @realloc oldp newp n w htype _ hptr _ hrealloc hfits _ =>
    obtain ⟨huses, rfl⟩ := (request_of_realloc htype).1 hrequest
    have hgrown := ht.grow (hpkg.realloc hrealloc)
    have hremoved := hgrown.remove huses hptr
    exact hremoved.add not_uses_release hfits
  | free htype _ hptr hfree =>
    obtain ⟨huses, rfl⟩ := (request_of_free htype).1 hrequest
    exact (ht.grow (hpkg.free hfree)).remove huses hptr

/-- **A run keeps the invariant.** -/
theorem Tracked.run {pkg : Package abi σ} (hpkg : pkg.Grows) {tracenum : ℕ} {numIds : BitVec 32}
    (ops : List TraceOp) : ∀ {opnum : ℕ} {d : Driver abi σ} {live : Live}, Tracked d live →
      validLoop pkg tracenum numIds opnum ops d = .ok d' → requests live ops = some live' →
      Tracked d' live' := by
  induction ops with
  | nil =>
    intro opnum d live ht hloop hrequests
    obtain rfl := Except.ok.inj hloop
    obtain rfl := Option.some.inj hrequests
    exact ht
  | cons op ops ih =>
    intro opnum d live ht hloop hrequests
    obtain ⟨d₁, hpasses, hloop⟩ := validLoop_cons.1 hloop
    obtain ⟨live₁, hrequest, hrequests⟩ := requests_cons.1 hrequests
    exact ih (ht.step hpkg hpasses hrequest) hloop hrequests

/-! ### A check that passes -/

/-- Aligned payloads of which one encloses the other differ in size by 9 bytes or more. -/
theorem Tracked.enclosed_size (ht : Tracked d live) {new old : ℕ × ℕ} (hnew : new ∈ live)
    (hold : old ∈ live) (hencloses : (payload d.blocks new).Encloses (payload d.blocks old)) :
    old.2 + 9 ≤ new.2 := by
  obtain ⟨hlo, hhi⟩ := hencloses
  have hdvd := ht.aligned new hnew
  have hdvd' := ht.aligned old hold
  have hpos := ht.pos old hold
  simp only [payload] at hlo hhi hdvd hdvd'
  omega

/-- **What a package has shown when `eval_mm_valid` returns 1.** After every request of a proper
trace the blocks in use have aligned payloads inside the heap, and of any two of them the payloads
are apart, or the newer one encloses the older one and is larger by 9 bytes or more. -/
theorem eval_mm_valid_sound {pkg : Package abi σ} (hpkg : pkg.Grows) {trace : Trace} {tracenum : ℕ}
    (hvalid : evalMmValid pkg trace tracenum d = .ok d') {ops rest : List TraceOp}
    (hops : trace.ops = ops ++ rest) (hlive : requests [] ops = some live) :
    ∃ d₁, evalMmValid pkg { trace with ops := ops } tracenum d = .ok d₁ ∧
      (∀ b ∈ live, ∃ p, d₁.blocks.ptr b.1 = some p ∧ 8 ∣ p ∧ 0 < b.2 ∧
        memHeapLo d₁.world.heap ≤ p ∧ ((p + b.2 - 1 : ℕ) : ℤ) ≤ memHeapHi d₁.world.heap) ∧
      live.Pairwise fun new old ↦ (payload d₁.blocks new).Apart (payload d₁.blocks old) ∨
        (payload d₁.blocks new).Encloses (payload d₁.blocks old) ∧ old.2 + 9 ≤ new.2 := by
  rw [evalMmValid] at hvalid
  rcases hinit : pkg.init { d.world with heap := memResetBrk d.world.heap } with ⟨- | -, w⟩
  · rw [hinit] at hvalid
    exact absurd hvalid (by simp)
  · rw [hinit, hops] at hvalid
    obtain ⟨d₁, hloop, -⟩ := validLoop_append.1 hvalid
    have ht : Tracked d₁ live := tracked_nil.run hpkg ops hloop hlive
    refine ⟨d₁, ?_, fun b hb ↦ ?_, ?_⟩
    · rw [evalMmValid, hinit]
      exact hloop
    · obtain ⟨p, hp⟩ := ht.noted b hb
      have haligned := ht.aligned b hb
      have hlo := ht.heapLo_le b hb
      have hhi := ht.le_heapHi b hb
      simp only [payload, hp, Option.getD_some] at haligned hlo hhi
      exact ⟨p, hp, haligned, ht.pos b hb, hlo, hhi⟩
    · refine ht.clear.imp_of_mem ?_
      intro new old hnew hold hclear
      exact hclear.imp_right fun hencloses ↦ ⟨hencloses, ht.enclosed_size hnew hold hencloses⟩

/-! ### `mm.c` -/

theorem memSbrk_extends (h : Heap) (incr : BitVec 32) : Extends h (memSbrk h incr).2 := by
  rw [memSbrk]
  split_ifs with hrefused
  · exact ⟨rfl, le_rfl⟩
  · refine ⟨rfl, ?_⟩
    show h.memBrk ≤ (h.memBrk + incr.toInt).toNat
    omega

theorem mmMalloc_extends (h : Heap) (size : SizeT abi) : Extends h (mmMalloc h size).2 := by
  have hsbrk := memSbrk_extends h (newsize size)
  rw [mmMalloc]
  generalize memSbrk h (newsize size) = q at hsbrk ⊢
  rcases q with ⟨- | p, h'⟩ <;> exact hsbrk

theorem mmPackage_grows : (mmPackage abi).Grows where
  malloc := by
    intro w size r hmalloc
    obtain rfl := Option.some.inj hmalloc
    exact mmMalloc_extends w.heap size
  free := by
    intro w p w' hfree
    obtain rfl := Option.some.inj hfree
    exact ⟨rfl, le_rfl⟩
  realloc := by
    intro w p size r hrealloc
    obtain ⟨r', hr', rfl⟩ := Option.map_eq_some_iff.1 hrealloc
    have hmalloc := mmMalloc_extends w.heap size
    rw [mmRealloc] at hr'
    generalize mmMalloc w.heap size = q at hr' hmalloc
    rcases q with ⟨- | newptr, h⟩
    · obtain rfl := Option.some.inj hr'
      exact hmalloc
    · obtain ⟨mem, -, rfl⟩ := Option.map_eq_some_iff.1 hr'
      exact hmalloc

/-- A trace of two blocks, the first of which grows. -/
def growing : Trace where
  suggHeapsize := 20000
  numIds := 2
  numOps := 4
  weight := 1
  ops := [⟨.alloc, 0, 5⟩, ⟨.alloc, 1, 3⟩, ⟨.realloc, 0, 9⟩, ⟨.free, 1, 0⟩]

/-- The driver when the heap lies at address 4096. -/
def beforeGrowing : Driver .ilp32 Unit := ⟨⟨memInit 4096 fun _ ↦ 0, ()⟩, [], .fresh⟩

theorem eval_mm_valid_sound_growing :
    ∃ d₁, evalMmValid (mmPackage .ilp32) { growing with ops := growing.ops.take 3 } 0
        beforeGrowing = .ok d₁ ∧
      (∀ b ∈ [(0, 9), (1, 3)], ∃ p, d₁.blocks.ptr b.1 = some p ∧ 8 ∣ p ∧ 0 < b.2 ∧
        memHeapLo d₁.world.heap ≤ p ∧ ((p + b.2 - 1 : ℕ) : ℤ) ≤ memHeapHi d₁.world.heap) ∧
      [(0, 9), (1, 3)].Pairwise fun new old ↦
        (payload d₁.blocks new).Apart (payload d₁.blocks old) ∨
        (payload d₁.blocks new).Encloses (payload d₁.blocks old) ∧ old.2 + 9 ≤ new.2 := by
  obtain ⟨d', hvalid⟩ : ∃ d', evalMmValid (mmPackage .ilp32) growing 0 beforeGrowing = .ok d' :=
    ⟨_, rfl⟩
  exact eval_mm_valid_sound mmPackage_grows hvalid
    (show growing.ops = growing.ops.take 3 ++ growing.ops.drop 3 from rfl) rfl

end CsappCode.MallocLab.Mdriver
