import CsappCode.MallocLab.Acceptance
import Mathlib.Algebra.Order.Group.Nat

/-!
# The measurements and the main loop of `mdriver.c`

`eval_mm_util` and `eval_mm_speed` replay a trace that has passed, and end the process when a call
fails. The arrays of the trace hold what the run before has left in them.

* `evalTrace` is the body of the loop in `main` for a trace that has been read. The timer is left
  out but for the ten runs that it times.
* `peak` is the largest number of bytes that a trace has in use at once.
* `Counted` is the state of `eval_mm_util` in the middle of a trace; `Counted.step` and
  `Counted.run` are the induction.
* `eval_mm_util_spec` says what is measured for `mm.c` when a proper trace has passed.
* `WellFormed.verdict` and `evalTrace_eq` say what is found for a trace, passed or not.

## What the results rest on

**The package keeps no state.** `mm.c` has no variables of its own, and `mm_init` does nothing. So a
run on a heap that `mem_reset_brk` has emptied is like any other, whatever the run before has left
in memory. `Initialized` is all that is asked of the memory system.

**A well-formed trace** has its indices in the arrays, positive sizes, and frees and reallocates
only what is in use. It may ask for more than the heap has: then the check returns 0 with one
report, and the measurements are not made.

**Sums of sizes** in `eval_mm_util` are `int`s in the code. They do not overflow on a trace that has
passed, because all its blocks fit in the heap together.
-/

namespace CsappCode.MallocLab.Mdriver

open ByteMemory

variable {abi : Abi} {σ : Type*}

/-! ### `eval_mm_util` and `eval_mm_speed` -/

/-- How a measurement ends early: `app_error(msg)`, or undefined behaviour. -/
inductive Exit where
  | appError (msg : String)
  | undefined
  deriving DecidableEq

/-- The result of an operation on `int`, if it is one. -/
def checked (v : ℤ) : Option ℤ := if -2 ^ 31 ≤ v ∧ v < 2 ^ 31 then some v else none

/-- What `eval_mm_util` works on. -/
structure Measured (abi : Abi) (σ : Type*) where
  world : World σ
  blocks : Blocks abi
  totalSize : ℤ
  maxTotalSize : ℤ

/-- The rest of a request that changes `total_size` by `change`: the notes and the statistics. -/
def measure (numIds : BitVec 32) (op : TraceOp) (m : Measured abi σ) (change : Option ℤ) (p : ℕ) :
    Except Exit (Measured abi σ) :=
  match m.blocks.set numIds op.index p (op.size.signExtend _),
    change.bind fun δ ↦ checked (m.totalSize + δ) with
  | some blocks, some total =>
    .ok ⟨m.world, blocks, total, if total > m.maxTotalSize then total else m.maxTotalSize⟩
  | _, _ => .error .undefined

/-- One turn of the loop of `eval_mm_util`. -/
def utilStep (pkg : Package abi σ) (numIds : BitVec 32) (op : TraceOp) (m : Measured abi σ) :
    Except Exit (Measured abi σ) :=
  match op.type with
  | .alloc =>
    match pkg.malloc m.world (op.size.signExtend _) with
    | none => .error .undefined
    | some (none, _) => .error (.appError "mm_malloc failed in eval_mm_util")
    | some (some p, w) => measure numIds op { m with world := w } (some op.size.toInt) p
  | .realloc =>
    match m.blocks.getSize numIds op.index, m.blocks.getPtr numIds op.index with
    | some blockSize, some oldp =>
      match pkg.realloc m.world oldp (op.size.signExtend _) with
      | none => .error .undefined
      | some (none, _) => .error (.appError "mm_realloc failed in eval_mm_util")
      | some (some newp, w) =>
        let oldsize : BitVec 32 := blockSize.setWidth 32
        measure numIds op { m with world := w } (checked (op.size.toInt - oldsize.toInt)) newp
    | _, _ => .error .undefined
  | .free =>
    match m.blocks.getSize numIds op.index, m.blocks.getPtr numIds op.index with
    | some blockSize, some p =>
      let size : BitVec 32 := blockSize.setWidth 32
      match pkg.free m.world p, checked (m.totalSize - size.toInt) with
      | some w, some total => .ok { m with world := w, totalSize := total }
      | _, _ => .error .undefined
    | _, _ => .error .undefined

/-- The loop of `eval_mm_util`. -/
def utilLoop (pkg : Package abi σ) (numIds : BitVec 32) :
    List TraceOp → Measured abi σ → Except Exit (Measured abi σ)
  | [], m => .ok m
  | op :: ops, m =>
    match utilStep pkg numIds op m with
    | .error e => .error e
    | .ok m => utilLoop pkg numIds ops m

/-- `mem_heapsize()`. -/
def memHeapsize (h : Heap) : ℤ := h.memBrk - h.memStartBrk

/-- `eval_mm_util(trace, tracenum, ranges)`: its result is `max_total_size` over
`mem_heapsize()`. -/
def evalMmUtil (pkg : Package abi σ) (trace : Trace) (w : World σ) (blocks : Blocks abi) :
    Except Exit (Measured abi σ) :=
  match pkg.init { w with heap := memResetBrk w.heap } with
  | (false, _) => .error (.appError "mm_init failed in eval_mm_util")
  | (true, w) => utilLoop pkg trace.numIds trace.ops ⟨w, blocks, 0, 0⟩

/-- `trace->blocks[index] = p;` -/
def Blocks.setPtr (bs : Blocks abi) (numIds index : BitVec 32) (p : ℕ) : Option (Blocks abi) :=
  if InBounds numIds index then some { bs with ptr := Function.update bs.ptr index.toNat (some p) }
  else none

/-- One turn of the loop of `eval_mm_speed`. -/
def speedStep (pkg : Package abi σ) (numIds : BitVec 32) (op : TraceOp)
    (wb : World σ × Blocks abi) : Except Exit (World σ × Blocks abi) :=
  let (w, bs) := wb
  match op.type with
  | .alloc =>
    match pkg.malloc w (op.size.signExtend _) with
    | none => .error .undefined
    | some (none, _) => .error (.appError "mm_malloc error in eval_mm_speed")
    | some (some p, w) =>
      (bs.setPtr numIds op.index p).elim (.error .undefined) fun bs ↦ .ok (w, bs)
  | .realloc =>
    match bs.getPtr numIds op.index with
    | none => .error .undefined
    | some oldp =>
      match pkg.realloc w oldp (op.size.signExtend _) with
      | none => .error .undefined
      | some (none, _) => .error (.appError "mm_realloc error in eval_mm_speed")
      | some (some newp, w) =>
        (bs.setPtr numIds op.index newp).elim (.error .undefined) fun bs ↦ .ok (w, bs)
  | .free =>
    match bs.getPtr numIds op.index with
    | none => .error .undefined
    | some p => (pkg.free w p).elim (.error .undefined) fun w ↦ .ok (w, bs)

/-- `eval_mm_speed(ptr)`. -/
def evalMmSpeed (pkg : Package abi σ) (trace : Trace) (wb : World σ × Blocks abi) :
    Except Exit (World σ × Blocks abi) :=
  match pkg.init { wb.1 with heap := memResetBrk wb.1.heap } with
  | (false, _) => .error (.appError "mm_init failed in eval_mm_speed")
  | (true, w) => trace.ops.foldlM (fun wb op ↦ speedStep pkg trace.numIds op wb) (w, wb.2)

/-! ### `main` -/

/-- `fsecs(f, argp)` calls `f` ten times, for `gettimeofday`. -/
def fsecs {α : Type*} (f : α → Except Exit α) (a : α) : Except Exit α :=
  (List.range 10).foldlM (fun a _ ↦ f a) a

/-- The largest number of bytes that are in use at once. -/
def peak (live : Live) : List TraceOp → ℕ
  | [] => live.bytes
  | op :: ops => max live.bytes ((request live op).elim 0 (peak · ops))

variable {live live' : Live} {op : TraceOp}

theorem bytes_le_peak (live : Live) (ops : List TraceOp) : live.bytes ≤ peak live ops := by
  cases ops with
  | nil => exact le_rfl
  | cons op ops => exact le_max_left _ _

theorem peak_cons {ops : List TraceOp} (h : request live op = some live') :
    peak live (op :: ops) = max live.bytes (peak live' ops) := by
  rw [peak, h, Option.elim_some]

/-- The bytes of a block that is given back. -/
theorem bytes_release {b : ℕ × ℕ} (hnodup : (live.map Prod.fst).Nodup) (hb : b ∈ live) :
    (live.release b.1).bytes + b.2 = live.bytes := by
  induction live with
  | nil => exact absurd hb List.not_mem_nil
  | cons c live ih =>
    obtain ⟨hfresh, hnodup⟩ := List.nodup_cons.1 (List.map_cons ▸ hnodup)
    rw [Live.release, Live.bytes, Live.bytes, List.map_cons, List.sum_cons]
    rcases List.mem_cons.1 hb with rfl | hb
    · have hrest : live.filter (·.1 ≠ b.1) = live := by
        refine List.filter_eq_self.2 fun c hc ↦ ?_
        simp only [ne_eq, decide_eq_true_eq]
        intro heq
        exact hfresh (heq ▸ List.mem_map_of_mem hc)
      rw [List.filter_cons_of_neg (by simp), hrest]
      exact Nat.add_comm _ _
    · have hne : c.1 ≠ b.1 := fun heq ↦ hfresh (heq ▸ List.mem_map_of_mem hb)
      rw [List.filter_cons_of_pos (by simpa using hne), List.map_cons, List.sum_cons]
      have hrest := ih hnodup hb
      rw [Live.release, Live.bytes, Live.bytes] at hrest
      omega

/-! ### Measuring `mm.c` -/

/-- The state of `eval_mm_util` after requests that have taken `used` bytes of the heap. -/
structure Counted (m : Measured abi Unit) (used : ℕ) (live : Live) (blocks : List Block) :
    Prop where
  placed : Placed abi m.world.heap m.blocks.ptr used (live.map Prod.fst) blocks
  nodup : (live.map Prod.fst).Nodup
  noted : ∀ b ∈ live, ∃ n, m.blocks.size b.1 = some n ∧ SizeOk n ∧ n.toNat = b.2
  total : m.totalSize = live.bytes
  bytes_le : live.bytes ≤ used
  used_le : used ≤ maxHeap

/-- What a request must satisfy to be measured. -/
structure Measurable (numIds : BitVec 32) (used : ℕ) (op : TraceOp) : Prop where
  bounds : InBounds numIds op.index
  size : op.type ≠ .free → 0 < op.size.toInt
  room : used + cost op ≤ maxHeap

variable {m : Measured abi Unit} {used : ℕ} {blocks : List Block} {numIds : BitVec 32}

theorem checked_of_le {v : ℤ} (hlo : -2 ^ 31 ≤ v) (hhi : v < 2 ^ 31) : checked v = some v :=
  if_pos ⟨hlo, hhi⟩

/-- **A block is added**, and the total changes by `δ`. -/
theorem measure_eq {w : World Unit} (live₀ : Live)
    (hplaced : Placed abi w.heap m.blocks.ptr used (live₀.map Prod.fst) blocks)
    (hnodup : (live₀.map Prod.fst).Nodup)
    (hnoted : ∀ b ∈ live₀, ∃ n, m.blocks.size b.1 = some n ∧ SizeOk n ∧ n.toNat = b.2)
    (huses : ¬ live₀.Uses op.index.toNat) (hop : Measurable numIds used op)
    (htype : op.type ≠ .free) {mem : Memory} (hmem : Spares abi w.heap op.size.toNat mem)
    (δ : ℤ) (hδ : m.totalSize + δ = live₀.bytes + op.size.toNat) (hbytes : live₀.bytes ≤ used) :
    ∃ m', measure numIds op { m with world := ⟨withBlock abi w.heap op.size.toNat mem, ()⟩ }
        (some δ) (w.heap.memBrk + 8) = .ok m' ∧
      Counted m' (used + cost op) ((op.index.toNat, op.size.toNat) :: live₀)
        (blocks ++ [⟨w.heap.memBrk + 8, op.size.toNat⟩]) ∧
      m'.maxTotalSize = max m.maxTotalSize (live₀.bytes + op.size.toNat) := by
  have hpos := hop.size htype
  have hok := sizeOk_signExtend abi hpos
  have hnat := toNat_signExtend abi hpos
  have hcost : cost op = rounded op.size.toNat := if_neg htype
  have hroom := hop.room
  rw [hcost] at hroom ⊢
  have hrounded : op.size.toNat ≤ rounded op.size.toNat := by rw [rounded]; omega
  have hchecked : checked (m.totalSize + δ) = some (m.totalSize + δ) := by
    rw [hδ]
    rw [maxHeap] at hroom
    exact checked_of_le (by omega) (by omega)
  rw [measure, Blocks.set, if_pos hop.bounds, Option.bind_some, hchecked]
  refine ⟨_, rfl, ⟨?_, ?_, ?_, ?_, ?_, hroom⟩, ?_⟩
  · have hadd := hplaced.add hok (hnat.symm ▸ hmem) op.index.toNat
    rw [hnat] at hadd
    exact hadd
  · exact List.nodup_cons.2 ⟨huses, hnodup⟩
  · refine List.forall_mem_cons.2 ⟨⟨_, Function.update_self .., hok, hnat⟩, fun b hb ↦ ?_⟩
    obtain ⟨n, hn, hrest⟩ := hnoted b hb
    have hne : b.1 ≠ op.index.toNat := fun heq ↦ huses (heq ▸ uses_of_mem hb)
    exact ⟨n, (Function.update_of_ne hne ..).trans hn, hrest⟩
  · show m.totalSize + δ = ((op.size.toNat + live₀.bytes : ℕ) : ℤ)
    omega
  · show op.size.toNat + live₀.bytes ≤ used + rounded op.size.toNat
    omega
  · show (if m.totalSize + δ > m.maxTotalSize then m.totalSize + δ else m.maxTotalSize) = _
    rw [hδ]
    split_ifs <;> omega

/-- **One request is measured.** -/
theorem Counted.step (hm : Counted m used live blocks) (hmax : (live.bytes : ℤ) ≤ m.maxTotalSize)
    (hop : Measurable numIds used op) (hrequest : request live op = some live') :
    ∃ m' blocks', utilStep (mmPackage abi) numIds op m = .ok m' ∧
      Counted m' (used + cost op) live' blocks' ∧
      m'.maxTotalSize = max m.maxTotalSize live'.bytes := by
  rw [utilStep]
  cases htype : op.type with
  | alloc =>
    obtain ⟨huses, rfl⟩ := (request_of_alloc htype).1 hrequest
    have hfree : op.type ≠ .free := by simp [htype]
    have hroom := hop.room
    rw [show cost op = rounded op.size.toNat from if_neg hfree] at hroom
    obtain ⟨hcast, -⟩ := toNat_of_toInt_pos (hop.size hfree)
    obtain ⟨mem, hmalloc, hmem⟩ := hm.placed.malloc (hop.size hfree) hroom
    have htotal := hm.total
    obtain ⟨m', hm', hcounted, hmax'⟩ := measure_eq live hm.placed hm.nodup hm.noted huses hop hfree
      hmem op.size.toInt (by omega) hm.bytes_le
    dsimp only
    rw [hmalloc]
    refine ⟨m', _, hm', hcounted, ?_⟩
    rw [hmax', show Live.bytes (_ :: live) = op.size.toNat + live.bytes from rfl]
    push_cast
    rw [add_comm]
  | realloc =>
    obtain ⟨huses, rfl⟩ := (request_of_realloc htype).1 hrequest
    have hfree : op.type ≠ .free := by simp [htype]
    have hroom := hop.room
    rw [show cost op = rounded op.size.toNat from if_neg hfree] at hroom
    obtain ⟨hcast, hlt⟩ := toNat_of_toInt_pos (hop.size hfree)
    have hpos := hop.size hfree
    obtain ⟨b, hb, hptr⟩ := hm.placed.noted _ huses
    obtain ⟨c, hc, heq⟩ := List.mem_map.1 huses
    obtain ⟨n, hn, hok, hnc⟩ := hm.noted c hc
    rw [heq] at hn
    have hrelease := bytes_release hm.nodup hc
    rw [heq] at hrelease
    have htotal := hm.total
    have hle := hok.le
    have hint := toInt_setWidth hok
    obtain ⟨mem, hrealloc, hmem, -⟩ := hm.placed.realloc (hop.size hfree) hroom hb
    have hbytes := hm.bytes_le
    obtain ⟨m', hm', hcounted, hmax'⟩ := measure_eq (live.release op.index.toNat)
      (hm.placed.mono (List.filter_sublist.map _).subset) (release_nodup hm.nodup)
      (fun b hb ↦ hm.noted b (mem_release.1 hb).1) not_uses_release hop hfree hmem
      (op.size.toInt - (n.setWidth 32).toInt) (by omega) (by omega)
    have hchecked : checked (op.size.toInt - (n.setWidth 32).toInt) =
        some (op.size.toInt - (n.setWidth 32).toInt) := by
      have hone := hok.one_le
      exact checked_of_le (by omega) (by omega)
    dsimp only
    rw [Blocks.getSize, if_pos hop.bounds, Blocks.getPtr, if_pos hop.bounds, hn, hptr]
    dsimp only
    rw [hrealloc]
    dsimp only
    rw [hchecked]
    refine ⟨m', _, hm', hcounted, ?_⟩
    rw [hmax', show Live.bytes (_ :: live.release op.index.toNat) =
      op.size.toNat + (live.release op.index.toNat).bytes from rfl]
    push_cast
    rw [add_comm]
  | free =>
    obtain ⟨huses, rfl⟩ := (request_of_free htype).1 hrequest
    obtain ⟨b, hb, hptr⟩ := hm.placed.noted _ huses
    obtain ⟨c, hc, heq⟩ := List.mem_map.1 huses
    obtain ⟨n, hn, hok, hnc⟩ := hm.noted c hc
    rw [heq] at hn
    have hrelease := bytes_release hm.nodup hc
    rw [heq] at hrelease
    have htotal := hm.total
    have hle := hok.le
    have hused := hm.used_le
    have hbytes := hm.bytes_le
    have hint := toInt_setWidth hok
    have hchecked : checked (m.totalSize - (n.setWidth 32).toInt) =
        some (m.totalSize - (n.setWidth 32).toInt) := by
      rw [maxHeap] at hused
      exact checked_of_le (by omega) (by omega)
    dsimp only
    rw [Blocks.getSize, if_pos hop.bounds, Blocks.getPtr, if_pos hop.bounds, hn, hptr]
    dsimp only
    rw [hchecked, show cost op = 0 from if_pos htype]
    refine ⟨_, blocks, rfl, ⟨hm.placed.mono (List.filter_sublist.map _).subset,
      release_nodup hm.nodup, fun b hb ↦ hm.noted b (mem_release.1 hb).1, ?_, ?_, hused⟩, ?_⟩
    · show m.totalSize - (n.setWidth 32).toInt = _
      omega
    · omega
    · show m.maxTotalSize = _
      omega

/-- The requests of a trace, from a state in which `used` bytes are taken. -/
structure MeasurableAll (numIds : BitVec 32) (used : ℕ) (ops : List TraceOp) : Prop where
  bounds : ∀ op ∈ ops, InBounds numIds op.index
  size : ∀ op ∈ ops, op.type ≠ .free → 0 < op.size.toInt
  room : used + demand ops ≤ maxHeap

theorem MeasurableAll.cons {ops : List TraceOp} (h : MeasurableAll numIds used (op :: ops)) :
    Measurable numIds used op ∧ MeasurableAll numIds (used + cost op) ops := by
  have hdemand : demand (op :: ops) = cost op + demand ops := rfl
  have hroom := h.room
  exact ⟨⟨h.bounds op List.mem_cons_self, h.size op List.mem_cons_self, by omega⟩,
    ⟨fun o ho ↦ h.bounds o (List.mem_cons_of_mem _ ho),
      fun o ho ↦ h.size o (List.mem_cons_of_mem _ ho), by omega⟩⟩

/-- **The loop of `eval_mm_util`.** -/
theorem Counted.run (ops : List TraceOp) : ∀ {m : Measured abi Unit} {used : ℕ} {live : Live}
    {blocks : List Block}, Counted m used live blocks → (live.bytes : ℤ) ≤ m.maxTotalSize →
    MeasurableAll numIds used ops → requests live ops = some live' →
    ∃ m' blocks', utilLoop (mmPackage abi) numIds ops m = .ok m' ∧
      Counted m' (used + demand ops) live' blocks' ∧
      m'.maxTotalSize = max m.maxTotalSize (peak live ops) := by
  induction ops with
  | nil =>
    intro m used live blocks hm hmax _ hrequests
    obtain rfl := Option.some.inj hrequests
    exact ⟨m, blocks, rfl, hm, (max_eq_left hmax).symm⟩
  | cons op ops ih =>
    intro m used live blocks hm hmax hops hrequests
    obtain ⟨live₁, hrequest, hrequests⟩ := requests_cons.1 hrequests
    obtain ⟨hop, hops⟩ := hops.cons
    obtain ⟨m₁, blocks₁, hstep, hm₁, hmax₁⟩ := hm.step hmax hop hrequest
    have hle : (live₁.bytes : ℤ) ≤ m₁.maxTotalSize := hmax₁ ▸ le_max_right _ _
    obtain ⟨m', blocks', hloop, hm', hmax'⟩ := ih hm₁ hle hops hrequests
    refine ⟨m', blocks', ?_, ?_, ?_⟩
    · rw [utilLoop, hstep]
      exact hloop
    · rw [show demand (op :: ops) = cost op + demand ops from rfl, ← Nat.add_assoc]
      exact hm'
    · have hpeak := bytes_le_peak live₁ ops
      rw [hmax', hmax₁, peak_cons hrequest]
      omega

theorem counted_reset {w : World Unit} (hw : Initialized w.heap) (bs : Blocks abi) :
    Counted ⟨⟨memResetBrk w.heap, ()⟩, bs, 0, 0⟩ 0 [] [] where
  placed := placed_reset hw _
  nodup := .nil
  noted := by simp
  total := rfl
  bytes_le := le_rfl
  used_le := Nat.zero_le _

/-- A trace cannot have more in use than it takes from the heap. -/
theorem peak_le_demand (ops : List TraceOp) : ∀ (live : Live) {used : ℕ},
    (live.map Prod.fst).Nodup → live.bytes ≤ used → (requests live ops).isSome →
    peak live ops ≤ used + demand ops := by
  induction ops with
  | nil => exact fun _ _ _ hle _ ↦ hle
  | cons op ops ih =>
    intro live used hnodup hle hsome
    obtain ⟨live', hrequests⟩ := Option.isSome_iff_exists.1 hsome
    obtain ⟨live₁, hrequest, hrequests⟩ := requests_cons.1 hrequests
    have hdemand : demand (op :: ops) = cost op + demand ops := rfl
    have hstep : (live₁.map Prod.fst).Nodup ∧ live₁.bytes ≤ used + cost op := by
      have hrounded : op.size.toNat ≤ rounded op.size.toNat := by rw [rounded]; omega
      cases htype : op.type with
      | alloc =>
        obtain ⟨huses, rfl⟩ := (request_of_alloc htype).1 hrequest
        have hcost : cost op = rounded op.size.toNat := by simp [cost, htype]
        have hbytes : Live.bytes ((op.index.toNat, op.size.toNat) :: live) =
          op.size.toNat + live.bytes := rfl
        exact ⟨List.nodup_cons.2 ⟨huses, hnodup⟩, by omega⟩
      | realloc =>
        obtain ⟨huses, rfl⟩ := (request_of_realloc htype).1 hrequest
        obtain ⟨c, hc, heq⟩ := List.mem_map.1 huses
        have hrelease := bytes_release hnodup hc
        rw [heq] at hrelease
        have hcost : cost op = rounded op.size.toNat := by simp [cost, htype]
        have hbytes : Live.bytes ((op.index.toNat, op.size.toNat) :: live.release op.index.toNat) =
          op.size.toNat + (live.release op.index.toNat).bytes := rfl
        exact ⟨List.nodup_cons.2 ⟨not_uses_release, release_nodup hnodup⟩, by omega⟩
      | free =>
        obtain ⟨huses, rfl⟩ := (request_of_free htype).1 hrequest
        obtain ⟨c, hc, heq⟩ := List.mem_map.1 huses
        have hrelease := bytes_release hnodup hc
        rw [heq] at hrelease
        exact ⟨release_nodup hnodup, by omega⟩
    have hrest := ih live₁ hstep.1 hstep.2 (Option.isSome_iff_exists.2 ⟨live', hrequests⟩)
    rw [peak_cons hrequest]
    omega

/-! ### Timing `mm.c` -/

/-- **One request of a run that is timed.** -/
theorem Placed.speed {w : World Unit} {bs : Blocks abi}
    (hp : Placed abi w.heap bs.ptr used (live.map Prod.fst) blocks)
    (hop : Measurable numIds used op) (hrequest : request live op = some live') :
    ∃ w' bs' blocks', speedStep (mmPackage abi) numIds op (w, bs) = .ok (w', bs') ∧
      Placed abi w'.heap bs'.ptr (used + cost op) (live'.map Prod.fst) blocks' := by
  rw [speedStep]
  cases htype : op.type with
  | alloc =>
    obtain ⟨huses, rfl⟩ := (request_of_alloc htype).1 hrequest
    have hfree : op.type ≠ .free := by simp [htype]
    have hcost : cost op = rounded op.size.toNat := if_neg hfree
    have hnat := toNat_signExtend abi (hop.size hfree)
    obtain ⟨mem, hmalloc, hmem⟩ := hp.malloc (hop.size hfree) (hcost ▸ hop.room)
    have hadd := hp.add (sizeOk_signExtend abi (hop.size hfree)) (hnat.symm ▸ hmem) op.index.toNat
    rw [hnat] at hadd
    dsimp only
    rw [hmalloc, hcost]
    dsimp only
    rw [Blocks.setPtr, if_pos hop.bounds, Option.elim_some]
    exact ⟨_, _, _, rfl, hadd⟩
  | realloc =>
    obtain ⟨huses, rfl⟩ := (request_of_realloc htype).1 hrequest
    have hfree : op.type ≠ .free := by simp [htype]
    have hcost : cost op = rounded op.size.toNat := if_neg hfree
    have hnat := toNat_signExtend abi (hop.size hfree)
    obtain ⟨b, hb, hptr⟩ := hp.noted _ huses
    obtain ⟨mem, hrealloc, hmem, -⟩ := hp.realloc (hop.size hfree) (hcost ▸ hop.room) hb
    have hadd := hp.add (sizeOk_signExtend abi (hop.size hfree)) (hnat.symm ▸ hmem) op.index.toNat
    rw [hnat] at hadd
    dsimp only
    rw [Blocks.getPtr, if_pos hop.bounds, hptr, hcost]
    dsimp only
    rw [hrealloc]
    dsimp only
    rw [Blocks.setPtr, if_pos hop.bounds, Option.elim_some]
    refine ⟨_, _, _, rfl, hadd.mono ?_⟩
    exact List.cons_subset_cons _ (List.filter_sublist.map _).subset
  | free =>
    obtain ⟨huses, rfl⟩ := (request_of_free htype).1 hrequest
    obtain ⟨b, hb, hptr⟩ := hp.noted _ huses
    dsimp only
    rw [Blocks.getPtr, if_pos hop.bounds, hptr, show cost op = 0 from if_pos htype]
    exact ⟨_, _, blocks, rfl, hp.mono (List.filter_sublist.map _).subset⟩

theorem Placed.speedRun (ops : List TraceOp) : ∀ {w : World Unit} {bs : Blocks abi} {used : ℕ}
    {live : Live} {blocks : List Block},
    Placed abi w.heap bs.ptr used (live.map Prod.fst) blocks → MeasurableAll numIds used ops →
    requests live ops = some live' →
    ∃ w' bs' blocks', ops.foldlM (fun wb op ↦ speedStep (mmPackage abi) numIds op wb) (w, bs) =
        .ok (w', bs') ∧
      Placed abi w'.heap bs'.ptr (used + demand ops) (live'.map Prod.fst) blocks' := by
  induction ops with
  | nil =>
    intro w bs used live blocks hp _ hrequests
    obtain rfl := Option.some.inj hrequests
    exact ⟨w, bs, blocks, rfl, hp⟩
  | cons op ops ih =>
    intro w bs used live blocks hp hops hrequests
    obtain ⟨live₁, hrequest, hrequests⟩ := requests_cons.1 hrequests
    obtain ⟨hop, hops⟩ := hops.cons
    obtain ⟨w₁, bs₁, blocks₁, hstep, hp₁⟩ := hp.speed hop hrequest
    obtain ⟨w', bs', blocks', hloop, hp'⟩ := ih hp₁ hops hrequests
    refine ⟨w', bs', blocks', ?_, ?_⟩
    · rw [List.foldlM_cons, hstep]
      exact hloop
    · rw [show demand (op :: ops) = cost op + demand ops from rfl, ← Nat.add_assoc]
      exact hp'

/-! ### The traces that `mm.c` does not pass -/

/-- A trace whose indices lie in the arrays, whose sizes are positive, and which is proper. -/
structure WellFormed (trace : Trace) : Prop where
  bounds : ∀ op ∈ trace.ops, InBounds trace.numIds op.index
  size : ∀ op ∈ trace.ops, op.type ≠ .free → 0 < op.size.toInt
  proper : Proper trace.ops

/-- In a proper trace only indices that have been allocated are freed or reallocated. -/
theorem allocatedFirst_of_requests (ops : List TraceOp) : ∀ (live : Live) {written : List ℕ},
    (∀ i, live.Uses i → i ∈ written) → (requests live ops).isSome → AllocatedFirst written ops := by
  induction ops with
  | nil => exact fun _ _ _ _ ↦ trivial
  | cons op ops ih =>
    intro live written hsub hsome
    obtain ⟨live', hrequests⟩ := Option.isSome_iff_exists.1 hsome
    obtain ⟨live₁, hrequest, hrequests⟩ := requests_cons.1 hrequests
    have hrest : live.Uses op.index.toNat ∨ op.type = .alloc := by
      cases htype : op.type with
      | alloc => exact .inr rfl
      | realloc => exact .inl ((request_of_realloc htype).1 hrequest).1
      | free => exact .inl ((request_of_free htype).1 hrequest).1
    have hkept : ∀ i, live₁.Uses i → i = op.index.toNat ∨ live.Uses i := by
      intro i hi
      obtain ⟨b, hb, rfl⟩ := List.mem_map.1 hi
      cases htype : op.type with
      | alloc =>
        obtain ⟨-, rfl⟩ := (request_of_alloc htype).1 hrequest
        exact (List.mem_cons.1 hb).imp (congrArg Prod.fst) uses_of_mem
      | realloc =>
        obtain ⟨-, rfl⟩ := (request_of_realloc htype).1 hrequest
        exact (List.mem_cons.1 hb).imp (congrArg Prod.fst) fun hb ↦ uses_of_mem (mem_release.1 hb).1
      | free =>
        obtain ⟨-, rfl⟩ := (request_of_free htype).1 hrequest
        exact .inr (uses_of_mem (mem_release.1 hb).1)
    refine ⟨hrest.symm.imp id (hsub _), ih live₁ (fun i hi ↦ ?_)
      (Option.isSome_iff_exists.2 ⟨live', hrequests⟩)⟩
    exact (hkept i hi).elim (· ▸ List.mem_cons_self) fun h ↦ List.mem_cons_of_mem _ (hsub i h)

/-- **A request that is not served** ends the check with the return of 0. -/
theorem Filled.refuse {d : Driver abi Unit} {written : List ℕ} (hf : Filled d used written blocks)
    (tracenum opnum : ℕ) (hbounds : InBounds numIds op.index)
    (hsize : op.type ≠ .free → 0 < op.size.toInt)
    (horder : op.type = .alloc ∨ op.index.toNat ∈ written)
    (hserved : ¬ Served numIds used written op) :
    ∃ report w ranges, validStep (mmPackage abi) tracenum opnum numIds op d =
      .error (.invalid report w ranges) ∧ Initialized w.heap := by
  have hinit := hf.placed.initialized
  rw [validStep]
  cases htype : op.type with
  | alloc =>
    have hpos := hsize (by simp [htype])
    have hroom : ¬ used + rounded op.size.toNat ≤ maxHeap := fun hroom ↦ hserved
      ⟨hbounds, hsize, fun h ↦ (show cost op = _ from if_neg h) ▸ hroom, by simp [htype], horder⟩
    dsimp only
    rw [hf.placed.malloc_failed hpos hroom]
    exact ⟨_, _, _, rfl, hinit⟩
  | realloc =>
    have hpos := hsize (by simp [htype])
    have hi := horder.resolve_left (by simp [htype])
    obtain ⟨b, hb, n, hptr, hn, hok, -⟩ := hf.filled _ hi
    dsimp only
    rw [Blocks.getPtr, if_pos hbounds, hptr]
    dsimp only
    by_cases hroom : used + rounded op.size.toNat ≤ maxHeap
    · -- the comparison fails at the first byte
      have hbyte : ¬ op.index.toNat % 256 < 128 := fun hbyte ↦ hserved
        ⟨hbounds, hsize, fun h ↦ (show cost op = _ from if_neg h) ▸ hroom, fun _ ↦ hbyte, horder⟩
      obtain ⟨mem, hrealloc, -, -⟩ := hf.placed.realloc hpos hroom hb
      have hnot : preserved (d.world.heap.memBrk + 8) op n
          (⟨withBlock abi d.world.heap op.size.toNat mem, ()⟩ : World Unit) = false := by
        refine Bool.eq_false_iff.2 fun hpreserved ↦ hbyte ?_
        obtain ⟨hcast, -⟩ := toNat_of_toInt_pos hpos
        have hone := hok.one_le
        exact ((preserved_iff hpos hok).1 hpreserved 0 (by omega)).2
      rw [hrealloc]
      dsimp only
      refine ⟨_, _, _, accept_of_not_preserved (hf.fits hpos List.eraseP_subset) ?_,
        hinit.aligned, hinit.limit⟩
      dsimp only
      rw [Blocks.getSize, if_pos hbounds, hn, Option.map_some, hnot]
    · rw [hf.placed.realloc_failed hpos hroom]
      exact ⟨_, _, _, rfl, hinit⟩
  | free =>
    refine absurd ?_ hserved
    exact ⟨hbounds, hsize, by simp [htype], by simp [htype], horder⟩

/-- **The check of a well-formed trace** returns 1 or 0, and leaves the memory system in order. -/
theorem Filled.verdict (tracenum : ℕ) (ops : List TraceOp) :
    ∀ (opnum : ℕ) {d : Driver abi Unit} {used : ℕ} {written : List ℕ} {blocks : List Block},
      Filled d used written blocks → (∀ op ∈ ops, InBounds numIds op.index) →
      (∀ op ∈ ops, op.type ≠ .free → 0 < op.size.toInt) → AllocatedFirst written ops →
      (∃ d', validLoop (mmPackage abi) tracenum numIds opnum ops d = .ok d' ∧
        Initialized d'.world.heap) ∨
      ∃ report w ranges, validLoop (mmPackage abi) tracenum numIds opnum ops d =
        .error (.invalid report w ranges) ∧ Initialized w.heap := by
  induction ops with
  | nil =>
    intro opnum d used written blocks hf _ _ _
    exact .inl ⟨d, rfl, hf.placed.initialized⟩
  | cons op ops ih =>
    intro opnum d used written blocks hf hbounds hsize horder
    obtain ⟨hbounds₁, hbounds⟩ := List.forall_mem_cons.1 hbounds
    obtain ⟨hsize₁, hsize⟩ := List.forall_mem_cons.1 hsize
    obtain ⟨horder₁, horder⟩ := horder
    rw [validLoop]
    by_cases hserved : Served numIds used written op
    · obtain ⟨d₁, blocks', hpasses, hf₁⟩ := hf.serve hserved
      rw [validStep_eq_ok.2 hpasses]
      exact ih (opnum + 1) hf₁ hbounds hsize horder
    · obtain ⟨report, w, ranges, hstep, hw⟩ := hf.refuse tracenum opnum
        hbounds₁ hsize₁ horder₁ hserved
      rw [hstep]
      exact .inr ⟨report, w, ranges, rfl, hw⟩

/-! ### What is found -/

variable {trace : Trace}

theorem WellFormed.definite (ht : WellFormed trace) : Definite trace :=
  ⟨ht.bounds, allocatedFirst_of_requests trace.ops [] (by simp [Live.Uses]) ht.proper⟩

theorem WellFormed.passable_iff (ht : WellFormed trace) :
    Passable trace.numIds 0 [] trace.ops ↔ Suits trace :=
  ht.definite.passable_iff.trans (and_iff_right ht.size)

theorem WellFormed.measurable (ht : WellFormed trace) (hsuits : Suits trace) :
    MeasurableAll trace.numIds 0 trace.ops :=
  ⟨ht.bounds, ht.size, by have := hsuits.1; omega⟩

/-- **The verdict on a well-formed trace.** -/
theorem WellFormed.verdict (ht : WellFormed trace) (abi : Abi) (tracenum : ℕ) {w : World Unit}
    (hw : Initialized w.heap) (ranges : List Range) :
    (Suits trace ∧ ∃ d', evalMmValid (mmPackage abi) trace tracenum ⟨w, ranges, .fresh⟩ = .ok d' ∧
      Initialized d'.world.heap) ∨
    ¬ Suits trace ∧ ∃ report w' ranges',
      evalMmValid (mmPackage abi) trace tracenum ⟨w, ranges, .fresh⟩ =
        .error (.invalid report w' ranges') ∧ Initialized w'.heap := by
  have hf := filled_reset abi hw
  have hiff := (hf.run tracenum trace.ops 0 (Nat.zero_le _)).trans
    ht.passable_iff
  rcases hf.verdict tracenum trace.ops 0 ht.bounds ht.size ht.definite.order with
    ⟨d', hloop, hw'⟩ | ⟨report, w', ranges', hloop, hw'⟩
  · exact .inl ⟨hiff.1 ⟨d', hloop⟩, d', hloop, hw'⟩
  · refine .inr ⟨fun hsuits ↦ ?_, report, w', ranges', hloop, hw'⟩
    obtain ⟨d', hok⟩ := hiff.2 hsuits
    exact absurd (hloop.symm.trans hok) (by simp)

/-- The space measurement of a trace that suits. -/
theorem WellFormed.measured (ht : WellFormed trace) (hsuits : Suits trace) {w : World Unit}
    (hw : Initialized w.heap) (bs : Blocks abi) :
    ∃ m, evalMmUtil (mmPackage abi) trace w bs = .ok m ∧ Initialized m.world.heap ∧
      m.maxTotalSize = peak [] trace.ops ∧ memHeapsize m.world.heap = demand trace.ops := by
  obtain ⟨live, hlive⟩ := Option.isSome_iff_exists.1 ht.proper
  obtain ⟨m, blocks, hloop, hm, hmax⟩ :=
    (counted_reset hw bs).run trace.ops le_rfl (ht.measurable hsuits) hlive
  refine ⟨m, hloop, hm.placed.initialized, ?_, ?_⟩
  · rw [hmax]
    exact max_eq_right (Int.natCast_nonneg _)
  · have hbrk := hm.placed.brk
    rw [memHeapsize]
    omega

/-- The runs that are timed. -/
theorem fsecs_evalMmSpeed (ht : WellFormed trace) (hsuits : Suits trace) {w : World Unit}
    (hw : Initialized w.heap) (bs : Blocks abi) : ∃ w' bs',
      fsecs (evalMmSpeed (mmPackage abi) trace) (w, bs) = .ok (w', bs') ∧ Initialized w'.heap := by
  obtain ⟨live, hlive⟩ := Option.isSome_iff_exists.1 ht.proper
  rw [fsecs]
  generalize List.range 10 = turns
  induction turns generalizing w bs with
  | nil => exact ⟨w, bs, rfl, hw⟩
  | cons _ turns ih =>
    have hreset : Placed abi (⟨memResetBrk w.heap, ()⟩ : World Unit).heap bs.ptr 0
      (([] : Live).map Prod.fst) [] := placed_reset hw _
    obtain ⟨w₁, bs₁, blocks, hspeed, hp⟩ :=
      hreset.speedRun trace.ops (ht.measurable hsuits) hlive
    obtain ⟨w', bs', hrest, hw'⟩ := ih hp.initialized bs₁
    refine ⟨w', bs', ?_, hw'⟩
    have hrun : evalMmSpeed (mmPackage abi) trace (w, bs) = .ok (w₁, bs₁) := hspeed
    rw [List.foldlM_cons, hrun]
    exact hrest

/-- **The measurements of `mm.c`.** When a well-formed trace has passed, `eval_mm_util` and then the
ten runs of `eval_mm_speed` make all their calls without a failure. The result of `eval_mm_util` is
the largest number of bytes in use at once over what the blocks take from the heap together, which
is not smaller. -/
theorem eval_mm_util_spec (abi : Abi) {trace : Trace} (ht : WellFormed trace) {tracenum : ℕ}
    {w : World Unit} (hw : Initialized w.heap) {ranges : List Range} {d' : Driver abi Unit}
    (hvalid : evalMmValid (mmPackage abi) trace tracenum ⟨w, ranges, .fresh⟩ = .ok d') :
    ∃ m, evalMmUtil (mmPackage abi) trace d'.world d'.blocks = .ok m ∧
      m.maxTotalSize = peak [] trace.ops ∧ memHeapsize m.world.heap = demand trace.ops ∧
      peak [] trace.ops ≤ demand trace.ops ∧
      ∃ r, fsecs (evalMmSpeed (mmPackage abi) trace) (m.world, m.blocks) = .ok r := by
  rcases ht.verdict abi tracenum hw ranges with
    ⟨hsuits, d₁, hok, hd₁⟩ | ⟨-, report, w', ranges', herror, -⟩
  · obtain rfl := Except.ok.inj (hok.symm.trans hvalid)
    obtain ⟨m, hutil, hm, hmax, hsize⟩ := ht.measured hsuits hd₁ d₁.blocks
    obtain ⟨w', bs', hspeed, -⟩ := fsecs_evalMmSpeed ht hsuits hm m.blocks
    have hpeak := peak_le_demand trace.ops [] .nil (Nat.zero_le 0) ht.proper
    exact ⟨m, hutil, hmax, hsize, by omega, _, hspeed⟩
  · exact absurd (herror.symm.trans hvalid) (by simp)

theorem wellFormed_regrown : WellFormed (regrown 127) := ⟨by decide, by decide, by decide⟩

/-- 9 bytes in use, of 40 that are taken. -/
theorem eval_mm_util_spec_regrown : ∃ d' : Driver .ilp32 Unit,
    ∃ m, evalMmUtil (mmPackage .ilp32) (regrown 127) d'.world d'.blocks = .ok m ∧
      m.maxTotalSize = 9 ∧ memHeapsize m.world.heap = 40 ∧ 9 ≤ 40 ∧
      ∃ r, fsecs (evalMmSpeed (mmPackage .ilp32) (regrown 127)) (m.world, m.blocks) = .ok r := by
  obtain ⟨d', hvalid⟩ : ∃ d', evalMmValid (mmPackage .ilp32) (regrown 127) 0
      ⟨⟨memInit 4096 fun _ ↦ 0, ()⟩, [], .fresh⟩ = .ok d' := ⟨_, rfl⟩
  exact ⟨d', eval_mm_util_spec .ilp32 wellFormed_regrown ⟨by decide, rfl⟩ hvalid⟩

end CsappCode.MallocLab.Mdriver
