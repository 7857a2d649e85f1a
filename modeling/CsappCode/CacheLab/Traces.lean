import CsappCode.CacheLab.Refinement

/-!
# The whole simulator on 64-bit traces

`Operation.address` is a `long`, but `main` passes it for the `int` parameter of `process`, which
keeps 32 bits. The reference here works with the full addresses: an access is to the block
`address >>> b` of the 64-bit address.

* `replay_eq` says that the loop of `main` is a run of `process` on the accesses of the trace, each
  cut to an `int`.
* `SummaryCorrect` and `PlacesApart` are the two halves of what a simulator of 64-bit traces owes:
  the totals, and that no two blocks are taken for one.
* `summary_correct_iff` says they hold of precisely the traces in which no two accessed blocks agree
  on the bits `b` to `31` and differ above (`BlocksApart`).
* `farLoads_merged` is a trace of two loads on which the totals are wrong.

## What the results rest on

**What the cut does to a trace** is exactly to merge blocks. It keeps the set index, which lies in
the low 32 bits (`place_fst_cut`), and blocks that are equal stay equal (`cut_shift_eq`). So if no
two blocks are merged the cut trace has the outcomes of the full one (`referenceOutcomes_cut`), and
the refinement of the LRU cache gives the totals.

**Assumed** are the four letters of valgrind's format, a geometry for which the shifts are defined,
and fewer than `2 ^ 31` accesses, which is what the ages can hold. A modify counts for two accesses,
an instruction fetch for none.
-/

namespace CsappCode.CacheLab

open Recency (outcomes hits misses evictions)

/-! ### The replay loop is a run of `process` -/

/-- The four operations of a valgrind trace. -/
def traceOps : List UInt8 := ['I'.toUInt8, 'L'.toUInt8, 'S'.toUInt8, 'M'.toUInt8]

/-- The accesses an operation makes: none to fetch an instruction, one to load or to store, two to
modify. -/
def Operation.accesses (o : Operation) : List (BitVec 64) :=
  if o.op = 'I'.toUInt8 then []
  else if o.op = 'M'.toUInt8 then [o.address, o.address]
  else [o.address]

/-- The accesses of a trace, in order. -/
def accesses (ops : List Operation) : List (BitVec 64) := ops.flatMap Operation.accesses

/-- The `int` that `process` receives for a `long`. -/
def toInt32 (address : BitVec 64) : BitVec 32 := address.setWidth 32

/-- The state after a run of `process`, as the loop of `main` sees it. -/
def ofRun : Option (Simulator × List Recency.Outcome) → Except Stop Simulator
  | some (st, _) => .ok st
  | none => .error .undefinedBehaviour

theorem processAll_append (args : Arguments) (xs ys : List (BitVec 32)) :
    ∀ st, ofRun (processAll args st (xs ++ ys)) =
      (ofRun (processAll args st xs)).bind fun st ↦ ofRun (processAll args st ys) := by
  induction xs with
  | nil => intro st; rfl
  | cons x xs ih =>
    intro st
    rw [List.cons_append, processAll, processAll]
    rcases process args st x with - | ⟨st₁, o⟩
    · rfl
    · have h := ih st₁
      simp only [Option.bind_eq_bind, Option.bind_some]
      rcases h₁ : processAll args st₁ xs with - | ⟨st₂, os⟩
      · rw [h₁] at h
        rcases h₂ : processAll args st₁ (xs ++ ys) with - | p
        · rfl
        · rw [h₂] at h; exact absurd h (by simp [ofRun, Except.bind])
      · rw [h₁] at h
        rcases h₂ : processAll args st₁ (xs ++ ys) with - | p
        · rw [h₂] at h; exact h
        · rw [h₂] at h; exact h

/-- One turn of the loop is `process` on the operation's accesses. -/
theorem replayOperation_eq (args : Arguments) (st : Simulator) {o : Operation}
    (ho : o.op ∈ traceOps) :
    replayOperation args st o = ofRun (processAll args st (o.accesses.map toInt32)) := by
  have hcall : ∀ st a, callProcess args st a = ofRun (processAll args st [toInt32 a]) := by
    intro st a
    rw [callProcess, processAll, toInt32]
    rcases process args st (a.setWidth 32) with - | ⟨st₁, o₁⟩ <;> rfl
  rw [replayOperation, Operation.accesses]
  split_ifs with hI hM hL hS
  · rfl
  · -- a modify is two calls, so its run is cut in two
    have happ := processAll_append args [toInt32 o.address] [toInt32 o.address] st
    rw [List.map_cons, List.map_singleton]
    refine Eq.trans ?_ happ.symm
    rw [hcall]
    simp only [hcall]
    rfl
  · exact hcall st o.address
  · exact hcall st o.address
  · simp only [traceOps, List.mem_cons, List.not_mem_nil, or_false] at ho
    rcases ho with h | h | h | h
    · exact absurd h hI
    · exact absurd h hL
    · exact absurd h hS
    · exact absurd h hM

/-- **The replay loop** is `process` on the accesses of the trace, each cut to an `int`. -/
theorem replay_eq (args : Arguments) (ops : List Operation) (hops : ∀ o ∈ ops, o.op ∈ traceOps) :
    ∀ st, replay args st ops = ofRun (processAll args st ((accesses ops).map toInt32)) := by
  induction ops with
  | nil => intro st; rfl
  | cons o ops ih =>
    intro st
    have ih' := ih fun o' ho' ↦ hops o' (List.mem_cons_of_mem _ ho')
    rw [replay, replayOperation_eq args st (hops o List.mem_cons_self), accesses,
      List.flatMap_cons, List.map_append, processAll_append]
    simp only [ih']
    rfl

/-! ### The two halves of the statement -/

/-- The outcomes of the reference that places full 64-bit addresses. -/
def wideOutcomes (args : Arguments) (ops : List Operation) : List Recency.Outcome :=
  outcomes args.E Recency.empty ((accesses ops).map fun a ↦ place args a.toInt)

/-- The totals `main` hands to `printSummary` are the reference's. -/
def SummaryCorrect (args : Arguments) (ops : List Operation) : Prop :=
  ∃ h m e, summary args ops = .ok (h, m, e) ∧ h.toInt = hits (wideOutcomes args ops) ∧
    m.toInt = misses (wideOutcomes args ops) ∧ e.toInt = evictions (wideOutcomes args ops)

/-- `process` places two accesses of the trace in one set under one tag only if their 64-bit block
numbers are equal. -/
def PlacesApart (args : Arguments) (ops : List Operation) : Prop :=
  ∀ x ∈ accesses ops, ∀ y ∈ accesses ops,
    decompose args (toInt32 x) = decompose args (toInt32 y) →
      block args.b x.toInt = block args.b y.toInt

/-- No two accessed addresses agree on the bits `b` to `31` and differ above them. -/
def BlocksApart (b : ℕ) (ops : List Operation) : Prop :=
  ∀ x ∈ accesses ops, ∀ y ∈ accesses ops, toInt32 x >>> b = toInt32 y >>> b → x >>> b = y >>> b

/-! ### Blocks of cut addresses -/

/-- Two addresses are in one block when they agree from bit `b` up. -/
theorem block_eq_iff {w b : ℕ} (hb : b < w) (x y : BitVec w) :
    block b x.toInt = block b y.toInt ↔ x >>> b = y >>> b := by
  have hblock : ∀ z : BitVec w, block b z.toInt = (z.sshiftRight b).toInt := fun z ↦ by
    rw [BitVec.toInt_sshiftRight]; rfl
  rw [hblock, hblock, BitVec.toInt_inj]
  refine ⟨fun h ↦ ?_, fun h ↦ ?_⟩
  · refine BitVec.eq_of_getLsbD_eq fun i hi ↦ ?_
    have hbit := congrArg (fun z ↦ z.getLsbD i) h
    simp only [BitVec.getLsbD_sshiftRight] at hbit
    rw [BitVec.getLsbD_ushiftRight, BitVec.getLsbD_ushiftRight]
    rcases Nat.lt_or_ge (b + i) w with hlt | hge
    · simpa [hlt, Nat.not_le.2 hi] using hbit
    · rw [BitVec.getLsbD_of_ge _ _ hge, BitVec.getLsbD_of_ge _ _ hge]
  · have hbit : ∀ i, x.getLsbD (b + i) = y.getLsbD (b + i) := fun i ↦ by
      have := congrArg (fun z ↦ z.getLsbD i) h
      simpa only [BitVec.getLsbD_ushiftRight] using this
    -- the shift of a signed operand copies the top bit, which is one of those that agree
    have hmsb : x.msb = y.msb := by
      rw [BitVec.msb_eq_getLsbD_last, BitVec.msb_eq_getLsbD_last,
        show w - 1 = b + (w - 1 - b) by omega, hbit]
    refine BitVec.eq_of_getLsbD_eq fun i hi ↦ ?_
    simp only [BitVec.getLsbD_sshiftRight, hbit, hmsb]

/-- Equal blocks stay equal when the addresses are cut. -/
theorem cut_shift_eq {b : ℕ} {x y : BitVec 64} (h : x >>> b = y >>> b) :
    toInt32 x >>> b = toInt32 y >>> b := by
  refine BitVec.eq_of_getLsbD_eq fun i hi ↦ ?_
  have hbit := congrArg (fun z ↦ z.getLsbD i) h
  simp only [BitVec.getLsbD_ushiftRight] at hbit
  simp only [toInt32, BitVec.getLsbD_ushiftRight, BitVec.getLsbD_setWidth, hbit]

/-- On a geometry, `process` tells two addresses apart exactly as their blocks do. -/
theorem decompose_eq_iff (G : Geometry) (x y : BitVec 32) :
    decompose G.toArguments x = decompose G.toArguments y ↔
      block G.b x.toInt = block G.b y.toInt := by
  obtain ⟨ix, tx, hx, hix, htx⟩ := decompose_eq G x
  obtain ⟨iy, ty, hy, hiy, hty⟩ := decompose_eq G y
  rw [hx, hy, ← place_eq_iff G.toArguments, Option.some.injEq, Prod.mk.injEq, Prod.ext_iff, ← hix,
    ← hiy, ← htx, ← hty, BitVec.toInt_inj, Nat.cast_inj, BitVec.toNat_inj]

theorem ediv_emod_eq (x m n : ℤ) (hm : 0 < m) : x / m % n = x % (m * n) / m := by
  rw [Int.emod_def, Int.emod_def, mul_assoc, Int.sub_mul_ediv_left _ _ hm.ne',
    Int.ediv_ediv_of_nonneg hm.le]

/-- The set index lies within the low 32 bits, so cutting does not change it. -/
theorem place_fst_cut (G : Geometry) (x : BitVec 64) :
    (place G.toArguments (toInt32 x).toInt).1 = (place G.toArguments x.toInt).1 := by
  have hsum := G.sum_le
  have hlow : (toInt32 x).toInt % (2 ^ G.b * 2 ^ G.s) = x.toInt % (2 ^ G.b * 2 ^ G.s) := by
    have hmod : x.toNat % 2 ^ 32 % 2 ^ (G.b + G.s) = x.toNat % 2 ^ (G.b + G.s) :=
      Nat.mod_mod_of_dvd _ (pow_dvd_pow 2 (by omega))
    rw [← pow_add, toInt_emod_two_pow (by omega), toInt_emod_two_pow (by omega), toInt32,
      BitVec.toNat_setWidth]
    exact_mod_cast hmod
  simp only [place, block, Int.shiftRight_eq_div_pow]
  push_cast
  rw [ediv_emod_eq _ _ _ (by positivity), ediv_emod_eq _ _ _ (by positivity), hlow]

/-! ### Exactly which traces are simulated right -/

/-- Where no blocks are merged, the cut trace has the outcomes of the full one. -/
theorem referenceOutcomes_cut (G : Geometry) {ops : List Operation} (h : BlocksApart G.b ops) :
    referenceOutcomes G.toArguments ((accesses ops).map toInt32) =
      wideOutcomes G.toArguments ops := by
  have hb := G.sum_le
  rw [referenceOutcomes, List.map_map]
  refine Recency.outcomes_congr _ (fun x _ ↦ place_fst_cut G x) fun x hx y hy ↦ ?_
  rw [Function.comp_apply, Function.comp_apply, place_eq_iff, place_eq_iff,
    block_eq_iff (by omega), block_eq_iff (by omega)]
  exact ⟨h x hx y hy, cut_shift_eq⟩

/-- The totals where no blocks are merged. -/
theorem summaryCorrect_of_blocksApart (G : Geometry) {ops : List Operation}
    (hops : ∀ o ∈ ops, o.op ∈ traceOps) (hlen : (accesses ops).length < 2 ^ 31)
    (h : BlocksApart G.b ops) : SummaryCorrect G.toArguments ops := by
  obtain ⟨st, hrun, -, hhit, hmiss, hevict⟩ :=
    @exists_run G ((accesses ops).map toInt32) (by rwa [List.length_map])
  rw [referenceOutcomes_cut G h] at hrun hhit hmiss hevict
  refine ⟨st.hitCount, st.missCount, st.evictionCount, ?_, hhit, hmiss, hevict⟩
  rw [summary, replay_eq _ _ hops, hrun]
  rfl

/-- **The simulator on 64-bit traces.** Totals and placement are right exactly when no two accessed
addresses agree on the bits `b` to `31` and differ above them. -/
theorem summary_correct_iff (G : Geometry) (ops : List Operation)
    (hops : ∀ o ∈ ops, o.op ∈ traceOps) (hlen : (accesses ops).length < 2 ^ 31) :
    SummaryCorrect G.toArguments ops ∧ PlacesApart G.toArguments ops ↔ BlocksApart G.b ops := by
  have hb : G.b < 32 := by have := G.sum_le; omega
  constructor
  · rintro ⟨-, hplaces⟩ x hx y hy hxy
    rw [← block_eq_iff (by omega)]
    refine hplaces x hx y hy ?_
    rw [decompose_eq_iff, block_eq_iff hb]
    exact hxy
  · intro h
    refine ⟨summaryCorrect_of_blocksApart G hops hlen h, fun x hx y hy hxy ↦ ?_⟩
    rw [decompose_eq_iff, block_eq_iff hb] at hxy
    rw [block_eq_iff (by omega)]
    exact h x hx y hy hxy

/-- Two loads `2 ^ 32` bytes apart. -/
def farLoads : List Operation :=
  [⟨'L'.toUInt8, 0x600aa0#64, 1⟩, ⟨'L'.toUInt8, 0x100600aa0#64, 1⟩]

/-- Loads that stay apart when cut. -/
def nearLoads : List Operation :=
  [⟨'L'.toUInt8, 0x600aa0#64, 1⟩, ⟨'M'.toUInt8, 0x7ff0005c8#64, 8⟩]

theorem summary_correct_nearLoads :
    SummaryCorrect directMapped.toArguments nearLoads ∧
        PlacesApart directMapped.toArguments nearLoads ↔
      BlocksApart directMapped.b nearLoads :=
  summary_correct_iff directMapped nearLoads (by decide) (by decide)

/-- **The simulator is not right on every trace**: the second of two loads `2 ^ 32` bytes apart hits
in place of missing, because both are placed under one tag. -/
theorem farLoads_merged :
    ¬ ∀ (G : Geometry) (ops : List Operation), (∀ o ∈ ops, o.op ∈ traceOps) →
      (accesses ops).length < 2 ^ 31 →
        SummaryCorrect G.toArguments ops ∧ PlacesApart G.toArguments ops := by
  intro h
  obtain ⟨⟨hh, m, e, hsummary, hhit, -⟩, -⟩ := h directMapped farLoads (by decide) (by decide)
  have hcode : summary directMapped.toArguments farLoads = .ok (1, 1, 0) := by decide
  have href : hits (wideOutcomes directMapped.toArguments farLoads) = 0 := by decide
  rw [hcode] at hsummary
  obtain ⟨rfl, -⟩ := Prod.mk.inj (Except.ok.inj hsummary)
  rw [href] at hhit
  exact absurd hhit (by decide)

end CsappCode.CacheLab
