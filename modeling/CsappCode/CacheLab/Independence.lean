import CsappCode.CacheLab.Access
import CsappCode.CacheLab.Traces
import CsappCode.Library.Reordering

/-!
# Sets are independent

Two calls of `process` on addresses of different sets commute: each reads and writes its own set,
and the counters count the same outcomes in either order (`process_comm`). Nothing else about the
state matters, so this holds of every state and needs no bound on the ages.

* `process_comm` is the pair of calls.
* `independent_processState` says the same in the terms of `Reordering`.
* `sets_independent` is about whole traces: what the simulator comes to depends on the trace only
  through the subsequences of accesses to each set.

## What the results rest on

**A call touches one set.** By `process_eq_some_iff` it reads the set of its address and puts it
back changed, so two calls on different sets write to different places of the list of sets. The
counters are sums, and sums of 32-bit numbers commute, whether or not they wrap.

**From pairs to traces.** `Reordering` takes the commuting pairs to any two traces with the same
subsequence for each set. Nothing in it is about caches.

**Assumed** is a geometry for which every shift is defined. The traces may be of any length, and
their addresses are those that `process` is called with, after the conversion to `int`.
-/

namespace CsappCode.CacheLab

open Recency (Outcome)
open Reordering (Independent SameSubsequences)

/-- The index of the set that `process` computes for an address. -/
def setOf? (args : Arguments) (address : BitVec 32) : Option (BitVec 32) :=
  (decompose args address).map Prod.fst

/-- `process`, with the outcome forgotten. -/
def processState (args : Arguments) (st : Simulator) (address : BitVec 32) : Option Simulator :=
  (process args st address).map Prod.fst

/-- Counting two outcomes, and storing two sets, in either order. -/
theorem count_set_comm (st : Simulator) {i j : ℕ} (hij : i ≠ j) (set₁ set₂ : CacheSet)
    (o₁ o₂ : Outcome) :
    (⟨(st.cache.set i set₁).set j set₂, ((st.count o₁).count o₂).hitCount,
        ((st.count o₁).count o₂).missCount, ((st.count o₁).count o₂).evictionCount⟩ : Simulator) =
      ⟨(st.cache.set j set₂).set i set₁, ((st.count o₂).count o₁).hitCount,
        ((st.count o₂).count o₁).missCount, ((st.count o₂).count o₁).evictionCount⟩ := by
  rw [List.set_comm _ _ hij]
  cases o₁ <;> cases o₂ <;> rfl

/-- **Calls on different sets commute**, with their outcomes. -/
theorem process_comm {args : Arguments} {st st₁ st₂ : Simulator} {x y : BitVec 32}
    {o₁ o₂ : Outcome} (hxy : setOf? args x ≠ setOf? args y)
    (hx : process args st x = some (st₁, o₁)) (hy : process args st₁ y = some (st₂, o₂)) :
    ∃ st₁', process args st y = some (st₁', o₂) ∧ process args st₁' x = some (st₂, o₁) := by
  obtain ⟨i, s, set₁, set₁', hdecx, hget₁, hacc₁, rfl⟩ := process_eq_some_iff.1 hx
  obtain ⟨j, t, set₂, set₂', hdecy, hget₂, hacc₂, rfl⟩ := process_eq_some_iff.1 hy
  have hij : i.toNat ≠ j.toNat := by
    intro h
    refine hxy ?_
    rw [setOf?, setOf?, hdecx, hdecy, Option.map_some, Option.map_some]
    exact congrArg some (BitVec.toNat_inj.1 h)
  rw [cache_count, List.getElem?_set_ne hij] at hget₂
  refine ⟨_, process_eq_some_iff.2 ⟨j, t, set₂, set₂', hdecy, hget₂, hacc₂, rfl⟩,
    process_eq_some_iff.2 ⟨i, s, set₁, set₁', hdecx, ?_, hacc₁, ?_⟩⟩
  · rw [cache_count, List.getElem?_set_ne hij.symm, hget₁]
  · have hcomm := count_set_comm st hij set₁' set₂' o₁ o₂
    cases o₁ <;> cases o₂ <;> exact hcomm

/-- **The calls of `process` are independent across sets.** -/
theorem independent_processState (args : Arguments) :
    Independent (processState args) (setOf? args) := by
  have hle : ∀ st x y st₂, setOf? args x ≠ setOf? args y →
      (processState args st x).bind (processState args · y) = some st₂ →
        (processState args st y).bind (processState args · x) = some st₂ := by
    intro st x y st₂ hxy h
    obtain ⟨st₁, hx, hy⟩ := Option.bind_eq_some_iff.1 h
    obtain ⟨⟨st₁, o₁⟩, hprocx, rfl⟩ := Option.map_eq_some_iff.1 hx
    obtain ⟨⟨st₂, o₂⟩, hprocy, rfl⟩ := Option.map_eq_some_iff.1 hy
    obtain ⟨st₁', hy', hx'⟩ := process_comm hxy hprocx hprocy
    refine Option.bind_eq_some_iff.2 ⟨st₁', ?_, ?_⟩
    · rw [processState, hy']; rfl
    · rw [processState, hx']; rfl
  intro st x y hxy
  refine Option.ext fun st₂ ↦ ⟨hle st x y st₂ hxy, hle st y x st₂ hxy.symm⟩

/-- A run, with the outcomes forgotten. -/
theorem map_fst_processAll (args : Arguments) (addresses : List (BitVec 32)) :
    ∀ st, (processAll args st addresses).map Prod.fst =
      addresses.foldlM (processState args) st := by
  induction addresses with
  | nil => exact fun _ ↦ rfl
  | cons address addresses ih =>
    intro st
    rw [Reordering.foldlM_cons_eq, processAll, processState]
    rcases process args st address with - | ⟨st₁, o⟩
    · rfl
    · simp only [Option.map_some, Option.bind_eq_bind, Option.bind_some, ← ih st₁]
      rcases processAll args st₁ addresses with - | ⟨st₂, os⟩ <;> rfl

/-- **Sets are independent.** From every reachable state, accesses to two different sets can be
processed in either order: the outcomes are the same, and so is the state they lead to, with every
line of the cache and the three counters. And two traces with the same accesses to each set, in the
same order, end in the same state. -/
theorem sets_independent (G : Geometry) :
    (∀ (addresses : List (BitVec 32)) (st : Simulator) (os : List Outcome),
      processAll G.toArguments (start G.toArguments) addresses = some (st, os) →
      ∀ x y, setOf? G.toArguments x ≠ setOf? G.toArguments y →
        ∃ st' o₁ o₂, processAll G.toArguments st [x, y] = some (st', [o₁, o₂]) ∧
          processAll G.toArguments st [y, x] = some (st', [o₂, o₁])) ∧
    ∀ ops₁ ops₂ : List Operation, (∀ o ∈ ops₁, o.op ∈ traceOps) → (∀ o ∈ ops₂, o.op ∈ traceOps) →
      SameSubsequences (setOf? G.toArguments) ((accesses ops₁).map toInt32)
        ((accesses ops₂).map toInt32) →
      ∃ st, replay G.toArguments (start G.toArguments) ops₁ = .ok st ∧
        replay G.toArguments (start G.toArguments) ops₂ = .ok st := by
  refine ⟨fun addresses st os hrun x y hxy ↦ ?_, fun ops₁ ops₂ hops₁ hops₂ hsame ↦ ?_⟩
  · have hshape := Shaped.processAll addresses (shaped_initCache _) hrun
    obtain ⟨st₁, o₁, hx⟩ := exists_process hshape x
    obtain ⟨st₂, o₂, hy⟩ := exists_process (hshape.process hx) y
    obtain ⟨st₁', hy', hx'⟩ := process_comm hxy hx hy
    refine ⟨st₂, o₁, o₂, ?_, ?_⟩
    · exact processAll_cons_eq_some_iff.2 ⟨st₁, o₁, [o₂], hx,
        processAll_cons_eq_some_iff.2 ⟨st₂, o₂, [], hy, rfl, rfl⟩, rfl⟩
    · exact processAll_cons_eq_some_iff.2 ⟨st₁', o₂, [o₁], hy',
        processAll_cons_eq_some_iff.2 ⟨st₂, o₁, [], hx', rfl, rfl⟩, rfl⟩
  · have hstart : Shaped G.toArguments (start G.toArguments).cache := shaped_initCache _
    obtain ⟨st, os₁, hrun₁, -⟩ := exists_processAll ((accesses ops₁).map toInt32) hstart
    obtain ⟨st₂, os₂, hrun₂, -⟩ := exists_processAll ((accesses ops₂).map toInt32) hstart
    have hstates := (independent_processState G.toArguments).foldlM_eq _
      (start G.toArguments) hsame
    rw [← map_fst_processAll, ← map_fst_processAll, hrun₁, hrun₂] at hstates
    obtain rfl : st = st₂ := Option.some.inj hstates
    refine ⟨st, ?_, ?_⟩
    · rw [replay_eq _ _ hops₁, hrun₁]; rfl
    · rw [replay_eq _ _ hops₂, hrun₂]; rfl

/-- A load and a modify of addresses in different sets. -/
def loadThenModify : List Operation :=
  [⟨'L'.toUInt8, 0x10#64, 1⟩, ⟨'M'.toUInt8, 0x20#64, 4⟩]

theorem sets_independent_loadThenModify :
    (∃ st' o₁ o₂, processAll directMapped.toArguments (start directMapped.toArguments)
          [0x10#32, 0x20#32] = some (st', [o₁, o₂]) ∧
        processAll directMapped.toArguments (start directMapped.toArguments)
          [0x20#32, 0x10#32] = some (st', [o₂, o₁])) ∧
      ∃ st, replay directMapped.toArguments (start directMapped.toArguments) loadThenModify =
          .ok st ∧
        replay directMapped.toArguments (start directMapped.toArguments) loadThenModify.reverse =
          .ok st := by
  obtain ⟨hpair, htraces⟩ := sets_independent directMapped
  refine ⟨hpair [] _ [] rfl 0x10 0x20 (by decide),
    htraces _ _ (by decide) (by decide) ?_⟩
  -- the load moves past the two accesses of the modify
  exact fun k ↦ (Reordering.sameSubsequences_swap (by decide) [] [_] k).trans
    (Reordering.sameSubsequences_swap (by decide) [_] [] k)

end CsappCode.CacheLab
