import CsappCode.Library.Interleaving
import CsappCode.Library.Transitions

/-!
# The counter of `mutex.c`

Two threads add one to `cnt`, `niters` times each, between `P` and `V`. `main` creates them, joins
them and compares `cnt` with `2 * niters`.

* `threadStep` and `mainStep` are one step of a thread and of `main`. The load of `cnt` and its
  store are two steps.
* `Inv` is the invariant: `cnt` is what the two have added, and at most one of them is between `P`
  and `V`.
* `inv_step` keeps it, and takes one step off those that are still to go.
* `counter_spec` says what follows for every interleaving: no update is lost, there is no deadlock,
  the program ends, and what it prints.

## What the results rest on

**The number of iterations** comes from `atoi` and is any integer. A loop that is asked for a
negative number makes no turn, while `main` compares with a negative number and reports an error; so
the bounds are for the larger of `niters` and zero.

**The counter** is a `long`, and unbounded here. It stays between zero and `2 * niters`, which
`long` holds for every `int`. The additions are between `P` and `V` in both threads, and the
comparison behind the joins, so that the steps in some order are what the program does.

**The end.** Every step takes one off what is still to be done, hence the bound on the length of a
run. Where nobody can go on `main` has printed: a thread before `P` waits only for a thread that
holds the mutex, and that one can go on.
-/

namespace CsappCode.Threads.Mutex

open Interleaving (wait post)
open Transitions

/-! ### The source -/

/-- The two threads. -/
inductive Tid where
  | tid1
  | tid2
  deriving DecidableEq

/-- Where a thread is in its loop, with the `i` it has got to. -/
inductive Place where
  | unborn
  | test (i : ℤ)
  | lock (i : ℤ)
  | load (i : ℤ)
  | store (i cnt : ℤ)
  | unlock (i : ℤ)
  | done
  deriving DecidableEq

/-- What `main` prints. -/
inductive Outcome where
  | ok (cnt : ℤ)
  | boom (cnt : ℤ)
  deriving DecidableEq

/-- Where `main` is: before the call of that name, or behind `exit`. -/
inductive MainPc where
  | semInit
  | create (k : Tid)
  | join (k : Tid)
  | compare
  | exited (printed : Outcome)
  deriving DecidableEq

/-- The shared state and the places. -/
structure State where
  cnt : ℤ
  mutex : ℕ
  main : MainPc
  thread : Tid → Place

/-- Who takes the next step. -/
inductive Event where
  | main
  | thread (k : Tid)

/-- The statics are zero. -/
def start : State := ⟨0, 0, .semInit, fun _ ↦ .unborn⟩

/-- Thread `k` gets to `p`. -/
def State.move (s : State) (k : Tid) (p : Place) : State :=
  { s with thread := Function.update s.thread k p }

/-- The comparison at the end of `main`. -/
def compare (niters cnt : ℤ) : Outcome := if cnt ≠ 2 * niters then .boom cnt else .ok cnt

/-- One step of `thread`. -/
def threadStep (niters : ℤ) (s : State) (k : Tid) : Option State :=
  match s.thread k with
  | .unborn => none
  | .test i => some (s.move k (if i < niters then .lock i else .done))
  | .lock i => (wait s.mutex).map fun v ↦ { s.move k (.load i) with mutex := v }
  | .load i => some (s.move k (.store i s.cnt))
  | .store i cnt => some { s.move k (.unlock i) with cnt := cnt + 1 }
  | .unlock i => some { s.move k (.test (i + 1)) with mutex := post s.mutex }
  | .done => none

/-- One step of `main`. -/
def mainStep (niters : ℤ) (s : State) : Option State :=
  match s.main with
  | .semInit => some { s with mutex := 1, main := .create .tid1 }
  | .create .tid1 => some { s.move .tid1 (.test 0) with main := .create .tid2 }
  | .create .tid2 => some { s.move .tid2 (.test 0) with main := .join .tid1 }
  | .join .tid1 => if s.thread .tid1 = .done then some { s with main := .join .tid2 } else none
  | .join .tid2 => if s.thread .tid2 = .done then some { s with main := .compare } else none
  | .compare => some { s with main := .exited (compare niters s.cnt) }
  | .exited _ => none

/-- One step. -/
def step (niters : ℤ) (s : State) : Event → Option State
  | .main => mainStep niters s
  | .thread k => threadStep niters s k

/-! ### Sums over the threads -/

variable {niters : ℤ} {s s' : State} {es : List Event}

/-- The sum over both threads. -/
def both (f : Place → ℕ) (thread : Tid → Place) : ℕ := f (thread .tid1) + f (thread .tid2)

theorem both_update (f : Place → ℕ) (thread : Tid → Place) (k : Tid) (p : Place) :
    both f (Function.update thread k p) + f (thread k) = both f thread + f p := by
  cases k with
  | tid1 =>
    rw [both, both, Function.update_self, Function.update_of_ne (by decide)]
    omega
  | tid2 =>
    rw [both, both, Function.update_self, Function.update_of_ne (by decide)]
    omega

/-- Between `P` and `V`. -/
def holding : Place → ℕ
  | .load _ => 1
  | .store .. => 1
  | .unlock _ => 1
  | _ => 0

/-- What a thread has added to `cnt`. -/
def added (niters : ℤ) : Place → ℕ
  | .unborn => 0
  | .test i => i.toNat
  | .lock i => i.toNat
  | .load i => i.toNat
  | .store i _ => i.toNat
  | .unlock i => i.toNat + 1
  | .done => niters.toNat

/-- The steps a thread has to go. -/
def ahead (niters : ℤ) : Place → ℕ
  | .unborn => 5 * niters.toNat + 1
  | .test i => 5 * (niters - i).toNat + 1
  | .lock i => 5 * (niters - i).toNat
  | .load i => 5 * (niters - i).toNat - 1
  | .store i _ => 5 * (niters - i).toNat - 2
  | .unlock i => 5 * (niters - i).toNat - 3
  | .done => 0

/-- The steps `main` has to go. -/
def MainPc.ahead : MainPc → ℕ
  | .semInit => 6
  | .create .tid1 => 5
  | .create .tid2 => 4
  | .join .tid1 => 3
  | .join .tid2 => 2
  | .compare => 1
  | .exited _ => 0

/-- The steps of the whole program to go. -/
def State.ahead (niters : ℤ) (s : State) : ℕ := s.main.ahead + both (Mutex.ahead niters) s.thread

/-! ### The invariant -/

/-- What holds of a thread at its place. A value loaded is not stale. -/
def Within (niters cnt : ℤ) : Place → Prop
  | .unborn => True
  | .test i => 0 ≤ i ∧ i ≤ niters.toNat
  | .lock i => 0 ≤ i ∧ i < niters
  | .load i => 0 ≤ i ∧ i < niters
  | .store i v => 0 ≤ i ∧ i < niters ∧ v = cnt
  | .unlock i => 0 ≤ i ∧ i < niters
  | .done => True

/-- Which threads `main` has created and joined. -/
def Placed : MainPc → Place → Place → Prop
  | .semInit, p, q => p = .unborn ∧ q = .unborn
  | .create .tid1, p, q => p = .unborn ∧ q = .unborn
  | .create .tid2, p, q => p ≠ .unborn ∧ q = .unborn
  | .join .tid1, p, q => p ≠ .unborn ∧ q ≠ .unborn
  | .join .tid2, p, q => p = .done ∧ q ≠ .unborn
  | .compare, p, q => p = .done ∧ q = .done
  | .exited _, p, q => p = .done ∧ q = .done

/-- **The invariant.** -/
structure Inv (niters : ℤ) (s : State) : Prop where
  within : ∀ k, Within niters s.cnt (s.thread k)
  cnt : s.cnt = both (added niters) s.thread
  mutex : s.mutex + both holding s.thread = if s.main = .semInit then 0 else 1
  placed : Placed s.main (s.thread .tid1) (s.thread .tid2)
  exited : ∀ o, s.main = .exited o → o = compare niters s.cnt

theorem inv_start : Inv niters start :=
  ⟨fun _ ↦ trivial, rfl, rfl, ⟨rfl, rfl⟩, fun _ h ↦ by cases h⟩

/-- Threads that do not hold the mutex do not look at `cnt`. -/
theorem Within.of_not_holding {cnt cnt' : ℤ} {p : Place} (h : Within niters cnt p)
    (hp : holding p = 0) : Within niters cnt' p := by
  cases p with
  | store i v => cases hp
  | unborn => trivial
  | done => trivial
  | test i => exact h
  | lock i => exact h
  | load i => exact h
  | unlock i => exact h

/-- A thread at work is between its creation and its end. -/
theorem Placed.move {m : MainPc} {thread : Tid → Place} {k : Tid} {p : Place}
    (h : Placed m (thread .tid1) (thread .tid2)) (hborn : thread k ≠ .unborn)
    (hdone : thread k ≠ .done) (hp : p ≠ .unborn) :
    Placed m (Function.update thread k p .tid1) (Function.update thread k p .tid2) ∧
      m ≠ .semInit ∧ ∀ o, m ≠ .exited o := by
  cases k with
  | tid1 =>
    rw [Function.update_self, Function.update_of_ne (by decide)]
    cases m with
    | semInit => exact absurd h.1 hborn
    | create k =>
      cases k with
      | tid1 => exact absurd h.1 hborn
      | tid2 => exact ⟨⟨hp, h.2⟩, by simp, by simp⟩
    | join k =>
      cases k with
      | tid1 => exact ⟨⟨hp, h.2⟩, by simp, by simp⟩
      | tid2 => exact absurd h.1 hdone
    | compare => exact absurd h.1 hdone
    | exited o => exact absurd h.1 hdone
  | tid2 =>
    rw [Function.update_self, Function.update_of_ne (by decide)]
    cases m with
    | semInit => exact absurd h.2 hborn
    | create k =>
      cases k with
      | tid1 => exact absurd h.2 hborn
      | tid2 => exact absurd h.2 hborn
    | join k =>
      cases k with
      | tid1 => exact ⟨⟨h.1, hp⟩, by simp, by simp⟩
      | tid2 => exact ⟨⟨h.1, hp⟩, by simp, by simp⟩
    | compare => exact absurd h.2 hdone
    | exited o => exact absurd h.2 hdone

/-- **One thread moves.** It accounts for what it adds, for the mutex and for the steps to go, and
changes `cnt` only while it holds the mutex. -/
theorem inv_move (h : Inv niters s) {k : Tid} {q p : Place} {cnt : ℤ} {mutex : ℕ}
    (hk : s.thread k = q) (hborn : q ≠ .unborn) (hdone : q ≠ .done) (hp : p ≠ .unborn)
    (hwithin : Within niters cnt p) (hcnt : cnt + added niters q = s.cnt + added niters p)
    (hmutex : mutex + holding p = s.mutex + holding q) (hheld : cnt = s.cnt ∨ holding q = 1)
    (hahead : ahead niters p + 1 = ahead niters q) :
    Inv niters { s.move k p with cnt := cnt, mutex := mutex } ∧
      State.ahead niters { s.move k p with cnt := cnt, mutex := mutex } + 1 = s.ahead niters := by
  subst hk
  obtain ⟨hplaced, hinit, hexited⟩ := h.placed.move hborn hdone hp
  have hone := h.mutex
  rw [if_neg hinit] at hone
  refine ⟨⟨fun k' ↦ ?_, ?_, ?_, hplaced, fun o ho ↦ absurd ho (hexited o)⟩, ?_⟩
  · change Within niters cnt (Function.update s.thread k p k')
    rcases eq_or_ne k' k with rfl | hne
    · rw [Function.update_self]
      exact hwithin
    · rw [Function.update_of_ne hne]
      rcases hheld with rfl | hheld
      · exact h.within k'
      · refine (h.within k').of_not_holding ?_
        rw [both] at hone
        cases k <;> cases k' <;> first | exact absurd rfl hne | omega
  · have hsum := both_update (added niters) s.thread k p
    have hold := h.cnt
    change cnt = (both (added niters) (Function.update s.thread k p) : ℕ)
    omega
  · have hsum := both_update holding s.thread k p
    change mutex + both holding (Function.update s.thread k p) =
      if s.main = .semInit then 0 else 1
    rw [if_neg hinit]
    omega
  · have hsum := both_update (ahead niters) s.thread k p
    change s.main.ahead + both (ahead niters) (Function.update s.thread k p) + 1 =
      s.main.ahead + both (ahead niters) s.thread
    omega

/-- **A step of a thread.** -/
theorem inv_thread (h : Inv niters s) {k : Tid} (hstep : threadStep niters s k = some s') :
    Inv niters s' ∧ s'.ahead niters + 1 = s.ahead niters := by
  have hwithin := h.within k
  rw [threadStep] at hstep
  cases hk : s.thread k with
  | unborn =>
    rw [hk] at hstep
    cases hstep
  | test i =>
    rw [hk] at hstep hwithin
    cases hstep
    obtain ⟨hi, hle⟩ := hwithin
    rcases lt_or_ge i niters with hlt | hge
    · rw [if_pos hlt]
      refine inv_move h hk (by simp) (by simp) (by simp) ⟨hi, hlt⟩ rfl rfl (Or.inl rfl) ?_
      simp only [ahead]
    · rw [if_neg (not_lt.mpr hge)]
      refine inv_move h hk (by simp) (by simp) (by simp) trivial ?_ rfl (Or.inl rfl) ?_
      · simp only [added]
        omega
      · simp only [ahead]
        omega
  | lock i =>
    rw [hk] at hstep hwithin
    obtain ⟨v, hwait, rfl⟩ := Option.map_eq_some_iff.mp hstep
    have hmutex := Interleaving.wait_eq_some_iff.mp hwait
    obtain ⟨hi, hlt⟩ := hwithin
    refine inv_move h hk (by simp) (by simp) (by simp) ⟨hi, hlt⟩ rfl ?_ (Or.inl rfl) ?_
    · simp only [holding]
      omega
    · simp only [ahead]
      omega
  | load i =>
    rw [hk] at hstep hwithin
    cases hstep
    obtain ⟨hi, hlt⟩ := hwithin
    refine inv_move h hk (by simp) (by simp) (by simp) ⟨hi, hlt, rfl⟩ rfl rfl (Or.inl rfl) ?_
    simp only [ahead]
    omega
  | store i v =>
    rw [hk] at hstep hwithin
    cases hstep
    obtain ⟨hi, hlt, rfl⟩ := hwithin
    refine inv_move h hk (by simp) (by simp) (by simp) ⟨hi, hlt⟩ ?_ rfl (Or.inr rfl) ?_
    · simp only [added]
      omega
    · simp only [ahead]
      omega
  | unlock i =>
    rw [hk] at hstep hwithin
    cases hstep
    obtain ⟨hi, hlt⟩ := hwithin
    refine inv_move h hk (by simp) (by simp) (by simp) ⟨by omega, by omega⟩ ?_ rfl (Or.inl rfl) ?_
    · change s.cnt + _ = s.cnt + _
      simp only [added]
      omega
    · simp only [ahead]
      omega
  | done =>
    rw [hk] at hstep
    cases hstep

/-- `main` creates a thread. -/
theorem inv_create (h : Inv niters s) {k : Tid} {m : MainPc} (hk : s.thread k = .unborn)
    (hinit : s.main ≠ .semInit) (hm : m ≠ .semInit) (hexited : ∀ o, m ≠ .exited o)
    (hahead : m.ahead + 1 = s.main.ahead)
    (hplaced : Placed m (Function.update s.thread k (.test 0) .tid1)
      (Function.update s.thread k (.test 0) .tid2)) :
    Inv niters { s.move k (.test 0) with main := m } ∧
      State.ahead niters { s.move k (.test 0) with main := m } + 1 = s.ahead niters := by
  refine ⟨⟨fun k' ↦ ?_, ?_, ?_, hplaced, fun o ho ↦ absurd ho (hexited o)⟩, ?_⟩
  · change Within niters s.cnt (Function.update s.thread k (.test 0) k')
    rcases eq_or_ne k' k with rfl | hne
    · rw [Function.update_self]
      exact ⟨Int.le_refl 0, Int.natCast_nonneg _⟩
    · rw [Function.update_of_ne hne]
      exact h.within k'
  · have hsum := both_update (added niters) s.thread k (.test 0)
    rw [hk] at hsum
    change s.cnt = (both (added niters) (Function.update s.thread k (.test 0)) : ℕ)
    rw [h.cnt]
    exact congrArg Nat.cast hsum.symm
  · have hsum := both_update holding s.thread k (.test 0)
    rw [hk] at hsum
    have hone := h.mutex
    rw [if_neg hinit] at hone
    change s.mutex + both holding (Function.update s.thread k (.test 0)) =
      if m = .semInit then 0 else 1
    rw [if_neg hm]
    exact (congrArg (s.mutex + ·) hsum).trans hone
  · have hsum := both_update (ahead niters) s.thread k (.test 0)
    rw [hk] at hsum
    simp only [ahead, Int.sub_zero] at hsum
    change m.ahead + both (ahead niters) (Function.update s.thread k (.test 0)) + 1 =
      s.main.ahead + both (ahead niters) s.thread
    omega

/-- The steps to go when `main` alone moves. -/
theorem ahead_main {m : MainPc} {mutex : ℕ} (hm : m.ahead + 1 = s.main.ahead) :
    State.ahead niters { s with mutex := mutex, main := m } + 1 = s.ahead niters := by
  change m.ahead + both (ahead niters) s.thread + 1 = s.main.ahead + both (ahead niters) s.thread
  omega

/-- **A step of `main`.** -/
theorem inv_main (h : Inv niters s) (hstep : mainStep niters s = some s') :
    Inv niters s' ∧ s'.ahead niters + 1 = s.ahead niters := by
  have hplaced := h.placed
  have hmutex := h.mutex
  rw [mainStep] at hstep
  cases hm : s.main with
  | semInit =>
    rw [hm] at hstep hplaced hmutex
    cases hstep
    refine ⟨⟨h.within, h.cnt, ?_, hplaced, fun o ho ↦ by cases ho⟩, ahead_main (by rw [hm]; rfl)⟩
    change 1 + both holding s.thread = 1
    rw [if_pos rfl] at hmutex
    omega
  | create k =>
    cases k with
    | tid1 =>
      rw [hm] at hstep hplaced
      cases hstep
      refine inv_create h hplaced.1 (by simp [hm]) (by simp) (by simp) (by rw [hm]; rfl) ?_
      rw [Function.update_self, Function.update_of_ne (by decide)]
      exact ⟨by simp, hplaced.2⟩
    | tid2 =>
      rw [hm] at hstep hplaced
      cases hstep
      refine inv_create h hplaced.2 (by simp [hm]) (by simp) (by simp) (by rw [hm]; rfl) ?_
      rw [Function.update_self, Function.update_of_ne (by decide)]
      exact ⟨hplaced.1, by simp⟩
  | join k =>
    cases k with
    | tid1 =>
      rw [hm] at hstep hplaced hmutex
      change (if s.thread .tid1 = .done then some _ else none) = some s' at hstep
      split_ifs at hstep with hjoin
      cases hstep
      exact ⟨⟨h.within, h.cnt, hmutex, ⟨hjoin, hplaced.2⟩, fun o ho ↦ by cases ho⟩,
        ahead_main (by rw [hm]; rfl)⟩
    | tid2 =>
      rw [hm] at hstep hplaced hmutex
      change (if s.thread .tid2 = .done then some _ else none) = some s' at hstep
      split_ifs at hstep with hjoin
      cases hstep
      exact ⟨⟨h.within, h.cnt, hmutex, ⟨hplaced.1, hjoin⟩, fun o ho ↦ by cases ho⟩,
        ahead_main (by rw [hm]; rfl)⟩
  | compare =>
    rw [hm] at hstep hplaced hmutex
    cases hstep
    refine ⟨⟨h.within, h.cnt, hmutex, hplaced, fun o ho ↦ ?_⟩, ahead_main (by rw [hm]; rfl)⟩
    cases ho
    rfl
  | exited o =>
    rw [hm] at hstep
    cases hstep

/-- **Every step keeps the invariant** and is one of those to go. -/
theorem inv_step {e : Event} (h : Inv niters s) (hstep : step niters s e = some s') :
    Inv niters s' ∧ s'.ahead niters + 1 = s.ahead niters := by
  cases e with
  | main => exact inv_main h hstep
  | thread k => exact inv_thread h hstep

theorem inv_run (hrun : run (step niters) start es = some s) : Inv niters s :=
  run_invariant (fun h hstep ↦ (inv_step h hstep).1) inv_start hrun

/-- The whole program has this many steps. -/
theorem length_run (hrun : run (step niters) start es = some s) :
    s.ahead niters + es.length ≤ 10 * niters.toNat + 8 := by
  have hlen := run_length (State.ahead niters) (fun _ ↦ 0) (fun h hstep ↦ (inv_step h hstep).1)
    (fun h hstep ↦ (inv_step h hstep).2.le) inv_start hrun
  have hstart : start.ahead niters = 6 + (5 * niters.toNat + 1 + (5 * niters.toNat + 1)) := rfl
  rw [hstart] at hlen
  omega

/-! ### Every run -/

/-- What a thread has added is at most `niters`. -/
theorem added_le {cnt : ℤ} {p : Place} (h : Within niters cnt p) :
    added niters p ≤ niters.toNat := by
  cases p with
  | unborn => exact Nat.zero_le _
  | done => exact Nat.le_refl _
  | test i =>
    obtain ⟨hi, hle⟩ := h
    simp only [added]
    omega
  | lock i =>
    obtain ⟨hi, hlt⟩ := h
    simp only [added]
    omega
  | load i =>
    obtain ⟨hi, hlt⟩ := h
    simp only [added]
    omega
  | store i v =>
    obtain ⟨hi, hlt, -⟩ := h
    simp only [added]
    omega
  | unlock i =>
    obtain ⟨hi, hlt⟩ := h
    simp only [added]
    omega

/-- A thread between its creation and its end can go on, but for one that waits in `P`. -/
theorem threadStep_eq_none {k : Tid} (h : threadStep niters s k = none) :
    s.thread k = .unborn ∨ s.thread k = .done ∨ s.mutex = 0 ∧ holding (s.thread k) = 0 := by
  rw [threadStep] at h
  cases hk : s.thread k with
  | unborn => exact Or.inl rfl
  | done => exact Or.inr (Or.inl rfl)
  | lock i =>
    rw [hk] at h
    exact Or.inr (Or.inr ⟨Interleaving.eq_zero_of_wait (Option.map_eq_none_iff.mp h), rfl⟩)
  | test i =>
    rw [hk] at h
    cases h
  | load i =>
    rw [hk] at h
    cases h
  | store i v =>
    rw [hk] at h
    cases h
  | unlock i =>
    rw [hk] at h
    cases h

/-- **No deadlock.** Where nobody can go on, `main` has printed. -/
theorem exists_exited (h : Inv niters s) (hrest : ∀ e, step niters s e = none) :
    ∃ o, s.main = .exited o := by
  have hmain : mainStep niters s = none := hrest .main
  have hplaced := h.placed
  have hmutex := h.mutex
  have hblocked : ∀ k, s.main ≠ .semInit → s.thread k ≠ .unborn → s.thread k ≠ .done → False := by
    intro k hinit hborn hdone
    rw [if_neg hinit, both] at hmutex
    have hzero : ∀ k', holding (s.thread k') = 0 := by
      intro k'
      rcases threadStep_eq_none (hrest (.thread k')) with hk | hk | hk
      · rw [hk]
        rfl
      · rw [hk]
        rfl
      · exact hk.2
    have h1 := hzero .tid1
    have h2 := hzero .tid2
    rcases threadStep_eq_none (hrest (.thread k)) with hk | hk | hk
    · exact hborn hk
    · exact hdone hk
    · omega
  rw [mainStep] at hmain
  cases hm : s.main with
  | semInit =>
    rw [hm] at hmain
    cases hmain
  | create k =>
    rw [hm] at hmain
    cases k <;> cases hmain
  | join k =>
    rw [hm] at hmain hplaced
    cases k with
    | tid1 =>
      exfalso
      refine hblocked .tid1 (by simp [hm]) hplaced.1 fun hdone ↦ ?_
      simp [hdone] at hmain
    | tid2 =>
      exfalso
      refine hblocked .tid2 (by simp [hm]) hplaced.2 fun hdone ↦ ?_
      simp [hdone] at hmain
  | compare =>
    rw [hm] at hmain
    cases hmain
  | exited o => exact ⟨o, rfl⟩

/-- **No update is lost.** In every interleaving at most one thread is between `P` and `V`, and
`cnt` stays between zero and `2 * niters`. The program has at most `10 * niters + 8` steps, stops
nowhere before `main` has printed, and prints `OK` exactly for an `niters` that is not negative. -/
theorem counter_spec (hrun : run (step niters) start es = some s) :
    both holding s.thread ≤ 1 ∧ 0 ≤ s.cnt ∧ s.cnt ≤ 2 * niters.toNat ∧
      es.length ≤ 10 * niters.toNat + 8 ∧
      (∀ o, s.main = .exited o → o = if 0 ≤ niters then .ok (2 * niters) else .boom 0) ∧
      ((∀ e, step niters s e = none) → ∃ o, s.main = .exited o) := by
  have h := inv_run hrun
  have hmutex := h.mutex
  have hlen := length_run hrun
  have h1 := added_le (h.within .tid1)
  have h2 := added_le (h.within .tid2)
  have hcnt := h.cnt
  rw [both] at hcnt
  refine ⟨?_, by omega, by omega, by omega, fun o ho ↦ ?_, exists_exited h⟩
  · split_ifs at hmutex <;> omega
  · have hplaced := h.placed
    rw [ho] at hplaced
    rw [hplaced.1, hplaced.2] at hcnt
    change s.cnt = (niters.toNat + niters.toNat : ℕ) at hcnt
    rw [h.exited o ho, compare]
    rcases lt_or_ge niters 0 with hneg | hnonneg
    · rw [if_pos (by omega), if_neg (not_le.mpr hneg)]
      congr
      omega
    · rw [if_neg (not_not.mpr (by omega)), if_pos hnonneg]
      congr
      omega

theorem counter_spec_once : ∃ s o,
    run (step 1) start [.main, .main, .main, .thread .tid1, .thread .tid1, .thread .tid2,
      .thread .tid1, .thread .tid1, .thread .tid1, .thread .tid2, .thread .tid1, .main,
      .thread .tid2, .thread .tid2, .thread .tid2, .thread .tid2, .main, .main] = some s ∧
      s.main = .exited o ∧ o = if 0 ≤ (1 : ℤ) then .ok (2 * 1) else .boom 0 := by
  have hexit : ∃ s o,
      run (step 1) start [.main, .main, .main, .thread .tid1, .thread .tid1, .thread .tid2,
        .thread .tid1, .thread .tid1, .thread .tid1, .thread .tid2, .thread .tid1, .main,
        .thread .tid2, .thread .tid2, .thread .tid2, .thread .tid2, .main, .main] = some s ∧
        s.main = .exited o := ⟨_, _, rfl, rfl⟩
  obtain ⟨s, o, hrun, ho⟩ := hexit
  exact ⟨s, o, hrun, ho, (counter_spec hrun).2.2.2.2.1 o ho⟩

end CsappCode.Threads.Mutex
