import Mathlib.Algebra.BigOperators.Group.Finset.Basic
import Mathlib.Algebra.Order.BigOperators.Group.Finset
import Mathlib.Data.Fintype.BigOperators

/-!
# Interleavings of threads over shared state

A program is given by the next atomic step of one thread, as a function of the shared state and of
that thread's own local state; `none` means that the thread is blocked or has ended. A state of the
whole system pairs the shared state with the local states of all threads, for an arbitrary type of
thread identifiers, and any enabled thread may move next.

* `Steps` are the interleavings, with the history of what the steps report. `Steps.invariant` is the
  induction rule: what holds at the start and survives one step of one thread holds throughout.
* `total` sums a weight over the threads. `total_step` says how one step changes it, which is what
  counting invariants are made of.
* `run` executes a given schedule, so that a particular interleaving can be evaluated; `runAlone`
  executes one thread, and `Alone` is the same without the number of steps.
* `wait` and `post` are the operations on a counting semaphore.

## What the model covers

**Atomic steps.** Whatever a step function does at once, nobody can come in between. A program whose
steps are single loads and stores is modelled at that grain; one that takes a critical section for a
step needs a reason to.

**No fairness.** A run may leave a thread where it is for ever. Statements about progress say that
some thread can move, not that one will.

**Sequential consistency.** The steps are on one shared state. Reorderings by a compiler or a
machine are not part of the model.
-/

namespace Interleaving

/-! ### Semaphores -/

/-- Waiting on a semaphore blocks at zero. -/
def wait : ℕ → Option ℕ
  | 0 => none
  | n + 1 => some n

/-- Posting never blocks. -/
def post (n : ℕ) : ℕ := n + 1

theorem wait_eq_some_iff {n m : ℕ} : wait n = some m ↔ n = m + 1 := by
  cases n with
  | zero => simp [wait]
  | succ n => simp [wait]

theorem eq_zero_of_wait {n : ℕ} (h : wait n = none) : n = 0 := by
  cases n with
  | zero => rfl
  | succ n => exact absurd h (by simp [wait])

/-! ### Systems of threads -/

/-- The next atomic step of a thread: what it reports, and the shared and local states after. -/
abbrev Program (σ κ ε : Type*) := σ → κ → Option (ε × σ × κ)

/-- A state of the whole system. -/
structure State (ι σ κ : Type*) where
  shared : σ
  thread : ι → κ

variable {ι σ κ ε : Type*} [DecidableEq ι]

/-- The state after a step of thread `i`. -/
def State.advance (s : State ι σ κ) (i : ι) (shared : σ) (local' : κ) : State ι σ κ :=
  ⟨shared, Function.update s.thread i local'⟩

@[simp] theorem State.advance_shared (s : State ι σ κ) (i : ι) (shared : σ) (k : κ) :
    (s.advance i shared k).shared = shared := rfl

@[simp] theorem State.advance_thread_self (s : State ι σ κ) (i : ι) (shared : σ) (k : κ) :
    (s.advance i shared k).thread i = k := Function.update_self ..

theorem State.advance_thread_of_ne (s : State ι σ κ) {i j : ι} (shared : σ) (k : κ) (h : j ≠ i) :
    (s.advance i shared k).thread j = s.thread j := Function.update_of_ne h ..

/-- The interleavings from a state, with the history of who reported what. -/
inductive Steps (P : Program σ κ ε) (s₀ : State ι σ κ) : List (ι × ε) → State ι σ κ → Prop
  | start : Steps P s₀ [] s₀
  | step {h : List (ι × ε)} {s : State ι σ κ} {i : ι} {e : ε} {shared : σ} {k : κ} :
      Steps P s₀ h s → P s.shared (s.thread i) = some (e, shared, k) →
        Steps P s₀ (h ++ [(i, e)]) (s.advance i shared k)

/-- The thread can take its next step. -/
def Enabled (P : Program σ κ ε) (s : State ι σ κ) (i : ι) : Prop :=
  (P s.shared (s.thread i)).isSome

variable {P : Program σ κ ε} {s₀ : State ι σ κ}

omit [DecidableEq ι] in
theorem not_enabled_iff {s : State ι σ κ} {i : ι} :
    ¬ Enabled P s i ↔ P s.shared (s.thread i) = none := by
  rw [Enabled, Bool.not_eq_true, Option.isSome_eq_false_iff, Option.isNone_iff_eq_none]

/-- **Invariants.** What holds at the start and survives every step holds along every
interleaving. -/
theorem Steps.invariant {I : List (ι × ε) → State ι σ κ → Prop} (hstart : I [] s₀)
    (hstep : ∀ {h s i e shared k}, I h s → P s.shared (s.thread i) = some (e, shared, k) →
      I (h ++ [(i, e)]) (s.advance i shared k))
    {h : List (ι × ε)} {s : State ι σ κ} (hs : Steps P s₀ h s) : I h s := by
  induction hs with
  | start => exact hstart
  | step _ hP ih => exact hstep ih hP

/-- Interleavings compose. -/
theorem Steps.trans {h₁ h₂ : List (ι × ε)} {s₁ s₂ : State ι σ κ} (hs₁ : Steps P s₀ h₁ s₁)
    (hs₂ : Steps P s₁ h₂ s₂) : Steps P s₀ (h₁ ++ h₂) s₂ := by
  induction hs₂ with
  | start => rwa [List.append_nil]
  | step _ hP ih => rw [← List.append_assoc]; exact .step ih hP

/-- Every entry of a history was made by a step from a state reached before it. -/
theorem Steps.exists_step {h₁ h₂ : List (ι × ε)} {i : ι} {e : ε} {s : State ι σ κ}
    (hs : Steps P s₀ (h₁ ++ (i, e) :: h₂) s) : ∃ s₁ shared k, Steps P s₀ h₁ s₁ ∧
      P s₁.shared (s₁.thread i) = some (e, shared, k) := by
  generalize heq : h₁ ++ (i, e) :: h₂ = h at hs
  induction hs generalizing h₂ with
  | start => exact absurd heq (by simp)
  | @step h s j e' shared k hs hP ih =>
    rcases List.eq_nil_or_concat h₂ with rfl | ⟨h₂, x, rfl⟩
    · obtain ⟨rfl, hx⟩ := List.append_inj' heq rfl
      obtain ⟨rfl, rfl⟩ := Prod.mk.inj (List.head_eq_of_cons_eq hx)
      exact ⟨s, shared, k, hs, hP⟩
    · have hlast : h₁ ++ (i, e) :: h₂ ++ [x] = h ++ [(j, e')] := by
        rw [← heq, List.concat_eq_append, List.append_assoc, List.cons_append]
      exact ih (List.append_inj_left' hlast rfl)

/-! ### Executing a schedule -/

/-- One step of thread `i`. -/
def stepThread (P : Program σ κ ε) (s : State ι σ κ) (i : ι) : Option ((ι × ε) × State ι σ κ) :=
  (P s.shared (s.thread i)).map fun r ↦ ((i, r.1), s.advance i r.2.1 r.2.2)

/-- The threads of a schedule move in turn. -/
def run (P : Program σ κ ε) : State ι σ κ → List ι → Option (List (ι × ε) × State ι σ κ)
  | s, [] => some ([], s)
  | s, i :: is => do
    let (e, s') ← stepThread P s i
    let (h, s'') ← run P s' is
    pure (e :: h, s'')

/-- An executed schedule is an interleaving. -/
theorem steps_of_run (is : List ι) : ∀ {s : State ι σ κ} {h : List (ι × ε)} {s' : State ι σ κ},
    run P s is = some (h, s') → Steps P s h s' := by
  induction is with
  | nil =>
    intro s h s' hrun
    obtain ⟨rfl, rfl⟩ := Prod.mk.inj (Option.some.inj hrun)
    exact .start
  | cons i is ih =>
    intro s h s' hrun
    rcases hP : P s.shared (s.thread i) with - | ⟨e, shared, k⟩
    · rw [run, stepThread, hP] at hrun
      exact absurd hrun (by simp)
    rcases htail : run P (s.advance i shared k) is with - | ⟨h₂, s₂⟩
    · simp [run, stepThread, hP, htail] at hrun
    · simp only [run, stepThread, hP, htail, Option.map_some, Option.bind_eq_bind,
        Option.bind_some] at hrun
      obtain ⟨rfl, rfl⟩ := Prod.mk.inj (Option.some.inj hrun)
      exact (Steps.step .start hP).trans (ih htail)

/-- One thread takes a number of steps while the others stand still. -/
def runAlone (P : Program σ κ ε) : ℕ → σ → κ → Option (List ε × σ × κ)
  | 0, shared, k => some ([], shared, k)
  | n + 1, shared, k => do
    let (e, shared', k') ← P shared k
    let (es, r) ← runAlone P n shared' k'
    pure (e :: es, r)

theorem State.advance_self (s : State ι σ κ) (i : ι) : s.advance i s.shared (s.thread i) = s := by
  rw [State.advance, Function.update_eq_self]

theorem State.advance_advance (s : State ι σ κ) (i : ι) (shared shared' : σ) (k k' : κ) :
    (s.advance i shared k).advance i shared' k' = s.advance i shared' k' := by
  rw [State.advance, State.advance, State.advance, Function.update_idem]

/-- **A thread running alone** is an interleaving that leaves the other threads where they are. -/
theorem steps_of_runAlone (i : ι) (n : ℕ) : ∀ {s : State ι σ κ} {es : List ε} {shared : σ} {k : κ},
    runAlone P n s.shared (s.thread i) = some (es, shared, k) →
      Steps P s (es.map (Prod.mk i)) (s.advance i shared k) := by
  induction n with
  | zero =>
    intro s es shared k hrun
    obtain ⟨rfl, rfl, rfl⟩ : [] = es ∧ s.shared = shared ∧ s.thread i = k := by
      simpa [runAlone] using hrun
    rw [s.advance_self]
    exact .start
  | succ n ih =>
    intro s es shared k hrun
    rcases hP : P s.shared (s.thread i) with - | ⟨e, shared₁, k₁⟩
    · rw [runAlone, hP] at hrun
      exact absurd hrun (by simp)
    rcases htail : runAlone P n shared₁ k₁ with - | ⟨es₂, shared₂, k₂⟩
    · simp [runAlone, hP, htail] at hrun
    · obtain ⟨rfl, rfl, rfl⟩ : e :: es₂ = es ∧ shared₂ = shared ∧ k₂ = k := by
        simpa [runAlone, hP, htail] using hrun
      have hfirst : Steps P s [(i, e)] (s.advance i shared₁ k₁) := Steps.step .start hP
      have hrest := ih (s := s.advance i shared₁ k₁) (by simpa using htail)
      rw [State.advance_advance] at hrest
      exact hfirst.trans hrest

/-- One thread gets from here to there by itself, in any number of steps. -/
inductive Alone (P : Program σ κ ε) : σ → κ → σ → κ → Prop
  | refl {shared : σ} {k : κ} : Alone P shared k shared k
  | step {shared shared' shared'' : σ} {k k' k'' : κ} {e : ε} :
      P shared k = some (e, shared', k') → Alone P shared' k' shared'' k'' →
        Alone P shared k shared'' k''

theorem Alone.trans {shared shared' shared'' : σ} {k k' k'' : κ} (h : Alone P shared k shared' k')
    (h' : Alone P shared' k' shared'' k'') : Alone P shared k shared'' k'' := by
  induction h with
  | refl => exact h'
  | step hP _ ih => exact .step hP (ih h')

/-- What a thread does by itself is an interleaving. -/
theorem Alone.steps {s : State ι σ κ} {i : ι} {shared : σ} {k : κ}
    (h : Alone P s.shared (s.thread i) shared k) :
    ∃ hist, Steps P s hist (s.advance i shared k) := by
  generalize hsh : s.shared = shared₁ at h
  generalize hk : s.thread i = k₁ at h
  induction h generalizing s with
  | refl => exact ⟨[], by rw [← hsh, ← hk, s.advance_self]; exact .start⟩
  | @step _ shared₂ _ _ k₂ _ e hP _ ih =>
    obtain ⟨hist, hrest⟩ := @ih (s.advance i shared₂ k₂) rfl (s.advance_thread_self i shared₂ k₂)
    rw [State.advance_advance] at hrest
    exact ⟨_, (Steps.step .start (by rw [hsh, hk]; exact hP)).trans hrest⟩

/-! ### Counting threads -/

section Counting

variable [Fintype ι] (f : κ → ℕ) (s : State ι σ κ)

/-- The sum of a weight over all threads; for a weight of zeros and ones, the number of threads at
the places of weight one. -/
def total : ℕ := ∑ i, f (s.thread i)

/-- **One step moves one summand.** -/
theorem total_step (i : ι) (shared : σ) (k : κ) :
    total f (s.advance i shared k) + f (s.thread i) = total f s + f k := by
  have hold := Finset.add_sum_erase Finset.univ (fun j ↦ f (s.thread j)) (Finset.mem_univ i)
  have hnew := Finset.add_sum_erase Finset.univ (fun j ↦ f ((s.advance i shared k).thread j))
    (Finset.mem_univ i)
  have hrest : ∑ j ∈ Finset.univ.erase i, f ((s.advance i shared k).thread j) =
      ∑ j ∈ Finset.univ.erase i, f (s.thread j) :=
    Finset.sum_congr rfl fun j hj ↦ by
      rw [s.advance_thread_of_ne shared k (Finset.ne_of_mem_erase hj)]
  simp only [State.advance_thread_self] at hnew
  rw [total, total]
  omega

omit [DecidableEq ι] in
theorem le_total (i : ι) : f (s.thread i) ≤ total f s :=
  Finset.single_le_sum (f := fun j ↦ f (s.thread j)) (fun _ _ ↦ Nat.zero_le _) (Finset.mem_univ i)

omit [DecidableEq ι] in
/-- A pointwise smaller weight has a smaller total. -/
theorem total_mono {f g : κ → ℕ} (h : ∀ k, f k ≤ g k) : total f s ≤ total g s :=
  Finset.sum_le_sum fun _ _ ↦ h _

omit [DecidableEq ι] in
theorem total_add (f g : κ → ℕ) : total (fun k ↦ f k + g k) s = total f s + total g s :=
  Finset.sum_add_distrib

/-- Two threads contribute two summands. -/
theorem add_le_total {i j : ι} (hij : i ≠ j) :
    f (s.thread i) + f (s.thread j) ≤ total f s := by
  have hi := Finset.add_sum_erase Finset.univ (fun j ↦ f (s.thread j)) (Finset.mem_univ i)
  have hj := Finset.single_le_sum (f := fun j ↦ f (s.thread j)) (fun _ _ ↦ Nat.zero_le _)
    (Finset.mem_erase.2 ⟨hij.symm, Finset.mem_univ j⟩)
  rw [total]
  omega

omit [DecidableEq ι] in
/-- A weight that no thread has totals zero. -/
theorem total_eq_zero (h : ∀ i, f (s.thread i) = 0) : total f s = 0 :=
  Finset.sum_eq_zero fun i _ ↦ h i

omit [DecidableEq ι] in
/-- A total that is not zero has a thread that contributes. -/
theorem exists_of_total_ne_zero (h : total f s ≠ 0) : ∃ i, f (s.thread i) ≠ 0 := by
  by_contra hnone
  push Not at hnone
  exact h (total_eq_zero f s hnone)

omit [DecidableEq ι] in
/-- For a weight of zeros and ones the total is a number of threads. -/
theorem total_eq_card {p : κ → Prop} [DecidablePred p] (hf : ∀ k, f k = if p k then 1 else 0) :
    total f s = (Finset.univ.filter fun i ↦ p (s.thread i)).card := by
  rw [total, Finset.card_filter]
  exact Finset.sum_congr rfl fun i _ ↦ hf _

end Counting

end Interleaving
