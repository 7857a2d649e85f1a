import Mathlib.Data.Nat.Notation
import Mathlib.Logic.Basic
import Mathlib.Tactic.Ring
import Mathlib.Tactic.SplitIfs

/-!
# Counting loops

Programs over a state that may be undefined, and the loops `for (i = i₀; i + ahead < bound;
i += stride)` of C, whose variable keeps its value when the loop is over.

* `Ends P p Q` is the total-correctness triple: from every state of `P` the program is defined, and
  ends in `Q`.
* `int` is a computed integer, which must be at most the largest `int`.
* `Ends.forLoop` is the rule for loops: an invariant of the loop variable and the state.
* `exists_of_forLoop_eq_some` is the other direction: where a loop can have ended, whatever its body
  does.

## Overflow

The variable, its next value and the expression that the test compares are all computed, and the
program is undefined when one of them exceeds the largest `int`. A loop that looks `ahead` overflows
in its test before its variable does; so a rule that only looked at the variable would be unsound,
and the two side conditions of `Ends.forLoop` are apart. The sizes of the arrays are natural
numbers, and nothing here is negative.

## Termination

`turns` has fuel for one turn more than the bound, and a positive stride uses up fewer. So no claim
about a loop is of the form "if it ends": the rule proves that the loop is defined.
-/

namespace Loops

variable {σ α β : Type}

/-- A program that reads and writes a state, and may be undefined. -/
abbrev Prog (σ α : Type) := StateT σ Option α

/-- From every state of `P` the program is defined, and its result and final state are in `Q`. -/
def Ends (P : σ → Prop) (p : Prog σ α) (Q : α → σ → Prop) : Prop :=
  ∀ s, P s → ∃ a s', p s = some (a, s') ∧ Q a s'

theorem bind_run (p : Prog σ α) (f : α → Prog σ β) (s : σ) :
    (p >>= f) s = (p s).bind fun r ↦ f r.1 r.2 := rfl

/-- A step that is defined. -/
theorem bind_run_of_eq {p : Prog σ α} {f : α → Prog σ β} {s s' : σ} {a : α}
    (h : p s = some (a, s')) : (p >>= f) s = f a s' := by
  rw [bind_run, h, Option.bind_some]

theorem Ends.bind {P : σ → Prop} {Q : α → σ → Prop} {R : β → σ → Prop} {p : Prog σ α}
    {f : α → Prog σ β} (hp : Ends P p Q) (hf : ∀ a, Ends (Q a) (f a) R) : Ends P (p >>= f) R := by
  intro s hs
  obtain ⟨a, s', hrun, ha⟩ := hp s hs
  rw [bind_run_of_eq hrun]
  exact hf a s' ha

theorem Ends.mono {P P' : σ → Prop} {Q Q' : α → σ → Prop} {p : Prog σ α} (h : Ends P p Q)
    (hP : ∀ s, P' s → P s) (hQ : ∀ a s, Q a s → Q' a s) : Ends P' p Q' := by
  intro s hs
  obtain ⟨a, s', hrun, ha⟩ := h s (hP s hs)
  exact ⟨a, s', hrun, hQ a s' ha⟩

/-- A condition that does not depend on the state. -/
theorem Ends.assume {P : σ → Prop} {Q : α → σ → Prop} {p : Prog σ α} {c : Prop}
    (h : c → Ends P p Q) : Ends (fun s ↦ c ∧ P s) p Q := fun s hs ↦ h hs.1 s hs.2

/-! ### Integers -/

/-- The value of an arithmetic expression, which is undefined when it overflows. -/
def int (intMax x : ℕ) : Prog σ ℕ := fun s ↦ if x ≤ intMax then some (x, s) else none

theorem int_run {intMax x : ℕ} (h : x ≤ intMax) (s : σ) : int intMax x s = some (x, s) := if_pos h

theorem int_eq_some {intMax x y : ℕ} {s s' : σ} (h : int intMax x s = some (y, s')) :
    x ≤ intMax ∧ x = y ∧ s = s' := by
  rw [int] at h
  split_ifs at h with hle
  obtain ⟨rfl, rfl⟩ := Prod.mk.inj (Option.some.inj h)
  exact ⟨hle, rfl, rfl⟩

theorem Ends.int {P : σ → Prop} {intMax x : ℕ} (h : x ≤ intMax) :
    Ends P (Loops.int intMax x) fun y s ↦ y = x ∧ P s :=
  fun s hs ↦ ⟨x, s, int_run h s, rfl, hs⟩

/-! ### Loops -/

/-- The turns of a loop from the value `i` of its variable, at most `fuel` of them, and the value
with which it ends. -/
def turns (intMax ahead bound stride : ℕ) (body : ℕ → Prog σ Unit) : ℕ → ℕ → Prog σ ℕ
  | 0, _ => fun _ ↦ none
  | fuel + 1, i => do
    let x ← int intMax (i + ahead)
    if x < bound then do
      body i
      let i ← int intMax (i + stride)
      turns intMax ahead bound stride body fuel i
    else pure i

/-- `for (; i + ahead < bound; i += stride) body(i)`: the value of `i` at the end. -/
def forLoop (intMax ahead bound stride : ℕ) (body : ℕ → Prog σ Unit) (i : ℕ) : Prog σ ℕ :=
  turns intMax ahead bound stride body (bound + 1) i

/-- **The rule for loops.** What the body carries from each value of the variable to the next holds
at the end, and the loop has an end. -/
theorem Ends.forLoop {intMax ahead bound stride : ℕ} {body : ℕ → Prog σ Unit} {i : ℕ}
    (I : ℕ → σ → Prop) (hstride : 0 < stride)
    (htest : ∀ x s, I x s → x + ahead ≤ intMax)
    (hnext : ∀ x s, I x s → x + ahead < bound → x + stride ≤ intMax)
    (hbody : ∀ x, x + ahead < bound → Ends (I x) (body x) fun _ ↦ I (x + stride)) :
    Ends (I i) (Loops.forLoop intMax ahead bound stride body i)
      fun x s ↦ bound ≤ x + ahead ∧ I x s := by
  have hturns : ∀ fuel x, 0 < fuel → bound < x + fuel →
      Ends (I x) (turns intMax ahead bound stride body fuel x)
        fun x s ↦ bound ≤ x + ahead ∧ I x s := by
    intro fuel
    induction fuel with
    | zero => exact fun _ h ↦ absurd h (Nat.lt_irrefl 0)
    | succ fuel ih =>
      intro x _ hfuel s hs
      rw [turns, bind_run_of_eq (int_run (htest x s hs) s)]
      split_ifs with hlt
      · obtain ⟨_, s', hrun, hs'⟩ := hbody x hlt s hs
        rw [bind_run_of_eq hrun, bind_run_of_eq (int_run (hnext x s hs hlt) s')]
        exact ih (x + stride) (by omega) (by omega) s' hs'
      · exact ⟨x, s, rfl, Nat.le_of_not_lt hlt, hs⟩
  exact hturns (bound + 1) i (Nat.succ_pos _) (by omega)

/-- **Where a loop can end**: at a value of its variable, a number of strides from the first one, at
which the test has been computed and has failed. -/
theorem exists_of_forLoop_eq_some {intMax ahead bound stride : ℕ} {body : ℕ → Prog σ Unit}
    {i x : ℕ} {s s' : σ} (h : forLoop intMax ahead bound stride body i s = some (x, s')) :
    ∃ n, x = i + stride * n ∧ bound ≤ x + ahead ∧ x + ahead ≤ intMax := by
  rw [forLoop] at h
  generalize bound + 1 = fuel at h
  induction fuel generalizing i s with
  | zero => exact absurd h (by simp [turns])
  | succ fuel ih =>
    rw [turns, bind_run] at h
    obtain ⟨⟨y, s₁⟩, htest, hrest⟩ := Option.bind_eq_some_iff.1 h
    obtain ⟨hle, rfl, rfl⟩ := int_eq_some htest
    dsimp only at hrest
    split_ifs at hrest with hlt
    · rw [bind_run] at hrest
      obtain ⟨⟨_, s₂⟩, -, hnext⟩ := Option.bind_eq_some_iff.1 hrest
      rw [bind_run] at hnext
      obtain ⟨⟨z, s₃⟩, hstep, hturns⟩ := Option.bind_eq_some_iff.1 hnext
      obtain ⟨-, rfl, rfl⟩ := int_eq_some hstep
      obtain ⟨n, rfl, hend⟩ := ih hturns
      exact ⟨n + 1, by ring, hend⟩
    · obtain ⟨rfl, rfl⟩ := Prod.mk.inj (Option.some.inj hrest)
      exact ⟨0, rfl, Nat.le_of_not_lt hlt, hle⟩

end Loops
