import Mathlib.Data.List.Basic
import Mathlib.Logic.Basic

/-!
# Reordering independent steps

A partial step function on states, with labels that carry a key. When any two steps with different
keys commute (`Independent`), the order of steps with different keys does not matter: two lists of
labels with the same subsequence for each key (`SameSubsequences`) lead from each state to the same
state, or both to none (`Independent.foldlM_eq`).

* `Independent.foldlM_move` moves one label to the front, past labels of other keys only.
* `sameSubsequences_swap` is the smallest reordering: two neighbours with different keys.
* `SameSubsequences.tail` takes a label off two lists at once.

## How it is used

**The keys** are the parts of a state that a step works on: a bank, an account, a set of a cache.
That steps on different parts commute is a fact about two steps, and is all that has to be proved
about a system; the lists may be as long as they like.

**Partial steps.** Commuting includes that one order is defined just if the other one is. So a run
that fails fails in every order, although perhaps at another label.

**The induction** takes the first label of one list, finds it in the other, and moves it to the
front there. What is left of the two lists still has the same subsequences. It is on one list, and
the other is cut in two at the place of the label.
-/

namespace Reordering

variable {σ α κ : Type*}

/-- Steps whose labels have different keys commute, also where one of them is undefined. -/
def Independent (step : σ → α → Option σ) (key : α → κ) : Prop :=
  ∀ s a b, key a ≠ key b → (step s a).bind (step · b) = (step s b).bind (step · a)

section Runs

variable {step : σ → α → Option σ} {key : α → κ}

theorem foldlM_cons_eq (step : σ → α → Option σ) (s : σ) (a : α) (l : List α) :
    (a :: l).foldlM step s = (step s a).bind fun s' ↦ l.foldlM step s' := rfl

/-- **A label moves to the front** past labels of other keys. -/
theorem Independent.foldlM_move (h : Independent step key) {a : α} (post : List α) :
    ∀ {pre : List α} (s : σ), (∀ b ∈ pre, key b ≠ key a) →
      (pre ++ a :: post).foldlM step s = (a :: (pre ++ post)).foldlM step s := by
  intro pre
  induction pre with
  | nil => exact fun s _ ↦ rfl
  | cons b pre ih =>
    intro s hpre
    have hpre' : ∀ c ∈ pre, key c ≠ key a := fun c hc ↦ hpre c (List.mem_cons_of_mem _ hc)
    calc (b :: pre ++ a :: post).foldlM step s
        = (step s b).bind fun s' ↦ (pre ++ a :: post).foldlM step s' := rfl
      _ = (step s b).bind fun s' ↦ (step s' a).bind fun s'' ↦ (pre ++ post).foldlM step s'' := by
          simp only [ih _ hpre', foldlM_cons_eq]
      _ = ((step s b).bind (step · a)).bind fun s'' ↦ (pre ++ post).foldlM step s'' :=
          (Option.bind_assoc _ _ _).symm
      _ = ((step s a).bind (step · b)).bind fun s'' ↦ (pre ++ post).foldlM step s'' := by
          rw [h s b a (hpre b List.mem_cons_self)]
      _ = (a :: (b :: pre ++ post)).foldlM step s := Option.bind_assoc _ _ _

variable [DecidableEq κ]

/-- The labels of each key come in the same order, whatever stands between them. -/
def SameSubsequences (key : α → κ) (l m : List α) : Prop :=
  ∀ k, (l.filter fun a ↦ key a = k) = m.filter fun a ↦ key a = k

/-- Two labels of different keys can be exchanged. -/
theorem sameSubsequences_swap {a b : α} (hab : key a ≠ key b) (pre post : List α) :
    SameSubsequences key (pre ++ a :: b :: post) (pre ++ b :: a :: post) := by
  intro k
  rw [List.filter_append, List.filter_append]
  refine congrArg _ ?_
  by_cases ha : key a = k
  · have hb : key b ≠ k := fun hb ↦ hab (ha.trans hb.symm)
    simp [ha, hb]
  · simp [List.filter_cons, ha]

/-- The first label with the key of `a` in a list that has one, cut out. -/
theorem exists_cut_of_filter {k : κ} {a : α} {l rest : List α}
    (h : (l.filter fun b ↦ key b = k) = a :: rest) :
    ∃ pre post, l = pre ++ a :: post ∧ (∀ b ∈ pre, key b ≠ k) ∧ key a = k ∧
      (post.filter fun b ↦ key b = k) = rest := by
  obtain ⟨pre, post, rfl, hpre, ha, hpost⟩ := List.filter_eq_cons_iff.1 h
  exact ⟨pre, post, rfl, by simpa using hpre, by simpa using ha, hpost⟩

/-- Taking the first label of a key out of both lists. -/
theorem SameSubsequences.tail {a : α} {l pre post : List α}
    (h : SameSubsequences key (a :: l) (pre ++ a :: post)) (hpre : ∀ b ∈ pre, key b ≠ key a) :
    SameSubsequences key l (pre ++ post) := by
  intro k
  have hk := h k
  by_cases ha : key a = k
  · have hnone : (pre.filter fun b ↦ key b = k) = [] :=
      List.filter_eq_nil_iff.2 fun b hb ↦ by simpa [← ha] using hpre b hb
    rw [List.filter_append, hnone, List.nil_append] at hk ⊢
    simpa [List.filter_cons, ha] using hk
  · simpa [List.filter_cons, List.filter_append, ha] using hk

/-- **Only the order within each key matters.** -/
theorem Independent.foldlM_eq (h : Independent step key) (l : List α) :
    ∀ {m : List α} (s : σ), SameSubsequences key l m → l.foldlM step s = m.foldlM step s := by
  induction l with
  | nil =>
    intro m s hlm
    rcases m with - | ⟨a, m⟩
    · rfl
    · exact absurd (hlm (key a)) (by simp)
  | cons a l ih =>
    intro m s hlm
    have ha : (m.filter fun b ↦ key b = key a) = a :: l.filter fun b ↦ key b = key a := by
      rw [← hlm (key a)]
      simp
    obtain ⟨pre, post, rfl, hpre, -, -⟩ := exists_cut_of_filter ha
    have htail := hlm.tail hpre
    rw [h.foldlM_move post s hpre, foldlM_cons_eq, foldlM_cons_eq]
    exact congrArg _ (funext fun s' ↦ ih s' htail)

end Runs

end Reordering
