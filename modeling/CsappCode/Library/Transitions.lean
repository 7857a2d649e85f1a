import Mathlib.Data.List.Basic

/-!
# Runs of a transition system

A system is given by a partial function of a state and an event; `none` means that the event cannot
happen. A run is a list of events, in any order that the states allow.

* `run` executes a list of events.
* `run_invariant` is the induction rule.
* `run_length` bounds the length of a run by the work that comes in.

## How it is used

**Events** are whatever can happen next, on any side: a step of a program, of its environment, of
the kernel. The events are given in the run and not chosen by the states, so a statement about all
runs is one about every order.

**Invariants** may relate the state to nothing but itself. Where a property is about what has
happened, the state of the user's system has to remember it.

**Work.** To bound the length of runs, a natural number is given to each state, the work that is
left, and each event has to lower it by one at least, but for events that bring new work. A run is
then no longer than all that came in. This is also how one shows that a system comes to rest:
without new work a run is bounded, so it ends in a state in which no event is possible.
-/

namespace Transitions

variable {σ ε : Type} {step : σ → ε → Option σ} {s s' : σ} {es : List ε}

/-- The state after a list of events. -/
def run (step : σ → ε → Option σ) (s : σ) (es : List ε) : Option σ := es.foldlM step s

theorem run_cons_eq_some {e : ε} (h : run step s (e :: es) = some s') :
    ∃ t, step s e = some t ∧ run step t es = some s' :=
  Option.bind_eq_some_iff.mp h

/-- **Invariants.** What holds at the start and survives every event holds along every run. -/
theorem run_invariant {I : σ → Prop} (hstep : ∀ {s e s'}, I s → step s e = some s' → I s')
    (hs : I s) (hrun : run step s es = some s') : I s' := by
  induction es generalizing s with
  | nil =>
    cases hrun
    exact hs
  | cons e es ih =>
    obtain ⟨t, ht, hrest⟩ := run_cons_eq_some hrun
    exact ih (hstep hs ht) hrest

/-- **Work.** Where each event takes one unit of work off what is left, but for the work that comes
in, a run has no more events than the work that came in and is done. -/
theorem run_length {I : σ → Prop} (left intake : σ → ℕ)
    (hstep : ∀ {s e s'}, I s → step s e = some s' → I s')
    (hwork : ∀ {s e s'}, I s → step s e = some s' →
      left s' + intake s + 1 ≤ left s + intake s')
    (hs : I s) (hrun : run step s es = some s') :
    left s' + intake s + es.length ≤ left s + intake s' := by
  induction es generalizing s with
  | nil =>
    cases hrun
    exact Nat.le_refl _
  | cons e es ih =>
    obtain ⟨t, ht, hrest⟩ := run_cons_eq_some hrun
    have hone := hwork hs ht
    have hall := ih (hstep hs ht) hrest
    rw [List.length_cons]
    omega

end Transitions
