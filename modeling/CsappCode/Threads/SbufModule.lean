import CsappCode.Threads.BoundedBuffer

/-!
# The buffer of `sbuf.c` is not a queue

In `thread/sbuf.c` an insert gives back the slot it claimed and announces no item. So `slots` never
falls for good, `items` never rises, inserts run over the ring as often as they like and removes
wait for ever.

* `not_boundedFifo_of_insert` is one insert by itself: an item is stored, and every slot is free.
* `Stuck` is the invariant of the runs without an insert: nothing has happened.
* `sbufModule_bounded_iff` says exactly when the module still does what a bounded buffer promises,
  which is when no thread begins with an insert.
* `sbufModule_overwrites` is a run in which the promise fails in the worst way, and an item is lost.

## The argument

**If some thread begins with an insert**, that thread can make it before any other has moved. The
run ends between calls, where `BoundedFifo` has the semaphores count the cells, and they do not: one
cell is filled, and `slots` says that none is.

**If no thread does**, each begins with a remove or makes no call at all, and a remove waits for an
item that nobody will announce. Then no cell is accessed in any run, and all the promises hold
because there is nothing to be said.

## What the results rest on

The promises are `BoundedFifo`, the same definition that `echoserverPre_bounded` proves of the other
file whatever its threads call. The threads are the members of any type, with any lists of calls,
and the capacity is at least one.
-/

namespace CsappCode.Threads

open Interleaving (State Steps)

variable {ι : Type*} [DecidableEq ι]

/-! ### One insert -/

/-- What the eight steps of an insert report. -/
def insertEvents (cell : ℕ) (x : Item) : List Event :=
  List.replicate 5 .silent ++ [.stored cell x, .silent, .silent]

/-- An insert into the empty buffer gives back the slot and announces no item. -/
theorem runAlone_insert (n : ℕ) (x : Item) (cs : List Call) :
    Interleaving.runAlone SbufModule.code.program 8 (sbufInit (n + 1)) ⟨.idle, .insert x :: cs⟩ =
      some (insertEvents (1 % (n + 1)) x,
        { sbufInit (n + 1) with buf := Function.update (fun _ ↦ 0) (1 % (n + 1)) x, rear := 1 },
        ⟨.idle, cs⟩) := rfl

/-- After one insert the module is no bounded buffer: an item is stored and every slot is free. -/
theorem not_boundedFifo_of_insert {n : ℕ} (hn : 1 ≤ n) {calls : ι → List Call} {i : ι} {x : Item}
    {cs : List Call} (hi : calls i = .insert x :: cs) : ¬ BoundedFifo SbufModule.code n calls := by
  intro hfifo
  obtain ⟨m, rfl⟩ := Nat.exists_eq_add_of_le' hn
  have hrun := runAlone_insert m x cs
  rw [← hi] at hrun
  have hs := Interleaving.steps_of_runAlone (s := initial (m + 1) calls) i 8 hrun
  obtain ⟨-, -, hquiet⟩ := hfifo hs
  have hcounts := hquiet fun j ↦ by
    rcases eq_or_ne j i with rfl | hne
    · rw [State.advance_thread_self]
    · rw [State.advance_thread_of_ne _ _ _ hne]
      rfl
  have hslots := hcounts.slots
  have hstored : stored ((insertEvents (1 % (m + 1)) x).map (Prod.mk i)) = 1 := rfl
  rw [hstored] at hslots
  exact absurd hslots (Nat.succ_ne_self _)

/-! ### No insert -/

/-- Nothing has happened: threads that begin with a remove wait for an item. -/
structure Stuck (n : ℕ) (calls : ι → List Call) (h : List (ι × Event)) (s : State ι Sbuf Thread) :
    Prop where
  slots : s.shared.slots = n
  items : s.shared.items = 0
  silent : ∀ e ∈ h, e.2 = .silent
  threads : ∀ i, s.thread i = ⟨.idle, calls i⟩ ∨ (s.thread i).pc = .remove .waitItems

omit [DecidableEq ι] in
/-- A history of silent steps stores and fetches nothing. -/
theorem inserted_eq_nil_of_silent {h : List (ι × Event)} (hsilent : ∀ e ∈ h, e.2 = .silent) :
    inserted h = [] ∧ removed h = [] ∧ ∀ S, NeverOverwrites S h := by
  induction h with
  | nil => exact ⟨rfl, rfl, fun _ ↦ trivial⟩
  | cons e h ih =>
    obtain ⟨hins, hrem, hclear⟩ := ih fun e' he' ↦ hsilent e' (List.mem_cons_of_mem _ he')
    obtain ⟨i, e⟩ := e
    obtain rfl : e = .silent := hsilent _ List.mem_cons_self
    exact ⟨hins, hrem, fun S ↦ ⟨fun _ _ heq ↦ absurd heq (by simp), hclear S⟩⟩

theorem Stuck.step {n : ℕ} {calls : ι → List Call} {h : List (ι × Event)} {s : State ι Sbuf Thread}
    {i : ι} {e : Event} {sp' : Sbuf} {th' : Thread} (hcalls : ∀ i x cs, calls i ≠ .insert x :: cs)
    (hstuck : Stuck n calls h s) (hm : Move SbufModule.code s.shared (s.thread i) e sp' th') :
    Stuck n calls (h ++ [(i, e)]) (s.advance i sp' th') := by
  -- the only thread that can move is one that has made no call, and its call is a remove
  obtain ⟨rfl, rfl, hpc⟩ : e = .silent ∧ sp' = s.shared ∧ th'.pc = .remove .waitItems := by
    rcases hstuck.threads i with hi | hi
    · generalize hth : s.thread i = th at hm
      cases hm
      case call c cs =>
        cases c with
        | insert x => exact absurd (Thread.mk.inj (hth.symm.trans hi)).2.symm (hcalls i x cs)
        | remove => exact ⟨rfl, rfl, rfl⟩
      all_goals exact absurd (Thread.mk.inj (hth.symm.trans hi)).1 (by simp)
    · generalize hth : s.thread i = th at hm hi
      have hitems := hstuck.items
      cases hm
      case removeWait hv => omega
      all_goals exact absurd hi (by simp)
  refine ⟨hstuck.slots, hstuck.items, ?_, fun j ↦ ?_⟩
  · intro e he
    rcases List.mem_append.1 he with he | he
    · exact hstuck.silent e he
    · rw [List.mem_singleton.1 he]
  · rcases eq_or_ne j i with rfl | hne
    · rw [State.advance_thread_self]
      exact .inr hpc
    · rw [State.advance_thread_of_ne _ _ _ hne]
      exact hstuck.threads j

/-! ### Exactly when the module is a bounded buffer -/

/-- **The module is a bounded FIFO queue only while nobody inserts.** For every capacity, the
promises of a bounded buffer hold along every interleaving if and only if no thread begins with an
insert. -/
theorem sbufModule_bounded_iff {n : ℕ} (hn : 1 ≤ n) (calls : ι → List Call) :
    BoundedFifo SbufModule.code n calls ↔ ∀ i x cs, calls i ≠ .insert x :: cs := by
  refine ⟨fun hfifo i x cs hi ↦ ?_, fun hcalls h s hs ↦ ?_⟩
  · exact not_boundedFifo_of_insert hn hi hfifo
  · have hstuck : Stuck n calls h s := by
      refine hs.invariant (I := Stuck n calls) ⟨rfl, rfl, by simp, fun i ↦ .inl rfl⟩ ?_
      intro h s i e sp' th' hstuck hP
      exact hstuck.step hcalls (move_of_program hP)
    obtain ⟨hins, hrem, hclear⟩ := inserted_eq_nil_of_silent hstuck.silent
    have hstored : stored h = 0 := by rw [stored, hins, List.length_nil, Nat.zero_sub]
    refine ⟨hclear ∅, ?_, fun _ ↦ CountsStored.of_semaphores ?_ ?_⟩
    · rw [hins, hrem]
    · rw [hstored, hstuck.slots, Nat.add_zero]
    · rw [hstored, hstuck.items]

/-- A single thread that only removes. -/
theorem sbufModule_bounded_removes : BoundedFifo SbufModule.code 4 (fun _ : Unit ↦ [.remove]) :=
  (sbufModule_bounded_iff (by decide) _).2 (by simp)

/-- **Two inserts overwrite** in a buffer of one cell: the first item is lost. -/
theorem sbufModule_overwrites :
    ¬ BoundedFifo SbufModule.code 1 (fun _ : Unit ↦ [.insert 5, .insert 6]) := by
  intro hfifo
  have hrun : Interleaving.runAlone SbufModule.code.program 16 (sbufInit 1)
      ⟨.idle, [.insert 5, .insert 6]⟩ = some (insertEvents 0 5 ++ insertEvents 0 6, _) := rfl
  have hs := Interleaving.steps_of_runAlone
    (s := initial 1 fun _ : Unit ↦ [.insert 5, .insert 6]) () 16 hrun
  obtain ⟨hclear, -, -⟩ := hfifo hs
  simp [insertEvents, NeverOverwrites, Event.occupy] at hclear

end CsappCode.Threads
