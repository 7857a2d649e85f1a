import CsappCode.Threads.BoundedBuffer

/-!
# The buffer of `echoserver_pre.c` does not deadlock

A thread inside `sbuf_insert` or `sbuf_remove` can be held up in three places. `stuck_cases` names
them: an insert before `P(&slots)`, a remove before `P(&items)`, and either before `P(&mutex)`.

* `Exclusive.waiting_of_stuck` says that where no call can go on each waits at its first semaphore.
* `Accounted.progress` says that the buffer is then full, and all are inserts, or empty, and all are
  removes.
* `sbuf_progress` has this for every interleaving, and the values of the semaphores between calls.

## The argument

**The mutex** never holds up everybody, for its holder is at none of the three places: from
`P(&mutex)` to `V(&mutex)` every step can be taken. So where nobody inside can move nobody holds it,
and then it is free, and those inside wait for slots or for items.

**The counting** of `Accounted` does the rest. If an insert waits then `slots` is zero, and since
nobody is between its semaphores, every slot is taken by an item: the buffer is full, and then
`items` is not zero and no remove waits. If a remove waits it is the other way round. With a
capacity of at least one both cannot be.

## What the results rest on

The runs are those of `BoundedBuffer`: any finite number of threads, any list of calls for each, and
every interleaving of their steps. Progress is about one state. It says that some thread inside a
call can take its next step, and not which one will: that a thread is served at last depends on the
scheduler and on the queue of the semaphore.
-/

namespace CsappCode.Threads

open Interleaving (State Steps Enabled total)

/-- The thread is inside a call. -/
def Inside (th : Thread) : Prop := th.pc ≠ .idle

/-- A call that cannot go on waits on a semaphore that is zero. -/
theorem stuck_cases {code : Code} {sp : Sbuf} {th : Thread} (hin : Inside th)
    (hstuck : code.program sp th = none) :
    (∃ x, th.pc = .insert x .waitSlots ∧ sp.slots = 0) ∨
      (th.pc = .remove .waitItems ∧ sp.items = 0) ∨ sp.mutex = 0 ∧ holding th = 0 := by
  obtain ⟨pc, cs⟩ := th
  rcases pc with - | ⟨x, at'⟩ | at'
  · exact absurd rfl hin
  · have hinsert := Option.map_eq_none_iff.1 hstuck
    cases at'
    case waitSlots =>
      exact .inl ⟨x, rfl, Interleaving.eq_zero_of_wait (Option.map_eq_none_iff.1 hinsert)⟩
    case lock =>
      exact .inr (.inr ⟨Interleaving.eq_zero_of_wait (Option.map_eq_none_iff.1 hinsert), rfl⟩)
    all_goals exact absurd hinsert (by simp [sbufInsert])
  · have hremove := Option.map_eq_none_iff.1 hstuck
    cases at'
    case waitItems =>
      exact .inr (.inl ⟨rfl, Interleaving.eq_zero_of_wait (Option.map_eq_none_iff.1 hremove)⟩)
    case lock =>
      exact .inr (.inr ⟨Interleaving.eq_zero_of_wait (Option.map_eq_none_iff.1 hremove), rfl⟩)
    all_goals exact absurd hremove (by simp [sbufRemove])

variable {ι : Type*} [Fintype ι] {n : ℕ} {h : List (ι × Event)} {s : State ι Sbuf Thread}

/-- The buffer is full, and every thread inside is an insert that waits for a slot. -/
structure WaitingFull (n : ℕ) (s : State ι Sbuf Thread) : Prop where
  full : (s.shared.rear : ℤ) - s.shared.front = n
  waiting : ∀ i, Inside (s.thread i) → ∃ x, (s.thread i).pc = .insert x .waitSlots

/-- The buffer is empty, and every thread inside is a remove that waits for an item. -/
structure WaitingEmpty (s : State ι Sbuf Thread) : Prop where
  empty : (s.shared.rear : ℤ) - s.shared.front = 0
  waiting : ∀ i, Inside (s.thread i) → (s.thread i).pc = .remove .waitItems

/-- Where no call is under way or all wait at their first semaphore, the counters say how much is
stored. -/
theorem Accounted.counters (hacc : Accounted n h s)
    (hplaces : ∀ {f : Thread → ℕ}, (∀ cs, f ⟨.idle, cs⟩ = 0) →
      (∀ x cs, f ⟨.insert x .waitSlots, cs⟩ = 0) → (∀ cs, f ⟨.remove .waitItems, cs⟩ = 0) →
      total f s = 0) :
    (s.shared.slots : ℤ) = n - (s.shared.rear - s.shared.front) ∧
      (s.shared.items : ℤ) = s.shared.rear - s.shared.front := by
  have hslots := hacc.slots
  have hitems := hacc.items
  have hrear := hacc.rear
  have hfront := hacc.front
  rw [hplaces (fun _ ↦ rfl) (fun _ _ ↦ rfl) fun _ ↦ rfl,
    hplaces (fun _ ↦ rfl) (fun _ _ ↦ rfl) fun _ ↦ rfl] at hslots hitems
  rw [hplaces (fun _ ↦ rfl) (fun _ _ ↦ rfl) fun _ ↦ rfl] at hrear hfront
  omega

/-- **Where no call can go on** each waits at its first semaphore, for the holder of the mutex could
go on. -/
theorem Exclusive.waiting_of_stuck (hex : Exclusive s)
    (hstuck : ∀ i, Inside (s.thread i) → ¬ Enabled EchoserverPre.code.program s i) :
    ∀ i, Inside (s.thread i) →
      (∃ x, (s.thread i).pc = .insert x .waitSlots ∧ s.shared.slots = 0) ∨
        ((s.thread i).pc = .remove .waitItems ∧ s.shared.items = 0) := by
  have hcases := fun i hi ↦ stuck_cases hi (Interleaving.not_enabled_iff.1 (hstuck i hi))
  have hmutex : s.shared.mutex ≠ 0 := by
    intro hzero
    have htotal := hex.mutex
    obtain ⟨i, hi⟩ := Interleaving.exists_of_total_ne_zero holding s (by omega)
    have hin : Inside (s.thread i) := fun hidle ↦ hi (by rw [holding, hidle])
    obtain ⟨x, hpc, -⟩ | ⟨hpc, -⟩ | ⟨-, hhold⟩ := hcases i hin
    · exact hi (by rw [holding, hpc])
    · exact hi (by rw [holding, hpc])
    · exact hi hhold
  intro i hi
  rcases hcases i hi with hinsert | hremove | ⟨hzero, -⟩
  · exact .inl hinsert
  · exact .inr hremove
  · exact absurd hzero hmutex

/-- A weight that is zero between calls and at their first semaphore totals zero when all threads
are there. -/
theorem total_eq_zero_of_waiting
    (hwaiting : ∀ i, Inside (s.thread i) →
      (∃ x, (s.thread i).pc = .insert x .waitSlots) ∨ (s.thread i).pc = .remove .waitItems)
    {f : Thread → ℕ} (hidle : ∀ cs, f ⟨.idle, cs⟩ = 0)
    (hinsert : ∀ x cs, f ⟨.insert x .waitSlots, cs⟩ = 0)
    (hremove : ∀ cs, f ⟨.remove .waitItems, cs⟩ = 0) : total f s = 0 := by
  refine Interleaving.total_eq_zero f s fun i ↦ ?_
  have hcases : (s.thread i).pc = .idle ∨ Inside (s.thread i) := Classical.em _
  rcases hcases.imp_right (hwaiting i) with hpc | ⟨x, hpc⟩ | hpc
  all_goals
    generalize s.thread i = th at hpc
    obtain ⟨pc, cs⟩ := th
    obtain rfl := hpc
  · exact hidle cs
  · exact hinsert x cs
  · exact hremove cs

/-- **No deadlock** but on a full or an empty buffer. -/
theorem Accounted.progress (hacc : Accounted n h s) (hex : Exclusive s) (hn : 1 ≤ n)
    (hin : ∃ i, Inside (s.thread i)) :
    (∃ i, Inside (s.thread i) ∧ Enabled EchoserverPre.code.program s i) ∨ WaitingFull n s ∨
      WaitingEmpty s := by
  rcases Classical.em (∃ i, Inside (s.thread i) ∧ Enabled EchoserverPre.code.program s i)
    with hmove | hnone
  · exact .inl hmove
  refine .inr ?_
  have hwaiting := hex.waiting_of_stuck fun i hi hen ↦ hnone ⟨i, hi, hen⟩
  obtain ⟨hslots, hitems⟩ := hacc.counters <| total_eq_zero_of_waiting fun i hi ↦
    (hwaiting i hi).imp (fun ⟨x, hpc, _⟩ ↦ ⟨x, hpc⟩) And.left
  -- a full buffer has items, and an empty one has slots
  obtain ⟨i, hi⟩ := hin
  rcases hwaiting i hi with ⟨-, -, hzero⟩ | ⟨-, hzero⟩
  · refine .inl ⟨by omega, fun j hj ↦ ?_⟩
    rcases hwaiting j hj with ⟨x, hpc, -⟩ | ⟨-, hzero'⟩
    · exact ⟨x, hpc⟩
    · omega
  · refine .inr ⟨by omega, fun j hj ↦ ?_⟩
    rcases hwaiting j hj with ⟨-, -, hzero'⟩ | ⟨hpc, -⟩
    · omega
    · exact hpc

/-! ### Every interleaving -/

variable [DecidableEq ι]

/-- **The buffer's semaphores and its progress.** Between calls `slots` and `items` count the free
and the filled cells; and when some thread is inside a call then one of those inside can take its
next step, or the buffer is full and all of them insert, or it is empty and all of them remove. -/
theorem sbuf_progress {calls : ι → List Call} (hn : 1 ≤ n)
    (hs : Steps EchoserverPre.code.program (initial n calls) h s) :
    (Quiet s → (s.shared.slots : ℤ) = n - (s.shared.rear - s.shared.front) ∧
      (s.shared.items : ℤ) = s.shared.rear - s.shared.front) ∧
    ((∃ i, Inside (s.thread i)) →
      (∃ i, Inside (s.thread i) ∧ Enabled EchoserverPre.code.program s i) ∨ WaitingFull n s ∨
        WaitingEmpty s) := by
  obtain ⟨hex, hacc, -⟩ := invariant_of_steps hs
  refine ⟨fun hquiet ↦ hacc.counters fun hidle _ _ ↦ ?_, hacc.progress hex hn⟩
  exact total_eq_zero_of_quiet hquiet hidle

/-- A buffer of one cell, with a second insert under way: nobody can go on, for it is full. -/
theorem sbuf_progress_full :
    ∃ (h : List (Unit × Event)) (s : State Unit Sbuf Thread),
      Steps EchoserverPre.code.program (initial 1 fun _ : Unit ↦ [.insert 7, .insert 8]) h s ∧
      Inside (s.thread ()) ∧ ¬ Enabled EchoserverPre.code.program s () ∧ WaitingFull 1 s := by
  obtain ⟨⟨h, s⟩, hrun⟩ : ∃ r, Interleaving.run EchoserverPre.code.program
      (initial 1 fun _ : Unit ↦ [.insert 7, .insert 8]) (List.replicate 9 ()) = some r :=
    Option.isSome_iff_exists.1 (by decide)
  have hend : (Interleaving.run EchoserverPre.code.program
      (initial 1 fun _ : Unit ↦ [.insert 7, .insert 8]) (List.replicate 9 ())).map
        (fun r ↦ ((r.2.thread ()).pc, r.2.shared.slots)) = some (.insert 8 .waitSlots, 0) := by
    decide
  rw [hrun, Option.map_some, Option.some.injEq, Prod.mk.injEq] at hend
  obtain ⟨hpc, hslots⟩ : (s.thread ()).pc = .insert 8 .waitSlots ∧ s.shared.slots = 0 := hend
  have hs := Interleaving.steps_of_run _ hrun
  have hin : Inside (s.thread ()) := fun hidle ↦ by simp [hidle] at hpc
  have hstuck : ¬ Enabled EchoserverPre.code.program s () := by
    rw [Interleaving.not_enabled_iff, Code.program, hpc]
    simp only [sbufInsert, hslots, Interleaving.wait, Option.map_none]
  refine ⟨h, s, hs, hin, hstuck, ?_⟩
  rcases (sbuf_progress le_rfl hs).2 ⟨(), hin⟩ with ⟨⟨⟩, -, hen⟩ | hfull | hempty
  · exact absurd hen hstuck
  · exact hfull
  · exact absurd ((hempty.waiting () hin).symm.trans hpc) (by simp)

end CsappCode.Threads
