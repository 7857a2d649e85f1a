import CsappCode.Library.ReadersWriters

/-!
# Threads that choose their calls

In `ReadersWriters` the calls of a thread are given from the start. A `Client` chooses each call
when it makes it, from a local state that follows what the calls report. Whatever it chooses, a run
of clients is a run with the calls given: those that it turns out to make (`Client.steps_erase`). So
all that holds of every list of calls holds of clients.

* `Client.program_cases` says what a step of a client is.
* `label_returned` relates the calls of writers to those that have returned, and `nodup_returned` is
  for threads that write at most once.
* `Reads` and `Writes` are the sections on data that nobody else changes. `Client.alone_reader` and
  `Client.alone_writer` are the calls of a thread that nobody disturbs, with which runs are built.

## How a client is used

**A client** has a state of its own, a function that chooses the next call from it, and a function
that tells it what a step of its call has reported. It may also end, by choosing no call.

**Two ways of reasoning** come with it. What the protocol promises is carried over by
`Client.steps_erase`, without a new induction. What a client itself keeps to, such as the order of
its calls, is an invariant of the run, and `Client.program_cases` is its step.

**A label** is what a writer keeps from its call to its return. It identifies the calls when the
writers' states change in between.
-/

namespace ReadersWriters

open Interleaving (Program State Steps runAlone)

variable {δ ρ ω ε κ : Type*}

/-! ### Clients -/

/-- The next call between calls, and what the client makes of each step of a call. -/
structure Client (ρ ω ε κ : Type*) where
  next : κ → Option (Call ρ ω × κ)
  told : κ → Event ρ ω ε → κ

/-- A thread, with the state of its client. -/
structure ClientThread (ρ ω κ : Type*) where
  pc : Pc ρ ω
  client : κ

/-- One step of a thread. -/
def Client.program (C : Client ρ ω ε κ) (S : Sections δ ρ ω ε) :
    Program (Shared δ) (ClientThread ρ ω κ) (Event ρ ω ε) := fun sh th ↦
  match th.pc with
  | .idle => (C.next th.client).map fun q ↦ (.called q.1, sh, ⟨q.1.enter, q.2⟩)
  | pc => (S.program sh ⟨pc, []⟩).map fun q ↦ (q.1, q.2.1, ⟨q.2.2.pc, C.told th.client q.1⟩)

/-- Both semaphores free, nobody inside. -/
def Client.initial {ι : Type*} (data : δ) (clients : ι → κ) :
    State ι (Shared δ) (ClientThread ρ ω κ) :=
  ⟨⟨1, 1, 0, data⟩, fun i ↦ ⟨.idle, clients i⟩⟩

/-- The calls a thread has made. -/
def callOf : Event ρ ω ε → Option (Call ρ ω)
  | .called c => some c
  | _ => none

variable {S : Sections δ ρ ω ε} {C : Client ρ ω ε κ}

theorem program_congr_todo {sh : Shared δ} {pc : Pc ρ ω} (hpc : pc ≠ .idle)
    (cs : List (Call ρ ω)) : S.program sh ⟨pc, cs⟩ =
      (S.program sh ⟨pc, []⟩).map fun q ↦ (q.1, q.2.1, ⟨q.2.2.pc, cs⟩) := by
  cases pc with
  | idle => exact absurd rfl hpc
  | reader r at' => simp [Sections.program, Option.map_map, Function.comp_def]
  | takeW x => simp [Sections.program, Option.map_map, Function.comp_def]
  | writing x =>
    simp only [Sections.program]
    rcases S.write sh.data x with - | ⟨d, x'⟩ <;> rfl

/-- No step inside a call makes another call. -/
theorem callOf_of_program {sh sh' : Shared δ} {pc : Pc ρ ω} {cs : List (Call ρ ω)}
    {th' : Thread ρ ω} {e : Event ρ ω ε} (hpc : pc ≠ .idle)
    (h : S.program sh ⟨pc, cs⟩ = some (e, sh', th')) : callOf e = none := by
  cases move_of_program h
  case call c cs => exact absurd rfl hpc
  all_goals rfl

/-- **What a step of a client is**: a call it chooses, or a step of the protocol it is told of. -/
theorem Client.program_cases {sh sh' : Shared δ} {th th' : ClientThread ρ ω κ} {e : Event ρ ω ε}
    (h : C.program S sh th = some (e, sh', th')) :
    (∃ c, th.pc = .idle ∧ C.next th.client = some (c, th'.client) ∧ e = .called c ∧ sh' = sh ∧
      th'.pc = c.enter) ∨
    (th.pc ≠ .idle ∧ callOf e = none ∧ th'.client = C.told th.client e ∧
      ∀ cs, S.program sh ⟨th.pc, cs⟩ = some (e, sh', ⟨th'.pc, cs⟩)) := by
  obtain ⟨pc, q⟩ := th
  rcases Classical.em (pc = .idle) with rfl | hpc
  · obtain ⟨⟨c, q'⟩, hnext, heq⟩ := Option.map_eq_some_iff.1 h
    obtain ⟨rfl, rfl, rfl⟩ : Event.called c = e ∧ sh = sh' ∧ ⟨c.enter, q'⟩ = th' := by
      simpa using heq
    exact .inl ⟨c, rfl, hnext, rfl, rfl, rfl⟩
  · have hprogram : (S.program sh ⟨pc, []⟩).map (fun r ↦
        (r.1, r.2.1, (⟨r.2.2.pc, C.told q r.1⟩ : ClientThread ρ ω κ))) = some (e, sh', th') := by
      rw [← h, Client.program]
      cases pc with
      | idle => exact absurd rfl hpc
      | _ => rfl
    obtain ⟨⟨e', sh'', th''⟩, hstep, heq⟩ := Option.map_eq_some_iff.1 hprogram
    obtain ⟨rfl, rfl, rfl⟩ : e' = e ∧ sh'' = sh' ∧ ⟨th''.pc, C.told q e'⟩ = th' := by
      simpa using heq
    refine .inr ⟨hpc, callOf_of_program hpc hstep, rfl, fun cs ↦ ?_⟩
    rw [program_congr_todo hpc, hstep]
    rfl

/-! ### Runs with the calls given -/

section Erase

variable {ι : Type*} [DecidableEq ι]

/-- The calls made by one thread. -/
def callsBy (i : ι) (h : List (ι × Event ρ ω ε)) : List (Call ρ ω) :=
  h.filterMap fun e ↦ if e.1 = i then callOf e.2 else none

theorem callsBy_append_self (i : ι) (h : List (ι × Event ρ ω ε)) (e : Event ρ ω ε) :
    callsBy i (h ++ [(i, e)]) = callsBy i h ++ (callOf e).toList := by
  rw [callsBy, callsBy, List.filterMap_append]
  rcases hcall : callOf e with - | c <;> simp [hcall]

theorem callsBy_append_of_ne {i j : ι} (hne : j ≠ i) (h : List (ι × Event ρ ω ε))
    (e : Event ρ ω ε) : callsBy j (h ++ [(i, e)]) = callsBy j h := by
  rw [callsBy, callsBy, List.filterMap_append]
  simp [hne.symm]

omit [DecidableEq ι] in
/-- The state with the clients left out, each thread with calls that it has still to make. -/
def erase (s : State ι (Shared δ) (ClientThread ρ ω κ)) (todo : ι → List (Call ρ ω)) :
    State ι (Shared δ) (Thread ρ ω) :=
  ⟨s.shared, fun i ↦ ⟨(s.thread i).pc, todo i⟩⟩

omit [DecidableEq ι] in
theorem erase_thread (s : State ι (Shared δ) (ClientThread ρ ω κ)) (todo : ι → List (Call ρ ω))
    (i : ι) : (erase s todo).thread i = ⟨(s.thread i).pc, todo i⟩ := rfl

theorem erase_advance (s : State ι (Shared δ) (ClientThread ρ ω κ)) (i : ι) (sh : Shared δ)
    (th : ClientThread ρ ω κ) (todo : ι → List (Call ρ ω)) :
    erase (s.advance i sh th) todo = (erase s todo).advance i sh ⟨th.pc, todo i⟩ := by
  refine congrArg (State.mk sh) (funext fun j ↦ ?_)
  rcases eq_or_ne j i with rfl | hne
  · simp only [State.advance_thread_self, Function.update_self]
  · simp only [s.advance_thread_of_ne sh th hne, Function.update_of_ne hne, erase]

/-- **A run of clients is a run with the calls given.** -/
theorem Client.steps_erase {d : δ} {clients : ι → κ} {h : List (ι × Event ρ ω ε)}
    {s : State ι (Shared δ) (ClientThread ρ ω κ)}
    (hs : Steps (C.program S) (Client.initial d clients) h s) :
    ∀ todo, Steps S.program (ReadersWriters.initial d fun i ↦ callsBy i h ++ todo i) h
      (erase s todo) := by
  induction hs with
  | start => exact fun todo ↦ .start
  | @step h s i e sh th _ hP ih =>
    intro todo
    rcases Client.program_cases hP with ⟨c, hpc, -, rfl, rfl, hpc'⟩ | ⟨hpc, hcall, -, hstep⟩
    · -- the call was still to be made
      have hrun := ih (Function.update todo i (c :: todo i))
      have hcalls : (fun j ↦ callsBy j h ++ Function.update todo i (c :: todo i) j) =
          fun j ↦ callsBy j (h ++ [(i, .called c)]) ++ todo j := by
        funext j
        rcases eq_or_ne j i with rfl | hne
        · rw [Function.update_self, callsBy_append_self]
          simp [callOf]
        · rw [Function.update_of_ne hne, callsBy_append_of_ne hne]
      have hthread : (erase s (Function.update todo i (c :: todo i))).thread i =
          ⟨.idle, c :: todo i⟩ := by
        rw [erase_thread, hpc, Function.update_self]
      have hstep : S.program s.shared ((erase s (Function.update todo i (c :: todo i))).thread i) =
          some (.called c, s.shared, ⟨c.enter, todo i⟩) := by
        rw [hthread]
        rfl
      have hlast := hrun.step hstep
      rw [hcalls] at hlast
      convert hlast using 1
      rw [erase_advance, hpc']
      refine congrArg (State.mk s.shared) (funext fun j ↦ ?_)
      rcases eq_or_ne j i with rfl | hne
      · simp only [Function.update_self]
      · simp only [Function.update_of_ne hne, erase]
    · have hcalls : (fun j ↦ callsBy j (h ++ [(i, e)]) ++ todo j) =
          fun j ↦ callsBy j h ++ todo j := by
        funext j
        rcases eq_or_ne j i with rfl | hne
        · rw [callsBy_append_self, hcall, Option.toList_none, List.append_nil]
        · rw [callsBy_append_of_ne hne]
      rw [hcalls, erase_advance]
      exact (ih todo).step (hstep (todo i))

end Erase

/-! ### What has returned -/

section Returned

variable {ι : Type*}

/-- The call of a writer that returns. -/
def returnOf : Event ρ ω ε → Option ω
  | .writerReturned x => some x
  | _ => none

/-- The calls of writers that have returned, each with its thread. -/
def returned (h : List (ι × Event ρ ω ε)) : List (ι × ω) :=
  h.filterMap fun e ↦ (returnOf e.2).map (Prod.mk e.1)

theorem map_snd_returned (h : List (ι × Event ρ ω ε)) :
    (returned h).map Prod.snd = finished h := by
  induction h with
  | nil => rfl
  | cons e h ih =>
    rcases e with ⟨i, _ | _ | _ | _ | _⟩ <;> simpa [returned, returnOf, finished] using ih

/-- The writers among some calls. -/
def writersOf (cs : List (Call ρ ω)) : List ω :=
  cs.filterMap fun c ↦ match c with
    | .reader _ => none
    | .writer x => some x

/-- The call of a writer under way. -/
def underway (th : Thread ρ ω) : List ω :=
  match th.pc with
  | .takeW x | .writing x => [x]
  | _ => []

variable [DecidableEq ι]

/-- The calls of writers that have returned to one thread. -/
def returnedTo (i : ι) (h : List (ι × Event ρ ω ε)) : List ω :=
  h.filterMap fun e ↦ if e.1 = i then returnOf e.2 else none

theorem mem_returnedTo {i : ι} {x : ω} {h : List (ι × Event ρ ω ε)} (hx : (i, x) ∈ returned h) :
    x ∈ returnedTo i h := by
  obtain ⟨⟨j, e⟩, he, hpair⟩ := List.mem_filterMap.1 hx
  obtain ⟨y, hy, heq⟩ := Option.map_eq_some_iff.1 hpair
  obtain ⟨rfl, rfl⟩ := Prod.mk.inj heq
  exact List.mem_filterMap.2 ⟨_, he, by rw [if_pos rfl, hy]⟩

theorem count_returned (i : ι) (h : List (ι × Event ρ ω ε)) :
    ((returned h).map Prod.fst).count i = (returnedTo i h).length := by
  induction h with
  | nil => rfl
  | cons e h ih =>
    obtain ⟨j, e⟩ := e
    rcases he : returnOf e with - | x
    · simpa [returned, returnedTo, he] using ih
    · rcases eq_or_ne j i with rfl | hne
      · simpa [returned, returnedTo, he] using ih
      · simpa [returned, returnedTo, he, hne] using ih

/-- **Each call of a writer returns once**, in the order of the calls: those that have returned to a
thread and the one under way are those it has made. Here `label` is what a writer keeps. -/
theorem label_returned {α : Type*} {label : ω → α}
    (hlabel : ∀ {d x d' x'}, S.write d x = some (d', x') → label x' = label x) {d : δ}
    {calls : ι → List (Call ρ ω)} {h : List (ι × Event ρ ω ε)}
    {s : State ι (Shared δ) (Thread ρ ω)} (hs : Steps S.program (initial d calls) h s) (i : ι) :
    (returnedTo i h ++ underway (s.thread i)).map label =
      (writersOf (callsBy i h)).map label := by
  revert i
  refine hs.invariant (I := fun h s ↦ ∀ i, (returnedTo i h ++ underway (s.thread i)).map label =
    (writersOf (callsBy i h)).map label) (fun _ ↦ rfl) ?_
  intro h s i e sh' th' ih hP j
  rcases eq_or_ne j i with rfl | hne
  · have hreturned : returnedTo j (h ++ [(j, e)]) = returnedTo j h ++ (returnOf e).toList := by
      rw [returnedTo, returnedTo, List.filterMap_append]
      rcases hr : returnOf e with - | x <;> simp [hr]
    -- what a step adds on either side
    have hmove : ((returnOf e).toList ++ underway th').map label =
        (underway (s.thread j) ++ writersOf (callOf e).toList).map label := by
      generalize s.thread j = th at hP
      cases move_of_program hP
      case call c cs => cases c <;> rfl
      case write hwrite => simpa [underway, returnOf, callOf, writersOf] using hlabel hwrite
      all_goals rfl
    rw [State.advance_thread_self, hreturned, callsBy_append_self]
    calc ((returnedTo j h ++ (returnOf e).toList) ++ underway th').map label
        = (returnedTo j h).map label ++ ((returnOf e).toList ++ underway th').map label := by
          rw [List.append_assoc, List.map_append]
      _ = (returnedTo j h).map label ++
          (underway (s.thread j) ++ writersOf (callOf e).toList).map label := by rw [hmove]
      _ = (returnedTo j h ++ underway (s.thread j)).map label ++
          (writersOf (callOf e).toList).map label := by
          rw [List.map_append, List.map_append, List.append_assoc]
      _ = (writersOf (callsBy j h ++ (callOf e).toList)).map label := by
          rw [ih j, ← List.map_append, writersOf, writersOf, writersOf, List.filterMap_append]
  · have hreturned : returnedTo j (h ++ [(i, e)]) = returnedTo j h := by
      rw [returnedTo, returnedTo, List.filterMap_append]
      simp [hne.symm]
    rw [s.advance_thread_of_ne sh' th' hne, hreturned, callsBy_append_of_ne hne]
    exact ih j

/-- **Threads that call a writer at most once** have it return at most once, and not before it is
through. -/
theorem nodup_returned {α : Type*} {label : ω → α}
    (hlabel : ∀ {d x d' x'}, S.write d x = some (d', x') → label x' = label x) {d : δ}
    {calls : ι → List (Call ρ ω)} {h : List (ι × Event ρ ω ε)}
    {s : State ι (Shared δ) (Thread ρ ω)} (hs : Steps S.program (initial d calls) h s)
    (hone : ∀ i, (writersOf (callsBy i h)).length ≤ 1) :
    ((returned h).map Prod.fst).Nodup ∧
      ∀ i x, x ∈ underway (s.thread i) → i ∉ (returned h).map Prod.fst := by
  have hlength : ∀ i, (returnedTo i h).length + (underway (s.thread i)).length ≤ 1 := by
    intro i
    have heq := congrArg List.length (label_returned hlabel hs i)
    rw [List.length_map, List.length_map, List.length_append] at heq
    exact heq.trans_le (hone i)
  refine ⟨List.nodup_iff_count_le_one.2 fun i ↦ ?_, fun i x hx hmem ↦ ?_⟩
  · rw [count_returned]
    exact (Nat.le_add_right _ _).trans (hlength i)
  · have hcount := List.count_pos_iff.2 hmem
    have hpos := List.length_pos_of_mem hx
    have := hlength i
    rw [count_returned] at hcount
    omega

end Returned

/-! ### Calls that nobody disturbs -/

section Alone

open Interleaving (Alone)

/-- What a reader's section does on data that nobody changes. -/
inductive Reads (S : Sections δ ρ ω ε) (d : δ) : ρ → ρ → Prop
  | done {r : ρ} : S.read d r = none → Reads S d r r
  | turn {r r' r'' : ρ} {e : ε} : S.read d r = some (e, r') → Reads S d r' r'' → Reads S d r r''

/-- What a writer's section does. -/
inductive Writes (S : Sections δ ρ ω ε) : δ → ω → δ → ω → Prop
  | done {d : δ} {x : ω} : S.write d x = none → Writes S d x d x
  | turn {d d' d'' : δ} {x x' x'' : ω} : S.write d x = some (d', x') → Writes S d' x' d'' x'' →
      Writes S d x d'' x''

/-- A client that waits for its call to return. -/
structure Client.Waits (C : Client ρ ω ε κ) (q : κ) : Prop where
  silent : C.told q .silent = q
  read : ∀ e, C.told q (.read e) = q

theorem Client.program_eq {sh sh' : Shared δ} {pc pc' : Pc ρ ω} {e : Event ρ ω ε} {q q' : κ}
    (hpc : pc ≠ .idle) (h : S.program sh ⟨pc, []⟩ = some (e, sh', ⟨pc', []⟩))
    (htold : C.told q e = q') : C.program S sh ⟨pc, q⟩ = some (e, sh', ⟨pc', q'⟩) := by
  have hprogram : C.program S sh ⟨pc, q⟩ = (S.program sh ⟨pc, []⟩).map fun r ↦
      (r.1, r.2.1, ⟨r.2.2.pc, C.told q r.1⟩) := by
    rw [Client.program]
    cases pc with
    | idle => exact absurd rfl hpc
    | _ => rfl
  rw [hprogram, h, ← htold]
  rfl

theorem Reads.alone {d : δ} {r r' : ρ} {q : κ} (h : Reads S d r r') (hwaits : C.Waits q) :
    Alone (C.program S) ⟨1, 0, 1, d⟩ ⟨.reader r .reading, q⟩
      ⟨0, 0, 1, d⟩ ⟨.reader r' .loadDec, q⟩ := by
  induction h with
  | done h =>
    refine .step (Client.program_eq (by simp) ?_ hwaits.silent) .refl
    simp [Sections.program, Sections.reader, h, Interleaving.wait]
  | @turn _ _ _ e h _ ih =>
    refine .step (Client.program_eq (by simp) ?_ (hwaits.read e)) ih
    simp [Sections.program, Sections.reader, h]

/-- **A reader that nobody disturbs.** -/
theorem Client.alone_reader {d : δ} {r r' : ρ} {q q' : κ} (hnext : C.next q = some (.reader r, q'))
    (hwaits : C.Waits q') (h : Reads S d r r') :
    Alone (C.program S) ⟨1, 1, 0, d⟩ ⟨.idle, q⟩
      ⟨1, 1, 0, d⟩ ⟨.idle, C.told q' (.readerReturned r')⟩ := by
  have hcall : C.program S ⟨1, 1, 0, d⟩ ⟨.idle, q⟩ =
      some (.called (.reader r), ⟨1, 1, 0, d⟩, ⟨.reader r .lockIn, q'⟩) := by
    rw [Client.program, hnext]
    rfl
  have hstep : ∀ {sh sh' : Shared δ} {pc pc' : Pc ρ ω}, pc ≠ .idle →
      S.program sh ⟨pc, []⟩ = some (.silent, sh', ⟨pc', []⟩) →
      C.program S sh ⟨pc, q'⟩ = some (.silent, sh', ⟨pc', q'⟩) := fun hpc h ↦
    Client.program_eq hpc h hwaits.silent
  refine .step hcall (.step (hstep (by simp) rfl) (.step (hstep (by simp) rfl)
    (.step (hstep (by simp) rfl) (.step (hstep (by simp) rfl) (.step (hstep (by simp) rfl)
    (.step (hstep (by simp) rfl) ((h.alone hwaits).trans ?_)))))))
  exact .step (hstep (by simp) rfl) (.step (hstep (by simp) rfl) (.step (hstep (by simp) rfl)
    (.step (hstep (by simp) rfl) (.step (Client.program_eq (by simp) rfl rfl) .refl))))

theorem Writes.alone {d d' : δ} {x x' : ω} {q : κ} (h : Writes S d x d' x') (hwaits : C.Waits q) :
    Alone (C.program S) ⟨1, 0, 0, d⟩ ⟨.writing x, q⟩
      ⟨1, 1, 0, d'⟩ ⟨.idle, C.told q (.writerReturned x')⟩ := by
  induction h with
  | done h =>
    refine .step (Client.program_eq (by simp) ?_ rfl) .refl
    simp [Sections.program, h, Interleaving.post]
  | turn h _ ih =>
    refine .step (Client.program_eq (by simp) ?_ hwaits.silent) ih
    simp [Sections.program, h]

/-- **A writer that nobody disturbs.** -/
theorem Client.alone_writer {d d' : δ} {x x' : ω} {q q' : κ}
    (hnext : C.next q = some (.writer x, q')) (hwaits : C.Waits q') (h : Writes S d x d' x') :
    Alone (C.program S) ⟨1, 1, 0, d⟩ ⟨.idle, q⟩
      ⟨1, 1, 0, d'⟩ ⟨.idle, C.told q' (.writerReturned x')⟩ := by
  have hcall : C.program S ⟨1, 1, 0, d⟩ ⟨.idle, q⟩ =
      some (.called (.writer x), ⟨1, 1, 0, d⟩, ⟨.takeW x, q'⟩) := by
    rw [Client.program, hnext]
    rfl
  exact .step hcall (.step (Client.program_eq (by simp) rfl hwaits.silent) (h.alone hwaits))

end Alone

end ReadersWriters
