import CsappCode.Threads.Sbuf
import CsappCode.Library.WrappingRing

/-!
# The indices of the ring

`thread/echoserver_pre.c` never reduces `front` and `rear`; it takes them modulo `n` when it uses
them. Here they are the 32-bit `int`s of the source, which wrap, and the index is the truncated
remainder.

* `Counted` is the invariant: along every interleaving the k-th insert has the index of the count
  `k`, and so has the k-th remove.
* `indices_of_steps` has it for every run, and says so of the accesses in the history.
* `ring_indices_iff` says for which runs the indices stay in the ring.
* `exists_round_trips` makes the counters as large as one likes, so the condition is not met by all
  runs.

## How the code is modelled

**One procedure.** `sbuf_insert` and `sbuf_remove` wait on a semaphore, take the mutex, advance a
counter, access the array, and post. They are given once, with the semaphores, the counter and the
access as parameters (`Operation`).

**The array** is given by its cells and by what lies before and behind them. An index outside is
some other place in memory, and the model lets the run go on, so that the indices of all later
accesses can be spoken of as well.

## What the results rest on

**The capacity** is any positive `int`. With one cell the index is zero whatever the counter.
Otherwise the remainders of the counts are in order up to the last `int`, and the first negative one
breaks the ring; where `n` divides `2 ^ 31` the smallest `int` itself still has the remainder zero.
This is arithmetic of wrapping words, and stands in the library as `WrappingRing`.

**The semaphores** are natural numbers, whose counts are of no importance here.
-/

namespace CsappCode.Threads.Wrapping

open Interleaving (Program State Steps wait post total total_step)
open WrappingRing (slot slots lastCount)

/-- `sbuf_t`. The array is given by its cells, and what lies before and behind them. -/
structure Sbuf where
  buf : ℤ → Item
  n : BitVec 32
  front : BitVec 32
  rear : BitVec 32
  mutex : ℕ
  slots : ℕ
  items : ℕ

/-- `sbuf_init`. -/
def sbufInit (n : BitVec 32) : Sbuf := ⟨fun _ ↦ 0, n, 0, 0, 1, n.toNat, 0⟩

/-- The value of a counting semaphore. -/
def Sbuf.sem (sp : Sbuf) : Sem → ℕ
  | .slots => sp.slots
  | .items => sp.items

def Sbuf.setSem (sp : Sbuf) : Sem → ℕ → Sbuf
  | .slots, v => { sp with slots := v }
  | .items, v => { sp with items := v }

/-- The two counters. -/
inductive Counter where
  | front
  | rear
  deriving DecidableEq, Repr

def Sbuf.counter (sp : Sbuf) : Counter → BitVec 32
  | .front => sp.front
  | .rear => sp.rear

def Sbuf.setCounter (sp : Sbuf) : Counter → BitVec 32 → Sbuf
  | .front, v => { sp with front := v }
  | .rear, v => { sp with rear := v }

/-- What a step reports: an access to the array, by the counter that chose the index, the return of
`sbuf_remove`, or nothing. -/
inductive Event where
  | silent
  | accessed (counter : Counter) (index : ℤ) (item : Item)
  | returned (item : Item)
  deriving DecidableEq, Repr

/-! ### `sbuf_insert` and `sbuf_remove` -/

/-- Where a call stands. -/
inductive At where
  /-- before the first `P` -/
  | wait
  /-- before `P(&sp->mutex)` -/
  | lock
  /-- before the load of the counter to increment -/
  | load
  /-- before its store; `counter` is the value loaded -/
  | bump (counter : BitVec 32)
  /-- before the access to the array; `counter` is the incremented value -/
  | access (counter : BitVec 32)
  /-- before `V(&sp->mutex)`; `item` is what was stored or loaded -/
  | unlock (item : Item)
  /-- before the last `V` -/
  | post (item : Item)
  deriving DecidableEq, Repr

/-- What the two functions differ in. -/
structure Operation where
  waits : Sem
  counter : Counter
  /-- The item at the index, and the array after the access. -/
  access : ℤ → (ℤ → Item) → Item × (ℤ → Item)
  posts : Sem
  /-- What the return of the function reports. -/
  returns : Item → Event

/-- `sbuf_insert(sp, item)`. -/
def sbufInsert (item : Item) : Operation where
  waits := .slots
  counter := .rear
  access := fun index buf ↦ (item, Function.update buf index item)
  posts := .items
  returns := fun _ ↦ .silent

/-- `sbuf_remove(sp)`. -/
def sbufRemove : Operation where
  waits := .items
  counter := .front
  access := fun index buf ↦ (buf index, buf)
  posts := .slots
  returns := .returned

/-- One step of a call. The call has returned when no place is left. -/
def Operation.step (op : Operation) (sp : Sbuf) : At → Option (Event × Sbuf × Option At)
  | .wait => (wait (sp.sem op.waits)).map fun v ↦ (.silent, sp.setSem op.waits v, some .lock)
  | .lock => (wait sp.mutex).map fun v ↦ (.silent, { sp with mutex := v }, some .load)
  | .load => some (.silent, sp, some (.bump (sp.counter op.counter)))
  | .bump counter =>
    some (.silent, sp.setCounter op.counter (counter + 1), some (.access (counter + 1)))
  | .access counter =>
    let index := slot sp.n counter
    let (item, buf) := op.access index sp.buf
    some (.accessed op.counter index item, { sp with buf := buf }, some (.unlock item))
  | .unlock item => some (.silent, { sp with mutex := post sp.mutex }, some (.post item))
  | .post item => some (op.returns item, sp.setSem op.posts (post (sp.sem op.posts)), none)

/-- The function a call is of. -/
def operation : Call → Operation
  | .insert item => sbufInsert item
  | .remove => sbufRemove

/-- A thread: the call it is in, and the calls it has still to make. -/
structure Thread where
  pc : Option (Call × At)
  todo : List Call
  deriving DecidableEq, Repr

/-- One step of a thread. -/
def program : Program Sbuf Thread Event := fun sp th ↦
  match th.pc with
  | none =>
    match th.todo with
    | [] => none
    | c :: cs => some (.silent, sp, ⟨some (c, .wait), cs⟩)
  | some (c, at') =>
    ((operation c).step sp at').map fun r ↦ (r.1, r.2.1, ⟨r.2.2.map (c, ·), th.todo⟩)

/-- All threads before their first call, on the buffer that `sbuf_init` built. -/
def initial {ι : Type*} (n : BitVec 32) (calls : ι → List Call) : State ι Sbuf Thread :=
  ⟨sbufInit n, fun i ↦ ⟨none, calls i⟩⟩

/-! ### What a step can do -/

/-- The moves of a thread, one constructor for each line of the procedure. -/
inductive Move : Sbuf → Thread → Event → Sbuf → Thread → Prop
  | call {sp c cs} : Move sp ⟨none, c :: cs⟩ .silent sp ⟨some (c, .wait), cs⟩
  | wait {sp c cs v} (hv : sp.sem (operation c).waits = v + 1) :
    Move sp ⟨some (c, .wait), cs⟩ .silent (sp.setSem (operation c).waits v) ⟨some (c, .lock), cs⟩
  | lock {sp c cs v} (hv : sp.mutex = v + 1) :
    Move sp ⟨some (c, .lock), cs⟩ .silent { sp with mutex := v } ⟨some (c, .load), cs⟩
  | load {sp c cs} :
    Move sp ⟨some (c, .load), cs⟩ .silent sp
      ⟨some (c, .bump (sp.counter (operation c).counter)), cs⟩
  | bump {sp c cs v} :
    Move sp ⟨some (c, .bump v), cs⟩ .silent (sp.setCounter (operation c).counter (v + 1))
      ⟨some (c, .access (v + 1)), cs⟩
  | access {sp c cs v item buf}
      (haccess : (operation c).access (slot sp.n v) sp.buf = (item, buf)) :
    Move sp ⟨some (c, .access v), cs⟩ (.accessed (operation c).counter (slot sp.n v) item)
      { sp with buf := buf } ⟨some (c, .unlock item), cs⟩
  | unlock {sp c cs x} :
    Move sp ⟨some (c, .unlock x), cs⟩ .silent { sp with mutex := sp.mutex + 1 }
      ⟨some (c, .post x), cs⟩
  | post {sp c cs x} :
    Move sp ⟨some (c, .post x), cs⟩ ((operation c).returns x)
      (sp.setSem (operation c).posts (sp.sem (operation c).posts + 1)) ⟨none, cs⟩

/-- **Inversion.** Every step of a thread is one of these moves. -/
theorem move_of_program {sp sp' : Sbuf} {th th' : Thread} {e : Event}
    (h : program sp th = some (e, sp', th')) : Move sp th e sp' th' := by
  obtain ⟨pc, cs⟩ := th
  rcases pc with - | ⟨c, at'⟩
  · cases cs with
    | nil => exact absurd h (by simp [program])
    | cons c cs =>
      simp only [program, Option.some.injEq, Prod.mk.injEq] at h
      obtain ⟨rfl, rfl, rfl⟩ := h
      exact .call
  · cases at'
    all_goals
      simp only [program, Operation.step, Option.map_map, Option.map_some, Option.map_none,
        Option.map_eq_some_iff, Function.comp_apply, Option.some.injEq, Prod.mk.injEq,
        Interleaving.wait_eq_some_iff] at h
    case wait | lock =>
      obtain ⟨v, hv, rfl, rfl, rfl⟩ := h
      constructor
      exact hv
    case access =>
      obtain ⟨rfl, rfl, rfl⟩ := h
      exact .access rfl
    all_goals
      obtain ⟨rfl, rfl, rfl⟩ := h
      constructor

/-! ### The indices used -/

section Indices

variable {ι : Type*}

/-- The index a step uses, if it is chosen by the counter. -/
def Event.indexBy (k : Counter) : Event → Option ℤ
  | .accessed k' index _ => if k' = k then some index else none
  | .silent | .returned _ => none

/-- The indices chosen by a counter, in the order of the critical sections. -/
def indices (k : Counter) (h : List (ι × Event)) : List ℤ := h.filterMap fun e ↦ e.2.indexBy k

/-- How often the array has been accessed through a counter: the inserts for `rear`, the removes for
`front`. -/
def accesses (k : Counter) (h : List (ι × Event)) : ℕ := h.countP fun e ↦ (e.2.indexBy k).isSome

theorem length_indices (k : Counter) (h : List (ι × Event)) :
    (indices k h).length = accesses k h := by
  rw [indices, accesses, List.length_filterMap_eq_countP]

theorem indices_append (k : Counter) (h : List (ι × Event)) (i : ι) (e : Event) :
    indices k (h ++ [(i, e)]) = indices k h ++ (e.indexBy k).toList := by
  rw [indices, indices, List.filterMap_append]
  rcases hk : e.indexBy k with - | index <;> simp [hk]

/-- Whether a step uses the counter. -/
def Event.uses (k : Counter) (e : Event) : ℕ := (e.indexBy k).toList.length

theorem accesses_append (k : Counter) (h : List (ι × Event)) (i : ι) (e : Event) :
    accesses k (h ++ [(i, e)]) = accesses k h + e.uses k := by
  rw [← length_indices, indices_append, List.length_append, length_indices, Event.uses]

end Indices

/-! ### The invariant -/

variable {ι : Type*} [DecidableEq ι] [Fintype ι]

/-- The thread holds the mutex. -/
def holding (th : Thread) : ℕ :=
  match th.pc with
  | some (_, .load) | some (_, .bump _) | some (_, .access _) | some (_, .unlock _) => 1
  | _ => 0

/-- The thread has advanced the counter and not yet used it. -/
def ahead (k : Counter) (th : Thread) : ℕ :=
  match th.pc with
  | some (c, .access _) => if (operation c).counter = k then 1 else 0
  | _ => 0

/-- What a thread has read of its counter is the present value. -/
def Current (sp : Sbuf) (th : Thread) : Prop :=
  match th.pc with
  | some (c, .bump v) | some (c, .access v) => v = sp.counter (operation c).counter
  | _ => True

/-- **The invariant.** The mutex is free or held by one thread; the counters are the numbers of
accesses, wrapped; and every index so far was that of its count. -/
structure Counted (n : BitVec 32) (h : List (ι × Event)) (s : State ι Sbuf Thread) : Prop where
  size : s.shared.n = n
  mutex : s.shared.mutex + total holding s = 1
  current : ∀ i, Current s.shared (s.thread i)
  counter : ∀ k, s.shared.counter k = BitVec.ofNat 32 (accesses k h + total (ahead k) s)
  indices : ∀ k, indices k h = slots n (accesses k h)

omit [DecidableEq ι] in
theorem counted_initial (n : BitVec 32) (calls : ι → List Call) :
    Counted n [] (initial n calls) where
  size := rfl
  mutex := by rw [Interleaving.total_eq_zero _ _ fun _ ↦ rfl]; rfl
  current := fun _ ↦ trivial
  counter k := by
    rw [Interleaving.total_eq_zero _ _ fun _ ↦ rfl]
    cases k <;> rfl
  indices _ := rfl

section Moves

variable {sp sp' : Sbuf} {th th' : Thread} {e : Event}

@[simp] theorem setSem_n (sp : Sbuf) (sem : Sem) (v : ℕ) : (sp.setSem sem v).n = sp.n := by
  cases sem <;> rfl

@[simp] theorem setSem_mutex (sp : Sbuf) (sem : Sem) (v : ℕ) :
    (sp.setSem sem v).mutex = sp.mutex := by
  cases sem <;> rfl

@[simp] theorem setSem_counter (sp : Sbuf) (sem : Sem) (v : ℕ) (k : Counter) :
    (sp.setSem sem v).counter k = sp.counter k := by
  cases sem <;> cases k <;> rfl

@[simp] theorem setCounter_n (sp : Sbuf) (k : Counter) (v : BitVec 32) :
    (sp.setCounter k v).n = sp.n := by
  cases k <;> rfl

@[simp] theorem setCounter_mutex (sp : Sbuf) (k : Counter) (v : BitVec 32) :
    (sp.setCounter k v).mutex = sp.mutex := by
  cases k <;> rfl

theorem setCounter_counter (sp : Sbuf) (k k' : Counter) (v : BitVec 32) :
    (sp.setCounter k v).counter k' = if k = k' then v else sp.counter k' := by
  cases k <;> cases k' <;> rfl

/-- The mutex changes hands, and the size stays. -/
theorem Move.holding (hm : Move sp th e sp' th') :
    sp'.n = sp.n ∧ sp'.mutex + Wrapping.holding th' = sp.mutex + Wrapping.holding th := by
  cases hm
  case lock hv => exact ⟨rfl, by simp only [Wrapping.holding, hv]⟩
  all_goals exact ⟨by simp, by simp [Wrapping.holding]⟩

/-- Nothing is reported of a counter when a call returns. -/
theorem indexBy_returns (c : Call) (x : Item) (k : Counter) :
    ((operation c).returns x).indexBy k = none := by
  cases c <;> rfl

/-- **A counter is advanced once for each access**, between the load and the access, by the holder
of the mutex. -/
theorem Move.counter (hm : Move sp th e sp' th') (hth : Current sp th) (k : Counter) :
    ∃ b, sp'.counter k = sp.counter k + BitVec.ofNat 32 b ∧
      ahead k th' + e.uses k = ahead k th + b ∧ (b = 0 ∨ Wrapping.holding th = 1) := by
  cases hm
  case bump c cs v =>
    obtain rfl : v = sp.counter (operation c).counter := hth
    rw [setCounter_counter]
    by_cases hk : (operation c).counter = k
    · obtain rfl := hk
      exact ⟨1, if_pos rfl, by simp [ahead, Event.uses, Event.indexBy], .inr rfl⟩
    · exact ⟨0, by rw [if_neg hk, BitVec.add_zero],
        by simp [ahead, Event.uses, Event.indexBy, hk], .inl rfl⟩
  case access c cs v item buf _ =>
    refine ⟨0, by cases k <;> simp [Sbuf.counter], ?_, .inl rfl⟩
    by_cases hk : (operation c).counter = k <;> simp [ahead, Event.uses, Event.indexBy, hk]
  case wait =>
    exact ⟨0, by simp, by simp [ahead, Event.uses, Event.indexBy], .inl rfl⟩
  case post c cs x =>
    exact ⟨0, by simp, by simp [ahead, Event.uses, indexBy_returns], .inl rfl⟩
  all_goals
    exact ⟨0, by cases k <;> simp [Sbuf.counter], by simp [ahead, Event.uses, Event.indexBy],
      .inl rfl⟩

/-- What a thread has read stays current when the counters stay. -/
theorem current_congr (hcounter : ∀ k, sp'.counter k = sp.counter k) (th : Thread) :
    Current sp' th ↔ Current sp th := by
  simp only [Current, hcounter]

/-- A thread outside the critical section has read nothing. -/
theorem current_of_holding_eq_zero (h : Wrapping.holding th = 0) : Current sp th := by
  obtain ⟨pc, cs⟩ := th
  rcases pc with - | ⟨c, at'⟩
  · trivial
  · cases at' <;> trivial

/-- A move leaves its own thread current. -/
theorem Move.current (hm : Move sp th e sp' th') (hth : Current sp th) : Current sp' th' := by
  cases hm
  case bump c cs v =>
    exact ((setCounter_counter sp _ _ _).trans (if_pos rfl)).symm
  case access c cs v item buf _ => trivial
  all_goals trivial

/-- The index used is that of the counter. -/
theorem Move.index (hm : Move sp th e sp' th') (hth : Current sp th) {k : Counter} {index : ℤ}
    (he : e.indexBy k = some index) :
    index = slot sp.n (sp.counter k) ∧ ahead k th = 1 ∧ Wrapping.holding th = 1 := by
  cases hm
  case access c cs v item buf _ =>
    obtain rfl : v = sp.counter (operation c).counter := hth
    rw [Event.indexBy, Option.ite_none_right_eq_some] at he
    obtain ⟨rfl, he⟩ := he
    exact ⟨(Option.some.inj he).symm, if_pos rfl, rfl⟩
  case post c cs x =>
    rw [indexBy_returns] at he
    exact absurd he (by simp)
  all_goals exact absurd he (by simp [Event.indexBy])

end Moves

section Steps

variable {n : BitVec 32} {h : List (ι × Event)} {s : State ι Sbuf Thread} {i : ι} {e : Event}
  {sp' : Sbuf} {th' : Thread}

/-- Only the holder of the mutex is ahead. -/
theorem ahead_le_holding (k : Counter) (th : Thread) : ahead k th ≤ holding th := by
  obtain ⟨pc, cs⟩ := th
  rcases pc with - | ⟨c, at'⟩
  · exact le_rfl
  · cases at'
    case access v =>
      simp only [ahead, holding]
      split_ifs <;> decide
    all_goals exact Nat.zero_le _

omit [DecidableEq ι] in
theorem Counted.ahead_le (hc : Counted n h s) (k : Counter) : total (ahead k) s ≤ 1 := by
  have hle := Interleaving.total_mono s (ahead_le_holding k)
  have := hc.mutex
  omega

theorem Counted.step (hc : Counted n h s) (hm : Move s.shared (s.thread i) e sp' th') :
    Counted n (h ++ [(i, e)]) (s.advance i sp' th') := by
  have hcur := hc.current i
  have hmutex := hc.mutex
  have hholding := total_step holding s i sp' th'
  obtain ⟨hsize, hmove⟩ := hm.holding
  refine ⟨hsize.trans hc.size, ?_, fun j ↦ ?_, fun k ↦ ?_, fun k ↦ ?_⟩
  · rw [State.advance_shared]
    omega
  · rw [State.advance_shared]
    rcases eq_or_ne j i with rfl | hne
    · rw [State.advance_thread_self]
      exact hm.current hcur
    rw [s.advance_thread_of_ne sp' th' hne]
    by_cases hi : holding (s.thread i) = 1
    · -- the other threads are outside the critical section
      refine current_of_holding_eq_zero ?_
      have hle := Interleaving.add_le_total holding s hne
      omega
    · refine (current_congr (fun k ↦ ?_) _).2 (hc.current j)
      obtain ⟨b, hcounter, -, hb⟩ := hm.counter hcur k
      rw [hcounter, hb.resolve_right hi, BitVec.add_zero]
  · obtain ⟨b, hcounter, hahead, -⟩ := hm.counter hcur k
    have hstep := total_step (ahead k) s i sp' th'
    rw [State.advance_shared, hcounter, hc.counter, ← BitVec.ofNat_add, accesses_append]
    congr 1
    omega
  · rw [indices_append, accesses_append, hc.indices, Event.uses]
    rcases he : e.indexBy k with - | index
    · simp
    · obtain ⟨hindex, hahead, -⟩ := hm.index hcur he
      have hone : total (ahead k) s = 1 := by
        have := Interleaving.le_total (ahead k) s i
        have := hc.ahead_le k
        omega
      rw [hindex, hc.size, hc.counter, hone]
      exact (WrappingRing.slots_succ n _).symm

/-- **Every index is that of its count**, along every interleaving. -/
theorem indices_of_steps {calls : ι → List Call} (hs : Steps program (initial n calls) h s)
    (k : Counter) : indices k h = slots n (accesses k h) := by
  have hc := hs.invariant (I := Counted n) (counted_initial n calls) fun hc hP ↦
    hc.step (move_of_program hP)
  exact hc.indices k

end Steps

/-! ### How long the indices stay in the ring -/

section Ring

variable {n : BitVec 32}

/-- **The indices stay in the ring**, and the inserts go round it. -/
structure InRing (n : BitVec 32) (h : List (ι × Event)) : Prop where
  inside : ∀ k, ∀ index ∈ indices k h, 0 ≤ index ∧ index < n.toInt
  cyclic : (indices .rear h).IsChain fun i j ↦ j = (i + 1) % n.toInt

omit [DecidableEq ι] [Fintype ι] in
theorem inRing_iff (hn : 0 < n.toInt) {h : List (ι × Event)}
    (hindices : ∀ k, indices k h = slots n (accesses k h)) :
    InRing n h ↔ n.toInt = 1 ∨ ∀ k, accesses k h ≤ lastCount n := by
  have hinside : (∀ k, ∀ index ∈ indices k h, 0 ≤ index ∧ index < n.toInt) ↔
      n.toInt = 1 ∨ ∀ k, accesses k h ≤ lastCount n := by
    rw [← forall_or_left]
    refine forall_congr' fun k ↦ ?_
    rw [hindices, WrappingRing.inside_slots_iff hn]
  refine ⟨fun h ↦ hinside.1 h.inside, fun h ↦ ⟨hinside.2 h, ?_⟩⟩
  rw [hindices]
  exact WrappingRing.isChain_slots hn (h.imp_right fun hall ↦ hall .rear)

/-- **How long the indices stay in the ring.** With one cell they always do. Otherwise they do while
neither counter has passed the last count, `2 ^ 31` if `n` divides it and `2 ^ 31 - 1` if not. -/
theorem ring_indices_iff (hn : 0 < n.toInt) {calls : ι → List Call} {h : List (ι × Event)}
    {s : State ι Sbuf Thread} (hs : Steps program (initial n calls) h s) :
    InRing n h ↔ n.toInt = 1 ∨ ∀ k, accesses k h ≤ lastCount n :=
  inRing_iff hn (indices_of_steps hs)

/-- The buffer of the server, and one whose size is no power of two. -/
example : lastCount (16 : BitVec 32) = 2 ^ 31 ∧ lastCount (12 : BitVec 32) = 2 ^ 31 - 1 := by decide

/-- One round trip in a buffer of two cells. -/
theorem ring_indices_roundTrip : ∃ (h : List (Unit × Event)) (s : State Unit Sbuf Thread),
    Steps program (initial 2 fun _ ↦ [.insert 7, .remove]) h s ∧ accesses .rear h = 1 ∧
      (InRing 2 h ↔ (2 : BitVec 32).toInt = 1 ∨ ∀ k, accesses k h ≤ lastCount (2 : BitVec 32)) := by
  have hs := Interleaving.steps_of_runAlone (P := program)
    (s := initial 2 fun _ ↦ [.insert 7, .remove]) () 16 rfl
  exact ⟨_, _, hs, rfl, ring_indices_iff (by decide) hs⟩

/-! ### Runs that go on for long -/

/-- Between calls, with the buffer empty. -/
structure Rested (sp : Sbuf) : Prop where
  mutex : sp.mutex = 1
  slots : 0 < sp.slots
  items : sp.items = 0

/-- An insert and the remove of the item, by one thread. -/
theorem exists_round_trip {sp : Sbuf} (hsp : Rested sp) (cs : List Call) : ∃ es sp',
    Interleaving.runAlone program 16 sp ⟨none, .insert 0 :: .remove :: cs⟩ =
        some (es, sp', ⟨none, cs⟩) ∧
      Rested sp' ∧ accesses Counter.rear (es.map (Prod.mk ())) = 1 := by
  obtain ⟨buf, size, front, rear, mutex, slots, items⟩ := sp
  obtain ⟨rfl, hslots, rfl⟩ := hsp
  obtain ⟨m, rfl⟩ := Nat.exists_eq_add_one_of_ne_zero hslots.ne'
  exact ⟨_, _, rfl, ⟨rfl, Nat.succ_pos m, rfl⟩, rfl⟩

/-- The calls of `m` round trips. -/
def roundTrips : ℕ → List Call
  | 0 => []
  | m + 1 => .insert 0 :: .remove :: roundTrips m

/-- **The counters can get as large as one likes.** -/
theorem exists_round_trips (m : ℕ) : ∀ {s : State Unit Sbuf Thread}, Rested s.shared →
    s.thread () = ⟨none, roundTrips m⟩ →
      ∃ h s', Steps program s h s' ∧ accesses .rear h = m := by
  induction m with
  | zero => exact fun {s} _ _ ↦ ⟨[], s, .start, rfl⟩
  | succ m ih =>
    intro s hsp hth
    obtain ⟨es, sp', hrun, hsp', hone⟩ := exists_round_trip hsp (roundTrips m)
    have hfirst := Interleaving.steps_of_runAlone (s := s) () 16 (hth ▸ hrun)
    obtain ⟨h, s', hsteps, hcount⟩ :=
      @ih (s.advance () sp' ⟨none, roundTrips m⟩) hsp' (s.advance_thread_self () _ _)
    refine ⟨_, s', hfirst.trans hsteps, ?_⟩
    rw [accesses, List.countP_append, Nat.add_comm]
    exact congrArg₂ (· + ·) hcount hone

theorem rested_sbufInit {n : BitVec 32} (hn : 0 < n.toInt) : Rested (sbufInit n) where
  mutex := rfl
  slots := by
    rw [BitVec.toInt_eq_toNat_cond] at hn
    change 0 < n.toNat
    split_ifs at hn <;> omega
  items := rfl

/-- With 16 cells, as the server's buffer has, one insert more than `2 ^ 31` leaves the ring. -/
theorem served_long_not_inRing : ¬ ∀ n : BitVec 32, 0 < n.toInt → ∀ (calls : Unit → List Call) h s,
    Steps program (initial n calls) h s → InRing n h := by
  intro hall
  have hn : 0 < (16 : BitVec 32).toInt := by decide
  obtain ⟨h, s, hs, hcount⟩ := exists_round_trips (lastCount (16 : BitVec 32) + 1)
    (s := initial 16 fun _ ↦ roundTrips (lastCount (16 : BitVec 32) + 1)) (rested_sbufInit hn) rfl
  obtain hone | hle := (inRing_iff hn (indices_of_steps hs)).1 (hall 16 hn _ h s hs)
  · exact absurd hone (by decide)
  · exact absurd (hle .rear) (by omega)

end Ring

end CsappCode.Threads.Wrapping
