import CsappCode.Library.Interleaving
import Mathlib.Data.BitVec

/-!
# The bounded buffer `sbuf_t`

`thread/echoserver_pre.c` and `thread/sbuf.c` hold the same producer-consumer buffer, written twice:
an array used as a ring, a mutex, and the two counting semaphores `slots` and `items`. The copies
differ in one place, the semaphore that each operation posts before it returns. So `sbufInsert` and
`sbufRemove` are given once, with that semaphore as a parameter, and `EchoserverPre.code` and
`SbufModule.code` say which file posts what.

* `Code.program` is one step of a thread, and `move_of_program` says what a step can be.
* `inserted`, `removed`, `occupied` and `NeverOverwrites` are read off a history.
* `BoundedFifo` is what a bounded buffer promises, for either file.

## How the code is modelled

**Steps.** Every `P`, every `V` and every access to `front`, `rear` or the array is one atomic step,
so `++sp->rear` is a load and a store. A `P` on a semaphore that is zero is not a step: the thread
waits.

**The counters** are natural numbers. The run of a thread never decreases them, and that they are
`int`s in the source matters only after `2 ^ 31` operations; `RingIndices` has them with 32 bits.

**Threads** run a list of calls, which stands for whatever sequence of calls the surrounding loop
makes. What a call returns goes into the history and not to the thread, so what is inserted does not
depend on what has been removed; since the lists are arbitrary nothing is lost by that.

**The order** of the items is the order of the critical sections. It is the only one there is: calls
of different threads overlap.
-/

namespace CsappCode.Threads

open Interleaving (Program State Steps wait post)

abbrev Item := BitVec 32

/-- `sbuf_t`. The array is given by its cells; the code uses only the cells below `n`. -/
structure Sbuf where
  buf : ℕ → Item
  n : ℕ
  front : ℕ
  rear : ℕ
  mutex : ℕ
  slots : ℕ
  items : ℕ

/-- `sbuf_init`: a zeroed array, and semaphores for `n` free slots and no items. -/
def sbufInit (n : ℕ) : Sbuf := ⟨fun _ ↦ 0, n, 0, 0, 1, n, 0⟩

/-- The two counting semaphores. -/
inductive Sem where
  | slots
  | items
  deriving DecidableEq, Repr

/-- `V` on a counting semaphore. -/
def Sbuf.post (sp : Sbuf) : Sem → Sbuf
  | .slots => { sp with slots := Interleaving.post sp.slots }
  | .items => { sp with items := Interleaving.post sp.items }

/-- What a step reports: an access to a cell of the array, the return of `sbuf_remove`, or
nothing. -/
inductive Event where
  | silent
  | stored (cell : ℕ) (item : Item)
  | fetched (cell : ℕ) (item : Item)
  | returned (item : Item)
  deriving DecidableEq, Repr

/-! ### `sbuf_insert` -/

/-- Where a call of `sbuf_insert` stands. -/
inductive InsertAt where
  /-- before `P(&sp->slots)` -/
  | waitSlots
  /-- before `P(&sp->mutex)` -/
  | lock
  /-- before the load of `++sp->rear` -/
  | load
  /-- before its store; `rear` is the value loaded -/
  | bump (rear : ℕ)
  /-- before the store into the array; `rear` is the incremented value -/
  | store (rear : ℕ)
  /-- before `V(&sp->mutex)` -/
  | unlock
  /-- before the last `V` -/
  | post
  deriving DecidableEq, Repr

/-- One step of `sbuf_insert(sp, item)`, in a file whose last `V` is on `posts`. The call has
returned when no place is left. -/
def sbufInsert (posts : Sem) (item : Item) (sp : Sbuf) :
    InsertAt → Option (Event × Sbuf × Option InsertAt)
  | .waitSlots => (wait sp.slots).map fun v ↦ (.silent, { sp with slots := v }, some .lock)
  | .lock => (wait sp.mutex).map fun v ↦ (.silent, { sp with mutex := v }, some .load)
  | .load => some (.silent, sp, some (.bump sp.rear))
  | .bump rear => some (.silent, { sp with rear := rear + 1 }, some (.store (rear + 1)))
  | .store rear =>
    some (.stored (rear % sp.n) item,
      { sp with buf := Function.update sp.buf (rear % sp.n) item }, some .unlock)
  | .unlock => some (.silent, { sp with mutex := post sp.mutex }, some .post)
  | .post => some (.silent, sp.post posts, none)

/-! ### `sbuf_remove` -/

/-- Where a call of `sbuf_remove` stands. -/
inductive RemoveAt where
  /-- before `P(&sp->items)` -/
  | waitItems
  /-- before `P(&sp->mutex)` -/
  | lock
  /-- before the load of `++sp->front` -/
  | load
  /-- before its store; `front` is the value loaded -/
  | bump (front : ℕ)
  /-- before the load from the array; `front` is the incremented value -/
  | fetch (front : ℕ)
  /-- before `V(&sp->mutex)`; `item` is the local variable that is returned -/
  | unlock (item : Item)
  /-- before the last `V` -/
  | post (item : Item)
  deriving DecidableEq, Repr

/-- One step of `sbuf_remove(sp)`, in a file whose last `V` is on `posts`. -/
def sbufRemove (posts : Sem) (sp : Sbuf) : RemoveAt → Option (Event × Sbuf × Option RemoveAt)
  | .waitItems => (wait sp.items).map fun v ↦ (.silent, { sp with items := v }, some .lock)
  | .lock => (wait sp.mutex).map fun v ↦ (.silent, { sp with mutex := v }, some .load)
  | .load => some (.silent, sp, some (.bump sp.front))
  | .bump front => some (.silent, { sp with front := front + 1 }, some (.fetch (front + 1)))
  | .fetch front =>
    some (.fetched (front % sp.n) (sp.buf (front % sp.n)), sp,
      some (.unlock (sp.buf (front % sp.n))))
  | .unlock item => some (.silent, { sp with mutex := post sp.mutex }, some (.post item))
  | .post item => some (.returned item, sp.post posts, none)

/-! ### Threads -/

/-- A call a thread makes. -/
inductive Call where
  | insert (item : Item)
  | remove
  deriving DecidableEq, Repr

/-- Where a thread stands: between calls, or inside one. -/
inductive Pc where
  | idle
  | insert (item : Item) (at' : InsertAt)
  | remove (at' : RemoveAt)
  deriving DecidableEq, Repr

/-- A thread, with the calls it has still to make. -/
structure Thread where
  pc : Pc
  todo : List Call
  deriving DecidableEq, Repr

/-- The semaphores a file posts: the last `V` of `sbuf_insert` and that of `sbuf_remove`. -/
structure Code where
  insertPosts : Sem
  removePosts : Sem
  deriving DecidableEq, Repr

/-- The start of a call. -/
def Call.enter : Call → Pc
  | .insert item => .insert item .waitSlots
  | .remove => .remove .waitItems

/-- One step of a thread. -/
def Code.program (code : Code) : Program Sbuf Thread Event := fun sp th ↦
  match th.pc with
  | .idle =>
    match th.todo with
    | [] => none
    | c :: cs => some (.silent, sp, ⟨c.enter, cs⟩)
  | .insert item at' =>
    (sbufInsert code.insertPosts item sp at').map fun r ↦
      (r.1, r.2.1, ⟨r.2.2.elim .idle (.insert item), th.todo⟩)
  | .remove at' =>
    (sbufRemove code.removePosts sp at').map fun r ↦
      (r.1, r.2.1, ⟨r.2.2.elim .idle .remove, th.todo⟩)

/-- All threads idle before their first call, on the buffer that `sbuf_init` built. -/
def initial {ι : Type*} (n : ℕ) (calls : ι → List Call) : State ι Sbuf Thread :=
  ⟨sbufInit n, fun i ↦ ⟨.idle, calls i⟩⟩

/-- `thread/echoserver_pre.c`: an insert posts an item, a remove posts a slot. -/
def EchoserverPre.code : Code := ⟨.items, .slots⟩

/-- `thread/sbuf.c`: each operation posts the semaphore it waited on. -/
def SbufModule.code : Code := ⟨.slots, .items⟩

/-! ### What a step can do -/

/-- The moves of a thread, one constructor for each line of the two functions. -/
inductive Move (code : Code) : Sbuf → Thread → Event → Sbuf → Thread → Prop
  | call {sp c cs} : Move code sp ⟨.idle, c :: cs⟩ .silent sp ⟨c.enter, cs⟩
  | insertWait {sp x cs v} (hv : sp.slots = v + 1) :
    Move code sp ⟨.insert x .waitSlots, cs⟩ .silent { sp with slots := v } ⟨.insert x .lock, cs⟩
  | insertLock {sp x cs v} (hv : sp.mutex = v + 1) :
    Move code sp ⟨.insert x .lock, cs⟩ .silent { sp with mutex := v } ⟨.insert x .load, cs⟩
  | insertLoad {sp x cs} :
    Move code sp ⟨.insert x .load, cs⟩ .silent sp ⟨.insert x (.bump sp.rear), cs⟩
  | insertBump {sp x cs rear} :
    Move code sp ⟨.insert x (.bump rear), cs⟩ .silent { sp with rear := rear + 1 }
      ⟨.insert x (.store (rear + 1)), cs⟩
  | insertStore {sp x cs rear} :
    Move code sp ⟨.insert x (.store rear), cs⟩ (.stored (rear % sp.n) x)
      { sp with buf := Function.update sp.buf (rear % sp.n) x } ⟨.insert x .unlock, cs⟩
  | insertUnlock {sp x cs} :
    Move code sp ⟨.insert x .unlock, cs⟩ .silent { sp with mutex := sp.mutex + 1 }
      ⟨.insert x .post, cs⟩
  | insertPost {sp x cs} :
    Move code sp ⟨.insert x .post, cs⟩ .silent (sp.post code.insertPosts) ⟨.idle, cs⟩
  | removeWait {sp cs v} (hv : sp.items = v + 1) :
    Move code sp ⟨.remove .waitItems, cs⟩ .silent { sp with items := v } ⟨.remove .lock, cs⟩
  | removeLock {sp cs v} (hv : sp.mutex = v + 1) :
    Move code sp ⟨.remove .lock, cs⟩ .silent { sp with mutex := v } ⟨.remove .load, cs⟩
  | removeLoad {sp cs} :
    Move code sp ⟨.remove .load, cs⟩ .silent sp ⟨.remove (.bump sp.front), cs⟩
  | removeBump {sp cs front} :
    Move code sp ⟨.remove (.bump front), cs⟩ .silent { sp with front := front + 1 }
      ⟨.remove (.fetch (front + 1)), cs⟩
  | removeFetch {sp cs front} :
    Move code sp ⟨.remove (.fetch front), cs⟩
      (.fetched (front % sp.n) (sp.buf (front % sp.n))) sp
      ⟨.remove (.unlock (sp.buf (front % sp.n))), cs⟩
  | removeUnlock {sp cs x} :
    Move code sp ⟨.remove (.unlock x), cs⟩ .silent { sp with mutex := sp.mutex + 1 }
      ⟨.remove (.post x), cs⟩
  | removePost {sp cs x} :
    Move code sp ⟨.remove (.post x), cs⟩ (.returned x) (sp.post code.removePosts) ⟨.idle, cs⟩

/-- **Inversion.** Every step of a thread is one of these moves. -/
theorem move_of_program {code : Code} {sp sp' : Sbuf} {th th' : Thread} {e : Event}
    (h : code.program sp th = some (e, sp', th')) : Move code sp th e sp' th' := by
  obtain ⟨pc, cs⟩ := th
  cases pc with
  | idle =>
    cases cs with
    | nil => exact absurd h (by simp [Code.program])
    | cons c cs =>
      simp only [Code.program, Option.some.injEq, Prod.mk.injEq] at h
      obtain ⟨rfl, rfl, rfl⟩ := h
      exact .call
  | insert x at' =>
    cases at'
    all_goals
      simp only [Code.program, sbufInsert, Option.map_map, Option.map_some,
        Option.map_eq_some_iff, Function.comp_apply, Option.some.injEq, Prod.mk.injEq,
        Option.elim_some, Option.elim_none, Interleaving.wait_eq_some_iff] at h
    case waitSlots | lock => obtain ⟨v, hv, rfl, rfl, rfl⟩ := h; constructor; exact hv
    all_goals obtain ⟨rfl, rfl, rfl⟩ := h; constructor
  | remove at' =>
    cases at'
    all_goals
      simp only [Code.program, sbufRemove, Option.map_map, Option.map_some,
        Option.map_eq_some_iff, Function.comp_apply, Option.some.injEq, Prod.mk.injEq,
        Option.elim_some, Option.elim_none, Interleaving.wait_eq_some_iff] at h
    case waitItems | lock => obtain ⟨v, hv, rfl, rfl, rfl⟩ := h; constructor; exact hv
    all_goals obtain ⟨rfl, rfl, rfl⟩ := h; constructor

/-! ### Histories -/

section Histories

variable {ι : Type*}

/-- The items inserted, in the order of the critical sections. -/
def inserted : List (ι × Event) → List Item
  | [] => []
  | (_, .stored _ item) :: h => item :: inserted h
  | _ :: h => inserted h

/-- The items removed, in the order of the critical sections. -/
def removed : List (ι × Event) → List Item
  | [] => []
  | (_, .fetched _ item) :: h => item :: removed h
  | _ :: h => removed h

/-- The item a step takes out of the array. -/
def Event.fetchedItem : Event → Option Item
  | .fetched _ item => some item
  | _ => none

/-- The item a step returns to the caller of `sbuf_remove`. -/
def Event.returnedItem : Event → Option Item
  | .returned item => some item
  | _ => none

/-- The items a thread has taken out of the array. -/
def fetchedBy [DecidableEq ι] (i : ι) (h : List (ι × Event)) : List Item :=
  h.filterMap fun e ↦ if e.1 = i then e.2.fetchedItem else none

/-- The items a thread's calls of `sbuf_remove` have returned. -/
def returnedBy [DecidableEq ι] (i : ι) (h : List (ι × Event)) : List Item :=
  h.filterMap fun e ↦ if e.1 = i then e.2.returnedItem else none

/-- The cells that hold an item not yet removed, after one more step. -/
def Event.occupy (S : Finset ℕ) : Event → Finset ℕ
  | .stored cell _ => insert cell S
  | .fetched cell _ => S.erase cell
  | .silent | .returned _ => S

/-- The cells that hold an item not yet removed. -/
def occupied (h : List (ι × Event)) : Finset ℕ := h.foldl (fun S e ↦ e.2.occupy S) ∅

/-- No step stores into a cell of `S`, or into a cell that holds an item not yet removed. -/
def NeverOverwrites : Finset ℕ → List (ι × Event) → Prop
  | _, [] => True
  | S, e :: h =>
    (∀ cell item, e.2 = .stored cell item → cell ∉ S) ∧ NeverOverwrites (e.2.occupy S) h

@[simp] theorem inserted_append (h₁ h₂ : List (ι × Event)) :
    inserted (h₁ ++ h₂) = inserted h₁ ++ inserted h₂ := by
  induction h₁ with
  | nil => rfl
  | cons e h₁ ih => rcases e with ⟨i, _ | _ | _ | _⟩ <;> simp [inserted, ih]

@[simp] theorem removed_append (h₁ h₂ : List (ι × Event)) :
    removed (h₁ ++ h₂) = removed h₁ ++ removed h₂ := by
  induction h₁ with
  | nil => rfl
  | cons e h₁ ih => rcases e with ⟨i, _ | _ | _ | _⟩ <;> simp [removed, ih]

/-- Whether a step stores an item. -/
def Event.stores : Event → ℕ
  | .stored _ _ => 1
  | _ => 0

/-- Whether a step fetches an item. -/
def Event.fetches : Event → ℕ
  | .fetched _ _ => 1
  | _ => 0

theorem length_inserted_append (h : List (ι × Event)) (i : ι) (e : Event) :
    (inserted (h ++ [(i, e)])).length = (inserted h).length + e.stores := by
  cases e <;> simp [inserted, Event.stores]

theorem length_removed_append (h : List (ι × Event)) (i : ι) (e : Event) :
    (removed (h ++ [(i, e)])).length = (removed h).length + e.fetches := by
  cases e <;> simp [removed, Event.fetches]

@[simp] theorem occupied_append_singleton (h : List (ι × Event)) (e : ι × Event) :
    occupied (h ++ [e]) = e.2.occupy (occupied h) := by
  rw [occupied, occupied, List.foldl_append, List.foldl_cons, List.foldl_nil]

theorem neverOverwrites_append (h₁ h₂ : List (ι × Event)) : ∀ S : Finset ℕ,
    NeverOverwrites S (h₁ ++ h₂) ↔
      NeverOverwrites S h₁ ∧ NeverOverwrites (h₁.foldl (fun S e ↦ e.2.occupy S) S) h₂ := by
  induction h₁ with
  | nil => intro S; simp [NeverOverwrites]
  | cons e h₁ ih => intro S; simp [NeverOverwrites, ih, and_assoc]

/-- One more step stays clear of overwriting when its own store is. -/
theorem neverOverwrites_append_singleton (h : List (ι × Event)) (e : ι × Event) :
    NeverOverwrites ∅ (h ++ [e]) ↔
      NeverOverwrites ∅ h ∧ ∀ cell item, e.2 = .stored cell item → cell ∉ occupied h := by
  rw [neverOverwrites_append]
  simp [NeverOverwrites, occupied]

end Histories

/-! ### What a bounded buffer promises -/

section Promises

variable {ι : Type*} [DecidableEq ι]

/-- The number of items in the buffer. -/
def stored (h : List (ι × Event)) : ℕ := (inserted h).length - (removed h).length

/-- No call is in progress. -/
def Quiet (s : State ι Sbuf Thread) : Prop := ∀ i, (s.thread i).pc = .idle

/-- What the semaphores of a bounded buffer of `n` cells say between calls. -/
structure CountsStored (n : ℕ) (h : List (ι × Event)) (s : State ι Sbuf Thread) : Prop where
  slots : s.shared.slots + stored h = n
  items : s.shared.items = stored h
  remove_proceeds : 0 < stored h → (wait s.shared.items).isSome
  insert_blocks : wait s.shared.slots = none ↔ stored h = n

omit [DecidableEq ι] in
/-- The semaphores determine what may proceed. -/
theorem CountsStored.of_semaphores {n : ℕ} {h : List (ι × Event)} {s : State ι Sbuf Thread}
    (hslots : s.shared.slots + stored h = n) (hitems : s.shared.items = stored h) :
    CountsStored n h s where
  slots := hslots
  items := hitems
  remove_proceeds := fun hpos ↦ by
    obtain ⟨m, hm⟩ := Nat.exists_eq_add_one_of_ne_zero (Nat.pos_iff_ne_zero.1 hpos)
    rw [hitems, hm]
    rfl
  insert_blocks := by
    rcases hs : s.shared.slots with - | m
    · exact ⟨fun _ ↦ by omega, fun _ ↦ rfl⟩
    · exact ⟨fun hw ↦ absurd hw (by simp [wait]), fun _ ↦ by omega⟩

/-- **A bounded FIFO queue** of `n` cells, along every interleaving of the threads' calls. -/
def BoundedFifo (code : Code) (n : ℕ) (calls : ι → List Call) : Prop :=
  ∀ {h : List (ι × Event)} {s : State ι Sbuf Thread},
    Steps code.program (initial n calls) h s →
      NeverOverwrites ∅ h ∧ removed h <+: inserted h ∧ (Quiet s → CountsStored n h s)

end Promises

end CsappCode.Threads
