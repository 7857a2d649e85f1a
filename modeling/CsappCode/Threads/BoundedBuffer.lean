import CsappCode.Threads.Sbuf
import Mathlib.Data.Fin.VecNotation

/-!
# The buffer of `echoserver_pre.c` is a bounded FIFO queue

The argument has three layers, each preserved by every move of any thread.

* `Exclusive` is the mutex: it is free or held by one thread, and a thread inside `++rear` or
  `++front` has read the current value. It does not depend on which semaphores are posted.
* `Accounted` is the counting: free slots, claimed slots, stored items and slots freed but not yet
  posted add up to the capacity, and likewise for the items.
* `Ring` says what the cells hold: the items inserted and not yet removed lie at consecutive
  positions of the ring, in order. Its two moments are the store, whose cell is free because fewer
  than `n` items are stored, and the fetch, whose cell is the oldest because some item is.

`invariant_of_steps` has the three along every interleaving, and `sbuf_bounded_fifo` draws the
conclusions.

## What the results rest on

**The threads.** There are as many as an arbitrary finite type has members, and each makes an
arbitrary list of calls. A history is what the steps have reported, with the thread of each; the
order of the items is that of the critical sections in it.

**Each layer uses those below it.** The counting takes a unit from one sum and puts it into another
whatever the thread (`Balanced`). The ring needs the mutex, so that `rear` and `front` run ahead of
the history by at most the operation under way, and the counting, so that a store meets no item and
a fetch meets one.

**The counters are unbounded** in this module. Where the `int`s of the source wrap is the question
of `RingIndices`, which does without the counting.
-/

namespace CsappCode.Threads

open Interleaving (State Steps total total_step)

variable {ι : Type*} [DecidableEq ι] [Fintype ι]

/-! ### Places of a thread -/

/-- The thread holds the mutex. -/
def holding (th : Thread) : ℕ :=
  match th.pc with
  | .insert _ .load | .insert _ (.bump _) | .insert _ (.store _) | .insert _ .unlock => 1
  | .remove .load | .remove (.bump _) | .remove (.fetch _) | .remove (.unlock _) => 1
  | _ => 0

/-- The thread has claimed a slot and not yet stored its item. -/
def claiming (th : Thread) : ℕ :=
  match th.pc with
  | .insert _ .lock | .insert _ .load | .insert _ (.bump _) | .insert _ (.store _) => 1
  | _ => 0

/-- The thread has stored its item and not yet posted. -/
def storing (th : Thread) : ℕ :=
  match th.pc with
  | .insert _ .unlock | .insert _ .post => 1
  | _ => 0

/-- The thread has claimed an item and not yet fetched it. -/
def taking (th : Thread) : ℕ :=
  match th.pc with
  | .remove .lock | .remove .load | .remove (.bump _) | .remove (.fetch _) => 1
  | _ => 0

/-- The thread has fetched an item and not yet posted. -/
def freeing (th : Thread) : ℕ :=
  match th.pc with
  | .remove (.unlock _) | .remove (.post _) => 1
  | _ => 0

/-- The thread has advanced `rear` and not yet stored. -/
def rearAhead (th : Thread) : ℕ :=
  match th.pc with
  | .insert _ (.store _) => 1
  | _ => 0

/-- The thread has advanced `front` and not yet fetched. -/
def frontAhead (th : Thread) : ℕ :=
  match th.pc with
  | .remove (.fetch _) => 1
  | _ => 0

/-- What a thread has read of `rear` or `front` is their present value. -/
def Current (sp : Sbuf) (th : Thread) : Prop :=
  match th.pc with
  | .insert _ (.bump rear) | .insert _ (.store rear) => rear = sp.rear
  | .remove (.bump front) | .remove (.fetch front) => front = sp.front
  | _ => True

/-! ### Mutual exclusion -/

/-- The mutex, and what its holder has read. -/
structure Exclusive (s : State ι Sbuf Thread) : Prop where
  mutex : s.shared.mutex + total holding s = 1
  current : ∀ i, Current s.shared (s.thread i)

/-- A thread outside the critical section has read nothing. -/
theorem current_of_holding_eq_zero {sp : Sbuf} {th : Thread} (h : holding th = 0) :
    Current sp th := by
  obtain ⟨pc, cs⟩ := th
  rcases pc with - | ⟨x, at'⟩ | at'
  · trivial
  · cases at' <;> trivial
  · cases at' <;> trivial

/-- What has been read stays current unless both counters may have moved. -/
theorem current_congr {sp sp' : Sbuf} (hrear : sp'.rear = sp.rear) (hfront : sp'.front = sp.front)
    (th : Thread) : Current sp' th ↔ Current sp th := by
  rw [Current, Current, hrear, hfront]

variable {code : Code} {s : State ι Sbuf Thread} {i : ι} {e : Event} {sp' : Sbuf} {th' : Thread}

/-- A move that changes a counter is made by the holder of the mutex, and leaves its own thread
current. -/
theorem Move.current {sp : Sbuf} {th : Thread} (hm : Move code sp th e sp' th')
    (hth : Current sp th) : Current sp' th' ∧
      (sp'.rear = sp.rear ∧ sp'.front = sp.front ∨ holding th = 1) := by
  cases hm
  case call c cs => cases c <;> exact ⟨trivial, .inl ⟨rfl, rfl⟩⟩
  case insertBump => exact ⟨rfl, .inr rfl⟩
  case removeBump => exact ⟨rfl, .inr rfl⟩
  case insertPost => rcases code with ⟨_ | _, _⟩ <;> exact ⟨trivial, .inl ⟨rfl, rfl⟩⟩
  case removePost => rcases code with ⟨_, _ | _⟩ <;> exact ⟨trivial, .inl ⟨rfl, rfl⟩⟩
  all_goals exact ⟨by trivial, .inl ⟨rfl, rfl⟩⟩

/-- The mutex changes hands. -/
theorem Move.holding {sp : Sbuf} {th : Thread} (hm : Move code sp th e sp' th') :
    sp'.mutex + Threads.holding th' = sp.mutex + Threads.holding th := by
  cases hm
  case call c cs => cases c <;> rfl
  case insertPost => rcases code with ⟨_ | _, _⟩ <;> rfl
  case removePost => rcases code with ⟨_, _ | _⟩ <;> rfl
  case insertLock hv | removeLock hv => simp only [Threads.holding, hv]
  all_goals rfl

theorem Exclusive.step (h : Exclusive s) (hm : Move code s.shared (s.thread i) e sp' th') :
    Exclusive (s.advance i sp' th') where
  mutex := by
    have hstep := total_step holding s i sp' th'
    have hmove := hm.holding
    have := h.mutex
    rw [State.advance_shared]
    omega
  current := by
    intro j
    obtain ⟨hself, hothers⟩ := hm.current (h.current i)
    rw [State.advance_shared]
    rcases eq_or_ne j i with rfl | hne
    · rw [State.advance_thread_self]
      exact hself
    rw [s.advance_thread_of_ne sp' th' hne]
    rcases hothers with ⟨hrear, hfront⟩ | hi
    · exact (current_congr hrear hfront _).2 (h.current j)
    · -- the other threads are outside the critical section
      refine current_of_holding_eq_zero ?_
      by_contra hj
      have hle := Interleaving.add_le_total Threads.holding s hne
      have := h.mutex
      omega

omit [DecidableEq ι] in
theorem exclusive_initial (n : ℕ) (calls : ι → List Call) : Exclusive (initial n calls) where
  mutex := by rw [Interleaving.total_eq_zero _ _ fun _ ↦ rfl]; rfl
  current := fun _ ↦ trivial

/-! ### Counting slots and items -/

/-- Slots and items add up, and the counters run ahead of the history by at most the operation in
the critical section. -/
structure Accounted (n : ℕ) (h : List (ι × Event)) (s : State ι Sbuf Thread) : Prop where
  capacity : s.shared.n = n
  slots : s.shared.slots + total claiming s + (inserted h).length + total freeing s =
    n + (removed h).length
  items : s.shared.items + total storing s + total taking s + (removed h).length =
    (inserted h).length
  rear : s.shared.rear = (inserted h).length + total rearAhead s
  front : s.shared.front = (removed h).length + total frontAhead s

omit [DecidableEq ι] in
theorem accounted_initial (n : ℕ) (calls : ι → List Call) :
    Accounted n [] (initial n calls) where
  capacity := rfl
  slots := by
    rw [Interleaving.total_eq_zero _ _ fun _ ↦ rfl, Interleaving.total_eq_zero _ _ fun _ ↦ rfl]
    rfl
  items := by
    rw [Interleaving.total_eq_zero _ _ fun _ ↦ rfl, Interleaving.total_eq_zero _ _ fun _ ↦ rfl]
    rfl
  rear := by rw [Interleaving.total_eq_zero _ _ fun _ ↦ rfl]; rfl
  front := by rw [Interleaving.total_eq_zero _ _ fun _ ↦ rfl]; rfl

variable {n : ℕ} {h : List (ι × Event)}

/-- **Conservation.** What one move takes out of a sum of `Accounted` it puts back. -/
structure Balanced (sp : Sbuf) (th : Thread) (e : Event) (sp' : Sbuf) (th' : Thread) : Prop where
  capacity : sp'.n = sp.n
  slots : sp'.slots + claiming th' + e.stores + freeing th' =
    sp.slots + claiming th + freeing th + e.fetches
  items : sp'.items + storing th' + taking th' + e.fetches =
    sp.items + storing th + taking th + e.stores
  rear : sp'.rear + rearAhead th = sp.rear + e.stores + rearAhead th'
  front : sp'.front + frontAhead th = sp.front + e.fetches + frontAhead th'

theorem Move.balanced {sp : Sbuf} {th : Thread}
    (hm : Move EchoserverPre.code sp th e sp' th') (hcur : Current sp th) :
    Balanced sp th e sp' th' := by
  cases hm
  case call c cs => cases c <;> constructor <;> rfl
  all_goals
    simp only [Current] at hcur
    constructor <;>
      simp only [claiming, storing, taking, freeing, rearAhead, frontAhead, Event.stores,
        Event.fetches, EchoserverPre.code, Sbuf.post, Interleaving.post] <;>
      omega

theorem Accounted.step (hacc : Accounted n h s) (hcur : Current s.shared (s.thread i))
    (hm : Move EchoserverPre.code s.shared (s.thread i) e sp' th') :
    Accounted n (h ++ [(i, e)]) (s.advance i sp' th') := by
  obtain ⟨hcap, hslots, hitems, hrear, hfront⟩ := hacc
  obtain ⟨hcap', hslots', hitems', hrear', hfront'⟩ := hm.balanced hcur
  have hclaiming := total_step claiming s i sp' th'
  have hstoring := total_step storing s i sp' th'
  have htaking := total_step taking s i sp' th'
  have hfreeing := total_step freeing s i sp' th'
  have hrearAhead := total_step rearAhead s i sp' th'
  have hfrontAhead := total_step frontAhead s i sp' th'
  constructor <;> rw [State.advance_shared]
  · exact hcap'.trans hcap
  · rw [length_inserted_append, length_removed_append]; omega
  · rw [length_inserted_append, length_removed_append]; omega
  · rw [length_inserted_append]; omega
  · rw [length_removed_append]; omega

/-! ### The contents of the ring -/

/-- The items inserted and not yet removed lie in the cells after `front`, oldest first. -/
structure Ring (n : ℕ) (h : List (ι × Event)) (s : State ι Sbuf Thread) : Prop where
  cells : ∀ j x, (removed h).length ≤ j → (inserted h)[j]? = some x →
    s.shared.buf ((j + 1) % n) = x
  fifo : removed h <+: inserted h
  occupied : ∀ c, c ∈ occupied h ↔
    ∃ j, (removed h).length ≤ j ∧ j < (inserted h).length ∧ (j + 1) % n = c
  clear : NeverOverwrites ∅ h

omit [DecidableEq ι] [Fintype ι] in
theorem ring_initial (n : ℕ) (calls : ι → List Call) : Ring n [] (initial n calls) where
  cells := fun j x _ hj ↦ absurd hj (by simp [inserted])
  fifo := List.prefix_rfl
  occupied := fun c ↦ by simp [occupied, inserted]
  clear := trivial

/-- Positions less than `n` apart are different cells. -/
theorem succ_mod_ne {n j k : ℕ} (hjk : j < k) (hk : k < j + n) : (j + 1) % n ≠ (k + 1) % n := by
  intro h
  have hdvd : n ∣ k + 1 - (j + 1) := Nat.dvd_of_mod_eq_zero (Nat.sub_mod_eq_zero_of_mod_eq h.symm)
  have := Nat.le_of_dvd (by omega) hdvd
  omega

/-- A move that does not store leaves the array alone. -/
theorem Move.buf_eq {sp : Sbuf} {th : Thread} (hm : Move code sp th e sp' th')
    (he : e.stores = 0) : sp'.buf = sp.buf := by
  cases hm
  case insertStore => exact absurd he Nat.one_ne_zero
  case insertPost => rcases code with ⟨_ | _, _⟩ <;> rfl
  case removePost => rcases code with ⟨_, _ | _⟩ <;> rfl
  all_goals rfl

/-- Only the holder of the mutex is ahead of the history. -/
theorem rearAhead_le_holding (th : Thread) : rearAhead th ≤ holding th := by
  obtain ⟨pc, cs⟩ := th
  rcases pc with - | ⟨x, at'⟩ | at'
  · exact le_rfl
  · cases at' <;> exact Nat.le_of_ble_eq_true rfl
  · exact Nat.zero_le _

theorem frontAhead_le_holding (th : Thread) : frontAhead th ≤ holding th := by
  obtain ⟨pc, cs⟩ := th
  rcases pc with - | ⟨x, at'⟩ | at'
  · exact le_rfl
  · exact Nat.zero_le _
  · cases at' <;> exact Nat.le_of_ble_eq_true rfl

omit [DecidableEq ι] in
/-- At most one thread is ahead. -/
theorem Exclusive.ahead_le (hex : Exclusive s) {f : Thread → ℕ} (hf : ∀ th, f th ≤ holding th) :
    total f s ≤ 1 := by
  have hle := Interleaving.total_mono s hf
  have := hex.mutex
  omega

omit [DecidableEq ι] in
/-- **A store goes to a free cell**, the one after the newest item. -/
theorem stores_next (hex : Exclusive s) (hacc : Accounted n h s) {x : Item} {rear : ℕ}
    {cs : List Call} (hth : s.thread i = ⟨.insert x (.store rear), cs⟩) :
    rear = (inserted h).length + 1 ∧ (inserted h).length < (removed h).length + n := by
  have hcur := hex.current i
  rw [hth] at hcur
  have hahead := Interleaving.le_total rearAhead s i
  have hclaim := Interleaving.le_total claiming s i
  rw [hth] at hahead hclaim
  simp only [Current, rearAhead, claiming] at hcur hahead hclaim
  have := hex.ahead_le rearAhead_le_holding
  have := hacc.rear
  have := hacc.slots
  omega

omit [DecidableEq ι] in
/-- **A fetch takes the oldest item**, and there is one. -/
theorem fetches_oldest (hex : Exclusive s) (hacc : Accounted n h s) {front : ℕ} {cs : List Call}
    (hth : s.thread i = ⟨.remove (.fetch front), cs⟩) :
    front = (removed h).length + 1 ∧ (removed h).length < (inserted h).length := by
  have hcur := hex.current i
  rw [hth] at hcur
  have hahead := Interleaving.le_total frontAhead s i
  have htake := Interleaving.le_total taking s i
  rw [hth] at hahead htake
  simp only [Current, frontAhead, taking] at hcur hahead htake
  have := hex.ahead_le frontAhead_le_holding
  have := hacc.front
  have := hacc.items
  omega

omit [DecidableEq ι] in
/-- At most `n` items are in the buffer, and none is removed that was not inserted. -/
theorem Accounted.stored_le (hacc : Accounted n h s) :
    (removed h).length ≤ (inserted h).length ∧
      (inserted h).length ≤ (removed h).length + n := by
  have := hacc.slots
  have := hacc.items
  omega

/-- The ring after a store. -/
theorem Ring.stored (hring : Ring n h s) (hacc : Accounted n h s) {x : Item}
    (hlt : (inserted h).length < (removed h).length + n)
    (hbuf : sp'.buf = Function.update s.shared.buf (((inserted h).length + 1) % n) x) :
    Ring n (h ++ [(i, .stored (((inserted h).length + 1) % n) x)]) (s.advance i sp' th') := by
  have hle := hacc.stored_le.1
  have hins : inserted (h ++ [(i, Event.stored (((inserted h).length + 1) % n) x)]) =
      inserted h ++ [x] := by rw [inserted_append]; rfl
  have hrem : removed (h ++ [(i, Event.stored (((inserted h).length + 1) % n) x)]) = removed h := by
    rw [removed_append]; exact List.append_nil _
  have hfree : ∀ j, (removed h).length ≤ j → j < (inserted h).length →
      (j + 1) % n ≠ ((inserted h).length + 1) % n := fun j hj hj' ↦ succ_mod_ne hj' (by omega)
  constructor
  · -- the older items keep their cells, and the new one has the cell just written
    intro j y hj hy
    rw [hrem] at hj
    rw [hins, List.getElem?_append] at hy
    rw [State.advance_shared, hbuf]
    split_ifs at hy with hlt'
    · rw [Function.update_of_ne (hfree j hj hlt')]
      exact hring.cells j y hj hy
    · obtain ⟨hj', hxy⟩ := List.getElem?_eq_some_iff.1 hy
      obtain rfl : j = (inserted h).length := by
        have := List.length_singleton (a := x)
        omega
      rw [Function.update_self, ← hxy]
      simp
  · rw [hins, hrem]
    exact hring.fifo.trans (List.prefix_append _ _)
  · intro c
    rw [occupied_append_singleton, hins, hrem, List.length_append, List.length_singleton,
      Event.occupy, Finset.mem_insert, hring.occupied]
    constructor
    · rintro (rfl | ⟨j, hj, hj', rfl⟩)
      · exact ⟨_, hle, Nat.lt_succ_self _, rfl⟩
      · exact ⟨j, hj, by omega, rfl⟩
    · rintro ⟨j, hj, hj', rfl⟩
      rcases Nat.lt_succ_iff_lt_or_eq.1 hj' with hlt' | rfl
      · exact Or.inr ⟨j, hj, hlt', rfl⟩
      · exact Or.inl rfl
  · refine (neverOverwrites_append_singleton _ _).2 ⟨hring.clear, ?_⟩
    rintro cell item heq hmem
    obtain ⟨rfl, -⟩ := Event.stored.inj heq
    obtain ⟨j, hj, hj', hcell⟩ := (hring.occupied _).1 hmem
    exact hfree j hj hj' hcell

/-- The ring after a fetch. -/
theorem Ring.fetched (hring : Ring n h s) (hacc : Accounted n h s) {x : Item}
    (hlt : (removed h).length < (inserted h).length)
    (hx : s.shared.buf (((removed h).length + 1) % n) = x) (hbuf : sp'.buf = s.shared.buf) :
    Ring n (h ++ [(i, .fetched (((removed h).length + 1) % n) x)]) (s.advance i sp' th') := by
  have hle := hacc.stored_le.2
  have hins : inserted (h ++ [(i, Event.fetched (((removed h).length + 1) % n) x)]) =
      inserted h := by rw [inserted_append]; exact List.append_nil _
  have hrem : removed (h ++ [(i, Event.fetched (((removed h).length + 1) % n) x)]) =
      removed h ++ [x] := by rw [removed_append]; rfl
  have holdest : (inserted h)[(removed h).length]? = some x := by
    have hget := List.getElem?_eq_getElem hlt
    rw [hget, ← hring.cells _ _ le_rfl hget, hx]
  constructor
  · intro j y hj hy
    rw [hrem, List.length_append] at hj
    rw [hins] at hy
    rw [State.advance_shared, hbuf]
    exact hring.cells j y (by omega) hy
  · rw [hins, hrem]
    obtain ⟨rest, hrest⟩ := hring.fifo
    -- the item fetched is the next one of those inserted
    rw [← hrest, List.getElem?_append_right le_rfl, Nat.sub_self] at holdest
    obtain ⟨rest', rfl⟩ : ∃ rest', rest = x :: rest' := by
      cases rest with
      | nil => exact absurd holdest (by simp)
      | cons y rest' => exact ⟨rest', by rw [Option.some.inj holdest]⟩
    exact ⟨rest', by rw [← hrest]; simp⟩
  · intro c
    rw [occupied_append_singleton, hins, hrem, List.length_append, List.length_singleton,
      Event.occupy, Finset.mem_erase, hring.occupied]
    constructor
    · rintro ⟨hne, j, hj, hj', rfl⟩
      refine ⟨j, ?_, hj', rfl⟩
      rcases Nat.eq_or_lt_of_le hj with rfl | hlt'
      · exact absurd rfl hne
      · exact hlt'
    · rintro ⟨j, hj, hj', rfl⟩
      exact ⟨(succ_mod_ne (by omega) (by omega)).symm, j, by omega, hj', rfl⟩
  · refine (neverOverwrites_append_singleton _ _).2 ⟨hring.clear, fun cell item heq ↦ ?_⟩
    exact absurd heq (by simp)

omit [Fintype ι] in
/-- The ring after a step that does not touch the array. -/
theorem Ring.untouched (hring : Ring n h s) (hstores : e.stores = 0) (hfetches : e.fetches = 0)
    (hbuf : sp'.buf = s.shared.buf) : Ring n (h ++ [(i, e)]) (s.advance i sp' th') := by
  have hins : inserted (h ++ [(i, e)]) = inserted h := by
    cases e <;> simp_all [inserted, Event.stores]
  have hrem : removed (h ++ [(i, e)]) = removed h := by
    cases e <;> simp_all [removed, Event.fetches]
  have hocc : e.occupy (CsappCode.Threads.occupied h) = CsappCode.Threads.occupied h := by
    cases e <;> simp_all [Event.occupy, Event.stores, Event.fetches]
  constructor
  · rw [hins, hrem, State.advance_shared, hbuf]
    exact hring.cells
  · rw [hins, hrem]
    exact hring.fifo
  · rw [hins, hrem, occupied_append_singleton, hocc]
    exact hring.occupied
  · refine (neverOverwrites_append_singleton _ _).2 ⟨hring.clear, ?_⟩
    rintro cell item rfl
    exact absurd hstores Nat.one_ne_zero

theorem Ring.step (hring : Ring n h s) (hex : Exclusive s) (hacc : Accounted n h s)
    (hm : Move EchoserverPre.code s.shared (s.thread i) e sp' th') :
    Ring n (h ++ [(i, e)]) (s.advance i sp' th') := by
  have hbuf := hm.buf_eq
  generalize hth : s.thread i = th at hm
  generalize hsp : s.shared = sp at hm
  have hcap : sp.n = n := hsp ▸ hacc.capacity
  cases hm
  case insertStore x cs rear =>
    obtain ⟨rfl, hlt⟩ := stores_next hex hacc hth
    rw [hcap]
    exact hring.stored hacc hlt (by rw [hsp])
  case removeFetch cs front =>
    obtain ⟨rfl, hlt⟩ := fetches_oldest hex hacc hth
    rw [hcap]
    exact hring.fetched hacc hlt (by rw [hsp]) (hbuf rfl)
  all_goals exact hring.untouched rfl rfl (hbuf rfl)

/-! ### What the calls return -/

/-- The item a call of `sbuf_remove` has fetched and not yet returned. -/
def pending (th : Thread) : List Item :=
  match th.pc with
  | .remove (.unlock x) | .remove (.post x) => [x]
  | _ => []

/-- Every item fetched is returned once, by the call that fetched it. -/
def ReturnsFetched (h : List (ι × Event)) (s : State ι Sbuf Thread) : Prop :=
  ∀ i, returnedBy i h ++ pending (s.thread i) = fetchedBy i h

theorem Move.pending {sp : Sbuf} {th : Thread} (hm : Move code sp th e sp' th') :
    e.returnedItem.toList ++ Threads.pending th' =
      Threads.pending th ++ e.fetchedItem.toList := by
  cases hm
  case call c cs => cases c <;> rfl
  all_goals rfl

omit [Fintype ι] in
theorem ReturnsFetched.step (hret : ReturnsFetched h s)
    (hm : Move code s.shared (s.thread i) e sp' th') :
    ReturnsFetched (h ++ [(i, e)]) (s.advance i sp' th') := by
  intro j
  rcases eq_or_ne i j with rfl | hne
  · have hmove := hm.pending
    have hi := hret i
    have hreturned : returnedBy i (h ++ [(i, e)]) = returnedBy i h ++ e.returnedItem.toList := by
      rcases hr : e.returnedItem with - | x <;> simp [returnedBy, hr]
    have hfetched : fetchedBy i (h ++ [(i, e)]) = fetchedBy i h ++ e.fetchedItem.toList := by
      rcases hf : e.fetchedItem with - | x <;> simp [fetchedBy, hf]
    rw [State.advance_thread_self, hreturned, hfetched, List.append_assoc, hmove, ← hi,
      List.append_assoc]
  · rw [s.advance_thread_of_ne sp' th' hne.symm]
    simpa [returnedBy, fetchedBy, hne] using hret j

/-! ### Every interleaving -/

/-- All layers hold along every interleaving. -/
theorem invariant_of_steps {calls : ι → List Call}
    (hs : Steps EchoserverPre.code.program (initial n calls) h s) :
    Exclusive s ∧ Accounted n h s ∧ Ring n h s ∧ ReturnsFetched h s := by
  refine hs.invariant
    (I := fun h s ↦ Exclusive s ∧ Accounted n h s ∧ Ring n h s ∧ ReturnsFetched h s)
    ⟨exclusive_initial n calls, accounted_initial n calls, ring_initial n calls, fun _ ↦ rfl⟩ ?_
  rintro h s i e sp' th' ⟨hex, hacc, hring, hret⟩ hP
  have hm := move_of_program hP
  exact ⟨hex.step hm, hacc.step (hex.current i) hm, hring.step hex hacc hm, hret.step hm⟩

omit [DecidableEq ι] in
/-- Between calls no thread is at a place that counts. -/
theorem total_eq_zero_of_quiet (hquiet : Quiet s) {f : Thread → ℕ}
    (hf : ∀ cs, f ⟨.idle, cs⟩ = 0) : total f s = 0 := by
  refine Interleaving.total_eq_zero f s fun i ↦ ?_
  have hpc := hquiet i
  generalize s.thread i = th at hpc
  obtain ⟨pc, cs⟩ := th
  obtain rfl : pc = .idle := hpc
  exact hf cs

/-- **The pre-threaded server keeps what a bounded buffer promises**, whatever its threads call. -/
theorem echoserverPre_bounded (n : ℕ) (calls : ι → List Call) :
    BoundedFifo EchoserverPre.code n calls := by
  intro h s hs
  obtain ⟨-, hacc, hring, -⟩ := invariant_of_steps hs
  refine ⟨hring.clear, hring.fifo, fun hquiet ↦ ?_⟩
  have hslots := hacc.slots
  have hitems := hacc.items
  rw [total_eq_zero_of_quiet hquiet fun _ ↦ rfl, total_eq_zero_of_quiet hquiet fun _ ↦ rfl]
    at hslots hitems
  apply CountsStored.of_semaphores <;> rw [stored] <;> omega

/-- **The buffer of the pre-threaded server is a bounded FIFO queue.** In every interleaving of any
number of threads, the items removed are a prefix of the items inserted, both in the order of the
critical sections; between zero and `n` items are stored; no insert goes to a cell whose item has
not been removed; and each call of `sbuf_remove` returns the item it removed. -/
theorem sbuf_bounded_fifo (n : ℕ) (calls : ι → List Call) {h : List (ι × Event)}
    {s : State ι Sbuf Thread} (hs : Steps EchoserverPre.code.program (initial n calls) h s) :
    removed h <+: inserted h ∧
      ((removed h).length ≤ (inserted h).length ∧
        (inserted h).length ≤ (removed h).length + n) ∧
      NeverOverwrites ∅ h ∧
      ∀ i, returnedBy i h ++ pending (s.thread i) = fetchedBy i h := by
  obtain ⟨-, hacc, hring, hret⟩ := invariant_of_steps hs
  exact ⟨hring.fifo, hacc.stored_le, hring.clear, hret⟩

/-- A buffer of one cell handed from one thread to the other: the producer's second insert waits
for the consumer. -/
theorem sbuf_bounded_fifo_handoff :
    ∃ (h : List (Fin 2 × Event)) (s : State (Fin 2) Sbuf Thread),
      Steps EchoserverPre.code.program (initial 1 ![[.insert 7, .insert 8], [.remove]]) h s ∧
      inserted h = [7, 8] ∧ removed h = [7] ∧ removed h <+: inserted h ∧
      ((removed h).length ≤ (inserted h).length ∧
        (inserted h).length ≤ (removed h).length + 1) ∧
      NeverOverwrites ∅ h ∧ ∀ i, returnedBy i h ++ pending (s.thread i) = fetchedBy i h := by
  obtain ⟨⟨h, s⟩, hrun⟩ : ∃ r, Interleaving.run EchoserverPre.code.program
      (initial 1 ![[.insert 7, .insert 8], [.remove]])
      (List.replicate 8 0 ++ List.replicate 8 1 ++ List.replicate 8 0) = some r :=
    Option.isSome_iff_exists.1 (by decide)
  have hitems : (Interleaving.run EchoserverPre.code.program
      (initial 1 ![[.insert 7, .insert 8], [.remove]])
      (List.replicate 8 0 ++ List.replicate 8 1 ++ List.replicate 8 0)).map
        (fun r ↦ (inserted r.1, removed r.1)) = some ([7, 8], [7]) := by decide
  rw [hrun, Option.map_some, Option.some.injEq, Prod.mk.injEq] at hitems
  have hs := Interleaving.steps_of_run _ hrun
  exact ⟨h, s, hs, hitems.1, hitems.2, sbuf_bounded_fifo 1 _ hs⟩

end CsappCode.Threads
