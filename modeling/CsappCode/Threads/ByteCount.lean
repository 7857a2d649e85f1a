import CsappCode.Library.Interleaving
import CsappCode.Threads.EchoCnt
import Mathlib.Algebra.GroupWithZero.Nat

/-!
# The byte counter of `echoserver_pre.c`

Each worker of the pre-threaded server runs `echo_cnt` on one connection after another. The first
call initialises the mutex and the counter through `Pthread_once`; after that every line adds its
length to the shared `byte_cnt` between `P` and `V`.

* `echoCntStep` is one atomic step of `echo_cnt`. The load of `byte_cnt`, the addition in a register
  and the store are three steps.
* `steps_of_echoCnt` connects the steps with the function: a worker that nobody disturbs does what
  `echoCnt` does.
* `Phased` says where threads can be before, during and after the initialisation, and `Counted` what
  the counter is worth meanwhile.
* `byteCnt_accounts` puts the invariants together: the counter is the sum of the updates.

## How the code is modelled

**`Pthread_once`** is as POSIX describes it: the first caller runs `init_echo_cnt`, and no caller
gets past it before that has returned. The statics start zeroed, so before the initialisation the
mutex admits nobody.

**The counter** has 32 bits and wraps. The sum of the updates is a natural number, and the two agree
as `int`s while the sum is below `2 ^ 31`.

**A worker** has a list of connections, each with the results of `read` and `write` on it. It takes
them in order; which worker gets which connection is left open by giving each worker any list. A
`read` or a `write` that fails ends the process, so that there is no step.

## The argument

Before the initialisation has returned nobody holds the mutex, and after that at most one worker
does. What has been stored and what has been completed differ by the update of the holder, so where
the mutex is free they do not differ.
-/

namespace CsappCode.Threads.ByteCount

open Csapp
open Interleaving (Program State Steps wait post total)

/-! ### The shared state -/

/-- A `pthread_once_t`. -/
inductive Once where
  | init
  | running
  | done
  deriving DecidableEq, Repr

/-- The statics of the file that `echo_cnt` uses. -/
structure Statics where
  once : Once
  mutex : ℕ
  byteCnt : BitVec 32

/-- The statics when the process starts. -/
def staticsInit : Statics := ⟨.init, 0, 0⟩

/-- An accepted connection: the descriptor, and the results that `read` and `write` will return
on it. -/
structure Conn where
  connfd : ℕ
  reads : List ReadResult
  writes : List WriteResult

/-- The local variables of `echo_cnt`, of `rio` the bytes that it holds unread. -/
structure Locals where
  n : ℕ
  buf : List UInt8
  rio : List UInt8
  conn : Conn

/-- What a step reports. -/
inductive Event where
  | silent
  /-- `byte_cnt = 0` in `init_echo_cnt` -/
  | cleared
  /-- `init_echo_cnt` has returned -/
  | initialised
  /-- `P(&mutex)` -/
  | locked
  /-- the load of `byte_cnt += n` -/
  | loaded
  /-- its store -/
  | stored (n : ℕ)
  /-- the line that `printf` writes -/
  | printed (n : ℕ) (byteCnt : BitVec 32) (connfd : ℕ)
  /-- `V(&mutex)` at the end of the update by `n` -/
  | completed (n : ℕ)
  /-- the bytes written back to the client -/
  | echoed (bytes : List UInt8)

/-! ### `echo_cnt` -/

/-- Where a call of `echo_cnt` stands. -/
inductive EchoAt where
  /-- before `Pthread_once` -/
  | once
  /-- before `Sem_init(&mutex, 0, 1)` in `init_echo_cnt` -/
  | semInit
  /-- before `byte_cnt = 0` in `init_echo_cnt` -/
  | clear
  /-- before the return of `init_echo_cnt` -/
  | finish
  /-- before `Rio_readlineb` -/
  | readlineb
  /-- before `P(&mutex)` -/
  | lock
  /-- before the load of `byte_cnt` -/
  | load
  /-- before the addition; `byteCnt` is the value loaded -/
  | add (byteCnt : BitVec 32)
  /-- before the store of the sum -/
  | store (sum : BitVec 32)
  /-- before `printf` -/
  | print
  /-- before `V(&mutex)` -/
  | unlock
  /-- before `Rio_writen` -/
  | writen
  deriving DecidableEq, Repr

/-- One step of `echo_cnt(connfd)`. The call has returned when no place is left. A read or write
that fails ends the process, so that there is no step. -/
def echoCntStep (st : Statics) (lo : Locals) :
    EchoAt → Option (Event × Statics × Option (Locals × EchoAt))
  | .once =>
    match st.once with
    | .init => some (.silent, { st with once := .running }, some (lo, .semInit))
    | .running => none
    | .done => some (.silent, st, some (lo, .readlineb))
  | .semInit => some (.silent, { st with mutex := 1 }, some (lo, .clear))
  | .clear => some (.cleared, { st with byteCnt := 0 }, some (lo, .finish))
  | .finish => some (.initialised, { st with once := .done }, some (lo, .readlineb))
  | .readlineb =>
    (rioReadlinebCounted maxline lo.rio lo.conn.reads).map fun q ↦
      (.silent, st,
        if q.1 ≠ 0 then some (⟨q.1, q.2.1, q.2.2.1, { lo.conn with reads := q.2.2.2 }⟩, .lock)
        else none)
  | .lock => (wait st.mutex).map fun v ↦ (.locked, { st with mutex := v }, some (lo, .load))
  | .load => some (.loaded, st, some (lo, .add st.byteCnt))
  | .add byteCnt => some (.silent, st, some (lo, .store (byteCnt + BitVec.ofNat 32 lo.n)))
  | .store sum => some (.stored lo.n, { st with byteCnt := sum }, some (lo, .print))
  | .print => some (.printed lo.n st.byteCnt lo.conn.connfd, st, some (lo, .unlock))
  | .unlock => some (.completed lo.n, { st with mutex := post st.mutex }, some (lo, .writen))
  | .writen =>
    (rioWriten (lo.buf.take lo.n) lo.conn.writes).map fun q ↦
      (.echoed q.1, st, some ({ lo with conn := { lo.conn with writes := q.2 } }, .readlineb))

/-! ### Workers -/

/-- Where a worker stands: between connections, or inside `echo_cnt`. -/
inductive Pc where
  | idle
  | echo (lo : Locals) (at' : EchoAt)

/-- A worker, with the connections that `sbuf_remove` will still give it. -/
structure Worker where
  pc : Pc
  todo : List Conn

/-- The call of `echo_cnt` on a connection. `Rio_readinitb` makes `rio` empty before its first use,
and so it starts empty here. -/
def Conn.enter (c : Conn) : Pc := .echo ⟨0, [], [], c⟩ .once

/-- One step of `thread`. -/
def program : Program Statics Worker Event := fun st th ↦
  match th.pc with
  | .idle =>
    match th.todo with
    | [] => none
    | c :: cs => some (.silent, st, ⟨c.enter, cs⟩)
  | .echo lo at' =>
    (echoCntStep st lo at').map fun r ↦
      (r.1, r.2.1, ⟨r.2.2.elim .idle fun q ↦ .echo q.1 q.2, th.todo⟩)

/-- All workers before their first connection. -/
def initial {ι : Type*} (conns : ι → List Conn) : State ι Statics Worker :=
  ⟨staticsInit, fun i ↦ ⟨.idle, conns i⟩⟩

/-! ### What a step can do -/

/-- The moves of a worker, one constructor for each line of the source. -/
inductive Move : Statics → Worker → Event → Statics → Worker → Prop
  | call {st c cs} : Move st ⟨.idle, c :: cs⟩ .silent st ⟨c.enter, cs⟩
  | onceRun {st lo cs} (ho : st.once = .init) :
    Move st ⟨.echo lo .once, cs⟩ .silent { st with once := .running } ⟨.echo lo .semInit, cs⟩
  | oncePast {st lo cs} (ho : st.once = .done) :
    Move st ⟨.echo lo .once, cs⟩ .silent st ⟨.echo lo .readlineb, cs⟩
  | semInit {st lo cs} :
    Move st ⟨.echo lo .semInit, cs⟩ .silent { st with mutex := 1 } ⟨.echo lo .clear, cs⟩
  | clear {st lo cs} :
    Move st ⟨.echo lo .clear, cs⟩ .cleared { st with byteCnt := 0 } ⟨.echo lo .finish, cs⟩
  | finish {st lo cs} :
    Move st ⟨.echo lo .finish, cs⟩ .initialised { st with once := .done }
      ⟨.echo lo .readlineb, cs⟩
  | line {st lo lo' cs} :
    Move st ⟨.echo lo .readlineb, cs⟩ .silent st ⟨.echo lo' .lock, cs⟩
  | eof {st lo cs} : Move st ⟨.echo lo .readlineb, cs⟩ .silent st ⟨.idle, cs⟩
  | lock {st lo cs v} (hv : st.mutex = v + 1) :
    Move st ⟨.echo lo .lock, cs⟩ .locked { st with mutex := v } ⟨.echo lo .load, cs⟩
  | load {st lo cs} :
    Move st ⟨.echo lo .load, cs⟩ .loaded st ⟨.echo lo (.add st.byteCnt), cs⟩
  | add {st lo cs v} :
    Move st ⟨.echo lo (.add v), cs⟩ .silent st ⟨.echo lo (.store (v + BitVec.ofNat 32 lo.n)), cs⟩
  | store {st lo cs v} :
    Move st ⟨.echo lo (.store v), cs⟩ (.stored lo.n) { st with byteCnt := v }
      ⟨.echo lo .print, cs⟩
  | print {st lo cs} :
    Move st ⟨.echo lo .print, cs⟩ (.printed lo.n st.byteCnt lo.conn.connfd) st
      ⟨.echo lo .unlock, cs⟩
  | unlock {st lo cs} :
    Move st ⟨.echo lo .unlock, cs⟩ (.completed lo.n) { st with mutex := st.mutex + 1 }
      ⟨.echo lo .writen, cs⟩
  | writen {st lo lo' cs bytes} :
    Move st ⟨.echo lo .writen, cs⟩ (.echoed bytes) st ⟨.echo lo' .readlineb, cs⟩

/-- A step inside `echo_cnt` is a step of `echoCntStep`. -/
theorem echoCntStep_of_program {st st' : Statics} {lo : Locals} {at' : EchoAt} {cs : List Conn}
    {th' : Worker} {e : Event} (h : program st ⟨.echo lo at', cs⟩ = some (e, st', th')) :
    ∃ next, echoCntStep st lo at' = some (e, st', next) ∧
      th' = ⟨next.elim .idle fun q ↦ .echo q.1 q.2, cs⟩ := by
  obtain ⟨⟨e, st', next⟩, hstep, heq⟩ := Option.map_eq_some_iff.1 h
  simp only [Prod.mk.injEq] at heq
  obtain ⟨rfl, rfl, rfl⟩ := heq
  exact ⟨next, hstep, rfl⟩

/-- **Inversion.** Every step of a worker is one of these moves. -/
theorem move_of_program {st st' : Statics} {th th' : Worker} {e : Event}
    (h : program st th = some (e, st', th')) : Move st th e st' th' := by
  obtain ⟨- | ⟨lo, at'⟩, cs⟩ := th
  · cases cs with
    | nil => exact absurd h (by simp [program])
    | cons c cs =>
      simp only [program, Option.some.injEq, Prod.mk.injEq] at h
      obtain ⟨rfl, rfl, rfl⟩ := h
      exact .call
  obtain ⟨next, hstep, rfl⟩ := echoCntStep_of_program h
  cases at'
  case once =>
    rw [echoCntStep] at hstep
    rcases ho : st.once <;> rw [ho] at hstep
    · obtain ⟨rfl, rfl, rfl⟩ := by simpa only [Option.some.injEq, Prod.mk.injEq] using hstep
      exact .onceRun ho
    · exact absurd hstep (by simp)
    · obtain ⟨rfl, rfl, rfl⟩ := by simpa only [Option.some.injEq, Prod.mk.injEq] using hstep
      exact .oncePast ho
  case readlineb =>
    obtain ⟨q, -, hq⟩ := Option.map_eq_some_iff.1 hstep
    simp only [Prod.mk.injEq] at hq
    obtain ⟨rfl, rfl, rfl⟩ := hq
    split_ifs
    · exact .line
    · exact .eof
  case lock =>
    obtain ⟨v, hv, hq⟩ := Option.map_eq_some_iff.1 hstep
    simp only [Prod.mk.injEq] at hq
    obtain ⟨rfl, rfl, rfl⟩ := hq
    exact .lock (Interleaving.wait_eq_some_iff.1 hv)
  case writen =>
    obtain ⟨q, -, hq⟩ := Option.map_eq_some_iff.1 hstep
    simp only [Prod.mk.injEq] at hq
    obtain ⟨rfl, rfl, rfl⟩ := hq
    exact .writen
  all_goals
    simp only [echoCntStep, Option.some.injEq, Prod.mk.injEq] at hstep
    obtain ⟨rfl, rfl, rfl⟩ := hstep
    constructor

/-! ### Places and updates -/

/-- Inside `init_echo_cnt`. -/
def initialising (th : Worker) : ℕ :=
  match th.pc with
  | .echo _ .semInit | .echo _ .clear | .echo _ .finish => 1
  | _ => 0

/-- Past `Pthread_once`. -/
def past (th : Worker) : ℕ :=
  match th.pc with
  | .idle | .echo _ .once | .echo _ .semInit | .echo _ .clear | .echo _ .finish => 0
  | _ => 1

/-- Between `P` and `V`. -/
def holding (th : Worker) : ℕ :=
  match th.pc with
  | .echo _ .load | .echo _ (.add _) | .echo _ (.store _) | .echo _ .print | .echo _ .unlock => 1
  | _ => 0

/-- The bytes counted by an update that has stored and not yet released the mutex. -/
def unreleased (th : Worker) : ℕ :=
  match th.pc with
  | .echo lo .print | .echo lo .unlock => lo.n
  | _ => 0

/-- The step belongs to an update, from its `P` to its `V`. -/
def Event.updates : Event → Bool
  | .locked | .loaded | .stored _ | .printed .. | .completed _ => true
  | _ => false

/-- The bytes a step adds to `byte_cnt`. -/
def Event.storedBytes : Event → ℕ
  | .stored n => n
  | _ => 0

/-- The bytes of the update that a step completes. -/
def Event.completedBytes : Event → ℕ
  | .completed n => n
  | _ => 0

section Histories

variable {ι : Type*}

/-- The sum of the `n` over all stores so far. -/
def storedSum (h : List (ι × Event)) : ℕ := (h.map fun x ↦ x.2.storedBytes).sum

/-- The sum of the `n` over all completed updates. -/
def completedSum (h : List (ι × Event)) : ℕ := (h.map fun x ↦ x.2.completedBytes).sum

theorem storedSum_append_singleton (h : List (ι × Event)) (x : ι × Event) :
    storedSum (h ++ [x]) = storedSum h + x.2.storedBytes := by
  simp [storedSum]

theorem completedSum_append_singleton (h : List (ι × Event)) (x : ι × Event) :
    completedSum (h ++ [x]) = completedSum h + x.2.completedBytes := by
  simp [completedSum]

/-- Without updates nothing is stored. -/
theorem storedSum_eq_zero {h : List (ι × Event)} (hnone : ∀ x ∈ h, x.2.updates = false) :
    storedSum h = 0 := by
  refine List.sum_eq_zero fun n hn ↦ ?_
  obtain ⟨x, hx, rfl⟩ := List.mem_map.1 hn
  have hup := hnone x hx
  generalize x.2 = e at hup
  cases e <;> first | rfl | exact absurd hup (by simp [Event.updates])

end Histories

/-! ### Before, during and after the initialisation -/

/-- What a worker knows of the shared state: inside `init_echo_cnt`, that the mutex is set; inside
the critical section, that its copy of the counter is not stale. -/
def Current (st : Statics) (th : Worker) : Prop :=
  match th.pc with
  | .echo _ .clear | .echo _ .finish => st.mutex = 1
  | .echo _ (.add v) => v = st.byteCnt
  | .echo lo (.store v) => v = st.byteCnt + BitVec.ofNat 32 lo.n
  | _ => True

/-- The number of threads that run the routine. -/
def Once.runners : Once → ℕ
  | .running => 1
  | _ => 0

variable {st st' : Statics} {th th' : Worker} {e : Event}

/-- A worker's knowledge survives what leaves the mutex and the counter alone. -/
theorem Current.frame (hcur : Current st th) (hmutex : initialising th ≠ 0 → st'.mutex = st.mutex)
    (hcnt : holding th ≠ 0 → st'.byteCnt = st.byteCnt) : Current st' th := by
  obtain ⟨- | ⟨lo, at'⟩, cs⟩ := th
  · trivial
  · cases at'
    case clear | finish => exact (hmutex Nat.one_ne_zero).trans hcur
    case add | store => rw [Current, hcnt Nat.one_ne_zero]; exact hcur
    all_goals trivial

/-- Only the holder of the mutex is between `P` and `V`, and it is past `Pthread_once`. -/
theorem holding_le_past (th : Worker) : holding th ≤ past th := by
  obtain ⟨- | ⟨lo, at'⟩, cs⟩ := th
  · exact le_rfl
  · cases at' <;> exact Nat.le_of_ble_eq_true rfl

theorem unreleased_eq_zero (hth : holding th = 0) : unreleased th = 0 := by
  obtain ⟨- | ⟨lo, at'⟩, cs⟩ := th
  · rfl
  · cases at' <;> first | rfl | exact absurd hth Nat.one_ne_zero

namespace Move

theorem current (hm : Move st th e st' th') (hcur : Current st th) : Current st' th' := by
  cases hm
  case clear => exact hcur
  case semInit | load => exact rfl
  case add lo cs v => exact congrArg (· + BitVec.ofNat 32 lo.n) hcur
  all_goals trivial

theorem mutex_eq (hm : Move st th e st' th') (hinit : initialising th = 0) (hpast : past th = 0) :
    st'.mutex = st.mutex := by
  cases hm
  case semInit => exact absurd hinit Nat.one_ne_zero
  case lock | unlock => exact absurd hpast Nat.one_ne_zero
  all_goals rfl

theorem byteCnt_eq (hm : Move st th e st' th') (hinit : initialising th = 0)
    (hhold : holding th = 0) : st'.byteCnt = st.byteCnt := by
  cases hm
  case clear => exact absurd hinit Nat.one_ne_zero
  case store => exact absurd hhold Nat.one_ne_zero
  all_goals rfl

/-- The routine is entered and left together with its flag. -/
theorem initialising_eq (hm : Move st th e st' th')
    (hrun : initialising th ≠ 0 → st.once = .running) :
    initialising th' + st.once.runners = initialising th + st'.once.runners := by
  cases hm
  case onceRun ho => rw [ho]; rfl
  case finish => rw [hrun Nat.one_ne_zero]; rfl
  all_goals rfl

theorem once_done (hm : Move st th e st' th') (ho : st.once = .done) : st'.once = .done := by
  cases hm
  case onceRun ho' => rw [ho] at ho'; exact absurd ho' (by decide)
  case finish => rfl
  all_goals exact ho

/-- While the routine has not returned, nobody gets past `Pthread_once`. -/
theorem past_eq (hm : Move st th e st' th') (hpast : past th = 0) (ho : st'.once ≠ .done) :
    past th' = 0 := by
  cases hm
  case oncePast ho' => exact absurd ho' ho
  case finish => exact absurd rfl ho
  case line | eof | lock | load | add | store | print | unlock | writen =>
    exact absurd hpast Nat.one_ne_zero
  all_goals rfl

theorem past_of_updates (hm : Move st th e st' th') (he : e.updates = true) : past th ≠ 0 := by
  cases hm
  case lock | load | store | print | unlock => exact Nat.one_ne_zero
  all_goals exact absurd he (by simp [Event.updates])

theorem initialising_of_cleared (hm : Move st th .cleared st' th') : initialising th ≠ 0 := by
  cases hm
  exact Nat.one_ne_zero

/-- The mutex is handed over. -/
theorem holding_eq (hm : Move st th e st' th') (hinit : initialising th = 0) :
    st'.mutex + holding th' = st.mutex + holding th := by
  cases hm
  case semInit => exact absurd hinit Nat.one_ne_zero
  case lock hv => exact hv.symm
  case unlock => rfl
  all_goals rfl

/-- The return of the routine opens the mutex. -/
theorem finishes (hm : Move st th e st' th') (hcur : Current st th) (ho : st.once ≠ .done)
    (ho' : st'.once = .done) : e = .initialised ∧ st'.mutex = 1 ∧ holding th' = 0 := by
  cases hm
  case finish => exact ⟨rfl, hcur, rfl⟩
  case onceRun => exact absurd ho' (by simp)
  all_goals exact absurd ho' ho

/-- **A store adds to the counter** what the update read. -/
theorem counts (hm : Move st th e st' th') (hcur : Current st th) (hinit : initialising th = 0) :
    st'.byteCnt = st.byteCnt + BitVec.ofNat 32 e.storedBytes := by
  cases hm
  case clear => exact absurd hinit Nat.one_ne_zero
  case store => exact hcur
  all_goals exact (BitVec.add_zero _).symm

theorem counts_initialising (hm : Move st th e st' th') (hinit : initialising th ≠ 0) :
    e.storedBytes = 0 ∧ (st'.byteCnt = st.byteCnt ∨ st'.byteCnt = 0) := by
  cases hm
  case semInit | finish => exact ⟨rfl, Or.inl rfl⟩
  case clear => exact ⟨rfl, Or.inr rfl⟩
  all_goals exact absurd rfl hinit

/-- What is stored is completed by the same thread. -/
theorem unreleased_eq (hm : Move st th e st' th') :
    unreleased th' + e.completedBytes = unreleased th + e.storedBytes := by
  cases hm
  case store => exact Nat.add_comm ..
  case unlock => exact Nat.add_comm ..
  all_goals rfl

end Move

/-! ### A worker by itself -/

section Alone

variable {v : ℕ} {cs : List Conn} {lo : Locals} {line : List UInt8}

/-- The turn of the loop for a line: the counter goes up by its length. -/
theorem alone_line {unread : List UInt8} {rs : List ReadResult} {out : List UInt8}
    {ws : List WriteResult} {cnt : BitVec 32} (hne : line ≠ [])
    (hread : rioReadlinebCounted maxline lo.rio lo.conn.reads =
      some (line.length, line, unread, rs))
    (hwrite : rioWriten line lo.conn.writes = some (out, ws)) :
    Interleaving.Alone program ⟨.done, v + 1, cnt⟩ ⟨.echo lo .readlineb, cs⟩
      ⟨.done, v + 1, cnt + BitVec.ofNat 32 line.length⟩
      ⟨.echo ⟨line.length, line, unread, ⟨lo.conn.connfd, rs, ws⟩⟩ .readlineb, cs⟩ := by
  have hlen : line.length ≠ 0 := fun h ↦ hne (List.length_eq_zero_iff.1 h)
  have hfirst : program ⟨.done, v + 1, cnt⟩ ⟨.echo lo .readlineb, cs⟩ = some (.silent,
      ⟨.done, v + 1, cnt⟩,
      ⟨.echo ⟨line.length, line, unread, ⟨lo.conn.connfd, rs, lo.conn.writes⟩⟩ .lock, cs⟩) := by
    simp [program, echoCntStep, hread, hne]
  refine .step hfirst (.step rfl (.step rfl (.step rfl (.step rfl (.step rfl (.step rfl
    (.step (e := .echoed out) ?_ .refl)))))))
  simp [program, echoCntStep, hwrite, post]

theorem alone_eof {unread : List UInt8} {rs : List ReadResult} {cnt : BitVec 32}
    (hread : rioReadlinebCounted maxline lo.rio lo.conn.reads = some (0, [], unread, rs)) :
    Interleaving.Alone program ⟨.done, v, cnt⟩ ⟨.echo lo .readlineb, cs⟩
      ⟨.done, v, cnt⟩ ⟨.idle, cs⟩ := by
  refine .step (e := .silent) ?_ .refl
  simp [program, echoCntStep, hread]

/-- The whole loop takes a connection to its end, and leaves the mutex as it found it. -/
theorem alone_of_readLines {st' : Echo} (fuel : ℕ) : ∀ {lo : Locals} {st : Echo},
    lo.conn.writes = st.writes →
      readLines echoBody fuel lo.rio lo.conn.reads st = some st' →
        Interleaving.Alone program ⟨.done, v + 1, st.byteCnt⟩ ⟨.echo lo .readlineb, cs⟩
          ⟨.done, v + 1, st'.byteCnt⟩ ⟨.idle, cs⟩ := by
  induction fuel with
  | zero => exact fun _ h ↦ absurd h (by simp [readLines])
  | succ fuel ih =>
    intro lo st hws h
    rw [readLines] at h
    rcases hread : rioReadlinebCounted maxline lo.rio lo.conn.reads with
      - | ⟨n, line, unread, rs⟩
    · rw [hread] at h
      exact absurd h (by simp)
    obtain rfl : line.length = n := by
      rw [rioReadlinebCounted_eq (by decide)] at hread
      obtain ⟨q, -, hq⟩ := Option.map_eq_some_iff.1 hread
      obtain ⟨hn, rfl⟩ := Prod.mk.inj hq
      exact hn
    rw [hread] at h
    dsimp only at h
    rcases eq_or_ne line [] with rfl | hne
    · rw [if_neg (by simp)] at h
      obtain rfl := Option.some.inj h
      exact alone_eof hread
    · rw [if_pos fun h ↦ hne (List.length_eq_zero_iff.1 h), List.take_length] at h
      obtain ⟨st₁, hbody, hrest⟩ := Option.bind_eq_some_iff.1 h
      obtain ⟨⟨out, ws⟩, hwrite, rfl⟩ := Option.map_eq_some_iff.1 hbody
      have hloop := @ih ⟨line.length, line, unread, ⟨lo.conn.connfd, rs, ws⟩⟩
        ⟨st.echoed ++ out, ws, st.byteCnt + BitVec.ofNat 32 line.length⟩ rfl hrest
      exact (alone_line hne hread (hws ▸ hwrite)).trans hloop

/-- **A worker that nobody disturbs** does what `echoCnt` does, once the routine has returned. -/
theorem steps_of_echoCnt {ι : Type*} [DecidableEq ι] {s : State ι Statics Worker} {i : ι}
    {c : Conn} {st' : Echo} {fuel : ℕ} (hdone : s.shared.once = .done)
    (hfree : s.shared.mutex ≠ 0) (hth : s.thread i = ⟨.idle, c :: cs⟩)
    (hecho : echoCnt fuel c.reads ⟨[], c.writes, s.shared.byteCnt⟩ = some st') :
    ∃ h, Steps program s h (s.advance i { s.shared with byteCnt := st'.byteCnt } ⟨.idle, cs⟩) := by
  obtain ⟨v, hv⟩ := Nat.exists_eq_add_one_of_ne_zero hfree
  have hsh : s.shared = ⟨.done, v + 1, s.shared.byteCnt⟩ := by rw [← hdone, ← hv]
  have hloop := @alone_of_readLines v cs st' fuel ⟨0, [], [], c⟩ _ rfl hecho
  have hcall : program ⟨.done, v + 1, s.shared.byteCnt⟩ ⟨.idle, c :: cs⟩ =
      some (.silent, ⟨.done, v + 1, s.shared.byteCnt⟩, ⟨c.enter, cs⟩) := rfl
  have honce : program ⟨.done, v + 1, s.shared.byteCnt⟩ ⟨c.enter, cs⟩ = some (.silent,
      ⟨.done, v + 1, s.shared.byteCnt⟩, ⟨.echo ⟨0, [], [], c⟩ .readlineb, cs⟩) := rfl
  refine Interleaving.Alone.steps ?_
  rw [hsh, hth]
  exact .step hcall (.step honce hloop)

end Alone

/-! ### Every interleaving -/

variable {ι : Type*} [DecidableEq ι] [Fintype ι] {h : List (ι × Event)}
  {s : State ι Statics Worker} {i : ι}

/-- Where the workers are and what the mutex is worth, before the routine has returned and after. -/
structure Phased (h : List (ι × Event)) (s : State ι Statics Worker) : Prop where
  initialising : total initialising s = s.shared.once.runners
  before : s.shared.once ≠ .done → total past s = 0 ∧ ∀ x ∈ h, x.2.updates = false
  after : s.shared.once = .done →
    s.shared.mutex + total holding s = 1 ∧ ∃ j, (j, Event.initialised) ∈ h
  current : ∀ j, Current s.shared (s.thread j)

/-- The counter is the sum of what was stored; what is stored and not completed is in the hands of
the holder of the mutex. -/
structure Counted (h : List (ι × Event)) (s : State ι Statics Worker) : Prop where
  byteCnt : s.shared.byteCnt = BitVec.ofNat 32 (storedSum h)
  completed : completedSum h + total unreleased s = storedSum h

omit [DecidableEq ι] in
theorem phased_initial (conns : ι → List Conn) : Phased [] (initial conns) where
  initialising := Interleaving.total_eq_zero _ _ fun _ ↦ rfl
  before := fun _ ↦ ⟨Interleaving.total_eq_zero _ _ fun _ ↦ rfl, fun x hx ↦ absurd hx (by simp)⟩
  after := fun hdone ↦ absurd hdone Once.noConfusion
  current := fun _ ↦ trivial

omit [DecidableEq ι] in
theorem counted_initial (conns : ι → List Conn) : Counted [] (initial conns) where
  byteCnt := rfl
  completed := (Nat.zero_add _).trans (Interleaving.total_eq_zero _ _ fun _ ↦ rfl)

namespace Phased

omit [DecidableEq ι] in
theorem done_of_past (hph : Phased h s) (hpast : past (s.thread i) ≠ 0) :
    s.shared.once = .done := by
  by_contra ho
  have := Interleaving.le_total past s i
  have := (hph.before ho).1
  omega

omit [DecidableEq ι] in
theorem running_of_initialising (hph : Phased h s)
    (hinit : ByteCount.initialising (s.thread i) ≠ 0) : s.shared.once = .running := by
  have hle := Interleaving.le_total ByteCount.initialising s i
  rw [hph.initialising] at hle
  by_contra ho
  have hnone : s.shared.once.runners = 0 := by
    rcases hs : s.shared.once
    · rfl
    · exact absurd hs ho
    · rfl
  omega

omit [DecidableEq ι] in
theorem initialising_eq_zero (hph : Phased h s) (ho : s.shared.once ≠ .running) :
    ByteCount.initialising (s.thread i) = 0 := by
  by_contra hinit
  exact ho (hph.running_of_initialising hinit)

/-- What the other workers know survives the step: nobody else initialises, and nobody else holds
the mutex. -/
theorem current_step (hph : Phased h s) (hm : Move s.shared (s.thread i) e st' th') (j : ι) :
    Current st' ((s.advance i st' th').thread j) := by
  rcases eq_or_ne j i with rfl | hne
  · rw [s.advance_thread_self]
    exact hm.current (hph.current j)
  rw [s.advance_thread_of_ne st' th' hne]
  refine (hph.current j).frame (fun hinit ↦ ?_) (fun hhold ↦ ?_)
  · have hrun := hph.running_of_initialising hinit
    have hone := hph.initialising
    rw [hrun, show Once.running.runners = 1 from rfl] at hone
    have hsum := Interleaving.add_le_total ByteCount.initialising s hne
    have hpast := (hph.before (by rw [hrun]; decide)).1
    have hle := Interleaving.le_total past s i
    exact hm.mutex_eq (by omega) (by omega)
  · have hdone := hph.done_of_past fun hpast ↦
      hhold (Nat.le_zero.1 (hpast ▸ holding_le_past (s.thread j)))
    have hone := (hph.after hdone).1
    have hsum := Interleaving.add_le_total holding s hne
    exact hm.byteCnt_eq (hph.initialising_eq_zero (by rw [hdone]; decide)) (by omega)

theorem step (hph : Phased h s) (hm : Move s.shared (s.thread i) e st' th') :
    Phased (h ++ [(i, e)]) (s.advance i st' th') := by
  refine ⟨?_, fun ho' ↦ ?_, fun ho' ↦ ?_, hph.current_step hm⟩
  · have htotal := Interleaving.total_step ByteCount.initialising s i st' th'
    have hmove := hm.initialising_eq hph.running_of_initialising
    have := hph.initialising
    rw [State.advance_shared]
    omega
  · have ho : s.shared.once ≠ .done := fun ho ↦ ho' (hm.once_done ho)
    obtain ⟨hpast, hnone⟩ := hph.before ho
    have hle := Interleaving.le_total past s i
    have htotal := Interleaving.total_step past s i st' th'
    have hmove := hm.past_eq (by omega) ho'
    refine ⟨by omega, fun x hx ↦ ?_⟩
    rcases List.mem_append.1 hx with hx | hx
    · exact hnone x hx
    · obtain rfl := List.mem_singleton.1 hx
      by_contra hup
      exact hm.past_of_updates (Bool.eq_true_of_not_eq_false hup) (by omega)
  · have htotal := Interleaving.total_step holding s i st' th'
    rw [State.advance_shared] at ho' ⊢
    by_cases ho : s.shared.once = .done
    · obtain ⟨hone, j, hj⟩ := hph.after ho
      have hmove := hm.holding_eq (hph.initialising_eq_zero (by rw [ho]; decide))
      exact ⟨by omega, j, List.mem_append_left _ hj⟩
    · -- the routine returns: until now nobody has held the mutex
      obtain ⟨rfl, hmutex, hhold⟩ := hm.finishes (hph.current i) ho ho'
      have hle := Interleaving.total_mono s holding_le_past
      have := (hph.before ho).1
      exact ⟨by omega, i, by simp⟩

end Phased

theorem Counted.step (hcnt : Counted h s) (hph : Phased h s)
    (hm : Move s.shared (s.thread i) e st' th') :
    Counted (h ++ [(i, e)]) (s.advance i st' th') := by
  have hstored := storedSum_append_singleton h (i, e)
  have hcompleted := completedSum_append_singleton h (i, e)
  constructor
  · rw [State.advance_shared]
    rcases eq_or_ne (initialising (s.thread i)) 0 with hinit | hinit
    · rw [hm.counts (hph.current i) hinit, hcnt.byteCnt, hstored, BitVec.ofNat_add]
    · -- the routine clears a counter to which nothing has been added
      obtain ⟨he, hkept⟩ := hm.counts_initialising hinit
      have hnone := (hph.before (by rw [hph.running_of_initialising hinit]; decide)).2
      have hzero := hcnt.byteCnt
      rw [storedSum_eq_zero hnone] at hstored hzero
      rw [hstored, he]
      exact hkept.elim (·.trans hzero) id
  · have htotal := Interleaving.total_step unreleased s i st' th'
    have hmove := hm.unreleased_eq
    have := hcnt.completed
    dsimp only at hstored hcompleted
    omega

/-- Both invariants hold along every interleaving. -/
theorem invariant_of_steps {conns : ι → List Conn} (hs : Steps program (initial conns) h s) :
    Phased h s ∧ Counted h s := by
  refine hs.invariant (I := fun h s ↦ Phased h s ∧ Counted h s)
    ⟨phased_initial conns, counted_initial conns⟩ fun ⟨hph, hcnt⟩ hP ↦ ?_
  have hm := move_of_program hP
  exact ⟨hph.step hm, hcnt.step hph hm⟩

omit [DecidableEq ι] in
/-- While the mutex is free, no update has stored without being completed. -/
theorem Phased.unreleased_eq_zero (hph : Phased h s) (hfree : s.shared.mutex ≠ 0) :
    total unreleased s = 0 := by
  have hhold : total holding s = 0 := by
    by_cases ho : s.shared.once = .done
    · have := (hph.after ho).1
      omega
    · have := (hph.before ho).1
      have := Interleaving.total_mono s holding_le_past
      omega
  refine Interleaving.total_eq_zero _ _ fun j ↦ ByteCount.unreleased_eq_zero ?_
  have := Interleaving.le_total holding s j
  omega

/-- **The byte counter is the sum of its updates.** In every interleaving of any number of workers
on any connections: whenever the mutex is free, `byte_cnt` is the sum of the `n` of all completed
updates, as an `int` exactly while the sum is below `2 ^ 31`; every step of an update comes after
`init_echo_cnt` has returned; and no step of an update comes before the routine's `byte_cnt = 0`. -/
theorem byteCnt_accounts (conns : ι → List Conn) {h : List (ι × Event)}
    {s : State ι Statics Worker} (hs : Steps program (initial conns) h s) :
    (s.shared.mutex ≠ 0 →
      s.shared.byteCnt = BitVec.ofNat 32 (completedSum h) ∧
        (completedSum h < 2 ^ 31 → s.shared.byteCnt.toInt = completedSum h)) ∧
    ∀ (h₁ h₂ : List (ι × Event)) (i : ι) (e : Event), h = h₁ ++ (i, e) :: h₂ →
      (e.updates = true → ∃ j, (j, Event.initialised) ∈ h₁) ∧
        (e = .cleared → ∀ x ∈ h₁, x.2.updates = false) := by
  refine ⟨fun hfree ↦ ?_, ?_⟩
  · obtain ⟨hph, hcnt⟩ := invariant_of_steps hs
    have hsum := hcnt.completed
    rw [hph.unreleased_eq_zero hfree, Nat.add_zero] at hsum
    have hbyte := hsum ▸ hcnt.byteCnt
    refine ⟨hbyte, fun hlt ↦ ?_⟩
    rw [hbyte, BitVec.toInt_ofNat', Int.bmod_eq_of_le] <;> omega
  · rintro h₁ h₂ i e rfl
    obtain ⟨s₁, st', th', hs₁, hP⟩ := hs.exists_step
    obtain ⟨hph, -⟩ := invariant_of_steps hs₁
    have hm := move_of_program hP
    refine ⟨fun hup ↦ (hph.after (hph.done_of_past (hm.past_of_updates hup))).2, ?_⟩
    rintro rfl
    have hrun := hph.running_of_initialising hm.initialising_of_cleared
    exact (hph.before (by rw [hrun]; decide)).2

/-- Two workers and one line each. The second finds the routine running and waits for it. -/
theorem byteCnt_accounts_two :
    ∃ (h : List (Fin 2 × Event)) (s : State (Fin 2) Statics Worker),
      Steps program (initial fun i : Fin 2 ↦ [⟨4 + i,
        [.data ⟨[104, 105, 10], by simp, by decide⟩], []⟩]) h s ∧
      completedSum h = 6 ∧
      (s.shared.mutex ≠ 0 →
        s.shared.byteCnt = BitVec.ofNat 32 (completedSum h) ∧
          (completedSum h < 2 ^ 31 → s.shared.byteCnt.toInt = completedSum h)) ∧
      ∀ (h₁ h₂ : List (Fin 2 × Event)) (i : Fin 2) (e : Event), h = h₁ ++ (i, e) :: h₂ →
        (e.updates = true → ∃ j, (j, Event.initialised) ∈ h₁) ∧
          (e = .cleared → ∀ x ∈ h₁, x.2.updates = false) := by
  have hsum : (Interleaving.run program (initial fun i : Fin 2 ↦ [⟨4 + i,
      [.data ⟨[104, 105, 10], by simp, by decide⟩], []⟩])
      ([0, 1] ++ List.replicate 12 0 ++ List.replicate 8 1)).map
        (fun r ↦ completedSum r.1) = some 6 := by decide
  obtain ⟨⟨h, s⟩, hrun, hsix⟩ := Option.map_eq_some_iff.1 hsum
  have hs := Interleaving.steps_of_run _ hrun
  exact ⟨h, s, hs, hsix, byteCnt_accounts _ hs⟩

end CsappCode.Threads.ByteCount
