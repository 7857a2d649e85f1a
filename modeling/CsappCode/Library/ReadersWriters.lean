import CsappCode.Library.Interleaving

/-!
# Readers and writers, readers first

The classical protocol over two binary semaphores. `mutex` guards the number `readcnt` of readers;
the first reader in takes `w`, the last one out gives it back, and a writer holds `w` by itself. So
`w` may be taken by one thread and given back by another, and no thread owns it in between.

What the readers and writers do inside is a parameter: `Sections.read` may look at the data,
`Sections.write` may change it. Every semaphore operation and every access to `readcnt` is one
atomic step.

* `move_of_program` is the inversion lemma: every step of a thread is one of the `Move`s.
* `Exclusive` is the invariant. Its equation for `w` says who holds `w` at every moment: nobody, one
  writer, or the readers as a group (`group`).
* `Exclusive.excluded` reads off mutual exclusion and the meaning of `readcnt`.
* `Exclusive.progress` and `Exclusive.not_takeW_of_reading`: there is no deadlock, and a reader does
  not wait for `w` beside another one that reads.
* `Resource.guarded` is the rule for the data: what every writer restores on leaving holds of the
  data whenever no writer is inside, however the sections overlap.

## What is assumed

The number of threads is finite, which the sums over them need, and each makes finitely many calls
in a run. Both semaphores start free. `readcnt` is an integer that does not wrap: no more readers
are counted than there are threads.

Writers may starve, as the protocol has it, and nothing is said against that.
-/

namespace ReadersWriters

open Interleaving (Program State Steps Enabled total total_step wait post)

/-- The shared variables. -/
structure Shared (δ : Type*) where
  mutex : ℕ
  w : ℕ
  readcnt : ℤ
  data : δ

/-- What readers and writers do inside, one step at a time; `none` ends the section. -/
structure Sections (δ ρ ω ε : Type*) where
  read : δ → ρ → Option (ε × ρ)
  write : δ → ω → Option (δ × ω)

/-- A call, with the state its section starts in. -/
inductive Call (ρ ω : Type*) where
  | reader (r : ρ)
  | writer (x : ω)

/-- What a step reports. -/
inductive Event (ρ ω ε : Type*) where
  | silent
  | called (c : Call ρ ω)
  | read (e : ε)
  | readerReturned (r : ρ)
  | writerReturned (x : ω)

/-- Where a reader stands. -/
inductive ReaderAt where
  /-- before the first `P(&mutex)` -/
  | lockIn
  /-- before the load of `readcnt++` -/
  | loadInc
  /-- before its store -/
  | storeInc (readcnt : ℤ)
  /-- before `readcnt == 1` -/
  | testFirst
  /-- before `P(&w)` -/
  | takeW
  /-- before the first `V(&mutex)` -/
  | unlockIn
  /-- in the reading section, up to the second `P(&mutex)` -/
  | reading
  /-- before the load of `readcnt--` -/
  | loadDec
  /-- before its store -/
  | storeDec (readcnt : ℤ)
  /-- before `readcnt == 0` -/
  | testLast
  /-- before `V(&w)` -/
  | giveW
  /-- before the second `V(&mutex)` -/
  | unlockOut
  deriving DecidableEq, Repr

/-- Where a thread stands: between calls, in a reader, before a writer's `P(&w)`, or in the writing
section, up to `V(&w)`. -/
inductive Pc (ρ ω : Type*) where
  | idle
  | reader (r : ρ) (at' : ReaderAt)
  | takeW (x : ω)
  | writing (x : ω)

/-- A thread, with the calls it has still to make. -/
structure Thread (ρ ω : Type*) where
  pc : Pc ρ ω
  todo : List (Call ρ ω)

variable {δ ρ ω ε : Type*}

/-- The start of a call. -/
def Call.enter : Call ρ ω → Pc ρ ω
  | .reader r => .reader r .lockIn
  | .writer x => .takeW x

variable (S : Sections δ ρ ω ε)

/-- One step of a reader. -/
def Sections.reader (sh : Shared δ) (r : ρ) :
    ReaderAt → Option (Event ρ ω ε × Shared δ × Pc ρ ω)
  | .lockIn => (wait sh.mutex).map fun v ↦ (.silent, { sh with mutex := v }, .reader r .loadInc)
  | .loadInc => some (.silent, sh, .reader r (.storeInc sh.readcnt))
  | .storeInc v => some (.silent, { sh with readcnt := v + 1 }, .reader r .testFirst)
  | .testFirst => some (.silent, sh, .reader r (if sh.readcnt = 1 then .takeW else .unlockIn))
  | .takeW => (wait sh.w).map fun v ↦ (.silent, { sh with w := v }, .reader r .unlockIn)
  | .unlockIn => some (.silent, { sh with mutex := post sh.mutex }, .reader r .reading)
  | .reading =>
    match S.read sh.data r with
    | some (e, r') => some (.read e, sh, .reader r' .reading)
    | none => (wait sh.mutex).map fun v ↦ (.silent, { sh with mutex := v }, .reader r .loadDec)
  | .loadDec => some (.silent, sh, .reader r (.storeDec sh.readcnt))
  | .storeDec v => some (.silent, { sh with readcnt := v - 1 }, .reader r .testLast)
  | .testLast => some (.silent, sh, .reader r (if sh.readcnt = 0 then .giveW else .unlockOut))
  | .giveW => some (.silent, { sh with w := post sh.w }, .reader r .unlockOut)
  | .unlockOut => some (.readerReturned r, { sh with mutex := post sh.mutex }, .idle)

/-- One step of a thread. -/
def Sections.program : Program (Shared δ) (Thread ρ ω) (Event ρ ω ε) := fun sh th ↦
  match th.pc with
  | .idle =>
    match th.todo with
    | [] => none
    | c :: cs => some (.called c, sh, ⟨c.enter, cs⟩)
  | .reader r at' => (S.reader sh r at').map fun q ↦ (q.1, q.2.1, ⟨q.2.2, th.todo⟩)
  | .takeW x => (wait sh.w).map fun v ↦ (.silent, { sh with w := v }, ⟨.writing x, th.todo⟩)
  | .writing x =>
    match S.write sh.data x with
    | some (d, x') => some (.silent, { sh with data := d }, ⟨.writing x', th.todo⟩)
    | none => some (.writerReturned x, { sh with w := post sh.w }, ⟨.idle, th.todo⟩)

/-- Both semaphores free, nobody inside. -/
def initial {ι : Type*} (data : δ) (calls : ι → List (Call ρ ω)) :
    State ι (Shared δ) (Thread ρ ω) :=
  ⟨⟨1, 1, 0, data⟩, fun i ↦ ⟨.idle, calls i⟩⟩

/-! ### What a step can do -/

/-- The moves of a thread. -/
inductive Move : Shared δ → Thread ρ ω → Event ρ ω ε → Shared δ → Thread ρ ω → Prop
  | call {sh c cs} : Move sh ⟨.idle, c :: cs⟩ (.called c) sh ⟨c.enter, cs⟩
  | lockIn {sh r cs v} (hv : sh.mutex = v + 1) :
    Move sh ⟨.reader r .lockIn, cs⟩ .silent { sh with mutex := v } ⟨.reader r .loadInc, cs⟩
  | loadInc {sh r cs} :
    Move sh ⟨.reader r .loadInc, cs⟩ .silent sh ⟨.reader r (.storeInc sh.readcnt), cs⟩
  | storeInc {sh r cs v} :
    Move sh ⟨.reader r (.storeInc v), cs⟩ .silent { sh with readcnt := v + 1 }
      ⟨.reader r .testFirst, cs⟩
  | first {sh r cs} (h : sh.readcnt = 1) :
    Move sh ⟨.reader r .testFirst, cs⟩ .silent sh ⟨.reader r .takeW, cs⟩
  | notFirst {sh r cs} (h : sh.readcnt ≠ 1) :
    Move sh ⟨.reader r .testFirst, cs⟩ .silent sh ⟨.reader r .unlockIn, cs⟩
  | readersTakeW {sh r cs v} (hv : sh.w = v + 1) :
    Move sh ⟨.reader r .takeW, cs⟩ .silent { sh with w := v } ⟨.reader r .unlockIn, cs⟩
  | unlockIn {sh r cs} :
    Move sh ⟨.reader r .unlockIn, cs⟩ .silent { sh with mutex := sh.mutex + 1 }
      ⟨.reader r .reading, cs⟩
  | read {sh r cs e r'} (h : S.read sh.data r = some (e, r')) :
    Move sh ⟨.reader r .reading, cs⟩ (.read e) sh ⟨.reader r' .reading, cs⟩
  | lockOut {sh r cs v} (h : S.read sh.data r = none) (hv : sh.mutex = v + 1) :
    Move sh ⟨.reader r .reading, cs⟩ .silent { sh with mutex := v } ⟨.reader r .loadDec, cs⟩
  | loadDec {sh r cs} :
    Move sh ⟨.reader r .loadDec, cs⟩ .silent sh ⟨.reader r (.storeDec sh.readcnt), cs⟩
  | storeDec {sh r cs v} :
    Move sh ⟨.reader r (.storeDec v), cs⟩ .silent { sh with readcnt := v - 1 }
      ⟨.reader r .testLast, cs⟩
  | last {sh r cs} (h : sh.readcnt = 0) :
    Move sh ⟨.reader r .testLast, cs⟩ .silent sh ⟨.reader r .giveW, cs⟩
  | notLast {sh r cs} (h : sh.readcnt ≠ 0) :
    Move sh ⟨.reader r .testLast, cs⟩ .silent sh ⟨.reader r .unlockOut, cs⟩
  | readersGiveW {sh r cs} :
    Move sh ⟨.reader r .giveW, cs⟩ .silent { sh with w := sh.w + 1 } ⟨.reader r .unlockOut, cs⟩
  | unlockOut {sh r cs} :
    Move sh ⟨.reader r .unlockOut, cs⟩ (.readerReturned r) { sh with mutex := sh.mutex + 1 }
      ⟨.idle, cs⟩
  | writerTakeW {sh x cs v} (hv : sh.w = v + 1) :
    Move sh ⟨.takeW x, cs⟩ .silent { sh with w := v } ⟨.writing x, cs⟩
  | write {sh x cs d x'} (h : S.write sh.data x = some (d, x')) :
    Move sh ⟨.writing x, cs⟩ .silent { sh with data := d } ⟨.writing x', cs⟩
  | writerGiveW {sh x cs} (h : S.write sh.data x = none) :
    Move sh ⟨.writing x, cs⟩ (.writerReturned x) { sh with w := sh.w + 1 } ⟨.idle, cs⟩

variable {S}

/-- **Inversion.** Every step of a thread is one of these moves. -/
theorem move_of_program {sh sh' : Shared δ} {th th' : Thread ρ ω} {e : Event ρ ω ε}
    (h : S.program sh th = some (e, sh', th')) : Move S sh th e sh' th' := by
  obtain ⟨pc, cs⟩ := th
  cases pc with
  | idle =>
    cases cs with
    | nil => exact absurd h (by simp [Sections.program])
    | cons c cs =>
      simp only [Sections.program, Option.some.injEq, Prod.mk.injEq] at h
      obtain ⟨rfl, rfl, rfl⟩ := h
      exact .call
  | takeW x =>
    simp only [Sections.program, Option.map_eq_some_iff, Interleaving.wait_eq_some_iff,
      Prod.mk.injEq] at h
    obtain ⟨v, hv, rfl, rfl, rfl⟩ := h
    exact .writerTakeW hv
  | writing x =>
    simp only [Sections.program] at h
    rcases hw : S.write sh.data x with - | ⟨d, x'⟩
    · simp only [hw, Option.some.injEq, Prod.mk.injEq] at h
      obtain ⟨rfl, rfl, rfl⟩ := h
      exact .writerGiveW hw
    · simp only [hw, Option.some.injEq, Prod.mk.injEq] at h
      obtain ⟨rfl, rfl, rfl⟩ := h
      exact .write hw
  | reader r at' =>
    cases at'
    case reading =>
      simp only [Sections.program, Sections.reader] at h
      rcases hr : S.read sh.data r with - | ⟨e', r'⟩
      · simp only [hr, Option.map_map, Option.map_eq_some_iff, Interleaving.wait_eq_some_iff,
          Function.comp_apply, Prod.mk.injEq] at h
        obtain ⟨v, hv, rfl, rfl, rfl⟩ := h
        exact .lockOut hr hv
      · simp only [hr, Option.map_some, Option.some.injEq, Prod.mk.injEq] at h
        obtain ⟨rfl, rfl, rfl⟩ := h
        exact .read hr
    all_goals
      simp only [Sections.program, Sections.reader, Option.map_map, Option.map_some,
        Option.map_eq_some_iff, Function.comp_apply, Option.some.injEq, Prod.mk.injEq,
        Interleaving.wait_eq_some_iff] at h
    case lockIn | takeW => obtain ⟨v, hv, rfl, rfl, rfl⟩ := h; constructor; exact hv
    case testFirst =>
      obtain ⟨rfl, rfl, rfl⟩ := h
      split_ifs with hfirst
      · exact .first hfirst
      · exact .notFirst hfirst
    case testLast =>
      obtain ⟨rfl, rfl, rfl⟩ := h
      split_ifs with hlast
      · exact .last hlast
      · exact .notLast hlast
    all_goals obtain ⟨rfl, rfl, rfl⟩ := h; constructor

/-! ### Counting threads at places -/

/-- The reader holds `mutex`. -/
def ReaderAt.holding : ReaderAt → ℕ
  | .lockIn | .reading => 0
  | _ => 1

/-- The reader is counted in `readcnt`. -/
def ReaderAt.counted : ReaderAt → ℕ
  | .testFirst | .takeW | .unlockIn | .reading | .loadDec | .storeDec _ => 1
  | _ => 0

/-- The reader has counted itself in and not yet settled who takes `w`. -/
def ReaderAt.arriving : ReaderAt → ℕ
  | .testFirst | .takeW => 1
  | _ => 0

/-- The reader has counted itself out and not yet settled who gives `w` back. -/
def ReaderAt.leaving : ReaderAt → ℕ
  | .testLast | .giveW => 1
  | _ => 0

/-- The reader is in the reading section. -/
def ReaderAt.inside : ReaderAt → ℕ
  | .reading => 1
  | _ => 0

/-- A weight on readers, as a weight on threads. -/
def onReaders (f : ReaderAt → ℕ) (th : Thread ρ ω) : ℕ :=
  match th.pc with
  | .reader _ at' => f at'
  | _ => 0

/-- The writers inside. -/
def writing (th : Thread ρ ω) : ℕ :=
  match th.pc with
  | .writing _ => 1
  | _ => 0

/-- What a thread has learnt of `readcnt` is still so. -/
def Current (sh : Shared δ) (th : Thread ρ ω) : Prop :=
  match th.pc with
  | .reader _ (.storeInc v) | .reader _ (.storeDec v) => v = sh.readcnt
  | .reader _ .takeW => sh.readcnt = 1
  | .reader _ .giveW => sh.readcnt = 0
  | _ => True

/-- Whether the readers hold `w` as a group, by the number of readers and the numbers of those
arriving and leaving. -/
def group (readcnt : ℤ) (arriving leaving : ℕ) : ℕ :=
  if readcnt = 0 then leaving else if readcnt = 1 then 1 - arriving else 1

/-- A thread outside `mutex` has learnt nothing. -/
theorem current_of_holding_eq_zero {sh : Shared δ} {th : Thread ρ ω}
    (h : onReaders ReaderAt.holding th = 0) : Current sh th := by
  obtain ⟨pc, cs⟩ := th
  rcases pc with - | ⟨r, at'⟩ | x | x
  · trivial
  · cases at' <;> trivial
  · trivial
  · trivial

theorem current_congr {sh sh' : Shared δ} (h : sh'.readcnt = sh.readcnt) (th : Thread ρ ω) :
    Current sh' th ↔ Current sh th := by
  rw [Current, Current, h]

/-- A smaller weight on places is a smaller weight on threads. -/
theorem onReaders_mono {f g : ReaderAt → ℕ} (h : ∀ a, f a ≤ g a) (th : Thread ρ ω) :
    onReaders f th ≤ onReaders g th := by
  obtain ⟨pc, cs⟩ := th
  cases pc with
  | reader r at' => exact h at'
  | _ => exact le_rfl

theorem onReaders_of_pc {f : ReaderAt → ℕ} {th : Thread ρ ω} {r : ρ} {at' : ReaderAt}
    (h : th.pc = .reader r at') : onReaders f th = f at' := by
  rw [onReaders, h]

theorem onReaders_add (f g : ReaderAt → ℕ) (th : Thread ρ ω) :
    onReaders (fun a ↦ f a + g a) th = onReaders f th + onReaders g th := by
  obtain ⟨pc, cs⟩ := th
  cases pc <;> rfl

/-! ### What one move does to the counts -/

section Moves

variable {sh sh' : Shared δ} {th th' : Thread ρ ω} {e : Event ρ ω ε}

/-- `mutex` changes hands. -/
theorem Move.mutex (hm : Move S sh th e sh' th') :
    sh'.mutex + onReaders ReaderAt.holding th' = sh.mutex + onReaders ReaderAt.holding th := by
  cases hm
  case call c cs => cases c <;> rfl
  case lockIn hv => simp only [onReaders, ReaderAt.holding, hv]
  case lockOut hv => simp only [onReaders, ReaderAt.holding, hv]
  all_goals rfl

/-- `readcnt` follows the readers counted. -/
theorem Move.readcnt (hm : Move S sh th e sh' th') (hcur : Current sh th) :
    sh'.readcnt + onReaders ReaderAt.counted th = sh.readcnt + onReaders ReaderAt.counted th' := by
  cases hm
  case call c cs => cases c <;> rfl
  case storeInc => simp only [Current] at hcur; simp [onReaders, ReaderAt.counted, hcur]
  case storeDec => simp only [Current] at hcur; simp [onReaders, ReaderAt.counted, hcur]
  all_goals rfl

/-- Only the holder of `mutex` changes `readcnt`, and it stays informed. -/
theorem Move.current (hm : Move S sh th e sh' th') (hcur : Current sh th) :
    Current sh' th' ∧ (sh'.readcnt = sh.readcnt ∨ onReaders ReaderAt.holding th = 1) := by
  cases hm
  case call c cs => cases c <;> exact ⟨trivial, .inl rfl⟩
  case first h => exact ⟨h, .inl rfl⟩
  case last h => exact ⟨h, .inl rfl⟩
  case storeInc => exact ⟨trivial, .inr rfl⟩
  case storeDec => exact ⟨trivial, .inr rfl⟩
  case loadInc => exact ⟨rfl, .inl rfl⟩
  case loadDec => exact ⟨rfl, .inl rfl⟩
  all_goals exact ⟨trivial, .inl rfl⟩

/-- **`w` changes hands** between nobody, a writer and the readers as a group. Here `a` and `l` are
the other threads arriving and leaving; there are none beside a thread that holds `mutex`. -/
theorem Move.w (hm : Move S sh th e sh' th') (hcur : Current sh th) {a l : ℕ}
    (hcounted : onReaders ReaderAt.counted th ≤ sh.readcnt)
    (hothers : onReaders ReaderAt.holding th = 1 → a = 0 ∧ l = 0) :
    sh'.w + writing th' + group sh'.readcnt (a + onReaders ReaderAt.arriving th')
        (l + onReaders ReaderAt.leaving th') =
      sh.w + writing th + group sh.readcnt (a + onReaders ReaderAt.arriving th)
        (l + onReaders ReaderAt.leaving th) := by
  cases hm
  case call c cs => cases c <;> rfl
  all_goals
    simp only [onReaders, ReaderAt.holding, ReaderAt.arriving, ReaderAt.leaving, ReaderAt.counted,
      writing, group, Current] at *
  case writerTakeW => omega
  all_goals
    obtain ⟨rfl, rfl⟩ := hothers trivial
    split_ifs <;> omega

end Moves

/-! ### The invariant -/

section Invariant

variable {ι : Type*} [Fintype ι]

/-- `mutex`, `readcnt` and `w` account for the places of all threads. -/
structure Exclusive (s : State ι (Shared δ) (Thread ρ ω)) : Prop where
  mutex : s.shared.mutex + total (onReaders ReaderAt.holding) s = 1
  readcnt : s.shared.readcnt = total (onReaders ReaderAt.counted) s
  w : s.shared.w + total writing s + group s.shared.readcnt
    (total (onReaders ReaderAt.arriving) s) (total (onReaders ReaderAt.leaving) s) = 1
  current : ∀ i, Current s.shared (s.thread i)

theorem exclusive_initial (d : δ) (calls : ι → List (Call ρ ω)) : Exclusive (initial d calls) where
  mutex := by rw [Interleaving.total_eq_zero _ _ fun _ ↦ rfl]; rfl
  readcnt := by rw [Interleaving.total_eq_zero _ _ fun _ ↦ rfl]; rfl
  w := by
    rw [Interleaving.total_eq_zero _ _ fun _ ↦ rfl, Interleaving.total_eq_zero _ _ fun _ ↦ rfl,
      Interleaving.total_eq_zero _ _ fun _ ↦ rfl]
    rfl
  current := fun _ ↦ trivial

variable {s : State ι (Shared δ) (Thread ρ ω)} {i : ι} {e : Event ρ ω ε} {sh' : Shared δ}
  {th' : Thread ρ ω}

/-- Besides a thread that holds `mutex` nobody is arriving or leaving. -/
theorem Exclusive.eq_of_holding (h : Exclusive s) {f : ReaderAt → ℕ}
    (hf : ∀ a, f a ≤ a.holding) (hi : onReaders ReaderAt.holding (s.thread i) = 1) :
    total (onReaders f) s = onReaders f (s.thread i) := by
  classical
  have hmutex := h.mutex
  refine Finset.sum_eq_single_of_mem i (Finset.mem_univ i) fun j _ hne ↦ ?_
  have hle := Interleaving.add_le_total (onReaders ReaderAt.holding) s hne
  have hj := onReaders_mono hf (s.thread j)
  omega

theorem ReaderAt.arriving_le (a : ReaderAt) : a.arriving ≤ a.holding := by
  cases a <;> exact Nat.le_of_ble_eq_true rfl

theorem ReaderAt.leaving_le (a : ReaderAt) : a.leaving ≤ a.holding := by
  cases a <;> exact Nat.le_of_ble_eq_true rfl

variable [DecidableEq ι]

theorem Exclusive.step (h : Exclusive s) (hm : Move S s.shared (s.thread i) e sh' th') :
    Exclusive (s.advance i sh' th') := by
  have hcur := h.current i
  have hcounted := Interleaving.le_total (onReaders ReaderAt.counted) s i
  have hmutex := h.mutex
  have hreadcnt := h.readcnt
  have hw := h.w
  have hholding' := total_step (onReaders ReaderAt.holding) s i sh' th'
  have hcounted' := total_step (onReaders ReaderAt.counted) s i sh' th'
  have hwriting' := total_step writing s i sh' th'
  have harriving' := total_step (onReaders ReaderAt.arriving) s i sh' th'
  have hleaving' := total_step (onReaders ReaderAt.leaving) s i sh' th'
  constructor
  · have := hm.mutex
    rw [State.advance_shared]
    omega
  · have := hm.readcnt hcur
    rw [State.advance_shared]
    omega
  · -- the move sees the arrivals and departures of the other threads as constants
    have harriving := Interleaving.le_total (onReaders ReaderAt.arriving) s i
    have hleaving := Interleaving.le_total (onReaders ReaderAt.leaving) s i
    obtain ⟨a, ha⟩ := Nat.exists_eq_add_of_le' harriving
    obtain ⟨l, hl⟩ := Nat.exists_eq_add_of_le' hleaving
    have hmove := hm.w hcur (a := a) (l := l) (by omega) fun hi ↦ by
      have := h.eq_of_holding ReaderAt.arriving_le hi
      have := h.eq_of_holding ReaderAt.leaving_le hi
      omega
    rw [← ha, ← hl] at hmove
    have ha' : total (onReaders ReaderAt.arriving) (s.advance i sh' th') =
        a + onReaders ReaderAt.arriving th' := by omega
    have hl' : total (onReaders ReaderAt.leaving) (s.advance i sh' th') =
        l + onReaders ReaderAt.leaving th' := by omega
    rw [State.advance_shared, ha', hl']
    omega
  · intro j
    obtain ⟨hself, hothers⟩ := hm.current hcur
    rw [State.advance_shared]
    rcases eq_or_ne j i with rfl | hne
    · rw [State.advance_thread_self]
      exact hself
    rw [s.advance_thread_of_ne sh' th' hne]
    rcases hothers with heq | hi
    · exact (current_congr heq _).2 (h.current j)
    · -- `readcnt` has moved, so thread `i` holds `mutex` and thread `j` does not
      refine current_of_holding_eq_zero ?_
      have hle := Interleaving.add_le_total (onReaders ReaderAt.holding) s hne
      omega

/-- **The protocol's invariant** holds along every interleaving. -/
theorem exclusive_of_steps {d : δ} {calls : ι → List (Call ρ ω)} {h : List (ι × Event ρ ω ε)}
    (hs : Steps S.program (initial d calls) h s) : Exclusive s :=
  hs.invariant (I := fun _ s ↦ Exclusive s) (exclusive_initial d calls)
    fun hex hP ↦ hex.step (move_of_program hP)

end Invariant

/-! ### Mutual exclusion -/

/-- The thread is in the reading section. -/
def Thread.Reading (th : Thread ρ ω) : Prop := onReaders ReaderAt.inside th = 1

/-- The thread is in the writing section. -/
def Thread.Writing (th : Thread ρ ω) : Prop := writing th = 1

instance (th : Thread ρ ω) : Decidable th.Reading := inferInstanceAs (Decidable (_ = _))

instance (th : Thread ρ ω) : Decidable th.Writing := inferInstanceAs (Decidable (_ = _))

theorem Thread.reading_iff {th : Thread ρ ω} : th.Reading ↔ ∃ r, th.pc = .reader r .reading := by
  obtain ⟨pc, cs⟩ := th
  rcases pc with - | ⟨r, at'⟩ | x | x
  · simp [Thread.Reading, onReaders]
  · cases at' <;> simp [Thread.Reading, onReaders, ReaderAt.inside]
  · simp [Thread.Reading, onReaders]
  · simp [Thread.Reading, onReaders]

theorem Thread.writing_iff {th : Thread ρ ω} : th.Writing ↔ ∃ x, th.pc = .writing x := by
  obtain ⟨pc, cs⟩ := th
  cases pc <;> simp [Thread.Writing, writing]

section Exclusion

variable {ι : Type*} [Fintype ι] {s : State ι (Shared δ) (Thread ρ ω)}

/-- What the protocol promises of a state: one writer at a time, no reader beside it, and while
`mutex` is free `readcnt` is the number of readers in the reading section. -/
structure Excluded (s : State ι (Shared δ) (Thread ρ ω)) : Prop where
  one_writer : ∀ i j, (s.thread i).Writing → (s.thread j).Writing → i = j
  no_reader : ∀ i j, (s.thread i).Reading → ¬ (s.thread j).Writing
  readcnt : s.shared.mutex ≠ 0 →
    s.shared.readcnt = (Finset.univ.filter fun i ↦ (s.thread i).Reading).card

theorem ReaderAt.inside_add_arriving_le (a : ReaderAt) : a.inside + a.arriving ≤ a.counted := by
  cases a <;> exact Nat.le_of_ble_eq_true rfl

theorem ReaderAt.counted_le (a : ReaderAt) : a.counted ≤ a.inside + a.holding := by
  cases a <;> exact Nat.le_of_ble_eq_true rfl

/-- While a reader is inside, the readers hold `w`. -/
theorem Exclusive.group_eq_one (h : Exclusive s) (hpos : 0 < total (onReaders ReaderAt.inside) s) :
    group s.shared.readcnt (total (onReaders ReaderAt.arriving) s)
      (total (onReaders ReaderAt.leaving) s) = 1 := by
  have hle : total (onReaders ReaderAt.inside) s + total (onReaders ReaderAt.arriving) s ≤
      total (onReaders ReaderAt.counted) s := by
    rw [← Interleaving.total_add]
    exact Interleaving.total_mono s fun th ↦
      (onReaders_add _ _ th).symm.le.trans (onReaders_mono ReaderAt.inside_add_arriving_le th)
  have hreadcnt := h.readcnt
  rw [group]
  split_ifs <;> omega

/-- **Mutual exclusion** follows from the invariant. -/
theorem Exclusive.excluded (h : Exclusive s) : Excluded s where
  one_writer := by
    classical
    intro i j hi hj
    by_contra hne
    have hle := Interleaving.add_le_total writing s hne
    rw [hi, hj] at hle
    have hw := h.w
    omega
  no_reader := by
    intro i j hi hj
    have hin := Interleaving.le_total (onReaders ReaderAt.inside) s i
    have hwr := Interleaving.le_total writing s j
    rw [hi] at hin
    rw [hj] at hwr
    have hgroup := h.group_eq_one hin
    have hw := h.w
    omega
  readcnt := by
    intro hfree
    have hcard : total (onReaders ReaderAt.inside) s =
        (Finset.univ.filter fun i ↦ (s.thread i).Reading).card :=
      Interleaving.total_eq_card _ s fun th ↦ by
        obtain ⟨pc, cs⟩ := th
        rcases pc with - | ⟨r, at'⟩ | x | x
        · rfl
        · cases at' <;> rfl
        · rfl
        · rfl
    have hle : total (onReaders ReaderAt.inside) s ≤ total (onReaders ReaderAt.counted) s :=
      Interleaving.total_mono s fun th ↦ onReaders_mono
        (fun a ↦ (Nat.le_add_right _ _).trans a.inside_add_arriving_le) th
    have hge : total (onReaders ReaderAt.counted) s ≤
        total (onReaders ReaderAt.inside) s + total (onReaders ReaderAt.holding) s := by
      rw [← Interleaving.total_add]
      exact Interleaving.total_mono s fun th ↦
        (onReaders_mono ReaderAt.counted_le th).trans (onReaders_add _ _ th).le
    have hmutex := h.mutex
    have hreadcnt := h.readcnt
    rw [← hcard]
    omega

end Exclusion

/-! ### Progress -/

section Progress

variable {ι : Type*} [Fintype ι] {s : State ι (Shared δ) (Thread ρ ω)}

/-- The thread is inside a call. -/
def Thread.Busy (th : Thread ρ ω) : Prop := th.pc ≠ .idle

/-- **A call that cannot go on** waits for `mutex`, or for `w` as the first reader or as a
writer. -/
theorem stuck_cases {sh : Shared δ} {th : Thread ρ ω} (hbusy : th.Busy)
    (hstuck : S.program sh th = none) :
    (sh.mutex = 0 ∧ ∃ r, th.pc = .reader r .lockIn ∨ th.pc = .reader r .reading) ∨
      (sh.w = 0 ∧ ∃ r, th.pc = .reader r .takeW) ∨ sh.w = 0 ∧ ∃ x, th.pc = .takeW x := by
  obtain ⟨pc, cs⟩ := th
  rcases pc with - | ⟨r, at'⟩ | x | x
  · exact absurd rfl hbusy
  · have hreader : S.reader sh r at' = none := Option.map_eq_none_iff.1 hstuck
    cases at'
    case lockIn =>
      exact .inl ⟨Interleaving.eq_zero_of_wait (Option.map_eq_none_iff.1 hreader), r, .inl rfl⟩
    case takeW =>
      exact .inr (.inl ⟨Interleaving.eq_zero_of_wait (Option.map_eq_none_iff.1 hreader), r, rfl⟩)
    case reading =>
      rcases hread : S.read sh.data r with - | ⟨e, r'⟩
      · simp only [Sections.reader, hread, Option.map_eq_none_iff] at hreader
        exact .inl ⟨Interleaving.eq_zero_of_wait hreader, r, .inr rfl⟩
      · exact absurd hreader (by simp [Sections.reader, hread])
    all_goals exact absurd hreader (by simp [Sections.reader])
  · exact .inr (.inr ⟨Interleaving.eq_zero_of_wait (Option.map_eq_none_iff.1 hstuck), x, rfl⟩)
  · refine absurd hstuck ?_
    rcases hwrite : S.write sh.data x with - | ⟨d, x'⟩ <;> simp [Sections.program, hwrite]

/-- Where no call can go on, no thread is at a place that only `mutex` or `w` lets in to, but a
first reader before `P(&w)`. -/
theorem total_eq_zero_of_stuck (hstuck : ∀ i, (s.thread i).Busy →
      S.program s.shared (s.thread i) = none) {f : Thread ρ ω → ℕ} (hidle : ∀ cs, f ⟨.idle, cs⟩ = 0)
    (hmutex : s.shared.mutex = 0 →
      ∀ r cs, f ⟨.reader r .lockIn, cs⟩ = 0 ∧ f ⟨.reader r .reading, cs⟩ = 0)
    (hfirst : ∀ i r, (s.thread i).pc = .reader r .takeW → f (s.thread i) = 0)
    (hwriter : ∀ x cs, f ⟨.takeW x, cs⟩ = 0) : total f s = 0 := by
  refine Interleaving.total_eq_zero f s fun i ↦ ?_
  have hcases : (s.thread i).pc = .idle ∨ (s.thread i).Busy := Classical.em _
  rcases hcases.imp_right fun hi ↦ stuck_cases hi (hstuck i hi) with
    hpc | ⟨hzero, r, hpc | hpc⟩ | ⟨-, r, hpc⟩ | ⟨-, x, hpc⟩
  case inr.inr.inl => exact hfirst i r hpc
  all_goals
    generalize s.thread i = th at hpc
    obtain ⟨pc, cs⟩ := th
    obtain rfl := hpc
  · exact hidle cs
  · exact (hmutex hzero r cs).1
  · exact (hmutex hzero r cs).2
  · exact hwriter x cs

/-- **No deadlock.** When some thread is inside a call, one of those inside can take its next
step. -/
theorem Exclusive.progress (h : Exclusive s) (hbusy : ∃ i, (s.thread i).Busy) :
    ∃ i, (s.thread i).Busy ∧ Enabled S.program s i := by
  by_contra hnone
  have hstuck : ∀ i, (s.thread i).Busy → S.program s.shared (s.thread i) = none := fun i hi ↦
    Interleaving.not_enabled_iff.1 fun hen ↦ hnone ⟨i, hi, hen⟩
  have hmutex := h.mutex
  have hreadcnt := h.readcnt
  have hw := h.w
  have hwriting : total writing s = 0 :=
    total_eq_zero_of_stuck hstuck (fun _ ↦ rfl) (fun _ _ _ ↦ ⟨rfl, rfl⟩)
      (fun i r hpc ↦ by rw [writing, hpc]) fun _ _ ↦ rfl
  have hleaving : total (onReaders ReaderAt.leaving) s = 0 :=
    total_eq_zero_of_stuck hstuck (fun _ ↦ rfl) (fun _ _ _ ↦ ⟨rfl, rfl⟩)
      (fun i r hpc ↦ onReaders_of_pc hpc) fun _ _ ↦ rfl
  rcases Nat.eq_zero_or_pos s.shared.mutex with hzero | hpos
  · -- the holder of `mutex` is the first reader, and waits for a writer that is not there
    obtain ⟨i, hi⟩ :=
      Interleaving.exists_of_total_ne_zero (onReaders ReaderAt.holding) s (by omega)
    have hbusy : (s.thread i).Busy := fun hidle ↦ hi (by rw [onReaders, hidle])
    obtain ⟨-, r, hpc | hpc⟩ | ⟨hwzero, r, hpc⟩ | ⟨-, x, hpc⟩ := stuck_cases hbusy (hstuck i hbusy)
    · exact hi (onReaders_of_pc hpc)
    · exact hi (onReaders_of_pc hpc)
    · have hcur := h.current i
      have harriving := Interleaving.le_total (onReaders ReaderAt.arriving) s i
      rw [Current, hpc] at hcur
      rw [onReaders_of_pc hpc, show ReaderAt.takeW.arriving = 1 from rfl] at harriving
      simp only [hcur, group, one_ne_zero, if_false, if_true] at hw
      omega
    · exact hi (by rw [onReaders, hpc])
  · -- nobody holds `mutex`, so those inside are writers, and wait for nobody
    have hcounted : total (onReaders ReaderAt.counted) s = 0 :=
      total_eq_zero_of_stuck hstuck (fun _ ↦ rfl) (fun hzero ↦ absurd hzero hpos.ne')
        (fun i r hpc ↦ by
          have hhold := Interleaving.le_total (onReaders ReaderAt.holding) s i
          rw [onReaders_of_pc hpc, show ReaderAt.takeW.holding = 1 from rfl] at hhold
          omega) fun _ _ ↦ rfl
    obtain ⟨i, hi⟩ := hbusy
    have hnobody : s.shared.readcnt = 0 := by omega
    rw [hnobody, group, if_pos rfl] at hw
    obtain ⟨hzero, -⟩ | ⟨hwzero, -⟩ | ⟨hwzero, -⟩ := stuck_cases hi (hstuck i hi)
    all_goals omega

/-- **A reader does not wait for `w`** while another one is in its reading section. -/
theorem Exclusive.not_takeW_of_reading (h : Exclusive s) {i j : ι} (hj : (s.thread j).Reading)
    (r : ρ) : (s.thread i).pc ≠ .reader r .takeW := by
  classical
  intro hi
  obtain ⟨r', hj⟩ := Thread.reading_iff.1 hj
  have hne : i ≠ j := by
    rintro rfl
    exact absurd (hi.symm.trans hj) (by simp)
  have hle := Interleaving.add_le_total (onReaders ReaderAt.counted) s hne
  have hcur := h.current i
  have hreadcnt := h.readcnt
  rw [Current, hi] at hcur
  rw [onReaders_of_pc hi, onReaders_of_pc hj, show ReaderAt.takeW.counted = 1 from rfl,
    show ReaderAt.reading.counted = 1 from rfl] at hle
  omega

end Progress

/-! ### The data -/

section Data

variable {ι : Type*}

/-- The writing sections completed, in order, each in its last state. -/
def finished : List (ι × Event ρ ω ε) → List ω
  | [] => []
  | (_, .writerReturned x) :: h => x :: finished h
  | _ :: h => finished h

@[simp] theorem finished_append (h₁ h₂ : List (ι × Event ρ ω ε)) :
    finished (h₁ ++ h₂) = finished h₁ ++ finished h₂ := by
  induction h₁ with
  | nil => rfl
  | cons e h₁ ih => rcases e with ⟨i, _ | _ | _ | _ | _⟩ <;> simp [finished, ih]

/-- **A resource invariant.** `free xs d` is what every writer may rely on when it enters, after the
sections `xs`, and must restore when it leaves; `held xs d x` is what it keeps in between. -/
structure Resource (S : Sections δ ρ ω ε) (d₀ : δ) (starts : ω → Prop) (free : List ω → δ → Prop)
    (held : List ω → δ → ω → Prop) : Prop where
  start : free [] d₀
  enter : ∀ {xs d x}, starts x → free xs d → held xs d x
  write : ∀ {xs d x d' x'}, held xs d x → S.write d x = some (d', x') → held xs d' x'
  leave : ∀ {xs d x}, held xs d x → S.write d x = none → free (xs ++ [x]) d

/-- The writers a thread is yet to be start properly. -/
structure Prepared (starts : ω → Prop) (th : Thread ρ ω) : Prop where
  entering : ∀ x, th.pc = .takeW x → starts x
  todo : ∀ x, Call.writer x ∈ th.todo → starts x

/-- The data is free, or held by the writer inside. -/
structure Guarded (starts : ω → Prop) (free : List ω → δ → Prop) (held : List ω → δ → ω → Prop)
    (h : List (ι × Event ρ ω ε)) (s : State ι (Shared δ) (Thread ρ ω)) : Prop where
  free : (∀ i, ¬ (s.thread i).Writing) → free (finished h) s.shared.data
  held : ∀ i x, (s.thread i).pc = .writing x → held (finished h) s.shared.data x
  prepared : ∀ i, Prepared starts (s.thread i)

variable {starts : ω → Prop} {free : List ω → δ → Prop} {held : List ω → δ → ω → Prop}

theorem Move.prepared {sh sh' : Shared δ} {th th' : Thread ρ ω} {e : Event ρ ω ε}
    (hm : Move S sh th e sh' th') (hth : Prepared starts th) : Prepared starts th' := by
  cases hm
  case call c cs =>
    refine ⟨fun x hx ↦ ?_, fun x hx ↦ hth.todo x (List.mem_cons_of_mem _ hx)⟩
    cases c with
    | reader r => exact absurd hx (by simp [Call.enter])
    | writer y =>
      obtain rfl : y = x := by simpa [Call.enter] using hx
      exact hth.todo y List.mem_cons_self
  all_goals exact ⟨by simp, hth.todo⟩

/-- **What a move does to the data**: nothing, unless it is made by a writer inside. -/
theorem Move.data {sh sh' : Shared δ} {th th' : Thread ρ ω} {e : Event ρ ω ε}
    (hm : Move S sh th e sh' th') (i : ι) :
    (¬ th.Writing ∧ ¬ th'.Writing ∧ sh'.data = sh.data ∧ finished [(i, e)] = []) ∨
    (∃ x v, sh.w = v + 1 ∧ th.pc = .takeW x ∧ th'.pc = .writing x ∧ sh'.data = sh.data ∧
      finished [(i, e)] = []) ∨
    (∃ x x', th.pc = .writing x ∧ S.write sh.data x = some (sh'.data, x') ∧ th'.pc = .writing x' ∧
      finished [(i, e)] = []) ∨
    ∃ x, th.pc = .writing x ∧ S.write sh.data x = none ∧ ¬ th'.Writing ∧ sh'.data = sh.data ∧
      finished [(i, e)] = [x] := by
  cases hm
  case writerTakeW x cs v hv => exact .inr (.inl ⟨x, v, hv, rfl, rfl, rfl, rfl⟩)
  case write x cs d x' hwrite => exact .inr (.inr (.inl ⟨x, x', rfl, hwrite, rfl, rfl⟩))
  case writerGiveW x cs hwrite =>
    exact .inr (.inr (.inr ⟨x, rfl, hwrite, Nat.zero_ne_one, rfl, rfl⟩))
  case call c cs => cases c <;> exact .inl ⟨Nat.zero_ne_one, Nat.zero_ne_one, rfl, rfl⟩
  all_goals exact .inl ⟨Nat.zero_ne_one, Nat.zero_ne_one, rfl, rfl⟩

variable {s : State ι (Shared δ) (Thread ρ ω)} {h : List (ι × Event ρ ω ε)} {i : ι}
  {e : Event ρ ω ε} {sh' : Shared δ} {th' : Thread ρ ω} {d₀ : δ} [Fintype ι]

/-- When `w` can be taken, no writer is inside. -/
theorem Exclusive.not_writing_of_w (hex : Exclusive s) {v : ℕ} (hv : s.shared.w = v + 1) (j : ι) :
    ¬ (s.thread j).Writing := by
  intro hj
  have hle := Interleaving.le_total writing s j
  rw [hj] at hle
  have := hex.w
  omega

variable [DecidableEq ι]

/-- **A step preserves the resource invariant**: only the writer inside touches the data, and it
keeps `held` until it restores `free`. -/
theorem Guarded.step (hR : Resource S d₀ starts free held) (hg : Guarded starts free held h s)
    (hex : Exclusive s) (hm : Move S s.shared (s.thread i) e sh' th') :
    Guarded starts free held (h ++ [(i, e)]) (s.advance i sh' th') := by
  have hprepared : ∀ j, Prepared starts ((s.advance i sh' th').thread j) := by
    intro j
    rcases eq_or_ne j i with rfl | hne
    · rw [State.advance_thread_self]
      exact hm.prepared (hg.prepared j)
    · rw [s.advance_thread_of_ne sh' th' hne]
      exact hg.prepared j
  -- the rest is about thread `i` and about the others, which are as they were
  suffices hdata : (¬ th'.Writing → (∀ j, j ≠ i → ¬ (s.thread j).Writing) →
        free (finished h ++ finished [(i, e)]) sh'.data) ∧
      (∀ x, th'.pc = .writing x → held (finished h ++ finished [(i, e)]) sh'.data x) ∧
      ∀ j x, j ≠ i → (s.thread j).pc = .writing x →
        held (finished h ++ finished [(i, e)]) sh'.data x by
    obtain ⟨hfree, hself, hothers⟩ := hdata
    refine ⟨fun hnone ↦ ?_, fun j x hj ↦ ?_, hprepared⟩
    · rw [finished_append]
      refine hfree ?_ fun j hne ↦ ?_
      · simpa using hnone i
      · simpa [s.advance_thread_of_ne sh' th' hne] using hnone j
    · rw [finished_append]
      rcases eq_or_ne j i with rfl | hne
      · exact hself x (by simpa using hj)
      · exact hothers j x hne (by simpa [s.advance_thread_of_ne sh' th' hne] using hj)
  have halone : (s.thread i).Writing → ∀ j, j ≠ i → ¬ (s.thread j).Writing :=
    fun hi j hne hj ↦ hne (hex.excluded.one_writer j i hj hi)
  rcases hm.data i with ⟨hi, hi', hd, hfin⟩ | ⟨x, v, hv, hi, hi', hd, hfin⟩ |
    ⟨x, x', hi, hwrite, hi', hfin⟩ | ⟨x, hi, hwrite, hi', hd, hfin⟩
  · rw [hfin, List.append_nil, hd]
    refine ⟨fun _ hnone ↦ hg.free fun j ↦ ?_, fun x hx ↦ ?_, fun j x _ hx ↦ hg.held j x hx⟩
    · rcases eq_or_ne j i with rfl | hne
      · exact hi
      · exact hnone j hne
    · exact absurd (Thread.writing_iff.2 ⟨x, hx⟩) hi'
  · -- a writer enters: `w` was free, so the data was
    have hnone := hex.not_writing_of_w hv
    rw [hfin, List.append_nil, hd]
    have hwriting : th'.Writing := Thread.writing_iff.2 ⟨x, hi'⟩
    refine ⟨fun hi'' ↦ absurd hwriting hi'', fun y hy ↦ ?_, fun j y _ hy ↦ ?_⟩
    · obtain rfl : x = y := Pc.writing.inj (hi'.symm.trans hy)
      exact hR.enter ((hg.prepared i).entering x hi) (hg.free hnone)
    · exact absurd (Thread.writing_iff.2 ⟨y, hy⟩) (hnone j)
  · have hnone := halone (Thread.writing_iff.2 ⟨x, hi⟩)
    rw [hfin, List.append_nil]
    refine ⟨fun hi'' ↦ absurd (Thread.writing_iff.2 ⟨x', hi'⟩) hi'', fun y hy ↦ ?_,
      fun j y hne hy ↦ ?_⟩
    · obtain rfl : x' = y := Pc.writing.inj (hi'.symm.trans hy)
      exact hR.write (hg.held i x hi) hwrite
    · exact absurd (Thread.writing_iff.2 ⟨y, hy⟩) (hnone j hne)
  · have hnone := halone (Thread.writing_iff.2 ⟨x, hi⟩)
    rw [hfin, hd]
    refine ⟨fun _ _ ↦ hR.leave (hg.held i x hi) hwrite, fun y hy ↦ ?_, fun j y hne hy ↦ ?_⟩
    · exact absurd (Thread.writing_iff.2 ⟨y, hy⟩) hi'
    · exact absurd (Thread.writing_iff.2 ⟨y, hy⟩) (hnone j hne)

/-- **The resource rule.** In every state of every interleaving the data is free or held. -/
theorem Resource.guarded (hR : Resource S d₀ starts free held) {calls : ι → List (Call ρ ω)}
    (hcalls : ∀ i x, Call.writer x ∈ calls i → starts x)
    (hs : Steps S.program (initial d₀ calls) h s) : Guarded starts free held h s := by
  have hboth : Exclusive s ∧ Guarded starts free held h s := by
    refine hs.invariant (I := fun h s ↦ Exclusive s ∧ Guarded starts free held h s) ⟨?_, ?_⟩ ?_
    · exact exclusive_initial d₀ calls
    · exact ⟨fun _ ↦ hR.start, fun i x hx ↦ absurd hx (by simp [initial]),
        fun i ↦ ⟨fun x hx ↦ absurd hx (by simp [initial]), hcalls i⟩⟩
    · rintro h s i e sh' th' ⟨hex, hg⟩ hP
      have hm := move_of_program hP
      exact ⟨hex.step hm, hg.step hR hex hm⟩
  exact hboth.2

end Data

end ReadersWriters
