import CsappCode.Library.Ownership
import Mathlib.Data.List.Nodup
import Mathlib.Logic.Function.Basic
import Mathlib.Data.Int.Notation

/-!
# Handing a connection to its thread

`proxy.c` and `thread/thread.c` serve every connection in a thread of its own. `main` allocates a
cell, lets `Accept` store the descriptor in it, and gives the cell to a new thread, which reads the
descriptor and frees the cell. Cells are recycled by the allocator, and descriptors by the kernel,
as soon as they are free.

* `Step` are the moves of `main`, of the threads, and of the allocator and the kernel in their
  answers.
* `HandedOver` is what a run is expected to show, read off what its steps report.
* `Owned` is the invariant: a cell is held by one party only, which knows what is in it.
* `handed_over` says that every run of either program shows it.

## How the code is modelled

**Nothing is safe by construction.** A cell can be read and freed whether or not it is allocated,
and a descriptor used whatever it refers to; every step reports what it has found. That the cell is
allocated and that the descriptor is that of the connection accepted are conclusions.

**The allocator and the kernel** answer as they like within what they promise: `Malloc` returns a
cell that is not allocated, with anything in it, and `Accept` and `Open_clientfd` return a
descriptor that is not open. What is in a cell stays there when it is freed.

**The two programs** differ in two places, which are the fields of `Code`: whether `main` calls
`Getnameinfo` in between, and whether a thread opens connections of its own while it serves.

**The ownership** of cells is that of the library: each holder has at most one cell, no cell has two
holders, and what is held is allocated. The moves of `main` and of the threads are moves of that
kind, and the invariant adds only what a holder knows of its cell.
-/

namespace CsappCode.Handoff

/-! ### The system -/

abbrev Addr := ℕ

/-- A cell of the heap. What is in it stays when it is freed. -/
structure Cell where
  allocated : Bool
  content : ℤ

/-- What a descriptor can refer to: the connection of a call of `Accept`, the connection to a server
that a thread has opened, or something that was open from the start. -/
inductive Connection where
  | accepted (serial : ℕ)
  | upstream (thread : ℕ)
  | other
  deriving DecidableEq, Repr

/-- What the two programs differ in: `proxy.c` calls `Getnameinfo` before it creates the thread, and
its `doit` opens and closes a connection of its own. -/
structure Code where
  looksUpName : Bool
  connects : Bool

/-- `proxy.c`. -/
def proxy : Code := ⟨true, true⟩

/-- `thread/thread.c`. -/
def thread : Code := ⟨false, false⟩

/-- Where the loop of `main` stands. -/
inductive MainAt where
  /-- before `Malloc` -/
  | malloc
  /-- before `Accept` -/
  | accept (p : Addr)
  /-- before the store of the descriptor -/
  | store (p : Addr) (connfd : ℤ)
  /-- before `Getnameinfo` -/
  | lookUp (p : Addr)
  /-- before `Pthread_create` -/
  | create (p : Addr)
  deriving DecidableEq, Repr

/-- Where a thread stands; `connfd` is its local variable. -/
inductive ThreadAt where
  /-- before the read of `*vargp` -/
  | read (p : Addr)
  /-- before `Pthread_detach` -/
  | detach (p : Addr) (connfd : ℤ)
  /-- before `Free(vargp)` -/
  | free (p : Addr) (connfd : ℤ)
  /-- inside `doit` or `echo`, perhaps with a connection to a server -/
  | serve (connfd : ℤ) (upstream : Option ℤ)
  /-- before `Close(connfd)` -/
  | close (connfd : ℤ)
  | done
  deriving DecidableEq, Repr

/-- The heap, the kernel's descriptors and the number of connections it has accepted, `main`, and
the threads in the order of their creation. -/
structure State where
  heap : Addr → Cell
  table : ℤ → Option Connection
  accepts : ℕ
  main : MainAt
  threads : List ThreadAt

/-- What a step reports. A thread that reads or frees a cell finds it allocated or not; one that
serves or closes a descriptor finds some connection on it, or none. -/
inductive Event where
  | silent
  | accepted (serial : ℕ) (connfd : ℤ)
  | stored (iteration : ℕ) (p : Addr) (connfd : ℤ)
  | created (thread : ℕ) (p : Addr)
  | read (thread : ℕ) (p : Addr) (allocated : Bool)
  | freed (thread : ℕ) (p : Addr) (allocated : Bool)
  | served (thread : ℕ) (connfd : ℤ) (connection : Option Connection)
  | closed (thread : ℕ) (connfd : ℤ) (connection : Option Connection)
  deriving DecidableEq, Repr

/-- The loop of `main` begins: the heap and the descriptors are as they may be. -/
def initial (heap : Addr → Cell) (opened : ℤ → Bool) : State where
  heap := heap
  table := fun fd ↦ if opened fd then some .other else none
  accepts := 0
  main := .malloc
  threads := []

def State.setCell (s : State) (p : Addr) (c : Cell) : State :=
  { s with heap := Function.update s.heap p c }

def State.setDescriptor (s : State) (fd : ℤ) (c : Option Connection) : State :=
  { s with table := Function.update s.table fd c }

def State.setMain (s : State) (at' : MainAt) : State := { s with main := at' }

def State.setThread (s : State) (k : ℕ) (at' : ThreadAt) : State :=
  { s with threads := s.threads.set k at' }

/-- The kernel accepts a connection. -/
def State.accept (s : State) (connfd : ℤ) : State :=
  { s with
    table := Function.update s.table connfd (some (.accepted s.accepts))
    accepts := s.accepts + 1 }

/-- A thread is created with the cell, and the loop of `main` begins again. -/
def State.create (s : State) (p : Addr) : State :=
  { s with main := .malloc, threads := s.threads ++ [.read p] }

/-- What `main` does when it has stored the descriptor. -/
def Code.afterStore (code : Code) (p : Addr) : MainAt :=
  if code.looksUpName then .lookUp p else .create p

/-- The moves of `main` and of the threads. `Malloc` returns some cell that is not allocated, and
what is in it; `Accept` and `Open_clientfd` return some descriptor that is not open. -/
inductive Step (code : Code) (s : State) : Event → State → Prop
  | malloc {p : Addr} {garbage : ℤ} : s.main = .malloc → (s.heap p).allocated = false →
      Step code s .silent ((s.setCell p ⟨true, garbage⟩).setMain (.accept p))
  | accept {p : Addr} {connfd : ℤ} : s.main = .accept p → s.table connfd = none →
      Step code s (.accepted s.accepts connfd) ((s.accept connfd).setMain (.store p connfd))
  | store {p : Addr} {connfd : ℤ} : s.main = .store p connfd →
      Step code s (.stored s.threads.length p connfd)
        ((s.setCell p { s.heap p with content := connfd }).setMain (code.afterStore p))
  | lookUp {p : Addr} : s.main = .lookUp p → Step code s .silent (s.setMain (.create p))
  | create {p : Addr} : s.main = .create p →
      Step code s (.created s.threads.length p) (s.create p)
  | read {k : ℕ} {p : Addr} : s.threads[k]? = some (.read p) →
      Step code s (.read k p (s.heap p).allocated) (s.setThread k (.detach p (s.heap p).content))
  | detach {k : ℕ} {p : Addr} {connfd : ℤ} : s.threads[k]? = some (.detach p connfd) →
      Step code s .silent (s.setThread k (.free p connfd))
  | free {k : ℕ} {p : Addr} {connfd : ℤ} : s.threads[k]? = some (.free p connfd) →
      Step code s (.freed k p (s.heap p).allocated)
        ((s.setCell p { s.heap p with allocated := false }).setThread k (.serve connfd none))
  | serve {k : ℕ} {connfd : ℤ} {u : Option ℤ} : s.threads[k]? = some (.serve connfd u) →
      Step code s (.served k connfd (s.table connfd)) s
  | connect {k : ℕ} {connfd clientfd : ℤ} : code.connects = true →
      s.threads[k]? = some (.serve connfd none) → s.table clientfd = none →
      Step code s .silent ((s.setDescriptor clientfd (some (.upstream k))).setThread k
        (.serve connfd (some clientfd)))
  | disconnect {k : ℕ} {connfd clientfd : ℤ} :
      s.threads[k]? = some (.serve connfd (some clientfd)) →
      Step code s .silent ((s.setDescriptor clientfd none).setThread k (.serve connfd none))
  | leave {k : ℕ} {connfd : ℤ} : s.threads[k]? = some (.serve connfd none) →
      Step code s .silent (s.setThread k (.close connfd))
  | close {k : ℕ} {connfd : ℤ} : s.threads[k]? = some (.close connfd) →
      Step code s (.closed k connfd (s.table connfd))
        ((s.setDescriptor connfd none).setThread k .done)

/-- The runs from a state, with what their steps report. -/
inductive Run (code : Code) (s₀ : State) : List Event → State → Prop
  | start : Run code s₀ [] s₀
  | step {h : List Event} {s s' : State} {e : Event} : Run code s₀ h s → Step code s e s' →
      Run code s₀ (h ++ [e]) s'

/-! ### What a run shows -/

/-- The thread that closes its connection. -/
def Event.closer : Event → Option ℕ
  | .closed k _ _ => some k
  | _ => none

/-- **Every connection goes to its own thread.** Thread `k` serves and closes the connection of the
k-th `Accept`, on the one descriptor that was stored for it in the cell it was given; it closes it
once; and no cell is read or freed that is not allocated. -/
structure HandedOver (h : List Event) : Prop where
  own : ∀ k connfd c, .served k connfd c ∈ h ∨ .closed k connfd c ∈ h → c = some (.accepted k) ∧
    .accepted k connfd ∈ h ∧ ∃ p, .created k p ∈ h ∧ .stored k p connfd ∈ h
  stored : ∀ k p p' connfd connfd', .stored k p connfd ∈ h → .stored k p' connfd' ∈ h →
    p = p' ∧ connfd = connfd'
  closed : (h.filterMap Event.closer).Nodup
  allocated : ∀ k p b, .read k p b ∈ h ∨ .freed k p b ∈ h → b = true

/-- No two threads act on the same connection. -/
theorem HandedOver.sole {h : List Event} (hh : HandedOver h) {k k' : ℕ} {fd fd' : ℤ}
    {c : Option Connection} (hk : .served k fd c ∈ h ∨ .closed k fd c ∈ h)
    (hk' : .served k' fd' c ∈ h ∨ .closed k' fd' c ∈ h) : k = k' := by
  have hsome := (hh.own k fd c hk).1.symm.trans (hh.own k' fd' c hk').1
  exact Connection.accepted.inj (Option.some.inj hsome)

/-! ### Who holds what -/

/-- The cell in the hands of `main`. -/
def MainAt.cell : MainAt → Option Addr
  | .malloc => none
  | .accept p | .store p _ | .lookUp p | .create p => some p

/-- The cell in the hands of a thread. -/
def ThreadAt.cell : ThreadAt → Option Addr
  | .read p | .detach p _ | .free p _ => some p
  | .serve _ _ | .close _ | .done => none

/-- The cells in the hands of `main` and of the threads. -/
def State.cell (s : State) : Option ℕ → Option Addr
  | none => s.main.cell
  | some k => s.threads[k]?.bind ThreadAt.cell

/-- `main` has accepted a connection that has no thread yet. -/
def MainAt.accepted : MainAt → ℕ
  | .malloc | .accept _ => 0
  | .store _ _ | .lookUp _ | .create _ => 1

/-- `main` has stored a descriptor that has no thread yet. -/
def MainAt.stored : MainAt → ℕ
  | .malloc | .accept _ | .store _ _ => 0
  | .lookUp _ | .create _ => 1

theorem afterStore_eq (code : Code) (p : Addr) :
    code.afterStore p = .lookUp p ∨ code.afterStore p = .create p := by
  rw [Code.afterStore]
  split_ifs
  · exact .inl rfl
  · exact .inr rfl

/-- The descriptor is that of the k-th connection, and has been stored in the cell. -/
def Prepared (h : List Event) (table : ℤ → Option Connection) (k : ℕ) (p : Addr) (connfd : ℤ) :
    Prop :=
  .stored k p connfd ∈ h ∧ .accepted k connfd ∈ h ∧ table connfd = some (.accepted k)

/-- What `main` can rely on, in its k-th iteration. -/
def MainAt.Knows (h : List Event) (s : State) (k : ℕ) : MainAt → Prop
  | .malloc | .accept _ => True
  | .store _ connfd => .accepted k connfd ∈ h ∧ s.table connfd = some (.accepted k)
  | .lookUp p | .create p => Prepared h s.table k p (s.heap p).content

/-- What the k-th thread can rely on. -/
def ThreadAt.Knows (h : List Event) (s : State) (k : ℕ) : ThreadAt → Prop
  | .read p => .created k p ∈ h ∧ Prepared h s.table k p (s.heap p).content
  | .detach p connfd | .free p connfd => .created k p ∈ h ∧ Prepared h s.table k p connfd
  | .serve connfd u => (∃ p, .created k p ∈ h ∧ Prepared h s.table k p connfd) ∧
      ∀ clientfd ∈ u, s.table clientfd = some (.upstream k)
  | .close connfd => ∃ p, .created k p ∈ h ∧ Prepared h s.table k p connfd
  | .done => True

/-- **The invariant.** Cells have sole owners, and everybody knows what it needs to know of its cell
and its descriptors. -/
structure Owned (h : List Event) (s : State) : Prop where
  cells : Ownership.Sole s.cell fun p ↦ (s.heap p).allocated = true
  accepts : s.accepts = s.threads.length + s.main.accepted
  main : s.main.Knows h s s.threads.length
  threads : ∀ (k : ℕ) (at' : ThreadAt), s.threads[k]? = some at' → at'.Knows h s k

theorem owned_initial (heap : Addr → Cell) (opened : ℤ → Bool) :
    Owned [] (initial heap opened) where
  cells := by
    have hnone : ∀ q, (initial heap opened).cell q = none := fun q ↦ by cases q <;> rfl
    exact ⟨fun {q} _ hr ↦ by rw [hnone] at hr; exact absurd hr (by simp),
      fun {q} _ _ hr ↦ by rw [hnone] at hr; exact absurd hr (by simp)⟩
  accepts := rfl
  main := trivial
  threads k at' hk := absurd hk (by simp [initial])

/-! ### What a step leaves alone -/

section Frame

variable {h h' : List Event} {s s' : State} {k : ℕ}

theorem Prepared.mono {p : Addr} {connfd : ℤ} (hp : Prepared h s.table k p connfd)
    (hh : ∀ e ∈ h, e ∈ h')
    (htable : ∀ fd, s.table fd = some (.accepted k) → s'.table fd = s.table fd) :
    Prepared h' s'.table k p connfd :=
  ⟨hh _ hp.1, hh _ hp.2.1, (htable connfd hp.2.2).trans hp.2.2⟩

/-- What a thread knows stays true while its cell and its descriptors are left alone. -/
theorem ThreadAt.Knows.frame {at' : ThreadAt} (hk : at'.Knows h s k) (hh : ∀ e ∈ h, e ∈ h')
    (hheap : ∀ p, at'.cell = some p → (s'.heap p).content = (s.heap p).content)
    (htable : ∀ fd, s.table fd = some (.accepted k) ∨ s.table fd = some (.upstream k) →
      s'.table fd = s.table fd) : at'.Knows h' s' k := by
  have hprepared : ∀ {p connfd}, Prepared h s.table k p connfd →
      Prepared h' s'.table k p connfd := fun hp ↦ hp.mono hh fun fd hfd ↦ htable fd (.inl hfd)
  cases at' with
  | read p =>
    refine ⟨hh _ hk.1, ?_⟩
    rw [hheap p rfl]
    exact hprepared hk.2
  | detach p connfd => exact ⟨hh _ hk.1, hprepared hk.2⟩
  | free p connfd => exact ⟨hh _ hk.1, hprepared hk.2⟩
  | serve connfd u =>
    obtain ⟨⟨p, hcreated, hp⟩, hu⟩ := hk
    exact ⟨⟨p, hh _ hcreated, hprepared hp⟩, fun fd hfd ↦
      (htable fd (.inr (hu fd hfd))).trans (hu fd hfd)⟩
  | close connfd =>
    obtain ⟨p, hcreated, hp⟩ := hk
    exact ⟨p, hh _ hcreated, hprepared hp⟩
  | done => trivial

theorem MainAt.Knows.frame {at' : MainAt} (hk : at'.Knows h s k) (hh : ∀ e ∈ h, e ∈ h')
    (hheap : ∀ p, at'.cell = some p → (s'.heap p).content = (s.heap p).content)
    (htable : ∀ fd, s.table fd = some (.accepted k) → s'.table fd = s.table fd) :
    at'.Knows h' s' k := by
  cases at' with
  | malloc => trivial
  | accept p => trivial
  | store p connfd => exact ⟨hh _ hk.1, (htable connfd hk.2).trans hk.2⟩
  | lookUp p =>
    rw [MainAt.Knows, hheap p rfl]
    exact Prepared.mono hk hh htable
  | create p =>
    rw [MainAt.Knows, hheap p rfl]
    exact Prepared.mono hk hh htable

end Frame

/-! ### Steps keep the invariant -/

section Steps

variable {code : Code} {h : List Event} {s s' : State} {e : Event} {k : ℕ}

/-- After a move of the k-th thread. -/
theorem cell_of_set {at₁ : ThreadAt} (hmain : s'.main = s.main)
    (hthreads : s'.threads = s.threads.set k at₁) {q : Option ℕ} (hq : q ≠ some k) :
    s'.cell q = s.cell q := by
  rcases q with - | j
  · rw [State.cell, hmain]
    rfl
  · have hne : k ≠ j := fun heq ↦ hq (heq ▸ rfl)
    rw [State.cell, State.cell, hthreads, List.getElem?_set_ne hne]

theorem cell_of_set_self {at₀ at₁ : ThreadAt} (hat : s.threads[k]? = some at₀)
    (hthreads : s'.threads = s.threads.set k at₁) : s'.cell (some k) = at₁.cell := by
  obtain ⟨hlt, -⟩ := List.getElem?_eq_some_iff.1 hat
  rw [State.cell, hthreads, List.getElem?_set_self hlt]
  rfl

/-- A move of the k-th thread, which keeps what is in the cells and the descriptors of others. -/
theorem Owned.threadStep {at₀ at₁ : ThreadAt} (ho : Owned h s) (hat : s.threads[k]? = some at₀)
    (hthreads : s'.threads = s.threads.set k at₁) (hmain : s'.main = s.main)
    (haccepts : s'.accepts = s.accepts)
    (hcells : Ownership.Sole s'.cell fun p ↦ (s'.heap p).allocated = true)
    (hheap : ∀ p, (s'.heap p).content = (s.heap p).content)
    (htable : ∀ fd c, s.table fd = some c → c ≠ .accepted k → c ≠ .upstream k →
      s'.table fd = some c)
    (hself : at₁.Knows (h ++ [e]) s' k) : Owned (h ++ [e]) s' := by
  obtain ⟨hlt, -⟩ := List.getElem?_eq_some_iff.1 hat
  have hmem : ∀ e' ∈ h, e' ∈ h ++ [e] := fun _ ↦ List.mem_append_left _
  refine ⟨hcells, ?_, ?_, fun j at' hj ↦ ?_⟩
  · rw [haccepts, hthreads, hmain, List.length_set]
    exact ho.accepts
  · rw [hmain, hthreads, List.length_set]
    refine ho.main.frame hmem (fun p _ ↦ hheap p) fun fd hfd ↦ ?_
    rw [hfd, htable fd _ hfd (fun heq ↦ by cases heq; omega) (by simp)]
  · rw [hthreads] at hj
    rcases eq_or_ne k j with rfl | hne
    · rw [List.getElem?_set_self hlt] at hj
      obtain rfl := Option.some.inj hj
      exact hself
    · rw [List.getElem?_set_ne hne] at hj
      refine (ho.threads j at' hj).frame hmem (fun p _ ↦ hheap p) ?_
      rintro fd (hfd | hfd)
      · rw [hfd, htable fd _ hfd (by simpa using hne.symm) (by simp)]
      · rw [hfd, htable fd _ hfd (by simp) (by simpa using hne.symm)]

/-- The cells after a move that neither takes a cell nor frees one. -/
theorem Owned.cells_of_set {at₀ at₁ : ThreadAt} (ho : Owned h s) (hat : s.threads[k]? = some at₀)
    (hthreads : s'.threads = s.threads.set k at₁) (hmain : s'.main = s.main)
    (hheap : s'.heap = s.heap) (hcell : at₁.cell = at₀.cell) :
    Ownership.Sole s'.cell fun p ↦ (s'.heap p).allocated = true := by
  refine ho.cells.congr (fun q ↦ ?_) fun p hp ↦ by rwa [hheap]
  rcases eq_or_ne q (some k) with rfl | hq
  · rw [cell_of_set_self hat hthreads, hcell, State.cell, hat]
    rfl
  · exact cell_of_set hmain hthreads hq

/-- A move of `main`, which creates no thread, and keeps what is in the cells of the threads and
every descriptor. -/
theorem Owned.mainStep (ho : Owned h s) (hthreads : s'.threads = s.threads)
    (haccepts : s'.accepts = s.threads.length + s'.main.accepted)
    (hcells : Ownership.Sole s'.cell fun p ↦ (s'.heap p).allocated = true)
    (hheap : ∀ p, s.main.cell ≠ some p → (s.heap p).allocated = true →
      (s'.heap p).content = (s.heap p).content)
    (htable : ∀ fd c, s.table fd = some c → s'.table fd = some c)
    (hself : s'.main.Knows (h ++ [e]) s' s.threads.length) : Owned (h ++ [e]) s' := by
  refine ⟨hcells, hthreads ▸ haccepts, hthreads ▸ hself, fun j at' hj ↦ ?_⟩
  rw [hthreads] at hj
  refine (ho.threads j at' hj).frame (fun _ ↦ List.mem_append_left _) (fun p hp ↦ ?_) ?_
  · have hcell : s.cell (some j) = some p := by rw [State.cell, hj]; exact hp
    exact hheap p (fun heq ↦ absurd (ho.cells.sole (q := none) heq hcell) (by simp))
      (ho.cells.live hcell)
  · rintro fd (hfd | hfd) <;> rw [hfd, htable fd _ hfd]

theorem cell_of_thread {at' : ThreadAt} (hat : s.threads[k]? = some at') :
    s.cell (some k) = at'.cell := by
  rw [State.cell, hat, Option.bind_some]

/-- After a move of `main` that creates no thread. -/
theorem cell_of_main (hthreads : s'.threads = s.threads) {q : Option ℕ} (hq : q ≠ none) :
    s'.cell q = s.cell q := by
  obtain ⟨j, rfl⟩ := Option.ne_none_iff_exists'.1 hq
  rw [State.cell, State.cell, hthreads]

/-- The cells after a move of `main` that neither takes a cell nor passes it on. -/
theorem Owned.cells_of_main (ho : Owned h s) (hthreads : s'.threads = s.threads)
    (hcell : s'.main.cell = s.main.cell)
    (hheap : ∀ p, (s'.heap p).allocated = (s.heap p).allocated) :
    Ownership.Sole s'.cell fun p ↦ (s'.heap p).allocated = true := by
  refine ho.cells.congr (fun q ↦ ?_) fun p hp ↦ by rwa [hheap]
  rcases q with - | j
  · exact hcell
  · exact cell_of_main hthreads (by simp)

theorem threads_create (s : State) (p : Addr) (j : ℕ) : (s.create p).threads[j]? =
    if j = s.threads.length then some (.read p) else s.threads[j]? := by
  rw [State.create]
  split_ifs with hj
  · rw [hj, List.getElem?_concat_length]
  · rcases Nat.lt_or_ge j s.threads.length with hlt | hge
    · rw [List.getElem?_append_left hlt]
    · rw [List.getElem?_eq_none (by rw [List.length_append, List.length_singleton]; omega),
        List.getElem?_eq_none hge]

/-- `main` gives its cell to a new thread. -/
theorem Owned.create (ho : Owned h s) {p : Addr} (hmain : s.main = .create p) :
    Owned (h ++ [.created s.threads.length p]) (s.create p) := by
  have hknows : Prepared h s.table s.threads.length p (s.heap p).content := by
    have hmainKnows := ho.main
    rwa [hmain] at hmainKnows
  have hmem : ∀ e' ∈ h, e' ∈ h ++ [.created s.threads.length p] := fun _ ↦ List.mem_append_left _
  refine ⟨@Ownership.Sole.pass _ _ _ _ _ none (some s.threads.length) p ho.cells ?_ rfl ?_ ?_, ?_,
    trivial, fun j at' hj ↦ ?_⟩
  · rw [State.cell, hmain]
    rfl
  · rw [State.cell, threads_create, if_pos rfl]
    rfl
  · intro q hnone hnew
    obtain ⟨j, rfl⟩ := Option.ne_none_iff_exists'.1 hnone
    rw [State.cell, State.cell, threads_create, if_neg fun heq ↦ hnew (congrArg some heq)]
  · have haccepts := ho.accepts
    rw [hmain] at haccepts
    rw [State.create, haccepts, List.length_append]
    rfl
  · rw [threads_create] at hj
    split_ifs at hj with hnew
    · obtain rfl := Option.some.inj hj
      rw [hnew]
      exact ⟨List.mem_append_right _ (List.mem_singleton_self _), hknows.mono hmem fun _ _ ↦ rfl⟩
    · exact (ho.threads j at' hj).frame hmem (fun _ _ ↦ rfl) fun _ _ ↦ rfl

/-- A step that leaves the thread where it is. -/
theorem set_of_getElem? {at' : ThreadAt} (hat : s.threads[k]? = some at') :
    s.threads.set k at' = s.threads := by
  obtain ⟨hlt, hget⟩ := List.getElem?_eq_some_iff.1 hat
  rw [← hget, List.set_getElem_self]

theorem allocated_update (heap : Addr → Cell) (p p' : Addr) (c : Cell)
    (hc : c.allocated = (heap p).allocated) :
    (Function.update heap p c p').allocated = (heap p').allocated := by
  rcases eq_or_ne p' p with rfl | hne
  · rw [Function.update_self, hc]
  · rw [Function.update_of_ne hne]

theorem content_update (heap : Addr → Cell) (p p' : Addr) (c : Cell)
    (hc : c.content = (heap p).content) :
    (Function.update heap p c p').content = (heap p').content := by
  rcases eq_or_ne p' p with rfl | hne
  · rw [Function.update_self, hc]
  · rw [Function.update_of_ne hne]

/-- An entry of the table that is not the one at `fd`. -/
theorem table_update_of_ne {table : ℤ → Option Connection} {fd fd' : ℤ} {c : Connection}
    (v : Option Connection) (hfd' : table fd' = some c) (hne : table fd ≠ some c) :
    Function.update table fd v fd' = some c := by
  have hother : fd' ≠ fd := fun heq ↦ hne (heq ▸ hfd')
  rw [Function.update_of_ne hother, hfd']

/-- **Every step keeps the invariant.** -/
theorem Owned.step (ho : Owned h s) (hs : Step code s e s') : Owned (h ++ [e]) s' := by
  have hmem : ∀ e' ∈ h, e' ∈ h ++ [e] := fun _ ↦ List.mem_append_left _
  have hlast : e ∈ h ++ [e] := List.mem_append_right _ (List.mem_singleton_self e)
  have hmainKnows := ho.main
  have haccepts := ho.accepts
  cases hs with
  | @malloc p garbage hmain hfree =>
    rw [hmain] at haccepts
    have hdead : ¬ (s.heap p).allocated = true := by rw [hfree]; decide
    refine ho.mainStep rfl haccepts (ho.cells.acquire (q := none) (r := p) hdead rfl
      (fun q hq ↦ cell_of_main (by rfl) hq) ?_ fun r hr ↦ ?_) (fun r _ hr ↦ ?_) (fun _ _ ↦ id)
      trivial
    · change (Function.update s.heap p _ p).allocated = true
      rw [Function.update_self]
    · have hne : r ≠ p := fun heq ↦ hdead (heq ▸ hr)
      exact (congrArg Cell.allocated (Function.update_of_ne hne ..)).trans hr
    · have hne : r ≠ p := fun heq ↦ hdead (heq ▸ hr)
      exact congrArg Cell.content (Function.update_of_ne hne ..)
  | @accept p connfd hmain hfree =>
    rw [hmain] at haccepts
    refine ho.mainStep rfl (congrArg (· + 1) haccepts)
      (ho.cells_of_main rfl (by rw [hmain]; rfl) fun _ ↦ rfl) (fun _ _ _ ↦ rfl)
      (fun fd c hfd ↦ ?_) ?_
    · exact table_update_of_ne _ hfd (hfree ▸ (Option.some_ne_none c).symm)
    · have hserial : s.accepts = s.threads.length := haccepts
      rw [← hserial]
      exact ⟨hlast, Function.update_self ..⟩
  | @store p connfd hmain =>
    rw [hmain] at haccepts hmainKnows
    have hprepared : Prepared (h ++ [.stored s.threads.length p connfd]) s.table s.threads.length p
        (Function.update s.heap p { s.heap p with content := connfd } p).content := by
      rw [Function.update_self]
      exact ⟨hlast, hmem _ hmainKnows.1, hmainKnows.2⟩
    have hheap : ∀ p', s.main.cell ≠ some p' → (s.heap p').allocated = true →
        (Function.update s.heap p { s.heap p with content := connfd } p').content =
          (s.heap p').content := by
      intro p' hp' _
      rw [Function.update_of_ne fun heq ↦ hp' (by rw [hmain, heq]; rfl)]
    obtain hnext | hnext := afterStore_eq code p <;> rw [hnext] <;>
      exact ho.mainStep rfl haccepts (ho.cells_of_main rfl (by rw [hmain]; rfl) fun p' ↦
        allocated_update _ _ _ _ rfl) hheap (fun _ _ ↦ id) hprepared
  | @lookUp p hmain =>
    rw [hmain] at haccepts hmainKnows
    exact ho.mainStep rfl haccepts (ho.cells_of_main rfl (by rw [hmain]; rfl) fun _ ↦ rfl)
      (fun _ _ _ ↦ rfl) (fun _ _ ↦ id) (hmainKnows.mono hmem fun _ _ ↦ rfl)
  | @create p hmain => exact ho.create hmain
  | @read k p hat =>
    obtain ⟨hcreated, hprepared⟩ := ho.threads k _ hat
    exact ho.threadStep hat rfl rfl rfl (ho.cells_of_set hat rfl rfl rfl rfl) (fun _ ↦ rfl)
      (fun _ _ hfd _ _ ↦ hfd) ⟨hmem _ hcreated, hprepared.mono hmem fun _ _ ↦ rfl⟩
  | @detach k p connfd hat =>
    obtain ⟨hcreated, hprepared⟩ := ho.threads k _ hat
    exact ho.threadStep hat rfl rfl rfl (ho.cells_of_set hat rfl rfl rfl rfl) (fun _ ↦ rfl)
      (fun _ _ hfd _ _ ↦ hfd) ⟨hmem _ hcreated, hprepared.mono hmem fun _ _ ↦ rfl⟩
  | @free k p connfd hat =>
    obtain ⟨hcreated, hprepared⟩ := ho.threads k _ hat
    have hheld : s.cell (some k) = some p := cell_of_thread hat
    refine ho.threadStep hat rfl rfl rfl (ho.cells.release hheld ?_ (fun q hq ↦ ?_)
      fun p' hne hp' ↦ ?_) (fun p' ↦ content_update _ _ _ _ rfl) (fun _ _ hfd _ _ ↦ hfd) ⟨⟨p,
        hmem _ hcreated, hprepared.mono hmem fun _ _ ↦ rfl⟩, fun _ hfd ↦ absurd hfd (by simp)⟩
    · exact @cell_of_set_self s _ k _ (.serve connfd none) hat rfl
    · exact cell_of_set (by rfl) (by rfl) hq
    · exact (congrArg Cell.allocated (Function.update_of_ne hne ..)).trans hp'
  | @serve k connfd u hat =>
    exact ho.threadStep hat (set_of_getElem? hat).symm rfl rfl ho.cells (fun _ ↦ rfl)
      (fun _ _ hfd _ _ ↦ hfd) ((ho.threads k _ hat).frame hmem (fun _ _ ↦ rfl) fun _ _ ↦ rfl)
  | @connect k connfd clientfd _ hat hfree =>
    obtain ⟨⟨p, hcreated, hprepared⟩, -⟩ := ho.threads k _ hat
    have hne : ∀ c, s.table clientfd ≠ some c := fun c ↦ hfree ▸ (Option.some_ne_none c).symm
    refine ho.threadStep hat rfl rfl rfl (ho.cells_of_set hat rfl rfl rfl rfl) (fun _ ↦ rfl)
      (fun fd c hfd _ _ ↦ table_update_of_ne _ hfd (hne c))
      ⟨⟨p, hmem _ hcreated, hprepared.mono hmem fun fd hfd ↦
        (table_update_of_ne _ hfd (hne _)).trans hfd.symm⟩, fun fd hfd ↦ ?_⟩
    obtain rfl := Option.some.inj hfd
    exact Function.update_self ..
  | @disconnect k connfd clientfd hat =>
    obtain ⟨⟨p, hcreated, hprepared⟩, hupstream⟩ := ho.threads k _ hat
    have hne : ∀ c, c ≠ .upstream k → s.table clientfd ≠ some c := fun c hc heq ↦
      hc (Option.some.inj (heq.symm.trans (hupstream clientfd rfl)))
    refine ho.threadStep hat rfl rfl rfl (ho.cells_of_set hat rfl rfl rfl rfl) (fun _ ↦ rfl)
      (fun fd c hfd _ hc ↦ table_update_of_ne _ hfd (hne c hc))
      ⟨⟨p, hmem _ hcreated, hprepared.mono hmem fun fd hfd ↦
        (table_update_of_ne _ hfd (hne _ (by simp))).trans hfd.symm⟩,
        fun _ hfd ↦ absurd hfd (by simp)⟩
  | @leave k connfd hat =>
    obtain ⟨⟨p, hcreated, hprepared⟩, -⟩ := ho.threads k _ hat
    exact ho.threadStep hat rfl rfl rfl (ho.cells_of_set hat rfl rfl rfl rfl) (fun _ ↦ rfl)
      (fun _ _ hfd _ _ ↦ hfd) ⟨p, hmem _ hcreated, hprepared.mono hmem fun _ _ ↦ rfl⟩
  | @close k connfd hat =>
    obtain ⟨p, -, hprepared⟩ := ho.threads k _ hat
    have hne : ∀ c, c ≠ .accepted k → s.table connfd ≠ some c := fun c hc heq ↦
      hc (Option.some.inj (heq.symm.trans hprepared.2.2))
    exact ho.threadStep hat rfl rfl rfl (ho.cells_of_set hat rfl rfl rfl rfl) (fun _ ↦ rfl)
      (fun fd c hfd hc _ ↦ table_update_of_ne _ hfd (hne c hc)) trivial

/-- One more event. -/
theorem HandedOver.snoc (hh : HandedOver h)
    (hown : ∀ k connfd c, e = .served k connfd c ∨ e = .closed k connfd c →
      c = some (.accepted k) ∧ .accepted k connfd ∈ h ∧
        ∃ p, .created k p ∈ h ∧ .stored k p connfd ∈ h)
    (hstored : ∀ k p connfd, e = .stored k p connfd → ∀ p' connfd', .stored k p' connfd' ∉ h)
    (hclosed : ∀ k, e.closer = some k → k ∉ h.filterMap Event.closer)
    (hallocated : ∀ k p b, e = .read k p b ∨ e = .freed k p b → b = true) :
    HandedOver (h ++ [e]) where
  own k connfd c hk := by
    have hmem : ∀ e' ∈ h, e' ∈ h ++ [e] := fun _ ↦ List.mem_append_left _
    have hboth : c = some (.accepted k) ∧ .accepted k connfd ∈ h ∧
        ∃ p, .created k p ∈ h ∧ .stored k p connfd ∈ h := by
      simp only [List.mem_append, List.mem_singleton] at hk
      obtain (hk | hk) | (hk | hk) := hk
      · exact hh.own k connfd c (.inl hk)
      · exact hown k connfd c (.inl hk.symm)
      · exact hh.own k connfd c (.inr hk)
      · exact hown k connfd c (.inr hk.symm)
    obtain ⟨hc, haccepted, p, hcreated, hput⟩ := hboth
    exact ⟨hc, hmem _ haccepted, p, hmem _ hcreated, hmem _ hput⟩
  stored k p p' connfd connfd' hk hk' := by
    rw [List.mem_append, List.mem_singleton] at hk hk'
    rcases hk with hk | hk <;> rcases hk' with hk' | hk'
    · exact hh.stored k p p' connfd connfd' hk hk'
    · exact absurd hk (hstored k p' connfd' hk'.symm p connfd)
    · exact absurd hk' (hstored k p connfd hk.symm p' connfd')
    · rw [← hk'] at hk
      cases hk
      exact ⟨rfl, rfl⟩
  closed := by
    rw [List.filterMap_append]
    rcases hcloser : e.closer with - | k
    · simpa [hcloser] using hh.closed
    · have hnew := hclosed k hcloser
      rw [List.filterMap_cons_some hcloser, List.filterMap_nil]
      exact List.nodup_append.2 ⟨hh.closed, List.nodup_singleton k, fun j hj j' hj' heq ↦
        hnew (List.mem_singleton.1 hj' ▸ heq ▸ hj)⟩
  allocated k p b hk := by
    simp only [List.mem_append, List.mem_singleton] at hk
    obtain (hk | hk) | (hk | hk) := hk
    · exact hh.allocated k p b (.inl hk)
    · exact hallocated k p b (.inl hk.symm)
    · exact hh.allocated k p b (.inr hk)
    · exact hallocated k p b (.inr hk.symm)

/-- **What the history shows so far.** -/
structure Recorded (h : List Event) (s : State) : Prop where
  handed : HandedOver h
  closed : ∀ k ∈ h.filterMap Event.closer, s.threads[k]? = some .done
  stored : ∀ k p connfd, .stored k p connfd ∈ h → k < s.threads.length + s.main.stored

/-- A move that reports nothing, of `main`. -/
theorem Recorded.mainStep (hr : Recorded h s) (hhanded : HandedOver (h ++ [e]))
    (hcloser : e.closer = none) (hthreads : s'.threads = s.threads)
    (hstored : ∀ k p connfd, .stored k p connfd ∈ h ++ [e] →
      k < s.threads.length + s'.main.stored) : Recorded (h ++ [e]) s' where
  handed := hhanded
  closed k hk := by
    rw [List.filterMap_append, List.filterMap_cons_none hcloser, List.filterMap_nil,
      List.append_nil] at hk
    rw [hthreads]
    exact hr.closed k hk
  stored := by
    rw [hthreads]
    exact hstored

/-- A move of the k-th thread, which ends with `Close`. -/
theorem Recorded.threadStep {at₀ at₁ : ThreadAt} (hr : Recorded h s)
    (hat : s.threads[k]? = some at₀) (hdone : at₀ ≠ .done)
    (hthreads : s'.threads = s.threads.set k at₁) (hmain : s'.main = s.main)
    (hhanded : HandedOver (h ++ [e])) (hcloser : ∀ j, e.closer = some j → j = k ∧ at₁ = .done)
    (hstored : ∀ j p connfd, e ≠ .stored j p connfd) : Recorded (h ++ [e]) s' where
  handed := hhanded
  closed j hj := by
    obtain ⟨hlt, -⟩ := List.getElem?_eq_some_iff.1 hat
    rw [hthreads]
    obtain ⟨e', he', hcloses⟩ := List.mem_filterMap.1 hj
    rcases List.mem_append.1 he' with he' | he'
    · have hbefore := hr.closed j (List.mem_filterMap.2 ⟨e', he', hcloses⟩)
      have hne : k ≠ j := by
        rintro rfl
        exact hdone (Option.some.inj (hat.symm.trans hbefore))
      rwa [List.getElem?_set_ne hne]
    · obtain ⟨rfl, rfl⟩ := hcloser j (List.mem_singleton.1 he' ▸ hcloses)
      rw [List.getElem?_set_self hlt]
  stored j p connfd hj := by
    rw [hthreads, hmain, List.length_set]
    rcases List.mem_append.1 hj with hj | hj
    · exact hr.stored j p connfd hj
    · exact absurd (List.mem_singleton.1 hj).symm (hstored j p connfd)

theorem HandedOver.silent (hh : HandedOver h) : HandedOver (h ++ [.silent]) :=
  hh.snoc (by simp) (by simp) (fun _ hk ↦ absurd hk (by simp [Event.closer])) (by simp)

theorem Recorded.silentStep {at₀ at₁ : ThreadAt} (hr : Recorded h s)
    (hat : s.threads[k]? = some at₀) (hdone : at₀ ≠ .done)
    (hthreads : s'.threads = s.threads.set k at₁) (hmain : s'.main = s.main) :
    Recorded (h ++ [.silent]) s' :=
  hr.threadStep hat hdone hthreads hmain hr.handed.silent
    (fun _ hk ↦ absurd hk (by simp [Event.closer])) (by simp)

theorem Recorded.step (hr : Recorded h s) (ho : Owned h s) (hs : Step code s e s') :
    Recorded (h ++ [e]) s' := by
  have hstored : ∀ {n}, s.main.stored ≤ n → (∀ j p connfd, e ≠ .stored j p connfd) →
      ∀ j p connfd, .stored j p connfd ∈ h ++ [e] → j < s.threads.length + n := by
    intro n hn hne j p connfd hj
    rcases List.mem_append.1 hj with hj | hj
    · exact Nat.lt_of_lt_of_le (hr.stored j p connfd hj) (Nat.add_le_add_left hn _)
    · exact absurd (List.mem_singleton.1 hj).symm (hne j p connfd)
  have hsilent := hr.handed.silent
  cases hs with
  | malloc hmain => exact hr.mainStep hsilent rfl rfl (hstored (hmain ▸ Nat.le_refl _) (by simp))
  | accept hmain =>
    exact hr.mainStep (hr.handed.snoc (by simp) (by simp) (by simp [Event.closer]) (by simp))
      rfl rfl (hstored (hmain ▸ Nat.le_refl _) (by simp))
  | @store p connfd hmain =>
    have hbefore := hr.stored
    rw [hmain] at hbefore
    refine hr.mainStep (hr.handed.snoc (by simp) ?_ (by simp [Event.closer]) (by simp)) rfl rfl ?_
    · rintro k p' fd heq p'' fd' hmem
      cases heq
      exact absurd (hbefore _ p'' fd' hmem) (Nat.lt_irrefl _)
    · intro k p' fd hmem
      have hlt : k < s.threads.length + 1 := by
        rcases List.mem_append.1 hmem with hmem | hmem
        · exact Nat.lt_succ_of_lt (hbefore k p' fd hmem)
        · cases List.mem_singleton.1 hmem
          exact Nat.lt_succ_self _
      obtain hnext | hnext := afterStore_eq code p <;> rw [hnext] <;> exact hlt
  | lookUp hmain => exact hr.mainStep hsilent rfl rfl (hstored (hmain ▸ Nat.le_refl _) (by simp))
  | @create p hmain =>
    refine ⟨hr.handed.snoc (by simp) (by simp) (by simp [Event.closer]) (by simp), ?_, ?_⟩
    · intro k hk
      rw [List.filterMap_append, List.filterMap_cons_none rfl, List.filterMap_nil,
        List.append_nil] at hk
      have hdone := hr.closed k hk
      obtain ⟨hlt, -⟩ := List.getElem?_eq_some_iff.1 hdone
      rw [threads_create, if_neg (Nat.ne_of_lt hlt), hdone]
    · intro k p' fd hmem
      have hlt := hstored (n := 1) (hmain ▸ Nat.le_refl _) (by simp) k p' fd hmem
      rw [State.create, List.length_append]
      exact hlt
  | @read k p hat =>
    have hlive := ho.cells.live (cell_of_thread hat)
    refine hr.threadStep hat (by simp) rfl rfl (hr.handed.snoc (by simp) (by simp)
      (by simp [Event.closer]) ?_) (by simp [Event.closer]) (by simp)
    rintro _ _ _ (heq | heq) <;> cases heq
    exact hlive
  | detach hat => exact hr.silentStep hat (by simp) rfl rfl
  | @free k p connfd hat =>
    have hlive := ho.cells.live (cell_of_thread hat)
    refine hr.threadStep hat (by simp) rfl rfl (hr.handed.snoc (by simp) (by simp)
      (by simp [Event.closer]) ?_) (by simp [Event.closer]) (by simp)
    rintro _ _ _ (heq | heq) <;> cases heq
    exact hlive
  | @serve k connfd u hat =>
    obtain ⟨⟨p, hcreated, hput, haccepted, htag⟩, -⟩ := ho.threads k _ hat
    refine hr.threadStep hat (by simp) (set_of_getElem? hat).symm rfl (hr.handed.snoc ?_ (by simp)
      (by simp [Event.closer]) (by simp)) (by simp [Event.closer]) (by simp)
    rintro _ _ _ (heq | heq) <;> cases heq
    exact ⟨htag, haccepted, p, hcreated, hput⟩
  | connect _ hat => exact hr.silentStep hat (by simp) rfl rfl
  | disconnect hat => exact hr.silentStep hat (by simp) rfl rfl
  | leave hat => exact hr.silentStep hat (by simp) rfl rfl
  | @close k connfd hat =>
    obtain ⟨p, hcreated, hput, haccepted, htag⟩ := ho.threads k _ hat
    refine hr.threadStep hat (by simp) rfl rfl (hr.handed.snoc ?_ (by simp) ?_ (by simp)) ?_
      (by simp)
    · rintro _ _ _ (heq | heq) <;> cases heq
      exact ⟨htag, haccepted, p, hcreated, hput⟩
    · -- a thread that has closed its connection has ended
      rintro _ heq hmem
      cases heq
      exact absurd (hat.symm.trans (hr.closed k hmem)) (by simp)
    · rintro _ heq
      cases heq
      exact ⟨rfl, rfl⟩

end Steps

/-! ### Every run -/

variable {code : Code} {heap : Addr → Cell} {opened : ℤ → Bool} {h : List Event} {s : State}

theorem invariant_of_run (hrun : Run code (initial heap opened) h s) :
    Owned h s ∧ Recorded h s := by
  induction hrun with
  | start =>
    refine ⟨owned_initial heap opened, ⟨?_, by simp, by simp⟩⟩
    exact ⟨by simp, by simp, by simp, by simp⟩
  | step _ hs ih => exact ⟨ih.1.step hs, ih.2.step ih.1 hs⟩

/-- **Every connection goes to its own thread**, in every run of either program, whatever cells and
descriptors are recycled. -/
theorem handed_over (hrun : Run code (initial heap opened) h s) : HandedOver h ∧
    ∀ k k' connfd connfd' c, (.served k connfd c ∈ h ∨ .closed k connfd c ∈ h) →
      (.served k' connfd' c ∈ h ∨ .closed k' connfd' c ∈ h) → k = k' := by
  have hhanded := (invariant_of_run hrun).2.handed
  exact ⟨hhanded, fun _ _ _ _ _ hk hk' ↦ hhanded.sole hk hk'⟩

/-- The cell of the first connection is allocated again before its thread serves it. -/
theorem handed_over_recycled : ∃ h s, Run thread (initial (fun _ ↦ ⟨false, 0⟩) (· == 3)) h s ∧
    .freed 0 7 true ∈ h ∧ (s.main = .accept 7 ∧ .served 0 4 (some (.accepted 0)) ∈ h) ∧
    HandedOver h ∧ ∀ k k' connfd connfd' c, (.served k connfd c ∈ h ∨ .closed k connfd c ∈ h) →
      (.served k' connfd' c ∈ h ∨ .closed k' connfd' c ∈ h) → k = k' := by
  have hcreated := @Run.start thread (initial (fun _ ↦ ⟨false, 0⟩) (· == 3))
    |>.step (@Step.malloc _ _ 7 1 rfl rfl) |>.step (@Step.accept _ _ 7 4 rfl rfl)
    |>.step (.store rfl) |>.step (.create rfl)
  have hfreed := hcreated.step (.read (k := 0) rfl) |>.step (.detach (k := 0) rfl)
    |>.step (.free (k := 0) rfl)
  have hrun := hfreed.step (@Step.malloc _ _ 7 2 rfl rfl) |>.step (.serve (k := 0) rfl)
  exact ⟨_, _, hrun, by decide, ⟨rfl, by decide⟩, handed_over hrun⟩

end CsappCode.Handoff
