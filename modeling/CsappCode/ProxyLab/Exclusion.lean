import CsappCode.ProxyLab.Cache

/-!
# Readers and writers exclude each other

The two programs with the readers-first protocol, `proxy.c` and `thread/reader_writer.c`, are
instances of `ReadersWriters`. For the proxy the cache is the data: `Filled` says what it holds
while no writer is inside, and `Filling` what it holds at each step of the writer inside.

* `cacheResource` makes the cache a resource in the sense of the protocol.
* `usedCnt_of_steps` and `objects_of_steps` read off it what `used_cnt` counts, and that a slot once
  filled is not modified again.
* `readers_writers_exclusion` is mutual exclusion with these, in both programs.
* `readers_writers_progress` is the absence of deadlocks, and that no reader waits for `w` beside
  another one that reads.

## What the results rest on

**The protocol** is proved once, for any data and any sections. What is added here is the one fact
that a writer that finds the cache `Filled` leaves it `Filled` with one more call.

**Assumed** is that the number of threads is finite, and nothing about their calls: each makes any
list of them. The statement about the slots asks for at most ten calls of `writer`, which is how
many slots there are, although the proof needs no such bound, since the array of the model has no
end.

**`thread/reader_writer.c`** leaves its sections empty and loops for ever. A run of it makes
finitely many calls of each thread, as many as one likes.
-/

namespace CsappCode.ProxyLab

open Interleaving (State Steps)
open ReadersWriters (Shared Thread Call Event Excluded Resource finished initial)

/-! ### What the cache holds -/

/-- The slots after the calls `xs` of `writer`: the first ones filled in order, the others as
`Malloc` returned them. -/
def filledLines (malloced : ℕ → CacheLine) (xs : List Store) (k : ℕ) : CacheLine :=
  match xs[k]? with
  | some x => (malloced k).fill x.uri x.buf
  | none => malloced k

/-- The cache while no writer is inside. -/
structure Filled (malloced : ℕ → CacheLine) (xs : List Store) (c : Cache) : Prop where
  usedCnt : c.usedCnt = xs.length
  objects : c.objects = filledLines malloced xs

/-- The cache while the writer `x` is inside, after the calls `xs`. -/
def Filling (malloced : ℕ → CacheLine) (xs : List Store) (c : Cache) (x : Store) : Prop :=
  match x.at' with
  | .name => Filled malloced xs c
  | .object => c.usedCnt = xs.length ∧
    c.objects = Function.update (filledLines malloced xs) xs.length
      { malloced xs.length with name := strcpy (malloced xs.length).name x.uri }
  | .load => c.usedCnt = xs.length ∧ c.objects = filledLines malloced (xs ++ [x])
  | .store v => v = xs.length ∧ c.objects = filledLines malloced (xs ++ [x])
  | .done => c.usedCnt = xs.length + 1 ∧ c.objects = filledLines malloced (xs ++ [x])

theorem filledLines_length (malloced : ℕ → CacheLine) (xs : List Store) :
    filledLines malloced xs xs.length = malloced xs.length := by
  rw [filledLines, List.getElem?_eq_none le_rfl]

/-- One more call fills the next slot. -/
theorem filledLines_append (malloced : ℕ → CacheLine) (xs : List Store) (x : Store) :
    filledLines malloced (xs ++ [x]) =
      Function.update (filledLines malloced xs) xs.length
        ((malloced xs.length).fill x.uri x.buf) := by
  funext k
  rcases eq_or_ne k xs.length with rfl | hne
  · rw [Function.update_self, filledLines, List.getElem?_concat_length]
  · rw [Function.update_of_ne hne, filledLines, filledLines]
    rcases Nat.lt_or_ge k xs.length with hlt | hge
    · rw [List.getElem?_append_left hlt]
    · rw [List.getElem?_eq_none (by simp; omega), List.getElem?_eq_none hge]

/-- What a call fills in depends on its arguments, not on where it stands. -/
theorem filledLines_append_congr (malloced : ℕ → CacheLine) (xs : List Store) {x y : Store}
    (huri : x.uri = y.uri) (hbuf : x.buf = y.buf) :
    filledLines malloced (xs ++ [x]) = filledLines malloced (xs ++ [y]) := by
  rw [filledLines_append, filledLines_append, CacheLine.fill, CacheLine.fill, huri, hbuf]

/-- **The cache as a resource**: a writer fills the next slot and counts it. -/
theorem cacheResource (malloced : ℕ → CacheLine) :
    Resource cacheSections (initCache malloced) (fun x ↦ x.at' = .name) (Filled malloced)
      (Filling malloced) where
  start := ⟨rfl, rfl⟩
  enter := by
    intro xs c x hx hfilled
    rw [Filling, hx]
    exact hfilled
  write := by
    intro xs c x c' x' hheld hstep
    obtain ⟨uri, buf, at'⟩ := x
    simp only [cacheSections, Store.step, Filling] at hheld hstep
    cases at'
    case name =>
      obtain ⟨rfl, rfl⟩ := Prod.mk.inj (Option.some.inj hstep)
      obtain ⟨hcnt, hobj⟩ := hheld
      refine ⟨hcnt, ?_⟩
      rw [Cache.setNext_objects, hcnt, hobj, filledLines_length]
    case object =>
      obtain ⟨rfl, rfl⟩ := Prod.mk.inj (Option.some.inj hstep)
      obtain ⟨hcnt, hobj⟩ := hheld
      refine ⟨hcnt, ?_⟩
      rw [Cache.setNext_objects, hcnt, hobj, Function.update_self, Function.update_idem,
        filledLines_append]
      rfl
    case load =>
      obtain ⟨rfl, rfl⟩ := Prod.mk.inj (Option.some.inj hstep)
      exact ⟨hheld.1, hheld.2.trans (filledLines_append_congr malloced xs rfl rfl)⟩
    case store v =>
      obtain ⟨rfl, rfl⟩ := Prod.mk.inj (Option.some.inj hstep)
      exact ⟨congrArg (· + 1) hheld.1, hheld.2.trans (filledLines_append_congr malloced xs rfl rfl)⟩
    case done => exact absurd hstep (by simp)
  leave := by
    intro xs c x hheld hstep
    obtain ⟨uri, buf, at'⟩ := x
    simp only [cacheSections, Store.step, Filling] at hheld hstep
    cases at'
    case done => exact ⟨by rw [hheld.1, List.length_append, List.length_singleton], hheld.2⟩
    all_goals exact absurd hstep (by simp)

/-! ### The runs of the proxy's readers and writers -/

section Runs

variable {ι : Type*}

/-- Threads that call `reader` and `writer` of `proxy.c` on a fresh cache. -/
def cacheInitial (malloced : ℕ → CacheLine) (calls : ι → List CacheCall) :
    State ι (Shared Cache) (Thread Scan Store) :=
  initial (initCache malloced) fun i ↦ (calls i).map CacheCall.start

/-- The number of calls of `writer` begun. -/
def startedWriters (h : List (ι × Event Scan Store ScanEvent)) : ℕ :=
  h.countP fun e ↦ match e.2 with
    | .called (.writer _) => true
    | _ => false

/-- Every call of `writer` enters its section at the first `strcpy`. -/
theorem starts_of_mem {cs : List CacheCall} {x : Store}
    (hx : Call.writer x ∈ cs.map CacheCall.start) : x.at' = .name := by
  obtain ⟨c, -, hc⟩ := List.mem_map.1 hx
  cases c with
  | reader uri => exact absurd hc (by simp [CacheCall.start])
  | writer uri buf => exact Call.writer.inj hc ▸ rfl

variable [DecidableEq ι] [Fintype ι] {malloced : ℕ → CacheLine} {calls : ι → List CacheCall}
  {h : List (ι × Event Scan Store ScanEvent)} {s : State ι (Shared Cache) (Thread Scan Store)}

/-- While no writer is inside, every completed call is counted. -/
theorem usedCnt_of_steps (hs : Steps cacheSections.program (cacheInitial malloced calls) h s)
    (hfree : ∀ i, ¬ (s.thread i).Writing) : s.shared.data.usedCnt = (finished h).length :=
  (((cacheResource malloced).guarded (fun _ _ hx ↦ starts_of_mem hx) hs).free hfree).usedCnt

/-- At all times the slot of a completed call holds what that call stored. -/
theorem objects_of_steps (hs : Steps cacheSections.program (cacheInitial malloced calls) h s)
    {k : ℕ} {x : Store} (hx : (finished h)[k]? = some x) :
    s.shared.data.objects k = (malloced k).fill x.uri x.buf := by
  have hguarded := (cacheResource malloced).guarded (fun _ _ hx ↦ starts_of_mem hx) hs
  have hk : k < (finished h).length := (List.getElem?_eq_some_iff.1 hx).1
  have hfilled : filledLines malloced (finished h) k = (malloced k).fill x.uri x.buf := by
    rw [filledLines, hx]
  have hfilled' : ∀ y,
      filledLines malloced (finished h ++ [y]) k = (malloced k).fill x.uri x.buf := by
    intro y
    rw [filledLines, List.getElem?_append_left hk, hx]
  rcases Classical.em (∃ i, (s.thread i).Writing) with ⟨i, hi⟩ | hnone
  · obtain ⟨y, hy⟩ := Thread.writing_iff.1 hi
    have hheld := hguarded.held i y hy
    rw [Filling] at hheld
    split at hheld
    · rw [hheld.objects, hfilled]
    · rw [hheld.2, Function.update_of_ne hk.ne, hfilled]
    · rw [hheld.2, hfilled']
    · rw [hheld.2, hfilled']
    · rw [hheld.2, hfilled']
  · have hfree := hguarded.free fun i hi ↦ hnone ⟨i, hi⟩
    rw [hfree.objects, hfilled]

end Runs

/-! ### Both programs -/

/-- The sections of `thread/reader_writer.c`, which are left empty there. Its threads loop for ever;
a run makes finitely many calls of each. -/
def loopSections : ReadersWriters.Sections Unit Unit Unit Empty :=
  ⟨fun _ _ ↦ none, fun _ _ ↦ none⟩

/-- **Readers and writers exclude each other**, in `proxy.c` and in `thread/reader_writer.c`, in
every state of every interleaving of any number of threads. In the proxy, moreover, while at most
ten calls of `writer` have begun: when no writer is inside, `used_cnt` is the number of completed
calls; and each completed call has filled the slot of its number, which nobody modifies again. -/
theorem readers_writers_exclusion {ι : Type*} [DecidableEq ι] [Fintype ι] :
    (∀ (malloced : ℕ → CacheLine) (calls : ι → List CacheCall)
        (h : List (ι × Event Scan Store ScanEvent))
        (s : State ι (Shared Cache) (Thread Scan Store)),
      Steps cacheSections.program (cacheInitial malloced calls) h s →
        Excluded s ∧
        (startedWriters h ≤ slots →
          ((∀ i, ¬ (s.thread i).Writing) → s.shared.data.usedCnt = (finished h).length) ∧
          ∀ k x, (finished h)[k]? = some x →
            s.shared.data.objects k = (malloced k).fill x.uri x.buf) ∧
        ∀ h' s', Steps cacheSections.program s h' s' → startedWriters (h ++ h') ≤ slots →
          ∀ k, k < (finished h).length → s'.shared.data.objects k = s.shared.data.objects k) ∧
    ∀ (calls : ι → List (Call Unit Unit)) (h : List (ι × Event Unit Unit Empty))
        (s : State ι (Shared Unit) (Thread Unit Unit)),
      Steps loopSections.program (initial () calls) h s → Excluded s := by
  refine ⟨fun malloced calls h s hs ↦ ?_, fun calls h s hs ↦ ?_⟩
  · refine ⟨(ReadersWriters.exclusive_of_steps hs).excluded, fun _ ↦ ⟨usedCnt_of_steps hs, ?_⟩, ?_⟩
    · exact fun k x hx ↦ objects_of_steps hs hx
    · intro h' s' hs' _ k hk
      have hx : (finished h)[k]? = some (finished h)[k] := List.getElem?_eq_getElem hk
      have hx' : (finished (h ++ h'))[k]? = some (finished h)[k] := by
        rw [ReadersWriters.finished_append, List.getElem?_append_left hk, hx]
      rw [objects_of_steps hs hx, objects_of_steps (hs.trans hs') hx']
  · exact (ReadersWriters.exclusive_of_steps hs).excluded

/-- A thread that looks a name up, and one that stores it. -/
def readerAndWriter (i : Fin 2) : List CacheCall :=
  if i = 0 then [.reader [97]] else [.writer [97] [98]]

/-- The writer is inside when the reader comes, and fills a slot while the reader waits for it. Then
the reader is inside and has found it, and the call of `writer` comes out counted. -/
theorem readers_writers_exclusion_store :
    ∃ (h : List (Fin 2 × Event Scan Store ScanEvent))
        (s : State (Fin 2) (Shared Cache) (Thread Scan Store)),
      Steps cacheSections.program (cacheInitial (fun _ ↦ ⟨[], []⟩) readerAndWriter) h s ∧
      Excluded s ∧ (s.thread 0).Reading ∧ s.shared.data.usedCnt = 1 ∧
      s.shared.data.objects 0 = ⟨[97, 0], [98, 0]⟩ := by
  obtain ⟨⟨h, s⟩, hrun⟩ : ∃ r, Interleaving.run cacheSections.program
      (cacheInitial (fun _ ↦ ⟨[], []⟩) readerAndWriter)
      [1, 1, 0, 0, 0, 0, 0, 1, 1, 1, 1, 1, 0, 0, 0] = some r :=
    Option.isSome_iff_exists.1 (by decide)
  have hend : (Interleaving.run cacheSections.program
      (cacheInitial (fun _ ↦ ⟨[], []⟩) readerAndWriter)
      [1, 1, 0, 0, 0, 0, 0, 1, 1, 1, 1, 1, 0, 0, 0]).map
        (fun r ↦ (startedWriters r.1, finished r.1, (r.2.thread 0).pc, (r.2.thread 1).pc)) =
      some (1, [⟨[97], [98], .done⟩], .reader ⟨[97], 0, true⟩ .reading, .idle) := rfl
  rw [hrun, Option.map_some, Option.some.injEq] at hend
  obtain ⟨hstarted, hend⟩ := Prod.mk.inj hend
  obtain ⟨hfinished, hend⟩ := Prod.mk.inj hend
  obtain ⟨hreading, hidle⟩ := Prod.mk.inj hend
  have hs := Interleaving.steps_of_run _ hrun
  obtain ⟨hex, hcounts, -⟩ := (readers_writers_exclusion (ι := Fin 2)).1 _ _ _ _ hs
  obtain ⟨hcnt, hobj⟩ := hcounts (by rw [hstarted]; decide)
  have hinside : (s.thread 0).Reading := ReadersWriters.Thread.reading_iff.2 ⟨_, hreading⟩
  refine ⟨h, s, hs, hex, hinside, ?_, ?_⟩
  · rw [hcnt fun i hi ↦ hex.no_reader 0 i hinside hi, hfinished]
    rfl
  · rw [hobj 0 ⟨[97], [98], .done⟩ (by rw [hfinished]; rfl)]
    decide

/-! ### Progress -/

/-- Some call can go on when one is under way, and no reader waits for `w` while another reader is
in its reading section. -/
structure Progressing {ι δ ρ ω ε : Type*} (S : ReadersWriters.Sections δ ρ ω ε)
    (s : State ι (Shared δ) (Thread ρ ω)) : Prop where
  moves : (∃ i, (s.thread i).Busy) → ∃ i, (s.thread i).Busy ∧ Interleaving.Enabled S.program s i
  joins : ∀ i j, (s.thread j).Reading → ∀ r, (s.thread i).pc ≠ .reader r .takeW

/-- **Readers first, without deadlock**, in `proxy.c` and in `thread/reader_writer.c`. -/
theorem readers_writers_progress {ι : Type*} [DecidableEq ι] [Fintype ι] :
    (∀ (malloced : ℕ → CacheLine) (calls : ι → List CacheCall)
        (h : List (ι × Event Scan Store ScanEvent))
        (s : State ι (Shared Cache) (Thread Scan Store)),
      Steps cacheSections.program (cacheInitial malloced calls) h s →
        Progressing cacheSections s) ∧
    ∀ (calls : ι → List (Call Unit Unit)) (h : List (ι × Event Unit Unit Empty))
        (s : State ι (Shared Unit) (Thread Unit Unit)),
      Steps loopSections.program (initial () calls) h s → Progressing loopSections s := by
  refine ⟨fun malloced calls h s hs ↦ ?_, fun calls h s hs ↦ ?_⟩
  all_goals
    have hex := ReadersWriters.exclusive_of_steps hs
    exact ⟨hex.progress, fun i j hj ↦ hex.not_takeW_of_reading hj⟩

/-- One thread is in its reading section when another has just called `reader`. -/
theorem readers_writers_progress_second :
    ∃ (h : List (Fin 2 × Event Unit Unit Empty))
      (s : State (Fin 2) (Shared Unit) (Thread Unit Unit)),
      Steps loopSections.program (initial () fun _ ↦ [.reader ()]) h s ∧
      (s.thread 0).Reading ∧ (∃ i, (s.thread i).Busy ∧
        Interleaving.Enabled loopSections.program s i) ∧
      ∀ r, (s.thread 1).pc ≠ .reader r .takeW := by
  obtain ⟨⟨h, s⟩, hrun⟩ : ∃ r, Interleaving.run loopSections.program
      (initial () fun _ : Fin 2 ↦ [.reader ()]) (List.replicate 7 0 ++ [1]) = some r :=
    Option.isSome_iff_exists.1 (by decide)
  have hend : (Interleaving.run loopSections.program
      (initial () fun _ : Fin 2 ↦ [.reader ()]) (List.replicate 7 0 ++ [1])).map
        (fun r ↦ decide (r.2.thread 0).Reading) = some true := by decide
  rw [hrun, Option.map_some, Option.some.injEq, decide_eq_true_iff] at hend
  have hs := Interleaving.steps_of_run _ hrun
  have hprogress := readers_writers_progress.2 _ _ _ hs
  have hbusy : (s.thread 0).Busy := fun hidle ↦ by
    obtain ⟨r, hr⟩ := ReadersWriters.Thread.reading_iff.1 hend
    exact absurd (hidle.symm.trans hr) (by simp)
  exact ⟨h, s, hs, hend, hprogress.moves ⟨0, hbusy⟩, hprogress.joins 1 0 hend⟩

end CsappCode.ProxyLab
