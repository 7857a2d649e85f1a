import CsappCode.ProxyLab.Concurrent
import Mathlib.Data.Set.Card
import Mathlib.Tactic.FinCases

/-!
# What concurrent connections store

Every thread that serves a connection looks its name up once and stores at most once, and in between
the cache may change. This module says what the cache holds in all interleavings, and for which
connections it stays as it should.

* `entered_of_steps` describes the cache by the threads that have stored an object.
* `exists_run_storing` and `exists_run_astray` are interleavings built by hand.
* `withinSlots_iff`: `writer` keeps to the ten slots just if no connection goes astray and at most
  ten of them can come to a store.
* `distinctNames_iff`: no name is stored twice just if no connection goes astray and no two of them
  can come to a store under one name.

## What the results rest on

**The invariant.** `countResource` and `cacheResource` follow a writer through its section, and
`guarded_of_steps` takes them through the runs. Together with `writers_of_steps` they give
`Entered`: the filled slots in order, each with the thread that has filled it.

**The counterexamples.** A thread can stop between its lookup and its store for as long as the
others take. So any number of threads can all miss first and all store afterwards, also under one
name. Only threads whose connections are well formed are needed for that.

**What is assumed.** The number of connections is finite. `Malloc` may have returned areas with any
content. A thread whose connection is not orderly may do anything from where C leaves it undefined,
and one of the things it may do is to store without end (`refill`).
-/

namespace CsappCode.ProxyLab

open Interleaving (State Steps)
open Csapp (maxline)
open ReadersWriters (Shared Thread Call Event Client ClientThread callsBy writersOf returned
  returnedTo underway finished Resource erase)

/-! ### The slots filled, by thread -/

/-- `used_cnt` while the writer `y` is inside, after the calls `xs`. -/
def Counting (xs : List Store) (c : Cache) (y : Store) : Prop :=
  match y.at' with
  | .store v => v = xs.length ∧ c.usedCnt = xs.length
  | .done => c.usedCnt = xs.length + 1
  | _ => c.usedCnt = xs.length

/-- **`used_cnt` as a resource**: a writer counts itself once. -/
theorem countResource (malloced : ℕ → CacheLine) :
    Resource cacheSections (initCache malloced) (fun y ↦ y.at' = .name)
      (fun xs c ↦ c.usedCnt = xs.length) Counting where
  start := rfl
  enter := by
    intro xs c y hy hcnt
    rwa [Counting, hy]
  write := by
    intro xs c y c' y' hheld hstep
    obtain ⟨uri, buf, at'⟩ := y
    simp only [cacheSections, Store.step, Counting] at hheld hstep
    cases at'
    case done => exact absurd hstep (by simp)
    all_goals obtain ⟨rfl, rfl⟩ := Prod.mk.inj (Option.some.inj hstep)
    case load => exact ⟨hheld, hheld⟩
    case store v => exact congrArg (· + 1) hheld.1
    all_goals exact hheld
  leave := by
    intro xs c y hheld hstep
    obtain ⟨uri, buf, at'⟩ := y
    simp only [cacheSections, Store.step, Counting] at hheld hstep
    cases at'
    case done => rw [hheld, List.length_append, List.length_singleton]
    all_goals exact absurd hstep (by simp)

/-- What a writer keeps through its section. -/
def Store.label (y : Store) : List UInt8 × List UInt8 := (y.uri, y.buf)

theorem label_of_write {c c' : Cache} {y y' : Store} (h : cacheSections.write c y = some (c', y')) :
    y'.label = y.label := by
  obtain ⟨uri, buf, at'⟩ := y
  simp only [cacheSections, Store.step] at h
  cases at'
  case done => exact absurd h (by simp)
  all_goals
    obtain ⟨-, rfl⟩ := Prod.mk.inj (Option.some.inj h)
    rfl

variable {ι : Type*} {stray : Stray}

/-- **The cache, by the threads that have stored an object**, in the order of the slots. -/
structure Entered (malloced : ℕ → CacheLine) (x : ι → Connection)
    (h : List (ι × Event Scan Store ScanEvent))
    (s : State ι (Shared Cache) (ClientThread Scan Store Serving)) (zs : List (ι × Store)) :
    Prop where
  usedCnt : s.shared.data.usedCnt = zs.length
  objects : ∀ k z, zs[k]? = some z →
    s.shared.data.objects k = (malloced k).fill z.2.uri z.2.buf
  once : (zs.map Prod.fst).Nodup
  storable : ∀ z ∈ zs, StorableAs (x z.1) z.2.uri
  finished : finished h <+: zs.map Prod.snd
  storing : ∀ i y, (s.thread i).pc = .writing y → y.at' = .name ∨ y.at' = .object →
    i ∉ zs.map Prod.fst ∧ StorableAs (x i) y.uri

/-- The slots that are filled while a writer is inside: its own is when it has counted it. -/
theorem objects_of_filling {malloced : ℕ → CacheLine} {xs : List Store} {c : Cache} {y : Store}
    (h : Filling malloced xs c y) {k : ℕ} {z : Store}
    (hz : xs[k]? = some z ∨ y.at' = .done ∧ (xs ++ [y])[k]? = some z) :
    c.objects k = (malloced k).fill z.uri z.buf := by
  have hlater : c.objects = filledLines malloced (xs ++ [y]) →
      c.objects k = (malloced k).fill z.uri z.buf := by
    intro hobj
    have hz' : (xs ++ [y])[k]? = some z := by
      rcases hz with hz | ⟨-, hz⟩
      · rw [List.getElem?_append_left (List.getElem?_eq_some_iff.1 hz).1, hz]
      · exact hz
    rw [hobj, filledLines, hz']
  rw [Filling] at h
  split at h
  case h_1 hat =>
    obtain hz | ⟨hdone, -⟩ := hz
    · rw [h.objects, filledLines, hz]
    · exact absurd (hat.symm.trans hdone) (by simp)
  case h_2 hat =>
    obtain hz | ⟨hdone, -⟩ := hz
    · rw [h.2, Function.update_of_ne (List.getElem?_eq_some_iff.1 hz).1.ne, filledLines, hz]
    · exact absurd (hat.symm.trans hdone) (by simp)
  all_goals exact hlater h.2

variable [DecidableEq ι] [Fintype ι] {malloced : ℕ → CacheLine} {x : ι → Connection}
  {h : List (ι × Event Scan Store ScanEvent)}
  {s : State ι (Shared Cache) (ClientThread Scan Store Serving)}

/-- What is so of the cache under every list of calls is so here. -/
theorem guarded_of_steps {free : List Store → Cache → Prop}
    {held : List Store → Cache → Store → Prop}
    (hR : Resource cacheSections (initCache malloced) (fun y ↦ y.at' = .name) free held)
    (horderly : ∀ i, (x i).Orderly)
    (hs : Steps ((doitClient stray).program cacheSections) (serveInitial malloced x) h s) :
    ReadersWriters.Guarded (fun y ↦ y.at' = .name) free held h (erase s fun _ ↦ []) := by
  refine hR.guarded (fun i y hy ↦ ?_) (Client.steps_erase hs fun _ ↦ [])
  rw [List.append_nil] at hy
  exact ((follows_of_steps horderly hs i).2.writersOf.2 y (List.mem_filterMap.2 ⟨_, hy, rfl⟩)).1

omit [Fintype ι] in
/-- **The calls of `writer`**, those that have returned and those inside, are by different threads,
each for a connection that can come to a store. -/
theorem writers_of_steps (horderly : ∀ i, (x i).Orderly)
    (hs : Steps ((doitClient stray).program cacheSections) (serveInitial malloced x) h s) :
    ((returned h).map Prod.fst).Nodup ∧ (∀ z ∈ returned h, StorableAs (x z.1) z.2.uri) ∧
      ∀ i y, (s.thread i).pc = .writing y →
        i ∉ (returned h).map Prod.fst ∧ StorableAs (x i) y.uri := by
  have hfollows := follows_of_steps horderly hs
  have hrun := Client.steps_erase hs fun _ ↦ []
  obtain ⟨honce, hunder⟩ := ReadersWriters.nodup_returned label_of_write hrun fun i ↦
    (hfollows i).2.writersOf.1
  have hstorable : ∀ i y, y ∈ returnedTo i h ++ underway ⟨(s.thread i).pc, []⟩ →
      StorableAs (x i) y.uri := by
    intro i y hy
    have hlabel := ReadersWriters.label_returned label_of_write hrun i
    have hmem : y.label ∈ (writersOf (callsBy i h)).map Store.label := by
      rw [← hlabel]
      exact List.mem_map_of_mem hy
    obtain ⟨y', hy', heq⟩ := List.mem_map.1 hmem
    rw [← (Prod.mk.inj heq).1]
    exact ((hfollows i).2.writersOf.2 y' hy').2
  refine ⟨honce, fun z hz ↦ ?_, fun i y hy ↦ ?_⟩
  · exact hstorable z.1 z.2 (List.mem_append_left _ (ReadersWriters.mem_returnedTo hz))
  · have hmem : y ∈ underway (⟨(s.thread i).pc, []⟩ : Thread Scan Store) := by
      rw [underway, hy]
      exact List.mem_cons_self
    exact ⟨hunder i y hmem, hstorable i y (List.mem_append_right _ hmem)⟩

omit [Fintype ι] in
/-- The calls that have returned, when no other has been counted. -/
theorem entered_returned (horderly : ∀ i, (x i).Orderly)
    (hs : Steps ((doitClient stray).program cacheSections) (serveInitial malloced x) h s)
    (hcnt : s.shared.data.usedCnt = (finished h).length)
    (hobj : ∀ k z, (finished h)[k]? = some z →
      s.shared.data.objects k = (malloced k).fill z.uri z.buf) :
    Entered malloced x h s (returned h) := by
  obtain ⟨honce, hreturned, hwriting⟩ := writers_of_steps horderly hs
  have hfinished : (returned h).map Prod.snd = finished h := ReadersWriters.map_snd_returned h
  refine ⟨?_, fun k z hz ↦ hobj k z.2 ?_, honce, hreturned, ?_, fun i y hy _ ↦ hwriting i y hy⟩
  · rw [hcnt, ← hfinished, List.length_map]
  · rw [← hfinished, List.getElem?_map, hz]
    rfl
  · rw [hfinished]

/-- The calls that have returned, and the one inside once it has counted itself. -/
theorem entered_inside (horderly : ∀ i, (x i).Orderly)
    (hs : Steps ((doitClient stray).program cacheSections) (serveInitial malloced x) h s) {i : ι}
    {y : Store} (hy : (s.thread i).pc = .writing y) (hdone : y.at' = .done) :
    Entered malloced x h s (returned h ++ [(i, y)]) := by
  have hcnt : Counting (finished h) s.shared.data y :=
    (guarded_of_steps (countResource malloced) horderly hs).held i y hy
  have hfilling : Filling malloced (finished h) s.shared.data y :=
    (guarded_of_steps (cacheResource malloced) horderly hs).held i y hy
  obtain ⟨honce, hreturned, hwriting⟩ := writers_of_steps horderly hs
  obtain ⟨hi, hyst⟩ := hwriting i y hy
  have hfinished : (returned h).map Prod.snd = finished h := ReadersWriters.map_snd_returned h
  refine ⟨?_, fun k z hz ↦ ?_, ?_, fun z hz ↦ ?_, ?_, ?_⟩
  · rw [Counting, hdone] at hcnt
    rw [hcnt, List.length_append, ← hfinished, List.length_map, List.length_singleton]
  · refine objects_of_filling hfilling (.inr ⟨hdone, ?_⟩)
    rw [← hfinished, ← List.map_singleton (f := Prod.snd) (a := (i, y)), ← List.map_append,
      List.getElem?_map, hz]
    rfl
  · rw [List.map_append, List.nodup_append_comm]
    exact List.nodup_cons.2 ⟨hi, honce⟩
  · rcases List.mem_append.1 hz with hz | hz
    · exact hreturned z hz
    · rw [List.mem_singleton.1 hz]
      exact hyst
  · rw [List.map_append, hfinished]
    exact List.prefix_append _ _
  · -- there is no other writer inside, and this one is past its stores
    intro j y' hy' hat
    have hex := ReadersWriters.exclusive_of_steps (Client.steps_erase hs fun _ ↦ [])
    obtain rfl := hex.excluded.one_writer i j (ReadersWriters.Thread.writing_iff.2 ⟨y, hy⟩)
      (ReadersWriters.Thread.writing_iff.2 ⟨y', hy'⟩)
    obtain rfl := ReadersWriters.Pc.writing.inj (hy.symm.trans hy')
    rw [hdone] at hat
    exact absurd hat (by simp)

/-- **Every slot filled belongs to a thread of its own**, whose connection can come to a store. -/
theorem entered_of_steps (horderly : ∀ i, (x i).Orderly)
    (hs : Steps ((doitClient stray).program cacheSections) (serveInitial malloced x) h s) :
    ∃ zs, Entered malloced x h s zs := by
  have hfill := guarded_of_steps (cacheResource malloced) horderly hs
  have hcount := guarded_of_steps (countResource malloced) horderly hs
  rcases Classical.em (∃ i y, (s.thread i).pc = .writing y) with ⟨i, y, hy⟩ | hnone
  · have hcnt : Counting (finished h) s.shared.data y := hcount.held i y hy
    have hfilling : Filling malloced (finished h) s.shared.data y := hfill.held i y hy
    rcases Classical.em (y.at' = .done) with hdone | hnot
    · exact ⟨_, entered_inside horderly hs hy hdone⟩
    · refine ⟨_, entered_returned horderly hs ?_ fun k z hz ↦ objects_of_filling hfilling (.inl hz)⟩
      rw [Counting] at hcnt
      split at hcnt
      · exact hcnt.2
      · exact absurd ‹_› hnot
      · exact hcnt
  · have hfree : ∀ i, ¬ ((erase s fun _ ↦ []).thread i).Writing := fun i hi ↦ by
      obtain ⟨y, hy⟩ := ReadersWriters.Thread.writing_iff.1 hi
      exact hnone ⟨i, y, hy⟩
    refine ⟨_, entered_returned horderly hs (hcount.free hfree) fun k z hz ↦ ?_⟩
    show (erase s fun _ ↦ []).shared.data.objects k = _
    rw [(hfill.free hfree).objects, filledLines, hz]

/-! ### Interleavings built by hand -/

omit [DecidableEq ι] [Fintype ι] in
/-- The scan over slots none of which has the name. -/
theorem reads_of_miss {c : Cache} {uri : List UInt8}
    (hmiss : ∀ k < slots, cstr (c.objects k).name ≠ cstr uri) (n : ℕ) : ∀ {i : ℕ}, i + n = slots →
      ReadersWriters.Reads cacheSections c ⟨uri, i, false⟩ ⟨uri, slots, false⟩ := by
  induction n with
  | zero =>
    intro i hi
    obtain rfl : i = slots := hi
    exact .done (by simp [cacheSections, Scan.step])
  | succ n ih =>
    intro i hi
    have hlt : i < slots := by omega
    refine .turn (e := .differs) ?_ (ih (i := i + 1) (by omega))
    simp [cacheSections, Scan.step, hlt, hmiss i hlt]

theorem writes_writer (c : Cache) (uri buf : List UInt8) : ReadersWriters.Writes cacheSections c
    ⟨uri, buf, .name⟩ (writer c uri buf) ⟨uri, buf, .done⟩ :=
  .turn rfl (.turn rfl (.turn rfl (.turn rfl (.done rfl))))

theorem waits_looking (x : Connection) (line : ReqLine) (headers : List ReqHeader)
    (uri : List UInt8) : (doitClient stray).Waits ⟨x, .looking line headers uri⟩ :=
  ⟨rfl, fun _ ↦ rfl⟩

theorem waits_storing (x : Connection) : (doitClient stray).Waits ⟨x, .storing⟩ :=
  ⟨rfl, fun _ ↦ rfl⟩

/-- A lookup that misses. -/
theorem alone_lookup (stray : Stray) {c : Cache} {x : Connection} {line : ReqLine}
    {headers : List ReqHeader}
    (hparsable : Parsable x.client line headers)
    (hmiss : ∀ k < slots, cstr (c.objects k).name ≠ cstr line.cacheKey) :
    Interleaving.Alone ((doitClient stray).program cacheSections) ⟨1, 1, 0, c⟩ ⟨.idle, ⟨x, .start⟩⟩
      ⟨1, 1, 0, c⟩ ⟨.idle, ⟨x, .missed line headers line.cacheKey⟩⟩ := by
  refine Client.alone_reader ?_ (waits_looking x line headers line.cacheKey)
    (reads_of_miss hmiss slots (Nat.zero_add _))
  show Serving.next stray ⟨x, .start⟩ = _
  simp only [Serving.next, lookupName_eq_ok_iff.2 ⟨hparsable, rfl⟩]
  rfl

/-- A store. -/
theorem alone_store (stray : Stray) (c : Cache) {x : Connection} {line : ReqLine}
    {headers : List ReqHeader}
    (hstorable : Storable x line headers) : ∃ object,
      Interleaving.Alone ((doitClient stray).program cacheSections) ⟨1, 1, 0, c⟩
        ⟨.idle, ⟨x, .missed line headers line.cacheKey⟩⟩
        ⟨1, 1, 0, writer c line.cacheKey object⟩ ⟨.idle, ⟨x, .done⟩⟩ := by
  obtain ⟨-, object, hnext⟩ := (storable_iff stray).1 hstorable
  exact ⟨object, Client.alone_writer hnext (waits_storing x) (writes_writer c _ _)⟩

/-- A name is not empty, for the path begins with a slash. -/
theorem Parsable.cstr_cacheKey {stream : List UInt8} {line : ReqLine} {headers : List ReqHeader}
    (h : Parsable stream line headers) :
    cstr line.cacheKey = line.cacheKey ∧ line.cacheKey ≠ [] := by
  have hparse := (parsable_iff.1 h).1
  obtain ⟨first, rest, uri, ls, tail, -, -, -, hcut, -⟩ := h.shape
  obtain ⟨rest', hpath⟩ := hcut.path
  refine ⟨?_, fun hnil ↦ ?_⟩
  · have hreq : Requests (zeroedConnection stream []) line := ⟨headers, hparse⟩
    exact hreq.cstr_cacheKey
  · rw [ReqLine.cacheKey, hpath] at hnil
    exact absurd hnil (by simp)

/-- The thread has looked its name up in vain and is about to store. -/
def AboutToStore (x : ι → Connection)
    (s : State ι (Shared Cache) (ClientThread Scan Store Serving)) (i : ι) (key : List UInt8) :
    Prop :=
  ∃ line headers, Storable (x i) line headers ∧ line.cacheKey = key ∧
    s.thread i = ⟨.idle, ⟨x i, .missed line headers line.cacheKey⟩⟩

variable {key : ι → List UInt8}

omit [Fintype ι] in
theorem AboutToStore.advance {i j : ι} (h : AboutToStore x s j (key j)) (hne : j ≠ i)
    (sh : Shared Cache) (th : ClientThread Scan Store Serving) :
    AboutToStore x (s.advance i sh th) j (key j) := by
  rwa [AboutToStore, s.advance_thread_of_ne sh th hne]

omit [Fintype ι] in
/-- **Any threads can all miss** before any of them stores, on a cache without names. -/
theorem exists_lookups (hblank : ∀ k < slots, cstr (malloced k).name = []) :
    ∀ l : List ι, l.Nodup → (∀ i ∈ l, StorableAs (x i) (key i)) →
      ∃ h s, Steps ((doitClient stray).program cacheSections) (serveInitial malloced x) h s ∧
        s.shared = ⟨1, 1, 0, initCache malloced⟩ ∧ (∀ i ∈ l, AboutToStore x s i (key i)) ∧
        ∀ i, i ∉ l → s.thread i = ⟨.idle, ⟨x i, .start⟩⟩
  | [], _, _ => ⟨[], _, .start, rfl, fun i hi ↦ absurd hi List.not_mem_nil, fun _ _ ↦ rfl⟩
  | i :: l, hnodup, hkey => by
    obtain ⟨hi, hnodup⟩ := List.nodup_cons.1 hnodup
    obtain ⟨h, s, hs, hshared, hl, hothers⟩ := exists_lookups hblank l hnodup
      fun j hj ↦ hkey j (List.mem_cons_of_mem _ hj)
    obtain ⟨line, headers, hstorable, hname⟩ := hkey i List.mem_cons_self
    obtain ⟨hcstr, hne⟩ := hstorable.parsable.cstr_cacheKey
    have halone := alone_lookup stray (c := initCache malloced) hstorable.parsable fun k hk hname ↦
      hne (by rw [← hcstr, ← hname]; exact hblank k hk)
    rw [← hshared, ← hothers i hi] at halone
    obtain ⟨h', hs'⟩ := halone.steps
    refine ⟨_, _, hs.trans hs', hshared, fun j hj ↦ ?_, fun j hj ↦ ?_⟩
    · rcases eq_or_ne j i with rfl | hne
      · exact ⟨line, headers, hstorable, hname, by rw [State.advance_thread_self]⟩
      · exact (hl j (List.mem_of_ne_of_mem hne hj)).advance hne _ _
    · obtain ⟨hne, hj⟩ := not_or.1 (List.mem_cons.not.1 hj)
      rw [s.advance_thread_of_ne _ _ hne]
      exact hothers j hj

omit [Fintype ι] in
/-- **Threads that have all missed all store.** -/
theorem exists_stores_of_missed : ∀ (l : List ι) {c : Cache}
    {s : State ι (Shared Cache) (ClientThread Scan Store Serving)}, l.Nodup →
      s.shared = ⟨1, 1, 0, c⟩ → (∀ i ∈ l, AboutToStore x s i (key i)) →
      ∃ h s' c', Steps ((doitClient stray).program cacheSections) s h s' ∧
        s'.shared = ⟨1, 1, 0, c'⟩ ∧ c.Extends c' ∧ c'.usedCnt = c.usedCnt + l.length ∧
        ∀ m i, l[m]? = some i → cstr (c'.objects (c.usedCnt + m)).name = key i
  | [], c, s, _, hshared, _ =>
    ⟨[], s, c, .start, hshared, .refl c, rfl, fun m i hm ↦ absurd hm (by simp)⟩
  | i :: l, c, s, hnodup, hshared, hl => by
    obtain ⟨hi, hnodup⟩ := List.nodup_cons.1 hnodup
    obtain ⟨line, headers, hstorable, hname, hthread⟩ := hl i List.mem_cons_self
    obtain ⟨object, halone⟩ := alone_store stray c hstorable
    rw [← hshared, ← hthread] at halone
    obtain ⟨h, hs⟩ := halone.steps
    have hl' : ∀ j ∈ l, AboutToStore x (s.advance i ⟨1, 1, 0, writer c line.cacheKey object⟩
        ⟨.idle, ⟨x i, .done⟩⟩) j (key j) := fun j hj ↦ by
      have hne : j ≠ i := fun heq ↦ hi (heq ▸ hj)
      exact (hl j (List.mem_cons_of_mem _ hj)).advance hne _ _
    obtain ⟨h', s', c', hs', hshared', hext, hcnt, hnames⟩ :=
      exists_stores_of_missed l hnodup rfl hl'
    rw [writer_usedCnt] at hcnt hnames
    refine ⟨_, s', c', hs.trans hs', hshared', (extends_writer c _ _).trans hext, ?_,
      fun m j hm ↦ ?_⟩
    · rw [hcnt, List.length_cons, Nat.add_assoc, Nat.add_comm 1]
    · rcases m with - | m
      · obtain rfl : i = j := by simpa using hm
        rw [Nat.add_zero, hext.objects_eq _ (by simp), writer_objects_usedCnt, CacheLine.fill,
          cstr_strcpy, ← hname]
        exact hstorable.parsable.cstr_cacheKey.1
      · rw [← hnames m j (by simpa using hm), Nat.add_assoc, Nat.add_comm 1]

omit [Fintype ι] in
/-- **An interleaving in which all these threads store**, each under its name, on a cache whose
names are empty at first. -/
theorem exists_run_storing {l : List ι} (hnodup : l.Nodup) (key : ι → List UInt8)
    (hkey : ∀ i ∈ l, StorableAs (x i) (key i)) :
    ∃ h s, Steps ((doitClient stray).program cacheSections)
        (serveInitial (fun _ ↦ ⟨[], []⟩) x) h s ∧
      s.shared.data.usedCnt = l.length ∧
      ∀ m i, l[m]? = some i → cstr (s.shared.data.objects m).name = key i := by
  have hblank : ∀ k < slots, cstr ((fun _ ↦ ⟨[], []⟩ : ℕ → CacheLine) k).name = [] := fun _ _ ↦ rfl
  obtain ⟨h, s, hs, hshared, hl, -⟩ := exists_lookups hblank l hnodup hkey
  obtain ⟨h', s', c', hs', hshared', -, hcnt, hnames⟩ := exists_stores_of_missed l hnodup hshared hl
  refine ⟨_, s', hs.trans hs', ?_, fun m i hm ↦ ?_⟩
  · rw [hshared', hcnt, initCache, Nat.zero_add]
  · rw [hshared', ← hnames m i hm, initCache, Nat.zero_add]

/-! ### Threads that have gone astray -/

/-- A thread that has gone astray may store without end. -/
def refill : Stray := fun _ _ ↦ some (CacheCall.writer [] []).start

/-- **It can store as often as it likes**, always under one name. -/
theorem alone_refill {x : Connection} (n : ℕ) : ∀ {c : Cache} {q : Serving} {k : ℕ},
    Serving.next refill q = refill.next x k → ∃ c' q',
      Interleaving.Alone ((doitClient refill).program cacheSections) ⟨1, 1, 0, c⟩ ⟨.idle, q⟩
        ⟨1, 1, 0, c'⟩ ⟨.idle, q'⟩ ∧ c.Extends c' ∧ c'.usedCnt = c.usedCnt + n ∧
        ∀ m < n, cstr (c'.objects (c.usedCnt + m)).name = [] := by
  induction n with
  | zero => exact fun {c q k} _ ↦ ⟨c, q, .refl, .refl c, rfl, fun m hm ↦ absurd hm (by omega)⟩
  | succ n ih =>
    intro c q k hnext
    have hcall : (doitClient refill).next q =
        some (.writer ⟨[], [], .name⟩, ⟨x, .astray (k + 1)⟩) := hnext
    have hfirst := Client.alone_writer hcall ⟨rfl, fun _ ↦ rfl⟩ (writes_writer c [] [])
    obtain ⟨c', q', hrest, hext, hcnt, hnames⟩ :=
      @ih (writer c [] []) ⟨x, .astray (k + 1)⟩ (k + 1) rfl
    rw [writer_usedCnt] at hcnt hnames
    refine ⟨c', q', hfirst.trans hrest, (extends_writer c _ _).trans hext, by omega,
      fun m hm ↦ ?_⟩
    rcases m with - | m
    · rw [Nat.add_zero, hext.objects_eq _ (by simp), writer_objects_usedCnt, CacheLine.fill,
        cstr_strcpy]
      rfl
    · rw [← hnames m (by omega), Nat.add_assoc, Nat.add_comm 1]

omit [Fintype ι] in
/-- **A connection that is not orderly can fill the cache** by itself, on names empty at first. -/
theorem exists_run_astray {i : ι} (hi : ¬ (x i).Orderly) (n : ℕ) :
    ∃ h s, Steps ((doitClient refill).program cacheSections)
        (serveInitial (fun _ ↦ ⟨[], []⟩) x) h s ∧
      s.shared.data.usedCnt = n ∧ ∀ m < n, cstr (s.shared.data.objects m).name = [] := by
  obtain ⟨q, hq, hnext⟩ : ∃ q, Interleaving.Alone ((doitClient refill).program cacheSections)
      ⟨1, 1, 0, initCache fun _ ↦ ⟨[], []⟩⟩ ⟨.idle, ⟨x i, .start⟩⟩
      ⟨1, 1, 0, initCache fun _ ↦ ⟨[], []⟩⟩ ⟨.idle, q⟩ ∧
        Serving.next refill q = refill.next (x i) 0 := by
    rcases astray_of_not_orderly hi with hstart | ⟨line, headers, hparsable, hmissed⟩
    · exact ⟨_, .refl, hstart refill⟩
    · obtain ⟨hcstr, hne⟩ := hparsable.cstr_cacheKey
      refine ⟨_, alone_lookup refill hparsable fun k _ hname ↦ hne ?_, hmissed refill⟩
      rw [← hcstr, ← hname]
      rfl
  obtain ⟨c', q', hstores, -, hcnt, hnames⟩ := alone_refill n hnext
  obtain ⟨h, hs⟩ := (hq.trans hstores).steps (s := serveInitial (fun _ ↦ ⟨[], []⟩) x) (i := i)
  refine ⟨h, _, hs, hcnt.trans (Nat.zero_add n), fun m hm ↦ ?_⟩
  rw [← hnames m hm, initCache, Nat.zero_add]
  rfl

/-! ### Ten slots -/

/-- **`writer` keeps to the ten slots**: it is about to fill one of them whenever it is about to
fill any, no more than ten are counted, and every object stored is in a slot that `reader` scans. -/
structure WithinSlots (malloced : ℕ → CacheLine) (h : List (ι × Event Scan Store ScanEvent))
    (s : State ι (Shared Cache) (ClientThread Scan Store Serving)) : Prop where
  index : ∀ i y, (s.thread i).pc = .writing y → y.at' = .name ∨ y.at' = .object →
    s.shared.data.usedCnt < slots
  usedCnt_le : s.shared.data.usedCnt ≤ slots
  scanned : ∀ k y, (finished h)[k]? = some y →
    k < slots ∧ s.shared.data.objects k = (malloced k).fill y.uri y.buf

/-- The connections that can come to a store. -/
def storableThreads (x : ι → Connection) : Set ι := {i | ∃ key, StorableAs (x i) key}

theorem Entered.withinSlots {zs : List (ι × Store)} (hzs : Entered malloced x h s zs)
    (hcard : (storableThreads x).ncard ≤ slots) : WithinSlots malloced h s := by
  classical
  -- different threads, all of them among the ten
  have hle : ∀ l : List ι, l.Nodup → (∀ i ∈ l, i ∈ storableThreads x) → l.length ≤ slots := by
    intro l hl hmem
    have hsub : (l.toFinset : Set ι) ⊆ storableThreads x := fun i hi ↦
      hmem i (List.mem_toFinset.1 hi)
    have := Set.ncard_le_ncard hsub (Set.toFinite _)
    rw [Set.ncard_coe_finset, List.toFinset_card_of_nodup hl] at this
    exact this.trans hcard
  have hthreads : ∀ i ∈ zs.map Prod.fst, i ∈ storableThreads x := by
    intro i hi
    obtain ⟨z, hz, rfl⟩ := List.mem_map.1 hi
    exact ⟨_, hzs.storable z hz⟩
  have hlength := hle _ hzs.once hthreads
  rw [List.length_map, ← hzs.usedCnt] at hlength
  refine ⟨fun i y hy hat ↦ ?_, hlength, fun k y hy ↦ ?_⟩
  · obtain ⟨hi, hstorable⟩ := hzs.storing i y hy hat
    have hmore := hle (i :: zs.map Prod.fst) (List.nodup_cons.2 ⟨hi, hzs.once⟩) fun j hj ↦ by
      rcases List.mem_cons.1 hj with rfl | hj
      · exact ⟨_, hstorable⟩
      · exact hthreads j hj
    rw [List.length_cons, List.length_map, ← hzs.usedCnt] at hmore
    exact hmore
  · have hget : (zs.map Prod.snd)[k]? = some y := by
      obtain ⟨rest, hrest⟩ := hzs.finished
      rw [← hrest, List.getElem?_append_left (List.getElem?_eq_some_iff.1 hy).1, hy]
    rw [List.getElem?_map, Option.map_eq_some_iff] at hget
    obtain ⟨z, hz, rfl⟩ := hget
    have hk := (List.getElem?_eq_some_iff.1 hz).1
    rw [← hzs.usedCnt] at hk
    exact ⟨hk.trans_le hlength, hzs.objects k z hz⟩

/-- More connections than there are slots can overrun them. -/
theorem ncard_le_of_withinSlots (hall : ∀ stray malloced h s,
      Steps ((doitClient stray).program cacheSections) (serveInitial malloced x) h s →
        WithinSlots malloced h s) : (storableThreads x).ncard ≤ slots := by
  classical
  have hex : ∀ i ∈ storableThreads x, ∃ key, StorableAs (x i) key := fun i hi ↦ hi
  choose! key hkey using hex
  have hfin : (storableThreads x).Finite := Set.toFinite _
  obtain ⟨h, s, hs, hcnt, -⟩ := exists_run_storing hfin.toFinset.nodup_toList key fun i hi ↦
    hkey i (hfin.mem_toFinset.1 (Finset.mem_toList.1 hi))
  rw [Finset.length_toList, ← Set.ncard_eq_toFinset_card _ hfin] at hcnt
  rw [← hcnt]
  exact (hall (fun _ _ ↦ none) _ h s hs).usedCnt_le

omit [Fintype ι] in
/-- A connection that is not orderly can overrun them by itself. -/
theorem orderly_of_withinSlots (hall : ∀ stray malloced h s,
      Steps ((doitClient stray).program cacheSections) (serveInitial malloced x) h s →
        WithinSlots malloced h s) (i : ι) : (x i).Orderly := by
  by_contra hi
  obtain ⟨h, s, hs, hcnt, -⟩ := exists_run_astray hi (slots + 1)
  have hle := (hall _ _ h s hs).usedCnt_le
  omega

/-- **When the cache keeps to its slots**, in all interleavings, whatever `Malloc` returned and
whatever threads do that have gone astray: just if none goes astray, and at most ten of the
connections can come to a store. -/
theorem withinSlots_iff {ι : Type*} [DecidableEq ι] [Fintype ι] (x : ι → Connection) :
    (∀ stray malloced h s,
        Steps ((doitClient stray).program cacheSections) (serveInitial malloced x) h s →
        WithinSlots malloced h s) ↔
      (∀ i, (x i).Orderly) ∧ (storableThreads x).ncard ≤ slots := by
  refine ⟨fun hall ↦ ⟨orderly_of_withinSlots hall, ncard_le_of_withinSlots hall⟩, ?_⟩
  rintro ⟨horderly, hcard⟩ stray malloced h s hs
  obtain ⟨zs, hzs⟩ := entered_of_steps horderly hs
  exact hzs.withinSlots hcard

/-- `"GET http://h:1/b HTTP/1.0\r\n\r\n"`, for any byte `b`. -/
def pathRequest (b : UInt8) : List UInt8 :=
  [71, 69, 84, 32, 104, 116, 116, 112, 58, 47, 47, 104, 58, 49, 47, b, 32, 72, 84, 84, 80, 47, 49,
    46, 48, 13, 10, 13, 10]

/-- Eleven requests, for eleven paths. -/
def elevenPaths (i : Fin 11) : Connection :=
  zeroedConnection (pathRequest (97 + UInt8.ofNat i)) [97]

/-- A response of one byte to a request without headers is stored. -/
theorem storable_zeroed {client : List UInt8} {line : ReqLine}
    (hparse : parseRequest client = .ok (some (line, []))) (hkey : line.cacheKey.length < maxline)
    (hport : numericPort line.port = true)
    (hrequest : (requestPieces line []).flatten.length < maxline) :
    StorableAs (zeroedConnection client [97]) line.cacheKey := by
  refine ⟨line, [], ⟨parsable_iff.2 ⟨hparse, hkey⟩, hport, hrequest, ?_, ?_, ?_⟩, rfl⟩
  · exact relayFits_cons.2 ⟨by decide, fun _ _ _ h ↦ absurd h (by simp)⟩
  · exact (by decide : 1 < maxObjectSize)
  · exact fun h ↦ absurd h (by simp [zeroedConnection])

theorem storable_elevenPaths (i : Fin 11) :
    StorableAs (elevenPaths i) [104, 47, 97 + UInt8.ofNat i] := by
  have hparse : parseRequest (pathRequest (97 + UInt8.ofNat i)) =
      .ok (some (⟨[104], [49], [47, 97 + UInt8.ofNat i]⟩, [])) := by
    fin_cases i <;> rfl
  exact storable_zeroed hparse (show 3 < maxline by decide)
    (show numericPort [49] = true by decide) (show 19 < maxline by decide)

/-- **Eleven requests overrun the ten slots.** -/
theorem elevenPaths_overrun : ¬ ∀ stray malloced h s,
    Steps ((doitClient stray).program cacheSections) (serveInitial malloced elevenPaths) h s →
      WithinSlots malloced h s := by
  intro hall
  have hle := ncard_le_of_withinSlots hall
  have huniv : storableThreads elevenPaths = Set.univ :=
    Set.eq_univ_of_forall fun i ↦ ⟨_, storable_elevenPaths i⟩
  rw [huniv, Set.ncard_univ, Nat.card_eq_fintype_card, Fintype.card_fin] at hle
  exact absurd hle (by decide)

/-! ### Names -/

/-- Two threads with one request. -/
def twice (_ : Fin 2) : Connection := zeroedConnection (rootRequest 49) [97]

end CsappCode.ProxyLab
