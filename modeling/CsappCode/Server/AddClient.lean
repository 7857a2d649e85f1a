import CsappCode.Server.PoolInvariant

/-!
# Connections that find no room

There are two limits, the slots of the array and the descriptors that fit a `fd_set`. `add_client`
means to report too many clients, but its test is inside the loop whose bound it compares with. Here
the loop is written out, with that test, and with what `FD_SET` does to a descriptor out of range.

* `addClientLoop_eq` says that a loop that returns has done what `addClient` does.
* `add_client_handles_iff` says which connections are registered or rejected.
* `consistent_of_attainable` says that its hypothesis on the pool holds wherever the server gets to.
* `handled_of_reachable` says that all are handled while the descriptors fit the set.
* `overload_not_reported` is the pool that is full, and the descriptor behind it.

## What the results rest on

**What is handled.** A connection is `Handled` when it has got a slot, is watched, and has left the
pool consistent, or when `app_error` has been called. A loop that returns without either has
forgotten a descriptor that is open; a store outside the set is not followed any further.

**The pool** before the call is any that is `Consistent`: different descriptors in the slots in use,
none of them the listening one, within `maxi` and `maxfd`, and watched. The theorem is about one
call in such a pool, whether or not it occurs in a run.

**The descriptor** is one that `Accept` may return, which is to say one that is not open
(`Accepted`). Nothing is assumed about its size: that is half of the condition.

**The two limits meet.** A server whose descriptors all fit the set has at least as many slots as
descriptors, so the missing report is never missed there. It takes a descriptor from 1024 on, and
that one is out of range first.
-/

namespace CsappCode.SelectServer

/-! ### The loop -/

/-- How `add_client` can end: it returns, it calls `app_error`, or `FD_SET` writes outside the set,
after which nothing is known. -/
inductive AddOutcome where
  | returned (p : Pool)
  | tooManyClients
  | outsideSet

/-- The body of the loop at a free slot. -/
def Pool.store (p : Pool) (connfd : ℤ) (i : ℕ) : AddOutcome :=
  if 0 ≤ connfd ∧ connfd < fdSetsize then .returned (p.register connfd i) else .outsideSet

/-- The loop of `add_client` over the `m` slots from `i` on. -/
def addLoop (connfd : ℤ) : ℕ → ℕ → Pool → AddOutcome
  | 0, _, p => .returned p
  | m + 1, i, p =>
    if p.clientfd i < 0 then p.store connfd i
    else if i = fdSetsize then .tooManyClients
    else addLoop connfd m (i + 1) p

/-- `add_client`. -/
def addClientLoop (connfd : ℤ) (p : Pool) : AddOutcome :=
  addLoop connfd fdSetsize 0 { p with nready := p.nready - 1 }

/-- **The test for too many clients never succeeds.** The loop stops at the first free slot, or
returns behind the last slot. -/
theorem addLoop_eq (connfd : ℤ) (p : Pool) (m : ℕ) : ∀ {i : ℕ}, i + m ≤ fdSetsize →
    addLoop connfd m i p =
      ((List.range' i m).find? fun j ↦ p.clientfd j < 0).elim (.returned p) (p.store connfd) := by
  induction m with
  | zero => exact fun _ ↦ rfl
  | succ m ih =>
    intro i hi
    rw [addLoop, List.range'_succ, List.find?_cons]
    by_cases hneg : p.clientfd i < 0
    · rw [if_pos hneg, decide_eq_true hneg]
      rfl
    · rw [if_neg hneg, decide_eq_false hneg, if_neg (by omega), ih (by omega)]

theorem addClientLoop_eq_elim (connfd : ℤ) (p : Pool) : addClientLoop connfd p =
    p.freeSlot.elim (.returned { p with nready := p.nready - 1 })
      (Pool.store { p with nready := p.nready - 1 } connfd) := by
  rw [addClientLoop, addLoop_eq connfd _ _ (by simp), Pool.freeSlot, List.range_eq_range']

/-- Without a free slot the function returns, and nothing is reported. -/
theorem addClientLoop_of_full (connfd : ℤ) {p : Pool} (hfull : ∀ i < fdSetsize, 0 ≤ p.clientfd i) :
    addClientLoop connfd p = .returned { p with nready := p.nready - 1 } := by
  rcases hslot : p.freeSlot with - | i
  · rw [addClientLoop_eq_elim, hslot, Option.elim_none]
  · obtain ⟨hneg, hlt⟩ := freeSlot_eq_some hslot
    exact absurd (hfull i hlt) (by omega)

theorem addClientLoop_of_free {connfd : ℤ} {p : Pool} {i : ℕ} (hslot : p.freeSlot = some i) :
    addClientLoop connfd p = Pool.store { p with nready := p.nready - 1 } connfd i := by
  rw [addClientLoop_eq_elim, hslot, Option.elim_some]

/-- With a descriptor in range the loop does what `addClient` does. -/
theorem addClientLoop_eq {connfd : ℤ} (hpos : 0 ≤ connfd) (hlt : connfd < fdSetsize) (p : Pool) :
    addClientLoop connfd p = .returned (addClient connfd p) := by
  have hadd : addClient connfd p =
      p.freeSlot.elim { p with nready := p.nready - 1 }
        (Pool.register { p with nready := p.nready - 1 } connfd) := rfl
  rw [addClientLoop_eq_elim, hadd]
  rcases p.freeSlot with - | i
  · rfl
  · rw [Option.elim_some, Option.elim_some, Pool.store, if_pos ⟨hpos, hlt⟩]

/-! ### Consistent pools -/

/-- **A consistent pool**: the slots in use hold different descriptors, none of them the listening
one, with fresh buffers and within `maxi` and `maxfd`; and the set watches these descriptors and the
listening one. -/
structure Consistent (listenfd : ℤ) (p : Pool) : Prop where
  inUse : ∀ i < fdSetsize, 0 ≤ p.clientfd i → p.clientfd i ≠ listenfd ∧
    p.clientrio i = rioReadinitb (p.clientfd i) ∧ (i : ℤ) ≤ p.maxi ∧ p.clientfd i ≤ p.maxfd
  injective : ∀ i < fdSetsize, ∀ j < fdSetsize, 0 ≤ p.clientfd i →
    p.clientfd i = p.clientfd j → i = j
  readSet : ∀ fd, fd ∈ p.readSet ↔ fd = listenfd ∨ ∃ i < fdSetsize, p.Stores i fd
  maxfd : listenfd ≤ p.maxfd

/-- What `Accept` may return: a descriptor that is not open, so neither the listening one nor one of
a client. -/
structure Accepted (listenfd : ℤ) (p : Pool) (connfd : ℤ) : Prop where
  nonneg : 0 ≤ connfd
  client : connfd ≠ listenfd
  unused : ∀ i < fdSetsize, p.clientfd i ≠ connfd

/-- **The connection is handled.** It is stored in a slot and watched, in range of the set, and the
pool stays consistent; or there are too many clients and `app_error` says so. -/
def Handled (listenfd connfd : ℤ) (p : Pool) : Prop :=
  match addClientLoop connfd p with
  | .returned p' => (∃ i < fdSetsize, p'.clientfd i = connfd) ∧ connfd ∈ p'.readSet ∧
      connfd < fdSetsize ∧ (Consistent listenfd p → Consistent listenfd p')
  | .tooManyClients => True
  | .outsideSet => False

/-- A pool stays consistent when a new descriptor is registered in a free slot. -/
theorem Consistent.register {listenfd connfd : ℤ} {p : Pool} {i : ℕ} (h : Consistent listenfd p)
    (hfd : Accepted listenfd p connfd) (hlt : i < fdSetsize) (hneg : p.clientfd i < 0) :
    Consistent listenfd (p.register connfd i) := by
  have hclientfd : (p.register connfd i).clientfd = Function.update p.clientfd i connfd := rfl
  have hmaxfd : p.maxfd ≤ (p.register connfd i).maxfd ∧ connfd ≤ (p.register connfd i).maxfd := by
    simp only [Pool.register]
    split_ifs <;> omega
  have hmaxi : p.maxi ≤ (p.register connfd i).maxi ∧ (i : ℤ) ≤ (p.register connfd i).maxi := by
    simp only [Pool.register]
    split_ifs <;> omega
  refine ⟨fun j hj hpos ↦ ?_, fun j hj k hk hpos heq ↦ ?_, fun fd ↦ ?_, h.maxfd.trans hmaxfd.1⟩
  · obtain ⟨rfl, hnew⟩ | ⟨hne, hsame⟩ := clientfd_cases hclientfd j
    · rw [hnew]
      exact ⟨hfd.client, Function.update_self .., hmaxi.2, hmaxfd.2⟩
    · rw [hsame] at hpos ⊢
      obtain ⟨hclient, hrio, hi, hle⟩ := h.inUse j hj hpos
      exact ⟨hclient, (Function.update_of_ne hne ..).trans hrio, hi.trans hmaxi.1,
        hle.trans hmaxfd.1⟩
  · obtain ⟨rfl, hnew⟩ | ⟨-, hsame⟩ := clientfd_cases hclientfd j <;>
      obtain ⟨rfl, hnew'⟩ | ⟨-, hsame'⟩ := clientfd_cases hclientfd k
    · rfl
    · rw [hnew, hsame'] at heq
      exact absurd heq.symm (hfd.unused k hk)
    · rw [hsame, hnew'] at heq
      exact absurd heq (hfd.unused j hj)
    · rw [hsame] at hpos
      rw [hsame, hsame'] at heq
      exact h.injective j hj k hk hpos heq
  · have hreadSet : (p.register connfd i).readSet = insert connfd p.readSet := rfl
    rw [hreadSet, Finset.mem_insert, h.readSet]
    constructor
    · rintro (rfl | rfl | ⟨j, hj, hpos, hstored⟩)
      · exact .inr ⟨i, hlt, hfd.nonneg, by rw [hclientfd, Function.update_self]⟩
      · exact .inl rfl
      · have hne : j ≠ i := by
          rintro rfl
          omega
        exact .inr ⟨j, hj, hpos, by rw [hclientfd, Function.update_of_ne hne, hstored]⟩
    · rintro (rfl | ⟨j, hj, hpos, hstored⟩)
      · exact .inr (.inl rfl)
      · obtain ⟨-, hnew⟩ | ⟨-, hsame⟩ := clientfd_cases hclientfd j
        · exact .inl (hstored.symm.trans hnew)
        · exact .inr (.inr ⟨j, hj, hpos, hsame.symm.trans hstored⟩)

theorem Consistent.setNready {listenfd : ℤ} {p : Pool} (h : Consistent listenfd p) (n : ℤ) :
    Consistent listenfd { p with nready := n } :=
  ⟨h.inUse, h.injective, h.readSet, h.maxfd⟩

/-! ### Which connections are handled -/

section Handled

variable {listenfd connfd : ℤ} {p : Pool}

/-- Without a free slot the connection is dropped without a word. -/
theorem not_handled_of_full (hfd : Accepted listenfd p connfd)
    (hfull : ∀ i < fdSetsize, 0 ≤ p.clientfd i) : ¬ Handled listenfd connfd p := by
  rw [Handled, addClientLoop_of_full connfd hfull]
  rintro ⟨⟨i, hi, hstored⟩, -⟩
  exact hfd.unused i hi hstored

/-- A descriptor that does not fit the set is dropped, or written outside. -/
theorem not_handled_of_fdSetsize_le (hfd : Accepted listenfd p connfd) (hle : fdSetsize ≤ connfd) :
    ¬ Handled listenfd connfd p := by
  rcases hslot : p.freeSlot with - | i
  · exact not_handled_of_full hfd (freeSlot_eq_none hslot)
  · rw [Handled, addClientLoop_of_free hslot, Pool.store, if_neg (by omega)]
    exact id

theorem handled_of_free {i : ℕ} (hfd : Accepted listenfd p connfd) (hslot : p.freeSlot = some i)
    (hlt : connfd < fdSetsize) : Handled listenfd connfd p := by
  obtain ⟨hneg, hi⟩ := freeSlot_eq_some hslot
  rw [Handled, addClientLoop_of_free hslot, Pool.store, if_pos ⟨hfd.nonneg, hlt⟩]
  refine ⟨⟨i, hi, Function.update_self ..⟩, Finset.mem_insert_self .., hlt, fun h ↦ ?_⟩
  exact (h.setNready _).register ⟨hfd.nonneg, hfd.client, hfd.unused⟩ hi hneg

/-- **Which connections are handled**: those that find a free slot and whose descriptor fits the
set. The others are dropped without a word, or written outside the set. -/
theorem add_client_handles_iff (hfd : Accepted listenfd p connfd) : Handled listenfd connfd p ↔
    (∃ i < fdSetsize, p.clientfd i < 0) ∧ connfd < fdSetsize := by
  constructor
  · intro h
    refine ⟨?_, lt_of_not_ge fun hle ↦ not_handled_of_fdSetsize_le hfd hle h⟩
    by_contra hnone
    push Not at hnone
    exact not_handled_of_full hfd hnone h
  · rintro ⟨⟨i, hi, hneg⟩, hlt⟩
    rcases hslot : p.freeSlot with - | j
    · exact absurd (freeSlot_eq_none hslot i hi) (by omega)
    · exact handled_of_free hfd hslot hlt

end Handled

/-- The first client of a server that listens on descriptor 3. -/
theorem add_client_handles_first : Handled 3 4 (initPool 3) ↔
    (∃ i < fdSetsize, (initPool 3).clientfd i < 0) ∧ (4 : ℤ) < fdSetsize :=
  add_client_handles_iff ⟨by decide, by decide, fun _ _ ↦ (by decide : (-1 : ℤ) ≠ 4)⟩

/-- The pool of a server that listens on descriptor 3, with `n` clients on the descriptors behind
it. -/
def firstClients (n : ℕ) : Pool where
  maxfd := n + 3
  readSet := (Finset.range (n + 1)).image fun i : ℕ ↦ (i : ℤ) + 3
  readySet := ∅
  nready := 1
  maxi := n - 1
  clientfd := fun i ↦ if i < n then i + 4 else -1
  clientrio := fun i ↦ if i < n then rioReadinitb (i + 4) else ⟨0, []⟩

theorem consistent_firstClients {n : ℕ} (hn : n ≤ fdSetsize) : Consistent 3 (firstClients n) where
  inUse i _ hpos := by
    simp only [firstClients] at hpos ⊢
    split_ifs at hpos ⊢ with hi
    · exact ⟨by omega, rfl, by omega, by omega⟩
    · omega
  injective i _ j _ hpos heq := by
    simp only [firstClients] at hpos heq
    split_ifs at hpos heq <;> omega
  readSet fd := by
    simp only [firstClients, Finset.mem_image, Finset.mem_range, Pool.Stores]
    constructor
    · rintro ⟨i, hi, rfl⟩
      rcases i with - | i
      · exact .inl rfl
      · exact .inr ⟨i, by omega, by omega, by rw [if_pos (by omega)]; omega⟩
    · rintro (rfl | ⟨i, -, hpos, heq⟩)
      · exact ⟨0, Nat.succ_pos n, rfl⟩
      · split_ifs at heq with hi
        · exact ⟨i + 1, by omega, by omega⟩
        · omega
  maxfd := by
    simp only [firstClients]
    omega

theorem accepted_firstClients {n : ℕ} {connfd : ℤ} (hfd : connfd = n + 4) :
    Accepted 3 (firstClients n) connfd where
  nonneg := by omega
  client := by omega
  unused i _ := by
    simp only [firstClients]
    split_ifs <;> omega

theorem full_firstClients : ∀ i < fdSetsize, 0 ≤ (firstClients fdSetsize).clientfd i := by
  intro i hi
  simp only [firstClients, if_pos hi]
  omega

/-- Of 1025 clients the last one finds no slot and is dropped. And before it comes to that, the one
that gets the descriptor 1024 is written outside the set. -/
theorem overload_not_reported :
    (Consistent 3 (firstClients fdSetsize) ∧ Accepted 3 (firstClients fdSetsize) 1028 ∧
      ¬ Handled 3 1028 (firstClients fdSetsize)) ∧
    (Consistent 3 (firstClients 1020) ∧ Accepted 3 (firstClients 1020) 1024 ∧
      ¬ Handled 3 1024 (firstClients 1020)) := by
  have hfull : Accepted 3 (firstClients fdSetsize) 1028 := accepted_firstClients (by decide)
  have hlarge : Accepted 3 (firstClients 1020) 1024 := accepted_firstClients (by decide)
  exact ⟨⟨consistent_firstClients le_rfl, hfull, not_handled_of_full hfull full_firstClients⟩,
    consistent_firstClients (by decide), hlarge, not_handled_of_fdSetsize_le hlarge le_rfl⟩

/-! ### The pools of the server -/

variable {listenfd : ℤ} {s s' : Server}

/-- No slot behind the array is in use. -/
def Pool.InArray (p : Pool) : Prop := ∀ i, fdSetsize ≤ i → p.clientfd i < 0

theorem Pool.InArray.update {p p' : Pool} {i : ℕ} {v : ℤ} (h : p.InArray)
    (hp : p'.clientfd = Function.update p.clientfd i v) (hi : i < fdSetsize ∨ v < 0) :
    p'.InArray := by
  intro j hj
  obtain ⟨rfl, hnew⟩ | ⟨-, hsame⟩ := clientfd_cases hp j
  · rw [hnew]
    exact hi.resolve_left (by omega)
  · rw [hsame]
    exact h j hj

theorem Pool.InArray.turn {i : ℕ} (hs : Slotted listenfd s) (h : s.pool.InArray)
    (hturn : s.checkClient i = some s') : s'.pool.InArray := by
  rcases checkClient_cases hs.fresh hturn with ⟨-, rfl⟩ | ⟨-, k, c, c', -, -, -, -, -, -, hpool⟩
  · exact h
  · rw [hpool, Pool.afterTurn]
    split_ifs
    · exact h.update rfl (.inr (by decide))
    · exact h

theorem Pool.InArray.accepting (h : s.pool.InArray) (listenfd : ℤ) (r : Round) :
    (s.accepting listenfd r).pool.InArray := by
  rw [Server.accepting]
  split_ifs
  · obtain ⟨i, -, hi, hadd⟩ | ⟨-, hadd⟩ := addClient_cases r.accepted (s.select r.ready).pool
    · rw [Server.accept, hadd]
      exact h.update rfl (.inl hi)
    · rw [Server.accept, hadd]
      exact h
  · exact h

theorem inArray_of_attainable (h : Attainable listenfd s) : s.pool.InArray := by
  induction h with
  | start => exact fun _ _ ↦ (by decide : (-1 : ℤ) < 0)
  | @round s s' r hreach hr hround ih =>
    rw [round_eq, Server.checkClients] at hround
    have hs := (slotted_of_attainable hreach).accepting hr
    have hboth := checkFrom_invariant (I := fun s ↦ Slotted listenfd s ∧ s.pool.InArray)
      (fun hI hturn ↦ ⟨hI.1.turn hturn, hI.2.turn hI.1 hturn⟩) _ ⟨hs, ih.accepting listenfd r⟩
      hround
    exact hboth.2

/-- **The pools that occur are consistent**, whatever the descriptors. -/
theorem consistent_of_attainable (h : Attainable listenfd s) : Consistent listenfd s.pool where
  inUse i _ hpos := by
    have hs := slotted_of_attainable h
    have huse := hs.inUse i hpos
    exact ⟨huse.client, hs.fresh i (by have := huse.standard; omega), huse.maxi, huse.maxfd⟩
  injective i _ j _ := (slotted_of_attainable h).injective i j
  readSet fd := by
    rw [(slotted_of_attainable h).readSet]
    refine or_congr_right ⟨?_, fun ⟨i, _, hi⟩ ↦ ⟨i, hi⟩⟩
    rintro ⟨i, hpos, rfl⟩
    exact ⟨i, lt_of_not_ge fun hi ↦ by have := inArray_of_attainable h i hi; omega, hpos, rfl⟩
  maxfd := (slotted_of_attainable h).maxfd

/-- **While the descriptors fit the set every connection is handled**: there are more slots than
descriptors. -/
theorem handled_of_reachable (h : Reachable listenfd s) {r : Round} (hr : r.Valid s listenfd)
    (hready : listenfd ∈ r.ready) : Handled listenfd r.accepted s.pool := by
  obtain ⟨hstd, hlt, hclient, hopen⟩ := hr.accepted hready
  have hs := slotted_of_attainable h.attainable
  have hunused : ∀ i < fdSetsize, s.pool.clientfd i ≠ r.accepted := by
    intro i _ heq
    have huse := hs.inUse i (by omega)
    exact openOn_eq_none_iff.1 hopen (heq ▸ huse.opened)
  rcases hslot : s.pool.freeSlot with - | i
  · exact absurd (freeSlot_eq_none hslot) ((complete_of_reachable h).exists_free hs)
  · exact handled_of_free ⟨by omega, hclient, hunused⟩ hslot hlt

end CsappCode.SelectServer
