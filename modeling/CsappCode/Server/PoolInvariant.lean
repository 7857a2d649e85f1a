import CsappCode.Server.Echo
import Mathlib.Order.Interval.Finset.Defs
import Mathlib.Data.Int.Interval

/-!
# What the pool represents

The array of slots, the set of descriptors watched, `maxi` and `maxfd` are kept by three functions.
`Slotted` is what they keep together: the slots in use hold different descriptors, all of them open
and watched, below `maxi` and `maxfd`. When all descriptors are below `FD_SETSIZE`, moreover, a new
connection always finds a slot, so that every open one is in the pool (`Complete`).

* `checkClient_cases` says what a turn of `check_clients` can do, and `addClient_cases` what
  `add_client` can.
* `slotted_of_attainable` and `complete_of_reachable` are the invariants.
* `pool_represents` puts them together.

## Two kinds of states

**Reachable states** are those of runs in which `Accept` returns descriptors below `FD_SETSIZE`. For
these everything is proved: the pool is what it should be between the rounds, after `add_client`,
and after every turn of the scan.

**Attainable states** are those of runs with descriptors of any size, in which the set of
descriptors is taken to be a set of any integers. Every reachable state is attainable. They serve
for what does not depend on the size of a descriptor, and nothing is claimed of the code for a
descriptor that does not fit: what `FD_SET` does then is said in `AddClient`.

## The argument

`Slotted` is kept turn by turn. A turn passes by a slot, or serves it, or frees it together with its
descriptor; the new connection goes to the first free slot. That there is one follows from counting:
1024 slots in use hold 1024 different descriptors, none of them one of the standard three, and fewer
than that fit the set.
-/

namespace CsappCode.SelectServer

open Csapp

/-! ### Turns of the loop -/

/-- The slot holds a client that is ready. -/
def Pool.Ready (p : Pool) (i : ℕ) : Prop := 0 < p.clientfd i ∧ p.clientfd i ∈ p.readySet

instance (p : Pool) (i : ℕ) : Decidable (p.Ready i) := inferInstanceAs (Decidable (_ ∧ _))

/-- The pool after a turn at the slot of a ready client. -/
def Pool.afterTurn (p : Pool) (i : ℕ) (closed : Bool) : Pool :=
  if closed then
    { p with
      nready := p.nready - 1
      readSet := p.readSet.erase (p.clientfd i)
      clientfd := Function.update p.clientfd i (-1) }
  else { p with nready := p.nready - 1 }

theorem serve_fd {c c' : Client} (h : c.serve = some c') : c'.fd = c.fd := by
  rw [Client.serve] at h
  split at h
  · exact absurd h (by simp)
  · obtain rfl := Option.some.inj h
    rfl
  · obtain rfl := Option.some.inj h
    rfl

theorem modify_eq_set_of_getElem? {l : List Client} {k : ℕ} {c : Client} (h : l[k]? = some c)
    (f : Client → Client) : l.modify k f = l.set k (f c) := by
  refine List.ext_getElem? fun j ↦ ?_
  rw [List.getElem?_modify, List.getElem?_set]
  rcases eq_or_ne k j with rfl | hne
  · rw [h, if_pos rfl, if_pos (List.getElem?_eq_some_iff.1 h).1]
    simp
  · simp [hne]

/-- **What a turn can do.** It passes by a slot whose client is not ready. It serves a client that
is, and frees the slot if that was the end. -/
theorem checkClient_cases {s s' : Server} {i : ℕ} (hfresh : FreshBuffers s.pool)
    (h : s.checkClient i = some s') :
    (¬ s.pool.Ready i ∧ s' = s) ∨
    (s.pool.Ready i ∧ ∃ k c c', s.openOn (s.pool.clientfd i) = some k ∧ s.clients[k]? = some c ∧
      c.closed = false ∧ c.fd = s.pool.clientfd i ∧ c.serve = some c' ∧
      s'.clients = s.clients.set k c' ∧ s'.pool = s.pool.afterTurn i c'.closed) := by
  rw [Server.checkClient] at h
  split_ifs at h with hready
  · refine .inr ⟨hready, ?_⟩
    rw [hfresh i hready.1] at h
    split at h
    · exact absurd h (by simp)
    · -- the end of file
      rename_i s₁ hread
      obtain ⟨k, c₀, unread, rest, hk, hc, hfd, hopen, hline, rfl⟩ := readlineb_eq_some hread
      obtain rfl := Option.some.inj h
      refine ⟨k, c₀, (c₀.consume rest).close, hk, hc, hopen, hfd, by rw [Client.serve, hline],
        ?_, ?_⟩
      · rw [Server.release, onFd_consume s.countDown hk, modify_eq_set_of_getElem? hc]
        rfl
      · rw [Server.release, onFd_pool]
        rfl
    · rename_i line s₁ hne hread
      obtain ⟨k, c₀, unread, rest, hk, hc, hfd, hopen, hline, rfl⟩ := readlineb_eq_some hread
      obtain rfl := Option.some.inj h
      refine ⟨k, c₀, (c₀.consume rest).echo line, hk, hc, hopen, hfd, ?_, ?_, ?_⟩
      · rw [Client.serve, hline]
        cases line with
        | nil => exact absurd rfl hne
        | cons b bs => rfl
      · rw [Server.writeLine, onFd_consume s.countDown hk, modify_eq_set_of_getElem? hc]
        rfl
      · rw [Server.writeLine, onFd_pool, onFd_pool, show ((c₀.consume rest).echo line).closed =
          c₀.closed from rfl, hopen]
        rfl
  · exact .inl ⟨hready, (Option.some.inj h).symm⟩

/-! ### Open connections -/

/-- Some connection on the descriptor is open. -/
def IsOpen (l : List Client) (fd : ℤ) : Prop :=
  ∃ (k : ℕ) (c : Client), l[k]? = some c ∧ c.fd = fd ∧ c.closed = false

/-- At most one connection on each descriptor is. -/
def OneOpen (l : List Client) : Prop :=
  ∀ (j k : ℕ) (c c' : Client), l[j]? = some c → l[k]? = some c' →
    c.fd = c'.fd → c.closed = false → c'.closed = false → j = k

theorem openOn_eq_none_iff {s : Server} {fd : ℤ} : s.openOn fd = none ↔ ¬ IsOpen s.clients fd := by
  rw [Server.openOn, List.findIdx?_eq_none_iff]
  constructor
  · rintro hnone ⟨k, c, hc, hfd, hopen⟩
    exact absurd (hnone c (List.mem_of_getElem? hc)) (by simp [hfd, hopen])
  · intro hnot c hc
    obtain ⟨k, hk⟩ := List.mem_iff_getElem?.1 hc
    rcases hopen : c.closed
    · have hfd : c.fd ≠ fd := fun hfd ↦ hnot ⟨k, c, hk, hfd, hopen⟩
      simp [hfd]
    · simp

variable {l : List Client} {k : ℕ} {c c' : Client}

/-- What is open after a turn was open before. -/
theorem exists_of_set_open (hc : l[k]? = some c) (hfd : c'.fd = c.fd) (hopen : c.closed = false)
    {j : ℕ} {d : Client} (hd : (l.set k c')[j]? = some d) (hdopen : d.closed = false) :
    ∃ e, l[j]? = some e ∧ e.fd = d.fd ∧ e.closed = false := by
  rw [List.getElem?_set] at hd
  split_ifs at hd with hkj
  · obtain rfl := Option.some.inj hd
    exact ⟨c, hkj ▸ hc, hfd.symm, hopen⟩
  · exact ⟨d, hd, rfl, hdopen⟩

theorem OneOpen.set (h : OneOpen l) (hc : l[k]? = some c) (hfd : c'.fd = c.fd)
    (hopen : c.closed = false) : OneOpen (l.set k c') := by
  intro i j d d' hd hd' hsame hdopen hdopen'
  obtain ⟨e, he, hefd, heopen⟩ := exists_of_set_open hc hfd hopen hd hdopen
  obtain ⟨e', he', hefd', heopen'⟩ := exists_of_set_open hc hfd hopen hd' hdopen'
  exact h i j e e' he he' (hefd.trans (hsame.trans hefd'.symm)) heopen heopen'

/-- A turn closes at most the descriptor it is about. -/
theorem IsOpen.set {fd : ℤ} (h : IsOpen l fd) (hc : l[k]? = some c) (hfd : c'.fd = c.fd)
    (hkept : fd = c.fd → c'.closed = false) : IsOpen (l.set k c') fd := by
  obtain ⟨j, d, hd, hdfd, hdopen⟩ := h
  rcases eq_or_ne k j with rfl | hne
  · obtain rfl : c = d := Option.some.inj (hc.symm.trans hd)
    have hk := (List.getElem?_eq_some_iff.1 hc).1
    exact ⟨k, c', List.getElem?_set_self hk, hfd.trans hdfd, hkept hdfd.symm⟩
  · exact ⟨j, d, by rw [List.getElem?_set_ne hne, hd], hdfd, hdopen⟩

theorem IsOpen.append {fd : ℤ} (h : IsOpen l fd) (l' : List Client) : IsOpen (l ++ l') fd := by
  obtain ⟨j, d, hd, hfd, hopen⟩ := h
  exact ⟨j, d, by rw [List.getElem?_append_left (List.getElem?_eq_some_iff.1 hd).1, hd], hfd, hopen⟩

theorem isOpen_concat (l : List Client) (hopen : c.closed = false) : IsOpen (l ++ [c]) c.fd :=
  ⟨l.length, c, List.getElem?_concat_length, rfl, hopen⟩

/-- A connection accepted is the only one open on its descriptor. -/
theorem OneOpen.concat (h : OneOpen l) (hfree : ¬ IsOpen l c.fd) : OneOpen (l ++ [c]) := by
  have hlast : ∀ {j : ℕ} {d : Client}, (l ++ [c])[j]? = some d →
      l[j]? = some d ∨ j = l.length ∧ d = c := by
    intro j d hd
    rw [List.getElem?_append] at hd
    split_ifs at hd with hlt
    · exact .inl hd
    · rw [List.getElem?_singleton] at hd
      split_ifs at hd
      exact .inr ⟨by omega, (Option.some.inj hd).symm⟩
  intro i j d d' hd hd' hsame hopen hopen'
  rcases hlast hd with hold | ⟨rfl, rfl⟩
  · rcases hlast hd' with hold' | ⟨rfl, rfl⟩
    · exact h i j d d' hold hold' hsame hopen hopen'
    · exact absurd ⟨i, d, hold, hsame, hopen⟩ hfree
  · rcases hlast hd' with hold' | ⟨rfl, -⟩
    · exact absurd ⟨j, d', hold', hsame.symm, hopen'⟩ hfree
    · rfl

/-! ### The slots -/

/-- The descriptor is stored in the slot. -/
def Pool.Stores (p : Pool) (i : ℕ) (fd : ℤ) : Prop := 0 ≤ fd ∧ p.clientfd i = fd

/-- A slot in use: a client's open descriptor, within the bounds kept for the scan and for
`Select`. -/
structure InUse (listenfd : ℤ) (s : Server) (i : ℕ) : Prop where
  standard : 3 ≤ s.pool.clientfd i
  client : s.pool.clientfd i ≠ listenfd
  opened : IsOpen s.clients (s.pool.clientfd i)
  maxi : (i : ℤ) ≤ s.pool.maxi
  maxfd : s.pool.clientfd i ≤ s.pool.maxfd

/-- **The invariant of the pool.** -/
structure Slotted (listenfd : ℤ) (s : Server) : Prop where
  fresh : FreshBuffers s.pool
  inUse : ∀ i, 0 ≤ s.pool.clientfd i → InUse listenfd s i
  injective : ∀ i j, 0 ≤ s.pool.clientfd i → s.pool.clientfd i = s.pool.clientfd j → i = j
  readSet : ∀ fd, fd ∈ s.pool.readSet ↔ fd = listenfd ∨ ∃ i, s.pool.Stores i fd
  maxi : -1 ≤ s.pool.maxi
  maxfd : listenfd ≤ s.pool.maxfd
  oneOpen : OneOpen s.clients

variable {listenfd : ℤ} {s s' : Server}

theorem slotted_initial (listenfd : ℤ) : Slotted listenfd (initial listenfd) where
  fresh := fun i hi ↦ absurd hi (by simp [initial, initPool])
  inUse := fun i hi ↦ absurd hi (by simp [initial, initPool])
  injective := fun i j hi ↦ absurd hi (by simp [initial, initPool])
  readSet := fun fd ↦ by
    refine Finset.mem_singleton.trans ⟨.inl, ?_⟩
    rintro (rfl | ⟨i, hpos, hi⟩)
    · rfl
    · exact absurd (hi ▸ hpos) (by simp [initial, initPool])
  maxi := le_rfl
  maxfd := le_rfl
  oneOpen := fun j k c c' hc ↦ absurd hc (by simp [initial])

/-! ### One slot rewritten -/

section Update

variable {p p' : Pool} {i : ℕ} {v : ℤ}

theorem clientfd_cases (hp : p'.clientfd = Function.update p.clientfd i v) (j : ℕ) :
    (j = i ∧ p'.clientfd j = v) ∨ (j ≠ i ∧ p'.clientfd j = p.clientfd j) := by
  rw [hp]
  rcases eq_or_ne j i with rfl | hne
  · exact .inl ⟨rfl, Function.update_self ..⟩
  · exact .inr ⟨hne, Function.update_of_ne hne ..⟩

/-- What is stored after a slot has been rewritten: the new descriptor, and those of the other
slots. -/
theorem exists_stores_update (hp : p'.clientfd = Function.update p.clientfd i v) (fd : ℤ) :
    (∃ j, p'.Stores j fd) ↔ (0 ≤ fd ∧ v = fd) ∨ ∃ j, j ≠ i ∧ p.Stores j fd := by
  refine ⟨fun ⟨j, hpos, hj⟩ ↦ ?_, ?_⟩
  · obtain ⟨-, hnew⟩ | ⟨hne, hsame⟩ := clientfd_cases hp j
    · exact .inl ⟨hpos, hnew.symm.trans hj⟩
    · exact .inr ⟨j, hne, hpos, hsame.symm.trans hj⟩
  · rintro (⟨hpos, rfl⟩ | ⟨j, hne, hpos, hj⟩)
    · exact ⟨i, hpos, by rw [hp, Function.update_self]⟩
    · exact ⟨j, hpos, by rw [hp, Function.update_of_ne hne, hj]⟩

end Update

/-- What is watched when a slot has been freed and its descriptor removed. -/
theorem Slotted.mem_erase_readSet {i : ℕ} (h : Slotted listenfd s) (hi : 0 ≤ s.pool.clientfd i)
    (fd : ℤ) : fd ∈ s.pool.readSet.erase (s.pool.clientfd i) ↔
      fd = listenfd ∨ ∃ j, j ≠ i ∧ s.pool.Stores j fd := by
  rw [Finset.mem_erase, h.readSet]
  refine ⟨?_, ?_⟩
  · rintro ⟨hne, rfl | ⟨j, hpos, rfl⟩⟩
    · exact .inl rfl
    · exact .inr ⟨j, fun heq ↦ hne (by rw [heq]), hpos, rfl⟩
  · rintro (rfl | ⟨j, hne, hpos, rfl⟩)
    · exact ⟨(h.inUse i hi).client.symm, .inl rfl⟩
    · exact ⟨fun heq ↦ hne (h.injective i j hi heq.symm).symm, .inr ⟨j, hpos, rfl⟩⟩

/-- What is watched when a descriptor has been added and put into a free slot. -/
theorem Slotted.mem_insert_readSet {i : ℕ} {v : ℤ} (h : Slotted listenfd s) (hv : 0 ≤ v)
    (hneg : s.pool.clientfd i < 0) (fd : ℤ) : fd ∈ insert v s.pool.readSet ↔
      fd = listenfd ∨ (0 ≤ fd ∧ v = fd) ∨ ∃ j, j ≠ i ∧ s.pool.Stores j fd := by
  rw [Finset.mem_insert, h.readSet]
  refine ⟨?_, ?_⟩
  · rintro (rfl | rfl | ⟨j, hpos, rfl⟩)
    · exact .inr (.inl ⟨hv, rfl⟩)
    · exact .inl rfl
    · refine .inr (.inr ⟨j, fun heq ↦ ?_, hpos, rfl⟩)
      rw [heq] at hpos
      omega
  · rintro (rfl | ⟨-, rfl⟩ | ⟨j, -, hpos, rfl⟩)
    · exact .inr (.inl rfl)
    · exact .inl rfl
    · exact .inr (.inr ⟨j, hpos, rfl⟩)

/-! ### A round keeps the invariant -/

theorem Slotted.select (h : Slotted listenfd s) (ready : Finset ℤ) :
    Slotted listenfd (s.select ready) :=
  ⟨h.fresh, fun i hi ↦ ⟨(h.inUse i hi).standard, (h.inUse i hi).client, (h.inUse i hi).opened,
    (h.inUse i hi).maxi, (h.inUse i hi).maxfd⟩, h.injective, h.readSet, h.maxi, h.maxfd, h.oneOpen⟩

/-- A turn that leaves the connection open changes nothing in the pool but the count. -/
theorem Slotted.served {i : ℕ} (h : Slotted listenfd s) (hc : s.clients[k]? = some c)
    (hopen : c.closed = false) (hfd : c'.fd = c.fd) (hclients : s'.clients = s.clients.set k c')
    (hopen' : c'.closed = false) (hpool : s'.pool = s.pool.afterTurn i c'.closed) :
    Slotted listenfd s' := by
  rw [hopen'] at hpool
  refine ⟨?_, fun j hj ↦ ?_, ?_, ?_, ?_, ?_, ?_⟩
  · rw [hpool]
    exact h.fresh
  · rw [hpool] at hj
    obtain ⟨hstd, hclient, hisopen, hmaxi, hmaxfd⟩ := h.inUse j hj
    refine ⟨?_, ?_, ?_, ?_, ?_⟩
    case refine_3 =>
      rw [hclients, hpool]
      exact hisopen.set hc hfd fun _ ↦ hopen'
    all_goals
      rw [hpool]
      assumption
  · rw [hpool]
    exact h.injective
  · rw [hpool]
    exact h.readSet
  · rw [hpool]
    exact h.maxi
  · rw [hpool]
    exact h.maxfd
  · rw [hclients]
    exact h.oneOpen.set hc hfd hopen

/-- A turn that closes the connection frees its slot. -/
theorem Slotted.freed {i : ℕ} (h : Slotted listenfd s) (hc : s.clients[k]? = some c)
    (hopen : c.closed = false) (hfd : c'.fd = c.fd) (hclients : s'.clients = s.clients.set k c')
    (hclosed : c'.closed = true) (hpool : s'.pool = s.pool.afterTurn i c'.closed)
    (hi : 0 ≤ s.pool.clientfd i) (hslot : c.fd = s.pool.clientfd i) : Slotted listenfd s' := by
  rw [hclosed] at hpool
  have hclientfd : s'.pool.clientfd = Function.update s.pool.clientfd i (-1) := by rw [hpool]; rfl
  have hothers : ∀ j, 0 ≤ s'.pool.clientfd j → j ≠ i ∧ s'.pool.clientfd j = s.pool.clientfd j := by
    intro j hj
    refine (clientfd_cases hclientfd j).resolve_left fun ⟨_, hfreed⟩ ↦ ?_
    omega
  have hapart : ∀ j, j ≠ i → s.pool.clientfd j ≠ s.pool.clientfd i := fun j hne heq ↦
    hne (h.injective i j hi heq.symm).symm
  refine ⟨?_, fun j hj ↦ ?_, fun j j' hj heq ↦ ?_, fun fd ↦ ?_, ?_, ?_, ?_⟩
  · rw [hpool]
    exact freshBuffers_free h.fresh i
  · obtain ⟨hne, hsame⟩ := hothers j hj
    obtain ⟨hstd, hclient, hisopen, hmaxi, hmaxfd⟩ := h.inUse j (hsame ▸ hj)
    refine ⟨?_, ?_, ?_, ?_, ?_⟩
    case refine_3 =>
      rw [hsame, hclients]
      exact hisopen.set hc hfd fun heq ↦ absurd (heq.trans hslot) (hapart j hne)
    case refine_4 =>
      rw [hpool]
      exact hmaxi
    case refine_5 =>
      rw [hsame, hpool]
      exact hmaxfd
    all_goals
      rw [hsame]
      assumption
  · have hj' : 0 ≤ s'.pool.clientfd j' := heq ▸ hj
    have hsame := (hothers j hj).2
    rw [hsame, (hothers j' hj').2] at heq
    exact h.injective j j' (hsame ▸ hj) heq
  · have hreadSet : s'.pool.readSet = s.pool.readSet.erase (s.pool.clientfd i) := by rw [hpool]; rfl
    rw [hreadSet, h.mem_erase_readSet hi, exists_stores_update hclientfd]
    refine or_congr_right (or_iff_right ?_).symm
    rintro ⟨hpos, rfl⟩
    omega
  · rw [hpool]
    exact h.maxi
  · rw [hpool]
    exact h.maxfd
  · rw [hclients]
    exact h.oneOpen.set hc hfd hopen

/-- **A turn keeps the invariant.** -/
theorem Slotted.turn {i : ℕ} (h : Slotted listenfd s) (hturn : s.checkClient i = some s') :
    Slotted listenfd s' := by
  rcases checkClient_cases h.fresh hturn with ⟨-, rfl⟩ |
    ⟨hready, k, c, c', -, hc, hopen, hslot, hserve, hclients, hpool⟩
  · exact h
  · rcases hclosed : c'.closed
    · exact h.served hc hopen (serve_fd hserve) hclients hclosed hpool
    · exact h.freed hc hopen (serve_fd hserve) hclients hclosed hpool hready.1.le hslot

theorem Slotted.checkFrom (m : ℕ) {i : ℕ} (h : Slotted listenfd s)
    (hscan : s.checkFrom m i = some s') : Slotted listenfd s' :=
  checkFrom_invariant (fun h ↦ h.turn) m h hscan

/-! ### Connections accepted -/

theorem freeSlot_eq_some {p : Pool} {i : ℕ} (h : p.freeSlot = some i) :
    p.clientfd i < 0 ∧ i < fdSetsize := by
  rw [Pool.freeSlot] at h
  refine ⟨?_, List.mem_range.1 (List.mem_of_find?_eq_some h)⟩
  simpa using List.find?_some h

theorem freeSlot_eq_none {p : Pool} (h : p.freeSlot = none) :
    ∀ i < fdSetsize, 0 ≤ p.clientfd i := by
  rw [Pool.freeSlot] at h
  exact fun i hi ↦ by simpa using List.find?_eq_none.1 h i (List.mem_range.2 hi)

/-- **What `add_client` can do**: register the connection in a free slot, or leave it out if there
is none. -/
theorem addClient_cases (connfd : ℤ) (p : Pool) :
    (∃ i, p.clientfd i < 0 ∧ i < fdSetsize ∧
      addClient connfd p = Pool.register { p with nready := p.nready - 1 } connfd i) ∨
    (∀ i < fdSetsize, 0 ≤ p.clientfd i) ∧
      addClient connfd p = { p with nready := p.nready - 1 } := by
  have hadd : addClient connfd p = (Pool.freeSlot { p with nready := p.nready - 1 }).elim
    { p with nready := p.nready - 1 }
    (Pool.register { p with nready := p.nready - 1 } connfd) := rfl
  rcases hslot : Pool.freeSlot { p with nready := p.nready - 1 } with - | i
  · exact .inr ⟨freeSlot_eq_none hslot, by rw [hadd, hslot]; rfl⟩
  · obtain ⟨hneg, hlt⟩ := freeSlot_eq_some hslot
    exact .inl ⟨i, hneg, hlt, by rw [hadd, hslot]; rfl⟩

/-- A connection registered in a free slot. -/
theorem Slotted.registered {i : ℕ} {n : ℤ} (h : Slotted listenfd s)
    (hclients : s'.clients = s.clients ++ [c]) (hopen : c.closed = false) (hstd : 3 ≤ c.fd)
    (hclient : c.fd ≠ listenfd) (hfree : ¬ IsOpen s.clients c.fd) (hneg : s.pool.clientfd i < 0)
    (hpool : s'.pool = Pool.register { s.pool with nready := n } c.fd i) : Slotted listenfd s' := by
  have hnew : IsOpen s'.clients c.fd := hclients ▸ isOpen_concat s.clients hopen
  have hclientfd : s'.pool.clientfd = Function.update s.pool.clientfd i c.fd := by rw [hpool]; rfl
  have hmaxfd : s.pool.maxfd ≤ s'.pool.maxfd ∧ c.fd ≤ s'.pool.maxfd := by
    rw [hpool]
    simp only [Pool.register]
    split_ifs <;> omega
  have hmaxi : s.pool.maxi ≤ s'.pool.maxi ∧ (i : ℤ) ≤ s'.pool.maxi := by
    rw [hpool]
    simp only [Pool.register]
    split_ifs <;> omega
  -- a slot is in use by the new descriptor, or as it was
  have hcases : ∀ j, 0 ≤ s'.pool.clientfd j → (j = i ∧ s'.pool.clientfd j = c.fd) ∨
      (s'.pool.clientfd j = s.pool.clientfd j ∧ InUse listenfd s j) := by
    intro j hj
    obtain hnew | ⟨-, hsame⟩ := clientfd_cases hclientfd j
    · exact .inl hnew
    · exact .inr ⟨hsame, h.inUse j (hsame ▸ hj)⟩
  refine ⟨?_, fun j hj ↦ ?_, fun j j' hj heq ↦ ?_, fun fd ↦ ?_, h.maxi.trans hmaxi.1,
    h.maxfd.trans hmaxfd.1, ?_⟩
  · intro j hj
    rw [hpool] at hj ⊢
    simp only [Pool.register] at hj ⊢
    rcases eq_or_ne j i with rfl | hne
    · simp only [Function.update_self, rioReadinitb]
    · simp only [Function.update_of_ne hne] at hj ⊢
      exact h.fresh j hj
  · obtain ⟨rfl, hsame⟩ | ⟨hsame, huse⟩ := hcases j hj
    · exact ⟨hsame ▸ hstd, hsame ▸ hclient, hsame ▸ hnew, hmaxi.2, hsame ▸ hmaxfd.2⟩
    · exact ⟨hsame ▸ huse.standard, hsame ▸ huse.client,
        hsame ▸ hclients ▸ huse.opened.append _, huse.maxi.trans hmaxi.1,
        hsame ▸ huse.maxfd.trans hmaxfd.1⟩
  · have hj' : 0 ≤ s'.pool.clientfd j' := heq ▸ hj
    obtain ⟨rfl, hsame⟩ | ⟨hsame, huse⟩ := hcases j hj <;>
      obtain ⟨rfl, hsame'⟩ | ⟨hsame', huse'⟩ := hcases j' hj'
    · rfl
    · rw [hsame, hsame'] at heq
      exact absurd (heq ▸ huse'.opened) hfree
    · rw [hsame, hsame'] at heq
      exact absurd (heq ▸ huse.opened) hfree
    · rw [hsame] at hj
      rw [hsame, hsame'] at heq
      exact h.injective j j' hj heq
  · have hreadSet : s'.pool.readSet = insert c.fd s.pool.readSet := by rw [hpool]; rfl
    rw [hreadSet, h.mem_insert_readSet (by omega) hneg, exists_stores_update hclientfd]
  · rw [hclients]
    exact h.oneOpen.concat hfree

/-- A connection for which there is no slot. -/
theorem Slotted.leftOut {n : ℤ} (h : Slotted listenfd s) (hclients : s'.clients = s.clients ++ [c])
    (hfree : ¬ IsOpen s.clients c.fd) (hpool : s'.pool = { s.pool with nready := n }) :
    Slotted listenfd s' := by
  refine ⟨?_, fun j hj ↦ ?_, ?_, ?_, ?_, ?_, ?_⟩
  case refine_2 =>
    rw [hpool] at hj
    obtain ⟨hstd, hclient, hisopen, hmaxi, hmaxfd⟩ := h.inUse j hj
    refine ⟨?_, ?_, ?_, ?_, ?_⟩
    case refine_3 =>
      rw [hclients, hpool]
      exact hisopen.append _
    all_goals
      rw [hpool]
      assumption
  case refine_7 =>
    rw [hclients]
    exact h.oneOpen.concat hfree
  all_goals rw [hpool]
  · exact h.fresh
  · exact h.injective
  · exact h.readSet
  · exact h.maxi
  · exact h.maxfd

/-- **A connection accepted keeps the invariant.** -/
theorem Slotted.accept {fd : ℤ} (h : Slotted listenfd s) (hstd : 3 ≤ fd) (hclient : fd ≠ listenfd)
    (hfree : ¬ IsOpen s.clients fd) (script : List ReadResult) :
    Slotted listenfd (s.accept fd script) := by
  obtain ⟨i, hneg, -, hadd⟩ | ⟨-, hadd⟩ := addClient_cases fd s.pool
  · rw [Server.accept, hadd]
    exact @Slotted.registered ⟨fd, [], script, [], false⟩ _ _ _ _ _ h rfl rfl hstd hclient hfree
      hneg rfl
  · rw [Server.accept, hadd]
    exact @Slotted.leftOut ⟨fd, [], script, [], false⟩ _ _ _ _ h rfl hfree rfl

/-! ### Rounds -/

/-- The server when `check_clients` begins. -/
def Server.accepting (s : Server) (listenfd : ℤ) (r : Round) : Server :=
  if listenfd ∈ r.ready then (s.select r.ready).accept r.accepted r.script else s.select r.ready

theorem round_eq (s : Server) (listenfd : ℤ) (r : Round) :
    s.round listenfd r = (s.accepting listenfd r).checkClients := by
  rw [Server.round, Server.accepting]

/-- What the invariant needs of the kernel; the descriptors may be of any size. -/
structure Round.Admissible (s : Server) (listenfd : ℤ) (r : Round) : Prop where
  ready : r.ready ⊆ s.pool.readSet
  accepted : listenfd ∈ r.ready →
    3 ≤ r.accepted ∧ r.accepted ≠ listenfd ∧ s.openOn r.accepted = none

theorem Round.Valid.admissible {r : Round} (h : r.Valid s listenfd) : r.Admissible s listenfd where
  ready := h.ready
  accepted := fun hmem ↦ by
    obtain ⟨hstd, -, hclient, hfree⟩ := h.accepted hmem
    exact ⟨hstd, hclient, hfree⟩

/-- The states between the rounds, for descriptors of any size. -/
inductive Attainable (listenfd : ℤ) : Server → Prop
  | start : Attainable listenfd (initial listenfd)
  | round {s s' : Server} {r : Round} : Attainable listenfd s → r.Admissible s listenfd →
      s.round listenfd r = some s' → Attainable listenfd s'

theorem Reachable.attainable (h : Reachable listenfd s) : Attainable listenfd s := by
  induction h with
  | start => exact .start
  | round _ hvalid hround ih => exact ih.round hvalid.admissible hround

theorem Slotted.accepting {r : Round} (h : Slotted listenfd s) (hr : r.Admissible s listenfd) :
    Slotted listenfd (s.accepting listenfd r) := by
  rw [Server.accepting]
  split_ifs with hmem
  · obtain ⟨hstd, hclient, hfree⟩ := hr.accepted hmem
    exact (h.select r.ready).accept hstd hclient (openOn_eq_none_iff.1 hfree) r.script
  · exact h.select r.ready

/-- **The invariant holds in every state.** -/
theorem slotted_of_attainable (h : Attainable listenfd s) : Slotted listenfd s := by
  induction h with
  | start => exact slotted_initial listenfd
  | round _ hr hround ih =>
    rw [round_eq, Server.checkClients] at hround
    exact (ih.accepting hr).checkFrom _ hround

/-! ### Every open connection has a slot -/

/-- **Every connection that is open is in the pool**, for all descriptors are small. -/
structure Complete (listenfd : ℤ) (s : Server) : Prop where
  bounded : ∀ i, 0 ≤ s.pool.clientfd i → s.pool.clientfd i < fdSetsize
  stored : ∀ fd, IsOpen s.clients fd → ∃ i, s.pool.Stores i fd
  client : ∀ c ∈ s.clients, c.fd ≠ listenfd

theorem Complete.turn {i : ℕ} (hs : Slotted listenfd s) (h : Complete listenfd s)
    (hturn : s.checkClient i = some s') : Complete listenfd s' := by
  rcases checkClient_cases hs.fresh hturn with ⟨-, rfl⟩ |
    ⟨hready, k, c, c', -, hc, hopen, hslot, hserve, hclients, hpool⟩
  · exact h
  have hfd := serve_fd hserve
  have hbefore : ∀ fd, IsOpen s'.clients fd → IsOpen s.clients fd ∧
      (fd = c.fd → c'.closed = false) := by
    rintro fd ⟨j, d, hd, rfl, hdopen⟩
    rw [hclients] at hd
    obtain ⟨e, he, hefd, heopen⟩ := exists_of_set_open hc hfd hopen hd hdopen
    refine ⟨⟨j, e, he, hefd, heopen⟩, fun heq ↦ ?_⟩
    -- the connection on this descriptor is the one served
    obtain rfl := hs.oneOpen j k e c he hc (hefd.trans heq) heopen hopen
    rw [List.getElem?_set_self (List.getElem?_eq_some_iff.1 hc).1] at hd
    rw [Option.some.inj hd]
    exact hdopen
  have hclient : ∀ d ∈ s'.clients, d.fd ≠ listenfd := by
    intro d hd
    rw [hclients] at hd
    rcases List.mem_or_eq_of_mem_set hd with hd | rfl
    · exact h.client d hd
    · rw [hfd]
      exact h.client c (List.mem_of_getElem? hc)
  rcases hclosed : c'.closed
  · rw [hclosed] at hpool
    refine ⟨?_, fun fd hisopen ↦ ?_, hclient⟩
    · rw [hpool]
      exact h.bounded
    · rw [hpool]
      exact h.stored fd (hbefore fd hisopen).1
  · rw [hclosed] at hpool
    have hclientfd : s'.pool.clientfd = Function.update s.pool.clientfd i (-1) := by rw [hpool]; rfl
    refine ⟨fun j hj ↦ ?_, fun fd hisopen ↦ ?_, hclient⟩
    · obtain ⟨-, hfreed⟩ | ⟨-, hsame⟩ := clientfd_cases hclientfd j
      · omega
      · rw [hsame] at hj ⊢
        exact h.bounded j hj
    · obtain ⟨hisopen, hkept⟩ := hbefore fd hisopen
      obtain ⟨j, hpos, hj⟩ := h.stored fd hisopen
      refine (exists_stores_update hclientfd fd).2 (.inr ⟨j, fun heq ↦ ?_, hpos, hj⟩)
      rw [heq] at hj
      exact absurd (hkept (hj.symm.trans hslot.symm)) (by simp [hclosed])

theorem Complete.checkFrom (m : ℕ) {i : ℕ} (hs : Slotted listenfd s) (h : Complete listenfd s)
    (hscan : s.checkFrom m i = some s') : Complete listenfd s' := by
  have hboth := checkFrom_invariant (I := fun s ↦ Slotted listenfd s ∧ Complete listenfd s)
    (fun ⟨hs, h⟩ hturn ↦ ⟨hs.turn hturn, h.turn hs hturn⟩) m ⟨hs, h⟩ hscan
  exact hboth.2

/-- There are fewer client descriptors than slots. -/
theorem Complete.exists_free (hs : Slotted listenfd s) (h : Complete listenfd s) :
    ¬ ∀ i < fdSetsize, 0 ≤ s.pool.clientfd i := by
  intro hall
  have hle : (Finset.range fdSetsize).card ≤ (Finset.Ico (3 : ℤ) fdSetsize).card := by
    refine Finset.card_le_card_of_injOn s.pool.clientfd (fun i hi ↦ ?_) fun i hi j _ heq ↦ ?_
    · have hpos := hall i (Finset.mem_range.1 hi)
      exact Finset.mem_Ico.2 ⟨(hs.inUse i hpos).standard, h.bounded i hpos⟩
    · exact hs.injective i j (hall i (Finset.mem_range.1 hi)) heq
  rw [Finset.card_range, Int.card_Ico] at hle
  exact absurd hle (by decide)

theorem Complete.registered {i : ℕ} {n : ℤ} (h : Complete listenfd s)
    (hclients : s'.clients = s.clients ++ [c]) (hpos : 0 ≤ c.fd) (hbound : c.fd < fdSetsize)
    (hclient : c.fd ≠ listenfd) (hneg : s.pool.clientfd i < 0)
    (hpool : s'.pool = Pool.register { s.pool with nready := n } c.fd i) :
    Complete listenfd s' := by
  have hclientfd : s'.pool.clientfd = Function.update s.pool.clientfd i c.fd := by rw [hpool]; rfl
  refine ⟨fun j hj ↦ ?_, ?_, fun d hd ↦ ?_⟩
  · obtain ⟨-, hnew⟩ | ⟨-, hsame⟩ := clientfd_cases hclientfd j
    · rwa [hnew]
    · rw [hsame] at hj ⊢
      exact h.bounded j hj
  · rintro fd ⟨k, d, hd, rfl, hopen⟩
    rw [hclients] at hd
    rcases List.mem_append.1 (List.mem_of_getElem? hd) with hold | hnew
    · obtain ⟨k', hk'⟩ := List.mem_iff_getElem?.1 hold
      obtain ⟨j, hj, hslot⟩ := h.stored d.fd ⟨k', d, hk', rfl, hopen⟩
      refine (exists_stores_update hclientfd d.fd).2 (.inr ⟨j, fun heq ↦ ?_, hj, hslot⟩)
      rw [heq] at hslot
      omega
    · obtain rfl := List.mem_singleton.1 hnew
      exact (exists_stores_update hclientfd d.fd).2 (.inl ⟨hpos, rfl⟩)
  · rw [hclients] at hd
    rcases List.mem_append.1 hd with hold | hnew
    · exact h.client d hold
    · rwa [List.mem_singleton.1 hnew]

theorem Complete.accepting {r : Round} (hs : Slotted listenfd s) (h : Complete listenfd s)
    (hr : r.Valid s listenfd) : Complete listenfd (s.accepting listenfd r) := by
  have hselect : Complete listenfd (s.select r.ready) := ⟨h.bounded, h.stored, h.client⟩
  rw [Server.accepting]
  split_ifs with hmem
  · obtain ⟨hstd, hbound, hclient, -⟩ := hr.accepted hmem
    obtain ⟨i, hneg, -, hadd⟩ | ⟨hfull, -⟩ := addClient_cases r.accepted (s.select r.ready).pool
    · rw [Server.accept, hadd]
      exact @Complete.registered ⟨r.accepted, [], r.script, [], false⟩ _ _ _ _ _ hselect rfl
        (show (0 : ℤ) ≤ r.accepted by omega) hbound hclient hneg rfl
    · exact absurd hfull (hselect.exists_free (hs.select r.ready))
  · exact hselect

/-- **Every open connection has a slot**, in every state. -/
theorem complete_of_reachable (h : Reachable listenfd s) : Complete listenfd s := by
  induction h with
  | start =>
    refine ⟨fun i hi ↦ absurd hi (by simp [initial, initPool]), ?_, ?_⟩
    · rintro fd ⟨k, c, hc, -⟩
      exact absurd hc (by simp [initial])
    · exact fun c hc ↦ absurd hc (by simp [initial])
  | round hreach hr hround ih =>
    have hs := slotted_of_attainable hreach.attainable
    rw [round_eq, Server.checkClients] at hround
    exact (ih.accepting hs hr).checkFrom _ (hs.accepting hr.admissible) hround

/-! ### What the pool represents -/

/-- **The pool represents the open connections.** What is watched is the listening descriptor and
what is stored in exactly one slot; `maxi` and `maxfd` bound the slots in use and the descriptors;
and what is stored is open, while a descriptor that has been closed, and is not open again, is
neither watched nor stored. -/
structure Represents (listenfd : ℤ) (s : Server) : Prop where
  readSet : ∀ fd, fd ∈ s.pool.readSet ↔ fd = listenfd ∨ ∃! i, s.pool.Stores i fd
  maxi : ∀ i, 0 ≤ s.pool.clientfd i → (i : ℤ) ≤ s.pool.maxi
  maxfd : listenfd ≤ s.pool.maxfd ∧ ∀ i fd, s.pool.Stores i fd → fd ≤ s.pool.maxfd
  opened : ∀ i fd, s.pool.Stores i fd → IsOpen s.clients fd
  closed : ∀ c ∈ s.clients, c.closed = true → ¬ IsOpen s.clients c.fd →
    c.fd ∉ s.pool.readSet ∧ ∀ i, ¬ s.pool.Stores i c.fd

theorem Slotted.represents (hs : Slotted listenfd s) (h : Complete listenfd s) :
    Represents listenfd s where
  readSet fd := by
    rw [hs.readSet]
    refine or_congr_right ⟨?_, ExistsUnique.exists⟩
    rintro ⟨i, hpos, rfl⟩
    exact ⟨i, ⟨hpos, rfl⟩, fun j hj ↦ (hs.injective i j hpos hj.2.symm).symm⟩
  maxi i hi := (hs.inUse i hi).maxi
  maxfd := by
    refine ⟨hs.maxfd, ?_⟩
    rintro i fd ⟨hpos, rfl⟩
    exact (hs.inUse i hpos).maxfd
  opened := by
    rintro i fd ⟨hpos, rfl⟩
    exact (hs.inUse i hpos).opened
  closed c hc _ hnot := by
    have hstores : ∀ i, ¬ s.pool.Stores i c.fd := by
      rintro i ⟨hpos, heq⟩
      exact hnot (heq ▸ (hs.inUse i (heq ▸ hpos)).opened)
    refine ⟨fun hmem ↦ ?_, hstores⟩
    rcases (hs.readSet c.fd).1 hmem with heq | ⟨i, hi⟩
    · exact h.client c hc heq
    · exact hstores i hi

/-- **The pool represents the open connections in every state**: between the rounds, after
`add_client`, and after every turn of `check_clients`. -/
theorem pool_represents (h : Reachable listenfd s) :
    Represents listenfd s ∧ ∀ r, r.Valid s listenfd →
      ∀ m s', (s.accepting listenfd r).checkFrom m 0 = some s' → Represents listenfd s' := by
  have hs := slotted_of_attainable h.attainable
  have hcomplete := complete_of_reachable h
  refine ⟨hs.represents hcomplete, fun r hr m s' hscan ↦ ?_⟩
  have hs' := hs.accepting hr.admissible
  exact (hs'.checkFrom m hscan).represents ((hcomplete.accepting hs hr).checkFrom m hs' hscan)

/-- A line of two bytes. -/
def hiLine : ReadResult := .data ⟨[104, 10], by simp, by decide⟩

/-- A server with one client, on the descriptor 4, that has sent nothing and closed its end. -/
def firstClient : Server where
  pool := Pool.register { ((initial 3).select {3}).pool with nready := 0 } 4 0
  clients := [⟨4, [], [], [], false⟩]

/-- And a second one, on the descriptor 5, that sends a line. -/
def secondClient : Server where
  pool := Pool.register { (firstClient.select {3}).pool with nready := 0 } 5 1
  clients := [⟨4, [], [], [], false⟩, ⟨5, [], [hiLine], [], false⟩]

theorem reachable_secondClient : Reachable 3 secondClient := by
  have hfirst : (initial 3).round 3 ⟨{3}, 4, []⟩ = some firstClient := by
    rw [Server.round, if_pos (Finset.mem_singleton_self 3), Server.checkClients, Server.accept,
      addClient_of_free (freeSlot_of_lt (i := 0) (by decide) (by decide) (by simp))]
    rfl
  have hsecond : firstClient.round 3 ⟨{3}, 5, [hiLine]⟩ = some secondClient := by
    rw [Server.round, if_pos (Finset.mem_singleton_self 3), Server.checkClients, Server.accept,
      addClient_of_free (freeSlot_of_lt (i := 1) (by decide) (by decide) (by decide))]
    rfl
  refine .round (.round .start ⟨?_, ?_⟩ hfirst) ⟨?_, ?_⟩ hsecond
  · exact Finset.Subset.refl _
  · exact fun _ ↦ ⟨by decide, by decide, by decide, rfl⟩
  · exact Finset.singleton_subset_iff.2 (by decide)
  · exact fun _ ↦ ⟨by decide, by decide, by decide, rfl⟩

/-- Two clients are ready. The scan closes the first connection and echoes the line of the second,
and the pool represents what is open before it and behind it. -/
theorem pool_represents_two : Represents 3 secondClient ∧
    ∃ s', (secondClient.accepting 3 ⟨{4, 5}, 0, []⟩).checkFrom 2 0 = some s' ∧
      s'.clients.map Client.closed = [true, false] ∧
      s'.clients.map Client.echoed = [[], [104, 10]] ∧ Represents 3 s' := by
  obtain ⟨hbefore, hscans⟩ := pool_represents reachable_secondClient
  have hvalid : Round.Valid secondClient 3 ⟨{4, 5}, 0, []⟩ :=
    ⟨by decide, fun hmem ↦ absurd hmem (by decide)⟩
  refine ⟨hbefore, _, rfl, rfl, rfl, hscans _ hvalid 2 _ rfl⟩

end CsappCode.SelectServer
