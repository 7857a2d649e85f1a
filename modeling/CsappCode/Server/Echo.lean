import CsappCode.Server.Pool

/-!
# What the select-based server echoes

`check_clients` reads each line through a copy of the client's `rio_t`. The copy takes with it
whatever one `read` delivered beyond the line, so those bytes are never seen again, and the stored
buffers stay empty.

* `Served` is the life of one connection as the server sees it: a line at a time, each from an empty
  buffer. `wellServed_of_reachable` shows that the rounds give every connection just this, whatever
  the other clients do.
* `Served.faithful` measures what is lost: nothing so far, or at least one byte for good.
* `exists_closed` runs a lone client to its end, for any stream.
* `echo_faithful_iff` says for which streams the server is faithful, and `twoLines_not_faithful`
  gives one for which it is not.

## The argument

**From the server to one connection.** A turn of the scan changes at most one connection, and does
to it what `Client.serve` does (`checkClient_serves`). So the state of a connection depends on its
own stream and on how often it has been served, and not on the order of the rounds or on the other
clients.

**From one line to the whole stream.** `LineAligned` says that no `read` delivers bytes beyond the
end of the line it completes. As long as that holds of what is still to come, each line leaves an
empty buffer and nothing is lost; the first line that leaves bytes behind makes the echo shorter
than what has been received, and it stays shorter.

**The other direction** needs a run in which the client is served to its end. A server with this
client alone, that `Select` reports every time, is one.

## What is assumed

No `read` on the connection fails, for a failure ends the process. The stream, and how it is cut
into the results of `read`, is otherwise arbitrary, lines longer than the buffer included.
-/

namespace CsappCode.SelectServer

open Csapp

/-! ### The life of one connection -/

/-- One line read from an empty buffer and echoed, or the end of file met and the connection
closed. -/
def Client.serve (c : Client) : Option Client :=
  match rioReadlineb maxline [] c.rest with
  | none => none
  | some ([], _, rest) => some (c.consume rest).close
  | some (line, _, rest) => some ((c.consume rest).echo line)

/-- What becomes of a connection. -/
inductive Served : Client → Prop
  | accepted (fd : ℤ) (script : List ReadResult) : Served ⟨fd, [], script, [], false⟩
  | serve {c c' : Client} : Served c → c.closed = false → c.serve = some c' → Served c'

/-- What one line does to the stream and to the echo. -/
theorem serve_spec {c c' : Client} (h : c.serve = some c') :
    ∃ line unread, LineRead (maxline - 1) c.rest line unread c'.rest ∧
      c'.script = c.script ∧ c'.received = c.received ++ (line ++ unread) ∧
      c'.echoed = c.echoed ++ line ∧ (c'.closed = true ↔ line = [] ∨ c.closed = true) := by
  rcases hread : rioReadlineb maxline [] c.rest with - | ⟨line, unread, rest⟩
  · exact absurd h (by simp [Client.serve, hread])
  have hline := rioReadlineb_spec hread
  obtain ⟨used, hused, hbytes⟩ := hline.used
  have htake : c.rest.take (c.rest.length - rest.length) = used := by
    rw [hused, List.length_append, Nat.add_sub_cancel, List.take_left]
  have hscript : (c.consume rest).script = c.script := by
    rw [Client.script, Client.script, Client.consume, htake, hused, List.append_assoc]
  have hreceived : (c.consume rest).received = c.received ++ (line ++ unread) := by
    rw [Client.received, Client.received, Client.consume, htake, streamBytes_append, hbytes]
  refine ⟨line, unread, ?_⟩
  cases line with
  | nil =>
    obtain rfl : (c.consume rest).close = c' := by simpa [Client.serve, hread] using h
    exact ⟨hline, hscript, hreceived, (List.append_nil _).symm, fun _ ↦ .inl rfl, fun _ ↦ rfl⟩
  | cons b bs =>
    obtain rfl : (c.consume rest).echo (b :: bs) = c' := by simpa [Client.serve, hread] using h
    exact ⟨hline, hscript, hreceived, rfl, .inr, Or.rec (fun h ↦ absurd h (by simp)) id⟩

/-- What has been lost of a connection's bytes: nothing, or some for good. -/
structure Faithful (c : Client) : Prop where
  echo : (c.echoed = c.received ∧
      (LineAligned (maxline - 1) c.script ↔ LineAligned (maxline - 1) c.rest)) ∨
    (¬ LineAligned (maxline - 1) c.script ∧ c.echoed.length < c.received.length)
  closed : c.closed = true → c.rest = []

/-- **A connection loses bytes as soon as its stream leaves the lines**, and never gets them
back. -/
theorem Served.faithful {c : Client} (h : Served c) : Faithful c := by
  induction h with
  | accepted fd script => exact ⟨.inl ⟨rfl, Iff.rfl⟩, by simp⟩
  | @serve c c' _ hopen hserve ih =>
    obtain ⟨line, unread, hline, hscript, hreceived, hechoed, hclosed⟩ := serve_spec hserve
    refine ⟨?_, fun hc' ↦ ?_⟩
    · rw [hscript, hechoed, hreceived]
      rcases ih.echo with ⟨heq, halign⟩ | ⟨halign, hlt⟩
      · rcases eq_or_ne unread [] with rfl | hne
        · refine .inl ⟨by rw [heq, List.append_nil], halign.trans (hline.aligned.trans ?_)⟩
          exact and_iff_right rfl
        · refine .inr ⟨fun h ↦ hne (hline.aligned.1 (halign.1 h)).1, ?_⟩
          have := List.length_pos_iff.2 hne
          simp only [heq, List.length_append]
          omega
      · -- what was lost before stays lost
        refine .inr ⟨halign, ?_⟩
        simp only [List.length_append]
        omega
    · rcases hclosed.1 hc' with h | h
      · exact (hline.eof h).1
      · exact absurd h (by simp [hopen])

/-- When the connection is closed, all it sent has been echoed just if its stream keeps to the
lines. -/
theorem Faithful.echoed_eq_sent_iff {c : Client} (h : Faithful c) (hclosed : c.closed = true) :
    c.echoed = c.sent ↔ LineAligned (maxline - 1) c.script := by
  have hrest := h.closed hclosed
  have hsent : c.sent = c.received := by
    rw [Client.sent, Client.script, hrest, List.append_nil, Client.received]
  rw [hsent]
  rcases h.echo with ⟨heq, halign⟩ | ⟨halign, hlt⟩
  · rw [hrest] at halign
    exact ⟨fun _ ↦ halign.2 (lineAligned_nil _), fun _ ↦ heq⟩
  · exact ⟨fun heq ↦ absurd (congrArg List.length heq) hlt.ne, fun h ↦ absurd h halign⟩

/-! ### The server gives every connection this life -/

/-- Every occupied slot has the empty buffer that `add_client` gave it. -/
def FreshBuffers (p : Pool) : Prop := ∀ i, 0 < p.clientfd i → p.clientrio i = ⟨p.clientfd i, []⟩

theorem freshBuffers_addClient {p : Pool} (h : FreshBuffers p) (connfd : ℤ) :
    FreshBuffers (addClient connfd p) := by
  rw [addClient]
  generalize Pool.freeSlot _ = slot
  intro i hi
  cases slot with
  | none => exact h i hi
  | some k =>
    simp only [Option.elim_some, Pool.register] at hi ⊢
    rcases eq_or_ne i k with rfl | hne
    · simp only [Function.update_self, rioReadinitb]
    · simp only [Function.update_of_ne hne] at hi ⊢
      exact h i hi

theorem openOn_modify (s : Server) (k : ℕ) {f : Client → Client}
    (hf : ∀ c, (f c).fd = c.fd ∧ (f c).closed = c.closed) (fd : ℤ) :
    Server.openOn { s with clients := s.clients.modify k f } fd = s.openOn fd := by
  have hmap : ∀ l : List Client, (l.modify k f).map (fun c ↦ (c.fd, c.closed)) =
      l.map fun c ↦ (c.fd, c.closed) := by
    intro l
    refine List.ext_getElem? fun j ↦ ?_
    rw [List.getElem?_map, List.getElem?_map, List.getElem?_modify]
    rcases l[j]? with - | c
    · rfl
    · rcases eq_or_ne k j with rfl | hne
      · simp [hf]
      · simp [hne]
  have hfind : ∀ l : List Client, (l.findIdx? fun c ↦ c.fd = fd ∧ c.closed = false) =
      (l.map fun c ↦ (c.fd, c.closed)).findIdx? fun q ↦ q.1 = fd ∧ q.2 = false := by
    intro l
    rw [List.findIdx?_map]
    rfl
  rw [Server.openOn, Server.openOn, hfind, hfind, hmap]

theorem exists_of_openOn {s : Server} {fd : ℤ} {k : ℕ} (h : s.openOn fd = some k) :
    ∃ c, s.clients[k]? = some c ∧ c.fd = fd ∧ c.closed = false := by
  obtain ⟨hk, hc, -⟩ := List.findIdx?_eq_some_iff_getElem.1 h
  exact ⟨s.clients[k], List.getElem?_eq_getElem hk, by simpa using hc⟩

theorem mem_modify {l : List Client} {k : ℕ} {f : Client → Client} {c' : Client}
    (h : c' ∈ l.modify k f) : c' ∈ l ∨ ∃ c, l[k]? = some c ∧ f c = c' := by
  obtain ⟨j, hj⟩ := List.mem_iff_getElem?.1 h
  rw [List.getElem?_modify] at hj
  rcases hl : l[j]? with - | c
  · exact absurd hj (by simp [hl])
  · rcases eq_or_ne k j with rfl | hne
    · exact .inr ⟨c, hl, by simpa [hl] using hj⟩
    · obtain rfl : c = c' := by simpa [hl, hne] using hj
      exact .inl (List.mem_of_getElem? hl)

/-- Reading a line and then writing or closing changes the one connection on the descriptor. -/
theorem onFd_consume (s : Server) {fd : ℤ} {k : ℕ} (h : s.openOn fd = some k)
    (rest : List ReadResult) (f : Client → Client) :
    (s.onFd fd (Client.consume rest)).onFd fd f =
      { s with clients := s.clients.modify k (f ∘ Client.consume rest) } := by
  have hread : s.onFd fd (Client.consume rest) =
      { s with clients := s.clients.modify k (Client.consume rest) } := by
    rw [Server.onFd, h]
  have hopen := (openOn_modify s k (f := Client.consume rest) (fun _ ↦ ⟨rfl, rfl⟩) fd).trans h
  rw [hread, Server.onFd, hopen]
  simp only [List.modify_modify_eq]

/-- What one turn of the loop does to the connections. -/
def Serves (s s' : Server) : Prop :=
  ∀ c' ∈ s'.clients, c' ∈ s.clients ∨ ∃ c ∈ s.clients, c.closed = false ∧ c.serve = some c'

theorem readlineb_eq_some {s s' : Server} {fd : ℤ} {line : List UInt8}
    (h : s.readlineb ⟨fd, []⟩ = some (line, s')) :
    ∃ k c unread rest, s.openOn fd = some k ∧ s.clients[k]? = some c ∧ c.fd = fd ∧
      c.closed = false ∧ rioReadlineb maxline [] c.rest = some (line, unread, rest) ∧
      s' = s.onFd fd (Client.consume rest) := by
  simp only [Server.readlineb, Option.bind_eq_bind, Option.bind_eq_some_iff, Option.pure_def,
    Option.some.injEq, Prod.mk.injEq] at h
  obtain ⟨k, hk, c, hc, ⟨line', unread, rest⟩, hread, rfl, rfl⟩ := h
  obtain ⟨c', hc', hfd, hopen⟩ := exists_of_openOn hk
  obtain rfl : c' = c := Option.some.inj (hc'.symm.trans hc)
  exact ⟨k, c', unread, rest, hk, hc', hfd, hopen, hread, rfl⟩

/-- **A line read and answered on one descriptor** is a line served to its connection. -/
theorem serves_of_readlineb {s s' : Server} {fd : ℤ} {line : List UInt8} {f : Client → Client}
    (h : s.readlineb ⟨fd, []⟩ = some (line, s'))
    (hf : f = if line = [] then Client.close else Client.echo line) : Serves s (s'.onFd fd f) := by
  obtain ⟨k, c, unread, rest, hk, hc, -, hopen, hread, rfl⟩ := readlineb_eq_some h
  intro c' hc'
  rw [onFd_consume s hk] at hc'
  rcases mem_modify hc' with hmem | ⟨c₀, hc₀, rfl⟩
  · exact .inl hmem
  · obtain rfl : c = c₀ := Option.some.inj (hc.symm.trans hc₀)
    refine .inr ⟨c, List.mem_of_getElem? hc, hopen, ?_⟩
    rw [Client.serve, hread, hf]
    cases line <;> rfl

/-- A slot freed leaves the other buffers as they are. -/
theorem freshBuffers_free {p : Pool} (h : FreshBuffers p) (i : ℕ) :
    FreshBuffers { p with clientfd := Function.update p.clientfd i (-1) } := by
  intro j hj
  rcases eq_or_ne j i with rfl | hne
  · exact absurd hj (by simp)
  · simp only [Function.update_of_ne hne] at hj ⊢
    exact h j hj

theorem onFd_pool (s : Server) (fd : ℤ) (f : Client → Client) : (s.onFd fd f).pool = s.pool := by
  rw [Server.onFd]
  split <;> rfl

/-- **One turn serves one connection**, from an empty buffer, and leaves the others alone. -/
theorem checkClient_serves {s s' : Server} {i : ℕ} (hfresh : FreshBuffers s.pool)
    (h : s.checkClient i = some s') : FreshBuffers s'.pool ∧ Serves s s' := by
  rw [Server.checkClient] at h
  split_ifs at h with hready
  · rw [hfresh i hready.1] at h
    generalize s.pool.clientfd i = connfd at h
    split at h
    · exact absurd h (by simp)
    · -- the end of file
      rename_i s₁ hread
      obtain ⟨k, c, unread, rest, -, -, -, -, -, rfl⟩ := readlineb_eq_some hread
      have hserves := serves_of_readlineb hread (f := Client.close) rfl
      obtain rfl := Option.some.inj h
      refine ⟨?_, hserves⟩
      rw [Server.release, onFd_pool]
      exact freshBuffers_free hfresh i
    · rename_i line s₁ hne hread
      obtain ⟨k, c, unread, rest, -, -, -, -, -, rfl⟩ := readlineb_eq_some hread
      have hserves := serves_of_readlineb hread (f := Client.echo line) (if_neg fun h ↦ hne h).symm
      obtain rfl := Option.some.inj h
      refine ⟨?_, hserves⟩
      rw [Server.writeLine, onFd_pool, onFd_pool]
      exact hfresh
  · obtain rfl := Option.some.inj h
    exact ⟨hfresh, fun c hc ↦ .inl hc⟩

/-- The connections of a server have been served line by line. -/
structure WellServed (s : Server) : Prop where
  fresh : FreshBuffers s.pool
  served : ∀ c ∈ s.clients, Served c

theorem WellServed.turn {s s' : Server} {i : ℕ} (hs : WellServed s)
    (hturn : s.checkClient i = some s') : WellServed s' := by
  obtain ⟨hfresh, hserves⟩ := checkClient_serves hs.fresh hturn
  refine ⟨hfresh, fun c' hc' ↦ ?_⟩
  rcases hserves c' hc' with hold | ⟨c, hc, hopen, hserve⟩
  · exact hs.served c' hold
  · exact (hs.served c hc).serve hopen hserve

theorem WellServed.round {s s' : Server} {listenfd : ℤ} {r : Round} (hs : WellServed s)
    (h : s.round listenfd r = some s') : WellServed s' := by
  rw [Server.round, Server.checkClients] at h
  refine checkFrom_invariant (fun hs ↦ hs.turn) _ ?_ h
  have hfresh : FreshBuffers (s.select r.ready).pool := hs.fresh
  split_ifs
  · have hadd := freshBuffers_addClient hfresh r.accepted
    rw [Server.accept]
    generalize addClient r.accepted _ = pool at hadd ⊢
    refine ⟨hadd, fun c hc ↦ ?_⟩
    rcases List.mem_append.1 hc with hc | hc
    · exact hs.served c hc
    · rw [List.mem_singleton.1 hc]
      exact .accepted _ _
  · exact ⟨hs.fresh, hs.served⟩

/-- **Every connection is served line by line**, in every reachable state. -/
theorem wellServed_of_reachable {listenfd : ℤ} {s : Server} (h : Reachable listenfd s) :
    WellServed s := by
  induction h with
  | start => exact ⟨fun i hi ↦ absurd hi (by simp [initial, initPool]), by simp [initial]⟩
  | round _ _ hround ih => exact ih.round hround

/-! ### A lone client to its end -/

/-- A server whose only client, on the descriptor 4 and in the slot 0, is still open. -/
structure Lone (s : Server) (c : Client) : Prop where
  clients : s.clients = [c]
  fd : c.fd = 4
  opened : c.closed = false
  slot : s.pool.clientfd 0 = 4
  buffer : s.pool.clientrio 0 = ⟨4, []⟩
  maxi : s.pool.maxi = 0
  readSet : 4 ∈ s.pool.readSet

/-- The round in which only the descriptor 4 is ready. -/
def clientReady : Round := ⟨{4}, 0, []⟩

theorem clientReady_valid {s : Server} {c : Client} (h : Lone s c) : clientReady.Valid s 3 where
  ready := Finset.singleton_subset_iff.2 h.readSet
  accepted := fun hmem ↦ absurd hmem (by decide)

/-- A change to the connection on the descriptor 4 is one to the lone client. -/
theorem onFd_lone {s : Server} {c : Client} (hclients : s.clients = [c]) (hfd : c.fd = 4)
    (hopen : c.closed = false) (f : Client → Client) :
    s.openOn 4 = some 0 ∧ s.onFd 4 f = { s with clients := [f c] } := by
  have hzero : s.openOn 4 = some 0 := by
    rw [Server.openOn, hclients]
    simp [hfd, hopen]
  refine ⟨hzero, ?_⟩
  rw [Server.onFd, hzero, hclients]
  rfl

theorem readlineb_lone {s : Server} {c : Client} (hclients : s.clients = [c]) (hfd : c.fd = 4)
    (hopen : c.closed = false) {line unread : List UInt8} {rest : List ReadResult}
    (hread : rioReadlineb maxline [] c.rest = some (line, unread, rest)) :
    s.readlineb ⟨4, []⟩ = some (line, { s with clients := [c.consume rest] }) := by
  obtain ⟨hzero, honFd⟩ := onFd_lone hclients hfd hopen (Client.consume rest)
  simp only [Server.readlineb, hzero, hclients, honFd, hread, List.getElem?_cons_zero,
    Option.bind_eq_bind, Option.bind_some, Option.pure_def]

/-- The turn of the lone client serves it. -/
theorem checkClient_lone {s : Server} {c c' : Client} (h : Lone s c) (hready : 4 ∈ s.pool.readySet)
    (hserve : c.serve = some c') :
    ∃ s', s.checkClient 0 = some s' ∧ s'.clients = [c'] ∧ (c'.closed = false → Lone s' c') := by
  rcases hread : rioReadlineb maxline [] c.rest with - | ⟨line, unread, rest⟩
  · exact absurd hserve (by simp [Client.serve, hread])
  have hline := readlineb_lone (s := s.countDown) h.clients h.fd h.opened hread
  generalize hs₁ : { s.countDown with clients := [c.consume rest] } = s₁ at hline
  have hlone : Lone s₁ (c.consume rest) := by
    rw [← hs₁]
    exact ⟨rfl, h.fd, h.opened, h.slot, h.buffer, h.maxi, h.readSet⟩
  have hafter := fun f ↦ (onFd_lone hlone.clients hlone.fd hlone.opened f).2
  rw [Server.checkClient, h.slot, h.buffer, if_pos ⟨by decide, hready⟩]
  simp only [hline]
  cases line with
  | nil =>
    obtain rfl : (c.consume rest).close = c' := by simpa [Client.serve, hread] using hserve
    refine ⟨_, rfl, ?_, fun hopen ↦ absurd hopen (by simp [Client.close])⟩
    rw [Server.release, hafter]
  | cons b bs =>
    obtain rfl : (c.consume rest).echo (b :: bs) = c' := by simpa [Client.serve, hread] using hserve
    refine ⟨_, rfl, ?_, fun _ ↦ ?_⟩
    · rw [Server.writeLine, hafter]
    · rw [Server.writeLine, hafter]
      exact ⟨rfl, hlone.fd, hlone.opened, hlone.slot, hlone.buffer, hlone.maxi, hlone.readSet⟩

/-- A round in which the client is ready serves it. -/
theorem round_clientReady {s : Server} {c c' : Client} (h : Lone s c) (hserve : c.serve = some c') :
    ∃ s', s.round 3 clientReady = some s' ∧ s'.clients = [c'] ∧
      (c'.closed = false → Lone s' c') := by
  have hlone : Lone (s.select {4}) c :=
    ⟨h.clients, h.fd, h.opened, h.slot, h.buffer, h.maxi, h.readSet⟩
  obtain ⟨s', hturn, hs'⟩ := checkClient_lone hlone (Finset.mem_singleton_self 4) hserve
  refine ⟨s', ?_, hs'⟩
  have hlisten : (3 : ℤ) ∉ clientReady.ready := by decide
  have hfuel : ((s.select {4}).pool.maxi + 1).toNat = 1 := by rw [hlone.maxi]; rfl
  have hready : 0 < (s.select {4}).pool.nready := Int.one_pos
  have hfirst : ((0 : ℕ) : ℤ) ≤ (s.select {4}).pool.maxi := by rw [hlone.maxi]; rfl
  rw [Server.round, if_neg hlisten, Server.checkClients]
  change Server.checkFrom ((s.select {4}).pool.maxi + 1).toNat 0 (s.select {4}) = some s'
  rw [hfuel, Server.checkFrom, if_pos ⟨hfirst, hready⟩, hturn]
  rfl

/-- The first free slot is the one behind the used ones. -/
theorem freeSlot_of_lt {p : Pool} {i : ℕ} (hi : i < fdSetsize) (hneg : p.clientfd i < 0)
    (hused : ∀ j < i, 0 ≤ p.clientfd j) : p.freeSlot = some i := by
  rw [Pool.freeSlot, List.find?_range_eq_some]
  exact ⟨by simpa using hneg, List.mem_range.2 hi, fun j hj ↦ by simpa using hused j hj⟩

theorem addClient_of_free {connfd : ℤ} {p : Pool} {i : ℕ} (hslot : p.freeSlot = some i) :
    addClient connfd p = Pool.register { p with nready := p.nready - 1 } connfd i := by
  have hadd : addClient connfd p = (Pool.freeSlot { p with nready := p.nready - 1 }).elim
      { p with nready := p.nready - 1 } (Pool.register { p with nready := p.nready - 1 } connfd) :=
    rfl
  rw [hadd, show Pool.freeSlot { p with nready := p.nready - 1 } = some i from hslot,
    Option.elim_some]

/-- The first client is accepted on the descriptor 4 and put into the slot 0. -/
theorem exists_lone (script : List ReadResult) :
    ∃ s, Reachable 3 s ∧ Lone s ⟨4, [], script, [], false⟩ := by
  have hvalid : Round.Valid (initial 3) 3 ⟨{3}, 4, script⟩ :=
    ⟨Finset.Subset.refl _, fun _ ↦ ⟨by simp, by simp [fdSetsize], by simp, rfl⟩⟩
  have hadd : addClient 4 ((initial 3).select {3}).pool =
      Pool.register { ((initial 3).select {3}).pool with nready := 0 } 4 0 :=
    addClient_of_free (freeSlot_of_lt (by decide) (by decide) (by simp))
  have hround : (initial 3).round 3 ⟨{3}, 4, script⟩ =
      some (((initial 3).select {3}).accept 4 script) := by
    rw [Server.round, if_pos (Finset.mem_singleton_self 3), Server.checkClients, Server.accept,
      hadd]
    rfl
  refine ⟨_, Reachable.start.round hvalid hround, ?_⟩
  rw [Server.accept, hadd]
  exact ⟨rfl, rfl, rfl, rfl, rfl, rfl, Finset.mem_insert_self 4 _⟩

theorem serve_isSome {c : Client} (hrest : .failed ∉ c.rest) : ∃ c', c.serve = some c' := by
  obtain ⟨line, unread, rest, hread, -⟩ :=
    @readlinebLoop_isSome (maxline - 1) [] [] c.rest hrest
  rw [Client.serve, rioReadlineb, hread]
  cases line <;> exact ⟨_, rfl⟩

/-- **A lone client is served to its end.** -/
theorem exists_closed_of_lone (n : ℕ) : ∀ {s : Server} {c : Client}, Reachable 3 s → Lone s c →
    .failed ∉ c.rest → (streamBytes c.rest).length < n →
      ∃ s' c', Reachable 3 s' ∧ c' ∈ s'.clients ∧ c'.script = c.script ∧ c'.closed = true := by
  induction n with
  | zero => exact fun _ _ _ hlt ↦ absurd hlt (Nat.not_lt_zero _)
  | succ n ih =>
    intro s c hs hlone hrest hlt
    obtain ⟨c', hserve⟩ := serve_isSome hrest
    obtain ⟨s', hround, hclients, hlone'⟩ := round_clientReady hlone hserve
    have hs' := hs.round (clientReady_valid hlone) hround
    obtain ⟨line, unread, hline, hscript, -, -, hclosed⟩ := serve_spec hserve
    rcases eq_or_ne c'.closed true with hc' | hc'
    · exact ⟨s', c', hs', hclients ▸ List.mem_singleton_self c', hscript, hc'⟩
    · -- the line served is not empty, so fewer bytes are left
      obtain ⟨used, hused, hbytes⟩ := hline.used
      have hne : line ≠ [] := fun h ↦ hc' (hclosed.2 (.inl h))
      have hshorter : (streamBytes c'.rest).length < (streamBytes c.rest).length := by
        have := List.length_pos_iff.2 hne
        rw [hused, streamBytes_append, hbytes, List.length_append, List.length_append]
        omega
      have hrest' : ReadResult.failed ∉ c'.rest := fun h ↦ hrest (hused ▸ List.mem_append_right _ h)
      obtain ⟨s'', c'', hs'', hmem, hscript', hclosed'⟩ :=
        ih hs' (hlone' (Bool.eq_false_of_not_eq_true hc')) hrest' (by omega)
      exact ⟨s'', c'', hs'', hmem, hscript'.trans hscript, hclosed'⟩

/-- Any stream on which no read fails is that of a client served to its end. -/
theorem exists_closed {script : List ReadResult} (hscript : .failed ∉ script) :
    ∃ s c, Reachable 3 s ∧ c ∈ s.clients ∧ c.script = script ∧ c.closed = true := by
  obtain ⟨s, hs, hlone⟩ := exists_lone script
  obtain ⟨s', c', hs', hmem, hscript', hclosed⟩ :=
    exists_closed_of_lone _ hs hlone hscript (Nat.lt_succ_self _)
  exact ⟨s', c', hs', hmem, hscript', hclosed⟩

/-! ### Which clients are echoed faithfully -/

/-- **Echo fidelity** for the clients that send a given stream, cut into given results of `read`: in
every run, whatever the other clients send and whenever `Select` reports whom, the bytes echoed are
a prefix of those received, and all those sent once the connection is closed. -/
def EchoFaithful (script : List ReadResult) : Prop :=
  ∀ {listenfd : ℤ} {s : Server} {c : Client}, Reachable listenfd s → c ∈ s.clients →
    c.script = script → c.echoed <+: c.received ∧ (c.closed = true → c.echoed = c.sent)

/-- **The server is faithful to a client exactly when the client's stream keeps to the lines**: no
`read` delivers bytes beyond the end of the line it completes. -/
theorem echo_faithful_iff {script : List ReadResult} (hscript : .failed ∉ script) :
    EchoFaithful script ↔ LineAligned (maxline - 1) script := by
  refine ⟨fun hfaithful ↦ ?_, ?_⟩
  · obtain ⟨s, c, hs, hmem, rfl, hclosed⟩ := exists_closed hscript
    have hserved := (wellServed_of_reachable hs).served c hmem
    exact (hserved.faithful.echoed_eq_sent_iff hclosed).1 ((hfaithful hs hmem rfl).2 hclosed)
  · rintro halign listenfd s c hs hmem rfl
    have hserved := ((wellServed_of_reachable hs).served c hmem).faithful
    refine ⟨?_, fun hclosed ↦ (hserved.echoed_eq_sent_iff hclosed).2 halign⟩
    rcases hserved.echo with ⟨heq, -⟩ | ⟨hbad, -⟩
    · rw [heq]
    · exact absurd halign hbad

/-- One line in one piece is echoed. -/
theorem echo_faithful_oneLine :
    EchoFaithful [.data ⟨[104, 105, 10], by simp, by decide⟩] :=
  (echo_faithful_iff (by simp)).2 (lineAligned_data.2 (.inr ⟨rfl, lineAligned_nil _⟩))

/-- **Two lines in one piece** are not: the second one is lost. -/
theorem twoLines_not_faithful :
    ¬ EchoFaithful [.data ⟨[97, 10, 98, 10], by simp, by decide⟩] := by
  intro hfaithful
  obtain ⟨s, c, hs, hmem, hscript, hclosed⟩ :=
    @exists_closed [.data ⟨[97, 10, 98, 10], by simp, by decide⟩] (by simp)
  have hserved := ((wellServed_of_reachable hs).served c hmem).faithful
  have halign := (hserved.echoed_eq_sent_iff hclosed).1 ((hfaithful hs hmem hscript).2 hclosed)
  rw [hscript] at halign
  exact halign

end CsappCode.SelectServer
