import CsappCode.Server.AddClient

/-!
# No ready client is skipped

`check_clients` stops as soon as `nready` is zero. `add_client` and every read count it down, so it
stops early just if all ready clients have been read, wherever they are in the array.

* `Server.scanFrom` is the loop once more, with the descriptors it reads from.
* `scan_spec` is the loop invariant: `nready` is the number of ready clients in the slots to come.
* `Server.roundOutcome` is a round with the loop of `add_client` as it is written, so that a
  descriptor may turn out not to fit the set.
* `round_reads_ready` is what a whole round does.

## What the result rests on

The scan itself rests on `Slotted` alone: every watched descriptor is in exactly one slot, and no
slot in use is above `maxi`. A slot freed in the same scan is behind the loop's index, and a
connection accepted in the same round is not in the ready set, for it was not open when `Select`
was asked; so neither disturbs the count (`readyFrom_afterTurn`, `accepting_pool`). How large the
descriptors are does not matter to this part.

It matters to `FD_SET`. The kernel may well return a descriptor of 1024 or more, a `fd_set` has no
room for it, and `add_client` does not look (`descriptor1024_not_readsReady`). So the rounds of the
main result are those of `Round.Valid`, in which the accepted descriptors fit.
-/

namespace CsappCode.SelectServer

open Csapp

/-! ### The descriptors read -/

/-- What a turn reads from. -/
def Pool.reads (p : Pool) (i : ℕ) : List ℤ := if p.Ready i then [(p.clientrio i).fd] else []

/-- The loop of `check_clients`, with the descriptors it reads from. -/
def Server.scanFrom : ℕ → ℕ → Server → Option (List ℤ × Server)
  | 0, _, s => some ([], s)
  | m + 1, i, s =>
    if i ≤ s.pool.maxi ∧ 0 < s.pool.nready then
      (s.checkClient i).bind fun s' ↦
        (Server.scanFrom m (i + 1) s').map fun q ↦ (s.pool.reads i ++ q.1, q.2)
    else some ([], s)

theorem map_snd_scanFrom (m : ℕ) : ∀ (i : ℕ) (s : Server),
    (s.scanFrom m i).map Prod.snd = s.checkFrom m i := by
  induction m with
  | zero => exact fun _ _ ↦ rfl
  | succ m ih =>
    intro i s
    rw [Server.scanFrom, Server.checkFrom]
    split_ifs
    · rcases s.checkClient i with - | s'
      · rfl
      · rw [Option.bind_some, Option.bind_some, Option.map_map, ← ih]
        rfl
    · rfl

/-- One turn of the main loop, with the descriptors that `check_clients` reads from. -/
def Server.scanRound (s : Server) (listenfd : ℤ) (r : Round) : Option (List ℤ × Server) :=
  let s := s.accepting listenfd r
  s.scanFrom (s.pool.maxi + 1).toNat 0

theorem map_snd_scanRound (s : Server) (listenfd : ℤ) (r : Round) :
    (s.scanRound listenfd r).map Prod.snd = s.round listenfd r := by
  rw [Server.scanRound, round_eq, Server.checkClients, map_snd_scanFrom]

/-! ### The loop -/

/-- The ready clients in `m` slots from `i` on. -/
def Pool.readyFrom (p : Pool) (i m : ℕ) : List ℤ :=
  ((List.range' i m).filter fun j ↦ p.Ready j).map p.clientfd

theorem readyFrom_succ (p : Pool) (i m : ℕ) : p.readyFrom i (m + 1) =
    (if p.Ready i then [p.clientfd i] else []) ++ p.readyFrom (i + 1) m := by
  rw [Pool.readyFrom, Pool.readyFrom, List.range'_succ, List.filter_cons]
  by_cases hready : p.Ready i <;> simp [hready]

/-- A turn leaves the slots to come as they are. -/
theorem readyFrom_afterTurn (p : Pool) (i m : ℕ) (closed : Bool) :
    (p.afterTurn i closed).readyFrom (i + 1) m = p.readyFrom (i + 1) m := by
  have hslot : ∀ j, i < j → (p.afterTurn i closed).clientfd j = p.clientfd j := by
    intro j hj
    cases closed with
    | false => rfl
    | true => exact Function.update_of_ne hj.ne' _ _
  have hset : (p.afterTurn i closed).readySet = p.readySet := by cases closed <;> rfl
  have hready : ∀ j ∈ List.range' (i + 1) m,
      ((p.afterTurn i closed).Ready j ↔ p.Ready j) := by
    intro j hj
    have hlt : i < j := (List.mem_range'_1.1 hj).1
    rw [Pool.Ready, Pool.Ready, hslot j hlt, hset]
  rw [Pool.readyFrom, Pool.readyFrom, List.filter_congr fun j hj ↦ decide_eq_decide.2 (hready j hj)]
  refine List.map_congr_left fun j hj ↦ hslot j ?_
  exact (List.mem_range'_1.1 (List.mem_filter.1 hj).1).1

/-- Each open connection on one of these descriptors has been served once, and no other has been
touched. -/
def ServedOnce (fds : List ℤ) (s s' : Server) : Prop :=
  ∀ (k : ℕ) (c : Client), s.clients[k]? = some c →
    (c.closed = false ∧ c.fd ∈ fds → ∃ c', c.serve = some c' ∧ s'.clients[k]? = some c') ∧
    (¬ (c.closed = false ∧ c.fd ∈ fds) → s'.clients[k]? = some c)

theorem servedOnce_nil (s : Server) : ServedOnce [] s s :=
  fun _ _ hc ↦ ⟨fun h ↦ absurd h.2 List.not_mem_nil, fun _ ↦ hc⟩

theorem ServedOnce.cons {fd : ℤ} {fds : List ℤ} {s s₁ s' : Server} (h : ServedOnce [fd] s s₁)
    (h' : ServedOnce fds s₁ s') (hfd : fd ∉ fds) : ServedOnce (fd :: fds) s s' := by
  intro k c hc
  obtain ⟨hserved, hleft⟩ := h k c hc
  rcases Classical.em (c.closed = false ∧ c.fd ∈ [fd]) with hhead | hhead
  · obtain ⟨c', hserve, hc'⟩ := hserved hhead
    have hnot : ¬ (c'.closed = false ∧ c'.fd ∈ fds) := fun hmem ↦ by
      rw [serve_fd hserve, List.mem_singleton.1 hhead.2] at hmem
      exact hfd hmem.2
    refine ⟨fun _ ↦ ⟨c', hserve, (h' k c' hc').2 hnot⟩, fun hnone ↦ absurd ⟨hhead.1, ?_⟩ hnone⟩
    exact List.mem_cons.2 (.inl (List.mem_singleton.1 hhead.2))
  · obtain ⟨hserved', hleft'⟩ := h' k c (hleft hhead)
    refine ⟨fun ⟨hopen, hmem⟩ ↦ hserved' ⟨hopen, ?_⟩, fun hnone ↦ hleft' fun htail ↦ ?_⟩
    · refine (List.mem_cons.1 hmem).resolve_left fun heq ↦ hhead ⟨hopen, ?_⟩
      exact List.mem_singleton.2 heq
    · exact hnone ⟨htail.1, List.mem_cons_of_mem _ htail.2⟩

/-- **A turn serves the client in its slot**, if that is ready, and counts it down. -/
theorem turn_spec {listenfd : ℤ} {s s' : Server} {i : ℕ} (h : Slotted listenfd s)
    (hturn : s.checkClient i = some s') (m : ℕ) :
    ServedOnce (s.pool.reads i) s s' ∧ s'.pool.nready = s.pool.nready - (s.pool.reads i).length ∧
      s'.pool.maxi = s.pool.maxi ∧
      s.pool.readyFrom i (m + 1) = s.pool.reads i ++ s'.pool.readyFrom (i + 1) m := by
  rw [readyFrom_succ, Pool.reads]
  rcases checkClient_cases h.fresh hturn with ⟨hnot, rfl⟩ |
    ⟨hready, k, c, c', -, hc, hopen, hslot, hserve, hclients, hpool⟩
  · rw [if_neg hnot, if_neg hnot]
    exact ⟨servedOnce_nil s', by simp, rfl, rfl⟩
  · rw [if_pos hready, if_pos hready, h.fresh i hready.1, hpool, readyFrom_afterTurn]
    refine ⟨fun j d hd ↦ ⟨fun ⟨hdopen, hdfd⟩ ↦ ?_, fun hnone ↦ ?_⟩, ?_, ?_, rfl⟩
    · obtain rfl := h.oneOpen j k d c hd hc ((List.mem_singleton.1 hdfd).trans hslot.symm) hdopen
        hopen
      obtain rfl : c = d := Option.some.inj (hc.symm.trans hd)
      refine ⟨c', hserve, ?_⟩
      rw [hclients, List.getElem?_set_self (List.getElem?_eq_some_iff.1 hc).1]
    · have hne : k ≠ j := by
        rintro rfl
        obtain rfl : c = d := Option.some.inj (hc.symm.trans hd)
        exact hnone ⟨hopen, List.mem_singleton.2 hslot⟩
      rw [hclients, List.getElem?_set_ne hne, hd]
    · cases c'.closed <;> rfl
    · cases c'.closed <;> rfl

theorem mem_readyFrom {p : Pool} {i m : ℕ} {fd : ℤ} (h : fd ∈ p.readyFrom i m) :
    ∃ j, i ≤ j ∧ p.Ready j ∧ p.clientfd j = fd := by
  obtain ⟨j, hj, rfl⟩ := List.mem_map.1 h
  obtain ⟨hrange, hready⟩ := List.mem_filter.1 hj
  exact ⟨j, (List.mem_range'_1.1 hrange).1, of_decide_eq_true hready, rfl⟩

/-- The slots in use hold different descriptors. -/
theorem Slotted.nodup_readyFrom {listenfd : ℤ} {s : Server} (h : Slotted listenfd s) (i m : ℕ) :
    (s.pool.readyFrom i m).Nodup := by
  refine List.Nodup.map_on (fun j hj k _ heq ↦ ?_) (List.Nodup.filter _ List.nodup_range')
  have hready : s.pool.Ready j := of_decide_eq_true (List.mem_filter.1 hj).2
  exact h.injective j k hready.1.le heq

/-- **The loop invariant.** While `nready` is the number of ready clients in the slots to come, the
loop reads from each of them, once and in order, and ends with `nready` at zero. -/
theorem scan_spec {listenfd : ℤ} (m : ℕ) : ∀ {i : ℕ} {s s' : Server}, Slotted listenfd s →
    (i : ℤ) + m = s.pool.maxi + 1 → s.pool.nready = (s.pool.readyFrom i m).length →
    s.checkFrom m i = some s' →
      s.scanFrom m i = some (s.pool.readyFrom i m, s') ∧ s'.pool.nready = 0 ∧
        ServedOnce (s.pool.readyFrom i m) s s' := by
  induction m with
  | zero =>
    intro i s s' _ _ hcount hscan
    obtain rfl := Option.some.inj hscan
    exact ⟨rfl, hcount, servedOnce_nil s⟩
  | succ m ih =>
    intro i s s' h hrange hcount hscan
    rw [Server.checkFrom] at hscan
    rw [Server.scanFrom]
    split_ifs at hscan ⊢ with hgo
    · obtain ⟨s₁, hturn, hrest⟩ := Option.bind_eq_some_iff.1 hscan
      obtain ⟨hserved, hnready, hmaxi, hsplit⟩ := turn_spec h hturn m
      have hnodup := h.nodup_readyFrom i (m + 1)
      rw [hsplit] at hcount hnodup ⊢
      rw [List.length_append] at hcount
      obtain ⟨hlog, hzero, hrestServed⟩ := ih (h.turn hturn) (by push_cast at hrange ⊢; omega)
        (by push_cast at hcount; omega) hrest
      refine ⟨by rw [hturn, Option.bind_some, hlog]; rfl, hzero, ?_⟩
      rw [Pool.reads] at hserved hnodup ⊢
      split_ifs at hserved hnodup ⊢
      · exact hserved.cons hrestServed (List.nodup_cons.1 hnodup).1
      · intro k c hc
        have hsame := (hserved k c hc).2 fun hmem ↦ absurd hmem.2 List.not_mem_nil
        exact hrestServed k c hsame
    · -- no ready client is left, for the slot is one that the loop covers
      obtain rfl := Option.some.inj hscan
      have hnil : s.pool.readyFrom i (m + 1) = [] := by
        refine List.length_eq_zero_iff.1 ?_
        push_cast at hrange
        by_contra hne
        exact hgo ⟨by omega, by omega⟩
      rw [hnil] at hcount ⊢
      exact ⟨rfl, hcount, servedOnce_nil s⟩

/-! ### Rounds -/

/-- What `check_clients` is given: the ready set, the number of ready clients, and all that was
watched. -/
theorem accepting_pool (s : Server) (listenfd : ℤ) (r : Round) :
    (s.accepting listenfd r).pool.readySet = r.ready ∧
      (s.accepting listenfd r).pool.nready = (r.ready.erase listenfd).card ∧
      s.pool.readSet ⊆ (s.accepting listenfd r).pool.readSet := by
  rw [Server.accepting]
  split_ifs with hmem
  · have hpos := Finset.card_pos.2 ⟨listenfd, hmem⟩
    have hcard : ((r.ready.erase listenfd).card : ℤ) = r.ready.card - 1 := by
      rw [Finset.card_erase_of_mem hmem]
      omega
    rw [hcard, Server.accept]
    obtain ⟨i, -, -, hadd⟩ | ⟨-, hadd⟩ := addClient_cases r.accepted (s.select r.ready).pool
    · rw [hadd]
      exact ⟨rfl, rfl, Finset.subset_insert _ _⟩
    · rw [hadd]
      exact ⟨rfl, rfl, Finset.Subset.refl _⟩
  · rw [Finset.erase_eq_of_notMem hmem]
    exact ⟨rfl, rfl, Finset.Subset.refl _⟩

/-- **The ready clients are found in the slots.** -/
theorem mem_readyFrom_iff {listenfd : ℤ} {s : Server} {r : Round} (h : Slotted listenfd s)
    (hr : r.Admissible s listenfd) {fd : ℤ} :
    fd ∈ (s.accepting listenfd r).pool.readyFrom 0 ((s.accepting listenfd r).pool.maxi + 1).toNat ↔
      fd ∈ r.ready ∧ fd ≠ listenfd := by
  have ht := h.accepting hr
  obtain ⟨hready, -, hsub⟩ := accepting_pool s listenfd r
  generalize s.accepting listenfd r = t at ht hready hsub
  constructor
  · intro hmem
    obtain ⟨j, -, hj, rfl⟩ := mem_readyFrom hmem
    exact ⟨hready ▸ hj.2, (ht.inUse j hj.1.le).client⟩
  · rintro ⟨hmem, hne⟩
    obtain ⟨j, hpos, rfl⟩ := ((ht.readSet fd).1 (hsub (hr.ready hmem))).resolve_left hne
    have huse := ht.inUse j hpos
    have hlt : j < (t.pool.maxi + 1).toNat := by
      have := huse.maxi
      omega
    have hstd := huse.standard
    refine List.mem_map.2 ⟨j, List.mem_filter.2 ⟨?_, decide_eq_true ⟨by omega, ?_⟩⟩, rfl⟩
    · exact List.mem_range'_1.2 ⟨Nat.zero_le _, by omega⟩
    · rw [hready]
      exact hmem

/-- A turn comes to an end unless a read fails. -/
theorem exists_turn {listenfd : ℤ} {s : Server} (h : Slotted listenfd s)
    (hrest : ∀ c ∈ s.clients, .failed ∉ c.rest) (i : ℕ) :
    ∃ s', s.checkClient i = some s' ∧ ∀ c ∈ s'.clients, .failed ∉ c.rest := by
  obtain ⟨s', hturn⟩ : ∃ s', s.checkClient i = some s' := by
    rw [Server.checkClient]
    split_ifs with hready
    · rcases hopen : s.openOn (s.pool.clientfd i) with - | k
      · exact absurd (h.inUse i hready.1.le).opened (openOn_eq_none_iff.1 hopen)
      obtain ⟨c, hc, -, -⟩ := exists_of_openOn hopen
      obtain ⟨line, unread, rest, hread, -⟩ :=
        @readlinebLoop_isSome (maxline - 1) [] [] c.rest (hrest c (List.mem_of_getElem? hc))
      have hline : s.countDown.readlineb ⟨s.pool.clientfd i, []⟩ =
          some (line, s.countDown.onFd (s.pool.clientfd i) (Client.consume rest)) := by
        rw [Server.readlineb, show s.countDown.openOn (s.pool.clientfd i) = some k from hopen]
        simp only [Option.bind_eq_bind, Option.bind_some,
          show s.countDown.clients[k]? = some c from hc, rioReadlineb, hread]
        rfl
      rw [h.fresh i hready.1]
      simp only [hline]
      cases line <;> exact ⟨_, rfl⟩
    · exact ⟨s, rfl⟩
  refine ⟨s', hturn, ?_⟩
  rcases checkClient_cases h.fresh hturn with ⟨-, rfl⟩ |
    ⟨-, k, c, c', -, hc, -, -, hserve, hclients, -⟩
  · exact hrest
  · intro d hd
    rw [hclients] at hd
    rcases List.mem_or_eq_of_mem_set hd with hd | rfl
    · exact hrest d hd
    · obtain ⟨line, unread, hline, -⟩ := serve_spec hserve
      obtain ⟨used, hused, -⟩ := hline.used
      intro hmem
      exact hrest c (List.mem_of_getElem? hc) (hused ▸ List.mem_append_right _ hmem)

theorem exists_scan {listenfd : ℤ} (m : ℕ) : ∀ {s : Server} (i : ℕ), Slotted listenfd s →
    (∀ c ∈ s.clients, .failed ∉ c.rest) → ∃ s', s.checkFrom m i = some s' := by
  induction m with
  | zero => exact fun {s} _ _ _ ↦ ⟨s, rfl⟩
  | succ m ih =>
    intro s i h hrest
    rw [Server.checkFrom]
    split_ifs
    · obtain ⟨s₁, hturn, hrest₁⟩ := exists_turn h hrest i
      obtain ⟨s', hs'⟩ := ih (i + 1) (h.turn hturn) hrest₁
      exact ⟨s', by rw [hturn, Option.bind_some, hs']⟩
    · exact ⟨s, rfl⟩

/-- **A round comes to an end** unless a read fails. -/
theorem exists_round {listenfd : ℤ} {s : Server} {r : Round} (h : Slotted listenfd s)
    (hr : r.Admissible s listenfd) (hrest : ∀ c ∈ s.clients, .failed ∉ c.rest)
    (hscript : .failed ∉ r.script) : ∃ s', s.round listenfd r = some s' := by
  rw [round_eq]
  refine exists_scan _ 0 (h.accepting hr) fun c hc ↦ ?_
  rw [Server.accepting] at hc
  split_ifs at hc
  · rcases List.mem_append.1 hc with hc | hc
    · exact hrest c hc
    · rw [List.mem_singleton.1 hc]
      exact hscript
  · exact hrest c hc

/-! ### Rounds of the code -/

/-- How a turn of the main loop can end: it comes to its end, a read fails, `add_client` calls
`app_error`, or `FD_SET` writes outside the set, after which nothing is known. -/
inductive RoundOutcome where
  | ended (s : Server)
  | readFailed
  | tooManyClients
  | outsideSet

/-- `check_clients` at the end of the turn. -/
def Server.checkOutcome (s : Server) : RoundOutcome := s.checkClients.elim .readFailed .ended

/-- One turn of the main loop, with the loop of `add_client` as it is written. -/
def Server.roundOutcome (s : Server) (listenfd : ℤ) (r : Round) : RoundOutcome :=
  let s := s.select r.ready
  if listenfd ∈ r.ready then
    match addClientLoop r.accepted s.pool with
    | .returned p =>
      Server.checkOutcome ⟨p, s.clients ++ [⟨r.accepted, [], r.script, [], false⟩]⟩
    | .tooManyClients => .tooManyClients
    | .outsideSet => .outsideSet
  else s.checkOutcome

/-- While the descriptors fit the set, a turn is a round of the model. -/
theorem roundOutcome_eq {listenfd : ℤ} {s : Server} {r : Round} (hr : r.Valid s listenfd) :
    s.roundOutcome listenfd r = (s.round listenfd r).elim .readFailed .ended := by
  rw [Server.roundOutcome, Server.round]
  split_ifs with hmem
  · obtain ⟨hstd, hlt, -⟩ := hr.accepted hmem
    rw [addClientLoop_eq (by omega) hlt]
    rfl
  · rfl

/-- **No ready client is skipped** in a round: it does not write outside the set, and when no
failing read cuts it short, `check_clients` has read from every client that `Select` has found
ready, from each once, and from no other one; each of those connections has been served one line,
and the others are as they were; and the count of ready descriptors has come down to zero. -/
def ReadsReady (listenfd : ℤ) (s : Server) (r : Round) : Prop :=
  match s.roundOutcome listenfd r with
  | .ended s' => ∃ log, s.scanRound listenfd r = some (log, s') ∧ log.Nodup ∧
      (∀ fd, fd ∈ log ↔ fd ∈ r.ready ∧ fd ≠ listenfd) ∧ s'.pool.nready = 0 ∧
      ServedOnce log (s.accepting listenfd r) s'
  | .readFailed => True
  | .tooManyClients => False
  | .outsideSet => False

/-- A round of the model reads from the ready clients, however large the descriptors are. -/
theorem scanRound_spec {listenfd : ℤ} {s s' : Server} (hs : Slotted listenfd s) {r : Round}
    (hr : r.Admissible s listenfd) (hround : s.round listenfd r = some s') :
    ∃ log, s.scanRound listenfd r = some (log, s') ∧ log.Nodup ∧
      (∀ fd, fd ∈ log ↔ fd ∈ r.ready ∧ fd ≠ listenfd) ∧ s'.pool.nready = 0 ∧
      ServedOnce log (s.accepting listenfd r) s' := by
  have ht := hs.accepting hr
  have hmem := @mem_readyFrom_iff listenfd s r hs hr
  obtain ⟨-, hcount, -⟩ := accepting_pool s listenfd r
  rw [round_eq, Server.checkClients] at hround
  rw [Server.scanRound]
  generalize s.accepting listenfd r = t at ht hmem hcount hround ⊢
  have hnodup := ht.nodup_readyFrom 0 (t.pool.maxi + 1).toNat
  have hlength : t.pool.nready = (t.pool.readyFrom 0 (t.pool.maxi + 1).toNat).length := by
    have hset : (t.pool.readyFrom 0 (t.pool.maxi + 1).toNat).toFinset = r.ready.erase listenfd := by
      ext fd
      rw [List.mem_toFinset, hmem, Finset.mem_erase, and_comm]
    rw [hcount, ← hset, List.toFinset_card_of_nodup hnodup]
  have hrange : ((0 : ℕ) : ℤ) + (t.pool.maxi + 1).toNat = t.pool.maxi + 1 := by
    have := ht.maxi
    omega
  obtain ⟨hlog, hzero, hserved⟩ := scan_spec _ ht hrange hlength hround
  exact ⟨_, hlog, hnodup, fun fd ↦ hmem, hzero, hserved⟩

/-- **No ready client is skipped** while the accepted descriptors fit the set, and a round in which
no read fails comes to its end. -/
theorem round_reads_ready {listenfd : ℤ} {s : Server} (h : Reachable listenfd s) {r : Round}
    (hr : r.Valid s listenfd) :
    ReadsReady listenfd s r ∧
    ((∀ c ∈ s.clients, .failed ∉ c.rest) → .failed ∉ r.script →
      ∃ s', s.roundOutcome listenfd r = .ended s') := by
  have hs := slotted_of_attainable h.attainable
  rw [ReadsReady, roundOutcome_eq hr]
  constructor
  · rcases hround : s.round listenfd r with - | s'
    · trivial
    · exact scanRound_spec hs hr.admissible hround
  · intro hrest hscript
    obtain ⟨s', hround⟩ := exists_round hs hr.admissible hrest hscript
    exact ⟨s', by rw [hround, Option.elim_some]⟩

/-- The first client is ready, and is read from once. -/
theorem round_reads_ready_first : ∃ s, Reachable 3 s ∧ clientReady.Valid s 3 ∧
    ReadsReady 3 s clientReady ∧ ∃ s', s.roundOutcome 3 clientReady = .ended s' := by
  obtain ⟨s, hs, hlone⟩ := exists_lone []
  have hr := clientReady_valid hlone
  obtain ⟨hreads, hends⟩ := round_reads_ready hs hr
  refine ⟨s, hs, hr, hreads, hends (fun c hc ↦ ?_) List.not_mem_nil⟩
  rw [hlone.clients] at hc
  rw [List.mem_singleton.1 hc]
  exact List.not_mem_nil

/-- **The descriptor 1024 does not fit the set.** A server that listens on 3 and is given it for its
first client, which is neither open nor one of the standard ones, writes outside the set before it
comes to the clients. -/
theorem descriptor1024_not_readsReady : Reachable 3 (initial 3) ∧
    (⟨{3}, 1024, []⟩ : Round).Admissible (initial 3) 3 ∧
    ¬ ReadsReady 3 (initial 3) ⟨{3}, 1024, []⟩ := by
  have hfree : Pool.freeSlot ((initial 3).select {3}).pool = some 0 :=
    freeSlot_of_lt (by decide) (by decide) (by simp)
  have houtside : (initial 3).roundOutcome 3 ⟨{3}, 1024, []⟩ = .outsideSet := by
    rw [Server.roundOutcome, if_pos (Finset.mem_singleton_self 3)]
    simp only [addClientLoop_of_free hfree, Pool.store, fdSetsize]
    rfl
  refine ⟨.start, ⟨Finset.Subset.refl _, fun _ ↦ ⟨by decide, by decide, rfl⟩⟩, ?_⟩
  rw [ReadsReady, houtside]
  exact id

end CsappCode.SelectServer
