import CsappCode.Csapp.Rio
import Mathlib.Data.Finset.Card
import Mathlib.Data.Int.Notation

/-!
# The select-based echo server

`server/multi_conecho_server.c` serves many connections from one thread. Each round of its main loop
asks `Select` which descriptors are ready, accepts a connection if the listening one is, and then
lets `check_clients` read one line from every ready client.

The kernel's side is the list of all connections accepted so far, in that order: what `read` has
returned on each, what it will still return, and what has been written back. A descriptor names the
one open connection that has it.

## What is kept of the source

* A `fd_set` is the finite set of its descriptors. It has room for those below `FD_SETSIZE` only;
  what `FD_SET` does to a larger one is in `Server/AddClient.lean`, where the loop of `add_client`
  is written out, and the states of `Reachable` are those of descriptors that fit.
* `check_clients` copies the `rio_t` of a slot and reads from the copy, so what the copy has
  buffered is lost when the turn ends. `Server.readlineb` returns the line and the kernel's side,
  and no buffer.
* A failing `read` ends the process in `unix_error`: there is no state then.
* `byte_cnt` and the line printed about it are left out, for nothing reads the counter.
* The bytes of the line are those `rio_readlineb` stores; `Rio_writen` writes them all.

## What is assumed of the kernel

`Round.Valid` is the whole of it. `Select` returns a subset of what it was asked about, and `Accept`
a descriptor that is not open and not one of the standard three. That it is below `FD_SETSIZE` as
well the kernel does not promise: it is the bound that programs with `Select` live with. Which
clients are ready, and when a connection comes, is open, and so is how the bytes are cut into the
results of `read`.
-/

namespace CsappCode.SelectServer

open Csapp (ReadResult rioReadlineb maxline streamBytes)

/-- `FD_SETSIZE`. -/
def fdSetsize : ℕ := 1024

/-- `rio_t`: its descriptor and the unread bytes of its buffer. -/
structure Rio where
  fd : ℤ
  unread : List UInt8

/-- `Rio_readinitb`. -/
def rioReadinitb (fd : ℤ) : Rio := ⟨fd, []⟩

/-- `pool`. -/
structure Pool where
  maxfd : ℤ
  readSet : Finset ℤ
  readySet : Finset ℤ
  nready : ℤ
  maxi : ℤ
  clientfd : ℕ → ℤ
  clientrio : ℕ → Rio

/-- `init_pool`, on the zeroed static pool. -/
def initPool (listenfd : ℤ) : Pool where
  maxfd := listenfd
  readSet := {listenfd}
  readySet := ∅
  nready := 0
  maxi := -1
  clientfd := fun _ ↦ -1
  clientrio := fun _ ↦ ⟨0, []⟩

/-- A connection accepted: the results `read` has returned on it and those it will return, and the
bytes written back. -/
structure Client where
  fd : ℤ
  used : List ReadResult
  rest : List ReadResult
  echoed : List UInt8
  closed : Bool

/-- All results of `read` on the connection, to its end of file. -/
def Client.script (c : Client) : List ReadResult := c.used ++ c.rest

/-- The bytes `read` has returned. -/
def Client.received (c : Client) : List UInt8 := streamBytes c.used

/-- The bytes the client sends in all. -/
def Client.sent (c : Client) : List UInt8 := streamBytes c.script

/-- The process, and the connections the kernel keeps for it. -/
structure Server where
  pool : Pool
  clients : List Client

def initial (listenfd : ℤ) : Server := ⟨initPool listenfd, []⟩

/-! ### Reading and writing -/

/-- The open connection on a descriptor. -/
def Server.openOn (s : Server) (fd : ℤ) : Option ℕ :=
  s.clients.findIdx? fun c ↦ c.fd = fd ∧ c.closed = false

/-- A change to the open connection on a descriptor. -/
def Server.onFd (s : Server) (fd : ℤ) (f : Client → Client) : Server :=
  match s.openOn fd with
  | none => s
  | some k => { s with clients := s.clients.modify k f }

/-- `read` has got as far as the results `rest`. -/
def Client.consume (rest : List ReadResult) (c : Client) : Client :=
  { c with used := c.used ++ c.rest.take (c.rest.length - rest.length), rest := rest }

def Client.echo (line : List UInt8) (c : Client) : Client := { c with echoed := c.echoed ++ line }

def Client.close (c : Client) : Client := { c with closed := true }

/-- `Rio_readlineb(&rio, buf, MAXLINE)`: the line, and the server after the reads. The process ends
in `unix_error` where there is no value. What is left in `rio` is not returned, for the caller's
`rio` is a copy that nobody looks at again. -/
def Server.readlineb (s : Server) (rio : Rio) : Option (List UInt8 × Server) := do
  let k ← s.openOn rio.fd
  let c ← s.clients[k]?
  let (line, _, rest) ← rioReadlineb maxline rio.unread c.rest
  pure (line, s.onFd rio.fd (Client.consume rest))

/-! ### `add_client` and `check_clients` -/

/-- The first free slot, where the loop of `add_client` stops. -/
def Pool.freeSlot (p : Pool) : Option ℕ := (List.range fdSetsize).find? fun i ↦ p.clientfd i < 0

/-- What `add_client` does at the slot `i`. -/
def Pool.register (p : Pool) (connfd : ℤ) (i : ℕ) : Pool :=
  { p with
    clientfd := Function.update p.clientfd i connfd
    clientrio := Function.update p.clientrio i (rioReadinitb connfd)
    readSet := insert connfd p.readSet
    maxfd := if p.maxfd < connfd then connfd else p.maxfd
    maxi := if p.maxi < i then i else p.maxi }

/-- `add_client`. The test for too many clients is inside the loop and never succeeds. -/
def addClient (connfd : ℤ) (p : Pool) : Pool :=
  let p := { p with nready := p.nready - 1 }
  p.freeSlot.elim p (p.register connfd)

/-- `pool->nready--`. -/
def Server.countDown (s : Server) : Server :=
  { s with pool := { s.pool with nready := s.pool.nready - 1 } }

/-- The slot `i` is freed at the end of file: `Close`, `FD_CLR` and -1 in the slot. -/
def Server.release (s : Server) (connfd : ℤ) (i : ℕ) : Server :=
  let pool := { s.pool with
    readSet := s.pool.readSet.erase connfd
    clientfd := Function.update s.pool.clientfd i (-1) }
  { s.onFd connfd Client.close with pool := pool }

/-- A line is written back. -/
def Server.writeLine (s : Server) (connfd : ℤ) (line : List UInt8) : Server :=
  s.onFd connfd (Client.echo line)

/-- One turn of the loop of `check_clients`. -/
def Server.checkClient (s : Server) (i : ℕ) : Option Server :=
  let connfd := s.pool.clientfd i
  let rio := s.pool.clientrio i
  if 0 < connfd ∧ connfd ∈ s.pool.readySet then
    match s.countDown.readlineb rio with
    | none => none
    | some ([], s) => some (s.release connfd i)
    | some (line, s) => some (s.writeLine connfd line)
  else some s

/-- The loop of `check_clients` from the slot `i` on, for at most `m` turns. -/
def Server.checkFrom : ℕ → ℕ → Server → Option Server
  | 0, _, s => some s
  | m + 1, i, s =>
    if i ≤ s.pool.maxi ∧ 0 < s.pool.nready then (s.checkClient i).bind (Server.checkFrom m (i + 1))
    else some s

/-- `check_clients`: the turns are those up to `maxi`, which they leave as it is. -/
def Server.checkClients (s : Server) : Option Server := s.checkFrom (s.pool.maxi + 1).toNat 0

/-- **The loop keeps what every turn keeps.** -/
theorem checkFrom_invariant {I : Server → Prop}
    (hturn : ∀ {s s' : Server} {i : ℕ}, I s → s.checkClient i = some s' → I s') (m : ℕ) :
    ∀ {s s' : Server} {i : ℕ}, I s → s.checkFrom m i = some s' → I s' := by
  induction m with
  | zero =>
    intro s s' i hI hscan
    obtain rfl := Option.some.inj hscan
    exact hI
  | succ m ih =>
    intro s s' i hI hscan
    rw [Server.checkFrom] at hscan
    split_ifs at hscan
    · obtain ⟨s₁, hstep, hrest⟩ := Option.bind_eq_some_iff.1 hscan
      exact ih (hturn hI hstep) hrest
    · obtain rfl := Option.some.inj hscan
      exact hI

/-! ### The main loop -/

/-- What the kernel answers in one round: the descriptors `Select` finds ready, and the connection
`Accept` returns if the listening one is among them. -/
structure Round where
  ready : Finset ℤ
  accepted : ℤ
  script : List ReadResult

/-- The pool's sets and count after `Select`. -/
def Server.select (s : Server) (ready : Finset ℤ) : Server :=
  { s with pool := { s.pool with readySet := ready, nready := ready.card } }

/-- `Accept` and `add_client`. -/
def Server.accept (s : Server) (connfd : ℤ) (script : List ReadResult) : Server :=
  { s with
    pool := addClient connfd s.pool
    clients := s.clients ++ [⟨connfd, [], script, [], false⟩] }

/-- One turn of the main loop. -/
def Server.round (s : Server) (listenfd : ℤ) (r : Round) : Option Server :=
  let s := s.select r.ready
  let s := if listenfd ∈ r.ready then s.accept r.accepted r.script else s
  s.checkClients

/-- What is assumed of the kernel: `Select` reports descriptors it was asked about, and `Accept`
returns one that is not open, is none of the standard ones, and fits the set. -/
structure Round.Valid (s : Server) (listenfd : ℤ) (r : Round) : Prop where
  ready : r.ready ⊆ s.pool.readSet
  accepted : listenfd ∈ r.ready → 3 ≤ r.accepted ∧ r.accepted < fdSetsize ∧ r.accepted ≠ listenfd ∧
    s.openOn r.accepted = none

/-- The states between the rounds. -/
inductive Reachable (listenfd : ℤ) : Server → Prop
  | start : Reachable listenfd (initial listenfd)
  | round {s s' : Server} {r : Round} : Reachable listenfd s → r.Valid s listenfd →
      s.round listenfd r = some s' → Reachable listenfd s'

end CsappCode.SelectServer
