import CsappCode.Csapp.Streams

/-!
# The echo loop of `echoserver_pre.c`

`echo_cnt` reads a connection line by line, adds the length of each line to `byte_cnt`, and writes
the line back. Here one thread executes it by itself.

* `echoBody` is the body of the loop: the line goes to `Rio_writen`, and its length to the counter.
* `echoCnt` is the function behind `Pthread_once`, as an instance of `readLines`, the loop that all
  the servers share.
* `echoCnt_eq` says what it does with a whole connection: every byte comes back, in order, and the
  counter grows by their number.

## What the result assumes

**The connection.** The stream is given by the results of `read`, in pieces of any size and with
interruptions, and `write` may take less than it is given. None of them fails, for `Rio_readlineb`
and `Rio_writen` end the process then. A line longer than the buffer comes in several turns, each
counted by itself.

**Enough turns.** The loop is given a bound on its turns, and any number larger than that of the
bytes will do: every turn but the last takes at least one byte. So the theorem says that the loop
ends, and not only what it does if it ends.

**The counter** is a 32-bit word and wraps. It is the one of this thread here; what other threads do
to `byte_cnt` meanwhile, and that it is initialised before the first update, is the matter of
`ByteCount`, where the same loop is cut into steps.
-/

namespace CsappCode.Threads

open Csapp

/-- What `echo_cnt` works on: the bytes written back, the results `write` will return, and
`byte_cnt`. -/
structure Echo where
  echoed : List UInt8
  writes : List WriteResult
  byteCnt : BitVec 32

/-- The body of the loop. -/
def echoBody (st : Echo) (line : List UInt8) : Option Echo :=
  (rioWriten line st.writes).map fun q ↦
    ⟨st.echoed ++ q.1, q.2, st.byteCnt + BitVec.ofNat 32 line.length⟩

/-- `echo_cnt(connfd)` behind `Pthread_once`, for at most `fuel` turns of its loop. -/
def echoCnt (fuel : ℕ) (rs : List ReadResult) (st : Echo) : Option Echo :=
  readLines echoBody fuel [] rs st

theorem foldlM_echoBody (ls : List (List UInt8)) : ∀ {st : Echo}, .failed ∉ st.writes →
    ∃ ws, ls.foldlM echoBody st =
      some ⟨st.echoed ++ ls.flatten, ws, st.byteCnt + BitVec.ofNat 32 ls.flatten.length⟩ := by
  induction ls with
  | nil => exact fun {st} _ ↦ ⟨st.writes, by simp⟩
  | cons line ls ih =>
    intro st hws
    obtain ⟨ws, hwrite, hws'⟩ := rioWriten_spec st.writes line hws
    obtain ⟨ws', hrest⟩ :=
      @ih ⟨st.echoed ++ line, ws, st.byteCnt + BitVec.ofNat 32 line.length⟩ hws'
    refine ⟨ws', ?_⟩
    rw [List.foldlM_cons, echoBody, hwrite, Option.map_some]
    refine hrest.trans ?_
    rw [List.flatten_cons, List.append_assoc, List.length_append, BitVec.ofNat_add,
      BitVec.add_assoc]

/-- **`echo_cnt` writes back what it reads** and counts it. -/
theorem echoCnt_eq {rs : List ReadResult} {st : Echo} {fuel : ℕ} (hrs : .failed ∉ rs)
    (hws : .failed ∉ st.writes) (hfuel : (streamBytes rs).length < fuel) :
    ∃ ws, echoCnt fuel rs st = some ⟨st.echoed ++ streamBytes rs, ws,
      st.byteCnt + BitVec.ofNat 32 (streamBytes rs).length⟩ := by
  obtain ⟨ws, hloop⟩ := foldlM_echoBody (lines (streamBytes rs)) hws
  refine ⟨ws, ?_⟩
  rw [echoCnt, readLines_eq_foldlM echoBody fuel hrs hfuel]
  rwa [flatten_lines] at hloop

end CsappCode.Threads
