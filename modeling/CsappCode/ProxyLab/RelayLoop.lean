import CsappCode.ProxyLab.Survival
import CsappCode.Threads.EchoCnt

/-!
# The relay loop of the proxy

`Doit` relays a response on its lines. Here the loop of `doit` reads them from the origin server in
whatever pieces `read` delivers, and writes them to the client in whatever pieces `write` takes.
`relayLoop_eq` says that nothing else changes.

* `Relay` is what the loop works on, and `relayBody` what it does with one line.
* `relayLoop` is the loop, an instance of `readLines`.
* `relayLoop_eq` brings it to the lines of the response.
* `streams_faithful` is about this loop and the one of `echo_cnt`, which reads and writes in the
  same way.

## What the results rest on

**One lemma for both loops.** `readLines_eq_foldlM` runs any body over the lines of a stream,
however `read` delivers them. What differs between the two programs is the body: both write the
line, one of them copies it as well.

**Writes.** `rio_writen` writes all of its bytes, in as many turns as `write` needs, with
interruptions in between. What is written in the end is the concatenation, whatever the parts were.

**Termination.** Each line takes at least one byte off the stream, so a loop on a finite stream
ends, and its fuel is the length of the stream.

**Assumed** is that no read and no write fails, and for the proxy that the lines find room in
`object_buf`.
-/

namespace CsappCode.ProxyLab

open Csapp

/-- What the loop works on: the bytes written to the client, the results `write` will return, and
`object_buf` and `total_size`. -/
structure Relay where
  toClient : List UInt8
  writes : List WriteResult
  object : List UInt8
  total : ℕ

/-- The body of the loop: `Rio_writen`, `strcpy` into `object_buf`, which needs room, and
`total_size += n`. -/
def relayBody (st : Relay) (line : List UInt8) : Option Relay :=
  (rioWriten line st.writes).bind fun q ↦
    if st.total + (cstr line).length < maxObjectSize then
      some ⟨st.toClient ++ q.1, q.2,
        st.object.take st.total ++ strcpy (st.object.drop st.total) line, st.total + line.length⟩
    else none

/-- The loop of `doit`, for at most `fuel` turns. -/
def relayLoop (fuel : ℕ) (rs : List ReadResult) (st : Relay) : Option Relay :=
  readLines relayBody fuel [] rs st

theorem foldlM_relayBody (ls : List (List UInt8)) : ∀ {st : Relay}, .failed ∉ st.writes →
    RelayFits st.total ls → ∃ ws object, relay st.object st.total ls =
        .ok (object, st.total + ls.flatten.length) ∧
      ls.foldlM relayBody st =
        some ⟨st.toClient ++ ls.flatten, ws, object, st.total + ls.flatten.length⟩ := by
  induction ls with
  | nil => exact fun {st} _ _ ↦ ⟨st.writes, st.object, rfl, by simp⟩
  | cons line ls ih =>
    intro st hws hfits
    obtain ⟨hline, hrest⟩ := relayFits_cons.1 hfits
    obtain ⟨ws, hwrite, hws'⟩ := rioWriten_spec st.writes line hws
    obtain ⟨ws', object, hrelay, hloop⟩ := @ih ⟨st.toClient ++ line, ws,
      st.object.take st.total ++ strcpy (st.object.drop st.total) line, st.total + line.length⟩
      hws' hrest
    refine ⟨ws', object, ?_, ?_⟩
    · rw [relay, if_pos hline, List.flatten_cons, List.length_append, ← Nat.add_assoc]
      exact hrelay
    · rw [List.foldlM_cons, relayBody, hwrite, Option.bind_some, if_pos hline]
      refine hloop.trans ?_
      rw [List.flatten_cons, List.append_assoc, List.length_append, Nat.add_assoc]

/-- **The loop of `doit` relays the lines of the response**, however they come in and go out. -/
theorem relayLoop_eq {rs : List ReadResult} {st : Relay} {fuel : ℕ} (hrs : .failed ∉ rs)
    (hws : .failed ∉ st.writes) (hfuel : (streamBytes rs).length < fuel)
    (hfits : RelayFits st.total (lines (streamBytes rs))) :
    ∃ ws object, relay st.object st.total (lines (streamBytes rs)) =
        .ok (object, st.total + (streamBytes rs).length) ∧
      relayLoop fuel rs st = some ⟨st.toClient ++ streamBytes rs, ws, object,
        st.total + (streamBytes rs).length⟩ := by
  obtain ⟨ws, object, hrelay, hloop⟩ := foldlM_relayBody (lines (streamBytes rs)) hws hfits
  rw [flatten_lines] at hrelay hloop
  refine ⟨ws, object, hrelay, ?_⟩
  rw [relayLoop, readLines_eq_foldlM relayBody fuel hrs hfuel]
  exact hloop

/-- A response that is small finds room. -/
theorem relayFits_of_length_lt {ls : List (List UInt8)} (h : ls.flatten.length < maxObjectSize) :
    RelayFits 0 ls := by
  rintro pre line post rfl
  rw [List.flatten_append, List.flatten_cons, List.length_append, List.length_append] at h
  have := length_cstr_le line
  omega

/-- **Both line loops are faithful to the stream.** Whatever the bytes, however `read` delivers them
with interruptions in between, and whatever parts `write` takes: the loop of `echo_cnt` ends with
just these bytes written back, and the relay loop of `doit` with just these bytes written to the
client, when they fit in `object_buf`. -/
theorem streams_faithful {rs : List ReadResult} {ws : List WriteResult} (hrs : .failed ∉ rs)
    (hws : .failed ∉ ws) {fuel : ℕ} (hfuel : (streamBytes rs).length < fuel) :
    (∀ byteCnt, ∃ st, Threads.echoCnt fuel rs ⟨[], ws, byteCnt⟩ = some st ∧
      st.echoed = streamBytes rs) ∧
    ((streamBytes rs).length < maxObjectSize → ∀ objectBuf,
      ∃ st, relayLoop fuel rs ⟨[], ws, objectBuf, 0⟩ = some st ∧ st.toClient = streamBytes rs) := by
  refine ⟨fun byteCnt ↦ ?_, fun hsmall objectBuf ↦ ?_⟩
  · obtain ⟨ws', hecho⟩ := @Threads.echoCnt_eq rs ⟨[], ws, byteCnt⟩ fuel hrs hws hfuel
    exact ⟨_, hecho, rfl⟩
  · have hfits : RelayFits 0 (lines (streamBytes rs)) :=
      relayFits_of_length_lt (by rwa [flatten_lines])
    obtain ⟨ws', object, -, hloop⟩ :=
      @relayLoop_eq rs ⟨[], ws, objectBuf, 0⟩ fuel hrs hws hfuel hfits
    exact ⟨_, hloop, rfl⟩

/-- A NUL in a line, a line in two pieces, an interruption, and a `write` that takes one byte. -/
theorem streams_faithful_pieces :
    let rs := [.data ⟨[97, 0], by simp, by decide⟩, .interrupted,
      .data ⟨[98, 10, 99], by simp, by decide⟩]
    let ws := [.wrote 1 Nat.one_pos, .interrupted]
    (∃ st, Threads.echoCnt 6 rs ⟨[], ws, 0⟩ = some st ∧ st.echoed = [97, 0, 98, 10, 99]) ∧
      ∃ st, relayLoop 6 rs ⟨[], ws, [], 0⟩ = some st ∧ st.toClient = [97, 0, 98, 10, 99] := by
  obtain ⟨hecho, hrelay⟩ := @streams_faithful
    [.data ⟨[97, 0], by simp, by decide⟩, .interrupted, .data ⟨[98, 10, 99], by simp, by decide⟩]
    [.wrote 1 Nat.one_pos, .interrupted] (by simp) (by simp) 6 (by decide)
  exact ⟨hecho 0, hrelay (by decide) []⟩

end CsappCode.ProxyLab
