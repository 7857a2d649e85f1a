import CsappCode.Csapp.Lines

/-!
# Loops over the lines of a stream

Several programs of the repository read a stream with `while ((n = Rio_readlineb(...)) != 0)` and
write each line on with `Rio_writen`. `readLines` is the loop, with its body a parameter;
`readLines_eq_foldlM` runs the body over the lines of the stream, however `read` delivers it.

* `rioReadlinebCounted` is `rio_readlineb` with the counter it returns, and `rioReadlinebCounted_eq`
  says that it is the number of bytes stored.
* `rioWriten` writes the bytes out, and `rioWriten_spec` says that it writes all of them.
* `readLines_eq_foldlM` is the rule for whole loops: what is proved of a body over a list of lines
  holds of the loop.

## What the results assume

**The counter of `rio_readlineb`** is an `int` where `maxlen` is a `size_t`. It does not overflow as
long as `maxlen` is an `int` too, and the results about it are for those.

**The stream** is delivered by `read` in any pieces, with interruptions by signals anywhere in
between. `write` takes at least one byte of what it is given, or is interrupted, or fails. An
interrupted call is made again.

**No call fails** in the results about whole loops, for the wrappers `Rio_readlineb` and
`Rio_writen` end the process there. The loop itself has a case for it, in which nothing is left.

**The turns** of the loop are bounded by a number that is given. Any number larger than that of the
bytes to come is enough, since each turn but the last takes a byte at least.
-/

namespace CsappCode.Csapp

/-! ### What `rio_readlineb` returns -/

/-- `INT_MAX`. -/
def intMax : ℕ := 2147483647

/-- The loop of `rio_readlineb` for the counter `n` and `m` more turns: its result, and the bytes
stored. No value is the return of -1, or an overflow of the counter. -/
def readlinebCount : ℕ → ℕ → List UInt8 → List UInt8 → List ReadResult →
    Option (ℕ × List UInt8 × List UInt8 × List ReadResult)
  | 0, n, line, unread, rs => some (n - 1, line, unread, rs)
  | m + 1, n, line, unread, rs =>
    match rioRead 1 unread rs with
    | none => none
    | some ([], unread', rs') => some (if n = 1 then 0 else n - 1, line, unread', rs')
    | some (c :: _, unread', rs') =>
      -- `n++`
      if n = intMax then none
      else if c = newline then some (n + 1 - 1, line ++ [c], unread', rs')
      else readlinebCount m (n + 1) (line ++ [c]) unread' rs'

/-- `rio_readlineb(rp, usrbuf, maxlen)` with its result. -/
def rioReadlinebCounted (maxlen : ℕ) (unread : List UInt8) (rs : List ReadResult) :
    Option (ℕ × List UInt8 × List UInt8 × List ReadResult) :=
  readlinebCount (maxlen - 1) 1 [] unread rs

/-- The counter is ahead of the bytes stored by one. -/
theorem readlinebCount_eq (m : ℕ) : ∀ (line unread : List UInt8) (rs : List ReadResult),
    line.length + 1 + m ≤ intMax →
    readlinebCount m (line.length + 1) line unread rs =
      (readlinebLoop m line unread rs).map fun q ↦ (q.1.length, q) := by
  induction m with
  | zero => exact fun _ _ _ _ ↦ rfl
  | succ m ih =>
    intro line unread rs hint
    rw [readlinebCount, readlinebLoop]
    rcases rioRead 1 unread rs with - | ⟨- | ⟨c, bs⟩, unread', rs'⟩
    · rfl
    · simp only [Option.map_some]
      split_ifs with h
      · rw [show line.length = 0 by omega]
      · rfl
    · have hlen : (line ++ [c]).length = line.length + 1 := List.length_append
      dsimp only
      rw [if_neg (by omega)]
      split_ifs
      · rw [Option.map_some, hlen]
        rfl
      · rw [← ih _ _ _ (by omega), hlen]

/-- **`rio_readlineb` returns the number of bytes stored.** -/
theorem rioReadlinebCounted_eq {maxlen : ℕ} (hint : maxlen ≤ intMax) (unread : List UInt8)
    (rs : List ReadResult) : rioReadlinebCounted maxlen unread rs =
      (rioReadlineb maxlen unread rs).map fun q ↦ (q.1.length, q) := by
  have hone : 1 ≤ intMax := by decide
  refine readlinebCount_eq _ [] unread rs ?_
  rw [List.length_nil]
  omega

/-! ### `rio_writen` -/

/-- The result of one `write`: so many of the bytes are taken, and at least one. -/
inductive WriteResult where
  | wrote (count : ℕ) (pos : 0 < count)
  | interrupted
  | failed

/-- `rio_writen(fd, usrbuf, n)` on the `n` bytes: those that reach the descriptor. When the results
given are used up, `write` takes all it is offered. No value is the return of -1. -/
def rioWriten : List UInt8 → List WriteResult → Option (List UInt8 × List WriteResult)
  | [], ws => some ([], ws)
  | b :: bs, [] => some (b :: bs, [])
  | b :: bs, .interrupted :: ws => rioWriten (b :: bs) ws
  | _ :: _, .failed :: _ => none
  | b :: bs, .wrote count _ :: ws =>
    (rioWriten ((b :: bs).drop count) ws).map fun q ↦ ((b :: bs).take count ++ q.1, q.2)

/-- **`rio_writen` writes all the bytes**, in whatever pieces. -/
theorem rioWriten_spec (ws : List WriteResult) : ∀ bs : List UInt8, .failed ∉ ws →
    ∃ ws', rioWriten bs ws = some (bs, ws') ∧ .failed ∉ ws' := by
  induction ws with
  | nil =>
    intro bs hws
    cases bs <;> exact ⟨_, rfl, hws⟩
  | cons w ws ih =>
    intro bs hws
    have hws' : WriteResult.failed ∉ ws := fun h ↦ hws (List.mem_cons_of_mem _ h)
    cases bs with
    | nil => exact ⟨_, rfl, hws⟩
    | cons b bs =>
      cases w with
      | interrupted => exact ih (b :: bs) hws'
      | failed => exact absurd List.mem_cons_self hws
      | wrote count pos =>
        obtain ⟨ws', hrest, hws''⟩ := ih ((b :: bs).drop count) hws'
        refine ⟨ws', ?_, hws''⟩
        rw [rioWriten, hrest, Option.map_some, List.take_append_drop]

/-! ### The loop -/

variable {σ : Type*} (body : σ → List UInt8 → Option σ)

/-- `while ((n = Rio_readlineb(&rio, buf, MAXLINE)) != 0)`, for at most `fuel` turns. The body is
given the `n` bytes of `buf`. No value is the end of the process, or a loop that is not over. -/
def readLines : ℕ → List UInt8 → List ReadResult → σ → Option σ
  | 0, _, _, _ => none
  | fuel + 1, unread, rs, st =>
    match rioReadlinebCounted maxline unread rs with
    | none => none
    | some (n, buf, unread', rs') =>
      if n ≠ 0 then (body st (buf.take n)).bind (readLines fuel unread' rs') else some st

/-- **The loop runs its body over the lines of the stream** and ends at the end of file, however
`read` delivers the stream. -/
theorem readLines_eq_foldlM (fuel : ℕ) : ∀ {unread : List UInt8} {rs : List ReadResult},
    .failed ∉ rs → (unread ++ streamBytes rs).length < fuel → ∀ st : σ,
      readLines body fuel unread rs st = (lines (unread ++ streamBytes rs)).foldlM body st := by
  induction fuel with
  | zero => exact fun _ hlt ↦ absurd hlt (Nat.not_lt_zero _)
  | succ fuel ih =>
    intro unread rs hrs hlt st
    obtain ⟨line, unread', rs', hread, hrs'⟩ :=
      @readlinebLoop_isSome (maxline - 1) [] unread rs hrs
    have hlines := rioReadlineb_lines hread
    rw [readLines, rioReadlinebCounted_eq (by decide), rioReadlineb, hread, Option.map_some]
    dsimp only
    rcases eq_or_ne line [] with rfl | hne
    · rw [hlines, if_pos rfl, if_neg (by simp)]
      rfl
    · rw [if_neg hne] at hlines
      -- the stream is shorter by the line
      have hshorter : (unread' ++ streamBytes rs').length < fuel := by
        have hflatten : unread ++ streamBytes rs = line ++ (unread' ++ streamBytes rs') := by
          rw [← flatten_lines (unread ++ streamBytes rs), hlines, List.flatten_cons, flatten_lines]
        rw [hflatten, List.length_append] at hlt
        have := List.length_pos_iff.2 hne
        omega
      rw [if_pos (fun h ↦ hne (List.length_eq_zero_iff.1 h)), List.take_length, hlines,
        List.foldlM_cons]
      exact Option.bind_congr fun st' _ ↦ ih hrs' hshorter st'

end CsappCode.Csapp
