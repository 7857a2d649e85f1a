import CsappCode.Library.Source
import CsappCode.Csapp.Streams

/-!
# Calls on one buffer

A program may mix `rio_readlineb` and `rio_readnb` on one `rio_t`: a header line by line, then a
body of so many bytes. The calls share `rio_buf`, which is refilled in the middle of a line or of a
body, wherever `read` happens to cut the stream.

* `source` forgets the cuts: what the buffer and the results to come amount to is the list of bytes
  up to the end of file or to the first failure.
* `calls_source` is the refinement: every sequence of calls does on the buffer what it does on that
  list.
* `calls_pipe` draws a conclusion: a program that asks for the messages another one writes with
  `rio_writen` gets them back.
* `readRecords_agree` compares the buffered reads with the unbuffered `rio_readn`.

## What the results rest on

**A call of `rio_readlineb` asks for at most `INT_MAX` bytes.** Its counter is an `int`, which
overflows in a longer line, so a `Call.readlineb` carries the bound. `rio_readnb` and `rio_readn`
count in a `size_t`, and are asked for any number of bytes.

**The results that `read` returns are given in advance**, interruptions and a failure among them;
after a failure nothing more is read. A call that meets it has no result, and neither has a sequence
with such a call in it. That it does so exactly when it asks for more than there is before the
failure is part of the refinement.

**One step.** `rioRead_step` is the specification of `rio_read`, and the only place where the buffer
is looked into. The two loops above it are followed by induction on what they have still to store.
-/

namespace CsappCode.Csapp

open Library

/-! ### `rio_readnb` -/

/-- The loop of `rio_readnb`, with `nleft` bytes to go behind the bytes stored. -/
def readnbLoop : ℕ → List UInt8 → List UInt8 → List ReadResult →
    Option (ℕ × List UInt8 × List UInt8 × List ReadResult)
  | 0, stored, unread, rs => some (0, stored, unread, rs)
  | nleft + 1, stored, unread, rs =>
    match rioRead (nleft + 1) unread rs with
    | none => none
    | some ([], unread', rs') => some (nleft + 1, stored, unread', rs')
    | some (b :: bs, unread', rs') =>
      readnbLoop (nleft + 1 - (b :: bs).length) (stored ++ b :: bs) unread' rs'
termination_by nleft => nleft
decreasing_by
  rw [List.length_cons]
  omega

/-- `rio_readnb(rp, usrbuf, n)`: its result, and the bytes stored. -/
def rioReadnb (n : ℕ) (unread : List UInt8) (rs : List ReadResult) :
    Option (ℕ × List UInt8 × List UInt8 × List ReadResult) :=
  (readnbLoop n [] unread rs).map fun q ↦ (n - q.1, q.2)

/-! ### What a buffer amounts to -/

/-- The bytes that come before the first failure. -/
def beforeFailure : List ReadResult → List UInt8
  | [] => []
  | .data chunk :: rs => chunk.bytes ++ beforeFailure rs
  | .interrupted :: rs => beforeFailure rs
  | .failed :: _ => []

/-- Whether a failure comes. -/
def fails : List ReadResult → Bool
  | [] => false
  | .data _ :: rs => fails rs
  | .interrupted :: rs => fails rs
  | .failed :: _ => true

/-- The unread bytes of `rio_buf` and what will come behind them. -/
def source (unread : List UInt8) (rs : List ReadResult) : Source UInt8 :=
  ⟨unread ++ beforeFailure rs, fails rs⟩

theorem source_of_not_failed {rs : List ReadResult} (h : .failed ∉ rs) (unread : List UInt8) :
    source unread rs = ⟨unread ++ streamBytes rs, false⟩ := by
  have key : ∀ rs : List ReadResult, .failed ∉ rs →
      beforeFailure rs = streamBytes rs ∧ fails rs = false := by
    intro rs
    induction rs with
    | nil => exact fun _ ↦ ⟨rfl, rfl⟩
    | cons r rs ih =>
      intro h
      obtain ⟨hbytes, hfails⟩ := ih fun hmem ↦ h (List.mem_cons_of_mem _ hmem)
      cases r with
      | data chunk => exact ⟨congrArg (chunk.bytes ++ ·) hbytes, hfails⟩
      | interrupted => exact ⟨hbytes, hfails⟩
      | failed => exact absurd List.mem_cons_self h
  obtain ⟨hbytes, hfails⟩ := key rs h
  rw [source, hbytes, hfails]

/-- What one `rio_read` of at least a byte does to a source: it finds the failure, or the end, or
takes some bytes off the front. -/
inductive ReadStep (n : ℕ) (s : Source UInt8) :
    Option (List UInt8 × List UInt8 × List ReadResult) → Prop where
  | failed (hs : s = ⟨[], true⟩) : ReadStep n s none
  | eof {unread' rs'} (hs : s = ⟨[], false⟩) (hs' : source unread' rs' = ⟨[], false⟩) :
      ReadStep n s (some ([], unread', rs'))
  | bytes {b bs unread' rs'} (hle : (b :: bs).length ≤ n)
      (hs : s = ⟨(b :: bs) ++ (source unread' rs').items, (source unread' rs').broken⟩) :
      ReadStep n s (some (b :: bs, unread', rs'))

theorem readStep_cons (n : ℕ) (b : UInt8) (bs : List UInt8) (rs : List ReadResult) :
    ReadStep (n + 1) (source (b :: bs) rs)
      (some ((b :: bs).take (n + 1), (b :: bs).drop (n + 1), rs)) := by
  refine .bytes (by rw [← List.take_succ_cons, List.length_take]; exact min_le_left _ _) ?_
  show source (b :: bs) rs = ⟨(b :: bs).take (n + 1) ++ ((b :: bs).drop (n + 1) ++ _), _⟩
  rw [← List.append_assoc, List.take_append_drop]
  rfl

/-- **Specification of `rio_read`.** -/
theorem rioRead_step (n : ℕ) (unread : List UInt8) (rs : List ReadResult) :
    ReadStep (n + 1) (source unread rs) (rioRead (n + 1) unread rs) := by
  cases unread with
  | cons b bs =>
    rw [rioRead_cons]
    exact readStep_cons n b bs rs
  | nil =>
    induction rs with
    | nil => exact .eof rfl rfl
    | cons r rs ih =>
      cases r with
      | interrupted => exact ih
      | failed => exact .failed rfl
      | data chunk =>
        obtain ⟨bytes, hne, hle⟩ := chunk
        cases bytes with
        | nil => exact absurd rfl hne
        | cons b bs => exact readStep_cons n b bs rs

/-- **The loop of `rio_readnb` takes `nleft` bytes off the source**, or what there is. -/
theorem readnbLoop_source (nleft : ℕ) : ∀ (stored unread : List UInt8) (rs : List ReadResult),
    (readnbLoop nleft stored unread rs).map (fun q ↦ (q.1, q.2.1, source q.2.2.1 q.2.2.2)) =
      ((source unread rs).take (Demand.count nleft)).map
        fun q ↦ (nleft - q.1.length, stored ++ q.1, q.2) := by
  induction nleft using Nat.strong_induction_on with
  | h nleft ih =>
    intro stored unread rs
    cases nleft with
    | zero => simp [readnbLoop, Source.take, Demand.count]
    | succ nleft =>
      have hstep := rioRead_step nleft unread rs
      rw [readnbLoop]
      generalize rioRead (nleft + 1) unread rs = r at hstep
      cases hstep with
      | failed hs =>
        rw [hs]
        rfl
      | eof hs hs' =>
        rw [hs]
        show some (nleft + 1, stored, source _ _) = some (nleft + 1, stored ++ [], _)
        rw [hs', List.append_nil]
      | @bytes b bs unread' rs' hle hs =>
        have hlt : nleft + 1 - (b :: bs).length < nleft + 1 := by
          rw [List.length_cons]
          omega
        rw [hs, Source.take_count_append hle, Option.map_map]
        dsimp only
        rw [ih _ hlt]
        refine Option.map_congr fun q _ ↦ ?_
        show (_, _, _) = (_, _, _)
        rw [List.append_assoc, List.length_append, Nat.sub_sub]

/-- **The loop of `rio_readlineb` takes a line off the source**, up to a newline or to `m`
bytes. -/
theorem readlinebLoop_source (m : ℕ) : ∀ (line unread : List UInt8) (rs : List ReadResult),
    (readlinebLoop m line unread rs).map (fun q ↦ (q.1, source q.2.1 q.2.2)) =
      ((source unread rs).take (Demand.upTo (· == newline) m)).map
        fun q ↦ (line ++ q.1, q.2) := by
  induction m with
  | zero =>
    intro line unread rs
    simp [readlinebLoop, Source.take, Demand.upTo, Demand.untilLength]
  | succ m ih =>
    intro line unread rs
    have hstep := rioRead_step 0 unread rs
    rw [readlinebLoop]
    generalize rioRead 1 unread rs = r at hstep
    cases hstep with
    | failed hs =>
      rw [hs]
      rfl
    | eof hs hs' =>
      rw [hs]
      show some (line, source _ _) = some (line ++ [], _)
      rw [hs', List.append_nil]
    | @bytes b bs unread' rs' hle hs =>
      obtain rfl : bs = [] := List.length_eq_zero_iff.1 (by simpa using hle)
      rw [hs, List.singleton_append, Source.take_upTo_cons]
      simp only [beq_iff_eq]
      split_ifs
      · rfl
      · rw [ih, Option.map_map]
        exact Option.map_congr fun q _ ↦ by simp

/-! ### Sequences of calls -/

/-- A call on the buffer. -/
inductive Call where
  | readnb (n : ℕ)
  | readlineb (maxlen : ℕ) (int : maxlen ≤ intMax)

namespace Call

/-- The call: its result, and the bytes it stores. -/
def exec : Call → List UInt8 → List ReadResult →
    Option (ℕ × List UInt8 × List UInt8 × List ReadResult)
  | .readnb n => rioReadnb n
  | .readlineb maxlen _ => rioReadlinebCounted maxlen

/-- What the call asks of a source. -/
def demand : Call → Demand UInt8
  | .readnb n => Demand.count n
  | .readlineb maxlen _ => Demand.upTo (· == newline) (maxlen - 1)

/-- **One call** does on the buffer what it does on the bytes to come, and returns how many it
stored. -/
theorem exec_source (c : Call) (unread : List UInt8) (rs : List ReadResult) :
    (c.exec unread rs).map (fun q ↦ ((q.1, q.2.1), source q.2.2.1 q.2.2.2)) =
      ((source unread rs).take c.demand).map fun q ↦ ((q.1.length, q.1), q.2) := by
  cases c with
  | readnb n =>
    have hloop := congrArg (Option.map fun q ↦ ((n - q.1, q.2.1), q.2.2))
      (readnbLoop_source n [] unread rs)
    rw [Option.map_map, Option.map_map] at hloop
    show ((readnbLoop n [] unread rs).map _).map _ = _
    rw [Option.map_map]
    refine hloop.trans (Option.map_congr fun q hq ↦ ?_)
    -- no more is stored than was asked for
    have hle : q.1.length ≤ n := Source.length_le_of_take_count hq
    simp only [Function.comp_apply, List.nil_append]
    rw [Nat.sub_sub_self hle]
  | readlineb maxlen hint =>
    have hloop := congrArg (Option.map fun q ↦ ((q.1.length, q.1), q.2))
      (readlinebLoop_source (maxlen - 1) [] unread rs)
    rw [Option.map_map, Option.map_map] at hloop
    show (rioReadlinebCounted maxlen unread rs).map _ = _
    rw [rioReadlinebCounted_eq hint, Option.map_map]
    exact hloop

end Call

/-- One call after the other: their results, and what is left. -/
def calls : List Call → List UInt8 → List ReadResult →
    Option (List (ℕ × List UInt8) × List UInt8 × List ReadResult)
  | [], unread, rs => some ([], unread, rs)
  | c :: cs, unread, rs =>
    (c.exec unread rs).bind fun q ↦
      (calls cs q.2.2.1 q.2.2.2).map fun r ↦ ((q.1, q.2.1) :: r.1, r.2)

/-- **Any sequence of calls on one buffer does what it does on the bytes to come**: nothing depends
on where `read` cuts the stream, on the interruptions or on how the calls share the buffer, and it
fails just if it asks for more than comes before a failure. -/
theorem calls_source (cs : List Call) : ∀ (unread : List UInt8) (rs : List ReadResult),
    (calls cs unread rs).map (fun q ↦ (q.1, source q.2.1 q.2.2)) =
      ((source unread rs).run (cs.map Call.demand)).map
        fun q ↦ (q.1.map fun bytes ↦ (bytes.length, bytes), q.2) := by
  induction cs with
  | nil => exact fun _ _ ↦ rfl
  | cons c cs ih =>
    intro unread rs
    have hcall := c.exec_source unread rs
    rw [calls, List.map_cons, Source.run]
    cases hexec : c.exec unread rs with
    | none =>
      rw [hexec] at hcall
      rw [Option.map_eq_none_iff.1 hcall.symm]
      rfl
    | some q =>
      rw [hexec] at hcall
      obtain ⟨q', hq', heq⟩ := Option.map_eq_some_iff.1 hcall.symm
      obtain ⟨hresult, hsource⟩ := Prod.ext_iff.1 heq
      have hothers := congrArg (Option.map fun r ↦ ((q.1, q.2.1) :: r.1, r.2))
        (ih q.2.2.1 q.2.2.2)
      rw [Option.map_map, Option.map_map] at hothers
      rw [hq', Option.bind_some, Option.bind_some, Option.map_map, Option.map_map]
      refine hothers.trans ?_
      rw [show q'.2 = source q.2.2.1 q.2.2.2 from hsource]
      refine Option.map_congr fun r _ ↦ ?_
      show ((q.1, q.2.1) :: _, _) = ((q'.1.length, q'.1) :: _, _)
      rw [show (q'.1.length, q'.1) = (q.1, q.2.1) from hresult]

/-- Calls that no failure meets. -/
theorem calls_of_not_failed {cs : List Call} {unread : List UInt8} {rs : List ReadResult}
    (hrs : .failed ∉ rs) {taken : List (List UInt8)} {rest : List UInt8}
    (hrun : Source.run (cs.map Call.demand) ⟨unread ++ streamBytes rs, false⟩ =
      some (taken, ⟨rest, false⟩)) :
    ∃ unread' rs', calls cs unread rs =
        some (taken.map fun bytes ↦ (bytes.length, bytes), unread', rs') ∧
      source unread' rs' = ⟨rest, false⟩ := by
  have h := calls_source cs unread rs
  rw [source_of_not_failed hrs, hrun] at h
  obtain ⟨⟨results, unread', rs'⟩, hcalls, heq⟩ := Option.map_eq_some_iff.1 h
  obtain ⟨hresults, hrest⟩ := Prod.ext_iff.1 heq
  exact ⟨unread', rs', by rw [hcalls, show results = _ from hresults], hrest⟩

/-! ### Messages through a pipe -/

/-- `rio_writen` of one message after the other: the bytes that reach the descriptor. -/
def rioWritens : List (List UInt8) → List WriteResult → Option (List UInt8 × List WriteResult)
  | [], ws => some ([], ws)
  | message :: messages, ws =>
    (rioWriten message ws).bind fun q ↦
      (rioWritens messages q.2).map fun r ↦ (q.1 ++ r.1, r.2)

/-- A call of `rio_writen` that does not fail has written its bytes. -/
theorem rioWriten_bytes (ws : List WriteResult) : ∀ {bs written : List UInt8}
    {ws' : List WriteResult}, rioWriten bs ws = some (written, ws') → written = bs := by
  induction ws with
  | nil =>
    intro bs written ws' h
    cases bs <;> exact (congrArg Prod.fst (Option.some.inj h)).symm
  | cons w ws ih =>
    intro bs written ws' h
    cases bs with
    | nil => exact (congrArg Prod.fst (Option.some.inj h)).symm
    | cons b bs =>
      cases w with
      | interrupted => exact ih h
      | failed => exact absurd h (by simp [rioWriten])
      | wrote count pos =>
        rw [rioWriten] at h
        obtain ⟨⟨others, ws₁⟩, hothers, heq⟩ := Option.map_eq_some_iff.1 h
        have hrest : others = (b :: bs).drop count := ih hothers
        calc
          written = (b :: bs).take count ++ others := (congrArg Prod.fst heq).symm
          _ = b :: bs := by rw [hrest, List.take_append_drop]

theorem rioWritens_bytes : ∀ {messages : List (List UInt8)} {ws ws' : List WriteResult}
    {written : List UInt8}, rioWritens messages ws = some (written, ws') →
      written = messages.flatten := by
  intro messages
  induction messages with
  | nil => exact fun h ↦ (congrArg Prod.fst (Option.some.inj h)).symm
  | cons message messages ih =>
    intro ws ws' written h
    obtain ⟨⟨first, ws₁⟩, hfirst, h⟩ := Option.bind_eq_some_iff.1 h
    obtain ⟨⟨others, ws₂⟩, hothers, heq⟩ := Option.map_eq_some_iff.1 h
    have hmessage : first = message := rioWriten_bytes ws hfirst
    have hmessages : others = messages.flatten := ih hothers
    calc
      written = first ++ others := (congrArg Prod.fst heq).symm
      _ = (message :: messages).flatten := by rw [hmessage, hmessages, List.flatten_cons]

/-- **What is written is read back.** Messages written with `rio_writen`, in whatever pieces, arrive
in whatever pieces; the calls that ask for such messages return them one by one, and leave what
comes behind them. -/
theorem calls_pipe {messages : List (Call × List UInt8)}
    (hframes : ∀ q ∈ messages, q.1.demand.Frames q.2) {ws ws' : List WriteResult}
    {written : List UInt8} (hwritten : rioWritens (messages.map Prod.snd) ws = some (written, ws'))
    {rs : List ReadResult} (hrs : .failed ∉ rs) {more : List UInt8}
    (harrived : streamBytes rs = written ++ more) :
    ∃ unread' rs', calls (messages.map Prod.fst) [] rs =
        some (messages.map fun q ↦ (q.2.length, q.2), unread', rs') ∧
      source unread' rs' = ⟨more, false⟩ := by
  have hdemands : ∀ q ∈ messages.map (Prod.map Call.demand id), q.1.Frames q.2 := by
    intro q hq
    obtain ⟨q', hq', rfl⟩ := List.mem_map.1 hq
    exact hframes q' hq'
  have hrun := Source.run_frames more false hdemands
  simp only [List.map_map, Function.comp_def, Prod.map_fst, Prod.map_snd, id] at hrun
  have hbytes : [] ++ streamBytes rs = (messages.map Prod.snd).flatten ++ more := by
    rw [List.nil_append, harrived, rioWritens_bytes hwritten]
  obtain ⟨unread', rs', hcalls, hrest⟩ := @calls_of_not_failed (messages.map Prod.fst) [] rs hrs
    (messages.map Prod.snd) more (by rw [hbytes, List.map_map]; exact hrun)
  refine ⟨unread', rs', ?_, hrest⟩
  rw [hcalls, List.map_map]
  rfl

/-- A line and three bytes, one of them a newline, cut across in other places. -/
theorem calls_pipe_header :
    ∃ unread' rs', calls [.readlineb maxline (by decide), .readnb 3] []
        [.data ⟨[104], by decide, by decide⟩, .interrupted, .data ⟨[10, 1], by decide, by decide⟩,
          .data ⟨[10, 2, 9], by decide, by decide⟩] =
        some ([(2, [104, 10]), (3, [1, 10, 2])], unread', rs') ∧
      source unread' rs' = ⟨[9], false⟩ :=
  @calls_pipe [(.readlineb maxline (by decide), [104, 10]), (.readnb 3, [1, 10, 2])]
    (by decide +kernel)
    [.wrote 1 (by decide), .interrupted, .wrote 3 (by decide)] [] [104, 10, 1, 10, 2] rfl
    [.data ⟨[104], by decide, by decide⟩, .interrupted, .data ⟨[10, 1], by decide, by decide⟩,
      .data ⟨[10, 2, 9], by decide, by decide⟩] (by simp) [9] rfl

/-! ### `rio_readn` -/

/-- The result of one `read` of so many bytes: it gives `count` of them, if there are so many and so
many are wanted. -/
inductive ReadCount where
  | got (count : ℕ) (pos : 0 < count)
  | interrupted
  | failed

/-- The loop of `rio_readn`, with `nleft` bytes to go behind the bytes stored, on the bytes that the
descriptor still has. When the results given are used up, `read` gives all it is asked for. -/
def readnLoop : ℕ → List UInt8 → List UInt8 → List ReadCount →
    Option (ℕ × List UInt8 × List UInt8 × List ReadCount)
  | 0, stored, stream, counts => some (0, stored, stream, counts)
  | nleft + 1, stored, stream, [] =>
    some (nleft + 1 - stream.length, stored ++ stream.take (nleft + 1), stream.drop (nleft + 1), [])
  | nleft + 1, stored, stream, .interrupted :: counts => readnLoop (nleft + 1) stored stream counts
  | _ + 1, _, _, .failed :: _ => none
  | nleft + 1, stored, [], .got _ _ :: counts => some (nleft + 1, stored, [], counts)
  | nleft + 1, stored, b :: bs, .got count _ :: counts =>
    let nread := ((b :: bs).take (min count (nleft + 1))).length
    readnLoop (nleft + 1 - nread) (stored ++ (b :: bs).take nread) ((b :: bs).drop nread) counts

/-- `rio_readn(fd, usrbuf, n)`: its result, and the bytes stored. -/
def rioReadn (n : ℕ) (stream : List UInt8) (counts : List ReadCount) :
    Option (ℕ × List UInt8 × List UInt8 × List ReadCount) :=
  (readnLoop n [] stream counts).map fun q ↦ (n - q.1, q.2)

/-- **`rio_readn` stores the next `n` bytes**, or all there are, in whatever pieces. -/
theorem readnLoop_spec (counts : List ReadCount) : ∀ (nleft : ℕ) (stored stream : List UInt8),
    .failed ∉ counts → ∃ counts', .failed ∉ counts' ∧
      readnLoop nleft stored stream counts =
        some (nleft - stream.length, stored ++ stream.take nleft, stream.drop nleft, counts') := by
  induction counts with
  | nil =>
    intro nleft stored stream h
    cases nleft with
    | zero => exact ⟨[], h, by simp [readnLoop]⟩
    | succ nleft => exact ⟨[], h, rfl⟩
  | cons c counts ih =>
    intro nleft stored stream h
    have hcounts : ReadCount.failed ∉ counts := fun hmem ↦ h (List.mem_cons_of_mem _ hmem)
    cases nleft with
    | zero => exact ⟨c :: counts, h, by simp [readnLoop]⟩
    | succ nleft =>
      cases c with
      | interrupted =>
        obtain ⟨counts', hcounts', hloop⟩ := ih (nleft + 1) stored stream hcounts
        exact ⟨counts', hcounts', by rw [readnLoop, hloop]⟩
      | failed => exact absurd List.mem_cons_self h
      | got count pos =>
        cases stream with
        | nil => exact ⟨counts, hcounts, by simp [readnLoop]⟩
        | cons b bs =>
          rw [readnLoop]
          have hle : ((b :: bs).take (min count (nleft + 1))).length ≤ nleft + 1 ∧
              ((b :: bs).take (min count (nleft + 1))).length ≤ (b :: bs).length := by
            rw [List.length_take]
            omega
          generalize ((b :: bs).take (min count (nleft + 1))).length = nread at hle ⊢
          obtain ⟨counts', hcounts', hloop⟩ :=
            ih (nleft + 1 - nread) (stored ++ (b :: bs).take nread) ((b :: bs).drop nread) hcounts
          -- the first `nread` bytes and the rest of the `nleft + 1`
          have htake : (b :: bs).take nread ++ ((b :: bs).drop nread).take (nleft + 1 - nread) =
              (b :: bs).take (nleft + 1) := by
            rw [← List.take_add, Nat.add_sub_cancel' hle.1]
          have hleft : nleft + 1 - nread - ((b :: bs).length - nread) =
              nleft + 1 - (b :: bs).length := by
            omega
          refine ⟨counts', hcounts', ?_⟩
          rw [hloop, List.append_assoc, htake, List.drop_drop, Nat.add_sub_cancel' hle.1,
            List.length_drop, hleft]

/-- One call of `rio_readn` after the other. -/
def readRecords : List ℕ → List UInt8 → List ReadCount →
    Option (List (ℕ × List UInt8) × List UInt8 × List ReadCount)
  | [], stream, counts => some ([], stream, counts)
  | n :: ns, stream, counts =>
    (rioReadn n stream counts).bind fun q ↦
      (readRecords ns q.2.2.1 q.2.2.2).map fun r ↦ ((q.1, q.2.1) :: r.1, r.2)

/-- What is taken of a source that ends. -/
theorem take_count_ended (n : ℕ) (stream : List UInt8) :
    (Source.mk stream false).take (Demand.count n) =
      some (stream.take n, ⟨stream.drop n, false⟩) := by
  rcases Nat.lt_or_ge stream.length n with hn | hn
  · rw [Source.take, show (Demand.count n).need stream = none from if_neg (Nat.not_le.2 hn),
      List.take_of_length_le hn.le, List.drop_of_length_le hn.le]
    rfl
  · rw [Source.take, show (Demand.count n).need stream = some n from if_pos hn]

theorem readRecords_source (ns : List ℕ) : ∀ {stream : List UInt8} {counts : List ReadCount},
    .failed ∉ counts → ∃ taken rest counts',
      readRecords ns stream counts =
        some (taken.map fun bytes ↦ (bytes.length, bytes), rest, counts') ∧
      Source.run (ns.map Demand.count) ⟨stream, false⟩ = some (taken, ⟨rest, false⟩) := by
  induction ns with
  | nil => exact fun _ ↦ ⟨[], _, _, rfl, rfl⟩
  | cons n ns ih =>
    intro stream counts h
    obtain ⟨counts₁, hcounts₁, hloop⟩ := readnLoop_spec counts n [] stream h
    obtain ⟨taken, rest, counts', hread, hrun⟩ := @ih (stream.drop n) counts₁ hcounts₁
    refine ⟨stream.take n :: taken, rest, counts', ?_, ?_⟩
    · have hresult : n - (n - stream.length) = (stream.take n).length := by
        rw [List.length_take]
        omega
      rw [readRecords, rioReadn, hloop, Option.map_some, Option.bind_some, hread, hresult]
      rfl
    · rw [List.map_cons, Source.run, take_count_ended, Option.bind_some, hrun]
      rfl

/-- **The buffered and the unbuffered reads agree**: `rio_readn` and `rio_readnb` return the same
records of the same stream, to whatever reads it is delivered. -/
theorem readRecords_agree (ns : List ℕ) {counts : List ReadCount} (hcounts : .failed ∉ counts)
    {rs : List ReadResult} (hrs : .failed ∉ rs) :
    ∃ records rest counts' unread' rs',
      readRecords ns (streamBytes rs) counts = some (records, rest, counts') ∧
      calls (ns.map Call.readnb) [] rs = some (records, unread', rs') ∧
      source unread' rs' = ⟨rest, false⟩ := by
  obtain ⟨taken, rest, counts', hread, hrun⟩ :=
    @readRecords_source ns (streamBytes rs) counts hcounts
  obtain ⟨unread', rs', hcalls, hrest⟩ := @calls_of_not_failed (ns.map Call.readnb) [] rs hrs taken
    rest (by rw [List.map_map]; exact hrun)
  exact ⟨_, rest, counts', unread', rs', hread, hcalls, hrest⟩

/-- Two records of three bytes, the second cut short by the end of file. -/
theorem readRecords_agree_short :
    ∃ records rest counts' unread' rs',
      readRecords [3, 3] [1, 2, 3, 4] [.got 1 (by decide), .interrupted] =
        some (records, rest, counts') ∧
      calls [.readnb 3, .readnb 3] []
        [.data ⟨[1, 2], by decide, by decide⟩, .data ⟨[3, 4], by decide, by decide⟩] =
        some (records, unread', rs') ∧
      source unread' rs' = ⟨rest, false⟩ :=
  @readRecords_agree [3, 3] [.got 1 (by decide), .interrupted] (by simp)
    [.data ⟨[1, 2], by decide, by decide⟩, .data ⟨[3, 4], by decide, by decide⟩] (by simp)

end CsappCode.Csapp
