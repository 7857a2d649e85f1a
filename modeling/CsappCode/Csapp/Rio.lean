import Mathlib.Data.List.Infix
import Mathlib.Data.Nat.Notation

/-!
# Buffered line reading in `csapp.c`

The copies of `csapp.c` in the repository share `rio_read` and `rio_readlineb`. What arrives on a
descriptor is the list of results that `read` will return there: bytes, an interruption, or a
failure; when the list is used up every `read` finds the end of file.

* `rioRead` is the buffered `read`: it fills the buffer when nothing in it is unread.
* `readlinebLoop` and `rioReadlineb` follow the source byte by byte.
* `rioReadlineb_spec` says what a call on an empty buffer does to the stream, for every way of
  cutting the stream into results, and `readlinebLoop_isSome` that it ends.
* `LineAligned` picks out the streams in which no result reaches past the end of a line, so that
  nothing is left in the buffer after a call.

## How the code is modelled

**The buffer** of a `rio_t` is the list of its unread bytes. `rio_bufptr` and `rio_cnt` say no more
than this.

**`read`** returns between one byte and the size of the buffer, which is a field of `Chunk`, or -1
with `errno` set to `EINTR` or to anything else. The interruptions are not counted: any finite
number may come before a result.

**Results** are options: there is none where the function returns -1. The caller's buffer is large
enough for `maxlen` bytes, as all callers in the repository see to. The terminating NUL is not part
of the line that is returned.
-/

namespace CsappCode.Csapp

/-- `MAXLINE`. -/
def maxline : ℕ := 8192

/-- `RIO_BUFSIZE`. -/
def rioBufsize : ℕ := 8192

def newline : UInt8 := 10

/-- The bytes one `read` into `rio_buf` returns. -/
structure Chunk where
  bytes : List UInt8
  ne_nil : bytes ≠ []
  le_bufsize : bytes.length ≤ rioBufsize

/-- The result of one `read`. -/
inductive ReadResult where
  | data (chunk : Chunk)
  | interrupted
  | failed

/-- The bytes that a list of results carries. -/
def streamBytes : List ReadResult → List UInt8
  | [] => []
  | .data chunk :: rs => chunk.bytes ++ streamBytes rs
  | .interrupted :: rs => streamBytes rs
  | .failed :: rs => streamBytes rs

@[simp] theorem streamBytes_append (rs₁ rs₂ : List ReadResult) :
    streamBytes (rs₁ ++ rs₂) = streamBytes rs₁ ++ streamBytes rs₂ := by
  induction rs₁ with
  | nil => rfl
  | cons r rs ih => cases r <;> simp [streamBytes, ih]

/-! ### `rio_read` and `rio_readlineb` -/

/-- `rio_read(rp, usrbuf, n)`, on the unread bytes of `rio_buf` and the results to come: the bytes
copied, none of them at the end of file. No value is the return of -1. -/
def rioRead (n : ℕ) : List UInt8 → List ReadResult →
    Option (List UInt8 × List UInt8 × List ReadResult)
  | [], [] => some ([], [], [])
  | [], .interrupted :: rs => rioRead n [] rs
  | [], .failed :: _ => none
  | [], .data chunk :: rs => some (chunk.bytes.take n, chunk.bytes.drop n, rs)
  | b :: bs, rs => some ((b :: bs).take n, (b :: bs).drop n, rs)

/-- The loop of `rio_readlineb` with room for `m` more bytes behind `line`. -/
def readlinebLoop : ℕ → List UInt8 → List UInt8 → List ReadResult →
    Option (List UInt8 × List UInt8 × List ReadResult)
  | 0, line, unread, rs => some (line, unread, rs)
  | m + 1, line, unread, rs =>
    match rioRead 1 unread rs with
    | none => none
    | some ([], unread', rs') => some (line, unread', rs')
    | some (c :: _, unread', rs') =>
      if c = newline then some (line ++ [c], unread', rs')
      else readlinebLoop m (line ++ [c]) unread' rs'

/-- `rio_readlineb(rp, usrbuf, maxlen)`: the bytes stored, which the source follows with a NUL and
counts in its result. No bytes mean the end of file, where `usrbuf` is left as it was. -/
def rioReadlineb (maxlen : ℕ) (unread : List UInt8) (rs : List ReadResult) :
    Option (List UInt8 × List UInt8 × List ReadResult) :=
  readlinebLoop (maxlen - 1) [] unread rs

/-! ### Where a line ends -/

/-- The bytes behind the first end of a line that has room for `m` more bytes: behind the first
newline or the `m`-th byte. -/
def afterLine : ℕ → List UInt8 → Option (List UInt8)
  | _, [] => none
  | m, b :: bs => if b = newline ∨ m ≤ 1 then some bs else afterLine (m - 1) bs

/-- **Line alignment.** Whenever a line ends inside a read result, it ends with it. The line being
read has room for `m` more bytes. -/
def LineAligned : ℕ → List ReadResult → Prop
  | _, [] => True
  | m, .interrupted :: rs => LineAligned m rs
  | _, .failed :: _ => True
  | m, .data chunk :: rs =>
    match afterLine m chunk.bytes with
    | none => LineAligned (m - chunk.bytes.length) rs
    | some [] => LineAligned (maxline - 1) rs
    | some (_ :: _) => False

theorem lineAligned_nil (m : ℕ) : LineAligned m [] := trivial

theorem lineAligned_data {m : ℕ} {chunk : Chunk} {rs : List ReadResult} :
    LineAligned m (.data chunk :: rs) ↔
      afterLine m chunk.bytes = none ∧ LineAligned (m - chunk.bytes.length) rs ∨
      afterLine m chunk.bytes = some [] ∧ LineAligned (maxline - 1) rs := by
  rw [LineAligned]
  rcases afterLine m chunk.bytes with - | - | - <;> simp

theorem rioRead_cons (n : ℕ) (b : UInt8) (bs : List UInt8) (rs : List ReadResult) :
    rioRead n (b :: bs) rs = some ((b :: bs).take n, (b :: bs).drop n, rs) := by
  cases rs <;> rw [rioRead]

/-- One byte of the buffer. -/
theorem readlinebLoop_cons (m : ℕ) (line : List UInt8) (b : UInt8) (bs : List UInt8)
    (rs : List ReadResult) : readlinebLoop (m + 1) line (b :: bs) rs =
      if b = newline then some (line ++ [b], bs, rs)
      else readlinebLoop m (line ++ [b]) bs rs := by
  rw [readlinebLoop, rioRead_cons]
  rfl

/-- Reading on in the buffer: up to the end of the line if there is one, else all of it. -/
theorem readlinebLoop_unread (rs : List ReadResult) (bs : List UInt8) : ∀ {m : ℕ}, 1 ≤ m →
    ∀ line : List UInt8,
      (∃ rest, afterLine m bs = some rest ∧ ∃ read, bs = read ++ rest ∧ read ≠ [] ∧
        readlinebLoop m line bs rs = some (line ++ read, rest, rs)) ∨
      afterLine m bs = none ∧ bs.length < m ∧
        readlinebLoop m line bs rs = readlinebLoop (m - bs.length) (line ++ bs) [] rs := by
  induction bs with
  | nil =>
    intro m hm line
    exact .inr ⟨rfl, hm, by simp⟩
  | cons b bs ih =>
    intro m hm line
    obtain ⟨m, rfl⟩ := Nat.exists_eq_add_of_le' hm
    have hstep := readlinebLoop_cons m line b bs rs
    rcases Decidable.em (b = newline) with hb | hb
    · refine .inl ⟨bs, by rw [afterLine, if_pos (.inl hb)], [b], rfl, by simp, ?_⟩
      rw [hstep, if_pos hb]
    · rw [if_neg hb] at hstep
      rcases Nat.eq_zero_or_pos m with rfl | hpos
      · refine .inl ⟨bs, by rw [afterLine, if_pos (.inr le_rfl)], [b], rfl, by simp, ?_⟩
        rw [hstep]
        rfl
      · have hafter : afterLine (m + 1) (b :: bs) = afterLine m bs := by
          rw [afterLine, if_neg (not_or.2 ⟨hb, by omega⟩), Nat.add_sub_cancel]
        rw [hafter, hstep]
        rcases ih hpos (line ++ [b]) with ⟨rest, hrest, read, rfl, -, hloop⟩ | ⟨hnone, hlt, hloop⟩
        · refine .inl ⟨rest, hrest, b :: read, rfl, by simp, ?_⟩
          rw [hloop, List.append_assoc, List.singleton_append]
        · refine .inr ⟨hnone, by simpa using hlt, ?_⟩
          rw [hloop, List.append_assoc, List.singleton_append, List.length_cons,
            Nat.add_sub_add_right]

/-- What one call does to the stream. -/
structure LineRead (m : ℕ) (rs : List ReadResult) (line unread : List UInt8)
    (rs' : List ReadResult) : Prop where
  /-- The call uses up results, and splits their bytes into the line and what is left in
  `rio_buf`. -/
  used : ∃ used, rs = used ++ rs' ∧ streamBytes used = line ++ unread
  /-- An empty line is the end of file. -/
  eof : line = [] → rs' = [] ∧ unread = []
  /-- What is left is nothing, and the results to come are aligned, just if the results were. -/
  aligned : LineAligned m rs ↔ unread = [] ∧ LineAligned (maxline - 1) rs'

/-- An empty buffer is filled by the next result. -/
theorem readlinebLoop_data {m : ℕ} (hm : 1 ≤ m) (line : List UInt8) (chunk : Chunk)
    (rs : List ReadResult) :
    readlinebLoop m line [] (.data chunk :: rs) = readlinebLoop m line chunk.bytes rs := by
  obtain ⟨m, rfl⟩ := Nat.exists_eq_add_of_le' hm
  obtain ⟨bytes, hne, hle⟩ := chunk
  cases bytes with
  | nil => exact absurd rfl hne
  | cons b bs => rw [readlinebLoop, readlinebLoop, rioRead_cons, rioRead]

/-- **Specification of the loop**, with room for `m` more bytes and an empty buffer. -/
theorem readlinebLoop_spec (rs : List ReadResult) : ∀ {m : ℕ}, 1 ≤ m → ∀ {line₀ line unread rs'},
    readlinebLoop m line₀ [] rs = some (line, unread, rs') →
      ∃ read, line = line₀ ++ read ∧ LineRead m rs read unread rs' := by
  induction rs with
  | nil =>
    intro m hm line₀ line unread rs' h
    obtain ⟨m, rfl⟩ := Nat.exists_eq_add_of_le' hm
    obtain ⟨rfl, rfl, rfl⟩ : line₀ = line ∧ [] = unread ∧ [] = rs' := by
      simpa [readlinebLoop, rioRead] using h
    exact ⟨[], (List.append_nil _).symm, ⟨[], rfl, rfl⟩, fun _ ↦ ⟨rfl, rfl⟩, by simp [LineAligned]⟩
  | cons r rs ih =>
    intro m hm line₀ line unread rs' h
    cases r with
    | interrupted =>
      have hstep : readlinebLoop m line₀ [] (.interrupted :: rs) = readlinebLoop m line₀ [] rs := by
        obtain ⟨m, rfl⟩ := Nat.exists_eq_add_of_le' hm
        rw [readlinebLoop, readlinebLoop, rioRead]
      obtain ⟨read, hline, ⟨used, rfl, hused⟩, heof, haligned⟩ := ih hm (hstep ▸ h)
      exact ⟨read, hline, ⟨.interrupted :: used, rfl, hused⟩, heof, haligned⟩
    | failed =>
      obtain ⟨m, rfl⟩ := Nat.exists_eq_add_of_le' hm
      exact absurd h (by simp [readlinebLoop, rioRead])
    | data chunk =>
      rw [readlinebLoop_data hm] at h
      rcases readlinebLoop_unread rs chunk.bytes hm line₀ with
        ⟨rest, hafter, read, hbytes, hne, hloop⟩ | ⟨hafter, hlt, hloop⟩
      · -- the line ends in this result
        obtain ⟨rfl, rfl, rfl⟩ : line₀ ++ read = line ∧ rest = unread ∧ rs = rs' := by
          simpa [hloop] using h
        refine ⟨read, rfl, ⟨[.data chunk], rfl, ?_⟩, fun h ↦ absurd h hne, ?_⟩
        · rw [streamBytes, streamBytes, List.append_nil, hbytes]
        · rw [lineAligned_data, hafter]
          simp
      · -- it goes on after it
        rw [hloop] at h
        obtain ⟨read, rfl, ⟨used, rfl, hused⟩, -, haligned⟩ := ih (by omega) h
        refine ⟨chunk.bytes ++ read, List.append_assoc .., ⟨.data chunk :: used, rfl, ?_⟩, ?_, ?_⟩
        · rw [streamBytes, hused, List.append_assoc]
        · exact fun h ↦ absurd (List.append_eq_nil_iff.1 h).1 chunk.ne_nil
        · rw [lineAligned_data, hafter]
          simpa using haligned

/-- **Specification of `rio_readlineb`** on an empty buffer. -/
theorem rioReadlineb_spec {rs rs' : List ReadResult} {line unread : List UInt8}
    (h : rioReadlineb maxline [] rs = some (line, unread, rs')) :
    LineRead (maxline - 1) rs line unread rs' := by
  obtain ⟨read, rfl, hread⟩ := readlinebLoop_spec rs (by decide) h
  exact hread

/-- Reads that do not fail return something. -/
theorem rioRead_isSome {rs : List ReadResult} (hrs : .failed ∉ rs) (n : ℕ) (unread : List UInt8) :
    ∃ bs unread' rs', rioRead n unread rs = some (bs, unread', rs') ∧ .failed ∉ rs' := by
  cases unread with
  | cons b bs => exact ⟨_, _, rs, rioRead_cons n b bs rs, hrs⟩
  | nil =>
    induction rs with
    | nil => exact ⟨[], [], [], rfl, hrs⟩
    | cons r rs ih =>
      have hrs' : ReadResult.failed ∉ rs := fun h ↦ hrs (List.mem_cons_of_mem _ h)
      cases r with
      | data chunk => exact ⟨_, _, rs, rfl, hrs'⟩
      | interrupted => exact ih hrs'
      | failed => exact absurd List.mem_cons_self hrs

/-- **A line is read in finitely many steps**, unless a read fails. -/
theorem readlinebLoop_isSome (m : ℕ) : ∀ {line unread : List UInt8} {rs : List ReadResult},
    .failed ∉ rs →
      ∃ line' unread' rs', readlinebLoop m line unread rs = some (line', unread', rs') ∧
        .failed ∉ rs' := by
  induction m with
  | zero => exact fun hrs ↦ ⟨_, _, _, rfl, hrs⟩
  | succ m ih =>
    intro line unread rs hrs
    obtain ⟨bs, unread', rs', hread, hrs'⟩ := rioRead_isSome hrs 1 unread
    rw [readlinebLoop, hread]
    rcases bs with - | ⟨c, bs⟩
    · exact ⟨_, _, _, rfl, hrs'⟩
    · rcases Decidable.em (c = newline) with hc | hc
      · exact ⟨_, _, _, if_pos hc, hrs'⟩
      · dsimp only
        rw [if_neg hc]
        exact ih hrs'

end CsappCode.Csapp
