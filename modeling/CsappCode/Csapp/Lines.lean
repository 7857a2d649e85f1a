import CsappCode.Csapp.Rio

/-!
# The lines of a stream

Successive calls of `Rio_readlineb` return the lines of the stream, and nothing else about the reads
matters: not where `read` cuts the stream, not the interruptions, not what is left in the buffer.
This lets the programs that read line by line be modelled on the bytes they are sent.

* `splitLines` cuts a stream into lines, with room for so many bytes in each, and `lines` is this
  for buffers of `MAXLINE` bytes.
* `IsLine` is what the lines of a stream look like, and `EndsInNewline` a line that was not cut for
  want of room.
* `lines_append` is a line in front of a stream.
* `rioReadlineb_lines` says that a call takes the next line off the stream, and returns nothing at
  its end.

## What the results assume

**A line that does not fit** its buffer is cut: its first `MAXLINE - 1` bytes are one line here, and
the rest is the next one, as for the programs.

**No read fails.** The lines are those of the bytes that come before the end of file. A failing
`read` ends the wrapper `Rio_readlineb` with an error, and the programs with it; what is delivered
before that is the subject of the module on sequences of calls.

**A byte** may be any byte. A NUL inside a line is part of it here, and cut off where a program
takes the line for a string.
-/

namespace CsappCode.Csapp

/-- The lines of a stream, when `cur` has been read of the first one and it has room for `m` more
bytes. -/
def splitLines : ℕ → List UInt8 → List UInt8 → List (List UInt8)
  | _, cur, [] => if cur = [] then [] else [cur]
  | m, cur, b :: bs =>
    if b = newline ∨ m ≤ 1 then (cur ++ [b]) :: splitLines (maxline - 1) [] bs
    else splitLines (m - 1) (cur ++ [b]) bs

/-- The lines that `Rio_readlineb(&rio, buf, MAXLINE)` returns up to the end of file. -/
def lines (stream : List UInt8) : List (List UInt8) := splitLines (maxline - 1) [] stream

@[simp] theorem lines_nil : lines [] = [] := rfl

/-- Nothing is lost between the lines. -/
theorem flatten_splitLines (bs : List UInt8) : ∀ (m : ℕ) (cur : List UInt8),
    (splitLines m cur bs).flatten = cur ++ bs := by
  induction bs with
  | nil =>
    intro m cur
    rw [splitLines]
    split_ifs with h
    · rw [h]; rfl
    · simp
  | cons b bs ih =>
    intro m cur
    rw [splitLines]
    split_ifs
    · rw [List.flatten_cons, ih, List.append_assoc]; rfl
    · rw [ih, List.append_assoc]; rfl

theorem flatten_lines (stream : List UInt8) : (lines stream).flatten = stream :=
  flatten_splitLines stream _ []

/-- What a line looks like: not empty, no longer than the buffer allows, and with no newline before
its last byte. -/
structure IsLine (line : List UInt8) : Prop where
  ne_nil : line ≠ []
  length_lt : line.length < maxline
  newline_last : newline ∉ line.dropLast

/-- **Every line is one.** -/
theorem isLine_of_mem_splitLines (bs : List UInt8) : ∀ {m : ℕ} {cur line : List UInt8}, 1 ≤ m →
    cur.length + m = maxline - 1 → newline ∉ cur → line ∈ splitLines m cur bs → IsLine line := by
  induction bs with
  | nil =>
    intro m cur line hm hlen hcur hline
    rw [splitLines] at hline
    split_ifs at hline with h
    · exact absurd hline List.not_mem_nil
    · obtain rfl := List.mem_singleton.1 hline
      exact ⟨h, by omega, fun hmem ↦ hcur (List.mem_of_mem_dropLast hmem)⟩
  | cons b bs ih =>
    intro m cur line hm hlen hcur hline
    rw [splitLines] at hline
    split_ifs at hline with h
    · rcases List.mem_cons.1 hline with rfl | hline
      · refine ⟨by simp, ?_, by rwa [List.dropLast_concat]⟩
        rw [List.length_append, List.length_singleton]
        omega
      · exact ih (by decide) (by simp) List.not_mem_nil hline
    · -- the line goes on, still without a newline
      have hb : newline ∉ cur ++ [b] := by
        rw [List.mem_append, List.mem_singleton]
        rintro (hmem | rfl)
        · exact hcur hmem
        · exact h (.inl rfl)
      refine ih (by omega) ?_ hb hline
      rw [List.length_append, List.length_singleton]
      omega

theorem isLine_of_mem_lines {stream line : List UInt8} (h : line ∈ lines stream) : IsLine line :=
  isLine_of_mem_splitLines stream (by decide) (by simp) List.not_mem_nil h

/-! ### Streams put together from lines -/

/-- A line that ends in a newline, and in no earlier one. -/
structure EndsInNewline (line : List UInt8) : Prop where
  length_lt : line.length < maxline
  newline_last : ∃ text, line = text ++ [newline] ∧ newline ∉ text

theorem splitLines_append (text rest : List UInt8) : ∀ {m : ℕ} {cur : List UInt8},
    newline ∉ text → text.length < m →
      splitLines m cur (text ++ newline :: rest) =
        (cur ++ text ++ [newline]) :: splitLines (maxline - 1) [] rest := by
  induction text with
  | nil =>
    intro m cur _ _
    rw [List.nil_append, splitLines, if_pos (.inl rfl), List.append_nil]
  | cons b text ih =>
    intro m cur htext hlen
    have hb : newline ≠ b := List.ne_of_not_mem_cons htext
    have htext : newline ∉ text := List.not_mem_of_not_mem_cons htext
    rw [List.length_cons] at hlen
    have hgo : ¬ (b = newline ∨ m ≤ 1) := not_or.2 ⟨hb.symm, by omega⟩
    rw [List.cons_append, splitLines, if_neg hgo, ih htext (by omega)]
    simp only [List.append_assoc, List.singleton_append]

/-- **A line in front of a stream** is the first one of it. -/
theorem lines_append {line : List UInt8} (hline : EndsInNewline line) (rest : List UInt8) :
    lines (line ++ rest) = line :: lines rest := by
  obtain ⟨text, rfl, htext⟩ := hline.newline_last
  have hlen := hline.length_lt
  rw [List.length_append, List.length_singleton] at hlen
  rw [lines, List.append_assoc, List.singleton_append, splitLines_append text rest htext (by omega)]
  rfl

/-- Lines in front of a stream are the first ones of it. -/
theorem lines_flatten_append {ls : List (List UInt8)} (hls : ∀ line ∈ ls, EndsInNewline line)
    (rest : List UInt8) : lines (ls.flatten ++ rest) = ls ++ lines rest := by
  induction ls with
  | nil => rfl
  | cons line ls ih =>
    rw [List.flatten_cons, List.append_assoc, lines_append (hls line List.mem_cons_self),
      ih fun l hl ↦ hls l (List.mem_cons_of_mem _ hl), List.cons_append]

/-! ### The reads that deliver them -/

/-- The bytes of the buffer, up to the end of the line or all of them. -/
theorem splitLines_afterLine (bs rest : List UInt8) : ∀ {m : ℕ}, 1 ≤ m → ∀ cur : List UInt8,
    (∀ rest', afterLine m bs = some rest' → ∃ read, bs = read ++ rest' ∧ read ≠ [] ∧
      splitLines m cur (bs ++ rest) =
        (cur ++ read) :: splitLines (maxline - 1) [] (rest' ++ rest)) ∧
    (afterLine m bs = none →
      splitLines m cur (bs ++ rest) = splitLines (m - bs.length) (cur ++ bs) rest) := by
  induction bs with
  | nil =>
    intro m hm cur
    exact ⟨fun rest' h ↦ absurd h (by simp [afterLine]), fun _ ↦ by simp⟩
  | cons b bs ih =>
    intro m hm cur
    rw [List.cons_append, splitLines, afterLine]
    split_ifs with h
    · refine ⟨fun rest' hrest ↦ ?_, fun hnone ↦ absurd hnone (by simp)⟩
      obtain rfl := Option.some.inj hrest
      exact ⟨[b], rfl, by simp, rfl⟩
    · obtain ⟨hsome, hnone⟩ := ih (m := m - 1) (by omega) (cur ++ [b])
      refine ⟨fun rest' hrest ↦ ?_, fun h' ↦ ?_⟩
      · obtain ⟨read, rfl, -, hread⟩ := hsome rest' hrest
        exact ⟨b :: read, rfl, by simp, by rw [hread, List.append_assoc]; rfl⟩
      · rw [hnone h', List.append_assoc, List.length_cons, Nat.sub_sub, Nat.add_comm 1]
        rfl

/-- One call of the loop, from `m` bytes of room behind `cur`, takes the first line off the
stream. -/
def TakesLine (rs : List ReadResult) (unread : List UInt8) : Prop :=
  ∀ {m : ℕ}, 1 ≤ m → ∀ {cur line unread' rs'},
    readlinebLoop m cur unread rs = some (line, unread', rs') →
      splitLines m cur (unread ++ streamBytes rs) =
        if line = [] then [] else line :: lines (unread' ++ streamBytes rs')

/-- What is in the buffer comes first. -/
theorem TakesLine.unread {rs : List ReadResult} (h : TakesLine rs []) (bs : List UInt8) :
    TakesLine rs bs := by
  intro m hm cur line unread' rs' hloop
  obtain ⟨hsome, hnone⟩ := splitLines_afterLine bs (streamBytes rs) hm cur
  rcases readlinebLoop_unread rs bs hm cur with
    ⟨rest, hafter, read, hbs, hne, hread⟩ | ⟨hafter, hlt, hread⟩
  · obtain ⟨rfl, rfl, rfl⟩ : cur ++ read = line ∧ rest = unread' ∧ rs = rs' := by
      simpa [hread] using hloop
    obtain ⟨read', hbs', -, hsplit⟩ := hsome rest hafter
    obtain rfl : read = read' := List.append_cancel_right (hbs.symm.trans hbs')
    rw [hsplit, if_neg (by simp [hne])]
    rfl
  · -- the buffer is used up within the line
    rw [hnone hafter]
    exact h (by omega) (hread ▸ hloop)

theorem takesLine (rs : List ReadResult) : TakesLine rs [] := by
  induction rs with
  | nil =>
    intro m hm cur line unread' rs' h
    obtain ⟨m, rfl⟩ := Nat.exists_eq_add_of_le' hm
    obtain ⟨rfl, rfl, rfl⟩ : cur = line ∧ [] = unread' ∧ [] = rs' := by
      simpa [readlinebLoop, rioRead] using h
    rfl
  | cons r rs ih =>
    intro m hm cur line unread' rs' h
    cases r with
    | interrupted =>
      have hstep : readlinebLoop m cur [] (.interrupted :: rs) = readlinebLoop m cur [] rs := by
        obtain ⟨m, rfl⟩ := Nat.exists_eq_add_of_le' hm
        rw [readlinebLoop, readlinebLoop, rioRead]
      exact ih hm (hstep ▸ h)
    | failed =>
      obtain ⟨m, rfl⟩ := Nat.exists_eq_add_of_le' hm
      exact absurd h (by simp [readlinebLoop, rioRead])
    | data chunk => exact ih.unread chunk.bytes hm (readlinebLoop_data hm cur chunk rs ▸ h)

/-- **`Rio_readlineb` takes the next line off the stream**, however `read` delivers it, and returns
nothing at its end. -/
theorem rioReadlineb_lines {rs rs' : List ReadResult} {unread unread' line : List UInt8}
    (h : rioReadlineb maxline unread rs = some (line, unread', rs')) :
    lines (unread ++ streamBytes rs) =
      if line = [] then [] else line :: lines (unread' ++ streamBytes rs') :=
  TakesLine.unread (takesLine rs) unread (by decide) h

end CsappCode.Csapp
