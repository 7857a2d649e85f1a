import Mathlib.Data.List.Basic
import Mathlib.Data.Nat.Notation

/-!
# Words and quoted words

A text is cut into words at a separator. A word that begins with a quote reaches up to the next
quote, separators included, and a quote without another one behind it ends the cutting.

* `Cuts` gives the rules, `words` computes.
* `Mode` is where a reader of the text stands: between two words, or in one that reaches up to a
  separator or a quote.
* `exists_cuts` says that every text can be cut.
* `cuts_iff` says that the rules and the function agree: every text is cut in one way.

## The rules

**Separators** may stand in any number between two words and in front of the first one. A word that
is not quoted is not empty and has no separator in it; a quote inside it is a character like any
other.

**Quotes** count at the beginning of a word only. What is quoted may be empty and may have
separators, but no quote. Behind the closing quote the next word may begin at once.

**An open quote** ends the cutting, and the words before it are kept. So not every character of a
text belongs to a word or a separator.

Any type of characters will do, with a separator and a quote that differ.
-/

namespace QuotedWords

variable {α : Type} {sep quote : α}

/-- The words of a text, in order. -/
inductive Cuts (sep quote : α) : List α → List (List α) → Prop
  | nil : Cuts sep quote [] []
  | sep {s : List α} {ws : List (List α)} : Cuts sep quote s ws → Cuts sep quote (sep :: s) ws
  | word {c : α} {w s : List α} {ws : List (List α)} : c ≠ quote → sep ∉ c :: w →
      Cuts sep quote s ws → Cuts sep quote (c :: w ++ sep :: s) ((c :: w) :: ws)
  | last {c : α} {w : List α} : c ≠ quote → sep ∉ c :: w → Cuts sep quote (c :: w) [c :: w]
  | quoted {w s : List α} {ws : List (List α)} : quote ∉ w → Cuts sep quote s ws →
      Cuts sep quote (quote :: (w ++ quote :: s)) (w :: ws)
  | unterminated {w : List α} : quote ∉ w → Cuts sep quote (quote :: w) []

/-- A separator at the end changes nothing. -/
theorem Cuts.concat_sep (hne : sep ≠ quote) {s : List α} {ws : List (List α)}
    (h : Cuts sep quote s ws) : Cuts sep quote (s ++ [sep]) ws := by
  induction h with
  | nil => exact .sep .nil
  | sep _ ih => exact .sep ih
  | word hquote hsep _ ih =>
    rw [List.append_assoc]
    exact .word hquote hsep ih
  | last hquote hsep => exact .word hquote hsep .nil
  | quoted hw _ ih =>
    rw [List.cons_append, List.append_assoc]
    exact .quoted hw ih
  | unterminated hw =>
    refine .unterminated fun hmem ↦ ?_
    rcases List.mem_append.1 hmem with hmem | hmem
    · exact hw hmem
    · exact hne (List.mem_singleton.1 hmem).symm

/-! ### The words of a text, computed -/

/-- Where a reader of the text is: between words, or within one that reaches up to `stop`. -/
inductive Mode (α : Type) where
  | between
  | within (stop : α) (read : List α)

variable [DecidableEq α]

/-- The words from a place on. -/
def wordsFrom (sep quote : α) : Mode α → List α → List (List α)
  | .between, [] => []
  | .between, c :: s =>
    if c = sep then wordsFrom sep quote .between s
    else if c = quote then wordsFrom sep quote (.within quote []) s
    else wordsFrom sep quote (.within sep [c]) s
  | .within stop read, [] => if stop = sep then [read] else []
  | .within stop read, c :: s =>
    if c = stop then read :: wordsFrom sep quote .between s
    else wordsFrom sep quote (.within stop (read ++ [c])) s

/-- The words of a text. -/
def words (sep quote : α) (s : List α) : List (List α) := wordsFrom sep quote .between s

theorem words_sep (s : List α) : words sep quote (sep :: s) = words sep quote s := by
  rw [words, wordsFrom, if_pos rfl, words]

theorem words_quote (hne : sep ≠ quote) (s : List α) :
    words sep quote (quote :: s) = wordsFrom sep quote (.within quote []) s := by
  rw [words, wordsFrom, if_neg hne.symm, if_pos rfl]

theorem words_cons {c : α} (hsep : c ≠ sep) (hquote : c ≠ quote) (s : List α) :
    words sep quote (c :: s) = wordsFrom sep quote (.within sep [c]) s := by
  rw [words, wordsFrom, if_neg hsep, if_neg hquote]

theorem wordsFrom_within {stop : α} {w : List α} (hw : stop ∉ w) (s : List α) :
    ∀ read : List α, wordsFrom sep quote (.within stop read) (w ++ stop :: s) =
      (read ++ w) :: words sep quote s := by
  induction w with
  | nil => exact fun read ↦ by rw [List.nil_append, wordsFrom, if_pos rfl, List.append_nil, words]
  | cons c w ih =>
    intro read
    obtain ⟨hc, hw'⟩ := List.ne_and_not_mem_of_not_mem_cons hw
    rw [List.cons_append, wordsFrom, if_neg hc.symm, ih hw', List.append_assoc,
      List.singleton_append]

theorem wordsFrom_within_end {stop : α} {w : List α} (hw : stop ∉ w) : ∀ read : List α,
    wordsFrom sep quote (.within stop read) w = if stop = sep then [read ++ w] else [] := by
  induction w with
  | nil => exact fun read ↦ by rw [wordsFrom, List.append_nil]
  | cons c w ih =>
    intro read
    obtain ⟨hc, hw'⟩ := List.ne_and_not_mem_of_not_mem_cons hw
    rw [wordsFrom, if_neg hc.symm, ih hw', List.append_assoc, List.singleton_append]

/-! ### The rules and the function -/

/-- A text has no other words than those that `words` computes. -/
theorem Cuts.words_eq (hne : sep ≠ quote) {s : List α} {ws : List (List α)}
    (h : Cuts sep quote s ws) : words sep quote s = ws := by
  induction h with
  | nil => rfl
  | sep _ ih => exact (words_sep _).trans ih
  | word hquote hsep _ ih =>
    obtain ⟨hc, hw⟩ := List.ne_and_not_mem_of_not_mem_cons hsep
    rw [List.cons_append, words_cons hc.symm hquote, wordsFrom_within hw, ih,
      List.singleton_append]
  | last hquote hsep =>
    obtain ⟨hc, hw⟩ := List.ne_and_not_mem_of_not_mem_cons hsep
    rw [words_cons hc.symm hquote, wordsFrom_within_end hw, if_pos rfl, List.singleton_append]
  | quoted hw _ ih => rw [words_quote hne, wordsFrom_within hw, ih, List.nil_append]
  | unterminated hw => rw [words_quote hne, wordsFrom_within_end hw, if_neg hne.symm]

/-- A text up to the first place of an element. -/
theorem notMem_or_exists_first (c : α) (s : List α) :
    c ∉ s ∨ ∃ w s', s = w ++ c :: s' ∧ c ∉ w := by
  by_cases h : c ∈ s
  · exact .inr (List.eq_append_cons_of_mem h)
  · exact .inl h

/-- **Every text can be cut.** -/
theorem exists_cuts (s : List α) : ∃ ws, Cuts sep quote s ws := by
  -- the rules read a word at a time, so that the induction is on the length
  induction hn : s.length using Nat.strongRecOn generalizing s with
  | ind n ih =>
    subst hn
    cases s with
    | nil => exact ⟨_, .nil⟩
    | cons c s =>
      rcases eq_or_ne c sep with rfl | hsep
      · obtain ⟨ws, hws⟩ := ih s.length (Nat.lt_succ_self _) s rfl
        exact ⟨ws, .sep hws⟩
      rcases eq_or_ne c quote with rfl | hquote
      · obtain hw | ⟨w, s', rfl, hw⟩ := notMem_or_exists_first c s
        · exact ⟨_, .unterminated hw⟩
        · obtain ⟨ws, hws⟩ := ih s'.length (by simp; omega) s' rfl
          exact ⟨_, .quoted hw hws⟩
      · obtain hw | ⟨w, s', rfl, hw⟩ := notMem_or_exists_first sep s
        · exact ⟨_, .last hquote (List.not_mem_cons_of_ne_of_not_mem hsep.symm hw)⟩
        · obtain ⟨ws, hws⟩ := ih s'.length (by simp; omega) s' rfl
          exact ⟨_, .word hquote (List.not_mem_cons_of_ne_of_not_mem hsep.symm hw) hws⟩

/-- **The rules and the function agree.** -/
theorem cuts_iff (hne : sep ≠ quote) {s : List α} {ws : List (List α)} :
    Cuts sep quote s ws ↔ words sep quote s = ws := by
  refine ⟨Cuts.words_eq hne, ?_⟩
  rintro rfl
  obtain ⟨ws, hws⟩ := exists_cuts s
  rwa [hws.words_eq hne]

/-- A quoted word with a word right behind it, a quote within a word, and one that stays open. -/
example : words 0 1 [0, 2, 3, 0, 1, 4, 0, 4, 1, 5, 0, 6, 1, 7, 0, 1, 8] =
    [[2, 3], [4, 0, 4], [5], [6, 1, 7]] := by decide

end QuotedWords
