import Mathlib.Data.List.Basic
import Mathlib.Data.Nat.Notation

/-!
# Sequential sources

A source is what is still to come: a list of items, and behind it either the end or a failure. A
demand says how many items of the front it takes, and waits for more as long as the items at hand do
not settle that.

* `Demand` is a function of the items at hand, with the law that more items do not change a demand
  that is settled.
* `Source.take` serves one demand and `Source.run` a sequence of them.
* `run_frames`: a sequence of messages that are each just what their demand takes is given back as
  it was put together.

## How it is used

**Two levels.** A program that reads from a connection through a buffer has a state with the buffer,
the pieces that arrive, and interruptions. What it computes depends on less: on the items and what
stands behind them. A `Source` is this abstract state, and a buffered reader refines it if each of
its calls does on the whole of what is buffered and to come what the demand says.

**The end and a failure** differ. At the end a demand gets what there is, which may be too little;
in front of a failure it gets nothing unless the items before it settle it.

**Demands** are arbitrary: a fixed number of items, the items up to a delimiter, or a number that
the first items give.
-/

namespace CsappCode.Library

variable {α : Type*}

/-- A demand: how many items it takes off the front of a list, if the list is long enough to settle
that. -/
structure Demand (α : Type*) where
  need : List α → Option ℕ
  need_le : ∀ {items k}, need items = some k → k ≤ items.length
  /-- Items further behind change nothing. -/
  need_append : ∀ {items k}, need items = some k → ∀ more, need (items ++ more) = some k

namespace Demand

/-- Just so many items. -/
def count (n : ℕ) : Demand α where
  need items := if n ≤ items.length then some n else none
  need_le {items k} h := by
    split_ifs at h with hn
    exact Option.some.inj h ▸ hn
  need_append {items k} h more := by
    split_ifs at h with hn
    have hn' : n ≤ (items ++ more).length :=
      Nat.le_trans hn (List.length_append ▸ Nat.le_add_right _ _)
    rw [if_pos hn', h]

/-- How many items there are up to the first that meets `p`, and at most `m`. -/
def untilLength (p : α → Bool) : ℕ → List α → Option ℕ
  | 0, _ => some 0
  | _ + 1, [] => none
  | m + 1, a :: items => if p a then some 1 else (untilLength p m items).map (· + 1)

theorem untilLength_le (p : α → Bool) (items : List α) : ∀ {m k : ℕ},
    untilLength p m items = some k → k ≤ items.length := by
  induction items with
  | nil =>
    intro m k h
    cases m with
    | zero => exact Nat.le_of_eq (Option.some.inj h).symm
    | succ m => exact absurd h (by simp [untilLength])
  | cons a items ih =>
    intro m k h
    cases m with
    | zero => exact Option.some.inj h ▸ Nat.zero_le _
    | succ m =>
      rw [untilLength] at h
      rw [List.length_cons]
      split_ifs at h
      · exact Option.some.inj h ▸ Nat.le_add_left 1 _
      · obtain ⟨j, hj, rfl⟩ := Option.map_eq_some_iff.1 h
        exact Nat.succ_le_succ (ih hj)

theorem untilLength_append (p : α → Bool) (items more : List α) : ∀ {m k : ℕ},
    untilLength p m items = some k → untilLength p m (items ++ more) = some k := by
  induction items with
  | nil =>
    intro m k h
    cases m with
    | zero => exact h
    | succ m => exact absurd h (by simp [untilLength])
  | cons a items ih =>
    intro m k h
    cases m with
    | zero => exact h
    | succ m =>
      rw [untilLength] at h
      rw [List.cons_append, untilLength]
      split_ifs at h ⊢
      · exact h
      · obtain ⟨j, hj, rfl⟩ := Option.map_eq_some_iff.1 h
        rw [ih hj, Option.map_some]

/-- The items up to the first that meets `p`, and at most `m`. -/
def upTo (p : α → Bool) (m : ℕ) : Demand α where
  need := untilLength p m
  need_le h := untilLength_le p _ h
  need_append h more := untilLength_append p _ more h

/-- A list that a demand takes as a whole. -/
def Frames (d : Demand α) (message : List α) : Prop := d.need message = some message.length

instance (d : Demand α) (message : List α) : Decidable (d.Frames message) :=
  inferInstanceAs (Decidable (_ = _))

end Demand

/-- What is still to come, and whether a failure stands behind it. -/
structure Source (α : Type*) where
  items : List α
  broken : Bool

namespace Source

/-- One demand. A source that ends gives what it has; no value is the failure. -/
def take (d : Demand α) (s : Source α) : Option (List α × Source α) :=
  match d.need s.items with
  | some k => some (s.items.take k, { s with items := s.items.drop k })
  | none => if s.broken then none else some (s.items, { s with items := [] })

/-- One demand after the other. -/
def run : List (Demand α) → Source α → Option (List (List α) × Source α)
  | [], s => some ([], s)
  | d :: ds, s =>
    (s.take d).bind fun q ↦ (run ds q.2).map fun r ↦ (q.1 :: r.1, r.2)

/-! ### A demand served in pieces -/

/-- A demand that wants `first`, and behind it what `d'` wants, is served in two pieces. -/
theorem take_append_of_need {d d' : Demand α} {first items : List α}
    (h : d.need (first ++ items) = (d'.need items).map (first.length + ·)) (broken : Bool) :
    (Source.mk (first ++ items) broken).take d =
      ((Source.mk items broken).take d').map fun q ↦ (first ++ q.1, q.2) := by
  rw [take, take]
  dsimp only
  rw [h]
  cases d'.need items with
  | none => cases broken <;> rfl
  | some k =>
    show some ((first ++ items).take _, Source.mk ((first ++ items).drop _) broken) = _
    rw [List.take_length_add_append, List.drop_length_add_append]
    rfl

/-- A count is served piece by piece. -/
theorem take_count_append {first : List α} {n : ℕ} (hn : first.length ≤ n) (items : List α)
    (broken : Bool) :
    (Source.mk (first ++ items) broken).take (Demand.count n) =
      ((Source.mk items broken).take (Demand.count (n - first.length))).map
        fun q ↦ (first ++ q.1, q.2) := by
  refine take_append_of_need ?_ broken
  have hiff : n ≤ (first ++ items).length ↔ n - first.length ≤ items.length := by
    rw [List.length_append]
    omega
  simp only [Demand.count, hiff]
  split_ifs
  · rw [Option.map_some, Nat.add_sub_cancel' hn]
  · rfl

/-- No more is taken than the count. -/
theorem length_le_of_take_count {n : ℕ} {s : Source α} {q : List α × Source α}
    (h : s.take (Demand.count n) = some q) : q.1.length ≤ n := by
  rcases Nat.lt_or_ge s.items.length n with hn | hn
  · have hneed : (Demand.count n).need s.items = none := if_neg (Nat.not_le.2 hn)
    rw [take, hneed] at h
    dsimp only at h
    split_ifs at h
    exact Option.some.inj h ▸ Nat.le_of_lt hn
  · have hneed : (Demand.count n).need s.items = some n := if_pos hn
    rw [take, hneed] at h
    exact Option.some.inj h ▸ List.length_take_le _ _

/-- A search is served item by item. -/
theorem take_upTo_cons (p : α → Bool) (m : ℕ) (a : α) (items : List α) (broken : Bool) :
    (Source.mk (a :: items) broken).take (Demand.upTo p (m + 1)) =
      if p a then some ([a], ⟨items, broken⟩)
      else ((Source.mk items broken).take (Demand.upTo p m)).map fun q ↦ (a :: q.1, q.2) := by
  split_ifs with h
  · have hneed : (Demand.upTo p (m + 1)).need (a :: items) = some 1 := if_pos h
    rw [take]
    dsimp only
    rw [hneed]
    rfl
  · refine @take_append_of_need _ (Demand.upTo p (m + 1)) (Demand.upTo p m) [a] items ?_ broken
    show Demand.untilLength p (m + 1) (a :: items) = _
    rw [Demand.untilLength, if_neg h]
    exact Option.map_congr fun k _ ↦ Nat.add_comm k 1

/-! ### Messages -/

/-- A message in front of a source is taken as it is. -/
theorem take_frame {d : Demand α} {message : List α} (h : d.Frames message) (rest : List α)
    (broken : Bool) :
    (Source.mk (message ++ rest) broken).take d = some (message, ⟨rest, broken⟩) := by
  rw [take, show d.need (message ++ rest) = some message.length from d.need_append h rest]
  show some ((message ++ rest).take message.length, _) = _
  rw [List.take_left, List.drop_left]

/-- **Messages are given back**, each to its demand. -/
theorem run_frames (rest : List α) (broken : Bool) : ∀ {messages : List (Demand α × List α)},
    (∀ q ∈ messages, q.1.Frames q.2) →
      (Source.mk ((messages.map Prod.snd).flatten ++ rest) broken).run (messages.map Prod.fst) =
        some (messages.map Prod.snd, ⟨rest, broken⟩) := by
  intro messages
  induction messages with
  | nil => exact fun _ ↦ rfl
  | cons q messages ih =>
    intro h
    have hfirst := h q List.mem_cons_self
    have hothers := ih fun q' hq' ↦ h q' (List.mem_cons_of_mem _ hq')
    rw [List.map_cons, List.map_cons, List.flatten_cons, List.append_assoc, run,
      take_frame hfirst, Option.bind_some, hothers, Option.map_some]

end Source

end CsappCode.Library
