import Mathlib.Data.List.Sort
import Mathlib.Data.List.Count
import Mathlib.Order.Bounds.Basic

/-!
# The `k` best of a sequence

The `k` smallest elements of a list over a linear order, in increasing order, and how they change
when the list grows.

* `best k xs` is the normal form. `best_concat` is the step: the element that arrives is inserted
  among the best, and what no longer fits is dropped.
* `best_concat_of_length_lt`, `best_concat_of_lt` and `best_concat_of_le` are the three cases in
  which a buffer of `k` places takes that step.
* `getElem?_best_le_iff` reads the `k`-th smallest as a count, without the order of the list.

## How it is used

**A buffer** of the `k` smallest samples so far is what measuring loops keep, and insertion into it
is usually written with a few tests on the last element. The three cases are those tests: there is
room, the new element is smaller than the last one and takes its place, or it is not and is dropped.

**Counting.** A loop that stops when the `k`-th smallest is close to the smallest asks, without
saying so, whether `k` of the elements are below a bound. `getElem?_best_le_iff` turns the one into
the other, so that a specification need not speak of sorting.

**Equal elements** are kept as often as they occur, and any linear order will do. Nothing is
computed twice: the normal form is a definition to compare with, not one to run.
-/

namespace KBest

variable {α : Type*} [LinearOrder α] {k : ℕ} {xs l : List α} {v w : α}

/-- The `k` smallest elements, in increasing order. -/
def best (k : ℕ) (xs : List α) : List α := (xs.insertionSort (· ≤ ·)).take k

@[simp] theorem best_nil : best k ([] : List α) = [] := by simp [best]

@[simp] theorem length_best (k : ℕ) (xs : List α) : (best k xs).length = min k xs.length := by
  simp [best]

theorem pairwise_best (k : ℕ) (xs : List α) : (best k xs).Pairwise (· ≤ ·) :=
  (List.pairwise_insertionSort _ xs).sublist (List.take_sublist _ _)

/-! ### Insertion into a sorted list -/

theorem orderedInsert_of_forall_le (hl : l.Pairwise (· ≤ ·)) (h : ∀ x ∈ l, x ≤ v) :
    l.orderedInsert (· ≤ ·) v = l ++ [v] := by
  have hsorted : (l ++ [v]).Pairwise (· ≤ ·) := by
    rw [List.pairwise_append]
    exact ⟨hl, List.pairwise_singleton _ _, by simpa using h⟩
  have hperm : (l.orderedInsert (· ≤ ·) v).Perm (l ++ [v]) :=
    (List.perm_orderedInsert _ v l).trans (List.perm_append_singleton v l).symm
  exact hperm.eq_of_pairwise' (hl.orderedInsert v l) hsorted

theorem orderedInsert_concat_of_lt (h : v < w) :
    (l ++ [w]).orderedInsert (· ≤ ·) v = l.orderedInsert (· ≤ ·) v ++ [w] := by
  induction l with
  | nil => simp [h.le]
  | cons b l ih =>
    by_cases hb : v ≤ b
    · simp [hb]
    · simp [hb, ih]

theorem take_orderedInsert (k : ℕ) (l : List α) :
    (l.orderedInsert (· ≤ ·) v).take k = ((l.take k).orderedInsert (· ≤ ·) v).take k := by
  induction l generalizing k with
  | nil => simp
  | cons b l ih =>
    rcases k with - | k
    · simp
    · by_cases hb : v ≤ b
      · rcases k with - | k
        · simp [hb]
        · simp [hb, List.take_take]
      · simpa [hb] using ih k

/-! ### One more element -/

theorem insertionSort_concat :
    (xs ++ [v]).insertionSort (· ≤ ·) =
      (xs.insertionSort (· ≤ ·)).orderedInsert (· ≤ ·) v := by
  have harrive : ((xs ++ [v]).insertionSort (· ≤ ·)).Perm (v :: xs) :=
    (List.perm_insertionSort _ _).trans (List.perm_append_singleton v xs)
  have hinsert : ((xs.insertionSort (· ≤ ·)).orderedInsert (· ≤ ·) v).Perm (v :: xs) :=
    (List.perm_orderedInsert _ _ _).trans ((List.perm_insertionSort _ xs).cons v)
  exact (harrive.trans hinsert.symm).eq_of_pairwise' (List.pairwise_insertionSort _ _)
    ((List.pairwise_insertionSort _ _).orderedInsert v _)

/-- **The step.** The new element is inserted among the best, and what no longer fits is
dropped. -/
theorem best_concat : best k (xs ++ [v]) = ((best k xs).orderedInsert (· ≤ ·) v).take k := by
  rw [best, insertionSort_concat, take_orderedInsert, best]

theorem best_concat_of_length_lt (h : xs.length < k) :
    best k (xs ++ [v]) = (best k xs).orderedInsert (· ≤ ·) v := by
  rw [best_concat]
  exact List.take_of_length_le (by rw [List.orderedInsert_length, length_best]; omega)

theorem best_concat_of_lt (hbest : best k xs = l ++ [w]) (hfull : k ≤ xs.length) (h : v < w) :
    best k (xs ++ [v]) = l.orderedInsert (· ≤ ·) v := by
  have hlen : l.length + 1 = k := by
    have hmin := length_best k xs
    rw [hbest, List.length_append, List.length_singleton] at hmin
    omega
  rw [best_concat, hbest, orderedInsert_concat_of_lt h]
  exact List.take_left' (by rw [List.orderedInsert_length, hlen])

theorem best_concat_of_le (hbest : best k xs = l ++ [w]) (hfull : k ≤ xs.length) (h : w ≤ v) :
    best k (xs ++ [v]) = best k xs := by
  have hsorted := pairwise_best k xs
  have hle : ∀ x ∈ best k xs, x ≤ v := by
    intro x hx
    rw [hbest] at hx hsorted
    rcases List.mem_append.mp hx with hx | hx
    · have hxw : x ≤ w := (List.pairwise_append.mp hsorted).2.2 x hx w (List.mem_singleton_self w)
      exact hxw.trans h
    · exact (List.mem_singleton.mp hx).le.trans h
  rw [best_concat, orderedInsert_of_forall_le hsorted hle]
  exact List.take_left' (by rw [length_best]; omega)

/-! ### The least and the `k`-th -/

theorem isLeast_of_best (h : (best k xs)[0]? = some v) : IsLeast {x | x ∈ xs} v := by
  have hhead : (xs.insertionSort (· ≤ ·))[0]? = some v := by
    rcases k with - | k
    · simp [best] at h
    · simpa [best] using h
  have hsorted := List.pairwise_insertionSort (· ≤ ·) xs
  obtain ⟨rest, hrest⟩ : ∃ rest, xs.insertionSort (· ≤ ·) = v :: rest := by
    rcases hs : xs.insertionSort (· ≤ ·) with - | ⟨b, rest⟩
    · simp [hs] at hhead
    · exact ⟨rest, by simpa [hs] using hhead⟩
  have hmem : ∀ x, x ∈ xs ↔ x ∈ v :: rest := fun x ↦ by rw [← hrest, List.mem_insertionSort]
  rw [hrest, List.pairwise_cons] at hsorted
  refine ⟨(hmem v).mpr (List.mem_cons_self), fun x hx ↦ ?_⟩
  rcases List.mem_cons.mp ((hmem x).mp hx) with hx | hx
  · exact hx.ge
  · exact hsorted.1 x hx

/-- In a sorted list, the element at `i` is at most `b` just when more than `i` elements are. -/
theorem getElem_le_iff_lt_countP (hl : l.Pairwise (· ≤ ·)) {i : ℕ} (hi : i < l.length) {b : α} :
    l[i] ≤ b ↔ i < l.countP (· ≤ b) := by
  induction l generalizing i with
  | nil => simp at hi
  | cons a l ih =>
    obtain ⟨ha, hl⟩ := List.pairwise_cons.mp hl
    by_cases hab : a ≤ b
    · rcases i with - | i
      · simp [hab]
      · simpa [hab] using ih hl (Nat.lt_of_succ_lt_succ hi)
    · have hnone : l.countP (· ≤ b) = 0 := by
        rw [List.countP_eq_zero]
        intro x hx hxb
        exact hab ((ha x hx).trans (of_decide_eq_true hxb))
      have hgt : ¬ (a :: l)[i] ≤ b := by
        rcases i with - | i
        · exact hab
        · intro hib
          exact hab ((ha _ (List.getElem_mem _)).trans hib)
      simp [hab, hnone, hgt]

/-- The `k`-th smallest element is at most `b` just when `k` elements are. -/
theorem getElem?_best_le_iff {b : α} (h : (best (k + 1) xs)[k]? = some w) :
    w ≤ b ↔ k + 1 ≤ xs.countP (· ≤ b) := by
  have hget : (xs.insertionSort (· ≤ ·))[k]? = some w := by
    rwa [best, List.getElem?_take_of_lt (Nat.lt_succ_self k)] at h
  obtain ⟨hk, hw⟩ := List.getElem?_eq_some_iff.mp hget
  rw [← hw, getElem_le_iff_lt_countP (List.pairwise_insertionSort _ xs) hk,
    (List.perm_insertionSort (· ≤ ·) xs).countP_eq]
  exact Nat.lt_iff_add_one_le

end KBest
