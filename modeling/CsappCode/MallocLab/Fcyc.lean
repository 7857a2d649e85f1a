import CsappCode.Library.KBest
import Mathlib.Data.List.Induction
import Mathlib.Algebra.Field.Rat
import Mathlib.Algebra.Order.Ring.Rat

/-!
# The K-best timer of `fcyc.c`

`fcyc` runs a function again and again, keeps the `kbest` smallest times in `values`, and returns
the smallest. It stops when these times agree within `epsilon`, or after `maxsamples` runs.

* `initSampler`, `addSample` and `hasConverged` are the helpers, `fcyc` is the loop.
* `Holds` is what the sampler holds after some samples: the best of them, in order, in front.
* `addSample_eq` and `hasConverged_eq` say what the two helpers do with the samples so far.
* `fcyc_eq` is the K-best scheme.

## How the code is modelled

**Times** are of a type `α` with a linear order, as the values of `double` other than NaN are.
Nothing is assumed of `+` and `*`, which round: the bound `(1 + epsilon) * values[0]` is computed as
the code does, and what matters is only how a time compares with it.

**The counter.** `cyc i` is what the counter reads in run `i`. So the results are for every sequence
of times, and nothing is said about what they measure. Compensating for timer ticks is the same loop
with another counter, and clearing the cache before a run is left out.

**The array** has `kbest` places. An access outside it is `none`, and that there is none is part of
the result.

**Termination.** The loop ends by `maxsamples` at the latest, so its fuel is that number.
-/

namespace CsappCode.MallocLab.Fcyc

open KBest

variable {α : Type} [LinearOrder α]

/-! ### The source -/

/-- The parameters of the measurement. -/
structure Config (α : Type) where
  kbest : ℕ
  maxsamples : ℤ
  epsilon : α

/-- The parameters before any `set_fcyc_` call, with the epsilon as it is written. -/
def defaults : Config ℚ := ⟨3, 20, 1 / 100⟩

/-- The static variables of the sampler. -/
structure Sampler (α : Type) where
  values : List α
  samplecount : ℕ

/-- `init_sampler`. -/
def initSampler [Zero α] (cfg : Config α) : Sampler α := ⟨List.replicate cfg.kbest 0, 0⟩

/-- `values[i] = v`. -/
def store (values : List α) (i : ℕ) (v : α) : Option (List α) :=
  if i < values.length then some (values.set i v) else none

/-- The insertion sort of `add_sample`, from `pos` down. -/
def insertSample : ℕ → List α → Option (List α)
  | 0, values => some values
  | pos + 1, values => do
    let before ← values[pos]?
    let here ← values[pos + 1]?
    if here < before then
      insertSample pos ((values.set pos here).set (pos + 1) before)
    else
      some values

/-- Where `add_sample` puts the sample, and `values` after that. -/
def placeSample (cfg : Config α) (s : Sampler α) (val : α) : Option (ℕ × List α) :=
  if s.samplecount < cfg.kbest then do
    return (s.samplecount, ← store s.values s.samplecount val)
  else do
    let worst ← s.values[cfg.kbest - 1]?
    if val < worst then
      return (cfg.kbest - 1, ← store s.values (cfg.kbest - 1) val)
    else
      return (0, s.values)

/-- `add_sample`. -/
def addSample (cfg : Config α) (s : Sampler α) (val : α) : Option (Sampler α) := do
  let (pos, values) ← placeSample cfg s val
  return ⟨← insertSample pos values, s.samplecount + 1⟩

/-- `has_converged`. -/
def hasConverged [One α] [Add α] [Mul α] (cfg : Config α) (s : Sampler α) : Option Bool :=
  if cfg.kbest ≤ s.samplecount then do
    let first ← s.values[0]?
    let last ← s.values[cfg.kbest - 1]?
    return decide ((1 + cfg.epsilon) * first ≥ last)
  else
    some false

/-- The loop of `fcyc`. The fuel is for the runs after the first. A loop that would need more ends
in `none`. -/
def sample [One α] [Add α] [Mul α] (cfg : Config α) (cyc : ℕ → α) :
    ℕ → Sampler α → Option (Sampler α)
  | fuel, s => do
    let s ← addSample cfg s (cyc s.samplecount)
    if !(← hasConverged cfg s) && s.samplecount < cfg.maxsamples then
      match fuel with
      | 0 => none
      | fuel + 1 => sample cfg cyc fuel s
    else
      return s

/-- `fcyc`. Both values of `compensate` run the same loop, with another counter. -/
def fcyc [Zero α] [One α] [Add α] [Mul α] (cfg : Config α) (cyc : ℕ → α) : Option α := do
  let s ← sample cfg cyc cfg.maxsamples.toNat (initSampler cfg)
  s.values[0]?

example : fcyc ⟨3, 20, 0⟩ (fun i ↦ [7, 5, 9, 3, 4, 3, 8, 3].getD i 1) = some 3 := by decide

/-! ### One sample -/

variable {cfg : Config α} {s : Sampler α} {xs l junk : List α} {v : α}

/-- The sampler after the samples `xs`: the best of them are in front. -/
structure Holds (cfg : Config α) (xs : List α) (s : Sampler α) : Prop where
  count : s.samplecount = xs.length
  size : s.values.length = cfg.kbest
  best : best cfg.kbest xs <+: s.values

theorem holds_initSampler [Zero α] (cfg : Config α) : Holds cfg [] (initSampler cfg) :=
  ⟨rfl, List.length_replicate, by simp⟩

/-- The loop inserts the element behind a sorted list. -/
theorem insertSample_eq (hl : l.Pairwise (· ≤ ·)) (v : α) (junk : List α) :
    insertSample l.length (l ++ v :: junk) = some (l.orderedInsert (· ≤ ·) v ++ junk) := by
  induction l using List.reverseRecOn generalizing junk with
  | nil => rfl
  | append_singleton l w ih =>
    have hbefore : (l ++ [w] ++ v :: junk)[l.length]? = some w := by simp
    have hhere : (l ++ [w] ++ v :: junk)[l.length + 1]? = some v := by simp
    rw [List.length_append, List.length_singleton, insertSample, hbefore, hhere]
    show (if v < w then _ else _) = _
    by_cases hvw : v < w
    · have hswap : ((l ++ [w] ++ v :: junk).set l.length v).set (l.length + 1) w =
          l ++ v :: w :: junk := by simp
      rw [if_pos hvw, hswap, ih (List.pairwise_append.mp hl).1 (w :: junk),
        orderedInsert_concat_of_lt hvw, List.append_assoc, List.singleton_append]
    · have hle : ∀ x ∈ l ++ [w], x ≤ v := by
        intro x hx
        rcases List.mem_append.mp hx with hx | hx
        · exact ((List.pairwise_append.mp hl).2.2 x hx w (List.mem_singleton_self w)).trans
            (not_lt.mp hvw)
        · exact (List.mem_singleton.mp hx).le.trans (not_lt.mp hvw)
      rw [if_neg hvw, orderedInsert_of_forall_le hl hle]
      simp

theorem addSample_of_placeSample {pos : ℕ} {values values' : List α}
    (hplace : placeSample cfg s v = some (pos, values))
    (hinsert : insertSample pos values = some values') :
    addSample cfg s v = some ⟨values', s.samplecount + 1⟩ := by
  rw [addSample, hplace]
  show (insertSample pos values).bind _ = _
  rw [hinsert]
  rfl

/-- The buffer after a sample, from what is in front of it and its length. -/
theorem Holds.concat (h : Holds cfg xs s) {values : List α}
    (hbest : KBest.best cfg.kbest (xs ++ [v]) <+: values) (hsize : values.length = cfg.kbest) :
    Holds cfg (xs ++ [v]) ⟨values, s.samplecount + 1⟩ := by
  refine ⟨?_, hsize, hbest⟩
  show s.samplecount + 1 = _
  rw [h.count, List.length_append, List.length_singleton]

/-- Fewer samples than places: the sample gets the next free place. -/
theorem addSample_of_lt (h : Holds cfg xs s) (hlt : xs.length < cfg.kbest) :
    ∃ s', addSample cfg s v = some s' ∧ Holds cfg (xs ++ [v]) s' := by
  obtain ⟨junk, hvalues⟩ := h.best
  have hlen : (KBest.best cfg.kbest xs).length = xs.length := by
    rw [length_best]
    omega
  have hsize : xs.length + junk.length = cfg.kbest := by
    rw [← h.size, ← hvalues, List.length_append, hlen]
  obtain ⟨free, junk, rfl⟩ := List.exists_cons_of_length_pos (show 0 < junk.length by omega)
  have hstore : store s.values xs.length v = some (KBest.best cfg.kbest xs ++ v :: junk) := by
    rw [store, if_pos (by rw [h.size]; exact hlt), ← hvalues, ← hlen]
    simp
  have hplace : placeSample cfg s v = some (xs.length, KBest.best cfg.kbest xs ++ v :: junk) := by
    rw [placeSample, h.count, if_pos hlt, hstore]
    rfl
  have hinsert := insertSample_eq (pairwise_best cfg.kbest xs) v junk
  rw [hlen] at hinsert
  refine ⟨_, addSample_of_placeSample hplace hinsert, h.concat ?_ ?_⟩
  · rw [best_concat_of_length_lt hlt]
    exact List.prefix_append _ _
  · rw [List.length_append, List.orderedInsert_length, hlen, ← hsize, List.length_cons]
    omega

/-- All places are taken: the sample replaces the worst one, if it is better. -/
theorem addSample_of_le (hk : 0 < cfg.kbest) (h : Holds cfg xs s) (hfull : cfg.kbest ≤ xs.length) :
    ∃ s', addSample cfg s v = some s' ∧ Holds cfg (xs ++ [v]) s' := by
  have hvalues : KBest.best cfg.kbest xs = s.values :=
    h.best.eq_of_length (by rw [length_best, h.size]; omega)
  obtain ⟨l, w, hlw⟩ : ∃ l w, s.values = l ++ [w] := by
    have hne : s.values ≠ [] := List.ne_nil_of_length_pos (by rw [h.size]; exact hk)
    exact ⟨_, _, (List.dropLast_append_getLast hne).symm⟩
  have hlen : l.length + 1 = cfg.kbest := by
    rw [← h.size, hlw, List.length_append, List.length_singleton]
  have hlast : cfg.kbest - 1 = l.length := by omega
  have hworst : s.values[l.length]? = some w := by rw [hlw]; simp
  have hnot : ¬ s.samplecount < cfg.kbest := by rw [h.count]; omega
  by_cases hvw : v < w
  · have hsorted : l.Pairwise (· ≤ ·) := by
      have hall := pairwise_best cfg.kbest xs
      rw [hvalues, hlw] at hall
      exact (List.pairwise_append.mp hall).1
    have hstore : store s.values l.length v = some (l ++ [v]) := by
      rw [store, if_pos (by rw [h.size]; omega), hlw]
      simp
    have hplace : placeSample cfg s v = some (l.length, l ++ [v]) := by
      rw [placeSample, if_neg hnot, hlast, hworst]
      show (if v < w then _ else _) = _
      rw [if_pos hvw, hstore]
      rfl
    have hinsert := insertSample_eq hsorted v []
    rw [List.append_nil] at hinsert
    refine ⟨_, addSample_of_placeSample hplace hinsert, h.concat ?_ ?_⟩
    · exact best_concat_of_lt (hvalues.trans hlw) hfull hvw ▸ List.prefix_rfl
    · rw [List.orderedInsert_length, hlen]
  · have hplace : placeSample cfg s v = some (0, s.values) := by
      rw [placeSample, if_neg hnot, hlast, hworst]
      exact if_neg hvw
    refine ⟨_, addSample_of_placeSample hplace rfl, h.concat ?_ h.size⟩
    rw [best_concat_of_le (hvalues.trans hlw) hfull (not_lt.mp hvw)]
    exact h.best

theorem addSample_eq (hk : 0 < cfg.kbest) (h : Holds cfg xs s) (v : α) :
    ∃ s', addSample cfg s v = some s' ∧ Holds cfg (xs ++ [v]) s' := by
  rcases lt_or_ge xs.length cfg.kbest with hlt | hfull
  · exact addSample_of_lt h hlt
  · exact addSample_of_le hk h hfull

/-! ### Convergence -/

theorem exists_first (hk : 0 < cfg.kbest) (hxs : xs ≠ []) (h : Holds cfg xs s) :
    ∃ m, s.values[0]? = some m ∧ IsLeast {x | x ∈ xs} m := by
  have hpos : 0 < (best cfg.kbest xs).length := by
    have hlen := List.length_pos_of_ne_nil hxs
    rw [length_best]
    omega
  obtain ⟨junk, hvalues⟩ := h.best
  refine ⟨(best cfg.kbest xs)[0], ?_, isLeast_of_best (List.getElem?_eq_getElem hpos)⟩
  rw [← hvalues, List.getElem?_append_left hpos, List.getElem?_eq_getElem hpos]

variable [One α] [Add α] [Mul α]

/-- At least `kbest` of the samples are within `epsilon` of the least one. -/
def Converged (cfg : Config α) (xs : List α) : Prop :=
  ∃ m, IsLeast {x | x ∈ xs} m ∧ cfg.kbest ≤ xs.countP (· ≤ (1 + cfg.epsilon) * m)

theorem hasConverged_eq (hk : 0 < cfg.kbest) (hxs : xs ≠ []) (h : Holds cfg xs s) :
    ∃ b, hasConverged cfg s = some b ∧ (b = true ↔ Converged cfg xs) := by
  obtain ⟨m, hm, hleast⟩ := exists_first hk hxs h
  have hconverged : Converged cfg xs ↔ cfg.kbest ≤ xs.countP (· ≤ (1 + cfg.epsilon) * m) := by
    constructor
    · intro ⟨m', hleast', hcount⟩
      rwa [hleast'.unique hleast] at hcount
    · intro hcount
      exact ⟨m, hleast, hcount⟩
  rw [hasConverged, h.count]
  by_cases hfull : cfg.kbest ≤ xs.length
  · have hvalues : best cfg.kbest xs = s.values :=
      h.best.eq_of_length (by rw [length_best, h.size]; omega)
    obtain ⟨w, hw⟩ : ∃ w, s.values[cfg.kbest - 1]? = some w :=
      ⟨_, List.getElem?_eq_getElem (by rw [h.size]; omega)⟩
    have hwle : ∀ b, w ≤ b ↔ cfg.kbest ≤ xs.countP (· ≤ b) := by
      intro b
      have hk1 : cfg.kbest - 1 + 1 = cfg.kbest := by omega
      have hnth : (best (cfg.kbest - 1 + 1) xs)[cfg.kbest - 1]? = some w := by
        rw [hk1, hvalues, hw]
      rw [getElem?_best_le_iff hnth, hk1]
    refine ⟨_, by rw [if_pos hfull, hm, hw]; rfl, ?_⟩
    rw [hconverged, decide_eq_true_iff]
    exact hwle _
  · refine ⟨false, if_neg hfull, ?_⟩
    have hfew := List.countP_le_length (p := (· ≤ (1 + cfg.epsilon) * m)) (l := xs)
    rw [hconverged]
    constructor
    · intro hfalse
      simp at hfalse
    · intro hcount
      omega

/-! ### The whole measurement -/

/-- What the counter reads in the first `n` runs. -/
def samples (cyc : ℕ → α) (n : ℕ) : List α := (List.range n).map cyc

/-- `n` runs are enough. -/
def Enough (cfg : Config α) (cyc : ℕ → α) (n : ℕ) : Prop :=
  cfg.maxsamples ≤ n ∨ Converged cfg (samples cyc n)

omit [LinearOrder α] [One α] [Add α] [Mul α] in
theorem samples_succ (cyc : ℕ → α) (n : ℕ) : samples cyc (n + 1) = samples cyc n ++ [cyc n] := by
  rw [samples, List.range_succ, List.map_append, List.map_singleton, samples]

/-- One run of the function, and whether there is another. -/
theorem sample_step (hk : 0 < cfg.kbest) {cyc : ℕ → α} {n : ℕ} (h : Holds cfg (samples cyc n) s) :
    ∃ s', Holds cfg (samples cyc (n + 1)) s' ∧
      (Enough cfg cyc (n + 1) → ∀ fuel, sample cfg cyc fuel s = some s') ∧
      (¬ Enough cfg cyc (n + 1) →
        ∀ fuel, sample cfg cyc (fuel + 1) s = sample cfg cyc fuel s') := by
  have hn : s.samplecount = n := by rw [h.count, samples, List.length_map, List.length_range]
  obtain ⟨s', hadd, hs'⟩ := addSample_eq hk h (cyc n)
  rw [← samples_succ] at hs'
  have hn' : s'.samplecount = n + 1 := by
    rw [hs'.count, samples, List.length_map, List.length_range]
  have hne : samples cyc (n + 1) ≠ [] := by rw [samples_succ]; exact List.concat_ne_nil _ _
  obtain ⟨b, hb, hconverged⟩ := hasConverged_eq hk hne hs'
  have hagain : (!b && decide ((s'.samplecount : ℤ) < cfg.maxsamples)) = true ↔
      ¬ Enough cfg cyc (n + 1) := by
    rw [hn', Enough, ← hconverged]
    simp [and_comm]
  refine ⟨s', hs', fun henough fuel ↦ ?_, fun henough fuel ↦ ?_⟩
  · have hstop := fun hb ↦ hagain.mp hb henough
    rw [sample, hn, hadd]
    show (hasConverged cfg s').bind _ = _
    rw [hb]
    exact if_neg hstop
  · rw [sample, hn, hadd]
    show (hasConverged cfg s').bind _ = _
    rw [hb]
    exact if_pos (hagain.mpr henough)

/-- The loop goes on to the first number of runs that is enough. -/
theorem sample_eq (hk : 0 < cfg.kbest) (cyc : ℕ → α) {fuel n : ℕ}
    (hfuel : cfg.maxsamples ≤ n + fuel) (h : Holds cfg (samples cyc n) s) :
    ∃ n' s', n < n' ∧ (∀ m, n < m → m < n' → ¬ Enough cfg cyc m) ∧ Enough cfg cyc n' ∧
      sample cfg cyc fuel s = some s' ∧ Holds cfg (samples cyc n') s' := by
  induction fuel generalizing n s with
  | zero =>
    obtain ⟨s', hs', hstop, -⟩ := sample_step hk h
    have henough : Enough cfg cyc (n + 1) := Or.inl (by push_cast; omega)
    exact ⟨n + 1, s', by omega, by omega, henough, hstop henough 0, hs'⟩
  | succ fuel ih =>
    obtain ⟨s', hs', hstop, hagain⟩ := sample_step hk h
    by_cases henough : Enough cfg cyc (n + 1)
    · exact ⟨n + 1, s', by omega, by omega, henough, hstop henough (fuel + 1), hs'⟩
    · obtain ⟨n', s'', hlt, hbefore, hend, hrun, hs''⟩ :=
        ih (n := n + 1) (s := s') (by push_cast at hfuel ⊢; omega) hs'
      refine ⟨n', s'', by omega, fun m hm hmn' ↦ ?_, hend, (hagain henough fuel).trans hrun, hs''⟩
      rcases Nat.lt_or_ge (n + 1) m with hlater | hnow
      · exact hbefore m hlater hmn'
      · rwa [show m = n + 1 by omega]

/-- **The K-best scheme.** The function is run until `kbest` of the times are within `epsilon` of
the smallest one, or `maxsamples` times, but at least once. The smallest time is returned. -/
theorem fcyc_eq [Zero α] (hk : 0 < cfg.kbest) (cyc : ℕ → α) :
    ∃ n v, 0 < n ∧ (∀ m, 0 < m → m < n → ¬ Enough cfg cyc m) ∧ Enough cfg cyc n ∧
      fcyc cfg cyc = some v ∧ IsLeast {x | x ∈ samples cyc n} v := by
  have hfuel : cfg.maxsamples ≤ (0 : ℕ) + cfg.maxsamples.toNat := by omega
  obtain ⟨n, s, hpos, hbefore, henough, hrun, hs⟩ :=
    sample_eq hk cyc hfuel (holds_initSampler cfg)
  have hne : samples cyc n ≠ [] := List.ne_nil_of_length_pos (by simpa [samples] using hpos)
  obtain ⟨v, hv, hleast⟩ := exists_first hk hne hs
  refine ⟨n, v, hpos, hbefore, henough, ?_, hleast⟩
  rw [fcyc, hrun]
  exact hv

/-- With the default parameters, on times that are 200 in four runs and 100 after that. -/
theorem fcyc_eq_defaults :
    ∃ n v, 0 < n ∧ (∀ m, 0 < m → m < n → ¬ Enough defaults (fun i ↦ if i < 4 then 200 else 100) m) ∧
      Enough defaults (fun i ↦ if i < 4 then 200 else 100) n ∧
      fcyc defaults (fun i ↦ if i < 4 then 200 else 100) = some v ∧
      IsLeast {x | x ∈ samples (fun i ↦ if i < 4 then (200 : ℚ) else 100) n} v :=
  fcyc_eq (by decide) _

end CsappCode.MallocLab.Fcyc
