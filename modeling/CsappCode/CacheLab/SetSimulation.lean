import CsappCode.CacheLab.Csim
import Mathlib.Data.List.Perm.Basic

/-!
# One set of the simulator is a recency list

The simulator keeps no recency list: it ages every valid line of a set and zeroes the touched one.
This module shows that the ages carry the list. `Represents E n set V P` reads an array of `E` lines
twice over: as the valid lines `V` in array order followed by empty ones, and as the same lines `P`
in strictly increasing order of age. The tags of `P` are the recency list.

* `maxLoop_eq` and `victim_eq` say that the loop over the ages finds the one oldest line.
* `represents_touched` rebuilds the representation after an access, whichever place was touched.
* `accessLines_hit`, `accessLines_fill` and `accessLines_evict` are the three ways an access can
  end.
* `accessLines_spec` is the simulation step: on a represented set one access answers as the recency
  list does and leaves a represented set.

## The bound on the ages

The ages are 32-bit integers and compared as signed ones. The bound `n` on them grows by one an
access, and as long as it stays below `2 ^ 31` the comparison is that of the numbers. Strictness is
what makes the victim unique: two lines of one age would leave the choice to their places in the
array, and the recency list knows nothing of these.

The representation says nothing of sets that were never accessed beyond that they are empty, and
nothing of the address: tags are any 32-bit numbers here.
-/

namespace CsappCode.CacheLab

open Recency (Outcome touch outcome)

/-- A tag with its age, for a valid line. -/
abbrev Aged := BitVec 32 × ℕ

/-- The line that stores an aged tag. -/
def Aged.line (p : Aged) : CacheLine := ⟨true, p.1, BitVec.ofNat 32 p.2⟩

/-- One access later. -/
def Aged.older (p : Aged) : Aged := (p.1, p.2 + 1)

/-- The array `set` of `E` lines holds the aged tags `V` in array order, and `P` orders them by
age, none above `n`. -/
structure Represents (E n : ℕ) (set : CacheSet) (V P : List Aged) : Prop where
  set_eq : set = V.map Aged.line ++ List.replicate (E - V.length) emptyLine
  length_le : V.length ≤ E
  perm : V.Perm P
  sorted : P.Pairwise fun p q ↦ p.2 < q.2
  age_le : ∀ p ∈ P, p.2 ≤ n
  nodup : (P.map Prod.fst).Nodup
  /-- The most recently touched line is the one of age zero. -/
  head_age : ∀ p ∈ P.head?, p.2 = 0

theorem represents_init (E : ℕ) : Represents E 0 (List.replicate E emptyLine) [] [] where
  set_eq := by simp
  length_le := Nat.zero_le _
  perm := .nil
  sorted := .nil
  age_le := by simp
  nodup := by simp
  head_age := by simp

/-! ### The loops of `process` on a represented set -/

/-- **Ageing.** Valid lines get older, empty ones do not change. -/
theorem ageLines_map_append_replicate (V : List Aged) (k : ℕ) :
    ageLines (V.map Aged.line ++ List.replicate k emptyLine) =
      (V.map Aged.older).map Aged.line ++ List.replicate k emptyLine := by
  simp only [ageLines, List.map_append, List.map_map, List.map_replicate]
  congr 1
  refine List.map_congr_left fun p _ ↦ ?_
  simp [Aged.line, Aged.older, BitVec.ofNat_add]

/-- The hit loop skips lines of other tags, and empty lines whatever their tag. -/
theorem findIdx?_tag_eq_none {V : List Aged} {t : BitVec 32} (h : t ∉ V.map Prod.fst) (k : ℕ) :
    (V.map Aged.line ++ List.replicate k emptyLine).findIdx?
      (fun line ↦ line.validBit && line.tagBit == t) = none := by
  refine List.findIdx?_eq_none_iff.2 fun line hline ↦ ?_
  rcases List.mem_append.1 hline with hmem | hmem
  · obtain ⟨p, hp, rfl⟩ := List.mem_map.1 hmem
    have hne : p.1 ≠ t := fun hpt ↦ h (hpt ▸ List.mem_map_of_mem hp)
    simpa [Aged.line] using hne
  · rw [(List.mem_replicate.1 hmem).2]
    rfl

/-- And stops at the line of the tag. -/
theorem findIdx?_tag_eq_some {V₁ V₂ : List Aged} {p : Aged} (h : p.1 ∉ V₁.map Prod.fst) (k : ℕ) :
    ((V₁ ++ p :: V₂).map Aged.line ++ List.replicate k emptyLine).findIdx?
      (fun line ↦ line.validBit && line.tagBit == p.1) = some V₁.length := by
  have hnone := findIdx?_tag_eq_none h 0
  rw [List.replicate_zero, List.append_nil] at hnone
  simp [List.findIdx?_append, hnone, List.findIdx?_cons, Aged.line]

/-- The fill loop stops at the first empty line, and finds none in a full set. -/
theorem findIdx?_empty (V : List Aged) (k : ℕ) :
    (V.map Aged.line ++ List.replicate k emptyLine).findIdx? (fun line ↦ !line.validBit) =
      if 0 < k then some V.length else none := by
  have hnone : (V.map Aged.line).findIdx? (fun line ↦ !line.validBit) = none := by
    refine List.findIdx?_eq_none_iff.2 fun line hline ↦ ?_
    obtain ⟨p, -, rfl⟩ := List.mem_map.1 hline
    rfl
  rw [List.findIdx?_append, hnone, List.findIdx?_replicate]
  split_ifs <;> simp_all [emptyLine]

theorem modify_length_append {α : Type*} (f : α → α) (l₁ l₂ : List α) (a : α) :
    (l₁ ++ a :: l₂).modify l₁.length f = l₁ ++ f a :: l₂ := by
  induction l₁ with
  | nil => rfl
  | cons b l₁ ih => rw [List.cons_append, List.length_cons, List.modify_succ_cons, ih]; rfl

/-- A store to the line of one place, when it makes this the line of `q`. -/
theorem modify_line {V₁ V₂ : List Aged} {p q : Aged} {f : CacheLine → CacheLine}
    (h : f p.line = q.line) (rest : CacheSet) :
    ((V₁ ++ p :: V₂).map Aged.line ++ rest).modify V₁.length f =
      (V₁ ++ q :: V₂).map Aged.line ++ rest := by
  have hlen : V₁.length = (V₁.map Aged.line).length := by rw [List.length_map]
  rw [List.map_append, List.map_cons, List.append_assoc, List.cons_append, hlen,
    modify_length_append, h, List.map_append, List.map_cons, List.append_assoc, List.cons_append]

/-! ### The oldest line -/

/-- A natural number that fits an `int` is read back from it. -/
theorem toInt_ofNat_of_lt {a : ℕ} (ha : a < 2 ^ 31) : (BitVec.ofNat 32 a).toInt = a := by
  have hnat : (BitVec.ofNat 32 a).toNat = a := by
    rw [BitVec.toNat_ofNat, Nat.mod_eq_of_lt (by omega)]
  rw [BitVec.toInt_eq_toNat_of_lt (by omega), hnat]

/-- Signed comparison of ages that fit an `int`. -/
theorem slt_ofNat {a c : ℕ} (ha : a < 2 ^ 31) (hc : c < 2 ^ 31) :
    (BitVec.ofNat 32 a).slt (BitVec.ofNat 32 c) = decide (a < c) := by
  rw [BitVec.slt_eq_decide, toInt_ofNat_of_lt ha, toInt_ofNat_of_lt hc]
  simp

/-- No later line is strictly older than the maximum so far: the loop keeps its index. -/
theorem maxLoop_keep {m : ℕ} (hm : m < 2 ^ 31) :
    ∀ (V : List Aged) (i maxIndex : ℕ), (∀ p ∈ V, p.2 ≤ m) →
      maxLoop (V.map Aged.line) i maxIndex (BitVec.ofNat 32 m) = maxIndex
  | [], _, _, _ => rfl
  | p :: V, i, maxIndex, h => by
    have hp := h p List.mem_cons_self
    rw [List.map_cons, maxLoop, show p.line.times = BitVec.ofNat 32 p.2 from rfl,
      slt_ofNat hm (by omega), if_neg (by simpa using hp)]
    exact maxLoop_keep hm V _ _ fun q hq ↦ h q (List.mem_cons_of_mem _ hq)

/-- **The loop finds the one oldest line**, whatever younger maximum it starts from. -/
theorem maxLoop_eq {m : ℕ} (hm : m < 2 ^ 31) (t : BitVec 32) {V₂ : List Aged}
    (h₂ : ∀ p ∈ V₂, p.2 ≤ m) :
    ∀ (V₁ : List Aged) (i maxIndex a : ℕ), a < m → (∀ p ∈ V₁, p.2 < m) →
      maxLoop ((V₁ ++ (t, m) :: V₂).map Aged.line) i maxIndex (BitVec.ofNat 32 a) = i + V₁.length
  | [], i, maxIndex, a, ha, _ => by
    rw [List.nil_append, List.map_cons, maxLoop,
      show (Aged.line (t, m)).times = BitVec.ofNat 32 m from rfl, slt_ofNat (by omega) hm,
      if_pos (by simpa using ha)]
    exact maxLoop_keep hm V₂ _ _ h₂
  | p :: V₁, i, maxIndex, a, ha, h₁ => by
    have hp := h₁ p List.mem_cons_self
    have hrest := fun q hq ↦ h₁ q (List.mem_cons_of_mem _ hq)
    rw [List.cons_append, List.map_cons, maxLoop,
      show p.line.times = BitVec.ofNat 32 p.2 from rfl]
    split_ifs
    · rw [maxLoop_eq hm t h₂ V₁ (i + 1) i p.2 hp hrest, List.length_cons]; omega
    · rw [maxLoop_eq hm t h₂ V₁ (i + 1) maxIndex a ha hrest, List.length_cons]; omega

/-- **The victim is the oldest line.** -/
theorem victim_eq {m : ℕ} (hm : m < 2 ^ 31) (t : BitVec 32) {V₁ V₂ : List Aged}
    (h₁ : ∀ p ∈ V₁, p.2 < m) (h₂ : ∀ p ∈ V₂, p.2 ≤ m) :
    victim ((V₁ ++ (t, m) :: V₂).map Aged.line) = some V₁.length := by
  cases V₁ with
  | nil =>
    rw [List.nil_append, List.map_cons, victim]
    exact congrArg some (maxLoop_keep hm ((t, m) :: V₂) 0 0 (by simpa using h₂))
  | cons p V₁ =>
    have hp := h₁ p List.mem_cons_self
    have h := maxLoop_eq hm t h₂ (p :: V₁) 0 0 p.2 hp h₁
    rw [Nat.zero_add] at h
    exact congrArg some h

/-! ### The simulation step -/

section Step

variable {E n : ℕ} {set : CacheSet} {V P : List Aged} {t : BitVec 32}

/-- A resident tag sits at one place of the recency order, with an age. -/
theorem Represents.split (h : Represents E n set V P) (ht : t ∈ P.map Prod.fst) :
    ∃ a P₁ P₂, P = P₁ ++ (t, a) :: P₂ ∧ (P.map Prod.fst).erase t = (P₁ ++ P₂).map Prod.fst := by
  obtain ⟨⟨t', a⟩, hp, rfl⟩ := List.mem_map.1 ht
  obtain ⟨P₁, P₂, rfl⟩ := List.append_of_mem hp
  refine ⟨a, P₁, P₂, rfl, ?_⟩
  have hnd := h.nodup
  rw [List.map_append, List.map_cons, List.nodup_append] at hnd
  have hnot : t' ∉ P₁.map Prod.fst := fun hmem ↦ hnd.2.2 _ hmem _ List.mem_cons_self rfl
  rw [List.map_append, List.map_cons, List.erase_append_right _ hnot, List.erase_cons_head,
    List.map_append]

/-- The lines that stay get older and follow the line just zeroed. -/
theorem sorted_cons_older {Q : List Aged} (hQ : Q.Pairwise fun p q ↦ p.2 < q.2) (t : BitVec 32) :
    ((t, 0) :: Q.map Aged.older).Pairwise fun p q ↦ p.2 < q.2 := by
  refine List.pairwise_cons.2 ⟨fun p hp ↦ ?_, ?_⟩
  · obtain ⟨q, -, rfl⟩ := List.mem_map.1 hp
    exact Nat.succ_pos _
  · exact List.pairwise_map.2 (hQ.imp fun h ↦ Nat.succ_lt_succ h)

theorem map_fst_older (Q : List Aged) : (Q.map Aged.older).map Prod.fst = Q.map Prod.fst := by
  rw [List.map_map]
  rfl

/-- The array after an access that touches `t`, in array order and in the order of age. -/
theorem perm_touched {V₁ V₂ Q : List Aged} (h : (V₁ ++ V₂).Perm Q) (t : BitVec 32) :
    (V₁.map Aged.older ++ (t, 0) :: V₂.map Aged.older).Perm ((t, 0) :: Q.map Aged.older) := by
  refine List.perm_middle.trans (List.Perm.cons _ ?_)
  rw [← List.map_append]
  exact h.map _

/-- **Rebuilding the representation.** After an access that keeps the lines `Q` and touches `t`, the
array holds `t` at age zero and the others one older; whichever place `t` took. -/
theorem represents_touched {Q V' : List Aged} {set' : CacheSet}
    (hset : set' = V'.map Aged.line ++ List.replicate (E - V'.length) emptyLine)
    (hlen : V'.length ≤ E) (hperm : V'.Perm ((t, 0) :: Q.map Aged.older))
    (hsorted : Q.Pairwise fun p q ↦ p.2 < q.2) (hage : ∀ p ∈ Q, p.2 ≤ n)
    (hnd : (t :: Q.map Prod.fst).Nodup) :
    Represents E (n + 1) set' V' ((t, 0) :: Q.map Aged.older) where
  set_eq := hset
  length_le := hlen
  perm := hperm
  sorted := sorted_cons_older hsorted t
  age_le := by
    intro p hp
    rcases List.mem_cons.1 hp with rfl | hp
    · exact Nat.zero_le _
    · obtain ⟨q, hq, rfl⟩ := List.mem_map.1 hp
      exact Nat.succ_le_succ (hage q hq)
  nodup := by rwa [List.map_cons, map_fst_older]
  head_age := by simp

/-- **Hit.** -/
theorem accessLines_hit (h : Represents E n set V P) (ht : t ∈ P.map Prod.fst) :
    ∃ set' V' P', accessLines set t = some (set', .hit) ∧ Represents E (n + 1) set' V' P' ∧
      P'.map Prod.fst = t :: (P.map Prod.fst).erase t := by
  obtain ⟨a, P₁, P₂, rfl, herase⟩ := h.split ht
  obtain ⟨V₁, V₂, rfl⟩ := List.append_of_mem (h.perm.mem_iff.2 (show (t, a) ∈ _ by simp))
  have hperm : (V₁ ++ V₂).Perm (P₁ ++ P₂) :=
    (List.perm_cons (t, a)).1
      (List.perm_middle.symm.trans (h.perm.trans List.perm_middle))
  have hnd : (t :: (P₁ ++ P₂).map Prod.fst).Nodup :=
    ((@List.perm_middle _ (t, a) P₁ P₂).map Prod.fst).nodup_iff.1 h.nodup
  have hnot : t ∉ (V₁.map Aged.older).map Prod.fst := by
    rw [map_fst_older]
    intro hmem
    refine (List.nodup_cons.1 hnd).1 ((hperm.map Prod.fst).mem_iff.1 ?_)
    rw [List.map_append]
    exact List.mem_append_left _ hmem
  have hlen := h.length_le
  have hV' : (V₁.map Aged.older ++ (t, 0) :: V₂.map Aged.older).length =
      (V₁ ++ (t, a) :: V₂).length := by simp
  refine ⟨_, V₁.map Aged.older ++ (t, 0) :: V₂.map Aged.older, _, ?_,
    represents_touched (Q := P₁ ++ P₂) rfl (hV' ▸ hlen) (perm_touched hperm t)
      (h.sorted.sublist ?_) ?_ hnd, ?_⟩
  · have hfind := @findIdx?_tag_eq_some _ (V₂.map Aged.older) (t, a + 1) hnot
      (E - (V₁ ++ (t, a) :: V₂).length)
    rw [accessLines, h.set_eq, ageLines_map_append_replicate, List.map_append, List.map_cons,
      show Aged.older (t, a) = (t, a + 1) from rfl]
    simp only [hfind]
    rw [hV', @modify_line _ _ (t, a + 1) (t, 0) _ rfl]
  · exact List.Sublist.append_left (List.sublist_cons_self _ _) _
  · intro p hp
    refine h.age_le p ?_
    rcases List.mem_append.1 hp with hp | hp
    · exact List.mem_append_left _ hp
    · exact List.mem_append_right _ (List.mem_cons_of_mem _ hp)
  · rw [List.map_cons, map_fst_older, herase]

/-- A tag that is not resident is on no line, aged or not. -/
theorem Represents.not_mem_older (h : Represents E n set V P) (ht : t ∉ P.map Prod.fst) :
    t ∉ (V.map Aged.older).map Prod.fst := by
  rw [map_fst_older]
  exact fun hmem ↦ ht ((h.perm.map Prod.fst).mem_iff.1 hmem)

/-- **Miss with an empty line.** -/
theorem accessLines_fill (h : Represents E n set V P) (ht : t ∉ P.map Prod.fst)
    (hlt : P.length < E) :
    ∃ set' V' P', accessLines set t = some (set', .fill) ∧ Represents E (n + 1) set' V' P' ∧
      P'.map Prod.fst = t :: P.map Prod.fst := by
  have hlen : V.length < E := by rw [h.perm.length_eq]; exact hlt
  refine ⟨_, V.map Aged.older ++ [(t, 0)], _, ?_,
    represents_touched (Q := P) rfl ?_ ?_ h.sorted h.age_le (List.nodup_cons.2 ⟨ht, h.nodup⟩), ?_⟩
  · have hempty := findIdx?_empty (V.map Aged.older) (E - V.length)
    rw [if_pos (by omega)] at hempty
    rw [accessLines, h.set_eq, ageLines_map_append_replicate]
    simp only [findIdx?_tag_eq_none (h.not_mem_older ht), hempty]
    rw [show E - V.length = (E - (V.length + 1)) + 1 by omega, List.replicate_succ,
      show (V.map Aged.older).length = ((V.map Aged.older).map Aged.line).length by simp,
      modify_length_append]
    simp [Aged.line]
  · simpa using Nat.succ_le_of_lt hlen
  · exact (List.perm_append_comm).trans (List.Perm.cons _ (h.perm.map _))
  · rw [List.map_cons, map_fst_older]

/-- **Miss in a full set.** The victim is the last of the recency order. -/
theorem accessLines_evict (h : Represents E n set V P) (hE : 0 < E) (hn : n + 1 < 2 ^ 31)
    (ht : t ∉ P.map Prod.fst) (hfull : E ≤ P.length) :
    ∃ set' V' P', accessLines set t = some (set', .evict) ∧ Represents E (n + 1) set' V' P' ∧
      P'.map Prod.fst = t :: (P.map Prod.fst).dropLast := by
  have hne : P ≠ [] := by rintro rfl; simp at hfull; omega
  obtain ⟨P₀, ⟨u, m⟩, rfl⟩ : ∃ P₀ p, P = P₀ ++ [p] :=
    ⟨P.dropLast, P.getLast hne, (List.dropLast_append_getLast hne).symm⟩
  obtain ⟨V₁, V₂, rfl⟩ := List.append_of_mem (h.perm.mem_iff.2 (show (u, m) ∈ _ by simp))
  have hperm : (V₁ ++ V₂).Perm P₀ :=
    (List.perm_cons (u, m)).1
      (List.perm_middle.symm.trans (h.perm.trans (@List.perm_append_comm _ P₀ [(u, m)])))
  have hm : m ≤ n := h.age_le (u, m) (by simp)
  have hyounger : ∀ p ∈ V₁ ++ V₂, p.2 < m := fun p hp ↦
    (List.pairwise_append.1 h.sorted).2.2 p (hperm.mem_iff.1 hp) (u, m) (by simp)
  have holder : ∀ p ∈ (V₁ ++ V₂).map Aged.older, p.2 < m + 1 := by
    intro p hp
    obtain ⟨q, hq, rfl⟩ := List.mem_map.1 hp
    exact Nat.succ_lt_succ (hyounger q hq)
  rw [List.map_append] at holder
  have hlenV : (V₁ ++ (u, m) :: V₂).length = E := by
    have := h.length_le
    rw [h.perm.length_eq] at this ⊢
    omega
  have hV' : (V₁.map Aged.older ++ (t, 0) :: V₂.map Aged.older).length = E := by
    rw [← hlenV]; simp
  refine ⟨_, V₁.map Aged.older ++ (t, 0) :: V₂.map Aged.older, _, ?_,
    represents_touched (t := t) (Q := P₀) rfl hV'.le (perm_touched hperm t)
      (List.pairwise_append.1 h.sorted).1
      (fun p hp ↦ h.age_le p (List.mem_append_left _ hp)) ?_, ?_⟩
  · have hvictim := victim_eq (by omega) u
      (fun p hp ↦ holder p (List.mem_append_left _ hp))
      (fun p hp ↦ (holder p (List.mem_append_right _ hp)).le)
    have hempty := findIdx?_empty ((V₁ ++ (u, m) :: V₂).map Aged.older) 0
    have hnone := findIdx?_tag_eq_none (h.not_mem_older ht) 0
    rw [accessLines, h.set_eq, ageLines_map_append_replicate, hlenV, Nat.sub_self]
    simp only [hnone, hempty, Nat.lt_irrefl, if_false]
    rw [List.replicate_zero, List.append_nil, List.map_append, List.map_cons,
      show Aged.older (u, m) = (u, m + 1) from rfl, hvictim, hV', Nat.sub_self, List.replicate_zero,
      Option.bind_eq_bind, Option.bind_some]
    have hmodify := @modify_line (V₁.map Aged.older) (V₂.map Aged.older) (u, m + 1) (t, 0)
      (fun line ↦ { line with tagBit := t, times := 0 }) rfl []
    rw [List.append_nil] at hmodify
    rw [hmodify]
  · refine List.nodup_cons.2 ⟨fun hmem ↦ ht ?_, ?_⟩
    · rw [List.map_append]; exact List.mem_append_left _ hmem
    · have := h.nodup
      rw [List.map_append] at this
      exact (List.nodup_append.1 this).1
  · rw [List.map_cons, map_fst_older, List.map_append, List.map_cons, List.map_nil,
      List.dropLast_concat]

/-- **One access to a represented set is one access to its recency list.** -/
theorem accessLines_spec (h : Represents E n set V P) (hE : 0 < E) (hn : n + 1 < 2 ^ 31)
    (t : BitVec 32) :
    ∃ set' V' P', accessLines set t = some (set', outcome E (P.map Prod.fst) t) ∧
      Represents E (n + 1) set' V' P' ∧ P'.map Prod.fst = touch E (P.map Prod.fst) t := by
  rcases Decidable.em (t ∈ P.map Prod.fst) with ht | ht
  · rw [Recency.outcome_of_mem ht, Recency.touch_of_mem ht]
    exact accessLines_hit h ht
  rcases Nat.lt_or_ge P.length E with hlt | hfull
  · have hlt' : (P.map Prod.fst).length < E := by rwa [List.length_map]
    rw [Recency.outcome_of_lt ht hlt', Recency.touch_of_lt ht hlt']
    exact accessLines_fill h ht hlt
  · have hfull' : E ≤ (P.map Prod.fst).length := by rwa [List.length_map]
    rw [Recency.outcome_of_full ht hfull', Recency.touch_of_full ht hfull']
    exact accessLines_evict h hE hn ht hfull

/-- A set that is not accessed keeps its representation while the bound grows. -/
theorem Represents.mono (h : Represents E n set V P) : Represents E (n + 1) set V P :=
  { h with age_le := fun p hp ↦ Nat.le_succ_of_le (h.age_le p hp) }

end Step

end CsappCode.CacheLab
