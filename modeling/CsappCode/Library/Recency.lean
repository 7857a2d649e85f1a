import Mathlib.Data.List.Basic
import Mathlib.Data.List.Nodup
import Mathlib.Data.Set.Function
import Mathlib.Logic.Function.Basic

/-!
# Recency lists and the set-associative LRU cache

The mathematics of least-recently-used replacement, over an arbitrary type of tags. A set of
capacity `E` is the list of its resident tags, most recently used first. One access moves its tag to
the front; on a miss in a full set the last tag leaves.

* `touch` and `outcome` are one access to one set, `Resident` and `Recency.run` a whole cache with
  an arbitrary type of set indices.
* `touch_eq_take` is the normal form: an access is `take E (t :: l.erase t)`. The stack property
  (`take_touch`) is read off it, and says that a smaller set is a prefix of a larger one.
* `run_cut` is the stack property over a run, and `counts_le_of_forall₂` what it says about the
  numbers of hits, misses and evictions.
* `map_touch` transports an access along a renaming of tags that is injective on the tags in play.
* `outcomes_congr` says that of the places of accesses only the coincidences matter.

## Conventions

**Lists without ages.** The order of use is the order of the list, so nothing has to be compared or
counted, and nothing can wrap. An implementation with time stamps refines this as long as its stamps
tell the order.

**Outcomes** tell a miss that fills a free place from one that evicts. Counts are taken from the
list of outcomes, so that two caches can be compared access by access.

**Capacities** are positive where a lemma needs it. A set of capacity zero holds nothing, and each
access to it would evict what it has just brought in.
-/

namespace Recency

/-- How one access ends: on a resident tag, on a miss with a free place, or on a miss that
evicts. -/
inductive Outcome where
  | hit
  | fill
  | evict
  deriving DecidableEq, Repr

section OneSet

variable {τ : Type*} [DecidableEq τ] {E : ℕ} {l : List τ} {t : τ}

/-- One access to a set of capacity `E`, kept most recently used first. An eviction drops the last
tag, the least recently used one. -/
def touch (E : ℕ) (l : List τ) (t : τ) : List τ :=
  if t ∈ l then t :: l.erase t
  else if l.length < E then t :: l
  else t :: l.dropLast

/-- How the access ends. -/
def outcome (E : ℕ) (l : List τ) (t : τ) : Outcome :=
  if t ∈ l then .hit
  else if l.length < E then .fill
  else .evict

theorem touch_of_mem (h : t ∈ l) : touch E l t = t :: l.erase t := if_pos h

theorem touch_of_lt (h : t ∉ l) (hlt : l.length < E) : touch E l t = t :: l := by
  rw [touch, if_neg h, if_pos hlt]

theorem touch_of_full (h : t ∉ l) (hfull : E ≤ l.length) : touch E l t = t :: l.dropLast := by
  rw [touch, if_neg h, if_neg (by omega)]

theorem outcome_of_mem (h : t ∈ l) : outcome E l t = .hit := if_pos h

theorem outcome_of_lt (h : t ∉ l) (hlt : l.length < E) : outcome E l t = .fill := by
  rw [outcome, if_neg h, if_pos hlt]

theorem outcome_of_full (h : t ∉ l) (hfull : E ≤ l.length) : outcome E l t = .evict := by
  rw [outcome, if_neg h, if_neg (by omega)]

theorem outcome_eq_hit_iff : outcome E l t = .hit ↔ t ∈ l := by
  rw [outcome]
  split_ifs <;> simp_all

theorem outcome_eq_evict_iff : outcome E l t = .evict ↔ t ∉ l ∧ E ≤ l.length := by
  rw [outcome]
  split_ifs <;> simp_all

/-- **Normal form.** On a set within its capacity, an access puts the tag in front and cuts the
list to the capacity, whichever of the three ways it ends. -/
theorem touch_eq_take (hE : 0 < E) (hl : l.length ≤ E) : touch E l t = (t :: l.erase t).take E := by
  obtain ⟨k, rfl⟩ := Nat.exists_eq_succ_of_ne_zero hE.ne'
  rw [Nat.succ_eq_add_one, List.take_succ_cons]
  by_cases h : t ∈ l
  · rw [touch_of_mem h, List.take_of_length_le (by rw [List.length_erase_of_mem h]; omega)]
  · rw [List.erase_of_not_mem h]
    by_cases hlt : l.length < k + 1
    · rw [touch_of_lt h hlt, List.take_of_length_le (by omega)]
    · rw [touch_of_full h (by omega), List.dropLast_eq_take, show l.length - 1 = k by omega]

theorem length_touch_le (hE : 0 < E) (hl : l.length ≤ E) : (touch E l t).length ≤ E := by
  rw [touch_eq_take hE hl, List.length_take]
  exact Nat.min_le_left _ _

theorem nodup_touch (hE : 0 < E) (hl : l.length ≤ E) (hnd : l.Nodup) : (touch E l t).Nodup := by
  rw [touch_eq_take hE hl]
  exact (List.nodup_cons.2 ⟨hnd.not_mem_erase, hnd.erase t⟩).sublist (List.take_sublist _ _)

/-- Every tag of the new list is the accessed one or was resident. -/
theorem mem_of_mem_touch {u : τ} (h : u ∈ touch E l t) : u = t ∨ u ∈ l := by
  rw [touch] at h
  split_ifs at h
  all_goals rcases List.mem_cons.1 h with rfl | h
  all_goals first | exact Or.inl rfl | right
  · exact List.mem_of_mem_erase h
  · exact h
  · exact List.dropLast_subset _ h

/-! ### The stack property -/

/-- Cutting after erasing needs only one more place before erasing. -/
theorem take_erase_take (k : ℕ) (l : List τ) (t : τ) :
    ((l.take (k + 1)).erase t).take k = (l.erase t).take k := by
  induction l generalizing k with
  | nil => simp
  | cons a l ih =>
    rw [List.take_succ_cons]
    by_cases hat : a = t
    · rw [hat, List.erase_cons_head, List.erase_cons_head, List.take_take, Nat.min_self]
    · rw [List.erase_cons_tail (by simpa using hat), List.erase_cons_tail (by simpa using hat)]
      cases k with
      | zero => simp
      | succ k => rw [List.take_succ_cons, List.take_succ_cons, ih k]

/-- **Stack property.** The first `E₁` places of a set of capacity `E₂` evolve as a set of
capacity `E₁` on its own. -/
theorem take_touch {E₁ E₂ : ℕ} (h₁ : 0 < E₁) (h₁₂ : E₁ ≤ E₂) (hl : l.length ≤ E₂) :
    (touch E₂ l t).take E₁ = touch E₁ (l.take E₁) t := by
  rw [touch_eq_take (by omega) hl, touch_eq_take h₁ (by rw [List.length_take]; omega),
    List.take_take, Nat.min_eq_left h₁₂]
  obtain ⟨k, rfl⟩ := Nat.exists_eq_succ_of_ne_zero h₁.ne'
  rw [Nat.succ_eq_add_one, List.take_succ_cons, List.take_succ_cons, take_erase_take]

/-- A hit in the prefix is a hit in the whole list. -/
theorem outcome_hit_of_take {E₁ E₂ : ℕ} (h : outcome E₁ (l.take E₁) t = .hit) :
    outcome E₂ l t = .hit :=
  outcome_eq_hit_iff.2 (List.mem_of_mem_take (outcome_eq_hit_iff.1 h))

/-- An eviction from the larger set is an eviction from the smaller one. -/
theorem outcome_evict_take {E₁ E₂ : ℕ} (h₁₂ : E₁ ≤ E₂) (h : outcome E₂ l t = .evict) :
    outcome E₁ (l.take E₁) t = .evict := by
  obtain ⟨hmem, hlen⟩ := outcome_eq_evict_iff.1 h
  exact outcome_eq_evict_iff.2 ⟨fun h' ↦ hmem (List.mem_of_mem_take h'), by
    rw [List.length_take]; omega⟩

/-! ### Renaming tags -/

/-- **Renaming.** An access commutes with any renaming injective on the tags in play. -/
theorem map_touch {υ : Type*} [DecidableEq υ] {f : τ → υ} (hf : Set.InjOn f {u | u = t ∨ u ∈ l}) :
    (touch E l t).map f = touch E (l.map f) (f t) ∧ outcome E (l.map f) (f t) = outcome E l t := by
  have hmem : f t ∈ l.map f ↔ t ∈ l := by
    refine ⟨fun h ↦ ?_, fun h ↦ List.mem_map_of_mem h⟩
    obtain ⟨u, hu, hfu⟩ := List.mem_map.1 h
    rwa [← hf (Or.inr hu) (Or.inl rfl) hfu]
  have herase : ∀ m : List τ, (∀ u ∈ m, u ∈ l) → (m.erase t).map f = (m.map f).erase (f t) := by
    intro m
    induction m with
    | nil => simp
    | cons a m ih =>
      intro hsub
      have ih' := ih fun u hu ↦ hsub u (List.mem_cons_of_mem _ hu)
      by_cases hat : a = t
      · rw [hat, List.map_cons, List.erase_cons_head, List.erase_cons_head]
      · have hfat : f a ≠ f t := fun h ↦
          hat (hf (Or.inr (hsub a List.mem_cons_self)) (Or.inl rfl) h)
        rw [List.erase_cons_tail (by simpa using hat), List.map_cons, List.map_cons,
          List.erase_cons_tail (by simpa using hfat), ih']
  constructor
  · rw [touch, touch]
    simp only [hmem, List.length_map]
    split_ifs
    · rw [List.map_cons, herase l fun _ h ↦ h]
    · rw [List.map_cons]
    · rw [List.map_cons, List.map_dropLast]
  · rw [outcome, outcome]
    simp only [hmem, List.length_map]

end OneSet

/-! ### A cache of sets -/

section Cache

variable {ι τ : Type*} [DecidableEq ι] [DecidableEq τ] {E : ℕ}

/-- The resident tags of every set, each list most recently used first. -/
abbrev Resident (ι τ : Type*) := ι → List τ

/-- One access: its set is touched, the others are left alone. -/
def access (E : ℕ) (R : Resident ι τ) (a : ι × τ) : Resident ι τ :=
  Function.update R a.1 (touch E (R a.1) a.2)

/-- A whole run of accesses. -/
def run (E : ℕ) : Resident ι τ → List (ι × τ) → Resident ι τ
  | R, [] => R
  | R, a :: as => run E (access E R a) as

/-- The outcomes of a run, in order. -/
def outcomes (E : ℕ) : Resident ι τ → List (ι × τ) → List Outcome
  | _, [] => []
  | R, a :: as => outcome E (R a.1) a.2 :: outcomes E (access E R a) as

/-- The empty cache. -/
def empty : Resident ι τ := fun _ ↦ []

@[simp] theorem run_nil (R : Resident ι τ) : run E R [] = R := rfl

@[simp] theorem run_cons (R : Resident ι τ) (a : ι × τ) (as : List (ι × τ)) :
    run E R (a :: as) = run E (access E R a) as := rfl

@[simp] theorem outcomes_nil (R : Resident ι τ) : outcomes E R [] = [] := rfl

@[simp] theorem outcomes_cons (R : Resident ι τ) (a : ι × τ) (as : List (ι × τ)) :
    outcomes E R (a :: as) = outcome E (R a.1) a.2 :: outcomes E (access E R a) as := rfl

@[simp] theorem access_same (R : Resident ι τ) (a : ι × τ) :
    access E R a a.1 = touch E (R a.1) a.2 := Function.update_self ..

theorem access_of_ne (R : Resident ι τ) (a : ι × τ) {i : ι} (h : i ≠ a.1) :
    access E R a i = R i := Function.update_of_ne h ..

/-- What every set of a cache keeps: no tag twice, and at most `E` of them. -/
structure Within (E : ℕ) (R : Resident ι τ) : Prop where
  nodup : ∀ i, (R i).Nodup
  length_le : ∀ i, (R i).length ≤ E

omit [DecidableEq ι] [DecidableEq τ] in
theorem within_empty : Within E (empty : Resident ι τ) :=
  ⟨fun _ ↦ List.nodup_nil, fun _ ↦ Nat.zero_le _⟩

theorem Within.access {R : Resident ι τ} (hE : 0 < E) (h : Within E R) (a : ι × τ) :
    Within E (access E R a) := by
  constructor <;> intro i <;> by_cases hi : i = a.1
  · rw [hi, access_same]; exact nodup_touch hE (h.length_le _) (h.nodup _)
  · rw [access_of_ne R a hi]; exact h.nodup i
  · rw [hi, access_same]; exact length_touch_le hE (h.length_le _)
  · rw [access_of_ne R a hi]; exact h.length_le i

/-! ### Two capacities -/

/-- The first `E` places of every set. -/
def cut (E : ℕ) (R : Resident ι τ) : Resident ι τ := fun i ↦ (R i).take E

omit [DecidableEq ι] [DecidableEq τ] in
@[simp] theorem cut_empty (E : ℕ) : cut E (empty : Resident ι τ) = empty :=
  funext fun _ ↦ List.take_nil

/-- Cutting commutes with an access: the stack property, set by set. -/
theorem cut_access {E₁ E₂ : ℕ} (h₁ : 0 < E₁) (h₁₂ : E₁ ≤ E₂) {R : Resident ι τ}
    (hR : Within E₂ R) (a : ι × τ) : cut E₁ (access E₂ R a) = access E₁ (cut E₁ R) a := by
  funext i
  by_cases hi : i = a.1
  · rw [cut, hi, access_same, access_same, take_touch h₁ h₁₂ (hR.length_le _), cut]
  · rw [cut, access_of_ne R a hi, access_of_ne _ a hi, cut]

/-- **Inclusion over a run.** The smaller cache stays the cut of the larger one. -/
theorem run_cut {E₁ E₂ : ℕ} (h₁ : 0 < E₁) (h₁₂ : E₁ ≤ E₂) (as : List (ι × τ)) :
    ∀ {R : Resident ι τ}, Within E₂ R → run E₁ (cut E₁ R) as = cut E₁ (run E₂ R as) := by
  induction as with
  | nil => intro R _; rfl
  | cons a as ih =>
    intro R hR
    rw [run_cons, run_cons, ← cut_access h₁ h₁₂ hR, ih (hR.access (by omega) a)]

/-- Outcome by outcome, the larger cache hits whenever the smaller one does and evicts only when
the smaller one does. -/
theorem outcomes_cut {E₁ E₂ : ℕ} (h₁ : 0 < E₁) (h₁₂ : E₁ ≤ E₂) (as : List (ι × τ)) :
    ∀ {R : Resident ι τ}, Within E₂ R →
      List.Forall₂ (fun o₁ o₂ ↦ (o₁ = .hit → o₂ = .hit) ∧ (o₂ = .evict → o₁ = .evict))
        (outcomes E₁ (cut E₁ R) as) (outcomes E₂ R as) := by
  induction as with
  | nil => intro R _; exact .nil
  | cons a as ih =>
    intro R hR
    rw [outcomes_cons, outcomes_cons, ← cut_access h₁ h₁₂ hR]
    exact .cons ⟨outcome_hit_of_take, outcome_evict_take h₁₂⟩ (ih (hR.access (by omega) a))

/-! ### Counting outcomes -/

/-- Accesses that hit. -/
def hits (os : List Outcome) : ℕ := os.count .hit

/-- Accesses that miss, whether or not they evict. -/
def misses (os : List Outcome) : ℕ := os.count .fill + os.count .evict

/-- Misses that evict. -/
def evictions (os : List Outcome) : ℕ := os.count .evict

theorem hits_add_misses (os : List Outcome) : hits os + misses os = os.length := by
  induction os with
  | nil => rfl
  | cons o os ih =>
    rw [hits, misses] at *
    cases o <;> simp <;> omega

@[simp] theorem length_outcomes (as : List (ι × τ)) :
    ∀ R : Resident ι τ, (outcomes E R as).length = as.length := by
  induction as with
  | nil => intro R; rfl
  | cons a as ih => intro R; rw [outcomes_cons, List.length_cons, ih, List.length_cons]

/-- Pointwise better outcomes give better counts. -/
theorem counts_le_of_forall₂ {os₁ os₂ : List Outcome}
    (h : List.Forall₂ (fun o₁ o₂ ↦ (o₁ = .hit → o₂ = .hit) ∧ (o₂ = .evict → o₁ = .evict)) os₁ os₂) :
    hits os₁ ≤ hits os₂ ∧ misses os₂ ≤ misses os₁ ∧ evictions os₂ ≤ evictions os₁ := by
  induction h with
  | nil => exact ⟨le_rfl, le_rfl, le_rfl⟩
  | @cons o₁ o₂ os₁ os₂ ho _ ih =>
    simp only [hits, misses, evictions, List.count_cons] at ih ⊢
    obtain ⟨hhit, hevict⟩ := ho
    cases o₁ <;> cases o₂ <;> simp at hhit hevict ⊢ <;> omega

/-! ### Renaming tags set by set -/

/-- Rename the resident tags of every set. -/
def rename {υ : Type*} (f : ι → τ → υ) (R : Resident ι τ) : Resident ι υ := fun i ↦ (R i).map (f i)

/-- **Renaming over a run.** Outcomes do not change under a renaming that is injective, set by set,
on a stock `S` of tags that holds every resident and every accessed tag. -/
theorem outcomes_rename {υ : Type*} [DecidableEq υ] {f : ι → τ → υ} {S : Set (ι × τ)}
    (hf : ∀ i, Set.InjOn (f i) {t | (i, t) ∈ S}) (as : List (ι × τ)) :
    ∀ {R : Resident ι τ}, (∀ i, ∀ t ∈ R i, (i, t) ∈ S) → (∀ a ∈ as, a ∈ S) →
      outcomes E (rename f R) (as.map fun a ↦ (a.1, f a.1 a.2)) = outcomes E R as := by
  induction as with
  | nil => intro R _ _; rfl
  | cons a as ih =>
    intro R hR has
    have ha : a ∈ S := has a List.mem_cons_self
    have hinj : Set.InjOn (f a.1) {u | u = a.2 ∨ u ∈ R a.1} := by
      refine (hf a.1).mono ?_
      rintro u (rfl | hu)
      · exact ha
      · exact hR _ u hu
    obtain ⟨htouch, hout⟩ := map_touch (E := E) hinj
    have hstep : access E (rename f R) (a.1, f a.1 a.2) = rename f (access E R a) := by
      funext i
      by_cases hi : i = a.1
      · subst hi
        rw [access_same (rename f R) (a.1, f a.1 a.2), rename, rename, access_same, htouch]
      · rw [access_of_ne (rename f R) (a.1, f a.1 a.2) hi, rename, rename, access_of_ne R a hi]
    rw [List.map_cons, outcomes_cons, outcomes_cons, hstep]
    refine congrArg₂ _ hout (ih ?_ fun b hb ↦ has b (List.mem_cons_of_mem _ hb))
    intro i t ht
    by_cases hi : i = a.1
    · subst hi
      rw [access_same] at ht
      rcases mem_of_mem_touch ht with rfl | ht
      · exact ha
      · exact hR _ t ht
    · rw [access_of_ne R a hi] at ht
      exact hR i t ht

/-- **Only the coincidences of places matter.** Two ways to place the same accesses that use the
same sets, and that separate the same pairs of accesses, have the same outcomes. -/
theorem outcomes_congr {α υ : Type*} [DecidableEq υ] {p : α → ι × τ} {q : α → ι × υ} (as : List α)
    (hset : ∀ a ∈ as, (p a).1 = (q a).1) (hsep : ∀ a ∈ as, ∀ b ∈ as, p a = p b ↔ q a = q b) :
    outcomes E empty (as.map p) = outcomes E empty (as.map q) := by
  classical
  rcases as.eq_nil_or_concat with rfl | ⟨-, a₀, -⟩
  · rfl
  -- a tag of the first placement is renamed through any access that has it
  let f : ι → τ → υ := fun i t ↦
    if h : ∃ a ∈ as, p a = (i, t) then (q h.choose).2 else (q a₀).2
  have hf : ∀ a ∈ as, q a = ((p a).1, f (p a).1 (p a).2) := by
    intro a ha
    have hex : ∃ b ∈ as, p b = ((p a).1, (p a).2) := ⟨a, ha, rfl⟩
    have hchoose : q hex.choose = q a :=
      (hsep _ hex.choose_spec.1 a ha).1 hex.choose_spec.2
    have hval : f (p a).1 (p a).2 = (q a).2 := by
      simp only [f, dif_pos hex, hchoose]
    rw [hval, hset a ha]
  have hmap : as.map q = (as.map p).map fun x ↦ (x.1, f x.1 x.2) := by
    rw [List.map_map]
    exact List.map_congr_left hf
  have hinj : ∀ i, Set.InjOn (f i) {t | (i, t) ∈ {x | ∃ a ∈ as, p a = x}} := by
    rintro i t ⟨a, ha, hpa⟩ t' ⟨b, hb, hpb⟩ heq
    have hq : q a = q b := by rw [hf a ha, hf b hb, hpa, hpb, heq]
    have hp := (hsep a ha b hb).2 hq
    rw [hpa, hpb] at hp
    exact (Prod.mk.inj hp).2
  rw [hmap]
  exact (outcomes_rename (R := empty) hinj _ (fun i t ht ↦ absurd ht List.not_mem_nil)
    fun x hx ↦ by simpa using hx).symm

end Cache

end Recency
