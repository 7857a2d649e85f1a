import CsappCode.CacheLab.Independence

/-!
# What every reachable set looks like

`SetInvariant` is the invariant of one array of lines, in terms of the lines alone: the valid lines
stand in front of the others, their tags differ, their ages differ, and none has a negative age.
Nothing in `process` enforces that the ages of the valid lines differ: it follows from the recency
order that the ages carry.

* `Represents.setInvariant` reads the invariant off the representation of one set.
* `set_invariant` says that all sets keep it over a run, and that the line which the last access to
  a set touched is the only valid line of age zero.
* `untouched_line_of_age_zero` is why only valid lines are spoken of: an invalid line keeps the age
  zero of `init_cache`, so the touched line need not be the only line of that age.

## What the results rest on

**The simulation.** `Represents` already has the lines in array order and in the order of their
ages. So the invariant is not proved by an induction of its own but taken from `processAll_spec`,
and the last access from `accessLines_spec`.

**Assumed** are a geometry for which the shifts are defined and fewer than `2 ^ 31` accesses, so
that no age wraps. With more, two valid lines can come to have one age, and an age can be negative.
-/

namespace CsappCode.CacheLab

open Recency (Outcome)

/-- The invariant of the lines of a set. -/
structure SetInvariant (set : CacheSet) : Prop where
  /-- The valid lines come first. -/
  valid_first : set.Pairwise fun x y ↦ y.validBit = true → x.validBit = true
  tags_differ : set.Pairwise fun x y ↦ x.validBit = true → y.validBit = true → x.tagBit ≠ y.tagBit
  ages_differ : set.Pairwise fun x y ↦ x.validBit = true → y.validBit = true → x.times ≠ y.times
  age_nonneg : ∀ line ∈ set, line.validBit = true → 0 ≤ line.times.toInt
  /-- An invalid line is as `init_cache` left it. -/
  invalid_initial : ∀ line ∈ set, line.validBit = false → line = emptyLine

section Represented

variable {E n : ℕ} {set : CacheSet} {V P : List Aged}

/-- A relation that holds between the aged tags, and before every empty line, holds along the
array. -/
theorem Represents.pairwise (h : Represents E n set V P) {R : CacheLine → CacheLine → Prop}
    (hV : V.Pairwise fun p q ↦ R p.line q.line) (hempty : ∀ line, R line emptyLine) :
    set.Pairwise R := by
  rw [h.set_eq]
  refine List.pairwise_append.2 ⟨List.pairwise_map.2 hV, ?_, fun x _ y hy ↦ ?_⟩
  · exact List.pairwise_replicate.2 (.inr (hempty emptyLine))
  · rw [List.eq_of_mem_replicate hy]
    exact hempty x

theorem Represents.mem_cases (h : Represents E n set V P) {line : CacheLine} (hline : line ∈ set) :
    (∃ p ∈ P, p.line = line) ∨ line = emptyLine := by
  rw [h.set_eq] at hline
  rcases List.mem_append.1 hline with hmem | hmem
  · obtain ⟨p, hp, rfl⟩ := List.mem_map.1 hmem
    exact .inl ⟨p, h.perm.mem_iff.1 hp, rfl⟩
  · exact .inr (List.eq_of_mem_replicate hmem)

/-- Ages that differ are stored as different numbers. -/
theorem Represents.times_ne (h : Represents E n set V P) (hn : n < 2 ^ 31) {p q : Aged}
    (hp : p ∈ P) (hq : q ∈ P) (hpq : p.2 ≠ q.2) : p.line.times ≠ q.line.times := by
  refine fun heq ↦ hpq ?_
  have hage := congrArg BitVec.toInt heq
  have hplt := lt_of_le_of_lt (h.age_le p hp) hn
  have hqlt := lt_of_le_of_lt (h.age_le q hq) hn
  rw [Aged.line, Aged.line, toInt_ofNat_of_lt hplt, toInt_ofNat_of_lt hqlt] at hage
  exact_mod_cast hage

/-- **The recency order makes the lines keep the invariant.** -/
theorem Represents.setInvariant (h : Represents E n set V P) (hn : n < 2 ^ 31) :
    SetInvariant set where
  valid_first := h.pairwise (List.pairwise_of_forall fun _ _ _ ↦ rfl)
    fun _ hvalid ↦ Bool.noConfusion hvalid
  tags_differ := by
    have htags : (V.map Prod.fst).Nodup := (h.perm.map _).nodup_iff.2 h.nodup
    exact h.pairwise ((List.pairwise_map.1 htags).imp fun hpq _ _ ↦ hpq)
      fun _ _ hvalid ↦ Bool.noConfusion hvalid
  ages_differ := by
    -- The order of age says that the ages differ. Of this the order of the array is a permutation.
    have hages : V.Pairwise fun p q ↦ p.2 ≠ q.2 :=
      (h.perm.pairwise_iff fun hpq ↦ Ne.symm hpq).2 (h.sorted.imp fun hpq ↦ Nat.ne_of_lt hpq)
    refine h.pairwise (hages.imp_of_mem fun hp hq hpq _ _ ↦ ?_)
      fun _ _ hvalid ↦ Bool.noConfusion hvalid
    exact h.times_ne hn (h.perm.mem_iff.1 hp) (h.perm.mem_iff.1 hq) hpq
  age_nonneg line hline _ := by
    rcases h.mem_cases hline with ⟨p, hp, rfl⟩ | rfl
    · rw [Aged.line, toInt_ofNat_of_lt (lt_of_le_of_lt (h.age_le p hp) hn)]
      exact Int.natCast_nonneg _
    · exact Int.le_refl 0
  invalid_initial line hline hvalid := by
    rcases h.mem_cases hline with ⟨p, -, rfl⟩ | rfl
    · exact Bool.noConfusion hvalid
    · rfl

end Represented

/-- Two valid lines of one age are one line. -/
theorem SetInvariant.eq_of_times_eq {set : CacheSet} (h : SetInvariant set) {j k : ℕ}
    {x y : CacheLine} (hj : set[j]? = some x) (hk : set[k]? = some y) (hx : x.validBit = true)
    (hy : y.validBit = true) (hage : x.times = y.times) : j = k := by
  obtain ⟨hjlt, rfl⟩ := List.getElem?_eq_some_iff.1 hj
  obtain ⟨hklt, rfl⟩ := List.getElem?_eq_some_iff.1 hk
  have hages := List.pairwise_iff_getElem.1 h.ages_differ
  rcases Nat.lt_trichotomy j k with hlt | heq | hlt
  · exact absurd hage (hages j k hjlt hklt hlt hx hy)
  · exact heq
  · exact absurd hage.symm (hages k j hklt hjlt hlt hy hx)

/-! ### The last access to a set -/

/-- `after` is what an access that touched line `j` made of `before`: all valid lines are one
older, and line `j` holds the tag with age zero. -/
def TouchedAt (before after : CacheSet) (tagBits : BitVec 32) (j : ℕ) : Prop :=
  j < before.length ∧ after = (ageLines before).set j (touchedLine tagBits)

/-- Every access touches one line. -/
theorem exists_touchedAt {before after : CacheSet} {tagBits : BitVec 32} {o : Outcome}
    (h : accessLines before tagBits = some (after, o)) : ∃ j, TouchedAt before after tagBits j := by
  obtain ⟨l₁, line, l₂, rfl, rfl, -⟩ := accessLines_cases h
  have hlen : (ageLines l₁).length = l₁.length := List.length_map _
  refine ⟨l₁.length, by rw [List.length_append, List.length_cons]; omega, ?_⟩
  rw [ageLines_eq_map (l₁ ++ line :: l₂), List.map_append, List.map_cons, ← hlen,
    ageLines_eq_map l₁, List.set_append_right _ _ le_rfl, Nat.sub_self, List.set_cons_zero]
  rfl

theorem TouchedAt.getElem? {before after : CacheSet} {tagBits : BitVec 32} {j : ℕ}
    (h : TouchedAt before after tagBits j) : after[j]? = some (touchedLine tagBits) := by
  rw [h.2, List.getElem?_set_self]
  rw [ageLines, List.length_map]
  exact h.1

/-- A call on another set leaves a set alone. -/
theorem getElem?_process {args : Arguments} {st st' : Simulator} {address setIndex : BitVec 32}
    {o : Outcome} (h : process args st address = some (st', o))
    (hne : setOf? args address ≠ some setIndex) :
    st'.cache[setIndex.toNat]? = st.cache[setIndex.toNat]? := by
  obtain ⟨i, tagBits, set, set', hdec, -, -, rfl⟩ := process_eq_some_iff.1 h
  rw [cache_count, List.getElem?_set_ne]
  refine fun heq ↦ hne ?_
  rw [setOf?, hdec, Option.map_some]
  exact congrArg some (BitVec.toNat_inj.1 heq)

/-- So does a run on other sets. -/
theorem getElem?_processAll {args : Arguments} {setIndex : BitVec 32}
    {addresses : List (BitVec 32)} :
    ∀ {st st' : Simulator} {os : List Outcome}, processAll args st addresses = some (st', os) →
      (∀ a ∈ addresses, setOf? args a ≠ some setIndex) →
      st'.cache[setIndex.toNat]? = st.cache[setIndex.toNat]? := by
  induction addresses with
  | nil =>
    intro st st' os h _
    obtain ⟨rfl, -⟩ := Prod.mk.inj (Option.some.inj h)
    rfl
  | cons address addresses ih =>
    intro st st' os h hne
    obtain ⟨st₁, o, os', hproc, hall, -⟩ := processAll_cons_eq_some_iff.1 h
    rw [ih hall fun a ha ↦ hne a (List.mem_cons_of_mem _ ha),
      getElem?_process hproc (hne address List.mem_cons_self)]

/-- A run stops between any two calls. -/
theorem exists_processAll_prefix {args : Arguments} {xs ys : List (BitVec 32)} :
    ∀ {st st' : Simulator} {os : List Outcome}, processAll args st (xs ++ ys) = some (st', os) →
      ∃ st₁ os₁ os₂, processAll args st xs = some (st₁, os₁) ∧
        processAll args st₁ ys = some (st', os₂) := by
  induction xs with
  | nil => exact fun h ↦ ⟨_, [], _, rfl, h⟩
  | cons x xs ih =>
    intro st st' os h
    obtain ⟨st₁, o, os', hproc, hall, -⟩ := processAll_cons_eq_some_iff.1 h
    obtain ⟨st₂, os₁, os₂, hxs, hys⟩ := ih hall
    exact ⟨st₂, o :: os₁, os₂, processAll_cons_eq_some_iff.2 ⟨st₁, o, os₁, hproc, hxs, rfl⟩, hys⟩

/-- **The invariant of the sets.** A run of fewer than `2 ^ 31` accesses leaves sets that keep
`SetInvariant`. In a set that the run accessed, the line that the last access touched is the only
valid line of age zero. -/
theorem set_invariant (G : Geometry) (addresses : List (BitVec 32))
    (hlen : addresses.length < 2 ^ 31) :
    ∃ st os, processAll G.toArguments (start G.toArguments) addresses = some (st, os) ∧
      ∀ i < 2 ^ G.s, ∃ set, st.cache[i]? = some set ∧ SetInvariant set ∧
        ∀ pre address post setIndex tagBits, addresses = pre ++ address :: post →
          decompose G.toArguments address = some (setIndex, tagBits) → setIndex.toNat = i →
          (∀ a ∈ post, setOf? G.toArguments a ≠ some setIndex) →
          ∃ st₀ os₀ before j,
            processAll G.toArguments (start G.toArguments) pre = some (st₀, os₀) ∧
            st₀.cache[i]? = some before ∧ TouchedAt before set tagBits j ∧
            ∀ k line, set[k]? = some line → line.validBit = true → (line.times = 0 ↔ k = j) := by
  obtain ⟨st, hrun, hsim⟩ := processAll_spec addresses (simulates_start G) (by omega)
  refine ⟨st, _, hrun, fun i hi ↦ ?_⟩
  obtain ⟨set, V, P, hget, hrep, -⟩ := hsim.sets i hi
  have hinv := hrep.setInvariant (by omega)
  refine ⟨set, hget, hinv, ?_⟩
  intro pre address post setIndex tagBits haddresses hdec hindex hpost
  subst haddresses hindex
  obtain ⟨st₀, os₀, os₁, hpre, hrest⟩ := exists_processAll_prefix hrun
  obtain ⟨st₁, o, os₂, hproc, hall, -⟩ := processAll_cons_eq_some_iff.1 hrest
  obtain ⟨setIndex', tagBits', before, after, hdec', hbefore, hacc, rfl⟩ :=
    process_eq_some_iff.1 hproc
  obtain ⟨rfl, rfl⟩ := Prod.mk.inj (Option.some.inj (hdec'.symm.trans hdec))
  -- The later accesses leave the set as the last one to it made it.
  have hafter : set = after := by
    rw [getElem?_processAll hall hpost, cache_count, List.getElem?_set_self] at hget
    · exact (Option.some.inj hget).symm
    · exact (List.getElem?_eq_some_iff.1 hbefore).1
  obtain ⟨j, hj⟩ := exists_touchedAt hacc
  rw [← hafter] at hj
  refine ⟨st₀, os₀, before, j, hpre, hbefore, hj, fun k line hk hvalid ↦ ⟨fun hzero ↦ ?_, ?_⟩⟩
  · exact hinv.eq_of_times_eq hk hj.getElem? hvalid rfl hzero
  · intro hkj
    rw [hkj, hj.getElem?] at hk
    rw [← Option.some.inj hk]
    rfl

/-- Three accesses to one set of two lines. -/
theorem set_invariant_twoWay :
    ∃ st os, processAll twoWay.toArguments (start twoWay.toArguments)
        [0x10#32, 0x110#32, 0x10#32] = some (st, os) ∧
      ∀ i < 2 ^ twoWay.s, ∃ set, st.cache[i]? = some set ∧ SetInvariant set ∧
        ∀ pre address post setIndex tagBits,
          [0x10#32, 0x110#32, 0x10#32] = pre ++ address :: post →
          decompose twoWay.toArguments address = some (setIndex, tagBits) → setIndex.toNat = i →
          (∀ a ∈ post, setOf? twoWay.toArguments a ≠ some setIndex) →
          ∃ st₀ os₀ before j,
            processAll twoWay.toArguments (start twoWay.toArguments) pre = some (st₀, os₀) ∧
            st₀.cache[i]? = some before ∧ TouchedAt before set tagBits j ∧
            ∀ k line, set[k]? = some line → line.validBit = true → (line.times = 0 ↔ k = j) :=
  set_invariant twoWay [0x10#32, 0x110#32, 0x10#32] (by decide)

/-- After the first access to a set of two lines, the other line has age zero too. -/
theorem untouched_line_of_age_zero :
    ∃ st os before set, processAll twoWay.toArguments (start twoWay.toArguments) [0x10#32] =
        some (st, os) ∧
      (start twoWay.toArguments).cache[1]? = some before ∧ st.cache[1]? = some set ∧
      TouchedAt before set 0 0 ∧ ∃ line, set[1]? = some line ∧ line.times = 0 :=
  ⟨_, _, _, _, rfl, rfl, rfl, ⟨by decide, rfl⟩, emptyLine, rfl, rfl⟩

end CsappCode.CacheLab
