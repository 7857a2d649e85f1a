import CsappCode.CacheLab.Refinement

/-!
# What one access does

`process` ages the lines of one set and turns one of them into the line of the accessed tag. This
module says so once and for all, for any array of lines and without a bound on the number of
accesses.

* `accessLines_cases` takes one access to a set apart: every line ages, and one of them becomes the
  line of the accessed tag with age zero, whichever way the access ends.
* `process_eq_some_iff` is the same for a call of `process`, which touches one set only.
* `accessLines_again` is the second of two accesses with one tag.
* `Shaped` caches have the dimensions that `init_cache` gives them. On them `process` is defined
  (`exists_process`), and runs keep them (`exists_processAll`).

## What this rests on

**Nothing is idealized.** Ages and counters may wrap, and so the victim of an eviction need not be
the line used least recently. What is said of it here is only that it was valid and is replaced.
Where the order of the ages matters, the module on refinement has a bound on the length of the run.

**Used by.** The conservation of the counts and the independence of the sets are read off
`accessLines_cases` and `process_eq_some_iff`. No proof in those modules unfolds `process`, so that
another policy for the victim would be a change to this module and the ones on recency.
-/

namespace CsappCode.CacheLab

open Recency (Outcome)

/-! ### One set -/

/-- A line after the first loop of `process`. -/
def CacheLine.aged (line : CacheLine) : CacheLine :=
  if line.validBit then { line with times := line.times + 1 } else line

@[simp] theorem CacheLine.aged_validBit (line : CacheLine) :
    line.aged.validBit = line.validBit := by
  rw [aged]
  split_ifs <;> rfl

@[simp] theorem CacheLine.aged_tagBit (line : CacheLine) : line.aged.tagBit = line.tagBit := by
  rw [aged]
  split_ifs <;> rfl

theorem ageLines_eq_map (set : CacheSet) : ageLines set = set.map CacheLine.aged := rfl

/-- The line just touched. -/
def touchedLine (tagBits : BitVec 32) : CacheLine := ⟨true, tagBits, 0⟩

/-- An array cut at one of its elements. -/
theorem exists_split_of_lt {α : Type*} {l : List α} {i : ℕ} (hi : i < l.length) :
    ∃ l₁ l₂, l = l₁ ++ l[i] :: l₂ ∧ l₁.length = i := by
  refine ⟨l.take i, l.drop (i + 1), ?_, List.length_take_of_le hi.le⟩
  rw [← List.drop_eq_getElem_cons hi, List.take_append_drop]

/-- Changing one line of the aged set. -/
theorem modify_ageLines {set : CacheSet} {i : ℕ} (hi : i < set.length)
    (f : CacheLine → CacheLine) :
    ∃ l₁ line l₂, set = l₁ ++ line :: l₂ ∧ line = set[i] ∧
      (ageLines set).modify i f = ageLines l₁ ++ f line.aged :: ageLines l₂ := by
  obtain ⟨l₁, l₂, hset, hlen⟩ := exists_split_of_lt hi
  refine ⟨l₁, set[i], l₂, hset, rfl, ?_⟩
  have haged : ageLines set = ageLines l₁ ++ set[i].aged :: ageLines l₂ := by
    rw [ageLines_eq_map, ageLines_eq_map, ageLines_eq_map, ← List.map_cons, ← List.map_append,
      ← hset]
  have hmodify := modify_length_append f (ageLines l₁) (ageLines l₂) set[i].aged
  rwa [← haged, ageLines_eq_map l₁, List.length_map, hlen] at hmodify

/-- The loop for the oldest line ends at a line of the array, or where it started. -/
theorem maxLoop_lt (lines : CacheSet) : ∀ (i maxIndex : ℕ) (maxTime : BitVec 32),
    maxIndex < i + lines.length → maxLoop lines i maxIndex maxTime < i + lines.length := by
  induction lines with
  | nil => exact fun _ _ _ h ↦ h
  | cons line lines ih =>
    intro i maxIndex maxTime h
    rw [List.length_cons, ← Nat.add_assoc, Nat.add_right_comm] at h ⊢
    rw [maxLoop]
    split_ifs
    · exact ih (i + 1) i _ (by omega)
    · exact ih (i + 1) maxIndex _ h

theorem victim_cons (line : CacheLine) (lines : CacheSet) :
    ∃ i, victim (line :: lines) = some i ∧ i < (line :: lines).length := by
  refine ⟨_, rfl, ?_⟩
  have h := maxLoop_lt (line :: lines) 0 0 line.times (by simp)
  rwa [Nat.zero_add] at h

/-- **What one access does to a set.** All lines age, and one becomes the touched line: one of its
tag on a hit, an invalid one when the set is filled, and any one of a set without invalid lines
otherwise. -/
theorem accessLines_cases {set set' : CacheSet} {tagBits : BitVec 32} {o : Outcome}
    (h : accessLines set tagBits = some (set', o)) :
    ∃ l₁ line l₂, set = l₁ ++ line :: l₂ ∧
      set' = ageLines l₁ ++ touchedLine tagBits :: ageLines l₂ ∧
      ((o = .hit ∧ line.validBit = true ∧ line.tagBit = tagBits) ∨
        (o = .fill ∧ line.validBit = false) ∨ (o = .evict ∧ ∀ l ∈ set, l.validBit = true)) := by
  rw [accessLines] at h
  rcases hhit : (ageLines set).findIdx? fun line ↦ line.validBit && line.tagBit == tagBits
    with - | i
  · rw [hhit] at h
    dsimp only at h
    rcases hempty : (ageLines set).findIdx? fun line ↦ !line.validBit with - | i
    · rw [hempty] at h
      dsimp only at h
      -- every line is valid
      have hvalid : ∀ l ∈ set, l.validBit = true := by
        intro l hl
        have hl' := List.findIdx?_eq_none_iff.1 hempty l.aged (List.mem_map_of_mem hl)
        simpa using hl'
      rcases set with - | ⟨first, lines⟩
      · exact absurd h (by simp [ageLines, victim])
      obtain ⟨i, hi, hlt⟩ := victim_cons first.aged (ageLines lines)
      have hlt' : i < (first :: lines).length := by simpa [ageLines] using hlt
      obtain ⟨l₁, line, l₂, hset, hline, hmodify⟩ := modify_ageLines hlt'
        fun line ↦ { line with tagBit := tagBits, times := 0 }
      have hi' : victim (ageLines (first :: lines)) = some i := hi
      rw [hi', Option.bind_eq_bind, Option.bind_some] at h
      obtain ⟨rfl, rfl⟩ := Prod.mk.inj (Option.some.inj h)
      have hmem : line ∈ first :: lines := by rw [hset]; simp
      refine ⟨l₁, line, l₂, hset, ?_, .inr (.inr ⟨rfl, hvalid⟩)⟩
      rw [hmodify, line.aged_validBit, hvalid line hmem]
      rfl
    · rw [hempty] at h
      obtain ⟨rfl, rfl⟩ := Prod.mk.inj (Option.some.inj h)
      obtain ⟨hi, hp, -⟩ := List.findIdx?_eq_some_iff_getElem.1 hempty
      have hi' : i < set.length := by simpa [ageLines] using hi
      obtain ⟨l₁, line, l₂, hset, hline, hmodify⟩ := modify_ageLines hi'
        fun line ↦ { line with tagBit := tagBits, validBit := true, times := 0 }
      refine ⟨l₁, line, l₂, hset, hmodify, .inr (.inl ⟨rfl, ?_⟩)⟩
      rw [hline]
      simpa [ageLines_eq_map] using hp
  · rw [hhit] at h
    obtain ⟨rfl, rfl⟩ := Prod.mk.inj (Option.some.inj h)
    obtain ⟨hi, hp, -⟩ := List.findIdx?_eq_some_iff_getElem.1 hhit
    have hi' : i < set.length := by simpa [ageLines] using hi
    obtain ⟨l₁, line, l₂, hset, hline, hmodify⟩ := modify_ageLines hi'
      fun line ↦ { line with times := 0 }
    have hline' : line.validBit = true ∧ line.tagBit = tagBits := by
      rw [hline]
      simpa [ageLines_eq_map] using hp
    refine ⟨l₁, line, l₂, hset, ?_, .inl ⟨rfl, hline'⟩⟩
    rw [hmodify, line.aged_validBit, line.aged_tagBit, hline'.1, hline'.2]
    rfl

/-- An access to a set that has a line is defined. -/
theorem exists_accessLines {set : CacheSet} (hset : set ≠ []) (tagBits : BitVec 32) :
    ∃ set' o, accessLines set tagBits = some (set', o) := by
  obtain ⟨line, lines, rfl⟩ := List.exists_cons_of_ne_nil hset
  obtain ⟨i, hi, -⟩ := victim_cons line.aged (ageLines lines)
  have hi' : victim (ageLines (line :: lines)) = some i := hi
  rw [accessLines]
  split
  · exact ⟨_, _, rfl⟩
  · split
    · exact ⟨_, _, rfl⟩
    · rw [hi']
      exact ⟨_, _, rfl⟩

/-- A set with a valid line of the tag is hit. -/
theorem accessLines_eq_hit {set : CacheSet} {tagBits : BitVec 32} {line : CacheLine}
    (hline : line ∈ set) (hvalid : line.validBit = true) (htag : line.tagBit = tagBits) :
    ∃ set', accessLines set tagBits = some (set', .hit) := by
  rcases hfind : (ageLines set).findIdx? fun line ↦ line.validBit && line.tagBit == tagBits
    with - | i
  · have hnone := List.findIdx?_eq_none_iff.1 hfind line.aged (List.mem_map_of_mem hline)
    exact absurd hnone (by simp [hvalid, htag])
  · rw [accessLines, hfind]
    exact ⟨_, rfl⟩

/-- **The same tag again is a hit.** -/
theorem accessLines_again {set set' : CacheSet} {tagBits : BitVec 32} {o : Outcome}
    (h : accessLines set tagBits = some (set', o)) :
    ∃ set'', accessLines set' tagBits = some (set'', .hit) := by
  obtain ⟨l₁, line, l₂, -, rfl, -⟩ := accessLines_cases h
  exact @accessLines_eq_hit _ _ (touchedLine tagBits) (by simp) rfl rfl

/-! ### The whole cache -/

/-- **What one call does.** The set of the address is accessed and put back, and the counters count
the outcome. -/
theorem process_eq_some_iff {args : Arguments} {st st' : Simulator} {address : BitVec 32}
    {o : Outcome} : process args st address = some (st', o) ↔
      ∃ setIndex tagBits set set', decompose args address = some (setIndex, tagBits) ∧
        st.cache[setIndex.toNat]? = some set ∧ accessLines set tagBits = some (set', o) ∧
        st' = ({ st with cache := st.cache.set setIndex.toNat set' } : Simulator).count o := by
  rw [process]
  simp only [Option.bind_eq_bind, Option.bind_eq_some_iff, Prod.exists]
  constructor
  · rintro ⟨setIndex, tagBits, hdec, set, hget, set', o', hacc, h⟩
    obtain ⟨rfl, rfl⟩ := Prod.mk.inj (Option.some.inj h)
    exact ⟨setIndex, tagBits, set, set', hdec, hget, hacc, rfl⟩
  · rintro ⟨setIndex, tagBits, set, set', hdec, hget, hacc, rfl⟩
    exact ⟨setIndex, tagBits, hdec, set, hget, set', o, hacc, rfl⟩

/-- A run is a call and the rest of the run. -/
theorem processAll_cons_eq_some_iff {args : Arguments} {st st' : Simulator} {address : BitVec 32}
    {addresses : List (BitVec 32)} {os : List Outcome} :
    processAll args st (address :: addresses) = some (st', os) ↔
      ∃ st₁ o os', process args st address = some (st₁, o) ∧
        processAll args st₁ addresses = some (st', os') ∧ os = o :: os' := by
  rw [processAll]
  simp only [Option.bind_eq_bind, Option.bind_eq_some_iff, Prod.exists]
  constructor
  · rintro ⟨st₁, o, hproc, st₂, os', hall, h⟩
    obtain ⟨rfl, rfl⟩ := Prod.mk.inj (Option.some.inj h)
    exact ⟨st₁, o, os', hproc, hall, rfl⟩
  · rintro ⟨st₁, o, os', hproc, hall, rfl⟩
    exact ⟨st₁, o, hproc, st', os', hall, rfl⟩

/-- A cache with the dimensions that `init_cache` gives it. -/
structure Shaped (args : Arguments) (cache : Cache) : Prop where
  length_eq : cache.length = 2 ^ args.s
  sets : ∀ set ∈ cache, set.length = args.E

theorem shaped_initCache (args : Arguments) : Shaped args (initCache args) where
  length_eq := List.length_replicate
  sets set hset := by rw [List.eq_of_mem_replicate hset, List.length_replicate]

/-- An access keeps the number of lines. -/
theorem length_accessLines {set set' : CacheSet} {tagBits : BitVec 32} {o : Outcome}
    (h : accessLines set tagBits = some (set', o)) : set'.length = set.length := by
  obtain ⟨l₁, line, l₂, rfl, rfl, -⟩ := accessLines_cases h
  simp [ageLines]

theorem Shaped.set {args : Arguments} {cache : Cache} (h : Shaped args cache) (i : ℕ)
    {set : CacheSet} (hset : set.length = args.E) : Shaped args (cache.set i set) where
  length_eq := by rw [List.length_set, h.length_eq]
  sets set' hset' := by
    rcases List.mem_or_eq_of_mem_set hset' with hmem | rfl
    · exact h.sets set' hmem
    · exact hset

/-- One call keeps the dimensions. -/
theorem Shaped.process {args : Arguments} {st st' : Simulator} {address : BitVec 32} {o : Outcome}
    (h : Shaped args st.cache) (hproc : process args st address = some (st', o)) :
    Shaped args st'.cache := by
  obtain ⟨setIndex, tagBits, set, set', -, hget, hacc, rfl⟩ := process_eq_some_iff.1 hproc
  rw [cache_count]
  refine h.set _ ?_
  rw [length_accessLines hacc, h.sets set (List.mem_of_getElem? hget)]

/-- **On a geometry `process` is defined**, after however many accesses. -/
theorem exists_process {G : Geometry} {st : Simulator} (h : Shaped G.toArguments st.cache)
    (address : BitVec 32) : ∃ st' o, CacheLab.process G.toArguments st address = some (st', o) := by
  obtain ⟨setIndex, tagBits, hdec, hplace, -⟩ := decompose_eq G address
  have hlt : setIndex.toNat < st.cache.length := by
    rw [h.length_eq]
    exact place_fst_lt G _ hplace
  have hget := List.getElem?_eq_getElem hlt
  have hne : st.cache[setIndex.toNat] ≠ [] := by
    have hlen := h.sets _ (List.getElem_mem hlt)
    have hE := G.one_le_E
    exact List.ne_nil_of_length_pos (by omega)
  obtain ⟨set', o, hacc⟩ := exists_accessLines hne tagBits
  exact ⟨_, o, process_eq_some_iff.2 ⟨setIndex, tagBits, _, set', hdec, hget, hacc, rfl⟩⟩

/-- **Runs on a geometry are defined**, and keep the dimensions. -/
theorem exists_processAll {G : Geometry} (addresses : List (BitVec 32)) :
    ∀ {st : Simulator}, Shaped G.toArguments st.cache →
      ∃ st' os, processAll G.toArguments st addresses = some (st', os) ∧
        Shaped G.toArguments st'.cache := by
  induction addresses with
  | nil => exact fun h ↦ ⟨_, [], rfl, h⟩
  | cons address addresses ih =>
    intro st h
    obtain ⟨st₁, o, hproc⟩ := exists_process h address
    obtain ⟨st₂, os, hall, h₂⟩ := ih (h.process hproc)
    exact ⟨st₂, o :: os, processAll_cons_eq_some_iff.2 ⟨st₁, o, os, hproc, hall, rfl⟩, h₂⟩

/-- Every run keeps the dimensions. -/
theorem Shaped.processAll {args : Arguments} (addresses : List (BitVec 32)) :
    ∀ {st st' : Simulator} {os : List Outcome}, Shaped args st.cache →
      CacheLab.processAll args st addresses = some (st', os) → Shaped args st'.cache := by
  induction addresses with
  | nil =>
    intro st st' os h hall
    obtain ⟨rfl, -⟩ := Prod.mk.inj (Option.some.inj hall)
    exact h
  | cons address addresses ih =>
    intro st st' os h hall
    obtain ⟨st₁, o, os', hproc, hall', rfl⟩ := processAll_cons_eq_some_iff.1 hall
    exact ih (h.process hproc) hall'

end CsappCode.CacheLab
