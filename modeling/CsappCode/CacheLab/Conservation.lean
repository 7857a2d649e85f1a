import CsappCode.CacheLab.Access
import CsappCode.CacheLab.Traces

/-!
# Conservation of the counts

The three counters are tied to the population of the cache. Of the three ways in which an access can
end only a fill makes an invalid line valid, and no line ever becomes invalid, so the valid lines
are the misses that did not evict.

* `valid_accessLines` says what an access does to the valid bits of a set, `validLines_processAll`
  what a run does to the number of valid lines.
* `length_accesses` counts the accesses of a trace by its letters.
* `process_again` is the second access of a modify, which always hits, and `counts_modify` what a
  modify adds to the counters.
* `balanced_of_run` puts them together for one run, and `counts_conserved` for the loop of `main`.

## What the results rest on

**One access** is taken apart by `accessLines_cases`. Everything here is a count over it, so the
order of the ages plays no part, and neither does which line is evicted.

**Wrapping.** The counters are 32-bit and the counts of the outcomes are not. `processAll_counts`
relates them modulo the width for every run, and `counts_of_start` for those in which neither the
hits nor the misses come to `2 ^ 31`. That is the only bound on a trace: it may be longer than the
counters can count, and then the balance is about the traces before that.

**Operations** are those with one of the four letters, which are all that `main` lets pass.
-/

namespace CsappCode.CacheLab

open Recency (Outcome hits misses evictions)

/-! ### Valid lines -/

/-- The valid bits of a set. -/
def validBits (set : CacheSet) : List Bool := set.map CacheLine.validBit

/-- Line `j` of set `i` is valid. -/
def ValidAt (cache : Cache) (i j : ℕ) : Prop :=
  ∃ set, cache[i]? = some set ∧ (validBits set)[j]? = some true

/-- The number of valid lines in the cache. -/
def validLines (cache : Cache) : ℕ := (cache.map validBits).flatten.count true

theorem validBits_ageLines (set : CacheSet) : validBits (ageLines set) = validBits set := by
  rw [validBits, ageLines_eq_map, List.map_map]
  exact List.map_congr_left fun line _ ↦ line.aged_validBit

/-- **What an access does to the valid bits.** One is set, and it was not before just in a fill. -/
theorem valid_accessLines {set set' : CacheSet} {tagBits : BitVec 32} {o : Outcome}
    (h : accessLines set tagBits = some (set', o)) :
    ∃ pre post b, validBits set = pre ++ b :: post ∧ validBits set' = pre ++ true :: post ∧
      ((o = .fill ∧ b = false) ∨ (o ≠ .fill ∧ b = true)) := by
  obtain ⟨l₁, line, l₂, rfl, rfl, ho⟩ := accessLines_cases h
  refine ⟨validBits l₁, validBits l₂, line.validBit, ?_, ?_, ?_⟩
  · simp [validBits]
  · have h₁ := validBits_ageLines l₁
    have h₂ := validBits_ageLines l₂
    rw [validBits] at h₁ h₂ ⊢
    rw [List.map_append, List.map_cons, h₁, h₂]
    rfl
  · rcases ho with ⟨rfl, hvalid, -⟩ | ⟨rfl, hvalid⟩ | ⟨rfl, hvalid⟩
    · exact .inr ⟨by decide, hvalid⟩
    · exact .inl ⟨rfl, hvalid⟩
    · exact .inr ⟨by decide, hvalid line (by simp)⟩

/-- A line that is valid stays valid. -/
theorem ValidAt.process {args : Arguments} {st st' : Simulator} {address : BitVec 32} {o : Outcome}
    (h : process args st address = some (st', o)) {i j : ℕ} (hvalid : ValidAt st.cache i j) :
    ValidAt st'.cache i j := by
  obtain ⟨setIndex, tagBits, set, set', -, hget, hacc, rfl⟩ := process_eq_some_iff.1 h
  obtain ⟨set₀, hget₀, hbit⟩ := hvalid
  rw [cache_count]
  rcases eq_or_ne setIndex.toNat i with rfl | hne
  · obtain rfl : set = set₀ := Option.some.inj (hget.symm.trans hget₀)
    obtain ⟨pre, post, b, hbits, hbits', -⟩ := valid_accessLines hacc
    obtain ⟨hlt, -⟩ := List.getElem?_eq_some_iff.1 hget
    refine ⟨set', List.getElem?_set_self hlt, ?_⟩
    rw [hbits] at hbit
    rw [hbits']
    rcases Nat.lt_trichotomy j pre.length with hj | rfl | hj
    · rwa [List.getElem?_append_left hj] at hbit ⊢
    · simp
    · obtain ⟨k, rfl⟩ := Nat.exists_eq_add_of_lt hj
      rw [List.getElem?_append_right (by omega),
        show pre.length + k + 1 - pre.length = k + 1 by omega, List.getElem?_cons_succ] at hbit ⊢
      exact hbit
  · exact ⟨set₀, by rw [List.getElem?_set_ne hne, hget₀], hbit⟩

theorem ValidAt.processAll {args : Arguments} (addresses : List (BitVec 32)) :
    ∀ {st st' : Simulator} {os : List Outcome},
      CacheLab.processAll args st addresses = some (st', os) →
        ∀ {i j : ℕ}, ValidAt st.cache i j → ValidAt st'.cache i j := by
  induction addresses with
  | nil =>
    intro st st' os h i j hvalid
    obtain ⟨rfl, -⟩ := Prod.mk.inj (Option.some.inj h)
    exact hvalid
  | cons address addresses ih =>
    intro st st' os h i j hvalid
    obtain ⟨st₁, o, os', hproc, hall, -⟩ := processAll_cons_eq_some_iff.1 h
    exact ih hall (hvalid.process hproc)

/-- Putting another set in place. -/
theorem validLines_set (cache : Cache) : ∀ {i : ℕ} {set : CacheSet} (set' : CacheSet),
    cache[i]? = some set → validLines (cache.set i set') + (validBits set).count true =
      validLines cache + (validBits set').count true := by
  induction cache with
  | nil => exact fun _ h ↦ absurd h (by simp)
  | cons set₀ cache ih =>
    intro i set set' h
    have hcons : ∀ (s : CacheSet) (c : Cache),
        validLines (s :: c) = (validBits s).count true + validLines c := fun s c ↦ by
      rw [validLines, List.map_cons, List.flatten_cons, List.count_append]
      rfl
    cases i with
    | zero =>
      obtain rfl : set₀ = set := Option.some.inj h
      rw [List.set_cons_zero, hcons, hcons]
      omega
    | succ i =>
      have := ih set' (show cache[i]? = some set by simpa using h)
      rw [List.set_cons_succ, hcons, hcons]
      omega

/-- **One more valid line for every fill.** -/
theorem validLines_process {args : Arguments} {st st' : Simulator} {address : BitVec 32}
    {o : Outcome} (h : process args st address = some (st', o)) :
    validLines st'.cache = validLines st.cache + [o].count .fill := by
  obtain ⟨setIndex, tagBits, set, set', -, hget, hacc, rfl⟩ := process_eq_some_iff.1 h
  obtain ⟨pre, post, b, hbits, hbits', ho⟩ := valid_accessLines hacc
  have hset := validLines_set st.cache set' hget
  rw [cache_count]
  show validLines (st.cache.set setIndex.toNat set') = _
  rw [hbits, hbits', List.count_append, List.count_append, List.count_cons, List.count_cons] at hset
  rcases ho with ⟨rfl, rfl⟩ | ⟨hne, rfl⟩
  · simp at hset ⊢
    omega
  · have hcount : [o].count .fill = 0 := List.count_eq_zero.2 (by simpa using hne.symm)
    omega

theorem validLines_processAll {args : Arguments} (addresses : List (BitVec 32)) :
    ∀ {st st' : Simulator} {os : List Outcome}, processAll args st addresses = some (st', os) →
      validLines st'.cache = validLines st.cache + os.count .fill := by
  induction addresses with
  | nil =>
    intro st st' os h
    obtain ⟨rfl, rfl⟩ := Prod.mk.inj (Option.some.inj h)
    rfl
  | cons address addresses ih =>
    intro st st' os h
    obtain ⟨st₁, o, os', hproc, hall, rfl⟩ := processAll_cons_eq_some_iff.1 h
    rw [ih hall, validLines_process hproc, Nat.add_assoc, ← List.count_append]
    rfl

theorem validLines_initCache (args : Arguments) : validLines (initCache args) = 0 := by
  refine List.count_eq_zero.2 fun hmem ↦ ?_
  simp [initCache, validBits, emptyLine] at hmem

/-- There are no more valid lines than lines. -/
theorem Shaped.validLines_le {args : Arguments} {cache : Cache} (h : Shaped args cache) :
    validLines cache ≤ 2 ^ args.s * args.E := by
  refine List.count_le_length.trans (le_of_eq ?_)
  have hlen : ∀ bits ∈ cache.map validBits, bits.length = args.E := by
    intro bits hbits
    obtain ⟨set, hset, rfl⟩ := List.mem_map.1 hbits
    rw [validBits, List.length_map, h.sets set hset]
  rw [List.length_flatten, List.map_congr_left hlen, List.map_const', List.sum_replicate_nat,
    List.length_map, h.length_eq]

/-! ### The operations of a trace -/

/-- How many operations of a trace have the letter. -/
def countOp (op : UInt8) (ops : List Operation) : ℕ := (ops.map Operation.op).count op

/-- A load and a store make one access, a modify two. -/
theorem length_accesses {ops : List Operation} (hops : ∀ o ∈ ops, o.op ∈ traceOps) :
    (accesses ops).length =
      countOp 'L'.toUInt8 ops + countOp 'S'.toUInt8 ops + 2 * countOp 'M'.toUInt8 ops := by
  induction ops with
  | nil => rfl
  | cons o ops ih =>
    have hcons : ∀ op, countOp op (o :: ops) = countOp op ops + if o.op = op then 1 else 0 :=
      fun op ↦ by rw [countOp, List.map_cons, List.count_cons]; simp [countOp]
    have hlen : o.accesses.length = (if o.op = 'L'.toUInt8 then 1 else 0) +
        (if o.op = 'S'.toUInt8 then 1 else 0) + 2 * if o.op = 'M'.toUInt8 then 1 else 0 := by
      have ho := hops o List.mem_cons_self
      simp only [traceOps, List.mem_cons, List.not_mem_nil, or_false] at ho
      rcases ho with h | h | h | h <;> rw [Operation.accesses, h] <;> rfl
    rw [accesses, List.flatMap_cons, List.length_append, hlen, ← accesses,
      ih fun o' ho' ↦ hops o' (List.mem_cons_of_mem _ ho'), hcons, hcons, hcons]
    omega

/-- **The second access of a modify is a hit.** -/
theorem process_again {args : Arguments} {st st₁ : Simulator} {address : BitVec 32} {o : Outcome}
    (h : process args st address = some (st₁, o)) :
    ∃ st₂, process args st₁ address = some (st₂, .hit) := by
  obtain ⟨setIndex, tagBits, set, set', hdec, hget, hacc, rfl⟩ := process_eq_some_iff.1 h
  obtain ⟨set'', hacc'⟩ := accessLines_again hacc
  obtain ⟨hlt, -⟩ := List.getElem?_eq_some_iff.1 hget
  refine ⟨_, process_eq_some_iff.2 ⟨setIndex, tagBits, set', set'', hdec, ?_, hacc', rfl⟩⟩
  rw [cache_count, List.getElem?_set_self hlt]

/-- What a modify adds to the counters of misses and of evictions. -/
theorem counts_modify {args : Arguments} {st st₁ st₂ : Simulator} {address : BitVec 32}
    {o : Outcome} (h : process args st address = some (st₁, o))
    (h' : process args st₁ address = some (st₂, .hit)) :
    (st₂.missCount = st.missCount ∨ st₂.missCount = st.missCount + 1) ∧
      (st₂.evictionCount = st.evictionCount ∨ st₂.evictionCount = st.evictionCount + 1) := by
  obtain ⟨_, _, _, _, -, -, -, rfl⟩ := process_eq_some_iff.1 h'
  obtain ⟨_, _, _, _, -, -, -, rfl⟩ := process_eq_some_iff.1 h
  cases o <;> simp [Simulator.count]

/-! ### The balance -/

/-- The balance of the counters after a trace. -/
structure Balanced (args : Arguments) (ops : List Operation) (st : Simulator) : Prop where
  accesses : st.hitCount.toInt + st.missCount.toInt =
    countOp 'L'.toUInt8 ops + countOp 'S'.toUInt8 ops + 2 * countOp 'M'.toUInt8 ops
  evictions : st.evictionCount.toInt = st.missCount.toInt - validLines st.cache
  fills_le : st.missCount.toInt - st.evictionCount.toInt ≤ 2 ^ args.s * args.E

theorem length_of_processAll {args : Arguments} (addresses : List (BitVec 32)) :
    ∀ {st st' : Simulator} {os : List Outcome}, processAll args st addresses = some (st', os) →
      os.length = addresses.length := by
  induction addresses with
  | nil =>
    intro st st' os h
    obtain ⟨-, rfl⟩ := Prod.mk.inj (Option.some.inj h)
    rfl
  | cons address addresses ih =>
    intro st st' os h
    obtain ⟨st₁, o, os', -, hall, rfl⟩ := processAll_cons_eq_some_iff.1 h
    rw [List.length_cons, List.length_cons, ih hall]

/-- **A run from a fresh cache is balanced**, unless a counter wraps. -/
theorem balanced_of_run {G : Geometry} {ops : List Operation} (hops : ∀ o ∈ ops, o.op ∈ traceOps)
    {st : Simulator} {os : List Outcome} (h : processAll G.toArguments (start G.toArguments)
      ((accesses ops).map toInt32) = some (st, os))
    (hhits : hits os < 2 ^ 31) (hmisses : misses os < 2 ^ 31) : Balanced G.toArguments ops st := by
  obtain ⟨hhit, hmiss, hevict⟩ := counts_of_start h hhits hmisses
  have hlen := length_of_processAll _ h
  have hsum := Recency.hits_add_misses os
  have hvalid := validLines_processAll _ h
  have hfills : misses os = os.count .fill + evictions os := rfl
  have hle := (Shaped.processAll _ (shaped_initCache _) h).validLines_le
  rw [List.length_map, length_accesses hops] at hlen
  rw [show (start G.toArguments).cache = initCache G.toArguments from rfl,
    validLines_initCache] at hvalid
  refine ⟨?_, ?_, ?_⟩
  · rw [hhit, hmiss]
    omega
  · rw [hevict, hmiss]
    omega
  · rw [hevict, hmiss]
    have hle' : ((validLines st.cache : ℕ) : ℤ) ≤ ((2 ^ G.s * G.E : ℕ) : ℤ) := by exact_mod_cast hle
    push_cast at hle'
    omega

/-- **Conservation of counts.** The loop of `main` on a trace is a run of `process`. Unless a
counter wraps, the counters are balanced afterwards: hits and misses together are the accesses, and
the evictions are the misses without the valid lines. At any two moments of the run, lines valid at
the first are valid at the second. And the second access of every modify is a hit, so a modify
advances the counters of misses and of evictions by at most one. -/
theorem counts_conserved (G : Geometry) (ops : List Operation)
    (hops : ∀ o ∈ ops, o.op ∈ traceOps) :
    (∃ st os, processAll G.toArguments (start G.toArguments) ((accesses ops).map toInt32) =
        some (st, os) ∧ replay G.toArguments (start G.toArguments) ops = .ok st ∧
      (hits os < 2 ^ 31 → misses os < 2 ^ 31 → Balanced G.toArguments ops st)) ∧
    (∀ xs ys zs, (accesses ops).map toInt32 = xs ++ ys ++ zs →
      ∃ st os st' os', processAll G.toArguments (start G.toArguments) xs = some (st, os) ∧
        processAll G.toArguments st ys = some (st', os') ∧
        ∀ i j, ValidAt st.cache i j → ValidAt st'.cache i j) ∧
    (∀ pre o post, ops = pre ++ o :: post → o.op = 'M'.toUInt8 →
      ∃ st st₁ st₂ out, replay G.toArguments (start G.toArguments) pre = .ok st ∧
        process G.toArguments st (toInt32 o.address) = some (st₁, out) ∧
        process G.toArguments st₁ (toInt32 o.address) = some (st₂, .hit) ∧
        replayOperation G.toArguments st o = .ok st₂ ∧
        (st₂.missCount = st.missCount ∨ st₂.missCount = st.missCount + 1) ∧
        (st₂.evictionCount = st.evictionCount ∨ st₂.evictionCount = st.evictionCount + 1)) := by
  have hstart : Shaped G.toArguments (start G.toArguments).cache := shaped_initCache _
  refine ⟨?_, fun xs ys zs _ ↦ ?_, fun pre o post heq hop ↦ ?_⟩
  · obtain ⟨st, os, hrun, -⟩ := exists_processAll ((accesses ops).map toInt32) hstart
    refine ⟨st, os, hrun, ?_, balanced_of_run hops hrun⟩
    rw [replay_eq _ _ hops, hrun]
    rfl
  · obtain ⟨st, os, hrun, hshape⟩ := exists_processAll xs hstart
    obtain ⟨st', os', hrun', -⟩ := exists_processAll ys hshape
    exact ⟨st, os, st', os', hrun, hrun', fun i j ↦ ValidAt.processAll ys hrun'⟩
  · have hpre : ∀ o' ∈ pre, o'.op ∈ traceOps := fun o' ho' ↦ hops o' (by rw [heq]; simp [ho'])
    obtain ⟨st, os, hrun, hshape⟩ := exists_processAll ((accesses pre).map toInt32) hstart
    obtain ⟨st₁, out, hfirst⟩ := exists_process hshape (toInt32 o.address)
    obtain ⟨st₂, hsecond⟩ := process_again hfirst
    refine ⟨st, st₁, st₂, out, ?_, hfirst, hsecond, ?_, counts_modify hfirst hsecond⟩
    · rw [replay_eq _ _ hpre, hrun]
      rfl
    · have hmodify : o.accesses.map toInt32 = [toInt32 o.address, toInt32 o.address] := by
        rw [Operation.accesses, if_neg (by rw [hop]; decide), if_pos hop]
        rfl
      have hboth : processAll G.toArguments st [toInt32 o.address, toInt32 o.address] =
          some (st₂, [out, .hit]) :=
        processAll_cons_eq_some_iff.2 ⟨st₁, out, [.hit], hfirst,
          processAll_cons_eq_some_iff.2 ⟨st₂, .hit, [], hsecond, rfl, rfl⟩, rfl⟩
      rw [replayOperation_eq _ _ (hops o (by rw [heq]; simp)), hmodify, hboth]
      rfl

/-- A load and a modify, with three accesses between them. -/
theorem counts_conserved_nearLoads :
    (∃ st os, processAll directMapped.toArguments (start directMapped.toArguments)
        ((accesses nearLoads).map toInt32) = some (st, os) ∧
      replay directMapped.toArguments (start directMapped.toArguments) nearLoads = .ok st ∧
      Balanced directMapped.toArguments nearLoads st) ∧
    (∃ st os st' os', processAll directMapped.toArguments (start directMapped.toArguments)
        [0x600aa0#32] = some (st, os) ∧
      processAll directMapped.toArguments st [0xff0005c8#32] = some (st', os') ∧
      ∀ i j, ValidAt st.cache i j → ValidAt st'.cache i j) ∧
    ∃ st st₁ st₂ out, replay directMapped.toArguments (start directMapped.toArguments)
        [⟨'L'.toUInt8, 0x600aa0#64, 1⟩] = .ok st ∧
      process directMapped.toArguments st (toInt32 0x7ff0005c8#64) = some (st₁, out) ∧
      process directMapped.toArguments st₁ (toInt32 0x7ff0005c8#64) = some (st₂, .hit) ∧
      replayOperation directMapped.toArguments st ⟨'M'.toUInt8, 0x7ff0005c8#64, 8⟩ = .ok st₂ ∧
      (st₂.missCount = st.missCount ∨ st₂.missCount = st.missCount + 1) ∧
      (st₂.evictionCount = st.evictionCount ∨ st₂.evictionCount = st.evictionCount + 1) := by
  obtain ⟨⟨st, os, hrun, hreplay, hbalanced⟩, hvalid, hmodify⟩ :=
    counts_conserved directMapped nearLoads (by decide)
  have hlen : os.length = 3 := length_of_processAll _ hrun
  have hsum := Recency.hits_add_misses os
  exact ⟨⟨st, os, hrun, hreplay, hbalanced (by omega) (by omega)⟩,
    hvalid [0x600aa0] [0xff0005c8] [0xff0005c8] rfl,
    hmodify [⟨'L'.toUInt8, 0x600aa0#64, 1⟩] ⟨'M'.toUInt8, 0x7ff0005c8#64, 8⟩ [] rfl rfl⟩

end CsappCode.CacheLab
