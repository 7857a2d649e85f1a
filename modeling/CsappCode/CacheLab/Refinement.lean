import CsappCode.CacheLab.SetSimulation
import Mathlib.Algebra.Order.Group.Int
import Mathlib.Tactic.Positivity
import Mathlib.Tactic.Ring

/-!
# The simulator refines the set-associative LRU cache

The reference cache works on mathematical integers: an address belongs to the block `address >>> b`,
the block to the set `block % 2 ^ s` under the tag `block >>> s`, and every set is a recency list of
`Recency`. This module lifts the simulation of one set to the whole cache.

* `decompose_eq` says that on a `Geometry` the shifts, the mask and the conversions of `process`
  compute exactly this place, without undefined behaviour.
* `Simulates` relates a simulator to a reference cache; `process_spec` is one call and
  `processAll_spec` a whole run.
* `processAll_counts` relates the counters to the outcomes of any run, modulo their width.
* `process_refines_lru` and `lru_inclusion` are read off it: the first is the refinement, the second
  the stack property, which is a fact about recency lists (`Recency.run_cut`) carried down.

## What the results assume

**The length of a run.** An age counts the accesses since the line was used. Below `2 ^ 31` accesses
no age wraps, and the line with the largest age is the one used least recently. This is the bound in
`process_refines_lru` and in `lru_inclusion`, and both hold after every prefix of such a run.

**The geometry.** `1 ≤ s ≤ 30`, `s + b ≤ 31` and at least one line: all shifts are defined then, and
the cut of the address to 32 bits loses no bit of the set index.

**The addresses** are any `int`s, negative ones included: blocks and tags are taken with an
arithmetic shift on both sides.
-/

namespace CsappCode.CacheLab

open Recency (Outcome Resident touch outcome outcomes hits misses evictions)

/-! ### Places -/

/-- The block of an address, in the reference. -/
def block (b : ℕ) (address : ℤ) : ℤ := address >>> b

/-- The set and the tag of an address, in the reference. -/
def place (args : Arguments) (address : ℤ) : ℤ × ℤ :=
  (block args.b address % 2 ^ args.s, block args.b address >>> args.s)

/-- Set and tag together are the block. -/
theorem place_eq_iff (args : Arguments) (x y : ℤ) :
    place args x = place args y ↔ block args.b x = block args.b y := by
  refine ⟨fun h ↦ ?_, fun h ↦ ?_⟩
  · obtain ⟨hset, htag⟩ := Prod.mk.inj h
    rw [Int.shiftRight_eq_div_pow, Int.shiftRight_eq_div_pow] at htag
    have hx := Int.emod_add_mul_ediv (block args.b x) (2 ^ args.s)
    have hy := Int.emod_add_mul_ediv (block args.b y) (2 ^ args.s)
    push_cast at htag
    rw [← hx, ← hy, hset, htag]
  · rw [place, place, h]

/-- The residue modulo a power of two is read off the bits, whichever way the sign goes. -/
theorem toInt_emod_two_pow {w s : ℕ} (h : s ≤ w) (x : BitVec w) :
    x.toInt % 2 ^ s = (x.toNat : ℤ) % 2 ^ s := by
  rw [BitVec.toInt_eq_toNat_cond]
  split_ifs
  · rfl
  · have hpow : ((2 ^ w : ℕ) : ℤ) = 2 ^ s * 2 ^ (w - s) := by
      rw [← pow_add, Nat.add_sub_cancel' h]; push_cast; rfl
    rw [hpow, Int.sub_mul_emod_self_left]

/-- **The decomposition is the reference's.** On a geometry every shift of `process` is defined. -/
theorem decompose_eq (G : Geometry) (address : BitVec 32) :
    ∃ setIndex tagBits, decompose G.toArguments address = some (setIndex, tagBits) ∧
      (setIndex.toNat : ℤ) = (place G.toArguments address.toInt).1 ∧
      tagBits.toInt = (place G.toArguments address.toInt).2 := by
  have hs := G.one_le_s
  have hs' := G.s_le
  have hb := G.sum_le
  refine ⟨((BitVec.allOnes 64 >>> (64 - G.s)) &&&
      (address.sshiftRight G.b).signExtend 64).setWidth 32,
    (address.sshiftRight G.b).sshiftRight G.s, ?_, ?_, ?_⟩
  · have hblock : sshr? address G.b = some (address.sshiftRight G.b) := if_pos (by omega)
    have hmask : ushr? (BitVec.allOnes 64) (64 - G.s) = some (BitVec.allOnes 64 >>> (64 - G.s)) :=
      if_pos (by omega)
    have htag : sshr? (address.sshiftRight G.b) G.s =
        some ((address.sshiftRight G.b).sshiftRight G.s) := if_pos (by omega)
    rw [decompose]
    simp only [Option.bind_eq_bind, hblock, hmask, htag, Option.bind_some]
    rfl
  · -- the mask keeps the low `s` bits of the sign-extended block
    have hmask : (BitVec.allOnes 64 >>> (64 - G.s)).toNat = 2 ^ G.s - 1 := by
      rw [BitVec.toNat_ushiftRight, BitVec.toNat_allOnes, Nat.shiftRight_eq_div_pow]
      have hsplit : 2 ^ 64 = 2 ^ (64 - G.s) * 2 ^ G.s := by
        rw [← pow_add, Nat.sub_add_cancel (by omega)]
      have hpos : 0 < 2 ^ (64 - G.s) := by positivity
      have hpos' : 0 < 2 ^ G.s := by positivity
      rw [hsplit]
      refine Nat.div_eq_of_lt_le ?_ ?_
      · rw [Nat.sub_mul, one_mul, mul_comm]
        exact Nat.sub_le_sub_left hpos _
      · rw [Nat.sub_add_cancel hpos', mul_comm]
        exact Nat.sub_lt (Nat.mul_pos hpos' hpos) one_pos
    have hlt : 2 ^ G.s < 2 ^ 32 := Nat.pow_lt_pow_right (by omega) (by omega)
    rw [BitVec.toNat_setWidth, BitVec.toNat_and, hmask, Nat.and_comm,
      Nat.and_two_pow_sub_one_eq_mod,
      Nat.mod_eq_of_lt (lt_trans (Nat.mod_lt _ (by positivity)) hlt)]
    push_cast
    rw [← toInt_emod_two_pow (by omega), BitVec.toInt_signExtend_of_le (by omega),
      BitVec.toInt_sshiftRight]
    rfl
  · rw [BitVec.toInt_sshiftRight, BitVec.toInt_sshiftRight]
    rfl

/-! ### The simulation relation -/

/-- After at most `n` accesses, the simulator's sets represent the reference's recency lists. -/
structure Simulates (G : Geometry) (n : ℕ) (st : Simulator) (R : Resident ℤ ℤ) : Prop where
  length_eq : st.cache.length = 2 ^ G.s
  sets : ∀ i : ℕ, i < 2 ^ G.s → ∃ set V P, st.cache[i]? = some set ∧ Represents G.E n set V P ∧
    R i = P.map fun p ↦ p.1.toInt

theorem simulates_start (G : Geometry) :
    Simulates G 0 (start G.toArguments) Recency.empty where
  length_eq := by simp [start, initCache]
  sets := fun i hi ↦ ⟨_, [], [], by simp [start, initCache, hi], represents_init _, rfl⟩

@[simp] theorem cache_count (st : Simulator) (o : Outcome) : (st.count o).cache = st.cache := by
  cases o <;> rfl

variable {G : Geometry} {n : ℕ} {st : Simulator} {R : Resident ℤ ℤ}

/-- The reference's set of an address is one of the simulator's. -/
theorem place_fst_lt (G : Geometry) (address : ℤ) {i : ℕ}
    (hi : (i : ℤ) = (place G.toArguments address).1) : i < 2 ^ G.s := by
  have hlt : (place G.toArguments address).1 < 2 ^ G.s := Int.emod_lt_of_pos _ (by positivity)
  rw [← hi] at hlt
  exact_mod_cast hlt

/-- **One call.** `process` ends as the reference access does, and the relation is kept. -/
theorem process_spec (h : Simulates G n st R) (hn : n + 1 < 2 ^ 31) (address : BitVec 32) :
    ∃ st', process G.toArguments st address =
        some (st', outcome G.E (R (place G.toArguments address.toInt).1)
          (place G.toArguments address.toInt).2) ∧
      Simulates G (n + 1) st' (Recency.access G.E R (place G.toArguments address.toInt)) := by
  obtain ⟨setIndex, tagBits, hdec, hset, htag⟩ := decompose_eq G address
  have hlt : setIndex.toNat < 2 ^ G.s := place_fst_lt G _ hset
  obtain ⟨set, V, P, hget, hrep, hR⟩ := h.sets _ hlt
  obtain ⟨set', V', P', hacc, hrep', htouch⟩ := accessLines_spec hrep G.one_le_E hn tagBits
  -- tags are read as integers; reading is injective
  have hmap : ∀ Q : List Aged, (Q.map fun p ↦ p.1.toInt) = (Q.map Prod.fst).map BitVec.toInt :=
    fun Q ↦ by rw [List.map_map]; rfl
  obtain ⟨hmapTouch, hmapOut⟩ := Recency.map_touch (E := G.E) (l := P.map Prod.fst) (t := tagBits)
    (f := BitVec.toInt) fun x _ y _ hxy ↦ BitVec.toInt_inj.1 hxy
  refine ⟨({ st with cache := st.cache.set setIndex.toNat set' } : Simulator).count
    (outcome G.E (P.map Prod.fst) tagBits), ?_, ?_, ?_⟩
  · rw [process, hdec]
    simp only [Option.bind_eq_bind, Option.bind_some, hget, hacc]
    rw [← hset, ← htag, hR, hmap, hmapOut]
    rfl
  · rw [cache_count, List.length_set, h.length_eq]
  · intro i hi
    rw [cache_count]
    rcases eq_or_ne i setIndex.toNat with rfl | hne
    · refine ⟨set', V', P', ?_, hrep', ?_⟩
      · rw [List.getElem?_set_self (by rw [h.length_eq]; exact hlt)]
      · rw [hset, Recency.access_same, ← hset, ← htag, hR, hmap, ← hmapTouch, ← htouch, hmap]
    · -- the other sets are as they were, with room for one more access
      obtain ⟨set₀, V₀, P₀, hget₀, hrep₀, hR₀⟩ := h.sets i hi
      refine ⟨set₀, V₀, P₀, ?_, hrep₀.mono, ?_⟩
      · rw [List.getElem?_set_ne hne.symm, hget₀]
      · rw [Recency.access_of_ne, hR₀]
        rw [← hset]
        exact_mod_cast hne

/-- **A whole run**, by induction on the addresses. -/
theorem processAll_spec (addresses : List (BitVec 32)) :
    ∀ {n : ℕ} {st : Simulator} {R : Resident ℤ ℤ}, Simulates G n st R →
      n + addresses.length < 2 ^ 31 →
      ∃ st', processAll G.toArguments st addresses =
          some (st', outcomes G.E R (addresses.map fun a ↦ place G.toArguments a.toInt)) ∧
        Simulates G (n + addresses.length) st'
          (Recency.run G.E R (addresses.map fun a ↦ place G.toArguments a.toInt)) := by
  induction addresses with
  | nil => exact fun h _ ↦ ⟨_, rfl, h⟩
  | cons address addresses ih =>
    intro n st R h hlen
    rw [List.length_cons] at hlen ⊢
    obtain ⟨st₁, hproc, h₁⟩ := process_spec h (by omega) address
    obtain ⟨st₂, hall, h₂⟩ := ih h₁ (by omega)
    refine ⟨st₂, ?_, ?_⟩
    · rw [processAll, hproc]
      simp only [Option.bind_eq_bind, Option.bind_some, hall]
      rfl
    · rw [show n + (addresses.length + 1) = n + 1 + addresses.length by omega]
      exact h₂

/-! ### The counters -/

/-- One more outcome, counted first or counted with the rest. -/
theorem count_add (st : Simulator) (o : Outcome) (os : List Outcome) :
    (st.count o).hitCount + BitVec.ofNat 32 (hits os) =
        st.hitCount + BitVec.ofNat 32 (hits (o :: os)) ∧
      (st.count o).missCount + BitVec.ofNat 32 (misses os) =
        st.missCount + BitVec.ofNat 32 (misses (o :: os)) ∧
      (st.count o).evictionCount + BitVec.ofNat 32 (evictions os) =
        st.evictionCount + BitVec.ofNat 32 (evictions (o :: os)) := by
  simp only [hits, misses, evictions, List.count_cons]
  refine ⟨?_, ?_, ?_⟩
  all_goals cases o <;> simp [Simulator.count, BitVec.ofNat_add]
  all_goals ac_rfl

/-- **The counters count the outcomes**, modulo the machine's width. -/
theorem processAll_counts {args : Arguments} (addresses : List (BitVec 32)) :
    ∀ {st st' : Simulator} {os : List Outcome}, processAll args st addresses = some (st', os) →
      st'.hitCount = st.hitCount + BitVec.ofNat 32 (hits os) ∧
      st'.missCount = st.missCount + BitVec.ofNat 32 (misses os) ∧
      st'.evictionCount = st.evictionCount + BitVec.ofNat 32 (evictions os) := by
  induction addresses with
  | nil =>
    intro st st' os h
    obtain ⟨rfl, rfl⟩ := Prod.mk.inj (Option.some.inj h)
    simp [hits, misses, evictions]
  | cons address addresses ih =>
    intro st st' os h
    simp only [processAll, Option.bind_eq_bind, Option.bind_eq_some_iff, Prod.exists] at h
    obtain ⟨st₁, o, hproc, st₂, os₂, hall, hres⟩ := h
    obtain ⟨rfl, rfl⟩ := Prod.mk.inj (Option.some.inj hres)
    obtain ⟨hhit, hmiss, hevict⟩ := ih hall
    simp only [process, Option.bind_eq_bind, Option.bind_eq_some_iff, Prod.exists] at hproc
    obtain ⟨setIndex, tagBits, -, set, -, set', o', -, hproc⟩ := hproc
    obtain ⟨rfl, rfl⟩ := Prod.mk.inj (Option.some.inj hproc)
    rw [hhit, hmiss, hevict]
    exact count_add _ _ _

/-- A count of fewer than `2 ^ 31` accesses is read back exactly. -/
theorem toInt_zero_add_ofNat {a : ℕ} (ha : a < 2 ^ 31) :
    ((0 : BitVec 32) + BitVec.ofNat 32 a).toInt = a := by
  rw [show (0 : BitVec 32) = 0#32 from rfl, BitVec.zero_add, toInt_ofNat_of_lt ha]

/-- From a fresh cache the counters are the reference counts, as long as they do not wrap. -/
theorem counts_of_start {args : Arguments} {addresses : List (BitVec 32)} {st : Simulator}
    {os : List Outcome} (h : processAll args (start args) addresses = some (st, os))
    (hhits : hits os < 2 ^ 31) (hmisses : misses os < 2 ^ 31) :
    st.hitCount.toInt = hits os ∧ st.missCount.toInt = misses os ∧
      st.evictionCount.toInt = evictions os := by
  obtain ⟨hhit, hmiss, hevict⟩ := processAll_counts addresses h
  have hle : evictions os ≤ misses os := Nat.le_add_left _ _
  rw [hhit, hmiss, hevict]
  exact ⟨toInt_zero_add_ofNat hhits, toInt_zero_add_ofNat hmisses,
    toInt_zero_add_ofNat (by omega)⟩

/-! ### Refinement and inclusion -/

/-- The tags resident in a set: those of its valid lines. -/
def residentTags (st : Simulator) (i : ℕ) : List ℤ :=
  ((st.cache[i]?.getD []).filter CacheLine.validBit).map fun line ↦ line.tagBit.toInt

/-- The valid lines of a related simulator carry exactly the reference's resident tags. -/
theorem Simulates.mem_residentTags_iff (h : Simulates G n st R) {i : ℕ} (hi : i < 2 ^ G.s) {t : ℤ} :
    t ∈ residentTags st i ↔ t ∈ R i := by
  obtain ⟨set, V, P, hget, hrep, hR⟩ := h.sets i hi
  have hfilter : set.filter CacheLine.validBit = V.map Aged.line := by
    rw [hrep.set_eq, List.filter_append, List.filter_replicate_of_neg (by simp [emptyLine]),
      List.append_nil, List.filter_eq_self]
    intro line hline
    obtain ⟨p, -, rfl⟩ := List.mem_map.1 hline
    rfl
  rw [residentTags, hget, Option.getD_some, hfilter, List.map_map, hR]
  exact (hrep.perm.map fun p ↦ p.1.toInt).mem_iff

/-- The reference's outcomes for a run of `int` addresses on a fresh cache. -/
def referenceOutcomes (args : Arguments) (addresses : List (BitVec 32)) : List Outcome :=
  outcomes args.E Recency.empty (addresses.map fun a ↦ place args a.toInt)

/-- The reference's recency lists after such a run. -/
def referenceSets (args : Arguments) (addresses : List (BitVec 32)) : Resident ℤ ℤ :=
  Recency.run args.E Recency.empty (addresses.map fun a ↦ place args a.toInt)

/-- What a run from a fresh cache comes to, for every run the ages and counters can hold. -/
theorem exists_run (G : Geometry) {addresses : List (BitVec 32)}
    (hlen : addresses.length < 2 ^ 31) :
    ∃ st, processAll G.toArguments (start G.toArguments) addresses =
        some (st, referenceOutcomes G.toArguments addresses) ∧
      Simulates G addresses.length st (referenceSets G.toArguments addresses) ∧
      st.hitCount.toInt = hits (referenceOutcomes G.toArguments addresses) ∧
      st.missCount.toInt = misses (referenceOutcomes G.toArguments addresses) ∧
      st.evictionCount.toInt = evictions (referenceOutcomes G.toArguments addresses) := by
  obtain ⟨st, hrun, hsim⟩ := processAll_spec addresses (simulates_start G) (by omega)
  rw [Nat.zero_add] at hsim
  have hsum := Recency.hits_add_misses (referenceOutcomes G.toArguments addresses)
  rw [referenceOutcomes, Recency.length_outcomes, List.length_map, ← referenceOutcomes] at hsum
  exact ⟨st, hrun, hsim, counts_of_start hrun (by omega) (by omega)⟩

/-- **LRU refinement.** After every prefix of a run of fewer than `2 ^ 31` addresses, every call has
ended as in the reference LRU cache, every set holds the reference's tags, and the counters are the
reference's counts. -/
theorem process_refines_lru (G : Geometry) (addresses : List (BitVec 32))
    (hlen : addresses.length < 2 ^ 31) :
    ∀ done, done <+: addresses →
      ∃ st, processAll G.toArguments (start G.toArguments) done =
          some (st, referenceOutcomes G.toArguments done) ∧
        (∀ i : ℕ, i < 2 ^ G.s → ∀ t,
          t ∈ residentTags st i ↔ t ∈ referenceSets G.toArguments done i) ∧
        st.hitCount.toInt = hits (referenceOutcomes G.toArguments done) ∧
        st.missCount.toInt = misses (referenceOutcomes G.toArguments done) ∧
        st.evictionCount.toInt = evictions (referenceOutcomes G.toArguments done) := by
  intro done hdone
  obtain ⟨st, hrun, hsim, hcounts⟩ := exists_run G (lt_of_le_of_lt hdone.length_le hlen)
  exact ⟨st, hrun, fun i hi t ↦ hsim.mem_residentTags_iff hi, hcounts⟩

/-- The geometry of the trace examples in the lab's handout: sixteen direct-mapped sets. -/
def directMapped : Geometry where
  s := 4
  E := 1
  b := 4
  one_le_s := by decide
  s_le := by decide
  sum_le := by decide
  one_le_E := by decide

/-- Two addresses in one set. -/
theorem process_refines_lru_directMapped :
    ∃ st, processAll directMapped.toArguments (start directMapped.toArguments)
          [0x10#32, 0x110#32] =
        some (st, referenceOutcomes directMapped.toArguments [0x10#32, 0x110#32]) ∧
      (∀ i : ℕ, i < 2 ^ directMapped.s → ∀ t, t ∈ residentTags st i ↔
        t ∈ referenceSets directMapped.toArguments [0x10#32, 0x110#32] i) ∧
      st.hitCount.toInt = 0 ∧ st.missCount.toInt = 2 ∧ st.evictionCount.toInt = 1 :=
  process_refines_lru directMapped [0x10, 0x110] (by decide) [0x10, 0x110] (List.prefix_refl _)

/-- Sets outside the cache hold nothing. -/
theorem Simulates.residentTags_eq_nil (h : Simulates G n st R) {i : ℕ} (hi : 2 ^ G.s ≤ i) :
    residentTags st i = [] := by
  rw [residentTags, List.getElem?_eq_none (by rw [h.length_eq]; exact hi)]
  rfl

/-- The place of an address does not depend on the number of lines. -/
theorem place_congr {args₁ args₂ : Arguments} (hs : args₁.s = args₂.s) (hb : args₁.b = args₂.b) :
    place args₁ = place args₂ := by
  funext address
  rw [place, place, hs, hb]

/-- **LRU inclusion.** With more lines a set, after every prefix of the run the cache holds at least
the same tags in every set, has hit at least as often, and has missed and evicted at most as
often. -/
theorem lru_inclusion (G₁ G₂ : Geometry) (hs : G₁.s = G₂.s) (hb : G₁.b = G₂.b)
    (hE : G₁.E ≤ G₂.E) (addresses : List (BitVec 32)) (hlen : addresses.length < 2 ^ 31) :
    ∀ done, done <+: addresses →
      ∃ st₁ os₁ st₂ os₂,
        processAll G₁.toArguments (start G₁.toArguments) done = some (st₁, os₁) ∧
        processAll G₂.toArguments (start G₂.toArguments) done = some (st₂, os₂) ∧
        (∀ i t, t ∈ residentTags st₁ i → t ∈ residentTags st₂ i) ∧
        st₁.hitCount.toInt ≤ st₂.hitCount.toInt ∧
        st₂.missCount.toInt ≤ st₁.missCount.toInt ∧
        st₂.evictionCount.toInt ≤ st₁.evictionCount.toInt := by
  intro done hdone
  have hdlen : done.length < 2 ^ 31 := lt_of_le_of_lt hdone.length_le hlen
  obtain ⟨st₁, hrun₁, hsim₁, hhit₁, hmiss₁, hevict₁⟩ := exists_run G₁ hdlen
  obtain ⟨st₂, hrun₂, hsim₂, hhit₂, hmiss₂, hevict₂⟩ := exists_run G₂ hdlen
  -- the smaller reference cache is the cut of the larger one, all along the run
  have hplace := place_congr hs hb
  have hcut : referenceSets G₁.toArguments done =
      Recency.cut G₁.E (referenceSets G₂.toArguments done) := by
    rw [referenceSets, referenceSets, hplace,
      ← Recency.run_cut G₁.one_le_E hE _ Recency.within_empty, Recency.cut_empty]
  have hout : List.Forall₂ (fun o₁ o₂ ↦ (o₁ = .hit → o₂ = .hit) ∧ (o₂ = .evict → o₁ = .evict))
      (referenceOutcomes G₁.toArguments done) (referenceOutcomes G₂.toArguments done) := by
    have h := Recency.outcomes_cut G₁.one_le_E hE
      (done.map fun a ↦ place G₂.toArguments a.toInt) Recency.within_empty
    rw [Recency.cut_empty] at h
    rwa [referenceOutcomes, referenceOutcomes, hplace]
  obtain ⟨hhits, hmisses, hevictions⟩ := Recency.counts_le_of_forall₂ hout
  refine ⟨st₁, _, st₂, _, hrun₁, hrun₂, fun i t ht ↦ ?_, ?_, ?_, ?_⟩
  · rcases Nat.lt_or_ge i (2 ^ G₁.s) with hi | hi
    · rw [hsim₁.mem_residentTags_iff hi, hcut] at ht
      rw [hsim₂.mem_residentTags_iff (hs ▸ hi)]
      exact List.mem_of_mem_take ht
    · rw [hsim₁.residentTags_eq_nil hi] at ht
      exact absurd ht List.not_mem_nil
  · rw [hhit₁, hhit₂]; exact_mod_cast hhits
  · rw [hmiss₁, hmiss₂]; exact_mod_cast hmisses
  · rw [hevict₁, hevict₂]; exact_mod_cast hevictions

/-- The same sets with two lines each. -/
def twoWay : Geometry where
  s := 4
  E := 2
  b := 4
  one_le_s := by decide
  s_le := by decide
  sum_le := by decide
  one_le_E := by decide

theorem lru_inclusion_twoWay :
    ∃ st₁ os₁ st₂ os₂,
      processAll directMapped.toArguments (start directMapped.toArguments)
        [0x10#32, 0x110#32, 0x10#32] = some (st₁, os₁) ∧
      processAll twoWay.toArguments (start twoWay.toArguments)
        [0x10#32, 0x110#32, 0x10#32] = some (st₂, os₂) ∧
      (∀ i t, t ∈ residentTags st₁ i → t ∈ residentTags st₂ i) ∧
      st₁.hitCount.toInt ≤ st₂.hitCount.toInt ∧
      st₂.missCount.toInt ≤ st₁.missCount.toInt ∧
      st₂.evictionCount.toInt ≤ st₁.evictionCount.toInt :=
  lru_inclusion directMapped twoWay rfl rfl (by decide) [0x10, 0x110, 0x10] (by decide)
    [0x10, 0x110, 0x10] (List.prefix_refl _)

end CsappCode.CacheLab
