import CsappCode.Library.PackedFields
import CsappCode.DataLab.Words

/-!
# Counting bits

`bitCount` keeps several counters in one word: eight of four bits, then four of four bits, then two
of eight bits. Every addition adds all counters of a stage at once, and is right only as long as
none of them carries into the next one.

* `bitCountPacked` is `bitCount` with additions that fail where a counter carries into the next one.
* `Counted.step` is one more bit for each of the eight counters.
* `add_halves`, `add_pairs` and `add_last` are the three stages that bring the counters together.
* `bitCount_counts` says that no addition fails, and that the result is the number of one bits,
  which the loop of the test computes too.

## What the results rest on

**Fields.** That counters stay inside their fields is `FieldsLe`, from the library on packed fields,
and an addition within the bounds adds the fields one by one. The sum of all counters is what no
stage changes.

**The masks** are built from shifts in the source. What they keep of a word is computed, field by
field, and nothing else about them is used.

**Assumed** is what `bits.c` assumes: words of 32 bits and arithmetic right shifts. The statement is
for every word.
-/

namespace CsappCode.DataLab

open PackedFields

/-- `bitCount(x)`. -/
def bitCount (x : Word) : Word :=
  let sum : Word := 0
  let i := 0x11#32 ||| 0x11#32 <<< 8
  let i := i ||| (i <<< 16)
  let sum := sum + (x &&& i)
  let sum := sum + (x.sshiftRight 1 &&& i)
  let sum := sum + (x.sshiftRight 2 &&& i)
  let sum := sum + (x.sshiftRight 3 &&& i)
  let i := 0xff#32 ||| 0xff#32 <<< 8
  let sum := (sum &&& i) + sum.sshiftRight 16
  let i := 0x0f#32 ||| 0x0f#32 <<< 8
  let sum := (sum.sshiftRight 4 &&& i) + (sum &&& i)
  let i : Word := 0xff
  let sum := sum.sshiftRight 8 + (i &&& sum)
  sum

/-- A sum of counters of `w` bits each, if no counter carries into the next one. -/
def packedAdd (w : ℕ) (a b : Word) : Option Word :=
  if NoCarry w (32 / w) a.toNat b.toNat then some (a + b) else none

/-- `bitCount(x)` with counters that must not carry. -/
def bitCountPacked (x : Word) : Option Word := do
  let sum : Word := 0
  let i := 0x11#32 ||| 0x11#32 <<< 8
  let i := i ||| (i <<< 16)
  let sum ← packedAdd 4 sum (x &&& i)
  let sum ← packedAdd 4 sum (x.sshiftRight 1 &&& i)
  let sum ← packedAdd 4 sum (x.sshiftRight 2 &&& i)
  let sum ← packedAdd 4 sum (x.sshiftRight 3 &&& i)
  let i := 0xff#32 ||| 0xff#32 <<< 8
  let sum ← packedAdd 4 (sum &&& i) (sum.sshiftRight 16)
  let i := 0x0f#32 ||| 0x0f#32 <<< 8
  let sum ← packedAdd 8 (sum.sshiftRight 4 &&& i) (sum &&& i)
  let i : Word := 0xff
  let sum ← packedAdd 8 (sum.sshiftRight 8) (i &&& sum)
  return sum

/-- `test_bitCount(x)`. -/
def testBitCount (x : Word) : Word :=
  (List.range 32).foldl (fun result i ↦ result + (x.sshiftRight i &&& 1)) 0

/-- The number of one bits. -/
def oneBits (x : Word) : ℕ := (List.range 32).countP x.getLsbD

theorem oneBits_eq_ones (x : Word) : oneBits x = ones x.toNat 0 32 := by
  simp only [oneBits, ones, Nat.zero_add]
  rfl

/-! ### The loop -/

/-- What the loop adds up in `n` iterations. -/
theorem foldl_eq_ones (x : Word) {n : ℕ} (hn : n ≤ 32) :
    ((List.range n).foldl (fun result i ↦ result + (x.sshiftRight i &&& 1)) 0 : Word) =
      BitVec.ofNat 32 (ones x.toNat 0 n) := by
  induction n with
  | zero => rfl
  | succ n ih =>
    have hbit : (x.sshiftRight n &&& 1).toNat = x.toNat >>> n % 2 := by
      rw [toNat_sshiftRight_and x (Nat.one_lt_two_pow (by omega))]
      exact Nat.and_one_is_mod _
    rw [List.range_succ, List.foldl_append, List.foldl_cons, List.foldl_nil, ih (by omega),
      ones_succ, BitVec.ofNat_add, Nat.zero_add, ← hbit, BitVec.ofNat_toNat, BitVec.setWidth_eq]

theorem testBitCount_eq_oneBits (x : Word) : testBitCount x = BitVec.ofNat 32 (oneBits x) := by
  rw [testBitCount, foldl_eq_ones x le_rfl, oneBits_eq_ones]

/-! ### The counters -/

theorem packedAdd_eq {w : ℕ} {a b : Word} (h : NoCarry w (32 / w) a.toNat b.toNat) :
    packedAdd w a b = some (a + b) := if_pos h

/-- Without a carry the sum does not wrap. -/
theorem toNat_add_of_noCarry {w n : ℕ} {a b : Word} (hw : w * n = 32)
    (h : NoCarry w n a.toNat b.toNat) : (a + b).toNat = a.toNat + b.toNat := by
  have hlt : a.toNat + b.toNat < 2 ^ (w * n) :=
    add_lt_of_noCarry h (by rw [hw]; exact a.isLt) (by rw [hw]; exact b.isLt)
  rw [hw] at hlt
  rw [BitVec.toNat_add, Nat.mod_eq_of_lt hlt]

/-- The lowest bit of each of the eight counters. -/
def nibbleOnes : Word := 0x11111111

/-- Each of the eight counters has counted the first `k` bits of its four. -/
def Counted (x : Word) (k : ℕ) (sum : Word) : Prop :=
  ∀ j < 8, field 4 j sum.toNat = ones x.toNat (4 * j) k

theorem Counted.fieldsLe {x sum : Word} {k : ℕ} (h : Counted x k sum) :
    FieldsLe 4 k sum.toNat :=
  FieldsLe.of_row (n := 8) sum.isLt fun j hj ↦ (h j hj).trans_le (ones_le _ _ _)

/-- What the next step adds to each counter. -/
theorem field_sshiftRight_and_nibbleOnes (x : Word) {k j : ℕ} (hk : k < 4) (hj : j < 8) :
    field 4 j (x.sshiftRight k &&& nibbleOnes).toNat = x.toNat >>> (4 * j + k) % 2 := by
  have hpow : 2 ^ 29 ≤ 2 ^ (32 - k) := Nat.pow_le_pow_right Nat.two_pos (by omega)
  have hmask : ∀ j < 8, field 4 j nibbleOnes.toNat = 2 ^ 1 - 1 := by decide
  rw [toNat_sshiftRight_and x (Nat.lt_of_lt_of_le (by decide) hpow), ← Nat.one_mul k,
    field_shiftRight_and (w := 4) (m := 4) rfl (by decide) (hmask j hj), field, Nat.one_mul,
    Nat.one_mul, Nat.add_comm k, Nat.pow_one]

/-- **One more bit for each counter.** -/
theorem Counted.step {x sum : Word} {k : ℕ} (h : Counted x k sum) (hk : k < 4) :
    packedAdd 4 sum (x.sshiftRight k &&& nibbleOnes) =
        some (sum + (x.sshiftRight k &&& nibbleOnes)) ∧
      Counted x (k + 1) (sum + (x.sshiftRight k &&& nibbleOnes)) := by
  have hbit : FieldsLe 4 1 (x.sshiftRight k &&& nibbleOnes).toNat :=
    FieldsLe.of_row (n := 8) (BitVec.isLt _) fun j hj ↦ by
      rw [field_sshiftRight_and_nibbleOnes x hk hj]
      exact Nat.lt_succ_iff.1 (Nat.mod_lt _ Nat.two_pos)
  have hcarry := h.fieldsLe.noCarry hbit (by omega) 8
  refine ⟨packedAdd_eq hcarry, fun j hj ↦ ?_⟩
  rw [toNat_add_of_noCarry rfl hcarry, field_add hcarry hj, h j hj,
    field_sshiftRight_and_nibbleOnes x hk hj, ones_succ]

/-- **The upper four counters onto the lower four.** -/
theorem add_halves {sum : Word} (h : FieldsLe 4 4 sum.toNat) :
    NoCarry 4 8 (sum &&& 0xffff).toNat (sum.sshiftRight 16).toNat ∧
      ((sum &&& 0xffff) + sum.sshiftRight 16).toNat < 2 ^ 17 ∧
      fieldSum 4 4 ((sum &&& 0xffff) + sum.sshiftRight 16).toNat = fieldSum 4 8 sum.toNat := by
  -- The last counter is at most four, so the sum is not negative.
  have hlast : sum.toNat >>> 28 % 16 ≤ 4 := h 7
  have hpos : sum.toNat < 2 ^ 31 := by
    rw [Nat.shiftRight_eq_div_pow] at hlast
    omega
  have hcarry : NoCarry 4 8 (sum &&& 0xffff).toNat (sum.sshiftRight 16).toNat := by
    rw [toNat_sshiftRight hpos, BitVec.toNat_and]
    exact (h.and_left _).noCarry (h.shiftRight 4) (by decide) 8
  have hadd := toNat_add_of_noCarry rfl hcarry
  have hmask : ∀ j < 4, field 4 j (0xffff : Word).toNat = 2 ^ 4 - 1 := by decide
  have hlow : fieldSum 4 4 (sum &&& 0xffff).toNat = fieldSum 4 4 sum.toNat :=
    fieldSum_congr fun j hj ↦ by
      rw [BitVec.toNat_and, field_and, hmask j hj,
        Nat.and_two_pow_sub_one_of_lt_two_pow (field_lt 4 j _)]
  refine ⟨hcarry, ?_, ?_⟩
  · have hlt : (sum &&& 0xffff).toNat ≤ 0xffff := Nat.and_le_right
    have hlt' : (sum.sshiftRight 16).toNat < 2 ^ 16 := by
      rw [toNat_sshiftRight hpos, Nat.shiftRight_eq_div_pow]
      omega
    omega
  · rw [hadd, fieldSum_add fun j hj ↦ hcarry j (by omega), hlow, toNat_sshiftRight hpos]
    exact fieldSum_shiftRight 4 4 4 _

/-- **The odd counters onto the even ones.** -/
theorem add_pairs {sum : Word} (h : sum.toNat < 2 ^ 17) :
    NoCarry 8 4 (sum.sshiftRight 4 &&& 0x0f0f).toNat (sum &&& 0x0f0f).toNat ∧
      ((sum.sshiftRight 4 &&& 0x0f0f) + (sum &&& 0x0f0f)).toNat < 2 ^ 16 ∧
      FieldsLe 8 30 ((sum.sshiftRight 4 &&& 0x0f0f) + (sum &&& 0x0f0f)).toNat ∧
      fieldSum 8 2 ((sum.sshiftRight 4 &&& 0x0f0f) + (sum &&& 0x0f0f)).toNat =
        fieldSum 4 4 sum.toNat := by
  have hmask : ∀ j < 2, field 8 j (0x0f0f : Word).toNat = 2 ^ 4 - 1 := by decide
  have hle : FieldsLe 8 15 (0x0f0f : Word).toNat :=
    FieldsLe.of_row (n := 2) (by decide) fun j hj ↦ (hmask j hj).le
  have hcarry : NoCarry 8 4 (sum.sshiftRight 4 &&& 0x0f0f).toNat (sum &&& 0x0f0f).toNat :=
    (hle.and_right _).noCarry (hle.and_right _) (by decide) 4
  have hadd := toNat_add_of_noCarry rfl hcarry
  have hodd : ∀ j < 2, field 8 j (sum.sshiftRight 4 &&& 0x0f0f).toNat =
      field 4 (1 + 2 * j) sum.toNat := fun j hj ↦ by
    rw [BitVec.toNat_and, toNat_sshiftRight (by omega)]
    exact field_shiftRight_and (v := 4) (m := 2) rfl (by decide) (hmask j hj) sum.toNat 1
  have heven : ∀ j < 2, field 8 j (sum &&& 0x0f0f).toNat = field 4 (0 + 2 * j) sum.toNat :=
    fun j hj ↦ field_shiftRight_and (v := 4) (m := 2) rfl (by decide) (hmask j hj) sum.toNat 0
  refine ⟨hcarry, ?_, ?_, ?_⟩
  · have hlow : (sum &&& 0x0f0f).toNat ≤ 0x0f0f := Nat.and_le_right
    have hhigh : (sum.sshiftRight 4 &&& 0x0f0f).toNat ≤ 0x0f0f := Nat.and_le_right
    omega
  · rw [hadd]
    exact (hle.and_right _).add (hle.and_right _) (by decide)
  · rw [hadd, fieldSum_add fun j hj ↦ hcarry j (by omega)]
    simp only [fieldSum, hodd 0 (by decide), hodd 1 (by decide), heven 0 (by decide),
      heven 1 (by decide), Nat.reduceAdd, Nat.reduceMul]
    omega

/-- **The last counter onto the first.** -/
theorem add_last {sum : Word} (h : sum.toNat < 2 ^ 16) (hle : FieldsLe 8 30 sum.toNat) :
    NoCarry 8 4 (sum.sshiftRight 8).toNat (0xff &&& sum).toNat ∧
      (sum.sshiftRight 8 + (0xff &&& sum)).toNat = fieldSum 8 2 sum.toNat := by
  have hshift : (sum.sshiftRight 8).toNat = sum.toNat >>> 8 := toNat_sshiftRight (by omega) 8
  have hcarry : NoCarry 8 4 (sum.sshiftRight 8).toNat (0xff &&& sum).toNat := by
    rw [hshift, BitVec.and_comm, BitVec.toNat_and]
    exact (hle.shiftRight 1).noCarry (hle.and_left _) (by decide) 4
  have hlow : (0xff &&& sum).toNat = field 8 0 sum.toNat := by
    rw [BitVec.and_comm, BitVec.toNat_and]
    exact Nat.and_two_pow_sub_one_eq_mod _ 8
  have hhigh : sum.toNat >>> 8 = field 8 1 sum.toNat := by
    rw [field, Nat.shiftRight_eq_div_pow]
    omega
  refine ⟨hcarry, ?_⟩
  rw [toNat_add_of_noCarry rfl hcarry, hshift, hlow, hhigh, fieldSum, fieldSum, fieldSum,
    Nat.zero_add, Nat.add_comm]

/-! ### The count -/

/-- **The whole run**: every addition succeeds, and no stage changes the sum of the counters. -/
theorem bitCountPacked_spec (x : Word) :
    bitCountPacked x = some (bitCount x) ∧ (bitCount x).toNat = ones x.toNat 0 32 := by
  have hstart : Counted x 0 0 := fun j _ ↦ by
    rw [ones_zero]
    exact field_eq_zero (n := 0) Nat.one_pos (Nat.zero_le j)
  have hnibble : 0x11#32 ||| 0x11#32 <<< 8 ||| (0x11#32 ||| 0x11#32 <<< 8) <<< 16 =
    nibbleOnes := by decide
  have hhalf : 0xff#32 ||| 0xff#32 <<< 8 = 0xffff := by decide
  have hpair : 0x0f#32 ||| 0x0f#32 <<< 8 = 0x0f0f := by decide
  obtain ⟨hadd₀, h₁⟩ := hstart.step (by decide)
  obtain ⟨hadd₁, h₂⟩ := h₁.step (by decide)
  obtain ⟨hadd₂, h₃⟩ := h₂.step (by decide)
  obtain ⟨hadd₃, h₄⟩ := h₃.step (by decide)
  obtain ⟨hcarry₄, hlt₄, hsum₄⟩ := add_halves h₄.fieldsLe
  obtain ⟨hcarry₅, hlt₅, hle₅, hsum₅⟩ := add_pairs hlt₄
  obtain ⟨hcarry₆, hsum₆⟩ := add_last hlt₅ hle₅
  rw [hsum₅, hsum₄, fieldSum_eq_ones h₄, BitVec.sshiftRight_zero] at hsum₆
  rw [BitVec.sshiftRight_zero] at hadd₀ hadd₁ hadd₂ hadd₃ hcarry₄ hcarry₅ hcarry₆
  rw [bitCountPacked, bitCount]
  simp only [hnibble, hhalf, hpair, hadd₀, hadd₁, hadd₂, hadd₃, packedAdd_eq hcarry₄,
    packedAdd_eq hcarry₅, packedAdd_eq hcarry₆, Option.bind_eq_bind, Option.bind_some, true_and]
  exact hsum₆

/-- **`bitCount` counts the one bits.** No counter of `bitCount` carries into the next one. The
result is the number of one bits, which is what the loop of the test computes. -/
theorem bitCount_counts (x : Word) :
    bitCountPacked x = some (bitCount x) ∧ (bitCount x).toNat = oneBits x ∧
      bitCount x = testBitCount x := by
  obtain ⟨hpacked, hcount⟩ := bitCountPacked_spec x
  rw [← oneBits_eq_ones] at hcount
  refine ⟨hpacked, hcount, ?_⟩
  rw [testBitCount_eq_oneBits, ← hcount, BitVec.ofNat_toNat, BitVec.setWidth_eq]

end CsappCode.DataLab
