import Mathlib.Data.Nat.ModEq

/-!
# Fields packed in a number

A number seen as a row of fields of `w` bits each, the lowest one first.

* `field_add` adds all fields at once: where no field overflows, each field of the sum is the sum of
  the fields. `add_lt_of_noCarry` says that the sum stays inside the row.
* `FieldsLe` bounds all fields of a number. `FieldsLe.noCarry` adds below such bounds.
* `field_shiftRight_and` reads a row of narrow fields as a row of wide ones.
* `ones` counts the one bits of a window. `fieldSum_eq_ones` adds up fields that count windows.

## How it is used

**Several counters in one word** are a common device: one addition moves them all. It is right as
long as no counter carries into the next, and the proof of that is a bound for each stage.
`FieldsLe` is the bound, and its lemmas say how it changes with an addition, a shift and a mask.

**Merging counters.** To add the upper half of the fields to the lower half, code masks every other
field away and shifts. `field_shiftRight_and` says which field comes to stand where, for any two
widths of which one is a multiple of the other.

**Natural numbers.** Rows are natural numbers, so that nothing is cut off at the top; a machine word
is a row that is short enough, by `add_lt_of_noCarry`.
-/

namespace PackedFields

/-- The `j`th field of `w` bits. -/
def field (w j a : ℕ) : ℕ := a >>> (w * j) % 2 ^ w

theorem field_zero (w a : ℕ) : field w 0 a = a % 2 ^ w := rfl

theorem field_succ (w j a : ℕ) : field w (j + 1) a = field w j (a >>> w) := by
  rw [field, field, ← Nat.shiftRight_add, Nat.mul_succ, Nat.add_comm]

theorem field_lt (w j a : ℕ) : field w j a < 2 ^ w := Nat.mod_lt _ (Nat.two_pow_pos w)

/-- Behind the last field of a row there is nothing. -/
theorem field_eq_zero {w j n a : ℕ} (ha : a < 2 ^ (w * n)) (hj : n ≤ j) : field w j a = 0 := by
  have hle : 2 ^ (w * n) ≤ 2 ^ (w * j) :=
    Nat.pow_le_pow_right Nat.two_pos (Nat.mul_le_mul_left w hj)
  rw [field, Nat.shiftRight_eq_div_pow, Nat.div_eq_of_lt (Nat.lt_of_lt_of_le ha hle), Nat.zero_mod]

/-- A shift by whole fields. -/
theorem field_shiftRight (w j k a : ℕ) : field w j (a >>> (w * k)) = field w (k + j) a := by
  rw [field, field, ← Nat.shiftRight_add, Nat.mul_add]

/-- A mask acts field by field. -/
theorem field_and (w j a m : ℕ) : field w j (a &&& m) = field w j a &&& field w j m := by
  rw [field, Nat.shiftRight_and_distrib, Nat.and_mod_two_pow]
  rfl

/-! ### Sums -/

/-- In a row of `n` fields none of the sums leaves its field. -/
def NoCarry (w n a b : ℕ) : Prop := ∀ j < n, field w j a + field w j b < 2 ^ w

instance (w n a b : ℕ) : Decidable (NoCarry w n a b) :=
  inferInstanceAs (Decidable (∀ j < n, _))

/-- What is left of a sum behind its first field. -/
theorem add_shiftRight {w a b : ℕ} (h : field w 0 a + field w 0 b < 2 ^ w) :
    (a + b) >>> w = a >>> w + b >>> w := by
  rw [field_zero, field_zero] at h
  rw [Nat.shiftRight_eq_div_pow, Nat.shiftRight_eq_div_pow, Nat.shiftRight_eq_div_pow,
    Nat.add_div_eq_of_add_mod_lt h]

theorem NoCarry.shiftRight {w n a b : ℕ} (h : NoCarry w (n + 1) a b) :
    NoCarry w n (a >>> w) (b >>> w) := fun j hj ↦ by
  rw [← field_succ, ← field_succ]
  exact h (j + 1) (Nat.succ_lt_succ hj)

/-- **All fields are added at once.** -/
theorem field_add {w n : ℕ} : ∀ {a b j : ℕ}, NoCarry w n a b → j < n →
    field w j (a + b) = field w j a + field w j b := by
  induction n with
  | zero => exact fun _ hj ↦ absurd hj (Nat.not_lt_zero _)
  | succ n ih =>
    intro a b j h hj
    have hfirst := h 0 (Nat.succ_pos n)
    cases j with
    | zero =>
      rw [field_zero, field_zero, field_zero]
      exact Nat.add_mod_of_add_mod_lt hfirst
    | succ j =>
      rw [field_succ, field_succ, field_succ, add_shiftRight hfirst]
      exact ih h.shiftRight (Nat.lt_of_succ_lt_succ hj)

/-- **The sum stays inside the row.** -/
theorem add_lt_of_noCarry {w n : ℕ} : ∀ {a b : ℕ}, NoCarry w n a b → a < 2 ^ (w * n) →
    b < 2 ^ (w * n) → a + b < 2 ^ (w * n) := by
  induction n with
  | zero =>
    intro a b _ ha hb
    rw [Nat.mul_zero, Nat.pow_zero, Nat.lt_one_iff] at ha hb ⊢
    rw [ha, hb]
  | succ n ih =>
    intro a b h ha hb
    have hfirst := h 0 (Nat.succ_pos n)
    have hpow : 2 ^ (w * (n + 1)) = 2 ^ (w * n) * 2 ^ w := by rw [Nat.mul_succ, Nat.pow_add]
    have hshift : ∀ c, c < 2 ^ (w * (n + 1)) ↔ c >>> w < 2 ^ (w * n) := fun c ↦ by
      rw [hpow, Nat.shiftRight_eq_div_pow, Nat.div_lt_iff_lt_mul (Nat.two_pow_pos w)]
    rw [hshift] at ha hb ⊢
    rw [add_shiftRight hfirst]
    exact ih h.shiftRight ha hb

/-- The sum of the first `n` fields. -/
def fieldSum (w : ℕ) : ℕ → ℕ → ℕ
  | 0, _ => 0
  | n + 1, a => fieldSum w n a + field w n a

/-- Fields that agree have one sum. -/
theorem fieldSum_congr {w n a b : ℕ} :
    (∀ j < n, field w j a = field w j b) → fieldSum w n a = fieldSum w n b := by
  induction n with
  | zero => exact fun _ ↦ rfl
  | succ n ih =>
    intro h
    rw [fieldSum, fieldSum, ih fun j hj ↦ h j (Nat.lt_succ_of_lt hj), h n (Nat.lt_succ_self n)]

/-- The first fields and those behind them. -/
theorem fieldSum_shiftRight (w m n a : ℕ) :
    fieldSum w m a + fieldSum w n (a >>> (w * m)) = fieldSum w (m + n) a := by
  induction n with
  | zero => rfl
  | succ n ih =>
    rw [show m + (n + 1) = m + n + 1 from rfl, fieldSum, fieldSum, ← ih, field_shiftRight,
      Nat.add_assoc]

/-- The fields of a sum have the sum of the fields. -/
theorem fieldSum_add {w n a b : ℕ} (h : NoCarry w n a b) :
    fieldSum w n (a + b) = fieldSum w n a + fieldSum w n b := by
  have hle : ∀ k ≤ n, fieldSum w k (a + b) = fieldSum w k a + fieldSum w k b := fun k ↦ by
    induction k with
    | zero => exact fun _ ↦ rfl
    | succ k ih =>
      intro hk
      rw [fieldSum, fieldSum, fieldSum, ih (Nat.le_of_succ_le hk), field_add h hk]
      exact Nat.add_add_add_comm _ _ _ _
  exact hle n (Nat.le_refl n)

/-! ### Bounds -/

/-- No field is greater than `b`. -/
def FieldsLe (w b a : ℕ) : Prop := ∀ j, field w j a ≤ b

/-- The fields of a row bound all fields. -/
theorem FieldsLe.of_row {w n b a : ℕ} (ha : a < 2 ^ (w * n)) (h : ∀ j < n, field w j a ≤ b) :
    FieldsLe w b a := fun j ↦ by
  by_cases hj : j < n
  · exact h j hj
  · rw [field_eq_zero ha (Nat.not_lt.1 hj)]
    exact Nat.zero_le b

theorem FieldsLe.shiftRight {w b a : ℕ} (h : FieldsLe w b a) (k : ℕ) :
    FieldsLe w b (a >>> (w * k)) := fun j ↦ by
  rw [field_shiftRight]
  exact h (k + j)

theorem FieldsLe.and_left {w b a : ℕ} (h : FieldsLe w b a) (m : ℕ) : FieldsLe w b (a &&& m) :=
  fun j ↦ by
  rw [field_and]
  exact Nat.le_trans Nat.and_le_left (h j)

theorem FieldsLe.and_right {w b m : ℕ} (h : FieldsLe w b m) (a : ℕ) : FieldsLe w b (a &&& m) :=
  fun j ↦ by
  rw [field_and]
  exact Nat.le_trans Nat.and_le_right (h j)

/-- **Small fields do not carry.** -/
theorem FieldsLe.noCarry {w b c x y : ℕ} (hx : FieldsLe w b x) (hy : FieldsLe w c y)
    (hbc : b + c < 2 ^ w) (n : ℕ) : NoCarry w n x y := fun j _ ↦
  Nat.lt_of_le_of_lt (Nat.add_le_add (hx j) (hy j)) hbc

theorem FieldsLe.add {w b c x y : ℕ} (hx : FieldsLe w b x) (hy : FieldsLe w c y)
    (hbc : b + c < 2 ^ w) : FieldsLe w (b + c) (x + y) := fun j ↦ by
  rw [field_add (hx.noCarry hy hbc (j + 1)) (Nat.lt_succ_self j)]
  exact Nat.add_le_add (hx j) (hy j)

/-! ### Masks -/

/-- **Narrow fields read as wide ones.** A wide field is `m` narrow ones. A mask that keeps the
lowest of them makes it the wide field. -/
theorem field_shiftRight_and {w v m j mask : ℕ} (hw : v * m = w) (hm : 0 < m)
    (hmask : field w j mask = 2 ^ v - 1) (a k : ℕ) :
    field w j (a >>> (v * k) &&& mask) = field v (k + m * j) a := by
  have hle : v ≤ w := hw ▸ Nat.le_mul_of_pos_right v hm
  rw [field_and, hmask, Nat.and_two_pow_sub_one_eq_mod, field,
    Nat.mod_mod_of_dvd _ (Nat.pow_dvd_pow 2 hle), ← Nat.shiftRight_add, field, Nat.mul_add,
    ← Nat.mul_assoc, hw]

/-! ### One bits -/

/-- The number of one bits in the window of `n` bits from bit `s` on. -/
def ones (a s n : ℕ) : ℕ := (List.range n).countP fun k ↦ a.testBit (s + k)

theorem ones_zero (a s : ℕ) : ones a s 0 = 0 := rfl

theorem ones_succ (a s n : ℕ) : ones a s (n + 1) = ones a s n + a >>> (s + n) % 2 := by
  have hbit : a >>> (s + n) % 2 = if a.testBit (s + n) then 1 else 0 := by
    rw [Nat.testBit, Nat.one_and_eq_mod_two]
    rcases Nat.mod_two_eq_zero_or_one (a >>> (s + n)) with h | h <;> rw [h] <;> rfl
  rw [ones, List.range_succ, List.countP_append, List.countP_singleton, hbit, ones]

theorem ones_le (a s n : ℕ) : ones a s n ≤ n :=
  List.countP_le_length.trans_eq List.length_range

/-- **Two windows, one behind the other.** -/
theorem ones_add (a s m n : ℕ) : ones a s (m + n) = ones a s m + ones a (s + m) n := by
  induction n with
  | zero => rfl
  | succ n ih => rw [← Nat.add_assoc, ones_succ, ones_succ, ih, Nat.add_assoc s, Nat.add_assoc]

/-- **Fields that count windows**, one window behind the other. -/
theorem fieldSum_eq_ones {w n a b : ℕ} :
    (∀ j < n, field w j a = ones b (w * j) w) → fieldSum w n a = ones b 0 (w * n) := by
  induction n with
  | zero => exact fun _ ↦ rfl
  | succ n ih =>
    intro h
    rw [fieldSum, ih fun j hj ↦ h j (Nat.lt_succ_of_lt hj), h n (Nat.lt_succ_self n), Nat.mul_succ,
      ones_add, Nat.zero_add]

end PackedFields
