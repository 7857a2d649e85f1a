import Mathlib.Algebra.GroupWithZero.Nat
import Mathlib.Logic.Basic

/-!
# Byte-addressed memory

Memory as a function of unbounded addresses, with little-endian words and block copies.

* `loadWord_storeWord` reads a word back, `loadWord_congr` says that a word depends on its own bytes
  only, and `storeWord_of_outside` that storing one changes nothing else.
* `memcpy` is undefined on areas that overlap. `memcpy_apply` gives every byte of the result.
* `memset` fills an area.
* `Within` and `Apart` are the areas: an address inside one, and two without a common byte.

## Conventions

**Every address can be read.** A memory has a byte everywhere, and a program that must not leave its
own areas has to be shown to keep to them. That is a statement about the addresses a program uses,
and the frame lemmas here (`loadWord_congr`, `storeWord_of_outside`) are what carries it over to the
contents.

**Words** have a number of bytes as a parameter, so that one model serves machines of several
widths. A value that does not fit its word is cut when it is stored, and only one that fits is read
back.

**Addresses do not wrap.** They are natural numbers. Where a machine has a last address, that an
area ends before it is a hypothesis of the user.
-/

namespace ByteMemory

/-- The contents of memory. -/
abbrev Memory := ℕ → UInt8

/-- The bytes from `a` to `a + n`, the last one excluded. -/
def Within (a n x : ℕ) : Prop := a ≤ x ∧ x < a + n

instance (a n x : ℕ) : Decidable (Within a n x) := inferInstanceAs (Decidable (_ ∧ _))

/-- Two areas without a common byte. -/
def Apart (a n b m : ℕ) : Prop := a + n ≤ b ∨ b + m ≤ a

instance (a n b m : ℕ) : Decidable (Apart a n b m) := inferInstanceAs (Decidable (_ ∨ _))

theorem Apart.not_within {a n b m x : ℕ} (h : Apart a n b m) (hx : Within a n x) :
    ¬ Within b m x := by
  obtain ⟨hlo, hhi⟩ := hx
  rintro ⟨hlo', hhi'⟩
  rcases h with h | h
  · exact absurd (Nat.le_trans h hlo') (by omega)
  · exact absurd (Nat.le_trans h hlo) (by omega)

/-! ### Words -/

/-- The number that the `w` bytes from `a` on hold, the lowest byte first. -/
def loadWord : ℕ → Memory → ℕ → ℕ
  | 0, _, _ => 0
  | w + 1, m, a => (m a).toNat + 256 * loadWord w m (a + 1)

/-- Storing a number in `w` bytes from `a` on. -/
def storeWord (w : ℕ) (m : Memory) (a v : ℕ) : Memory := fun x ↦
  if Within a w x then UInt8.ofNat (v / 256 ^ (x - a)) else m x

theorem storeWord_of_outside {w a v x : ℕ} {m : Memory} (hx : ¬ Within a w x) :
    storeWord w m a v x = m x := if_neg hx

/-- A word depends on its own bytes only. -/
theorem loadWord_congr (w : ℕ) : ∀ {m m' : Memory} {a : ℕ}, (∀ x, Within a w x → m x = m' x) →
    loadWord w m a = loadWord w m' a := by
  induction w with
  | zero => exact fun _ ↦ rfl
  | succ w ih =>
    intro m m' a h
    have hrest : loadWord w m (a + 1) = loadWord w m' (a + 1) :=
      ih fun x hx ↦ h x ⟨Nat.le_of_succ_le hx.1, by have := hx.2; omega⟩
    rw [loadWord, loadWord, h a ⟨Nat.le_refl _, by omega⟩, hrest]

/-- **A word that fits is read back.** -/
theorem loadWord_storeWord (w : ℕ) : ∀ {m : Memory} {a v : ℕ}, v < 256 ^ w →
    loadWord w (storeWord w m a v) a = v := by
  induction w with
  | zero => exact fun h ↦ (Nat.lt_one_iff.1 h).symm
  | succ w ih =>
    intro m a v hv
    have hlow : (storeWord (w + 1) m a v a).toNat = v % 256 := by
      rw [storeWord, if_pos ⟨Nat.le_refl _, by omega⟩, Nat.sub_self, Nat.pow_zero, Nat.div_one]
      exact UInt8.toNat_ofNat'
    -- the other bytes are those of `v / 256`
    have hhigh : loadWord w (storeWord (w + 1) m a v) (a + 1) =
        loadWord w (storeWord w m (a + 1) (v / 256)) (a + 1) := by
      refine loadWord_congr w fun x hx ↦ ?_
      have hx' : Within a (w + 1) x := ⟨Nat.le_of_succ_le hx.1, by have := hx.2; omega⟩
      have hsub : x - a = x - (a + 1) + 1 := by have := hx.1; omega
      rw [storeWord, if_pos hx', storeWord, if_pos hx, hsub, Nat.pow_succ', Nat.div_div_eq_div_mul]
    have hdiv : v / 256 < 256 ^ w := by
      rw [Nat.pow_succ'] at hv
      exact Nat.div_lt_of_lt_mul hv
    rw [loadWord, hlow, hhigh, ih hdiv, Nat.mod_add_div]

/-! ### Copies -/

/-- `memcpy(dst, src, n)`, for areas that do not overlap. -/
def memcpy (m : Memory) (dst src n : ℕ) : Option Memory :=
  if Apart dst n src n then some fun x ↦ if Within dst n x then m (src + (x - dst)) else m x
  else none

/-- **A copy**: the bytes of the destination are those of the source, and all others are kept. -/
theorem memcpy_apply {m : Memory} {dst src n : ℕ} (h : Apart dst n src n) :
    ∃ m', memcpy m dst src n = some m' ∧ (∀ k < n, m' (dst + k) = m (src + k)) ∧
      ∀ x, ¬ Within dst n x → m' x = m x := by
  refine ⟨_, if_pos h, fun k hk ↦ ?_, fun x hx ↦ if_neg hx⟩
  rw [if_pos ⟨Nat.le_add_right _ _, Nat.add_lt_add_left hk _⟩, Nat.add_sub_cancel_left]

/-! ### Filling -/

/-- `memset(dst, v, n)`. -/
def memset (m : Memory) (dst : ℕ) (v : UInt8) (n : ℕ) : Memory := fun x ↦
  if Within dst n x then v else m x

theorem memset_of_within {m : Memory} {dst n x : ℕ} {v : UInt8} (hx : Within dst n x) :
    memset m dst v n x = v := if_pos hx

theorem memset_of_outside {m : Memory} {dst n x : ℕ} {v : UInt8} (hx : ¬ Within dst n x) :
    memset m dst v n x = m x := if_neg hx

end ByteMemory
