import CsappCode.Library.Loops
import Mathlib.LinearAlgebra.Matrix.Defs

/-!
# The transposes of `trans.c`

The loop nests of `transpose_submit`, and the plain transpose. A program works on the two arrays,
of which it may access only what lies inside their bounds; how often each cell of `B` is written is
recorded on the side. The sizes of the third nest are parameters, though `transpose_submit` runs it
on one shape only.

* `Copied R` says that exactly the cells in `R` have been copied, each of them once. It is the
  invariant of every loop, for the region that the loop has covered so far.
* `nest8_spec`, `nest4_spec` and `nest16_spec` are the three nests. The tails of the last one start
  from what the block loops leave in `i` and `j`; where no block fits, `j` is not set at all, and
  the tail that reads it makes no turn.
* `transposes_correct` collects them for 32-bit `int`s.

## Regions

Every loop is proved with one invariant, `Copied s₀ R`, and a step of it is a lemma about regions:
`Copied.write` adds a cell that has not been copied, `Copied.join` merges two blocks, and
`Copied.congr` forgets what lies outside the matrix. That each cell is written exactly once is then
that the blocks do not meet (the hypotheses `hfree`), and that `B` is the transpose that they cover
the matrix.

## What is undefined

An access outside the arrays, the variable `j` read before it is assigned, and an `int` that
overflows. So a theorem that gives a final state also says that none of these happens. The tests of
the 16-wide nest compute `i + 16` and `j + 16`; on the last fifteen sizes that an `int` can hold
they overflow (`nest16_eq_none`), and the nest has no result. With no more than 16 rows the column
test is not reached.
-/

namespace CsappCode.CacheLab

open Loops

/-! ### The arrays -/

/-- The memory of a transpose: the arrays, a count of the writes to each cell of `B`, and the local
variable `j`, which has no value before it is assigned one. -/
structure Arrays (M N : ℕ) where
  A : Matrix (Fin N) (Fin M) (BitVec 32)
  B : Matrix (Fin M) (Fin N) (BitVec 32)
  writes : Fin M → Fin N → ℕ
  j : Option ℕ

variable {M N : ℕ}

/-- `A[r][c]` -/
def load (r c : ℕ) : Prog (Arrays M N) (BitVec 32) :=
  fun s ↦ if h : r < N ∧ c < M then some (s.A ⟨r, h.1⟩ ⟨c, h.2⟩, s) else none

/-- The arrays after a write to a cell of `B`. -/
def Arrays.write (s : Arrays M N) (c : Fin M) (r : Fin N) (v : BitVec 32) : Arrays M N :=
  { s with
    B := fun c' r' ↦ if c' = c ∧ r' = r then v else s.B c' r'
    writes := fun c' r' ↦ if c' = c ∧ r' = r then s.writes c' r' + 1 else s.writes c' r' }

/-- `B[c][r] = v` -/
def store (c r : ℕ) (v : BitVec 32) : Prog (Arrays M N) Unit :=
  fun s ↦ if h : c < M ∧ r < N then some ((), s.write ⟨c, h.1⟩ ⟨r, h.2⟩ v) else none

/-! ### The source -/

/-- The body of the 8-wide nest. -/
def copy8 (k j : ℕ) : Prog (Arrays M N) Unit := do
  let a ← load k j
  let b ← load k (j + 1)
  let c ← load k (j + 2)
  let d ← load k (j + 3)
  let e ← load k (j + 4)
  let f ← load k (j + 5)
  let g ← load k (j + 6)
  let h ← load k (j + 7)
  store j k a
  store (j + 1) k b
  store (j + 2) k c
  store (j + 3) k d
  store (j + 4) k e
  store (j + 5) k f
  store (j + 6) k g
  store (j + 7) k h

/-- The body of the 4-wide nest. -/
def copy4 (k j : ℕ) : Prog (Arrays M N) Unit := do
  let a ← load k j
  let b ← load k (j + 1)
  let c ← load k (j + 2)
  let d ← load k (j + 3)
  store j k a
  store (j + 1) k b
  store (j + 2) k c
  store (j + 3) k d

/-- The body of the 16-wide nest. -/
def copy16 (k j : ℕ) : Prog (Arrays M N) Unit := do
  let a ← load k j
  let b ← load k (j + 1)
  let c ← load k (j + 2)
  let d ← load k (j + 3)
  let e ← load k (j + 4)
  let f ← load k (j + 5)
  let g ← load k (j + 6)
  let h ← load k (j + 7)
  store j k a
  store (j + 1) k b
  store (j + 2) k c
  store (j + 3) k d
  store (j + 4) k e
  store (j + 5) k f
  store (j + 6) k g
  store (j + 7) k h
  let a ← load k (j + 8)
  let b ← load k (j + 9)
  let c ← load k (j + 10)
  let d ← load k (j + 11)
  let e ← load k (j + 12)
  let f ← load k (j + 13)
  let g ← load k (j + 14)
  let h ← load k (j + 15)
  store (j + 8) k a
  store (j + 9) k b
  store (j + 10) k c
  store (j + 11) k d
  store (j + 12) k e
  store (j + 13) k f
  store (j + 14) k g
  store (j + 15) k h

/-- `for (k = i; k < i+w; ++k)` over the rows of a block. -/
def blockRows (intMax : ℕ) (w i : ℕ) (body : ℕ → Prog (Arrays M N) Unit) :
    Prog (Arrays M N) Unit := do
  let top ← int intMax (i + w)
  let _ ← forLoop intMax 0 top 1 body i

/-- The 8-wide nest. -/
def nest8 (intMax : ℕ) : Prog (Arrays M N) Unit := do
  let _ ← forLoop intMax 0 M 8 (fun i ↦ do
    let _ ← forLoop intMax 0 N 8 (fun j ↦ blockRows intMax 8 i fun k ↦ copy8 k j) 0) 0

/-- The 4-wide nest. -/
def nest4 (intMax : ℕ) : Prog (Arrays M N) Unit := do
  let _ ← forLoop intMax 0 M 4 (fun i ↦ do
    let _ ← forLoop intMax 0 N 4 (fun j ↦ blockRows intMax 4 i fun k ↦ copy4 k j) 0) 0

/-- `B[l][k] = A[k][l]` -/
def copyCell (k l : ℕ) : Prog (Arrays M N) Unit := do
  let v ← load k l
  store l k v

/-- What the loop over `j` leaves in it. -/
def setJ (j : ℕ) : Prog (Arrays M N) Unit := fun s ↦ some ((), { s with j := some j })

/-- Reading `j`, which is undefined before it is assigned. -/
def getJ : Prog (Arrays M N) ℕ := fun s ↦ s.j.map fun j ↦ (j, s)

/-- The 16-wide nest with the two tails. -/
def nest16 (intMax : ℕ) : Prog (Arrays M N) Unit := do
  let i ← forLoop intMax 16 N 16 (fun i ↦ do
    let j ← forLoop intMax 16 M 16 (fun j ↦ blockRows intMax 16 i fun k ↦ copy16 k j) 0
    setJ j) 0
  let _ ← forLoop intMax 0 N 1 (fun k ↦ do
    let _ ← forLoop intMax 0 M 1 (fun l ↦ copyCell k l) 0) i
  let _ ← forLoop intMax 0 i 1 (fun k ↦ do
    let j ← getJ
    let _ ← forLoop intMax 0 M 1 (fun l ↦ copyCell k l) j) 0

/-- `transpose_submit(M, N, A, B)`. -/
def transposeSubmit (intMax : ℕ) : Prog (Arrays M N) Unit := do
  if M = 32 ∧ N = 32 then nest8 intMax
  if M = 64 ∧ N = 64 then nest4 intMax
  if M = 61 ∧ N = 67 then nest16 intMax

/-- `trans(M, N, A, B)`. -/
def trans (intMax : ℕ) : Prog (Arrays M N) Unit := do
  let _ ← forLoop intMax 0 N 1 (fun i ↦ do
    let _ ← forLoop intMax 0 M 1 (fun j ↦ do
      let tmp ← load i j
      store j i tmp) 0) 0

/-- `correctTrans(M, N, A, B)` of `cachelab.c`. -/
def correctTrans (intMax : ℕ) : Prog (Arrays M N) Unit := do
  let _ ← forLoop intMax 0 N 1 (fun i ↦ do
    let _ ← forLoop intMax 0 M 1 (fun j ↦ do
      let tmp ← load i j
      store j i tmp) 0) 0

/-! ### Regions that have been copied -/

/-- Exactly the cells in `R` (rows of `A` first) have been copied since `s₀`, each of them once. -/
structure Copied (s₀ : Arrays M N) (R : ℕ → ℕ → Prop) (s : Arrays M N) : Prop where
  A_eq : s.A = s₀.A
  copied : ∀ (r : Fin N) (c : Fin M), R r c →
    s.B c r = s₀.A r c ∧ s.writes c r = s₀.writes c r + 1
  kept : ∀ (r : Fin N) (c : Fin M), ¬ R r c → s.B c r = s₀.B c r ∧ s.writes c r = s₀.writes c r

/-- The cells of the rows `i` to `i'` and the columns `j` to `j'`, the last ones excluded. -/
def Block (i i' j j' r c : ℕ) : Prop := i ≤ r ∧ r < i' ∧ j ≤ c ∧ c < j'

section Regions

variable {s₀ s : Arrays M N} {R R' : ℕ → ℕ → Prop}

theorem copied_start (s : Arrays M N) : Copied s (fun _ _ ↦ False) s where
  A_eq := rfl
  copied _ _ h := h.elim
  kept _ _ _ := ⟨rfl, rfl⟩

/-- Only the cells of the arrays matter. -/
theorem Copied.congr (h : Copied s₀ R s) (hR : ∀ r < N, ∀ c < M, (R r c ↔ R' r c)) :
    Copied s₀ R' s where
  A_eq := h.A_eq
  copied r c hrc := h.copied r c ((hR r r.isLt c c.isLt).2 hrc)
  kept r c hrc := h.kept r c fun h' ↦ hrc ((hR r r.isLt c c.isLt).1 h')

/-- Two blocks that make up a third one. -/
theorem Copied.join {B B' B'' : ℕ → ℕ → Prop}
    (h : Copied s₀ (fun r c ↦ (R r c ∨ B r c) ∨ B' r c) s)
    (hjoin : ∀ r c, B r c ∨ B' r c ↔ B'' r c) : Copied s₀ (fun r c ↦ R r c ∨ B'' r c) s :=
  h.congr fun r _ c _ ↦ by rw [or_assoc, hjoin]

/-- **One more cell**, which has not been copied yet. -/
theorem Copied.write (h : Copied s₀ R s) {r c : ℕ} (hr : r < N) (hc : c < M) (hfree : ¬ R r c) :
    Copied s₀ (fun r' c' ↦ R r' c' ∨ Block r (r + 1) c (c + 1) r' c')
      (s.write ⟨c, hc⟩ ⟨r, hr⟩ (s.A ⟨r, hr⟩ ⟨c, hc⟩)) where
  A_eq := h.A_eq
  copied r' c' hrc := by
    by_cases heq : c' = ⟨c, hc⟩ ∧ r' = ⟨r, hr⟩
    · obtain ⟨rfl, rfl⟩ := heq
      have hkept := h.kept ⟨r, hr⟩ ⟨c, hc⟩ hfree
      simp [Arrays.write, h.A_eq, hkept.2]
    · have hne : ¬ Block r (r + 1) c (c + 1) r' c' := by
        rintro ⟨hr₁, hr₂, hc₁, hc₂⟩
        exact heq ⟨Fin.ext (show (c' : ℕ) = c by omega), Fin.ext (show (r' : ℕ) = r by omega)⟩
      simpa only [Arrays.write, if_neg heq] using h.copied r' c' (hrc.resolve_right hne)
  kept r' c' hrc := by
    have heq : ¬ (c' = ⟨c, hc⟩ ∧ r' = ⟨r, hr⟩) := by
      rintro ⟨rfl, rfl⟩
      exact hrc (.inr ⟨le_rfl, Nat.lt_succ_self _, le_rfl, Nat.lt_succ_self _⟩)
    simpa only [Arrays.write, if_neg heq] using h.kept r' c' fun h' ↦ hrc (.inl h')

/-- The next cell of a row. -/
theorem Copied.write_next {k j d : ℕ}
    (h : Copied s₀ (fun r c ↦ R r c ∨ Block k (k + 1) j (j + d) r c) s) (hk : k < N)
    (hd : j + d < M) (hfree : ¬ R k (j + d)) :
    Copied s₀ (fun r c ↦ R r c ∨ Block k (k + 1) j (j + (d + 1)) r c)
      (s.write ⟨j + d, hd⟩ ⟨k, hk⟩ (s.A ⟨k, hk⟩ ⟨j + d, hd⟩)) := by
  refine (h.write hk hd ?_).join fun r c ↦ ?_
  · rintro (hR | hblock)
    · exact hfree hR
    · exact absurd hblock.2.2.2 (Nat.lt_irrefl _)
  · simp only [Block]
    omega

end Regions

/-! ### Rows and blocks -/

theorem load_run {r c : ℕ} (hr : r < N) (hc : c < M) (s : Arrays M N) :
    load r c s = some (s.A ⟨r, hr⟩ ⟨c, hc⟩, s) := dif_pos ⟨hr, hc⟩

theorem store_run {c r : ℕ} (hc : c < M) (hr : r < N) (v : BitVec 32) (s : Arrays M N) :
    store c r v s = some ((), s.write ⟨c, hc⟩ ⟨r, hr⟩ v) := dif_pos ⟨hc, hr⟩

/-- What the body of a block loop does: it copies `w` cells of row `k` from column `j` on. -/
def CopiesRow (w : ℕ) (body : ℕ → ℕ → Prog (Arrays M N) Unit) : Prop :=
  ∀ (s₀ : Arrays M N) (R : ℕ → ℕ → Prop) (k j : ℕ), k < N → j + w ≤ M →
    (∀ c, j ≤ c → c < j + w → ¬ R k c) →
      Ends (Copied s₀ R) (body k j)
        fun _ ↦ Copied s₀ fun r c ↦ R r c ∨ Block k (k + 1) j (j + w) r c

theorem copied_row_start {s₀ s : Arrays M N} {R : ℕ → ℕ → Prop} (h : Copied s₀ R s) (k j : ℕ) :
    Copied s₀ (fun r c ↦ R r c ∨ Block k (k + 1) j (j + 0) r c) s :=
  h.congr fun r _ c _ ↦ (or_iff_left fun hblock ↦ by
    have := hblock.2.2
    omega).symm

theorem copy4_copiesRow : CopiesRow (M := M) (N := N) 4 copy4 := by
  intro s₀ R k j hk hj hfree s hs
  have h₁ := (copied_row_start hs k j).write_next hk (by omega) (hfree _ (by omega) (by omega))
  have h₂ := h₁.write_next hk (by omega) (hfree _ (by omega) (by omega))
  have h₃ := h₂.write_next hk (by omega) (hfree _ (by omega) (by omega))
  have h₄ := h₃.write_next hk (by omega) (hfree _ (by omega) (by omega))
  refine ⟨(), _, ?_, h₄⟩
  rw [copy4, bind_run_of_eq (load_run hk (by omega) _), bind_run_of_eq (load_run hk (by omega) _),
    bind_run_of_eq (load_run hk (by omega) _), bind_run_of_eq (load_run hk (by omega) _),
    bind_run_of_eq (store_run (by omega) hk _ _), bind_run_of_eq (store_run (by omega) hk _ _),
    bind_run_of_eq (store_run (by omega) hk _ _)]
  exact store_run (by omega) hk _ _

theorem copy8_copiesRow : CopiesRow (M := M) (N := N) 8 copy8 := by
  intro s₀ R k j hk hj hfree s hs
  have h₁ := (copied_row_start hs k j).write_next hk (by omega) (hfree _ (by omega) (by omega))
  have h₂ := h₁.write_next hk (by omega) (hfree _ (by omega) (by omega))
  have h₃ := h₂.write_next hk (by omega) (hfree _ (by omega) (by omega))
  have h₄ := h₃.write_next hk (by omega) (hfree _ (by omega) (by omega))
  have h₅ := h₄.write_next hk (by omega) (hfree _ (by omega) (by omega))
  have h₆ := h₅.write_next hk (by omega) (hfree _ (by omega) (by omega))
  have h₇ := h₆.write_next hk (by omega) (hfree _ (by omega) (by omega))
  have h₈ := h₇.write_next hk (by omega) (hfree _ (by omega) (by omega))
  refine ⟨(), _, ?_, h₈⟩
  rw [copy8, bind_run_of_eq (load_run hk (by omega) _), bind_run_of_eq (load_run hk (by omega) _),
    bind_run_of_eq (load_run hk (by omega) _), bind_run_of_eq (load_run hk (by omega) _),
    bind_run_of_eq (load_run hk (by omega) _), bind_run_of_eq (load_run hk (by omega) _),
    bind_run_of_eq (load_run hk (by omega) _), bind_run_of_eq (load_run hk (by omega) _),
    bind_run_of_eq (store_run (by omega) hk _ _), bind_run_of_eq (store_run (by omega) hk _ _),
    bind_run_of_eq (store_run (by omega) hk _ _), bind_run_of_eq (store_run (by omega) hk _ _),
    bind_run_of_eq (store_run (by omega) hk _ _), bind_run_of_eq (store_run (by omega) hk _ _),
    bind_run_of_eq (store_run (by omega) hk _ _)]
  exact store_run (by omega) hk _ _

/-- The body of the 16-wide nest is that of the 8-wide one, twice. -/
theorem copy16_eq (k j : ℕ) :
    copy16 (M := M) (N := N) k j = (do copy8 k j; copy8 k (j + 8)) := by
  simp only [copy16, copy8, bind_assoc]

theorem copy16_copiesRow : CopiesRow (M := M) (N := N) 16 copy16 := by
  intro s₀ R k j hk hj hfree
  rw [copy16_eq]
  have hfirst := copy8_copiesRow s₀ R k j hk (by omega) fun c hc hc' ↦ hfree c hc (by omega)
  refine hfirst.bind fun _ ↦ ?_
  refine (copy8_copiesRow s₀ _ k (j + 8) hk (by omega) fun c hc hc' ↦ ?_).mono
    (fun _ h ↦ h) fun _ s h ↦ h.join fun r c ↦ ?_
  · rintro (hR | hblock)
    · exact hfree c (by omega) (by omega) hR
    · have := hblock.2.2.2
      omega
  · simp only [Block]
    omega

/-- **A block**, row by row. -/
theorem blockRows_spec {w : ℕ} {body : ℕ → ℕ → Prog (Arrays M N) Unit} (hbody : CopiesRow w body)
    {intMax : ℕ} {s₀ : Arrays M N} {R : ℕ → ℕ → Prop} {i j : ℕ} (hi : i + w ≤ N)
    (hj : j + w ≤ M) (hint : i + w ≤ intMax)
    (hfree : ∀ r c, Block i (i + w) j (j + w) r c → ¬ R r c) :
    Ends (Copied s₀ R) (blockRows intMax w i fun k ↦ body k j)
      fun _ ↦ Copied s₀ fun r c ↦ R r c ∨ Block i (i + w) j (j + w) r c := by
  refine (Ends.int hint).bind fun top ↦ Ends.assume fun htop ↦ ?_
  subst htop
  -- the rows before `k` have been copied
  have hloop := @Ends.forLoop _ intMax 0 (i + w) 1 (fun k ↦ body k j) i
    (fun k s ↦ (i ≤ k ∧ k ≤ i + w) ∧
      Copied s₀ (fun r c ↦ R r c ∨ Block i k j (j + w) r c) s) Nat.one_pos
    (fun k s h ↦ h.1.2.trans hint) (fun k s _ hk ↦ Nat.le_trans hk hint)
    (fun k hk ↦ Ends.assume fun hik ↦ ?_)
  · have hstart : ∀ s, Copied s₀ R s → (i ≤ i ∧ i ≤ i + w) ∧
        Copied s₀ (fun r c ↦ R r c ∨ Block i i j (j + w) r c) s :=
      fun s h ↦ ⟨⟨le_rfl, Nat.le_add_right _ _⟩, h.congr fun r _ c _ ↦
        (or_iff_left fun hblock ↦ Nat.not_lt_of_le hblock.1 hblock.2.1).symm⟩
    refine (hloop.mono hstart fun _ _ h ↦ h).bind fun k s h ↦ ⟨(), s, rfl, ?_⟩
    obtain ⟨hend, ⟨hik, hki⟩, hcopied⟩ := h
    obtain rfl : k = i + w := by omega
    exact hcopied
  · refine (hbody s₀ _ k j (by omega) hj fun c hc hc' ↦ ?_).mono (fun _ h ↦ h)
      fun _ s h ↦ ⟨by omega, h.join fun r c ↦ ?_⟩
    · rintro (hR | hblock)
      · exact hfree k c ⟨hik.1, by omega, hc, hc'⟩ hR
      · have := hblock.2.1
        omega
    · simp only [Block]
      omega

/-! ### The block loops -/

section Blocks

variable {w ahead : ℕ} {body : ℕ → ℕ → Prog (Arrays M N) Unit} {intMax : ℕ}
  {s₀ : Arrays M N} {R : ℕ → ℕ → Prop}

/-- What a block loop up to `bound` needs: a block that its test lets in ends by `top`, and no
integer it computes overflows. -/
structure Room (intMax : ℕ) (w ahead bound top : ℕ) : Prop where
  room : ∀ x, w ∣ x → x + ahead < bound → x + w ≤ top
  top_le : top ≤ bound
  fits : top + ahead ≤ intMax

/-- **A row of blocks.** -/
theorem blockColumns_spec (s₀ : Arrays M N) (R : ℕ → ℕ → Prop) (hbody : CopiesRow w body)
    (hw : 0 < w) {top i : ℕ} (hroom : Room intMax w ahead M top) (hi : i + w ≤ N)
    (hint : i + w ≤ intMax) (hfree : ∀ r c, Block i (i + w) 0 M r c → ¬ R r c) :
    Ends (Copied s₀ R)
      (forLoop intMax ahead M w (fun j ↦ blockRows intMax w i fun k ↦ body k j) 0)
      fun j s ↦ (M ≤ j + ahead ∧ w ∣ j ∧ j ≤ top) ∧
        Copied s₀ (fun r c ↦ R r c ∨ Block i (i + w) 0 j r c) s := by
  have hloop := @Ends.forLoop _ intMax ahead M w (fun j ↦ blockRows intMax w i fun k ↦ body k j) 0
    (fun j s ↦ (w ∣ j ∧ j ≤ top) ∧ Copied s₀ (fun r c ↦ R r c ∨ Block i (i + w) 0 j r c) s) hw
    (fun j s h ↦ (Nat.add_le_add_right h.1.2 _).trans hroom.fits)
    (fun j s h hj ↦ (Nat.le_add_right_of_le (hroom.room j h.1.1 hj)).trans hroom.fits)
    (fun j hj ↦ Ends.assume fun hdvd ↦ ?_)
  · refine hloop.mono (fun s h ↦ ⟨⟨Nat.dvd_zero w, Nat.zero_le _⟩, h.congr fun r _ c _ ↦ ?_⟩)
      fun j s h ↦ ⟨⟨h.1, h.2.1⟩, h.2.2⟩
    exact (or_iff_left fun hblock ↦ Nat.not_lt_zero _ hblock.2.2.2).symm
  · have hlast := hroom.room j hdvd.1 hj
    have htop := hroom.top_le
    refine (blockRows_spec hbody hi (hlast.trans htop) hint fun r c hblock ↦ ?_).mono
      (fun _ h ↦ h) fun _ s h ↦
        ⟨⟨Nat.dvd_add hdvd.1 (Nat.dvd_refl w), hlast⟩, h.join fun r c ↦ ?_⟩
    · obtain ⟨hir, hri, hjc, hcj⟩ := hblock
      rintro (hR | hcopied)
      · exact hfree r c ⟨hir, hri, Nat.zero_le _, by omega⟩ hR
      · exact absurd hcopied.2.2.2 (by omega)
    · simp only [Block]
      omega

/-- **All blocks**, when every row of them ends at the column `J`. What is done after a row leaves
the arrays as they are, and a state of `Q`. -/
theorem blocks_spec (s₀ : Arrays M N) (J : ℕ) (after : ℕ → Prog (Arrays M N) Unit)
    (Q : Arrays M N → Prop) (hbody : CopiesRow w body) (hw : 0 < w) {topM topN : ℕ}
    (hM : ahead < N → Room intMax w ahead M topM) (hN : Room intMax w ahead N topN)
    (hJ : ∀ j, M ≤ j + ahead → w ∣ j → j ≤ topM → j = J)
    (hafter : ∀ R, Ends (Copied s₀ R) (after J) fun _ s ↦ Copied s₀ R s ∧ Q s) :
    Ends (Copied s₀ fun _ _ ↦ False)
      (forLoop intMax ahead N w (fun i ↦ do
        let j ← forLoop intMax ahead M w (fun j ↦ blockRows intMax w i fun k ↦ body k j) 0
        after j) 0)
      fun i s ↦ (N ≤ i + ahead ∧ w ∣ i ∧ i ≤ topN) ∧ Copied s₀ (Block 0 i 0 J) s ∧
        (0 < i → Q s) := by
  have hloop := @Ends.forLoop _ intMax ahead N w
    (fun i ↦ do
      let j ← forLoop intMax ahead M w (fun j ↦ blockRows intMax w i fun k ↦ body k j) 0
      after j) 0
    (fun i s ↦ (w ∣ i ∧ i ≤ topN) ∧ Copied s₀ (Block 0 i 0 J) s ∧ (0 < i → Q s)) hw
    (fun i s h ↦ (Nat.add_le_add_right h.1.2 _).trans hN.fits)
    (fun i s h hi ↦ (Nat.le_add_right_of_le (hN.room i h.1.1 hi)).trans hN.fits)
    (fun i hi ↦ Ends.assume fun hdvd ↦ ?_)
  · refine hloop.mono (fun s h ↦ ⟨⟨Nat.dvd_zero w, Nat.zero_le _⟩, h.congr fun r _ c _ ↦ ?_, ?_⟩)
      fun i s h ↦ ⟨⟨h.1, h.2.1⟩, h.2.2⟩
    · exact ⟨False.elim, fun hblock ↦ Nat.not_lt_zero _ hblock.2.1⟩
    · exact fun h ↦ absurd h (Nat.lt_irrefl 0)
  · have hlast := hN.room i hdvd.1 hi
    have htop := hN.top_le
    have hrow := blockColumns_spec s₀ (Block 0 i 0 J) hbody hw (hM (by omega))
      (hlast.trans htop) ((Nat.le_add_right_of_le hlast).trans hN.fits)
      fun r c hblock hcopied ↦ Nat.not_lt_of_le hblock.1 hcopied.2.1
    refine (hrow.mono (fun s h ↦ h.1) fun _ _ h ↦ h).bind fun j ↦ Ends.assume fun hj ↦ ?_
    obtain rfl := hJ j hj.1 hj.2.1 hj.2.2
    have hdvd' : w ∣ i + w := Nat.dvd_add hdvd.1 (Nat.dvd_refl w)
    refine (hafter _).mono (fun _ h ↦ h) fun _ s h ↦ ⟨⟨hdvd', hlast⟩, ?_, ?_⟩
    · refine h.1.congr fun r _ c _ ↦ ?_
      simp only [Block]
      omega
    · exact fun _ ↦ h.2

end Blocks

/-! ### Cell by cell -/

section Cells

variable {intMax : ℕ} {s₀ : Arrays M N} {R : ℕ → ℕ → Prop}

/-- The loops that copy cell by cell, from row `i` and from the column `start` gives. -/
def copyRows (intMax : ℕ) (hi : ℕ) (start : Prog (Arrays M N) ℕ) (i : ℕ) :
    Prog (Arrays M N) ℕ :=
  forLoop intMax 0 hi 1 (fun k ↦ do
    let j ← start
    let _ ← forLoop intMax 0 M 1 (fun l ↦ copyCell k l) j) i

theorem copyCell_spec {k l : ℕ} {v : Option ℕ} (hk : k < N) (hl : l < M) (hfree : ¬ R k l) :
    Ends (fun s ↦ Copied s₀ R s ∧ s.j = v) (copyCell k l)
      fun _ s ↦ Copied s₀ (fun r c ↦ R r c ∨ Block k (k + 1) l (l + 1) r c) s ∧ s.j = v := by
  intro s hs
  rw [copyCell, bind_run_of_eq (load_run hk hl s)]
  exact ⟨(), _, store_run hl hk _ _, hs.1.write hk hl hfree, hs.2⟩

/-- The cells of one row, from column `lo` on. -/
theorem copyCells_spec (s₀ : Arrays M N) (R : ℕ → ℕ → Prop) (k : ℕ) (v : Option ℕ) {lo : ℕ}
    (hk : k < N) (hlo : lo ≤ M) (hM : M ≤ intMax) (hfree : ∀ l, lo ≤ l → ¬ R k l) :
    Ends (fun s ↦ Copied s₀ R s ∧ s.j = v) (forLoop intMax 0 M 1 (fun l ↦ copyCell k l) lo)
      fun _ s ↦ Copied s₀ (fun r c ↦ R r c ∨ Block k (k + 1) lo M r c) s ∧ s.j = v := by
  have hloop := @Ends.forLoop _ intMax 0 M 1 (fun l ↦ copyCell k l) lo
    (fun l s ↦ (lo ≤ l ∧ l ≤ M) ∧
      Copied s₀ (fun r c ↦ R r c ∨ Block k (k + 1) lo l r c) s ∧ s.j = v) Nat.one_pos
    (fun l s h ↦ h.1.2.trans hM) (fun l s _ hl ↦ Nat.le_trans hl hM)
    (fun l hl ↦ Ends.assume fun hlo' ↦ ?_)
  · refine hloop.mono (fun s h ↦ ⟨⟨le_rfl, hlo⟩, h.1.congr fun r _ c _ ↦ ?_, h.2⟩) fun l s h ↦ ?_
    · exact (or_iff_left fun hblock ↦ Nat.not_lt_of_le hblock.2.2.1 hblock.2.2.2).symm
    · obtain ⟨hend, ⟨-, hl⟩, hcopied⟩ := h
      obtain rfl : l = M := by omega
      exact hcopied
  · refine (copyCell_spec hk hl ?_).mono (fun _ h ↦ h) fun _ s h ↦
      ⟨⟨by omega, hl⟩, h.1.join fun r c ↦ ?_, h.2⟩
    · rintro (hR | hblock)
      · exact hfree l hlo'.1 hR
      · exact Nat.lt_irrefl _ hblock.2.2.2
    · simp only [Block]
      omega

/-- **The rows from `i` to `hi`**, from column `lo` on. If there are none, the column is not
needed. -/
theorem copyRows_spec (start : Prog (Arrays M N) ℕ) (i hi lo : ℕ) (v : Option ℕ) (hi' : hi ≤ N)
    (hile : i ≤ hi) (hstart : i < hi → lo ≤ M ∧ ∀ s, s.j = v → start s = some (lo, s))
    (hM : M ≤ intMax) (hN : N ≤ intMax)
    (hfree : ∀ k l, i ≤ k → k < hi → lo ≤ l → ¬ R k l) :
    Ends (fun s ↦ Copied s₀ R s ∧ s.j = v) (copyRows intMax hi start i)
      fun _ s ↦ Copied s₀ (fun r c ↦ R r c ∨ Block i hi lo M r c) s ∧ s.j = v := by
  have hloop := @Ends.forLoop _ intMax 0 hi 1
    (fun k ↦ do
      let j ← start
      let _ ← forLoop intMax 0 M 1 (fun l ↦ copyCell k l) j) i
    (fun k s ↦ (i ≤ k ∧ k ≤ hi) ∧
      Copied s₀ (fun r c ↦ R r c ∨ Block i k lo M r c) s ∧ s.j = v) Nat.one_pos
    (fun k s h ↦ (h.1.2.trans hi').trans hN) (fun k s _ hk ↦ (Nat.le_trans hk hi').trans hN)
    (fun k hk ↦ Ends.assume fun hik ↦ ?_)
  · refine hloop.mono (fun s h ↦ ⟨⟨le_rfl, hile⟩, h.1.congr fun r _ c _ ↦ ?_, h.2⟩) fun k s h ↦ ?_
    · exact (or_iff_left fun hblock ↦ Nat.not_lt_of_le hblock.1 hblock.2.1).symm
    · obtain ⟨hend, ⟨-, hki⟩, hcopied⟩ := h
      obtain rfl : k = hi := by omega
      exact hcopied
  · obtain ⟨hlo, hrun⟩ := hstart (by omega)
    have hrow := copyCells_spec s₀ (fun r c ↦ R r c ∨ Block i k lo M r c) k v (by omega) hlo hM
      (fun l hl h ↦ by
        rcases h with hR | hblock
        · exact hfree k l hik.1 hk hl hR
        · exact Nat.lt_irrefl _ hblock.2.1)
    intro s hs
    obtain ⟨a, s', hinner, hs'⟩ := hrow s hs
    rw [bind_run_of_eq (hrun s hs.2), bind_run_of_eq hinner]
    refine ⟨(), s', rfl, ⟨by omega, hk⟩, hs'.1.join fun r c ↦ ?_, hs'.2⟩
    simp only [Block]
    omega

end Cells

/-! ### The nests -/

/-- `B` is the transpose, every cell of it has been written once, and `A` is as it was. -/
structure Transposed (s₀ s : Arrays M N) : Prop where
  A_eq : s.A = s₀.A
  B_eq : s.B = s₀.A.transpose
  once : ∀ c r, s.writes c r = s₀.writes c r + 1

theorem Copied.transposed {s₀ s : Arrays M N} {R : ℕ → ℕ → Prop} (h : Copied s₀ R s)
    (hR : ∀ r < N, ∀ c < M, R r c) : Transposed s₀ s where
  A_eq := h.A_eq
  B_eq := by
    funext c r
    exact (h.copied r c (hR r r.isLt c c.isLt)).1
  once c r := (h.copied r c (hR r r.isLt c c.isLt)).2

/-- Blocks that tile a square matrix. -/
theorem room_of_dvd {intMax : ℕ} {w n : ℕ} (hn : w ∣ n) (hfits : n ≤ intMax) :
    Room intMax w 0 n n where
  room x hx hlt := by
    obtain ⟨a, rfl⟩ := hx
    obtain ⟨b, rfl⟩ := hn
    have hab : a < b := Nat.lt_of_mul_lt_mul_left (a := w) (by omega)
    rw [← Nat.mul_succ]
    exact Nat.mul_le_mul_left w hab
  top_le := le_rfl
  fits := hfits

/-- **The nest over a square matrix**, for any body that copies a row of its block. -/
theorem square_spec {intMax : ℕ} {w n : ℕ} {body : ℕ → ℕ → Prog (Arrays n n) Unit}
    (hbody : CopiesRow w body) (hw : 0 < w) (hn : w ∣ n) (hfits : n ≤ intMax)
    (s : Arrays n n) :
    ∃ s', (do
      let _ ← forLoop intMax 0 n w (fun i ↦ do
        let _ ← forLoop intMax 0 n w (fun j ↦ blockRows intMax w i fun k ↦ body k j) 0) 0 :
          Prog (Arrays n n) Unit) s = some ((), s') ∧ Transposed s s' := by
  have hroom := room_of_dvd hn hfits
  have hblocks := blocks_spec s n (fun _ ↦ pure ()) (fun _ ↦ True) hbody hw (fun _ ↦ hroom) hroom
    (fun j hj _ hle ↦ by omega) (fun R s' hs' ↦ ⟨(), s', rfl, hs', trivial⟩)
  obtain ⟨i, s', hrun, ⟨hi, -, hle⟩, hcopied, -⟩ := hblocks s (copied_start s)
  obtain rfl : i = n := by omega
  refine ⟨s', bind_run_of_eq hrun, hcopied.transposed fun r hr c hc ↦ ?_⟩
  exact ⟨Nat.zero_le _, hr, Nat.zero_le _, hc⟩

theorem nest8_spec {intMax : ℕ} {n : ℕ} (hn : 8 ∣ n) (hfits : n ≤ intMax)
    (s : Arrays n n) : ∃ s', nest8 intMax s = some ((), s') ∧ Transposed s s' :=
  square_spec copy8_copiesRow (by decide) hn hfits s

theorem nest4_spec {intMax : ℕ} {n : ℕ} (hn : 4 ∣ n) (hfits : n ≤ intMax)
    (s : Arrays n n) : ∃ s', nest4 intMax s = some ((), s') ∧ Transposed s s' :=
  square_spec copy4_copiesRow (by decide) hn hfits s

/-- The tails of the third nest are the loops that copy cell by cell. -/
theorem nest16_eq (intMax : ℕ) : nest16 (M := M) (N := N) intMax = (do
    let i ← forLoop intMax 16 N 16 (fun i ↦ do
      let j ← forLoop intMax 16 M 16 (fun j ↦ blockRows intMax 16 i fun k ↦ copy16 k j) 0
      setJ j) 0
    let _ ← copyRows intMax N (pure 0) i
    let _ ← copyRows intMax i getJ 0) := rfl

/-- Blocks in front of a tail. -/
theorem room_of_tail {intMax : ℕ} {n : ℕ} (hn : 1 ≤ n) (hfits : n + 15 ≤ intMax) :
    Room intMax 16 16 n (n - 1) where
  room x _ hlt := Nat.le_sub_one_of_lt hlt
  top_le := Nat.sub_le n 1
  fits := by omega

/-- **The 16-wide nest with its tails**, for all sizes at which its tests do not overflow. Without a
row of blocks the column loop is not tested. -/
theorem nest16_spec {intMax : ℕ} (hM : 1 ≤ M) (hN : 1 ≤ N) (hfM : M ≤ intMax)
    (hfitsM : 16 < N → M + 15 ≤ intMax) (hfitsN : N + 15 ≤ intMax) (s : Arrays M N) :
    ∃ s', nest16 intMax s = some ((), s') ∧ Transposed s s' := by
  -- the column at which every row of blocks ends
  obtain ⟨J, hJ⟩ : ∃ J, J = 16 * ((M - 1) / 16) := ⟨_, rfl⟩
  have hblocks := blocks_spec s J setJ (fun s' ↦ s'.j = some J)
    copy16_copiesRow (by decide) (fun h ↦ room_of_tail hM (hfitsM h)) (room_of_tail hN hfitsN)
    (fun j hj hdvd hle ↦ by omega)
    (fun R s' hs' ↦ ⟨(), _, rfl, ⟨hs'.A_eq, hs'.copied, hs'.kept⟩, rfl⟩)
  obtain ⟨i, s₁, hrun₁, ⟨hi, -, hle⟩, hcopied₁, hj₁⟩ := hblocks s (copied_start s)
  have hfN : N ≤ intMax := (Nat.le_add_right _ _).trans hfitsN
  obtain ⟨_, s₂, hrun₂, hcopied₂, hj₂⟩ := copyRows_spec (pure 0) i N 0 s₁.j
    le_rfl (by omega) (fun _ ↦ ⟨Nat.zero_le _, fun _ _ ↦ rfl⟩) hfM hfN
    (fun k l hk _ _ hblock ↦ Nat.not_lt_of_le hk hblock.2.1) s₁ ⟨hcopied₁, rfl⟩
  -- when there are rows in front of the first tail, a block loop has set `j`
  obtain ⟨_, s₃, hrun₃, hcopied₃, -⟩ := copyRows_spec getJ 0 i J s₁.j
    (by omega) (Nat.zero_le _)
    (fun hpos ↦ ⟨by omega, fun s' hs' ↦ by rw [getJ, hs', hj₁ hpos]; rfl⟩) hfM hfN
    (fun k l _ hk hl h ↦ by
      rcases h with hblock | hblock
      · exact Nat.not_lt_of_le hl hblock.2.2.2
      · exact Nat.not_lt_of_le hblock.1 hk) s₂ ⟨hcopied₂, hj₂⟩
  refine ⟨s₃, ?_, hcopied₃.transposed fun r hr c hc ↦ ?_⟩
  · rw [nest16_eq, bind_run_of_eq hrun₁, bind_run_of_eq hrun₂, bind_run_of_eq hrun₃]
    rfl
  · simp only [Block]
    omega

/-- **The plain transpose.** -/
theorem trans_spec {intMax : ℕ} (hfitsM : M ≤ intMax) (hfitsN : N ≤ intMax)
    (s : Arrays M N) : ∃ s', trans intMax s = some ((), s') ∧ Transposed s s' := by
  obtain ⟨_, s', hrun, hcopied, -⟩ := @copyRows_spec M N intMax s (fun _ _ ↦ False) (pure 0) 0 N 0
    s.j le_rfl (Nat.zero_le _) (fun _ ↦ ⟨Nat.zero_le _, fun _ _ ↦ rfl⟩) hfitsM hfitsN
    (fun _ _ _ _ _ h ↦ h) s ⟨copied_start s, rfl⟩
  refine ⟨s', bind_run_of_eq hrun, hcopied.transposed fun r hr c hc ↦ .inr ?_⟩
  exact ⟨Nat.zero_le _, hr, Nat.zero_le _, hc⟩

theorem correctTrans_eq_trans (intMax : ℕ) :
    correctTrans (M := M) (N := N) intMax = trans intMax := rfl

/-! ### The shapes -/

/-- The shapes on which `transpose_submit` is dispatched. -/
def shapes : List (ℕ × ℕ) := [(32, 32), (64, 64), (61, 67)]

/-- On each of them it runs one nest, which fits it. -/
theorem transposeSubmit_spec {intMax : ℕ} (hfits : 82 ≤ intMax) :
    ∀ shape ∈ shapes, ∀ s : Arrays shape.1 shape.2,
      ∃ s', transposeSubmit intMax s = some ((), s') ∧ Transposed s s' := by
  intro shape hshape
  simp only [shapes, List.mem_cons, List.not_mem_nil, or_false] at hshape
  rcases hshape with rfl | rfl | rfl
  · intro s
    obtain ⟨s', hrun, h⟩ := nest8_spec (n := 32) (by decide) (hfits.trans' (by decide)) s
    exact ⟨s', bind_run_of_eq hrun, h⟩
  · intro s
    obtain ⟨s', hrun, h⟩ := nest4_spec (n := 64) (by decide) (hfits.trans' (by decide)) s
    exact ⟨s', bind_run_of_eq hrun, h⟩
  · exact fun s ↦ nest16_spec (by decide) (by decide) (by omega) (fun _ ↦ by omega) (by omega) s

/-- `2 ^ 31 - 1`. -/
def intMax32 : ℕ := 2147483647

/-- **The optimised transposes are transposes**, with 32-bit `int`s. The 8-wide nest on the square
matrices of a size divisible by 8, the 4-wide nest on those of a size divisible by 4, and the
16-wide nest with its tails on matrices of any size for which its tests do not overflow access the
arrays within their bounds, write every cell of `B` once, leave `A` alone and leave its transpose in
`B`. On the three shapes on which it is dispatched, `transpose_submit` computes the same `B` as
`trans` and `correctTrans`. -/
theorem transposes_correct :
    (∀ n ≤ intMax32, 8 ∣ n → ∀ s : Arrays n n,
      ∃ s', nest8 intMax32 s = some ((), s') ∧ Transposed s s') ∧
    (∀ n ≤ intMax32, 4 ∣ n → ∀ s : Arrays n n,
      ∃ s', nest4 intMax32 s = some ((), s') ∧ Transposed s s') ∧
    (∀ M N, 1 ≤ M → M ≤ intMax32 → 1 ≤ N → N + 15 ≤ intMax32 → (16 < N → M + 15 ≤ intMax32) →
      ∀ s : Arrays M N, ∃ s', nest16 intMax32 s = some ((), s') ∧ Transposed s s') ∧
    ∀ shape ∈ shapes, ∀ s : Arrays shape.1 shape.2, ∃ s₁ s₂ s₃,
      transposeSubmit intMax32 s = some ((), s₁) ∧ trans intMax32 s = some ((), s₂) ∧
      correctTrans intMax32 s = some ((), s₃) ∧ Transposed s s₁ ∧
      s₁.B = s₂.B ∧ s₁.B = s₃.B := by
  refine ⟨fun n hle hn s ↦ nest8_spec hn hle s, fun n hle hn s ↦ nest4_spec hn hle s,
    fun M N hM hleM hN hleN hrows s ↦ nest16_spec hM hN hleM hrows hleN s, fun shape hshape s ↦ ?_⟩
  have hfits : shape.1 ≤ intMax32 ∧ shape.2 ≤ intMax32 := by
    simp only [shapes, List.mem_cons, List.not_mem_nil, or_false] at hshape
    rcases hshape with rfl | rfl | rfl <;> decide
  obtain ⟨s₁, hrun₁, h₁⟩ := transposeSubmit_spec (by decide : 82 ≤ intMax32) shape hshape s
  obtain ⟨s₂, hrun₂, h₂⟩ := trans_spec hfits.1 hfits.2 s
  have hrun₃ : correctTrans intMax32 s = some ((), s₂) := by rw [correctTrans_eq_trans, hrun₂]
  exact ⟨s₁, s₂, s₂, hrun₁, hrun₂, hrun₃, h₁, h₁.B_eq.trans h₂.B_eq.symm,
    h₁.B_eq.trans h₂.B_eq.symm⟩

/-- Distinct numbers in `A`, and zeros in `B`. -/
def numbered (M N : ℕ) : Arrays M N where
  A r c := BitVec.ofNat 32 (r * M + c)
  B _ _ := 0
  writes _ _ := 0
  j := none

/-- The third nest on a matrix of one column, where `j` is left at 0, and on one of five rows, where
it is never set. -/
theorem transposes_correct_numbered :
    (∃ s', nest8 intMax32 (numbered 16 16) = some ((), s') ∧ Transposed (numbered 16 16) s') ∧
    (∃ s', nest4 intMax32 (numbered 12 12) = some ((), s') ∧ Transposed (numbered 12 12) s') ∧
    (∃ s', nest16 intMax32 (numbered 1 40) = some ((), s') ∧ Transposed (numbered 1 40) s') ∧
    (∃ s', nest16 intMax32 (numbered 7 5) = some ((), s') ∧ Transposed (numbered 7 5) s') ∧
    ∃ s₁ s₂ s₃, transposeSubmit intMax32 (numbered 61 67) = some ((), s₁) ∧
      trans intMax32 (numbered 61 67) = some ((), s₂) ∧
      correctTrans intMax32 (numbered 61 67) = some ((), s₃) ∧
      Transposed (numbered 61 67) s₁ ∧ s₁.B = s₂.B ∧ s₁.B = s₃.B := by
  obtain ⟨h8, h4, h16, hshapes⟩ := transposes_correct
  exact ⟨h8 16 (by decide) (by decide) _, h4 12 (by decide) (by decide) _,
    h16 1 40 (by decide) (by decide) (by decide) (by decide) (fun _ ↦ by decide) _,
    h16 7 5 (by decide) (by decide) (by decide) (by decide) (fun _ ↦ by decide) _,
    hshapes (61, 67) (by decide) (numbered 61 67)⟩

/-! ### Sizes at the end of the range -/

/-- **The test of the 16-wide nest overflows** on the last fifteen sizes: the last value of `i` is
the last multiple of 16 that is an `int`, and the test adds 16 to it. -/
theorem nest16_eq_none {M N : ℕ} (hN : intMax32 < N + 15) (s : Arrays M N) :
    nest16 intMax32 s = none := by
  rcases hrun : nest16 intMax32 s with - | r
  · rfl
  · rw [nest16, bind_run] at hrun
    obtain ⟨⟨i, s'⟩, hloop, -⟩ := Option.bind_eq_some_iff.1 hrun
    obtain ⟨n, rfl, hend, hfits⟩ := exists_of_forLoop_eq_some hloop
    rw [intMax32] at hN hfits
    omega

/-- The smallest of these sizes, with a single column. -/
theorem nest16_overflows : ¬ ∀ M N, 1 ≤ M → M ≤ intMax32 → 1 ≤ N → N ≤ intMax32 →
    ∀ s : Arrays M N, ∃ s', nest16 intMax32 s = some ((), s') ∧ Transposed s s' := by
  intro hall
  obtain ⟨s', hrun, -⟩ := hall 1 2147483633 (by decide) (by decide) (by decide) (by decide)
    (numbered 1 2147483633)
  rw [nest16_eq_none (by decide)] at hrun
  exact absurd hrun (by simp)

end CsappCode.CacheLab
