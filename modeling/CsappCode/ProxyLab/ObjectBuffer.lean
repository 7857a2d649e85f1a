import CsappCode.ProxyLab.RelayLoop

/-!
# The copies into `object_buf`

The relay loop of `doit` copies every line behind the ones before it and compares the size with
`MAX_OBJECT_SIZE` only when the response is over.

* `length_copy_iff` says that the test of the model is the one that keeps a copy inside the array.
* `relayFits_iff_last` says that the last line decides: the copies move towards the end.
* `exists_foldlM_relayBody_iff` runs the body of the loop over the lines.
* `object_inside_iff` says which responses are relayed without an overrun.

## What the results rest on

**A line with a NUL** is written to the client whole and copied up to the NUL. The size grows by the
whole line, so the next copy starts behind the part that was not copied. A response whose last line
begins inside the array and has a NUL early enough is relayed without an overrun, although it is
longer than the array.

**However the response comes in.** The statement is for all segmentations by `read`, interruptions
included, and for all partial writes to the client. The loop is brought to the lines of the response
first, and only then are the copies looked at.

**Assumed** is that no read and no write fails. A failing one ends the process in the wrappers.
-/

namespace CsappCode.ProxyLab

open Csapp

/-- **A copy stays inside** just if the area is as long afterwards as it was. -/
theorem length_copy_iff {object : List UInt8} (hlen : object.length = maxObjectSize) {total : ℕ}
    (htotal : total ≤ maxObjectSize) (line : List UInt8) :
    (object.take total ++ strcpy (object.drop total) line).length = maxObjectSize ↔
      total + (cstr line).length < maxObjectSize := by
  rw [List.length_append, List.length_take, strcpy, List.length_append, List.length_cons,
    List.length_drop, List.length_drop, hlen]
  omega

/-! ### The last line -/

/-- There is room behind `total` bytes for the lines before the last one, and for the last one up to
its first NUL. -/
def LastLineFits (total : ℕ) (ls : List (List UInt8)) : Prop :=
  ∀ pre last, ls = pre ++ [last] → total + pre.flatten.length + (cstr last).length < maxObjectSize

/-- **The last line decides.** -/
theorem relayFits_iff_last {total : ℕ} {ls : List (List UInt8)} :
    RelayFits total ls ↔ LastLineFits total ls := by
  refine ⟨fun h pre last heq ↦ h pre last [] heq, ?_⟩
  rintro h pre line post rfl
  rcases List.eq_nil_or_concat post with rfl | ⟨post, last, rfl⟩
  · exact h pre line rfl
  · -- the line ends where the next one begins, which is not behind the last one
    have hlast := h (pre ++ line :: post) last (by simp)
    have hcstr := length_cstr_le line
    simp only [List.flatten_append, List.flatten_cons, List.length_append] at hlast
    omega

/-! ### The loop -/

/-- **The body runs over the lines just if they find room.** -/
theorem exists_foldlM_relayBody_iff (ls : List (List UInt8)) : ∀ {st : Relay}, .failed ∉ st.writes →
    ((∃ st', ls.foldlM relayBody st = some st') ↔ RelayFits st.total ls) := by
  induction ls with
  | nil =>
    exact fun {st} _ ↦ iff_of_true ⟨st, rfl⟩ fun pre line post heq ↦ absurd heq (by simp)
  | cons line ls ih =>
    intro st hws
    obtain ⟨ws, hwrite, hws'⟩ := rioWriten_spec st.writes line hws
    rw [relayFits_cons, List.foldlM_cons, relayBody, hwrite, Option.bind_some]
    split_ifs with hlt
    · rw [and_iff_right hlt]
      exact @ih ⟨st.toClient ++ line, ws, st.object.take st.total ++
        strcpy (st.object.drop st.total) line, st.total + line.length⟩ hws'
    · exact iff_of_false (by simp) fun h ↦ hlt h.1

/-- **The response is accumulated inside `object_buf` and relayed**: whatever `write` takes at a
time, no copy overruns the array, and in the end the client has the whole response. -/
def RelayedInside (rs : List ReadResult) : Prop :=
  ∀ ws objectBuf fuel, .failed ∉ ws → (streamBytes rs).length < fuel →
    ∃ st, relayLoop fuel rs ⟨[], ws, objectBuf, 0⟩ = some st ∧ st.toClient = streamBytes rs

/-- A response that is relayed finds room. -/
theorem RelayedInside.fits {rs : List ReadResult} (h : RelayedInside rs) (hrs : .failed ∉ rs) :
    RelayFits 0 (lines (streamBytes rs)) := by
  obtain ⟨st, hloop, -⟩ := h [] [] _ (by simp) (Nat.lt_succ_self _)
  have hfold := @readLines_eq_foldlM _ relayBody _ [] rs hrs (Nat.lt_succ_self _) ⟨[], [], [], 0⟩
  exact (@exists_foldlM_relayBody_iff _ ⟨[], [], [], 0⟩ (by simp)).1 ⟨st, hfold.symm.trans hloop⟩

/-- **Which responses are relayed inside the buffer**, however they are segmented: those whose last
line ends there, or has a NUL there. -/
theorem object_inside_iff {rs : List ReadResult} (hrs : .failed ∉ rs) :
    RelayedInside rs ↔ LastLineFits 0 (lines (streamBytes rs)) := by
  rw [← relayFits_iff_last]
  constructor
  · exact fun h ↦ h.fits hrs
  · intro hfits ws objectBuf fuel hws hfuel
    obtain ⟨ws', object, -, hloop⟩ :=
      @relayLoop_eq rs ⟨[], ws, objectBuf, 0⟩ fuel hrs hws hfuel hfits
    exact ⟨_, hloop, rfl⟩

/-- One line in one piece. -/
theorem object_inside_oneLine : RelayedInside [.data ⟨[97, 10], by simp, by decide⟩] ↔
    LastLineFits 0 (lines [97, 10]) :=
  @object_inside_iff [.data ⟨[97, 10], by simp, by decide⟩] (by simp)

/-- `n` bytes `a`, one at a time. -/
def letters (n : ℕ) : List ReadResult := List.replicate n (.data ⟨[97], by simp, by decide⟩)

theorem streamBytes_letters (n : ℕ) : streamBytes (letters n) = List.replicate n 97 := by
  induction n with
  | zero => rfl
  | succ n ih => exact congrArg (97 :: ·) ih

/-- A response without a NUL has to be smaller than the buffer. -/
theorem not_lastLineFits {response : List UInt8} (hfree : NulFree response)
    (hlen : maxObjectSize ≤ response.length) : ¬ LastLineFits 0 (lines response) := by
  intro h
  rcases List.eq_nil_or_concat (lines response) with hnil | ⟨pre, last, hlines⟩
  · have hflatten := flatten_lines response
    rw [hnil] at hflatten
    rw [← hflatten] at hlen
    exact absurd hlen (by decide)
  · rw [List.concat_eq_append] at hlines
    have hlast : NulFree last := fun b hb ↦ by
      refine hfree b ?_
      rw [← flatten_lines response, hlines, List.flatten_append]
      simp [hb]
    have hlt := h pre last hlines
    have hflatten := congrArg List.length (flatten_lines response)
    rw [hlines, List.flatten_append, List.length_append, List.flatten_singleton] at hflatten
    rw [cstr_eq_self hlast] at hlt
    omega

/-- A response of `MAX_OBJECT_SIZE` letters. -/
theorem fullBuffer_overrun : ¬ ∀ rs, .failed ∉ rs → RelayedInside rs := by
  intro h
  have hrs : .failed ∉ letters maxObjectSize := fun hmem ↦ by
    simpa using List.eq_of_mem_replicate hmem
  have hroom := (h _ hrs).fits hrs
  rw [streamBytes_letters, relayFits_iff_last] at hroom
  refine not_lastLineFits (fun b hb ↦ ?_) List.length_replicate.ge hroom
  rw [List.eq_of_mem_replicate hb]
  decide

end CsappCode.ProxyLab
