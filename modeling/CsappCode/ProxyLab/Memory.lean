import Mathlib.Data.List.TakeWhile
import Mathlib.Data.List.Infix
import Mathlib.Data.Nat.Notation

/-!
# Strings in memory

A `char *` is given by the bytes from where it points to the end of its area. The C string there
ends before the first NUL; `strcpy` copies that string and its NUL over the bytes of another area
and leaves the rest of it alone. An area whose list grows under `strcpy` has been overrun.

* `cstr` is the string, and `strcpy` the copy. `cstr_strcpy` reads back what was copied.
* `strstr` cuts a string at the first occurrence of a pattern. `FirstCut` says what this is, and
  `strstr_eq_some_iff` that it is what `strstr` finds.
* `strstr_byte` is the case of a single byte.
* `NulFree` are the lists that are strings as a whole.

## Conventions

**Positions** are given by the two parts of a list, in front of a place and behind it, and not by
indices. A search then returns both parts, and what a pointer points to is the second one.

**Uniqueness.** A first occurrence is unique (`FirstCut.unique`), so that a parser which searches
twice can be compared with a grammar that says what stands between the places.

**Bytes without a NUL** to the end of an area are no string. `cstr` is then the whole area, and a C
function would read on behind it; where that can happen a length is compared, and it counts as an
overrun.
-/

namespace CsappCode.ProxyLab

/-- The bytes before the first NUL. -/
def cstr (m : List UInt8) : List UInt8 := m.takeWhile (· ≠ 0)

/-- `strcpy(dst, src)`: what the area of `dst` holds afterwards. -/
def strcpy (dst src : List UInt8) : List UInt8 :=
  cstr src ++ 0 :: dst.drop ((cstr src).length + 1)

/-- A string as it lies in memory: no NUL among its bytes. -/
def NulFree (s : List UInt8) : Prop := ∀ b ∈ s, b ≠ 0

theorem nulFree_iff_notMem {s : List UInt8} : NulFree s ↔ 0 ∉ s :=
  ⟨fun h hmem ↦ h 0 hmem rfl, fun h b hb ↦ by
    rintro rfl
    exact h hb⟩

instance : DecidablePred NulFree := fun _ ↦ decidable_of_iff _ nulFree_iff_notMem.symm

theorem nulFree_append_iff {s t : List UInt8} : NulFree (s ++ t) ↔ NulFree s ∧ NulFree t :=
  List.forall_mem_append

theorem NulFree.append {s t : List UInt8} (hs : NulFree s) (ht : NulFree t) : NulFree (s ++ t) :=
  nulFree_append_iff.2 ⟨hs, ht⟩

theorem nulFree_cstr (m : List UInt8) : NulFree (cstr m) := fun _ hb ↦ by
  simpa using List.mem_takeWhile_imp hb

theorem cstr_eq_self {s : List UInt8} (hs : NulFree s) : cstr s = s :=
  List.takeWhile_eq_self_iff.2 fun b hb ↦ by simpa using hs b hb

theorem cstr_append_nul {s : List UInt8} (hs : NulFree s) (rest : List UInt8) :
    cstr (s ++ 0 :: rest) = s := by
  rw [cstr, List.takeWhile_append_of_pos fun b hb ↦ by simpa using hs b hb]
  simp

theorem length_cstr_le (m : List UInt8) : (cstr m).length ≤ m.length :=
  (List.takeWhile_prefix _).length_le

/-- After `strcpy` the two areas hold the same string. -/
@[simp] theorem cstr_strcpy (dst src : List UInt8) : cstr (strcpy dst src) = cstr src :=
  cstr_append_nul (nulFree_cstr src) _

/-- `strcpy` never shortens an area. -/
theorem length_le_length_strcpy (dst src : List UInt8) : dst.length ≤ (strcpy dst src).length := by
  rw [strcpy, List.length_append, List.length_cons, List.length_drop]
  omega

/-! ### Searching -/

/-- `pre` and `post` are what stands in `s` before and behind the first occurrence of `pat`. -/
structure FirstCut (pat s pre post : List UInt8) : Prop where
  eq_append : s = pre ++ (pat ++ post)
  first : ∀ k < pre.length, ¬ pat <+: s.drop k

/-- `strstr(s, pat)`: the bytes before the first occurrence, and the string from there on. -/
def strstr (pat : List UInt8) : List UInt8 → Option (List UInt8 × List UInt8)
  | [] => if pat = [] then some ([], []) else none
  | b :: bs =>
    if pat <+: b :: bs then some ([], b :: bs)
    else (strstr pat bs).map fun r ↦ (b :: r.1, r.2)

theorem strstr_eq_some_iff {pat s pre suf : List UInt8} :
    strstr pat s = some (pre, suf) ↔ ∃ post, suf = pat ++ post ∧ FirstCut pat s pre post := by
  induction s generalizing pre with
  | nil =>
    rw [strstr]
    split_ifs with hpat
    · subst hpat
      refine ⟨fun h ↦ ?_, ?_⟩
      · obtain ⟨rfl, rfl⟩ := Prod.mk.inj (Option.some.inj h)
        exact ⟨[], rfl, rfl, by simp⟩
      · rintro ⟨post, rfl, heq, -⟩
        obtain ⟨rfl, rfl⟩ := List.append_eq_nil_iff.1 heq.symm
        rfl
    · refine ⟨fun h ↦ absurd h (by simp), ?_⟩
      rintro ⟨post, -, heq, -⟩
      exact absurd (List.append_eq_nil_iff.1 (List.append_eq_nil_iff.1 heq.symm).2).1 hpat
  | cons b bs ih =>
    rw [strstr]
    split_ifs with hpat
    · constructor
      · intro h
        obtain ⟨rfl, rfl⟩ := Prod.mk.inj (Option.some.inj h)
        obtain ⟨post, hpost⟩ := hpat
        exact ⟨post, hpost.symm, hpost.symm, by simp⟩
      · rintro ⟨post, rfl, heq, hfirst⟩
        cases pre with
        | nil => rw [heq]; rfl
        | cons c pre => exact absurd hpat (hfirst 0 (by simp))
    · rw [Option.map_eq_some_iff]
      constructor
      · rintro ⟨⟨pre', suf'⟩, h, heq⟩
        obtain ⟨rfl, rfl⟩ := Prod.mk.inj heq
        obtain ⟨post, rfl, heq, hfirst⟩ := ih.1 h
        refine ⟨post, rfl, by rw [heq, List.cons_append], ?_⟩
        rintro (- | k) hk
        · exact hpat
        · exact hfirst k (by simpa using hk)
      · rintro ⟨post, rfl, heq, hfirst⟩
        cases pre with
        | nil => exact absurd ⟨post, heq.symm⟩ hpat
        | cons c pre =>
          obtain ⟨rfl, htail⟩ := List.cons.inj heq
          refine ⟨(pre, pat ++ post), ih.2 ⟨post, rfl, htail, fun k hk ↦ ?_⟩, rfl⟩
          exact hfirst (k + 1) (by simpa using hk)

/-- What stands before the first occurrence contains none. -/
theorem FirstCut.strstr_pre {pat s pre post : List UInt8} (h : FirstCut pat s pre post)
    (hpat : pat ≠ []) : strstr pat pre = none := by
  rcases hs : strstr pat pre with - | ⟨pre', suf'⟩
  · rfl
  · obtain ⟨post', -, hpre, -⟩ := strstr_eq_some_iff.1 hs
    have hlt : pre'.length < pre.length := by
      have := List.length_pos_iff.2 hpat
      rw [hpre, List.length_append, List.length_append]
      omega
    refine absurd ?_ (h.first pre'.length hlt)
    rw [h.eq_append, hpre, List.append_assoc, List.drop_left, List.append_assoc]
    exact List.prefix_append _ _

/-- For a single byte the first occurrence is the one with none before it. -/
theorem firstCut_singleton_iff {b : UInt8} {s pre post : List UInt8} :
    FirstCut [b] s pre post ↔ s = pre ++ b :: post ∧ b ∉ pre := by
  refine ⟨fun h ↦ ?_, ?_⟩
  · refine ⟨h.eq_append, fun hmem ↦ ?_⟩
    obtain ⟨k, hk, hb⟩ := List.getElem_of_mem hmem
    refine h.first k hk ?_
    rw [h.eq_append, List.drop_append_of_le_length hk.le, List.drop_eq_getElem_cons hk, hb]
    exact ⟨_, rfl⟩
  · rintro ⟨rfl, hpre⟩
    refine ⟨rfl, fun k hk hprefix ↦ hpre ?_⟩
    rw [List.drop_append_of_le_length hk.le, List.drop_eq_getElem_cons hk] at hprefix
    obtain ⟨rest, hrest⟩ := hprefix
    have hb : b = pre[k] := (List.cons.inj hrest).1
    exact hb ▸ List.getElem_mem hk

/-- A string is cut at the first occurrence of a pattern in one way only. -/
theorem FirstCut.unique {pat s pre pre' post post' : List UInt8} (h : FirstCut pat s pre post)
    (h' : FirstCut pat s pre' post') : pre = pre' ∧ post = post' := by
  have hcut := strstr_eq_some_iff.2 ⟨post, rfl, h⟩
  have hcut' := strstr_eq_some_iff.2 ⟨post', rfl, h'⟩
  obtain ⟨rfl, hpost⟩ := Prod.mk.inj (Option.some.inj (hcut.symm.trans hcut'))
  exact ⟨rfl, List.append_cancel_left hpost⟩

theorem cut_unique {b : UInt8} {pre pre' post post' : List UInt8} (hpre : b ∉ pre)
    (hpre' : b ∉ pre') (h : pre ++ b :: post = pre' ++ b :: post') : pre = pre' ∧ post = post' :=
  FirstCut.unique (firstCut_singleton_iff.2 ⟨rfl, hpre⟩) (firstCut_singleton_iff.2 ⟨h, hpre'⟩)

/-- **Searching for a byte**: it does not occur, or the string is cut at its first occurrence. -/
theorem strstr_byte (b : UInt8) (s : List UInt8) : (strstr [b] s = none ∧ b ∉ s) ∨
    ∃ pre post, s = pre ++ b :: post ∧ b ∉ pre ∧ strstr [b] s = some (pre, b :: post) := by
  by_cases hb : b ∈ s
  · obtain ⟨pre, post, rfl, hpre⟩ := List.eq_append_cons_of_mem hb
    exact .inr ⟨pre, post, rfl, hpre,
      strstr_eq_some_iff.2 ⟨post, rfl, firstCut_singleton_iff.2 ⟨rfl, hpre⟩⟩⟩
  · rcases h : strstr [b] s with - | ⟨pre, suf⟩
    · exact .inl ⟨rfl, hb⟩
    · obtain ⟨post, -, hcut⟩ := strstr_eq_some_iff.1 h
      exact absurd (hcut.eq_append ▸ by simp) hb

theorem strstr_isSome_iff {pat s : List UInt8} : (strstr pat s).isSome ↔ pat <:+: s := by
  induction s with
  | nil =>
    rw [strstr, List.infix_nil]
    split_ifs with h
    · exact iff_of_true rfl h
    · exact iff_of_false (by simp) h
  | cons b s ih =>
    rw [strstr, List.infix_cons_iff]
    split_ifs with h
    · exact iff_of_true rfl (.inl h)
    · rw [Option.isSome_map, ih, or_iff_right h]

end CsappCode.ProxyLab
