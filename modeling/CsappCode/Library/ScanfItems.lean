import CsappCode.Library.Scanf
import Mathlib.Data.List.TakeWhile

/-!
# What an integer conversion reads

The input items of the integer conversions, described without saying how they are found: an optional
sign, a prefix `0x` where the base has one, and digits, none of which could be longer.

* `exists_integerItem`: every input begins with such an item, if an empty one.
* `IntegerItem.readInteger_eq`: it is what is read.
* `NumberText` adds the white space in front, and says whether there is a number at all.
* `scanfFrom_number` and `scanfFrom_noNumber` execute a directive on such a text.

## Why the items are described apart

**An interpreter reads from left to right** and has to decide at each character. A reader of a
format wants to know what a text may look like, and in what way it can go wrong. `IntegerItem` is
this second view, by the parts of the text and what may not follow them, and the two are connected
by one theorem in each direction.

**The longest item.** That none of the parts could be longer is what makes the item unique. It is
stated by the character behind it: no digit of the base, and behind a lone zero no letter of a
prefix.

**Texts that are no numbers** have an item too, with a sign or a prefix but without digits. What
follows in the input is then what stands behind them.
-/

namespace Scanf

/-! ### Items -/

/-- The input `sign ++ (pre ++ (ds ++ rest))` is cut in front of `rest`: what stands there is the
longest string that is, or begins, an integer. Without digits it is none. -/
structure IntegerItem (base : ℕ) (sign pre ds rest : List UInt8) : Prop where
  isSign : sign = [] ∨ sign = [43] ∨ sign = [45]
  isPre : pre = [] ∨ base = 16 ∧ (pre = [48, 120] ∨ pre = [48, 88])
  digits : ∀ b ∈ ds, isDigit base b = true
  digits_stop : ∀ b ∈ rest.head?, isDigit base b = false
  sign_stop : sign = [] → pre = [] → ds = [] → ∀ b ∈ rest.head?, b ≠ 43 ∧ b ≠ 45
  pre_stop : base = 16 → pre = [] → ds = [48] → ∀ b ∈ rest.head?, b ≠ 120 ∧ b ≠ 88

/-- The integer that an item stands for. -/
def itemValue (base : ℕ) (sign ds : List UInt8) : Option ℤ :=
  if ds = [] then none
  else some (if sign = [45] then -(numeral base ds : ℤ) else numeral base ds)

section Items

variable {base : ℕ} {sign pre ds rest : List UInt8}

theorem readSign_append (hsign : sign = [] ∨ sign = [43] ∨ sign = [45]) {t : List UInt8}
    (hstop : sign = [] → ∀ b ∈ t.head?, b ≠ 43 ∧ b ≠ 45) :
    readSign (sign ++ t) = (decide (sign = [45]), t) := by
  rcases hsign with rfl | rfl | rfl
  · rcases t with - | ⟨b, t⟩
    · rfl
    · obtain ⟨hplus, hminus⟩ := hstop rfl b rfl
      rw [List.nil_append, readSign, if_neg hplus, if_neg hminus]
      rfl
  · rfl
  · rfl

theorem readDigits_append (hds : ∀ b ∈ ds, isDigit base b = true)
    (hstop : ∀ b ∈ rest.head?, isDigit base b = false) :
    readDigits base (ds ++ rest) = (if ds = [] then none else some (numeral base ds), rest) := by
  rcases rest with - | ⟨b, rest⟩
  · rw [List.append_nil, readDigits, List.takeWhile_eq_self_iff.2 hds,
      List.dropWhile_eq_nil_iff.2 hds]
  · have hb := hstop b rfl
    rw [readDigits, takeWhile_append_of_all hds hb, dropWhile_append_of_all hds hb]

/-- No prefix is left in front of the digits. -/
theorem IntegerItem.dropHexPrefix_eq (h : IntegerItem 16 sign pre ds rest) :
    dropHexPrefix (pre ++ (ds ++ rest)) = ds ++ rest := by
  rcases h.isPre with rfl | ⟨-, rfl | rfl⟩
  · rcases ds with - | ⟨d, - | ⟨x, ds⟩⟩
    · rcases rest with - | ⟨b, - | ⟨x, rest⟩⟩
      · rfl
      · rfl
      · refine if_neg fun h0 ↦ absurd (h.digits_stop b rfl) ?_
        rw [h0.1]
        decide
    · rcases rest with - | ⟨x, rest⟩
      · rfl
      · refine if_neg fun h0 ↦ ?_
        obtain ⟨hx, hX⟩ := h.pre_stop rfl rfl (by rw [h0.1]) x rfl
        exact h0.2.elim hx hX
    · refine if_neg fun h0 ↦ ?_
      have hx := h.digits x (by simp)
      rcases h0.2 with rfl | rfl <;> exact absurd hx (by decide)
  · rfl
  · rfl

/-- **An item is what is read.** -/
theorem IntegerItem.readInteger_eq (h : IntegerItem base sign pre ds rest) :
    readInteger base (sign ++ (pre ++ (ds ++ rest))) = (itemValue base sign ds, rest) := by
  have hstop : sign = [] → ∀ b ∈ (pre ++ (ds ++ rest)).head?, b ≠ 43 ∧ b ≠ 45 := by
    intro hsign b hb
    rcases h.isPre with rfl | ⟨-, rfl | rfl⟩
    · rcases ds with - | ⟨d, ds⟩
      · exact h.sign_stop hsign rfl rfl b hb
      · obtain rfl : d = b := Option.some.inj hb
        exact not_sign_of_isDigit (h.digits d List.mem_cons_self)
    · obtain rfl : 48 = b := Option.some.inj hb
      decide
    · obtain rfl : 48 = b := Option.some.inj hb
      decide
  have hdrop : (if base = 16 then dropHexPrefix (pre ++ (ds ++ rest)) else pre ++ (ds ++ rest)) =
      ds ++ rest := by
    split_ifs with h16
    · subst h16
      exact h.dropHexPrefix_eq
    · rcases h.isPre with rfl | ⟨h16', -⟩
      · rfl
      · exact absurd h16' h16
  rw [readInteger, readSign_append h.isSign hstop]
  dsimp only
  rw [hdrop, readDigits_append h.digits h.digits_stop, itemValue]
  split_ifs <;> simp_all

/-- What stops a `dropWhile`. -/
theorem of_mem_head?_dropWhile {p : UInt8 → Bool} {s : List UInt8} {b : UInt8}
    (h : b ∈ (s.dropWhile p).head?) : p b = false := by
  have hhead := List.head?_dropWhile_not p s
  rw [Option.mem_def.1 h] at hhead
  simpa using hhead

/-- **Every input begins with an item**, if an empty one. -/
theorem exists_integerItem (base : ℕ) (s : List UInt8) : ∃ sign pre ds rest,
    s = sign ++ (pre ++ (ds ++ rest)) ∧ IntegerItem base sign pre ds rest := by
  obtain ⟨sign, t, rfl, hsign, hsignStop⟩ : ∃ sign t, s = sign ++ t ∧
      (sign = [] ∨ sign = [43] ∨ sign = [45]) ∧ (sign = [] → ∀ b ∈ t.head?, b ≠ 43 ∧ b ≠ 45) := by
    rcases s with - | ⟨b, t⟩
    · exact ⟨[], [], rfl, .inl rfl, fun _ b hb ↦ absurd hb (by simp)⟩
    · by_cases hb : b = 43 ∨ b = 45
      · refine ⟨[b], t, rfl, .inr ?_, fun h ↦ absurd h (by simp)⟩
        exact hb.imp (by rintro rfl; rfl) (by rintro rfl; rfl)
      · refine ⟨[], b :: t, rfl, .inl rfl, fun _ c hc ↦ ?_⟩
        obtain rfl : b = c := Option.some.inj hc
        exact not_or.1 hb
  obtain ⟨pre, u, rfl, hpre, hpreStop⟩ : ∃ pre u, t = pre ++ u ∧
      (pre = [] ∨ base = 16 ∧ (pre = [48, 120] ∨ pre = [48, 88])) ∧
      (base = 16 → pre = [] → ∀ v, u = 48 :: v → ∀ b ∈ v.head?, b ≠ 120 ∧ b ≠ 88) := by
    by_cases hex : base = 16 ∧ ∃ x v, t = 48 :: x :: v ∧ (x = 120 ∨ x = 88)
    · obtain ⟨h16, x, v, rfl, hx⟩ := hex
      refine ⟨[48, x], v, rfl, .inr ⟨h16, ?_⟩, fun _ h ↦ absurd h (by simp)⟩
      exact hx.imp (by rintro rfl; rfl) (by rintro rfl; rfl)
    · refine ⟨[], t, rfl, .inl rfl, fun h16 _ v hv b hb ↦ ?_⟩
      rcases v with - | ⟨x, v⟩
      · exact absurd hb (by simp)
      · obtain rfl : x = b := Option.some.inj hb
        exact not_or.1 fun hx ↦ hex ⟨h16, x, v, hv, hx⟩
  refine ⟨sign, pre, u.takeWhile (isDigit base), u.dropWhile (isDigit base),
    by rw [List.takeWhile_append_dropWhile], hsign, hpre, ?_, ?_, ?_, ?_⟩
  · exact fun b hb ↦ List.mem_takeWhile_imp hb
  · exact fun b hb ↦ of_mem_head?_dropWhile hb
  · intro hs hp hds b hb
    have hu : u.dropWhile (isDigit base) = u := by
      have := @List.takeWhile_append_dropWhile _ (isDigit base) u
      rwa [hds, List.nil_append] at this
    refine hsignStop hs b ?_
    rw [hp, List.nil_append, ← hu]
    exact hb
  · intro h16 hp hds b hb
    refine hpreStop h16 hp (u.dropWhile (isDigit base)) ?_ b hb
    have := @List.takeWhile_append_dropWhile _ (isDigit base) u
    rw [hds] at this
    exact this.symm

end Items

/-! ### Numbers in a format -/

/-- White space and an item, in front of `rest`, with the value of the item. -/
inductive NumberText (base : ℕ) : List UInt8 → Option ℤ → List UInt8 → Prop
  | mk {blank sign pre ds rest : List UInt8} : (∀ b ∈ blank, isSpace b = true) →
    (∀ b ∈ (sign ++ (pre ++ (ds ++ rest))).head?, isSpace b = false) →
    IntegerItem base sign pre ds rest →
    NumberText base (blank ++ (sign ++ (pre ++ (ds ++ rest)))) (itemValue base sign ds) rest

/-- Every input begins with such a text. -/
theorem exists_numberText (base : ℕ) (s : List UInt8) : ∃ v rest, NumberText base s v rest := by
  obtain ⟨sign, pre, ds, rest, hs, hitem⟩ := exists_integerItem base (s.dropWhile isSpace)
  refine ⟨itemValue base sign ds, rest, ?_⟩
  rw [← List.takeWhile_append_dropWhile (p := isSpace) (l := s), hs]
  refine .mk (fun b hb ↦ List.mem_takeWhile_imp hb) (fun b hb ↦ ?_) hitem
  exact of_mem_head?_dropWhile (hs ▸ hb)

/-- How a conversion ends at such a text: at an empty item and no more input, for want of
characters; at an item without digits, for other characters. -/
theorem readNumber_eq {base : ℕ} {store : ℤ → Option Value} {s rest : List UInt8} {v : Option ℤ}
    (h : NumberText base s v rest) :
    (v = none → readNumber base store s = .mismatch rest ∨
      readNumber base store s = .inputFailure ∧ rest = []) ∧
    ∀ n, v = some n →
      readNumber base store s = (store n).elim .undefined fun x ↦ .matched (some x) rest := by
  obtain @⟨blank, sign, pre, ds, rest, hblank, hhead, hitem⟩ := h
  have hread := hitem.readInteger_eq
  rcases ht : sign ++ (pre ++ (ds ++ rest)) with - | ⟨b, t⟩
  · -- the input ends behind the white space
    simp only [List.append_eq_nil_iff] at ht
    obtain ⟨rfl, rfl, rfl, rfl⟩ := ht
    refine ⟨fun _ ↦ .inr ⟨?_, rfl⟩, fun n hn ↦ absurd hn (by simp [itemValue])⟩
    rw [show blank ++ [] = blank from List.append_nil _, readNumber,
      List.dropWhile_eq_nil_iff.2 hblank]
  · rw [ht] at hhead hread
    have hskip : (blank ++ b :: t).dropWhile isSpace = b :: t :=
      dropWhile_append_of_all hblank (hhead b rfl)
    rw [readNumber, hskip]
    dsimp only
    rw [hread]
    constructor
    · intro hv
      rw [hv]
      exact .inl rfl
    · intro n hn
      rw [hn]

section Calls

variable {base : ℕ} {store : ℤ → Option Value} {d : Directive} {values : List Value}
  {ds : List Directive} {s rest : List UInt8} {v : Option ℤ}

/-- **A call at a number** goes on behind it. -/
theorem scanfFrom_number {n : ℤ} {x : Value} (hd : d.read s = readNumber base store s)
    (h : NumberText base s (some n) rest) (hstore : store n = some x) :
    scanfFrom values (d :: ds) s = scanfFrom (values ++ [x]) ds rest := by
  have hread : d.read s = .matched (some x) rest := by
    rw [hd, (readNumber_eq h).2 n rfl, hstore]
    rfl
  rw [scanfFrom_of_matched hread, Option.toList_some]

/-- A call at a number that is out of range. -/
theorem scanfFrom_outOfRange {n : ℤ} (hd : d.read s = readNumber base store s)
    (h : NumberText base s (some n) rest) (hstore : store n = none) :
    scanfFrom values (d :: ds) s = .undefined := by
  rw [scanfFrom, hd, (readNumber_eq h).2 n rfl, hstore]
  rfl

/-- **A call where there is no number** returns what it has assigned. -/
theorem scanfFrom_noNumber (hd : d.read s = readNumber base store s)
    (h : NumberText base s none rest) (hvalues : values ≠ []) :
    scanfFrom values (d :: ds) s = .returned values rest := by
  rcases (@readNumber_eq _ store _ _ _ h).1 rfl with hread | ⟨hread, rfl⟩
  · rw [scanfFrom, hd, hread]
  · rw [scanfFrom, hd, hread]
    exact if_neg hvalues

/-- A call at an ordinary character. -/
theorem scanfFrom_ordinary (c : UInt8) :
    scanfFrom values (.ordinary c :: ds) (c :: s) = scanfFrom values ds s := by
  have hread : Directive.read (.ordinary c) (c :: s) = .matched none s := by
    rw [Directive.read, if_pos rfl]
  rw [scanfFrom_of_matched hread, Option.toList_none, List.append_nil]

/-- A call where another character stands, or none. -/
theorem scanfFrom_notOrdinary {c : UInt8} (hs : c ∉ s.head?) (hvalues : values ≠ []) :
    scanfFrom values (.ordinary c :: ds) s = .returned values s := by
  rcases s with - | ⟨b, s⟩
  · rw [scanfFrom, Directive.read]
    exact if_neg hvalues
  · refine scanfFrom_of_mismatch (if_neg fun hb ↦ hs ?_)
    rw [hb]
    rfl

/-- A call at white space, or at none. -/
theorem scanfFrom_space : scanfFrom values (.space :: ds) s =
    scanfFrom values ds (s.dropWhile isSpace) := by
  have hread : Directive.read .space s = .matched none (s.dropWhile isSpace) := rfl
  rw [scanfFrom_of_matched hread, Option.toList_none, List.append_nil]

end Calls

end Scanf
