import CsappCode.Csapp.Rio
import CsappCode.Library.QuotedWords
import CsappCode.ProxyLab.Uri

/-!
# The command line of the shell

`parseline` copies a line into its array and cuts it there: it writes a terminator behind each
argument and stores where the argument begins. Nothing counts the arguments against `MAXARGS`.

* `nextArg` is the search for the next argument and its delimiter, and `argLoop` the loop around it.
* `argLoop_of_cuts` says that the loop ends, and that the arguments are the words of the line.
* `parseline_eq` says what the function returns, for every line that fits its array.
* `parseline_meets_iff` says for which lines there is room for the arguments, and
  `repeated_not_meets` is a line with too many.

## How the code is modelled

**The array** is static, and holds what the line before has left behind. It is a list of bytes, and
`buf` and `delim` are positions in it. `strchr` that meets no terminator is undefined; that this
does not happen is part of `argLoop_of_cuts`.

**The vector** of arguments is the list of what has been stored, and may grow beyond the 128 entries
that the caller has. Whether it does is the question of the last theorem, and not a case of the
model.

**The words** are those of `QuotedWords`: a quote counts only in front of a word, and reaches to the
next one. A quote that is not closed ends the arguments.

## What is assumed

The line has at least one byte, its newline, no NUL inside, and fits the array with the terminator,
as what `fgets` returns to the loop of the shell does.
-/

namespace CsappCode.ShellLab

open Csapp (newline)
open ProxyLab (cstr strcpy NulFree cstr_append_nul cstr_drop nulFree_append_iff set_field)
open QuotedWords (Cuts words)

/-! ### The function -/

/-- `MAXLINE` of the shell. -/
def maxline : ℕ := 1024

/-- `MAXARGS`. -/
def maxArgs : ℕ := 128

def space : UInt8 := 32

/-- The single quote. -/
def quote : UInt8 := 39

def ampersand : UInt8 := 38

/-- `strchr(m + p, c)`, as a position. There must be a terminator before the end of the area. -/
def strchrAt (m : List UInt8) (p : ℕ) (c : UInt8) : Option (Option ℕ) :=
  if 0 ∈ m.drop p then some (((cstr (m.drop p)).idxOf? c).map (p + ·)) else none

/-- `while (*buf && (*buf == ' ')) buf++`. -/
def skipSpaces (m : List UInt8) (p : ℕ) : ℕ := p + ((m.drop p).takeWhile (· = space)).length

/-- From `buf` to the next argument and its delimiter: what stands in front of the loop, and again
at the end of its body. -/
def nextArg (m : List UInt8) (buf : ℕ) : Option (ℕ × Option ℕ) :=
  let buf := skipSpaces m buf
  if m[buf]? = some quote then (strchrAt m (buf + 1) quote).map (buf + 1, ·)
  else (strchrAt m buf space).map (buf, ·)

/-- `while (delim)`, for at most `fuel` turns: the array and the arguments at the end. -/
def argLoop : ℕ → List UInt8 → List ℕ → ℕ → Option (List UInt8 × List ℕ)
  | 0, _, _, _ => none
  | fuel + 1, m, args, buf =>
    match nextArg m buf with
    | none => none
    | some (_, none) => some (m, args)
    | some (arg, some delim) => argLoop fuel (m.set delim 0) (args ++ [arg]) (delim + 1)

/-- What `parseline` leaves: the array, the entries it has stored in `argv`, and its result. -/
structure Parsed where
  array : List UInt8
  argv : List (Option ℕ)
  bg : Bool
  deriving DecidableEq, Repr

/-- Behind the loop: the `NULL` that ends `argv`, and the ampersand, which is taken out. -/
def finish (m : List UInt8) (args : List ℕ) : Parsed :=
  let argv := args.map some ++ [none]
  match args.getLast? with
  | none => ⟨m, argv, true⟩
  | some last =>
    if m[last]? = some ampersand then ⟨m, argv.set (args.length - 1) none, true⟩
    else ⟨m, argv, false⟩

/-- `parseline(cmdline, argv)`, on what the array holds from the line before. -/
def parseline (array cmdline : List UInt8) : Option Parsed :=
  let len := (cstr cmdline).length
  if 0 < len ∧ len < array.length then
    let buf := (strcpy array cmdline).set (len - 1) space
    (argLoop array.length buf [] 0).map fun (m, args) ↦ finish m args
  else none

/-- The strings that a reader of `argv` finds before the `NULL`. -/
def Parsed.arguments (r : Parsed) : List (List UInt8) :=
  ((r.argv.takeWhile Option.isSome).filterMap id).map fun p ↦ cstr (r.array.drop p)

/-! ### From one argument to the next -/

section NextArg

variable {s w : List UInt8}

/-- `strchr` finds the first place of the byte. -/
theorem strchrAt_found {c : UInt8} (hfree : NulFree (w ++ c :: s)) (hw : c ∉ w)
    (pre rest : List UInt8) : strchrAt (pre ++ (w ++ c :: (s ++ 0 :: rest))) pre.length c =
      some (some (pre.length + w.length)) := by
  have hidx : (w ++ c :: s).idxOf? c = some w.length := by
    rw [List.idxOf?_eq_some_iff]
    refine ⟨by simp, by simp, fun j hj heq ↦ hw ?_⟩
    rw [List.getElem_append_left hj] at heq
    exact heq ▸ List.getElem_mem hj
  have hcstr := cstr_drop hfree pre rest
  simp only [List.append_assoc, List.cons_append] at hcstr
  rw [strchrAt, hcstr, List.drop_left, if_pos (by simp), hidx]
  rfl

/-- There may be none before the terminator. -/
theorem strchrAt_notFound {c : UInt8} (hfree : NulFree s) (hc : c ∉ s) (pre rest : List UInt8) :
    strchrAt (pre ++ (s ++ 0 :: rest)) pre.length c = some none := by
  rw [strchrAt, cstr_drop hfree, List.drop_left, if_pos (by simp), List.idxOf?_eq_none_iff.2 hc]
  rfl

section Skip

variable {m l : List UInt8} {p : ℕ} {c : UInt8}

theorem skipSpaces_of_ne (hm : m.drop p = c :: l) (hc : c ≠ space) : skipSpaces m p = p := by
  rw [skipSpaces, hm, List.takeWhile_cons_of_neg (by simpa using hc), List.length_nil, Nat.add_zero]

theorem getElem?_of_drop (hm : m.drop p = c :: l) : m[p]? = some c := by
  rw [← List.head?_drop, hm, List.head?_cons]

/-- An argument that begins with a quote. -/
theorem nextArg_of_quote (hm : m.drop p = quote :: l) :
    nextArg m p = (strchrAt m (p + 1) quote).map (p + 1, ·) := by
  rw [nextArg, skipSpaces_of_ne hm (by decide), getElem?_of_drop hm, if_pos rfl]

/-- An argument that begins with another byte. -/
theorem nextArg_of_ne (hm : m.drop p = c :: l) (hspace : c ≠ space) (hquote : c ≠ quote) :
    nextArg m p = (strchrAt m p space).map (p, ·) := by
  rw [nextArg, skipSpaces_of_ne hm hspace, getElem?_of_drop hm, if_neg (by simpa using hquote)]

end Skip

theorem nextArg_space (pre s : List UInt8) :
    nextArg (pre ++ space :: s) pre.length = nextArg (pre ++ space :: s) (pre.length + 1) := by
  have hdrop : (pre ++ space :: s).drop (pre.length + 1) = s := by simp
  have hskip : skipSpaces (pre ++ space :: s) pre.length =
      skipSpaces (pre ++ space :: s) (pre.length + 1) := by
    rw [skipSpaces, skipSpaces, List.drop_left, hdrop, List.takeWhile_cons_of_pos (by simp),
      List.length_cons]
    omega
  rw [nextArg, nextArg, hskip]

theorem nextArg_nil (pre rest : List UInt8) :
    nextArg (pre ++ 0 :: rest) pre.length = some (pre.length, none) := by
  have hstrchr := @strchrAt_notFound [] space (by simp [NulFree]) List.not_mem_nil pre rest
  rw [List.nil_append] at hstrchr
  rw [nextArg_of_ne List.drop_left (by decide) (by decide), hstrchr, Option.map_some]

theorem nextArg_word {c : UInt8} (hfree : NulFree (c :: w ++ space :: s)) (hquote : c ≠ quote)
    (hsep : space ∉ c :: w) (pre rest : List UInt8) :
    nextArg (pre ++ (c :: w ++ space :: (s ++ 0 :: rest))) pre.length =
      some (pre.length, some (pre.length + (c :: w).length)) := by
  have hspace : c ≠ space := (List.ne_of_not_mem_cons hsep).symm
  have hdrop : (pre ++ (c :: w ++ space :: (s ++ 0 :: rest))).drop pre.length =
      c :: (w ++ space :: (s ++ 0 :: rest)) := List.drop_left
  rw [nextArg_of_ne hdrop hspace hquote, strchrAt_found hfree hsep, Option.map_some]

theorem nextArg_quoted (hfree : NulFree (w ++ quote :: s)) (hw : quote ∉ w)
    (pre rest : List UInt8) :
    nextArg (pre ++ [quote] ++ (w ++ quote :: (s ++ 0 :: rest))) pre.length =
      some ((pre ++ [quote]).length, some ((pre ++ [quote]).length + w.length)) := by
  have hdrop : (pre ++ [quote] ++ (w ++ quote :: (s ++ 0 :: rest))).drop pre.length =
      quote :: (w ++ quote :: (s ++ 0 :: rest)) := by
    rw [← List.append_cons, List.drop_left]
  have hlen : (pre ++ [quote]).length = pre.length + 1 := List.length_append
  rw [nextArg_of_quote hdrop, ← hlen, strchrAt_found hfree hw (pre ++ [quote]) rest,
    Option.map_some]

theorem nextArg_unterminated (hfree : NulFree w) (hw : quote ∉ w) (pre rest : List UInt8) :
    nextArg (pre ++ quote :: (w ++ 0 :: rest)) pre.length = some (pre.length + 1, none) := by
  have hstrchr := strchrAt_notFound hfree hw (pre ++ [quote]) rest
  rw [List.append_assoc, List.singleton_append, List.length_append, List.length_singleton]
    at hstrchr
  rw [nextArg_of_quote List.drop_left, hstrchr, Option.map_some]

end NextArg

/-! ### The loop -/

/-- The loop ends. It adds arguments that are the words, and leaves the bytes in front of them. -/
def Adds (fuel : ℕ) (m : List UInt8) (args : List ℕ) (buf : ℕ) (pre : List UInt8)
    (ws : List (List UInt8)) : Prop :=
  ∃ new rest, argLoop fuel m args buf = some (pre ++ rest, args ++ new) ∧
    (new.map fun p ↦ cstr ((pre ++ rest).drop p)) = ws

section Adds

variable {fuel buf p : ℕ} {m pre w : List UInt8} {args : List ℕ} {ws : List (List UInt8)}

theorem Adds.of_append {mid : List UInt8} (h : Adds fuel m args buf (pre ++ mid) ws) :
    Adds fuel m args buf pre ws := by
  obtain ⟨new, rest, hloop, hws⟩ := h
  rw [List.append_assoc] at hloop hws
  exact ⟨new, mid ++ rest, hloop, hws⟩

theorem adds_nil (hnext : nextArg (pre ++ m) buf = some (p, none)) :
    Adds (fuel + 1) (pre ++ m) args buf pre [] :=
  ⟨[], m, by rw [argLoop, hnext, List.append_nil], rfl⟩

theorem Adds.space (h : Adds fuel (pre ++ space :: m) args (pre.length + 1) (pre ++ [space]) ws) :
    Adds fuel (pre ++ ShellLab.space :: m) args pre.length pre ws := by
  obtain ⟨new, rest, hloop, hws⟩ := h.of_append
  refine ⟨new, rest, ?_, hws⟩
  cases fuel with
  | zero => exact hloop
  | succ fuel =>
    rw [argLoop, nextArg_space]
    exact hloop

/-- An argument, its delimiter, and what follows. -/
theorem Adds.cons (hw : NulFree w) {delim : UInt8}
    (hnext : nextArg (pre ++ (w ++ delim :: m)) buf =
      some (pre.length, some (pre.length + w.length)))
    (h : Adds fuel ((pre ++ (w ++ [0])) ++ m) (args ++ [pre.length]) (pre ++ (w ++ [0])).length
      (pre ++ (w ++ [0])) ws) :
    Adds (fuel + 1) (pre ++ (w ++ delim :: m)) args buf pre (w :: ws) := by
  obtain ⟨new, rest, hloop, hws⟩ := h
  simp only [List.append_assoc, List.singleton_append, List.length_append, List.length_singleton]
    at hloop hws
  refine ⟨pre.length :: new, w ++ 0 :: rest, ?_, ?_⟩
  · rw [argLoop, hnext]
    simp only [set_field]
    exact hloop
  · rw [List.map_cons, hws, cstr_drop hw]

end Adds

/-- The text is empty or ends with a space. -/
def EndsBlank (t : List UInt8) : Prop := ∀ u c, t = u ++ [c] → c = space

theorem EndsBlank.of_append {t s : List UInt8} (h : EndsBlank (t ++ s)) : EndsBlank s :=
  fun u c heq ↦ h (t ++ u) c (by rw [heq, List.append_assoc])

/-- **The loop cuts the line into its words.** A space ends the line, so that there is a delimiter
behind every word. -/
theorem argLoop_of_cuts {t : List UInt8} {ws : List (List UInt8)} (h : Cuts space quote t ws) :
    ∀ {fuel : ℕ} {pre : List UInt8} {args : List ℕ} (rest : List UInt8), NulFree t →
      EndsBlank t → t.length < fuel →
      Adds fuel (pre ++ (t ++ 0 :: rest)) args pre.length pre ws := by
  induction h with
  | nil =>
    intro fuel pre args rest _ _ hfuel
    obtain ⟨fuel, rfl⟩ := Nat.exists_eq_succ_of_ne_zero (Nat.ne_zero_of_lt hfuel)
    exact adds_nil (nextArg_nil pre rest)
  | @sep s ws _ ih =>
    intro fuel pre args rest hfree hend hfuel
    refine Adds.space ?_
    have hrest := @ih fuel (pre ++ [space]) args rest (List.forall_mem_cons.1 hfree).2
      (@EndsBlank.of_append [space] s hend) (Nat.lt_of_succ_lt hfuel)
    rw [List.append_assoc, List.length_append] at hrest
    exact hrest
  | @word c w s ws hquote hsep _ ih =>
    intro fuel pre args rest hfree hend hfuel
    obtain ⟨fuel, rfl⟩ := Nat.exists_eq_succ_of_ne_zero (Nat.ne_zero_of_lt hfuel)
    obtain ⟨hw, hs⟩ := nulFree_append_iff.1 hfree
    have hlen : s.length < fuel := by
      rw [List.length_append, List.length_cons, List.length_cons] at hfuel
      omega
    have hend' : EndsBlank s := @EndsBlank.of_append [space] s hend.of_append
    rw [List.append_assoc]
    exact Adds.cons hw (nextArg_word hfree hquote hsep pre rest)
      (ih rest (List.forall_mem_cons.1 hs).2 hend' hlen)
  | @last c w hquote hsep =>
    intro fuel pre args rest hfree hend hfuel
    have hne : c :: w ≠ [] := List.cons_ne_nil c w
    have hlast := hend _ _ (List.dropLast_append_getLast hne).symm
    exact absurd (hlast ▸ List.getLast_mem hne) hsep
  | @quoted w s ws hw _ ih =>
    intro fuel pre args rest hfree hend hfuel
    obtain ⟨fuel, rfl⟩ := Nat.exists_eq_succ_of_ne_zero (Nat.ne_zero_of_lt hfuel)
    have hfree' := (List.forall_mem_cons.1 hfree).2
    obtain ⟨hwfree, hs⟩ := nulFree_append_iff.1 hfree'
    have hlen : s.length < fuel := by
      rw [List.length_cons, List.length_append, List.length_cons] at hfuel
      omega
    have hend' : EndsBlank s := by
      have hsplit : quote :: (w ++ quote :: s) = (quote :: (w ++ [quote])) ++ s := by simp
      rw [hsplit] at hend
      exact hend.of_append
    have hadds : Adds (fuel + 1) (pre ++ [quote] ++ (w ++ quote :: (s ++ 0 :: rest))) args
        pre.length (pre ++ [quote]) (w :: ws) :=
      Adds.cons hwfree (nextArg_quoted hfree' hw pre rest)
        (ih rest (List.forall_mem_cons.1 hs).2 hend' hlen)
    rw [← List.append_cons] at hadds
    rw [List.cons_append, List.append_assoc]
    exact hadds.of_append
  | @unterminated w hw =>
    intro fuel pre args rest hfree _ hfuel
    obtain ⟨fuel, rfl⟩ := Nat.exists_eq_succ_of_ne_zero (Nat.ne_zero_of_lt hfuel)
    exact adds_nil (nextArg_unterminated (List.forall_mem_cons.1 hfree).2 hw pre rest)

/-! ### The arguments of a line -/

/-- The last argument starts with an ampersand. -/
def Background (ws : List (List UInt8)) : Prop := ∃ w ∈ ws.getLast?, w.head? = some ampersand

instance : DecidablePred Background := fun ws ↦
  inferInstanceAs (Decidable (∃ w ∈ ws.getLast?, w.head? = some ampersand))

theorem background_concat (ws : List (List UInt8)) (w : List UInt8) :
    Background (ws ++ [w]) ↔ w.head? = some ampersand := by
  rw [Background, List.getLast?_concat]
  simp

/-- **What is expected of `parseline`**, for a line with these words. -/
structure Meets (ws : List (List UInt8)) (r : Parsed) : Prop where
  entries : r.argv.length ≤ maxArgs
  bg_iff : r.bg = true ↔ ws = [] ∨ Background ws
  arguments : r.arguments = if Background ws then ws.dropLast else ws

/-- The first byte of a string. -/
theorem getElem?_eq_some_iff_cstr {m : List UInt8} {p : ℕ} {c : UInt8} (hc : c ≠ 0) :
    m[p]? = some c ↔ (cstr (m.drop p)).head? = some c := by
  rw [← List.head?_drop]
  cases m.drop p with
  | nil => exact Iff.rfl
  | cons b l =>
    rw [List.head?_cons, cstr]
    by_cases hb : b = 0
    · rw [List.takeWhile_cons_of_neg (by simpa using hb), hb, List.head?_nil, Option.some_inj]
      exact iff_of_false hc.symm (by simp)
    · rw [List.takeWhile_cons_of_pos (by simpa using hb), List.head?_cons]

/-- A reader of `argv` finds what stands before the first `NULL`. -/
theorem arguments_eq (m : List UInt8) (args : List ℕ) (l : List (Option ℕ)) (bg : Bool) :
    Parsed.arguments ⟨m, args.map some ++ none :: l, bg⟩ =
      args.map fun p ↦ cstr (m.drop p) := by
  have htake : ((args.map some ++ none :: l).takeWhile Option.isSome).filterMap id = args := by
    rw [List.takeWhile_append_of_pos (by simp), List.takeWhile_cons_of_neg (by simp)]
    simp
  rw [Parsed.arguments, htake]

theorem finish_concat (m : List UInt8) (args : List ℕ) (last : ℕ) : finish m (args ++ [last]) =
    if m[last]? = some ampersand then ⟨m, args.map some ++ none :: [none], true⟩
    else ⟨m, (args ++ [last]).map some ++ none :: [], false⟩ := by
  have hset : ((args ++ [last]).map some ++ [none]).set ((args ++ [last]).length - 1) none =
      args.map some ++ none :: [none] := by
    rw [List.map_append, List.append_assoc, List.length_append, List.length_singleton,
      Nat.add_sub_cancel, List.set_append_right _ _ (List.length_map ..).le, List.length_map,
      Nat.sub_self]
    rfl
  rw [finish, List.getLast?_concat, hset]

/-- Each argument takes an entry, and the `NULL` one more. -/
theorem length_argv_finish (m : List UInt8) (args : List ℕ) :
    (finish m args).argv.length = args.length + 1 := by
  rcases List.eq_nil_or_concat' args with rfl | ⟨args, last, rfl⟩
  · rfl
  · rw [finish_concat]
    split_ifs <;> simp

/-- The arguments are the words, without the one that asks for the background. -/
theorem meets_finish {m : List UInt8} {args : List ℕ} (hlen : args.length < maxArgs) :
    Meets (args.map fun p ↦ cstr (m.drop p)) (finish m args) := by
  have hentries : (finish m args).argv.length ≤ maxArgs := by
    rw [length_argv_finish]
    exact hlen
  rcases List.eq_nil_or_concat' args with rfl | ⟨args, last, rfl⟩
  · exact ⟨hentries, iff_of_true rfl (.inl rfl), rfl⟩
  have hbg : Background ((args ++ [last]).map fun p ↦ cstr (m.drop p)) ↔
      m[last]? = some ampersand := by
    rw [List.map_append, List.map_singleton, background_concat,
      getElem?_eq_some_iff_cstr (by decide)]
  have hne : ((args ++ [last]).map fun p ↦ cstr (m.drop p)) ≠ [] := by simp
  refine ⟨hentries, ?_, ?_⟩
  · rw [hbg, or_iff_right hne, finish_concat]
    by_cases hlast : m[last]? = some ampersand
    · rw [if_pos hlast]
      exact iff_of_true rfl hlast
    · rw [if_neg hlast]
      exact iff_of_false Bool.false_ne_true hlast
  · rw [finish_concat]
    split_ifs with hlast hbg' hbg'
    · rw [arguments_eq, List.map_append, List.map_singleton, List.dropLast_concat]
    · exact absurd (hbg.2 hlast) hbg'
    · exact absurd (hbg.1 hbg') hlast
    · exact arguments_eq m (args ++ [last]) [] false

/-! ### The lines with room for their arguments -/

section Line

variable {array s : List UInt8}

/-- **`parseline` ends**, with the words of the line for its arguments. -/
theorem parseline_eq (harray : array.length = maxline) (hfree : NulFree s)
    (hlen : s.length + 1 < maxline) (rest : List UInt8) :
    ∃ m args, (args.map fun p ↦ cstr (m.drop p)) = words space quote s ∧
      parseline array (s ++ newline :: 0 :: rest) = some (finish m args) := by
  have hline : NulFree (s ++ [newline]) := hfree.append (by decide)
  have htext : NulFree (s ++ [space]) := hfree.append (by decide)
  have hend : EndsBlank (s ++ [space]) := fun u c heq ↦
    (List.singleton_inj.1 (List.append_inj_right' heq rfl)).symm
  have hcstr : cstr (s ++ newline :: 0 :: rest) = s ++ [newline] := by
    rw [List.append_cons, cstr_append_nul hline]
  have hlenLine : (s ++ [newline]).length = s.length + 1 := List.length_append
  have hbuf : (strcpy array (s ++ newline :: 0 :: rest)).set (s.length + 1 - 1) space =
      [] ++ (s ++ [space] ++ 0 :: array.drop (s.length + 1 + 1)) := by
    rw [strcpy, hcstr, hlenLine, Nat.add_sub_cancel, List.append_assoc,
      List.set_append_right _ _ le_rfl, Nat.sub_self, List.append_assoc]
    rfl
  have hcuts : Cuts space quote (s ++ [space]) (words space quote s) :=
    ((QuotedWords.cuts_iff (by decide)).2 rfl).concat_sep (by decide)
  have hfuel : (s ++ [space]).length < array.length := by
    rw [List.length_append, harray]
    exact hlen
  obtain ⟨args, m, hloop, hargs⟩ := argLoop_of_cuts hcuts (array.drop (s.length + 1 + 1))
    htext hend hfuel
  refine ⟨[] ++ m, [] ++ args, hargs, ?_⟩
  rw [parseline, hcstr, hlenLine, if_pos ⟨Nat.succ_pos _, harray ▸ hlen⟩, hbuf]
  exact congrArg (Option.map _) hloop

/-- **For which lines `parseline` does what is expected of it**: for those with less than `MAXARGS`
words. -/
theorem parseline_meets_iff (harray : array.length = maxline) (hfree : NulFree s)
    (hlen : s.length + 1 < maxline) (rest : List UInt8) :
    (∃ ws r, Cuts space quote s ws ∧ parseline array (s ++ newline :: 0 :: rest) = some r ∧
      Meets ws r) ↔ (words space quote s).length < maxArgs := by
  have hne : space ≠ quote := by decide
  obtain ⟨m, args, hargs, hparse⟩ := parseline_eq harray hfree hlen rest
  constructor
  · rintro ⟨ws, r, -, hr, hmeets⟩
    obtain rfl : finish m args = r := Option.some.inj (hparse.symm.trans hr)
    have hentries := hmeets.entries
    rw [length_argv_finish] at hentries
    rw [← hargs, List.length_map]
    exact hentries
  · intro hwords
    rw [← hargs, List.length_map] at hwords
    exact ⟨_, _, (QuotedWords.cuts_iff hne).2 hargs.symm, hparse, meets_finish hwords⟩

end Line

/-- `'a b' &`, which keeps the space and runs in the background. -/
theorem parseline_meets_quoted : ∃ ws r, Cuts space quote [39, 97, 32, 98, 39, 32, 38] ws ∧
    parseline (List.replicate maxline 0) ([39, 97, 32, 98, 39, 32, 38] ++ newline :: 0 :: []) =
      some r ∧ Meets ws r :=
  (parseline_meets_iff List.length_replicate (by decide) (by decide) []).2 (by decide)

/-- `a` again and again. -/
def repeated (n : ℕ) : List UInt8 := (List.replicate n [97, space]).flatten

theorem cuts_repeated (n : ℕ) : Cuts space quote (repeated n) (List.replicate n [97]) := by
  induction n with
  | zero => exact .nil
  | succ n ih => exact @Cuts.word _ _ _ 97 [] _ _ (by decide) (by decide) ih

theorem length_repeated (n : ℕ) : (repeated n).length = n * 2 := by
  rw [repeated, List.length_flatten, List.map_replicate, List.sum_replicate_nat]
  rfl

theorem nulFree_repeated (n : ℕ) : NulFree (repeated n) := by
  intro b hb
  obtain ⟨piece, hpiece, hb'⟩ := List.mem_flatten.1 hb
  obtain rfl := List.eq_of_mem_replicate hpiece
  exact (by decide : NulFree [97, space]) b hb'

/-- **A line of 257 bytes has more arguments than `argv` has room for.** -/
theorem repeated_not_meets : ¬ ∀ array s rest : List UInt8, array.length = maxline → NulFree s →
    s.length + 1 < maxline → ∃ ws r, Cuts space quote s ws ∧
      parseline array (s ++ newline :: 0 :: rest) = some r ∧ Meets ws r := by
  intro hall
  have hlen : (repeated 128).length + 1 < maxline := by
    rw [length_repeated]
    decide
  have harray : (List.replicate maxline (0 : UInt8)).length = maxline := List.length_replicate
  obtain ⟨ws, r, -, hr, hmeets⟩ := hall _ _ [] harray (nulFree_repeated 128) hlen
  obtain ⟨m, args, hargs, hparse⟩ := parseline_eq harray (nulFree_repeated 128) hlen []
  obtain rfl : finish m args = r := Option.some.inj (hparse.symm.trans hr)
  have hwords := congrArg List.length (hargs.trans ((cuts_repeated 128).words_eq (by decide)))
  have hentries := hmeets.entries
  rw [List.length_map, List.length_replicate] at hwords
  rw [length_argv_finish, hwords] at hentries
  exact absurd hentries (by decide)

end CsappCode.ShellLab
