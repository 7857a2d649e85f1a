import CsappCode.Tiny.Tiny

/-!
# What a URI names

`parse_uri` gives a URI a file name, and a query string to those with `cgi-bin` in them. `target` is
the same without the arrays, and `parseUri_eq_ok_iff` says when they are large enough.

* `target_plain` and `target_query` say what the file name and the arguments of a program are.
* `parseUri_eq_ok_iff` says when `parse_uri` computes the target.
* `target_eq_iff` answers which URIs name the same thing: a directory is its `home.html`, and a
  program without arguments may have a question mark behind it. Nothing else is confused.
* `parseUri_eq_iff` has the same for `parse_uri`.

## What the results rest on

**The URI** is any string that the array of `doit` has room for. The empty one is left out by the
theorems: for it the code looks at the byte before the string. Bytes are taken as they are, for
nothing is decoded; so a NUL cannot occur, and the question mark and the slash are the only ones
that are looked at besides the name of the directory.

**Where `cgi-bin` stands** in the URI makes no difference to the code: it may be in the arguments,
or in the middle of a name. This is why the two kinds of URIs are kept apart by `target` itself, and
why a URI with arguments is compared in two steps. The pattern has no question mark in it, hence it
is on one side of the first one or on the other.

**The names** are different when the strings are. Whether two of them lead to the same file, through
a link or through a directory and its parent, is the affair of the file system.
-/

namespace CsappCode.Tiny

open Csapp (maxline)
open ProxyLab (strstr bind_eq_ok_iff strstr_isSome_iff strstr_byte cut_unique)
open Printf (bytes)

/-! ### Names -/

/-- Whether a URI is that of a directory. -/
def EndsInSlash (uri : List UInt8) : Prop := uri.getLast? = some slash

instance : DecidablePred EndsInSlash := fun _ ↦ inferInstanceAs (Decidable (_ = _))

/-- What a URI names. -/
def target (uri : List UInt8) : Target :=
  if cgiBin <:+: uri then
    ⟨false, dot :: uri.takeWhile (· ≠ question), (uri.dropWhile (· ≠ question)).drop 1⟩
  else ⟨true, dot :: (if EndsInSlash uri then uri ++ homeHtml else uri), []⟩

theorem target_dynamic {uri : List UInt8} (h : cgiBin <:+: uri) :
    target uri =
      ⟨false, dot :: uri.takeWhile (· ≠ question), (uri.dropWhile (· ≠ question)).drop 1⟩ :=
  if_pos h

theorem target_static {uri : List UInt8} (h : ¬ cgiBin <:+: uri) :
    target uri = ⟨true, dot :: (if EndsInSlash uri then uri ++ homeHtml else uri), []⟩ :=
  if_neg h

/-- A URI without a question mark has no arguments. -/
theorem target_plain {uri : List UInt8} (h : cgiBin <:+: uri) (hq : question ∉ uri) :
    target uri = ⟨false, dot :: uri, []⟩ := by
  have hall : ∀ b ∈ uri, decide (b ≠ question) = true := fun b hb ↦
    decide_eq_true fun heq ↦ hq (heq ▸ hb)
  rw [target_dynamic h, List.takeWhile_eq_self_iff.2 hall, List.dropWhile_eq_nil_iff.2 hall]
  rfl

/-- **A URI with arguments is cut at the first question mark.** -/
theorem target_query {path args : List UInt8} (h : cgiBin <:+: path ++ question :: args)
    (hq : question ∉ path) :
    target (path ++ question :: args) = ⟨false, dot :: path, args⟩ := by
  have hall : ∀ b ∈ path, decide (b ≠ question) = true := fun b hb ↦
    decide_eq_true fun heq ↦ hq (heq ▸ hb)
  rw [target_dynamic h, List.takeWhile_append_of_pos hall, List.dropWhile_append_of_pos hall,
    List.takeWhile_cons_of_neg (by simp), List.dropWhile_cons_of_neg (by simp), List.append_nil]
  rfl

/-! ### `parse_uri` -/

theorem copyInto_eq_ok_iff {capacity : ℕ} {s t : List UInt8} :
    copyInto capacity s = .ok t ↔ t = s ∧ s.length < capacity := by
  rw [copyInto]
  split_ifs with h
  · exact ⟨fun heq ↦ ⟨(Except.ok.inj heq).symm, h⟩, fun heq ↦ by rw [heq.1]⟩
  · exact ⟨fun heq ↦ absurd heq (by simp), fun heq ↦ absurd heq.2 h⟩

/-- A copy, and what is done with it. -/
theorem copyInto_bind_eq_ok_iff {α : Type} {capacity : ℕ} {s : List UInt8}
    {f : List UInt8 → Except Fault α} {a : α} :
    copyInto capacity s >>= f = .ok a ↔ s.length < capacity ∧ f s = .ok a := by
  rw [bind_eq_ok_iff]
  refine ⟨?_, fun h ↦ ⟨s, copyInto_eq_ok_iff.2 ⟨rfl, h.1⟩, h.2⟩⟩
  intro ⟨t, hcopy, h⟩
  obtain ⟨rfl, hlt⟩ := copyInto_eq_ok_iff.1 hcopy
  exact ⟨hlt, h⟩

/-- **When `parse_uri` computes the target**: the URI is not empty and the name fits. -/
theorem parseUri_eq_ok_iff {uri : List UInt8} (hlen : uri.length < maxline) {t : Target} :
    parseUri uri = .ok t ↔
      uri ≠ [] ∧ (target uri).filename.length < maxline ∧ t = target uri := by
  rw [parseUri]
  rcases hcgi : strstr cgiBin uri with - | ⟨pre, suf⟩
  · -- static content
    have hnone : ¬ cgiBin <:+: uri := fun h ↦ by
      have := strstr_isSome_iff.2 h
      rw [hcgi] at this
      exact absurd this (by simp)
    rw [target_static hnone]
    dsimp only
    rw [copyInto_bind_eq_ok_iff]
    rcases uri.eq_nil_or_concat with rfl | ⟨init, c, rfl⟩
    · simp
    · simp only [List.concat_eq_append, EndsInSlash, List.getLast?_append, List.getLast?_singleton,
        Option.some_or, Option.some.injEq]
      split_ifs with hslash
      · rw [copyInto_bind_eq_ok_iff]
        simp only [List.length_cons, List.length_append, List.cons_append]
        constructor
        · intro ⟨_, hlt, h⟩
          exact ⟨by simp, by simpa using hlt, (Except.ok.inj h).symm⟩
        · intro ⟨_, hlt, h⟩
          refine ⟨by simp at hlt ⊢; omega, by simpa using hlt, by rw [h]; rfl⟩
      · constructor
        · exact fun ⟨hlt, h⟩ ↦ ⟨by simp, hlt, (Except.ok.inj h).symm⟩
        · exact fun ⟨_, hlt, h⟩ ↦ ⟨hlt, by rw [h]; rfl⟩
  · -- dynamic content
    have hsome : cgiBin <:+: uri := strstr_isSome_iff.1 (by rw [hcgi]; rfl)
    have hne : uri ≠ [] := by
      rintro rfl
      exact absurd (List.eq_nil_of_infix_nil hsome) (by decide)
    dsimp only
    obtain ⟨hquestion, hq⟩ | ⟨path, args, rfl, hq, hquestion⟩ := strstr_byte question uri
    · rw [hquestion, target_plain hsome hq]
      dsimp only
      rw [copyInto_bind_eq_ok_iff]
      exact ⟨fun ⟨hlt, h⟩ ↦ ⟨hne, hlt, (Except.ok.inj h).symm⟩,
        fun ⟨_, hlt, h⟩ ↦ ⟨hlt, by rw [h]; rfl⟩⟩
    · rw [hquestion, target_query hsome hq]
      dsimp only
      rw [List.drop_succ_cons, List.drop_zero, copyInto_bind_eq_ok_iff, copyInto_bind_eq_ok_iff]
      rw [List.length_append, List.length_cons] at hlen
      exact ⟨fun ⟨_, hlt, h⟩ ↦ ⟨hne, hlt, (Except.ok.inj h).symm⟩,
        fun ⟨_, hlt, h⟩ ↦ ⟨by omega, hlt, by rw [h]; rfl⟩⟩

/-! ### Two URIs for one thing -/

/-- A directory and its home page, or a program without arguments and the same with a question
mark. -/
inductive Alias : List UInt8 → List UInt8 → Prop
  | home {dir : List UInt8} : ¬ cgiBin <:+: dir → EndsInSlash dir → Alias dir (dir ++ homeHtml)
  | noArgs {program : List UInt8} : cgiBin <:+: program → question ∉ program →
    Alias program (program ++ [question])

/-- A pattern does not reach across a byte that is not in it. -/
theorem infix_append_cons_iff {α : Type} {pat : List α} {c : α} (hc : c ∉ pat) (a b : List α) :
    pat <:+: a ++ c :: b ↔ pat <:+: a ∨ pat <:+: b := by
  refine ⟨?_, fun h ↦ h.elim (·.trans (List.prefix_append _ _).isInfix)
    (·.trans ((List.suffix_cons c b).trans (List.suffix_append _ _)).isInfix)⟩
  intro ⟨l, r, h⟩
  rw [List.append_assoc] at h
  obtain ⟨a', ha, h'⟩ | ⟨l', hl, h'⟩ := List.append_eq_append_iff.1 h
  · -- it starts before the byte
    obtain ⟨p, hp, -⟩ | ⟨r', hr, hc'⟩ := List.append_eq_append_iff.1 h'
    · exact .inl ⟨l, p, by rw [ha, hp, List.append_assoc]⟩
    · rcases r' with - | ⟨d, r'⟩
      · exact .inl ⟨l, [], by rw [ha, hr, List.append_nil, List.append_nil]⟩
      · obtain ⟨rfl, -⟩ := List.cons.inj hc'
        exact absurd (hr ▸ by simp) hc
  · -- or at it, or behind it
    rcases l' with - | ⟨d, l'⟩
    · rcases pat with - | ⟨d, pat⟩
      · exact .inl ⟨[], a, rfl⟩
      · obtain ⟨rfl, -⟩ := List.cons.inj h'
        exact absurd List.mem_cons_self hc
    · obtain ⟨rfl, hb⟩ := List.cons.inj h'
      exact .inr ⟨l', r, by rw [List.append_assoc]; exact hb.symm⟩

/-- The home page of a directory that is no program is none either. -/
theorem not_cgi_home {dir : List UInt8} (h : ¬ cgiBin <:+: dir) (hslash : EndsInSlash dir) :
    ¬ cgiBin <:+: dir ++ homeHtml := by
  obtain ⟨init, rfl⟩ := List.getLast?_eq_some_iff.1 hslash
  rw [infix_append_cons_iff (by decide)] at h
  rw [List.append_assoc, List.singleton_append, infix_append_cons_iff (by decide)]
  exact not_or.2 ⟨fun h' ↦ h (.inl h'), by decide⟩

theorem not_endsInSlash_home (dir : List UInt8) : ¬ EndsInSlash (dir ++ homeHtml) := by
  rw [EndsInSlash, List.getLast?_append_of_ne_nil _ (by decide)]
  decide

/-- **An alias names the same.** -/
theorem Alias.target_eq {u v : List UInt8} (h : Alias u v) : target u = target v := by
  cases h with
  | home hcgi hslash =>
    rw [target_static hcgi, target_static (not_cgi_home hcgi hslash), if_pos hslash,
      if_neg (not_endsInSlash_home _)]
  | noArgs hcgi hq =>
    rw [target_plain hcgi hq, target_query (hcgi.trans (List.prefix_append _ _).isInfix) hq]

/-- A program's URI: the path, and the arguments if there is a question mark. -/
theorem program_cases (uri : List UInt8) : question ∉ uri ∨
    ∃ path args, question ∉ path ∧ uri = path ++ question :: args := by
  by_cases hq : question ∈ uri
  · obtain ⟨path, args, rfl, hpath⟩ := List.eq_append_cons_of_mem hq
    exact .inr ⟨path, args, hpath, rfl⟩
  · exact .inl hq

/-- Two programs that are named alike. -/
theorem alias_of_dynamic {u v : List UInt8} (hu : cgiBin <:+: u) (hv : cgiBin <:+: v)
    (h : target u = target v) : u = v ∨ Alias u v ∨ Alias v u := by
  obtain hqu | ⟨pu, au, hqu, rfl⟩ := program_cases u <;>
    obtain hqv | ⟨pv, av, hqv, rfl⟩ := program_cases v
  · rw [target_plain hu hqu, target_plain hv hqv] at h
    exact .inl (List.cons.inj (Target.mk.inj h).2.1).2
  · rw [target_plain hu hqu, target_query hv hqv] at h
    obtain ⟨-, hname, rfl⟩ := Target.mk.inj h
    obtain rfl := (List.cons.inj hname).2
    exact .inr (.inl (.noArgs hu hqu))
  · rw [target_query hu hqu, target_plain hv hqv] at h
    obtain ⟨-, hname, rfl⟩ := Target.mk.inj h
    obtain rfl := (List.cons.inj hname).2
    exact .inr (.inr (.noArgs hv hqv))
  · rw [target_query hu hqu, target_query hv hqv] at h
    obtain ⟨-, hname, rfl⟩ := Target.mk.inj h
    obtain rfl := (List.cons.inj hname).2
    exact .inl rfl

/-- Two files that are named alike. -/
theorem alias_of_static {u v : List UInt8} (hu : ¬ cgiBin <:+: u) (hv : ¬ cgiBin <:+: v)
    (h : target u = target v) : u = v ∨ Alias u v ∨ Alias v u := by
  rw [target_static hu, target_static hv] at h
  have hname := (List.cons.inj (Target.mk.inj h).2.1).2
  split_ifs at hname with hsu hsv hsv
  · exact .inl (List.append_cancel_right hname)
  · exact .inr (.inl (hname ▸ .home hu hsu))
  · exact .inr (.inr (hname ▸ .home hv hsv))
  · exact .inl hname

/-- **Which URIs name the same thing**: no others than the aliases. -/
theorem target_eq_iff {u v : List UInt8} :
    target u = target v ↔ u = v ∨ Alias u v ∨ Alias v u := by
  refine ⟨fun h ↦ ?_, ?_⟩
  · by_cases hu : cgiBin <:+: u <;> by_cases hv : cgiBin <:+: v
    · exact alias_of_dynamic hu hv h
    · rw [target_dynamic hu, target_static hv] at h
      exact absurd (Target.mk.inj h).1 (by decide)
    · rw [target_static hu, target_dynamic hv] at h
      exact absurd (Target.mk.inj h).1 (by decide)
    · exact alias_of_static hu hv h
  · intro h
    rcases h with rfl | h | h
    · rfl
    · exact h.target_eq
    · exact h.target_eq.symm

/-- **`parse_uri` confuses no other URIs than the aliases.** -/
theorem parseUri_eq_iff {u v : List UInt8} (hu : u.length < maxline) (hv : v.length < maxline)
    {t : Target} (h : parseUri u = .ok t) :
    parseUri v = .ok t ↔ v ≠ [] ∧ (u = v ∨ Alias u v ∨ Alias v u) := by
  obtain ⟨-, hfits, rfl⟩ := (parseUri_eq_ok_iff hu).1 h
  rw [parseUri_eq_ok_iff hv, ← target_eq_iff]
  exact ⟨fun ⟨hne, _, heq⟩ ↦ ⟨hne, heq⟩, fun ⟨hne, heq⟩ ↦ ⟨hne, heq ▸ hfits, heq⟩⟩

/-- `/` is `/home.html`. -/
theorem parseUri_eq_iff_root :
    parseUri (slash :: homeHtml) = .ok ⟨true, dot :: slash :: homeHtml, []⟩ ↔
      slash :: homeHtml ≠ [] ∧ ([slash] = slash :: homeHtml ∨ Alias [slash] (slash :: homeHtml) ∨
        Alias (slash :: homeHtml) [slash]) :=
  @parseUri_eq_iff [slash] (slash :: homeHtml) (by decide) (by decide) _ rfl

end CsappCode.Tiny
