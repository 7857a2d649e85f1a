import CsappCode.ProxyLab.Request

/-!
# The searches of `parse_uri`

`parse_uri` looks for the first colon behind `http://` and then for the first slash behind that
colon, and stores through what `strstr` returns without a look at it. What it finds it copies to the
three arrays of `*linep` without a look at the lengths. Here the function works on the bytes of
`*linep`: the arrays lie one behind the other, and a copy that is too long for `host` goes on in
`port` and in `path`.

* `parseUriInto_cases` says when both searches succeed, and what is copied then.
* `cstr_storeParts` is what the array `host` holds afterwards, as a string.
* `handles_uri_iff` says which URIs are cut where their parts end.

## Copies that are too long

`parseUri` of `ProxyLab/Request.lean` ends at a copy that leaves its array, for C gives no meaning
to what comes behind it, and a request has been parsed only if there is none. To say which URIs are
split at the wrong place this is too early: the copies are over before anything else happens, and as
long as the URI fits the array it comes from they stay inside the 8265 bytes of a `ReqLine`
(`length_parseUriInto`), so the function returns. So here the bytes fall where the copies put them.
Where `parseUri` returns, the two functions agree (`parseUriInto_of_parseUri`).

## What is taken from the caller

The text behind the scheme is a string, so there is no NUL in it, and `*linep` may hold anything.
-/

namespace CsappCode.ProxyLab

open Csapp (maxline)

/-! ### Copies into an area -/

/-- `strcpy(m + p, src)` in an area. -/
def strcpyAt (m : List UInt8) (p : ℕ) (src : List UInt8) : List UInt8 :=
  m.take p ++ strcpy (m.drop p) src

theorem length_strcpyAt {m : List UInt8} {p : ℕ} (hp : p ≤ m.length) (src : List UInt8) :
    (strcpyAt m p src).length = max m.length (p + (cstr src).length + 1) := by
  simp only [strcpyAt, strcpy, List.length_append, List.length_take, List.length_cons,
    List.length_drop]
  omega

theorem le_length_strcpyAt {m : List UInt8} {p : ℕ} (hp : p ≤ m.length) (src : List UInt8) :
    m.length ≤ (strcpyAt m p src).length := by
  rw [length_strcpyAt hp]
  exact le_max_left _ _

/-- What lies before the copy stays. -/
theorem take_strcpyAt {m : List UInt8} {p q : ℕ} (hp : p ≤ m.length) (hq : q ≤ p)
    (src : List UInt8) : (strcpyAt m p src).take q = m.take q := by
  have hlen : (m.take p).length = p := List.length_take_of_le hp
  rw [strcpyAt, List.take_append_of_le_length (hq.trans hlen.ge), List.take_take, min_eq_left hq]

theorem drop_strcpyAt {m : List UInt8} {p : ℕ} (hp : p ≤ m.length) (src : List UInt8) :
    (strcpyAt m p src).drop p = strcpy (m.drop p) src :=
  List.drop_left' (List.length_take_of_le hp)

/-- A string lies at the front, with its NUL. -/
theorem cstr_of_take {m s : List UInt8} (hs : NulFree s) (h : m.take (s.length + 1) = s ++ [0]) :
    cstr m = s := by
  rw [← List.take_append_drop (s.length + 1) m, h, List.append_assoc]
  exact cstr_append_nul hs _

/-- Bytes without a NUL belong to the string. -/
theorem cstr_append_of_nulFree {s : List UInt8} (hs : NulFree s) (m : List UInt8) :
    cstr (s ++ m) = s ++ cstr m :=
  List.takeWhile_append_of_pos fun b hb ↦ by simpa using hs b hb

/-- What `strcpy` has put there, and its NUL. -/
theorem take_strcpy {s : List UInt8} (hs : NulFree s) (dst : List UInt8) :
    (strcpy dst s).take (s.length + 1) = s ++ [0] := by
  rw [strcpy, cstr_eq_self hs, List.take_length_add_append]
  rfl

theorem take_strcpy_of_le {s : List UInt8} (hs : NulFree s) (dst : List UInt8) {n : ℕ}
    (hn : n ≤ s.length) : (strcpy dst s).take n = s.take n := by
  rw [strcpy, cstr_eq_self hs, List.take_append_of_le_length hn]

/-! ### The function -/

/-- The size of a `ReqLine`. -/
def reqLineSize : ℕ := hostnameMaxLen + portMaxLen + maxline

/-- Where the array `path` begins. -/
def pathOffset : ℕ := hostnameMaxLen + portMaxLen

/-- The strings in the arrays of a `ReqLine`. -/
def ReqLine.ofBytes (m : List UInt8) : ReqLine :=
  ⟨cstr m, cstr (m.drop hostnameMaxLen), cstr (m.drop pathOffset)⟩

/-- `parse_uri(uri, linep)`: the bytes of `*linep` afterwards. -/
def parseUriInto (m uri : List UInt8) : Except Fault (List UInt8) :=
  if httpPrefix <+: uri then
    match strstr [colon] (uri.drop httpPrefix.length) with
    | none => .error .nullPointer
    | some (host, c) =>
      let m := strcpyAt m 0 host
      match strstr [slash] (c.drop 1) with
      | none => .error .nullPointer
      | some (port, c) =>
        let m := strcpyAt m hostnameMaxLen port
        .ok (strcpyAt m pathOffset c)
  else .error .invalidUri

/-- The three copies. -/
def storeParts (m : List UInt8) (r : ReqLine) : List UInt8 :=
  strcpyAt (strcpyAt (strcpyAt m 0 r.host) hostnameMaxLen r.port) pathOffset r.path

/-- **The searches of an `http` URI**: one of the two delimiters is missing, or the URI is cut. -/
theorem parseUriInto_cases (m t : List UInt8) :
    (parseUriInto m (httpPrefix ++ t) = .error .nullPointer ∧
      ∀ r, ¬ UriCut (httpPrefix ++ t) r) ∨
    ∃ r, parseUriInto m (httpPrefix ++ t) = .ok (storeParts m r) ∧ UriCut (httpPrefix ++ t) r := by
  rw [parseUriInto, if_pos (List.prefix_append _ _), List.drop_left]
  obtain ⟨hnone, hcolon⟩ | ⟨host, post, rfl, hcolon, hsome⟩ := strstr_byte colon t
  · refine .inl ⟨by rw [hnone], fun r hr ↦ hcolon ?_⟩
    rw [List.append_cancel_left hr.eq_append]
    simp
  rw [hsome]
  dsimp only
  rw [List.drop_succ_cons, List.drop_zero]
  obtain ⟨hnone, hslash⟩ | ⟨port, path, rfl, hslash, hsome⟩ := strstr_byte slash post
  · refine .inl ⟨by rw [hnone], fun r hr ↦ hslash ?_⟩
    obtain ⟨rest, hpath⟩ := hr.path
    rw [(cut_unique hcolon hr.host (List.append_cancel_left hr.eq_append)).2, hpath]
    simp
  · rw [hsome]
    exact .inr ⟨⟨host, port, slash :: path⟩, rfl, rfl, hcolon, hslash, path, rfl⟩

/-- A URI is cut in one way. -/
theorem UriCut.unique {uri : List UInt8} {r r' : ReqLine} (h : UriCut uri r) (h' : UriCut uri r') :
    r = r' := by
  obtain ⟨rest, hpath⟩ := h.path
  obtain ⟨rest', hpath'⟩ := h'.path
  obtain ⟨hhost, hbehind⟩ := cut_unique h.host h'.host
    (List.append_cancel_left (h.eq_append.symm.trans h'.eq_append))
  rw [hpath, hpath'] at hbehind
  obtain ⟨hport, hrest⟩ := cut_unique h.port h'.port hbehind
  have hpaths : r.path = r'.path := by rw [hpath, hpath', hrest]
  obtain ⟨host, port, path⟩ := r
  obtain ⟨host', port', path'⟩ := r'
  exact ReqLine.mk.injEq .. ▸ ⟨hhost, hport, hpaths⟩

/-- **When both searches succeed.** -/
theorem parseUriInto_of_cut {m t : List UInt8} {r : ReqLine} (h : UriCut (httpPrefix ++ t) r) :
    parseUriInto m (httpPrefix ++ t) = .ok (storeParts m r) := by
  obtain ⟨-, hcut⟩ | ⟨r', hok, hcut⟩ := parseUriInto_cases m t
  · exact absurd h (hcut r)
  · rw [hok, hcut.unique h]

/-- The parts of a string are strings. -/
theorem UriCut.nulFree {t : List UInt8} {r : ReqLine} (h : UriCut (httpPrefix ++ t) r)
    (ht : NulFree t) : NulFree r.host ∧ NulFree r.port ∧ NulFree r.path := by
  obtain rfl := List.append_cancel_left h.eq_append
  obtain ⟨hhost, hbehind⟩ := nulFree_append_iff.1 ht
  obtain ⟨hport, hpath⟩ := nulFree_append_iff.1 fun b hb ↦ hbehind b (List.mem_cons_of_mem _ hb)
  exact ⟨hhost, hport, hpath⟩

/-! ### What the arrays hold -/

section Parts

variable {m : List UInt8} {r : ReqLine}

/-- The copies begin inside the area. -/
theorem offsets_le (hm : m.length = reqLineSize) (r : ReqLine) :
    hostnameMaxLen ≤ (strcpyAt m 0 r.host).length ∧
      pathOffset ≤ (strcpyAt (strcpyAt m 0 r.host) hostnameMaxLen r.port).length := by
  have hhost := le_length_strcpyAt (Nat.zero_le m.length) r.host
  have hsize : pathOffset ≤ m.length := by rw [hm]; decide
  have hle : hostnameMaxLen ≤ (strcpyAt m 0 r.host).length :=
    ((by decide : hostnameMaxLen ≤ pathOffset).trans hsize).trans hhost
  exact ⟨hle, (hsize.trans hhost).trans (le_length_strcpyAt hle r.port)⟩

/-- **The bytes of `host`** are those of the first copy. -/
theorem take_storeParts (hm : m.length = reqLineSize) (r : ReqLine) :
    (storeParts m r).take hostnameMaxLen = (strcpy m r.host).take hostnameMaxLen := by
  obtain ⟨hhost, hport⟩ := offsets_le hm r
  rw [storeParts, take_strcpyAt hport (by decide), take_strcpyAt hhost le_rfl]
  rfl

/-- **The bytes of `port`** are those of the second one. -/
theorem take_drop_storeParts (hm : m.length = reqLineSize) (r : ReqLine) :
    ((storeParts m r).drop hostnameMaxLen).take portMaxLen =
      (strcpy ((strcpyAt m 0 r.host).drop hostnameMaxLen) r.port).take portMaxLen := by
  obtain ⟨hhost, hport⟩ := offsets_le hm r
  rw [← drop_strcpyAt hhost, List.take_drop, List.take_drop]
  exact congrArg _ (take_strcpyAt hport le_rfl _)

/-- The array `path` holds the path. -/
theorem drop_storeParts (hm : m.length = reqLineSize) (r : ReqLine) :
    cstr ((storeParts m r).drop pathOffset) = cstr r.path := by
  rw [storeParts, drop_strcpyAt (offsets_le hm r).2, cstr_strcpy]

/-- A host that fits is there to be read. -/
theorem cstr_storeParts_of_lt (hm : m.length = reqLineSize) (hfree : NulFree r.host)
    (hlt : r.host.length < hostnameMaxLen) : cstr (storeParts m r) = r.host := by
  have hle : r.host.length + 1 ≤ hostnameMaxLen := hlt
  refine cstr_of_take hfree ?_
  rw [← min_eq_left hle, ← List.take_take, take_storeParts hm, List.take_take, min_eq_left hle,
    take_strcpy hfree]

/-- The first 63 bytes of a longer host have no NUL behind them: what is read goes on with what
follows. -/
theorem cstr_storeParts_of_le (hm : m.length = reqLineSize) (hfree : NulFree r.host)
    (hle : hostnameMaxLen ≤ r.host.length) : cstr (storeParts m r) =
      r.host.take hostnameMaxLen ++ cstr ((storeParts m r).drop hostnameMaxLen) := by
  have htake := take_storeParts hm r
  rw [take_strcpy_of_le hfree m hle] at htake
  have hfirst : NulFree (r.host.take hostnameMaxLen) := fun b hb ↦ hfree b (List.mem_of_mem_take hb)
  rw [← cstr_append_of_nulFree hfirst, ← htake, List.take_append_drop]

/-- **The array `port`.** It holds the port if that fits, and otherwise its first ten bytes and the
path behind them. -/
theorem cstr_drop_storeParts (hm : m.length = reqLineSize) (hport : NulFree r.port)
    (hpath : NulFree r.path) : cstr ((storeParts m r).drop hostnameMaxLen) =
      if r.port.length < portMaxLen then r.port else r.port.take portMaxLen ++ r.path := by
  have hfront := take_drop_storeParts hm r
  split_ifs with hlt
  · have hle : r.port.length + 1 ≤ portMaxLen := hlt
    refine cstr_of_take hport ?_
    rw [← min_eq_left hle, ← List.take_take, hfront, List.take_take, min_eq_left hle,
      take_strcpy hport]
  · have hle : portMaxLen ≤ r.port.length := Nat.le_of_not_lt hlt
    have hfirst : NulFree (r.port.take portMaxLen) := fun b hb ↦ hport b (List.mem_of_mem_take hb)
    rw [take_strcpy_of_le hport _ hle] at hfront
    rw [← List.take_append_drop portMaxLen ((storeParts m r).drop hostnameMaxLen), hfront,
      cstr_append_of_nulFree hfirst, List.drop_drop]
    exact congrArg _ ((drop_storeParts hm r).trans (cstr_eq_self hpath))

/-- **The array `host`**, as a string: what fits is there, and what is too long runs on through the
port, and through the path if the port is too long as well. -/
theorem cstr_storeParts (hm : m.length = reqLineSize) (hhost : NulFree r.host)
    (hport : NulFree r.port) (hpath : NulFree r.path) : cstr (storeParts m r) =
      if r.host.length < hostnameMaxLen then r.host
      else if r.port.length < portMaxLen then r.host.take hostnameMaxLen ++ r.port
      else r.host.take hostnameMaxLen ++ (r.port.take portMaxLen ++ r.path) := by
  split_ifs with hlt hlt'
  · exact cstr_storeParts_of_lt hm hhost hlt
  · rw [cstr_storeParts_of_le hm hhost (Nat.le_of_not_lt hlt), cstr_drop_storeParts hm hport hpath,
      if_pos hlt']
  · rw [cstr_storeParts_of_le hm hhost (Nat.le_of_not_lt hlt), cstr_drop_storeParts hm hport hpath,
      if_neg hlt']

/-- The copies of a URI that fits its own array stay inside the `ReqLine`. -/
theorem length_parseUriInto {t m' : List UInt8} (hm : m.length = reqLineSize) (ht : NulFree t)
    (hlen : (httpPrefix ++ t).length < maxline)
    (h : parseUriInto m (httpPrefix ++ t) = .ok m') : m'.length = reqLineSize := by
  obtain ⟨hnull, -⟩ | ⟨r, hok, hcut⟩ := parseUriInto_cases m t
  · exact absurd (h.symm.trans hnull) (by simp)
  obtain rfl := Except.ok.inj (h.symm.trans hok)
  obtain ⟨hhost, hport, hpath⟩ := hcut.nulFree ht
  have hparts := congrArg List.length hcut.eq_append
  simp only [List.length_append, List.length_cons] at hparts hlen
  have hsize : reqLineSize = hostnameMaxLen + portMaxLen + maxline := rfl
  have hoffset : pathOffset = hostnameMaxLen + portMaxLen := rfl
  have h₁ := length_strcpyAt (Nat.zero_le m.length) r.host
  have h₂ := length_strcpyAt (offsets_le hm r).1 r.port
  have h₃ := length_strcpyAt (offsets_le hm r).2 r.path
  rw [cstr_eq_self hhost] at h₁
  rw [cstr_eq_self hport] at h₂
  rw [cstr_eq_self hpath] at h₃
  rw [storeParts]
  omega

/-- **Where `parseUri` returns, the arrays hold its fields.** -/
theorem parseUriInto_of_parseUri {t : List UInt8} (hm : m.length = reqLineSize) (ht : NulFree t)
    (h : parseUri (httpPrefix ++ t) = .ok r) :
    ∃ m', parseUriInto m (httpPrefix ++ t) = .ok m' ∧ ReqLine.ofBytes m' = r := by
  obtain ⟨hcut, hhostLen, hportLen, -⟩ := parseUri_eq_ok_iff.1 h
  obtain ⟨hhost, hport, hpath⟩ := hcut.nulFree ht
  refine ⟨_, parseUriInto_of_cut hcut, ?_⟩
  rw [ReqLine.ofBytes, cstr_storeParts_of_lt hm hhost hhostLen, cstr_drop_storeParts hm hport hpath,
    if_pos hportLen, drop_storeParts hm, cstr_eq_self hpath]

end Parts

/-! ### Where the URI is cut -/

/-- **A URI that `parse_uri` handles**, whatever `*linep` holds at first. No search fails; and if
the function returns, there is no slash in the host that it has stored, and the path begins at the
first slash behind the scheme. -/
structure HandlesUri (uri : List UInt8) : Prop where
  searches : ∀ m, m.length = reqLineSize → parseUriInto m uri ≠ .error .nullPointer
  host : ∀ m m', m.length = reqLineSize → parseUriInto m uri = .ok m' →
    slash ∉ (ReqLine.ofBytes m').host
  path : ∀ m m', m.length = reqLineSize → parseUriInto m uri = .ok m' →
    ∃ pre rest, uri = httpPrefix ++ (pre ++ (ReqLine.ofBytes m').path) ∧ slash ∉ pre ∧
      (ReqLine.ofBytes m').path = slash :: rest

theorem slash_ne_colon : slash ≠ colon := by decide

/-- The path begins at the first slash just if there is none in the host. -/
theorem UriCut.path_first_iff {t : List UInt8} {r : ReqLine} (h : UriCut (httpPrefix ++ t) r) :
    (∃ pre rest, httpPrefix ++ t = httpPrefix ++ (pre ++ r.path) ∧ slash ∉ pre ∧
      r.path = slash :: rest) ↔ slash ∉ r.host := by
  have ht := List.append_cancel_left h.eq_append
  have heq : r.host ++ colon :: (r.port ++ r.path) = (r.host ++ colon :: r.port) ++ r.path := by
    rw [List.append_assoc, List.cons_append]
  constructor
  · rintro ⟨pre, rest, hpre, hslash, -⟩ hmem
    have hfront := List.append_cancel_right
      ((List.append_cancel_left hpre).symm.trans (ht.trans heq))
    exact hslash (hfront ▸ List.mem_append_left _ hmem)
  · intro hslash
    obtain ⟨rest, hpath⟩ := h.path
    refine ⟨r.host ++ colon :: r.port, rest, by rw [ht, heq], ?_, hpath⟩
    rw [List.mem_append, List.mem_cons]
    rintro (hmem | hmem | hmem)
    · exact hslash hmem
    · exact slash_ne_colon hmem
    · exact h.port hmem

/-- **Which `http` URIs are handled**: those with a colon behind the scheme and a slash behind that
colon, and no slash before it, in which not both the host and the port are too long for their
arrays. -/
theorem handles_uri_iff {t : List UInt8} (ht : NulFree t) : HandlesUri (httpPrefix ++ t) ↔
    ∃ r, UriCut (httpPrefix ++ t) r ∧ slash ∉ r.host ∧
      (r.host.length < hostnameMaxLen ∨ r.port.length < portMaxLen) := by
  obtain ⟨m₀, hm₀⟩ : ∃ m₀ : List UInt8, m₀.length = reqLineSize :=
    ⟨List.replicate reqLineSize 0, List.length_replicate⟩
  constructor
  · intro h
    obtain ⟨hnull, -⟩ | ⟨r, hok, hcut⟩ := parseUriInto_cases m₀ t
    · exact absurd hnull (h.searches m₀ hm₀)
    obtain ⟨hhost, hport, hpath⟩ := hcut.nulFree ht
    have hstored := h.host m₀ _ hm₀ hok
    have hfirst := h.path m₀ _ hm₀ hok
    rw [ReqLine.ofBytes, drop_storeParts hm₀, cstr_eq_self hpath] at hfirst
    refine ⟨r, hcut, hcut.path_first_iff.1 hfirst, ?_⟩
    by_contra hlong
    rw [not_or] at hlong
    obtain ⟨rest, hslash⟩ := hcut.path
    rw [ReqLine.ofBytes, cstr_storeParts hm₀ hhost hport hpath, if_neg hlong.1, if_neg hlong.2,
      hslash] at hstored
    exact hstored (by simp)
  · rintro ⟨r, hcut, hslash, hlen⟩
    obtain ⟨hhost, hport, hpath⟩ := hcut.nulFree ht
    have hreturns : ∀ m m', parseUriInto m (httpPrefix ++ t) = .ok m' → m' = storeParts m r :=
      fun m m' h ↦ Except.ok.inj (h.symm.trans (parseUriInto_of_cut hcut))
    refine ⟨fun m _ ↦ by simp [parseUriInto_of_cut hcut], fun m m' hm h ↦ ?_, fun m m' hm h ↦ ?_⟩
    · obtain rfl := hreturns m m' h
      have htake : slash ∉ r.host.take hostnameMaxLen := fun hmem ↦
        hslash (List.mem_of_mem_take hmem)
      rw [ReqLine.ofBytes, cstr_storeParts hm hhost hport hpath]
      split_ifs with hlt hlt'
      · exact hslash
      · exact List.not_mem_append htake hcut.port
      · exact absurd hlen (not_or.2 ⟨hlt, hlt'⟩)
    · obtain rfl := hreturns m m' h
      rw [ReqLine.ofBytes, drop_storeParts hm, cstr_eq_self hpath]
      exact hcut.path_first_iff.2 hslash

/-- `"h/a:b/c"`: a colon only in the path is taken for the one behind the host. -/
theorem handles_uri_iff_colonInPath : HandlesUri (httpPrefix ++ [104, 47, 97, 58, 98, 47, 99]) ↔
    ∃ r, UriCut (httpPrefix ++ [104, 47, 97, 58, 98, 47, 99]) r ∧ slash ∉ r.host ∧
      (r.host.length < hostnameMaxLen ∨ r.port.length < portMaxLen) :=
  handles_uri_iff (by decide)

/-- `"h/"`: the URI `http://h/` has no port, and the search for the colon fails. -/
theorem noPort_not_handled : ¬ ∀ t, NulFree t → HandlesUri (httpPrefix ++ t) := fun h ↦
  (h [104, 47] (by decide)).searches (List.replicate reqLineSize 0) List.length_replicate rfl

end CsappCode.ProxyLab
