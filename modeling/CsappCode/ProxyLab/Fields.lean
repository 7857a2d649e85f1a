import CsappCode.ProxyLab.Survival

/-!
# Which requests overflow a field

`parse_uri` and `parse_header` copy into arrays of fixed sizes without looking at the lengths, and
`parse_request` counts headers beyond the end of the array of `doit`. If the request line has no
second word, `parse_uri` works on what the stack holds in its place (`parseRequestOn`).

* `NoOverflow` says that all copies fit, and `noOverflow_bind_iff` takes it through the functions.
* `UriFits`, `HeaderFits` and `HeadersFit` are the conditions on a URI, on a header line and on the
  run of them, with `noOverflow_parseUri_iff`, `noOverflow_parseHeader_iff` and
  `noOverflow_headerLoop_iff`.
* `FieldsFit` is the condition on the bytes of the client, and `no_overflow_iff` says that it is
  exact.

## What counts as an overflow

**Every field by itself.** A host that is too long runs into the port and the path behind it, inside
the same structure. It is an overflow of the field all the same, although the process may not
notice. What such a request does, if the bytes are taken as they fall, is the subject of the modules
on the search in the URI and on the provenance of the fields.

**What is not reached** cannot overflow. A request that ends in `exit` before a header is copied
keeps to the arrays, however long that header is.

**The stack.** Without a second word the condition cannot hold, because the statement is for
whatever string the stack holds, and one of them is too long.
-/

namespace CsappCode.ProxyLab

open Csapp (lines maxline IsLine)

/-! ### Copies that fit -/

/-- No array is overrun. -/
def NoOverflow {α : Type} (x : Except Fault α) : Prop := ∀ area, x ≠ .error (.overflow area)

theorem noOverflow_ok {α : Type} (a : α) : NoOverflow (.ok a) := fun _ h ↦ absurd h (by simp)

/-- **One step after the other**: the second one counts only if it is reached. -/
theorem noOverflow_bind_iff {α β : Type} {x : Except Fault α} {f : α → Except Fault β} :
    NoOverflow (x >>= f) ↔ NoOverflow x ∧ ∀ a, x = .ok a → NoOverflow (f a) := by
  rcases x with fault | a
  · refine ⟨fun h ↦ ⟨fun area hx ↦ h area ?_, fun a hx ↦ absurd hx (by simp)⟩, ?_⟩
    · rw [Except.error.inj hx]
      rfl
    · exact fun h area hx ↦ h.1 area (congrArg _ (Except.error.inj hx))
  · refine ⟨fun h ↦ ⟨noOverflow_ok a, fun b hb ↦ ?_⟩, fun h ↦ h.2 a rfl⟩
    rw [← Except.ok.inj hb]
    exact h

theorem noOverflow_copyInto_iff {area : Area} {capacity : ℕ} {s : List UInt8} :
    NoOverflow (copyInto area capacity s) ↔ s.length < capacity := by
  rw [copyInto]
  split_ifs with h
  · exact iff_of_true (noOverflow_ok s) h
  · exact iff_of_false (fun hno ↦ hno area rfl) h

/-- A copy, and what is done with it. -/
theorem noOverflow_copy_bind_iff {α : Type} {area : Area} {capacity : ℕ} {s : List UInt8}
    {f : List UInt8 → Except Fault α} :
    NoOverflow (copyInto area capacity s >>= f) ↔ s.length < capacity ∧ NoOverflow (f s) := by
  rw [noOverflow_bind_iff, noOverflow_copyInto_iff]
  refine and_congr_right fun hlt ↦ ⟨fun h ↦ h s (copyInto_eq_ok_iff.2 ⟨rfl, hlt⟩), ?_⟩
  rintro h t ht
  rwa [(copyInto_eq_ok_iff.1 ht).1]

/-! ### `parse_uri` -/

/-- The host and the port of a URI fit, as far as `parse_uri` gets to copy them. -/
def UriFits (uri : List UInt8) : Prop :=
  ∀ host rest, uri = httpPrefix ++ (host ++ colon :: rest) → colon ∉ host →
    host.length < hostnameMaxLen ∧
      ∀ port path, rest = port ++ slash :: path → slash ∉ port → port.length < portMaxLen

/-- **When `parse_uri` stays in its fields.** The path always fits. -/
theorem noOverflow_parseUri_iff {uri : List UInt8} (hlen : uri.length < maxline) :
    NoOverflow (parseUri uri) ↔ UriFits uri := by
  rw [parseUri]
  split_ifs with hprefix
  swap
  · refine iff_of_true (fun area h ↦ absurd h (by simp)) fun host rest heq ↦ ?_
    exact absurd ⟨_, heq.symm⟩ hprefix
  obtain ⟨t, rfl⟩ := hprefix
  rw [List.drop_left]
  obtain ⟨hnone, hcolon⟩ | ⟨host, post, rfl, hcolon, hsome⟩ := strstr_byte colon t
  · -- without a colon nothing is copied
    rw [hnone]
    refine iff_of_true (fun area h ↦ absurd h (by simp)) fun host rest heq _ ↦ ?_
    exact absurd (List.append_cancel_left heq ▸ by simp) hcolon
  rw [hsome]
  dsimp only
  rw [noOverflow_copy_bind_iff]
  have hiff : UriFits (httpPrefix ++ (host ++ colon :: post)) ↔ host.length < hostnameMaxLen ∧
      ∀ port path, post = port ++ slash :: path → slash ∉ port → port.length < portMaxLen := by
    refine ⟨fun h ↦ h host post rfl hcolon, fun h host' rest heq hcolon' ↦ ?_⟩
    obtain ⟨rfl, rfl⟩ := cut_unique hcolon hcolon' (List.append_cancel_left heq)
    exact h
  rw [hiff]
  refine and_congr_right fun _ ↦ ?_
  rw [List.drop_succ_cons, List.drop_zero]
  obtain ⟨hnone', hslash⟩ | ⟨port, path, rfl, hslash, hsome'⟩ := strstr_byte slash post
  · rw [hnone']
    refine iff_of_true (fun area h ↦ absurd h (by simp)) fun port path heq _ ↦ ?_
    exact absurd (heq ▸ by simp) hslash
  rw [hsome']
  dsimp only
  rw [noOverflow_copy_bind_iff, noOverflow_copy_bind_iff]
  constructor
  · rintro ⟨hport, -⟩ port' path' heq hslash'
    rwa [← (cut_unique hslash hslash' heq).1]
  · intro h
    refine ⟨h port path rfl hslash, ?_, noOverflow_ok _⟩
    simp only [List.length_append, List.length_cons] at hlen ⊢
    omega

/-! ### `parse_header` -/

/-- **When `parse_header` stays in its fields**, at a line with a separator. -/
theorem noOverflow_parseHeader_iff {line : List UInt8} (hsep : headerSep <:+: line) :
    NoOverflow (parseHeader line) ↔ ∃ header, HeaderFits line header := by
  obtain ⟨⟨name, suf⟩, hcut⟩ := Option.isSome_iff_exists.1 (strstr_isSome_iff.2 hsep)
  obtain ⟨value, rfl, hfirst⟩ := strstr_eq_some_iff.1 hcut
  rw [parseHeader, hcut]
  dsimp only
  rw [noOverflow_copy_bind_iff, noOverflow_copy_bind_iff, List.drop_left]
  constructor
  · rintro ⟨hname, hvalue, -⟩
    exact ⟨⟨name, value⟩, hfirst, hname, hvalue⟩
  · rintro ⟨header, hcut', hname, hvalue⟩
    obtain ⟨hn, hv⟩ := hcut'.unique hfirst
    exact ⟨hn ▸ hname, hv ▸ hvalue, noOverflow_ok _⟩

/-- Without a separator nothing is copied. -/
theorem parseHeader_of_no_sep {line : List UInt8} (hsep : ¬ headerSep <:+: line) :
    parseHeader line = .error (.invalidHeader line) := by
  have hnone := Option.not_isSome_iff_eq_none.1 (mt strstr_isSome_iff.1 hsep)
  rw [parseHeader, hnone]

/-! ### The header loop -/

/-- The lines that the loop takes for headers: those before the first one without a separator. -/
def headerLines (buffers : List (List UInt8)) : List (List UInt8) :=
  buffers.takeWhile fun line ↦ headerSep <:+: line

/-- At most `room` headers, and each of them fits. -/
def HeadersFit (room : ℕ) (buffers : List (List UInt8)) : Prop :=
  (headerLines buffers).length ≤ room ∧
    ∀ line ∈ headerLines buffers, ∃ header, HeaderFits line header

theorem headersFit_nil (room : ℕ) : HeadersFit room [] :=
  ⟨Nat.zero_le _, fun _ h ↦ absurd h List.not_mem_nil⟩

theorem headersFit_cons_of_no_sep {line : List UInt8} (hsep : ¬ headerSep <:+: line) (room : ℕ)
    (rest : List (List UInt8)) : HeadersFit room (line :: rest) := by
  rw [HeadersFit, headerLines, List.takeWhile_cons_of_neg (by simpa using hsep)]
  exact headersFit_nil room

theorem headersFit_cons_iff {line : List UInt8} (hsep : headerSep <:+: line) {room : ℕ}
    {rest : List (List UInt8)} : HeadersFit room (line :: rest) ↔
      (∃ header, HeaderFits line header) ∧ 1 ≤ room ∧ HeadersFit (room - 1) rest := by
  rw [HeadersFit, HeadersFit, headerLines, List.takeWhile_cons_of_pos (by simpa using hsep)]
  rw [List.length_cons, List.forall_mem_cons, headerLines]
  constructor
  · rintro ⟨hlen, hline, hrest⟩
    exact ⟨hline, by omega, by omega, hrest⟩
  · rintro ⟨hline, hroom, hlen, hrest⟩
    exact ⟨by omega, hline, hrest⟩

theorem no_sep_crlf : ¬ headerSep <:+: crlf := by decide

/-- A turn at a line without a separator is the last one, and copies nothing. -/
theorem noOverflow_headerLoop_of_no_sep {buf : List UInt8} (hsep : ¬ headerSep <:+: buf)
    (fuel : ℕ) (rest : List (List UInt8)) (headers : List ReqHeader) :
    NoOverflow (headerLoop (fuel + 1) buf rest headers) := by
  rcases eq_or_ne buf crlf with rfl | hne
  · rw [headerLoop, if_pos rfl]
    exact noOverflow_ok headers
  · rw [headerLoop_error hne (parseHeader_of_no_sep hsep)]
    exact fun area h ↦ absurd h (by simp)

/-- A turn at a line with a separator. -/
theorem noOverflow_headerLoop_succ_iff {buf : List UInt8} (hsep : headerSep <:+: buf) {fuel : ℕ}
    {rest : List (List UInt8)} {headers : List ReqHeader} :
    NoOverflow (headerLoop (fuel + 1) buf rest headers) ↔
      ∃ header, parseHeader buf = .ok (header, header.name) ∧ headers.length < maxHeaders ∧
        NoOverflow (headerLoop fuel (readline header.name rest).1 (readline header.name rest).2
          (headers ++ [header])) := by
  have hne : buf ≠ crlf := fun h ↦ no_sep_crlf (h ▸ hsep)
  rcases hparse : parseHeader buf with fault | ⟨header, cut⟩
  · rw [headerLoop_error hne hparse]
    refine iff_of_false (fun hno ↦ ?_) (by simp)
    -- with a separator there is no other fault than an overflow
    have hfits := (noOverflow_parseHeader_iff hsep).1 fun area h ↦
      hno area (congrArg _ (Except.error.inj (hparse.symm.trans h)))
    obtain ⟨header, hfits⟩ := hfits
    have hok := parseHeader_eq_ok_iff.2 ⟨rfl, hfits.cut, hfits.name, hfits.value⟩
    exact absurd (hparse.symm.trans hok) (by simp)
  · obtain rfl := (parseHeader_eq_ok_iff.1 hparse).1
    rw [headerLoop_header hne hparse]
    split_ifs with hlt
    · refine ⟨fun h ↦ ⟨header, rfl, hlt, h⟩, ?_⟩
      rintro ⟨header', heq, -, h⟩
      rwa [(Prod.mk.inj (Except.ok.inj heq)).1]
    · refine iff_of_false (fun hno ↦ hno _ rfl) ?_
      rintro ⟨_, -, hlt', -⟩
      exact hlt hlt'

theorem parseHeader_eq_ok_iff_headerFits {line : List UInt8} {header : ReqHeader} :
    parseHeader line = .ok (header, header.name) ↔ HeaderFits line header := by
  rw [parseHeader_eq_ok_iff]
  exact ⟨fun ⟨_, hcut, hname, hvalue⟩ ↦ ⟨hcut, hname, hvalue⟩,
    fun h ↦ ⟨rfl, h.cut, h.name, h.value⟩⟩

/-- One turn, when the next ones are known to stay in their arrays just if their lines fit. -/
theorem noOverflow_headerLoop_turn {buf : List UInt8} {fuel : ℕ} {rest : List (List UInt8)}
    {headers : List ReqHeader}
    (hnext : ∀ header, parseHeader buf = .ok (header, header.name) →
      (NoOverflow (headerLoop fuel (readline header.name rest).1 (readline header.name rest).2
          (headers ++ [header])) ↔
        HeadersFit (maxHeaders - (headers.length + 1)) (rest.map cstr))) :
    NoOverflow (headerLoop (fuel + 1) buf rest headers) ↔
      HeadersFit (maxHeaders - headers.length) (buf :: rest.map cstr) := by
  by_cases hsep : headerSep <:+: buf
  swap
  · exact iff_of_true (noOverflow_headerLoop_of_no_sep hsep _ _ _)
      (headersFit_cons_of_no_sep hsep _ _)
  rw [noOverflow_headerLoop_succ_iff hsep, headersFit_cons_iff hsep, Nat.sub_sub]
  constructor
  · rintro ⟨header, hparse, hlt, hno⟩
    exact ⟨⟨header, parseHeader_eq_ok_iff_headerFits.1 hparse⟩, by omega,
      (hnext header hparse).1 hno⟩
  · rintro ⟨⟨header, hfits⟩, hroom, hrest⟩
    have hparse := parseHeader_eq_ok_iff_headerFits.2 hfits
    exact ⟨header, hparse, by omega, (hnext header hparse).2 hrest⟩

/-- **When the header loop stays in its arrays.** -/
theorem noOverflow_headerLoop_iff (rest : List (List UInt8)) : ∀ {fuel : ℕ} {buf : List UInt8}
    {headers : List ReqHeader}, rest.length + 2 ≤ fuel →
      (NoOverflow (headerLoop fuel buf rest headers) ↔
        HeadersFit (maxHeaders - headers.length) (buf :: rest.map cstr)) := by
  induction rest with
  | nil =>
    intro fuel buf headers hfuel
    obtain ⟨fuel, rfl⟩ := Nat.exists_eq_add_of_le' (show 2 ≤ fuel from hfuel)
    refine noOverflow_headerLoop_turn fun header hparse ↦ iff_of_true ?_ (headersFit_nil _)
    -- at the end of file the cut line is met again
    rw [readline, headerLoop_cut hparse]
    split_ifs
    · exact noOverflow_ok _
    · exact fun area h ↦ absurd h (by simp)
  | cons line rest ih =>
    intro fuel buf headers hfuel
    obtain ⟨fuel, rfl⟩ := Nat.exists_eq_add_of_le' (show 1 ≤ fuel by omega)
    refine noOverflow_headerLoop_turn fun header _ ↦ ?_
    have hfuel' : rest.length + 2 ≤ fuel := by simpa using hfuel
    rw [readline, ih hfuel', List.length_append, List.length_singleton, List.map_cons]

/-! ### Whole requests -/

/-- `parse_request`, when `uri` holds the string `uri₀` at first: that is what `parse_uri` is given
when `sscanf` assigns no second word. -/
def parseRequestOn (uri₀ : List UInt8) (stream : List UInt8) :
    Except Fault (Option (ReqLine × List ReqHeader)) :=
  match lines stream with
  | [] => .ok none
  | first :: rest => do
    let line ← parseUri ((secondWord (cstr first)).getD uri₀)
    let (buf, rest) := readline (cstr first) rest
    let headers ← headerLoop (rest.length + 2) buf rest []
    pure (some (line, headers))

/-- Otherwise it does not matter. -/
theorem parseRequestOn_eq (uri₀ : List UInt8) {stream : List UInt8}
    (h : parseRequest stream ≠ .error .uninitialised) :
    parseRequestOn uri₀ stream = parseRequest stream := by
  rcases hlines : lines stream with - | ⟨first, rest⟩
  · simp only [parseRequestOn, parseRequest, hlines]
  · rcases hword : secondWord (cstr first) with - | uri
    · exact absurd (by simp only [parseRequest, hlines, hword]) h
    · simp only [parseRequestOn, parseRequest, hlines, hword, Option.getD_some]

/-- **A request whose fields fit.** Its first line has a second word, with a host and a port that
fit; and if `parse_uri` comes to its end, the header lines do. Without any, the request line is
looked at again. -/
def FieldsFit (stream : List UInt8) : Prop :=
  ∀ first rest, lines stream = first :: rest → ∃ uri, secondWord (cstr first) = some uri ∧
    UriFits uri ∧ ∀ line, UriCut uri line →
      HeadersFit maxHeaders (if rest = [] then [cstr first] else rest.map cstr)

/-- A URI whose fields fit is accepted if it can be cut. -/
theorem parseUri_eq_ok_iff_of_uriFits {uri : List UInt8} {line : ReqLine} (hfits : UriFits uri)
    (hlen : uri.length < maxline) : parseUri uri = .ok line ↔ UriCut uri line := by
  refine parseUri_eq_ok_iff.trans ⟨And.left, fun hcut ↦ ⟨hcut, ?_⟩⟩
  obtain ⟨path, hpath⟩ := hcut.path
  obtain ⟨hhost, hport⟩ := hfits line.host (line.port ++ line.path) hcut.eq_append hcut.host
  have hcutLen := hcut.length_eq
  exact ⟨hhost, hport line.port path (by rw [hpath]) hcut.port, by omega⟩

/-- The loop of `parse_request`, from the line behind the request line. -/
theorem noOverflow_headerLoop_readline_iff {first : List UInt8} {rest : List (List UInt8)} :
    NoOverflow (headerLoop ((readline (cstr first) rest).2.length + 2)
        (readline (cstr first) rest).1 (readline (cstr first) rest).2 []) ↔
      HeadersFit maxHeaders (if rest = [] then [cstr first] else rest.map cstr) := by
  rw [noOverflow_headerLoop_iff _ le_rfl]
  cases rest with
  | nil => exact Iff.rfl
  | cons line rest => exact Iff.rfl

/-- `"http://"`, a host of 63 bytes and a colon. -/
def longHost : List UInt8 := httpPrefix ++ (List.replicate 63 97 ++ [colon])

theorem not_uriFits_longHost : ¬ UriFits longHost := by
  intro h
  have hcolon : colon ∉ List.replicate 63 97 := fun hmem ↦
    absurd (List.eq_of_mem_replicate hmem) (by decide)
  exact absurd (h _ [] rfl hcolon).1 (by decide)

/-- **No field overflows exactly when the fields fit**, whatever string is on the stack. -/
theorem no_overflow_iff (stream : List UInt8) :
    (∀ uri₀ : List UInt8, NulFree uri₀ → uri₀.length < maxline →
      NoOverflow (parseRequestOn uri₀ stream)) ↔ FieldsFit stream := by
  rcases hlines : lines stream with - | ⟨first, rest⟩
  · refine iff_of_true (fun uri₀ _ _ ↦ ?_) fun first rest h ↦ absurd (hlines.symm.trans h) (by simp)
    simp only [parseRequestOn, hlines]
    exact noOverflow_ok none
  have hfirst : IsLine first := Csapp.isLine_of_mem_lines (hlines ▸ List.mem_cons_self)
  -- what is left of `FieldsFit` is about this one line, and the rest
  have hfit : FieldsFit stream ↔ ∃ uri, secondWord (cstr first) = some uri ∧ UriFits uri ∧
      ∀ line, UriCut uri line →
        HeadersFit maxHeaders (if rest = [] then [cstr first] else rest.map cstr) := by
    refine ⟨fun h ↦ h first rest hlines, fun h first' rest' hlines' ↦ ?_⟩
    obtain ⟨rfl, rfl⟩ := List.cons.inj (hlines.symm.trans hlines')
    exact h
  rw [hfit]
  rcases hword : secondWord (cstr first) with - | uri
  · refine iff_of_false (fun h ↦ ?_) (by simp)
    have hno := h longHost (by decide) (by decide)
    simp only [parseRequestOn, hlines, hword, Option.getD_none] at hno
    exact not_uriFits_longHost
      ((noOverflow_parseUri_iff (by decide)).1 (noOverflow_bind_iff.1 hno).1)
  · have hlen := length_secondWord_lt hfirst hword
    have hrequest : ∀ uri₀, NoOverflow (parseRequestOn uri₀ stream) ↔ UriFits uri ∧
        ∀ line, UriCut uri line →
          HeadersFit maxHeaders (if rest = [] then [cstr first] else rest.map cstr) := by
      intro uri₀
      simp only [parseRequestOn, hlines, hword, Option.getD_some]
      rw [noOverflow_bind_iff, noOverflow_parseUri_iff hlen]
      refine and_congr_right fun hfits ↦ forall_congr' fun line ↦ ?_
      rw [parseUri_eq_ok_iff_of_uriFits hfits hlen, noOverflow_bind_iff,
        noOverflow_headerLoop_readline_iff]
      exact imp_congr_right fun _ ↦ and_iff_left fun headers _ ↦ noOverflow_ok _
    constructor
    · exact fun h ↦ ⟨uri, rfl, (hrequest []).1 (h [] (by decide) (by decide))⟩
    · rintro ⟨uri', heq, hfits⟩ uri₀ - -
      obtain rfl := Option.some.inj heq
      exact (hrequest uri₀).2 hfits

/-- A request for `http://h:80/` with one header, whose value has 64 bytes with its newline. -/
def longValue : List UInt8 :=
  [71, 69, 84, 32, 104, 116, 116, 112, 58, 47, 47, 104, 58, 56, 48, 47, 32, 72, 13, 10] ++
    ([65, 58, 32] ++ List.replicate 62 97 ++ crlf) ++ crlf

theorem longValue_overflows : ¬ ∀ stream uri₀ : List UInt8, NulFree uri₀ → uri₀.length < maxline →
    NoOverflow (parseRequestOn uri₀ stream) := by
  intro h
  refine h longValue [] (by decide) (by decide) .headerValue ?_
  decide

end CsappCode.ProxyLab
