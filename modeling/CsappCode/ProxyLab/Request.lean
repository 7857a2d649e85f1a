import CsappCode.Csapp.Lines
import CsappCode.Library.Scanf
import CsappCode.ProxyLab.Memory

/-!
# Reading a request

`parse_request` of `proxy.c` reads the request line and the headers of a client, and `parse_uri` and
`parse_header` cut them into fixed arrays. Whatever does not fit the pattern ends the whole process:
by `exit`, through a null pointer, or by writing past an array. These ends are the `Fault`s.

* `parseUri`, `parseHeader`, `headerLoop` and `parseRequest` are the functions.
* `parseUri_eq_ok_iff` and `parseHeader_eq_ok_iff` say what is accepted, on a single URI and a
  single line.
* `headerLoop_eq_ok_iff` and `parseRequest_eq_ok_iff` say the same of the header lines and of a
  whole stream.
* `parseRequest_ne_running` says that the loop ends.

## How the code is modelled

**Buffers.** A buffer is given by the string it holds. At the end of file `Rio_readlineb` leaves the
buffer as it is, so the header loop goes on with the line that `parse_header` has just cut.

**Overruns** stop the functions here, with the array that was overrun. In C the rest of the run is
undefined then, and often it goes on. `Fault.undefined` tells such ends from those that are defined,
and the statements for which the difference matters have a model of their own in which the bytes are
taken as they fall.

**A request line without a second word** leaves the array of the URI as the stack had it, which is a
fault here; the modules on the fields take the content of the stack as a parameter.

**An empty stream** is no fault of `parse_request`, which returns. What `doit` makes of it is said
there.
-/

namespace CsappCode.ProxyLab

open Csapp (lines maxline IsLine)
open Scanf (isSpace)

/-! ### Bytes and sizes -/

/-- `"http://"`. -/
def httpPrefix : List UInt8 := [104, 116, 116, 112, 58, 47, 47]

/-- `':'`. -/
def colon : UInt8 := 58

/-- `'/'`. -/
def slash : UInt8 := 47

/-- `": "`. -/
def headerSep : List UInt8 := [58, 32]

/-- `"\\r\\n"`. -/
def crlf : List UInt8 := [13, 10]

/-- `HOSTNAME_MAX_LEN`. -/
def hostnameMaxLen : ℕ := 63

/-- `PORT_MAX_LEN`. -/
def portMaxLen : ℕ := 10

/-- `HEADER_NAME_MAX_LEN`. -/
def headerNameMaxLen : ℕ := 32

/-- `HEADER_VALUE_MAX_LEN`. -/
def headerValueMaxLen : ℕ := 64

/-- The size of `doit`'s array of headers. -/
def maxHeaders : ℕ := 20

/-- `ReqLine`. -/
structure ReqLine where
  host : List UInt8
  port : List UInt8
  path : List UInt8
  deriving DecidableEq

/-- `ReqHeader`. -/
structure ReqHeader where
  name : List UInt8
  value : List UInt8
  deriving DecidableEq

/-- The arrays that can be overrun. -/
inductive Area where
  | host
  | port
  | path
  | headerName
  | headerValue
  | headers
  | uri
  | request
  | objectBuf
  | object
  | slots
  deriving DecidableEq, Repr

/-- How a connection can bring the process to its end, or leave what it does undefined. -/
inductive Fault where
  /-- `exit(0)` after `"Error: invalid uri!\\n"` -/
  | invalidUri
  /-- `exit(0)` after `"Error: invalid header: %s\\n"` with the line -/
  | invalidHeader (line : List UInt8)
  /-- a store through the null pointer that `strstr` returned -/
  | nullPointer
  /-- a copy that does not fit -/
  | overflow (area : Area)
  /-- a read of a variable that was never assigned -/
  | uninitialised
  /-- `exit(0)` in `unix_error`, after `"Open_clientfd error"` -/
  | openClientfd
  /-- not over after the turns allowed -/
  | running
  deriving DecidableEq

/-- C leaves the rest of the run undefined. The other faults end the process. -/
def Fault.undefined : Fault → Bool
  | .overflow _ | .uninitialised => true
  | _ => false

/-- A copy into an array, with its NUL. -/
def copyInto (area : Area) (capacity : ℕ) (s : List UInt8) : Except Fault (List UInt8) :=
  if s.length < capacity then .ok s else .error (.overflow area)

theorem copyInto_eq_ok_iff {area : Area} {capacity : ℕ} {s t : List UInt8} :
    copyInto area capacity s = .ok t ↔ t = s ∧ s.length < capacity := by
  rw [copyInto]
  split_ifs with h
  · exact ⟨fun heq ↦ ⟨(Except.ok.inj heq).symm, h⟩, fun heq ↦ by rw [heq.1]⟩
  · exact ⟨fun heq ↦ absurd heq (by simp), fun heq ↦ absurd heq.2 h⟩

/-- A computation with faults succeeds when both of its parts do. -/
theorem bind_eq_ok_iff {ε α β : Type} {x : Except ε α} {f : α → Except ε β} {b : β} :
    x >>= f = .ok b ↔ ∃ a, x = .ok a ∧ f a = .ok b := by
  cases x with
  | error e =>
    refine ⟨fun h ↦ absurd h (by simp [bind, Except.bind]), ?_⟩
    exact fun ⟨_, h, _⟩ ↦ absurd h (by simp)
  | ok a => exact ⟨fun h ↦ ⟨a, rfl, h⟩, fun ⟨_, h, h'⟩ ↦ by rwa [Except.ok.inj h]⟩

theorem copyInto_ne_running {area : Area} {capacity : ℕ} {s : List UInt8} :
    copyInto area capacity s ≠ .error .running := by
  rw [copyInto]
  split_ifs <;> simp

theorem bind_ne_running {α β : Type} {x : Except Fault α} {f : α → Except Fault β}
    (hx : x ≠ .error .running) (hf : ∀ a, f a ≠ .error .running) : x >>= f ≠ .error .running := by
  cases x with
  | error fault => exact fun h ↦ hx (congrArg _ (Except.error.inj h))
  | ok a => exact hf a

/-- The faults of the parsing functions: `exit`, a null pointer, a copy that does not fit. -/
def Fault.ofParsing : Fault → Bool
  | .invalidUri | .invalidHeader _ | .nullPointer | .overflow _ => true
  | _ => false

/-- The computation gives a value, or ends in a fault of this kind. -/
def Parses {α : Type} (x : Except Fault α) : Prop :=
  ∀ fault, x = .error fault → fault.ofParsing = true

theorem parses_ok {α : Type} (a : α) : Parses (.ok a) := fun _ h ↦ absurd h (by simp)

theorem parses_error {α : Type} {fault : Fault} (h : fault.ofParsing = true) :
    Parses (.error fault : Except Fault α) := fun _ heq ↦ Except.error.inj heq ▸ h

theorem Parses.bind {α β : Type} {x : Except Fault α} {f : α → Except Fault β} (hx : Parses x)
    (hf : ∀ a, Parses (f a)) : Parses (x >>= f) := by
  cases x with
  | error fault => exact fun fault' h ↦ hx fault' (congrArg _ (Except.error.inj h))
  | ok a => exact hf a

theorem parses_copyInto (area : Area) (capacity : ℕ) (s : List UInt8) :
    Parses (copyInto area capacity s) := by
  rw [copyInto]
  split_ifs
  · exact parses_ok s
  · exact parses_error rfl

/-! ### `parse_uri` and `parse_header` -/

/-- `parse_uri(uri, linep)`. -/
def parseUri (uri : List UInt8) : Except Fault ReqLine :=
  if httpPrefix <+: uri then
    match strstr [colon] (uri.drop httpPrefix.length) with
    | none => .error .nullPointer
    | some (host, c) => do
      let host ← copyInto .host hostnameMaxLen host
      match strstr [slash] (c.drop 1) with
      | none => .error .nullPointer
      | some (port, c) => do
        let port ← copyInto .port portMaxLen port
        let path ← copyInto .path maxline c
        pure ⟨host, port, path⟩
  else .error .invalidUri

/-- `parse_header(line)`: the header, and the line as it is cut. -/
def parseHeader (line : List UInt8) : Except Fault (ReqHeader × List UInt8) :=
  match strstr headerSep line with
  | none => .error (.invalidHeader line)
  | some (name, c) => do
    let name ← copyInto .headerName headerNameMaxLen name
    let value ← copyInto .headerValue headerValueMaxLen (c.drop headerSep.length)
    pure (⟨name, value⟩, name)

/-- The URI is cut at the first colon behind `http://` and at the first slash behind that. -/
structure UriCut (uri : List UInt8) (r : ReqLine) : Prop where
  eq_append : uri = httpPrefix ++ (r.host ++ colon :: (r.port ++ r.path))
  host : colon ∉ r.host
  port : slash ∉ r.port
  path : ∃ rest, r.path = slash :: rest

/-- **What `parse_uri` accepts**: a URI that can be cut into three fields that fit. -/
theorem parseUri_eq_ok_iff {uri : List UInt8} {r : ReqLine} :
    parseUri uri = .ok r ↔ UriCut uri r ∧ r.host.length < hostnameMaxLen ∧
      r.port.length < portMaxLen ∧ r.path.length < maxline := by
  refine ⟨fun h ↦ ?_, ?_⟩
  · rw [parseUri] at h
    split_ifs at h with hprefix
    obtain ⟨rest, rfl⟩ := hprefix
    rw [List.drop_left] at h
    rcases hhost : strstr [colon] rest with - | ⟨host, c⟩
    · exact absurd h (by simp [hhost])
    obtain ⟨post, rfl, hcut⟩ := strstr_eq_some_iff.1 hhost
    obtain ⟨rfl, hcolon⟩ := firstCut_singleton_iff.1 hcut
    simp only [hhost, List.singleton_append, List.drop_succ_cons, List.drop_zero, bind_eq_ok_iff,
      copyInto_eq_ok_iff] at h
    obtain ⟨_, ⟨rfl, hhostLen⟩, h⟩ := h
    rcases hport : strstr [slash] post with - | ⟨port, path⟩
    · exact absurd h (by simp [hport])
    obtain ⟨post', rfl, hcut'⟩ := strstr_eq_some_iff.1 hport
    obtain ⟨rfl, hslash⟩ := firstCut_singleton_iff.1 hcut'
    simp only [hport, bind_eq_ok_iff, copyInto_eq_ok_iff] at h
    obtain ⟨_, ⟨rfl, hportLen⟩, _, ⟨rfl, hpathLen⟩, h⟩ := h
    obtain rfl := Except.ok.inj h
    exact ⟨⟨rfl, hcolon, hslash, post', rfl⟩, hhostLen, hportLen, hpathLen⟩
  · rintro ⟨⟨rfl, hcolon, hslash, rest, hpath⟩, hhostLen, hportLen, hpathLen⟩
    obtain ⟨host, port, path⟩ := r
    obtain rfl : path = slash :: rest := hpath
    have hhost : strstr [colon] (host ++ colon :: (port ++ slash :: rest)) =
        some (host, colon :: (port ++ slash :: rest)) :=
      strstr_eq_some_iff.2 ⟨_, rfl, firstCut_singleton_iff.2 ⟨rfl, hcolon⟩⟩
    have hport : strstr [slash] (port ++ slash :: rest) = some (port, slash :: rest) :=
      strstr_eq_some_iff.2 ⟨_, rfl, firstCut_singleton_iff.2 ⟨rfl, hslash⟩⟩
    rw [parseUri, if_pos (List.prefix_append _ _), List.drop_left]
    simp only [hhost, List.drop_succ_cons, List.drop_zero, hport, bind_eq_ok_iff,
      copyInto_eq_ok_iff]
    exact ⟨host, ⟨rfl, hhostLen⟩, port, ⟨rfl, hportLen⟩, _, ⟨rfl, hpathLen⟩, rfl⟩

/-- **What `parse_header` accepts**: a line with the separator, around which two fields fit. -/
theorem parseHeader_eq_ok_iff {line cut : List UInt8} {h : ReqHeader} :
    parseHeader line = .ok (h, cut) ↔ cut = h.name ∧ FirstCut headerSep line h.name h.value ∧
      h.name.length < headerNameMaxLen ∧ h.value.length < headerValueMaxLen := by
  refine ⟨fun heq ↦ ?_, ?_⟩
  · rw [parseHeader] at heq
    rcases hsep : strstr headerSep line with - | ⟨name, c⟩
    · exact absurd heq (by simp [hsep])
    obtain ⟨value, rfl, hcut⟩ := strstr_eq_some_iff.1 hsep
    simp only [hsep, List.drop_left, bind_eq_ok_iff, copyInto_eq_ok_iff] at heq
    obtain ⟨_, ⟨rfl, hname⟩, _, ⟨rfl, hvalue⟩, heq⟩ := heq
    obtain ⟨rfl, rfl⟩ := Prod.mk.inj (Except.ok.inj heq)
    exact ⟨rfl, hcut, hname, hvalue⟩
  · rintro ⟨rfl, hcut, hname, hvalue⟩
    have hsep := strstr_eq_some_iff.2 ⟨h.value, rfl, hcut⟩
    rw [parseHeader]
    simp only [hsep, List.drop_left, bind_eq_ok_iff, copyInto_eq_ok_iff]
    exact ⟨_, ⟨rfl, hname⟩, _, ⟨rfl, hvalue⟩, rfl⟩

/-- A line that has been cut is not accepted again. -/
theorem parseHeader_cut {line : List UInt8} {h : ReqHeader}
    (hparse : parseHeader line = .ok (h, h.name)) :
    parseHeader h.name = .error (.invalidHeader h.name) := by
  obtain ⟨-, hcut, -, -⟩ := parseHeader_eq_ok_iff.1 hparse
  rw [parseHeader, hcut.strstr_pre (by decide)]

/-! ### `parse_request` -/

/-- One `%s` of `sscanf`: the word, which is empty if there is none, and the rest. -/
def nextWord (s : List UInt8) : List UInt8 × List UInt8 :=
  let t := s.dropWhile isSpace
  (t.takeWhile fun b ↦ !isSpace b, t.dropWhile fun b ↦ !isSpace b)

/-- What `sscanf(buf, "%s %s %s", method, uri, version)` assigns to `uri`. -/
def secondWord (buf : List UInt8) : Option (List UInt8) :=
  let (method, rest) := nextWord buf
  let (uri, _) := nextWord rest
  if method = [] ∨ uri = [] then none else some uri

/-- `Rio_readlineb(&rio, buf, MAXLINE)` on the lines to come: the buffer keeps its string at the end
of file. -/
def readline (buf : List UInt8) : List (List UInt8) → List UInt8 × List (List UInt8)
  | [] => (buf, [])
  | line :: rest => (cstr line, rest)

/-- The header loop, for at most `fuel` turns. -/
def headerLoop : ℕ → List UInt8 → List (List UInt8) → List ReqHeader →
    Except Fault (List ReqHeader)
  | 0, _, _, _ => .error .running
  | fuel + 1, buf, rest, headers =>
    if buf = crlf then .ok headers
    else
      match parseHeader buf with
      | .error fault => .error fault
      | .ok (header, cut) =>
        if headers.length < maxHeaders then
          -- at the end of file this is the line just cut
          let (buf, rest) := readline cut rest
          headerLoop fuel buf rest (headers ++ [header])
        else .error (.overflow .headers)

/-- `parse_request`: the request line and the headers. There are none when it returns early, at an
empty stream. -/
def parseRequest (stream : List UInt8) : Except Fault (Option (ReqLine × List ReqHeader)) :=
  match lines stream with
  | [] => .ok none
  | first :: rest =>
    match secondWord (cstr first) with
    | none => .error .uninitialised
    | some uri => do
      let line ← parseUri uri
      let (buf, rest) := readline (cstr first) rest
      let headers ← headerLoop (rest.length + 2) buf rest []
      pure (some (line, headers))

/-! ### The header loop -/

/-- The strings that the loop accepts: headers up to an empty line. -/
inductive HeaderLines : List (List UInt8) → List ReqHeader → Prop
  | stop {tail : List (List UInt8)} : HeaderLines (crlf :: tail) []
  | header {buf : List UInt8} {rest : List (List UInt8)} {header : ReqHeader}
      {headers : List ReqHeader} : parseHeader buf = .ok (header, header.name) →
      HeaderLines rest headers → HeaderLines (buf :: rest) (header :: headers)

theorem parses_parseHeader (line : List UInt8) : Parses (parseHeader line) := by
  rw [parseHeader]
  split
  · exact parses_error rfl
  · exact (parses_copyInto _ _ _).bind fun _ ↦ (parses_copyInto _ _ _).bind fun _ ↦ parses_ok _

/-- An empty line is no header. -/
theorem parseHeader_crlf : parseHeader crlf = .error (.invalidHeader crlf) := rfl

/-- A turn at a line that is not accepted. -/
theorem headerLoop_error {buf : List UInt8} {fault : Fault} (hbuf : buf ≠ crlf)
    (hparse : parseHeader buf = .error fault) (fuel : ℕ) (rest : List (List UInt8))
    (headers : List ReqHeader) : headerLoop (fuel + 1) buf rest headers = .error fault := by
  rw [headerLoop, if_neg hbuf, hparse]

/-- A turn at a header. -/
theorem headerLoop_header {buf cut : List UInt8} {header : ReqHeader} (hbuf : buf ≠ crlf)
    (hparse : parseHeader buf = .ok (header, cut)) (fuel : ℕ) (rest : List (List UInt8))
    (headers : List ReqHeader) : headerLoop (fuel + 1) buf rest headers =
      if headers.length < maxHeaders then
        headerLoop fuel (readline cut rest).1 (readline cut rest).2 (headers ++ [header])
      else .error (.overflow .headers) := by
  rw [headerLoop, if_neg hbuf, hparse]

/-- At the end of file the cut line ends the loop. -/
theorem headerLoop_cut {buf : List UInt8} {header : ReqHeader}
    (hparse : parseHeader buf = .ok (header, header.name)) (fuel : ℕ) (headers : List ReqHeader) :
    headerLoop (fuel + 1) header.name [] headers =
      if header.name = crlf then .ok headers else .error (.invalidHeader header.name) := by
  split_ifs with hname
  · rw [headerLoop, if_pos hname]
  · exact headerLoop_error hname (parseHeader_cut hparse) fuel [] headers

/-- A turn that is not the last one: the loop ends if it does behind an accepted header. -/
theorem parses_headerLoop_turn {fuel : ℕ} {buf : List UInt8} {rest : List (List UInt8)}
    {headers : List ReqHeader}
    (hnext : ∀ header, parseHeader buf = .ok (header, header.name) →
      Parses (headerLoop fuel (readline header.name rest).1 (readline header.name rest).2
        (headers ++ [header]))) :
    Parses (headerLoop (fuel + 1) buf rest headers) := by
  rcases eq_or_ne buf crlf with rfl | hbuf
  · rw [headerLoop, if_pos rfl]
    exact parses_ok headers
  rcases hparse : parseHeader buf with fault | ⟨header, cut⟩
  · rw [headerLoop_error hbuf hparse]
    exact parses_error (parses_parseHeader buf fault hparse)
  · obtain rfl := (parseHeader_eq_ok_iff.1 hparse).1
    rw [headerLoop_header hbuf hparse]
    split_ifs
    · exact hnext header hparse
    · exact parses_error rfl

/-- **The header loop ends**: after the last line, one more turn. -/
theorem parses_headerLoop (rest : List (List UInt8)) : ∀ {fuel : ℕ} {buf : List UInt8}
    {headers : List ReqHeader}, rest.length + 2 ≤ fuel →
      Parses (headerLoop fuel buf rest headers) := by
  induction rest with
  | nil =>
    intro fuel buf headers hfuel
    obtain ⟨fuel, rfl⟩ := Nat.exists_eq_add_of_le' (show 2 ≤ fuel from hfuel)
    refine parses_headerLoop_turn fun header hparse ↦ ?_
    -- At the end of file the cut line is met again.
    rw [readline, headerLoop_cut hparse]
    split_ifs
    · exact parses_ok _
    · exact parses_error rfl
  | cons line rest ih =>
    intro fuel buf headers hfuel
    obtain ⟨fuel, rfl⟩ := Nat.exists_eq_add_of_le' (show 1 ≤ fuel by omega)
    exact parses_headerLoop_turn fun header _ ↦ ih (by simpa using hfuel)

/-- The string of some line. -/
def IsLineString (buf : List UInt8) : Prop := ∃ line, IsLine line ∧ cstr line = buf

/-- A header's name is never an empty line, for the newline of a line is its last byte. -/
theorem name_ne_crlf {buf : List UInt8} {header : ReqHeader} (hbuf : IsLineString buf)
    (hparse : parseHeader buf = .ok (header, header.name)) : header.name ≠ crlf := by
  obtain ⟨line, hline, rfl⟩ := hbuf
  obtain ⟨-, hcut, -, -⟩ := parseHeader_eq_ok_iff.1 hparse
  intro hname
  obtain ⟨rest, hrest⟩ : cstr line <+: line := List.takeWhile_prefix _
  have hlast : line = [13, 10, 58] ++ ([32] ++ header.value ++ rest) := by
    rw [← hrest, hcut.eq_append, hname]
    simp [crlf, headerSep]
  refine hline.newline_last ?_
  rw [hlast, List.dropLast_append_of_ne_nil (by simp)]
  exact List.mem_append_left _ (by decide)

theorem headerLines_nil_iff {headers : List ReqHeader} : ¬ HeaderLines [] headers := by
  rintro ⟨⟩

/-- An empty line ends the headers. -/
theorem headerLines_crlf_iff {rest : List (List UInt8)} {headers : List ReqHeader} :
    HeaderLines (crlf :: rest) headers ↔ headers = [] := by
  refine ⟨fun h ↦ ?_, ?_⟩
  · cases h with
    | stop => rfl
    | header hparse => exact absurd hparse (by simp [parseHeader_crlf])
  · rintro rfl
    exact .stop

/-- Any other line is a header. -/
theorem headerLines_cons_iff {buf : List UInt8} (hbuf : buf ≠ crlf) {rest : List (List UInt8)}
    {headers : List ReqHeader} : HeaderLines (buf :: rest) headers ↔
      ∃ header more, headers = header :: more ∧ parseHeader buf = .ok (header, header.name) ∧
        HeaderLines rest more := by
  refine ⟨fun h ↦ ?_, ?_⟩
  · cases h with
    | stop => exact absurd rfl hbuf
    | header hparse hrest => exact ⟨_, _, rfl, hparse, hrest⟩
  · rintro ⟨header, more, rfl, hparse, hrest⟩
    exact .header hparse hrest

/-- A turn that goes on. -/
theorem headerLoop_succ_eq_ok_iff {buf : List UInt8} (hbuf : buf ≠ crlf) {fuel : ℕ}
    {rest : List (List UInt8)} {headers result : List ReqHeader} :
    headerLoop (fuel + 1) buf rest headers = .ok result ↔
      ∃ header, parseHeader buf = .ok (header, header.name) ∧ headers.length < maxHeaders ∧
        headerLoop fuel (readline header.name rest).1 (readline header.name rest).2
          (headers ++ [header]) = .ok result := by
  rcases hparse : parseHeader buf with fault | ⟨header, cut⟩
  · rw [headerLoop_error hbuf hparse]
    simp
  · obtain rfl := (parseHeader_eq_ok_iff.1 hparse).1
    rw [headerLoop_header hbuf hparse]
    refine ⟨fun h ↦ ?_, ?_⟩
    · split_ifs at h with hlt
      exact ⟨header, rfl, hlt, h⟩
    · rintro ⟨header', heq, hlt, h⟩
      obtain rfl : header = header' := (Prod.mk.inj (Except.ok.inj heq)).1
      rw [if_pos hlt]
      exact h

/-- **What the header loop accepts**, however much fuel it has beyond what it needs. -/
theorem headerLoop_eq_ok_iff (rest : List (List UInt8)) : ∀ {fuel : ℕ} {buf : List UInt8}
    {headers result : List ReqHeader}, IsLineString buf → (∀ line ∈ rest, IsLine line) →
      rest.length + 2 ≤ fuel → headers.length ≤ maxHeaders →
      (headerLoop fuel buf rest headers = .ok result ↔
        ∃ more, HeaderLines (buf :: rest.map cstr) more ∧ result = headers ++ more ∧
          headers.length + more.length ≤ maxHeaders) := by
  induction rest with
  | nil =>
    intro fuel buf headers result hbuf _ hfuel hlen
    obtain ⟨fuel, rfl⟩ := Nat.exists_eq_add_of_le' (show 2 ≤ fuel from hfuel)
    rcases eq_or_ne buf crlf with rfl | hne
    · simp [headerLoop, headerLines_crlf_iff, hlen, eq_comm]
    · -- at the end of file the cut line is met again
      rw [headerLoop_succ_eq_ok_iff hne]
      constructor
      · rintro ⟨header, hparse, -, h⟩
        rw [readline, headerLoop_cut hparse, if_neg (name_ne_crlf hbuf hparse)] at h
        exact absurd h (by simp)
      · rintro ⟨more, hmore, -⟩
        obtain ⟨_, _, -, -, hnil⟩ := (headerLines_cons_iff hne).1 hmore
        exact absurd hnil headerLines_nil_iff
  | cons line rest ih =>
    intro fuel buf headers result hbuf hrest hfuel hlen
    obtain ⟨fuel, rfl⟩ := Nat.exists_eq_add_of_le' (show 1 ≤ fuel by omega)
    rcases eq_or_ne buf crlf with rfl | hne
    · simp [headerLoop, headerLines_crlf_iff, hlen, eq_comm]
    · have hnext : IsLineString (cstr line) := ⟨line, hrest line List.mem_cons_self, rfl⟩
      have hrest' : ∀ l ∈ rest, IsLine l := fun l hl ↦ hrest l (List.mem_cons_of_mem _ hl)
      have hfuel' : rest.length + 2 ≤ fuel := by simpa using hfuel
      rw [headerLoop_succ_eq_ok_iff hne]
      constructor
      · rintro ⟨header, hparse, hlt, h⟩
        have hlen' : (headers ++ [header]).length ≤ maxHeaders := by
          rw [List.length_append, List.length_singleton]
          omega
        obtain ⟨more, hmore, rfl, hle⟩ := (ih hnext hrest' hfuel' hlen').1 h
        refine ⟨header :: more, (headerLines_cons_iff hne).2 ⟨_, _, rfl, hparse, hmore⟩, ?_, ?_⟩
        · rw [List.append_assoc]; rfl
        · simp only [List.length_append, List.length_cons, List.length_nil] at hle ⊢
          omega
      · rintro ⟨more, hmore, rfl, hle⟩
        obtain ⟨header, more, rfl, hparse, hmore⟩ := (headerLines_cons_iff hne).1 hmore
        rw [List.length_cons] at hle
        have hlen' : (headers ++ [header]).length ≤ maxHeaders := by
          rw [List.length_append, List.length_singleton]
          omega
        refine ⟨header, hparse, by omega, (ih hnext hrest' hfuel' hlen').2 ⟨more, hmore, ?_, ?_⟩⟩
        · rw [List.append_assoc]; rfl
        · rw [List.length_append, List.length_singleton]
          omega

/-! ### Whole requests -/

/-- An empty line has no second word. -/
theorem secondWord_crlf : secondWord crlf = none := by decide

theorem length_nextWord_le (s : List UInt8) :
    (nextWord s).1.length ≤ s.length ∧ (nextWord s).2.length ≤ s.length := by
  have hdrop := (List.dropWhile_suffix isSpace (l := s)).length_le
  constructor
  · exact (List.takeWhile_prefix _).length_le.trans hdrop
  · exact (List.dropWhile_suffix _).length_le.trans hdrop

/-- The second word, behind the first one. -/
theorem nextWord_of_secondWord {buf uri : List UInt8} (h : secondWord buf = some uri) :
    (nextWord (nextWord buf).2).1 = uri := by
  simp only [secondWord] at h
  split_ifs at h
  exact Option.some.inj h

/-- A word of a string has no NUL. -/
theorem nulFree_secondWord {line uri : List UInt8} (h : secondWord (cstr line) = some uri) :
    NulFree uri := by
  obtain rfl := nextWord_of_secondWord h
  intro b hb
  have hword := (List.dropWhile_suffix _).subset ((List.takeWhile_prefix _).subset hb)
  exact nulFree_cstr line b
    ((List.dropWhile_suffix _).subset ((List.dropWhile_suffix _).subset hword))

/-- A word of a line is shorter than the buffer. -/
theorem length_secondWord_lt {line uri : List UInt8} (hline : IsLine line)
    (h : secondWord (cstr line) = some uri) : uri.length < maxline := by
  obtain rfl := nextWord_of_secondWord h
  have hword := (length_nextWord_le (nextWord (cstr line)).2).1
  have hrest := (length_nextWord_le (cstr line)).2
  have hcstr := length_cstr_le line
  have hlen := hline.length_lt
  omega

/-- **What `parse_request` accepts**: a request line whose second word is a URI that fits, then at
most twenty headers that fit, then an empty line. -/
theorem parseRequest_eq_ok_iff {stream : List UInt8} {line : ReqLine} {headers : List ReqHeader} :
    parseRequest stream = .ok (some (line, headers)) ↔
      ∃ first rest uri, lines stream = first :: rest ∧ secondWord (cstr first) = some uri ∧
        parseUri uri = .ok line ∧ HeaderLines (rest.map cstr) headers ∧
        headers.length ≤ maxHeaders := by
  rcases hlines : lines stream with - | ⟨first, rest⟩
  · simp [parseRequest, hlines]
  have hisLine : ∀ l ∈ first :: rest, IsLine l := fun l hl ↦
    Csapp.isLine_of_mem_lines (hlines ▸ hl)
  rcases hword : secondWord (cstr first) with - | uri
  · simp only [parseRequest, hlines, hword]
    refine ⟨fun h ↦ ?_, ?_⟩
    · exact absurd h (by simp)
    · rintro ⟨first', rest', uri, heq, hword', -⟩
      obtain ⟨rfl, rfl⟩ := List.cons.inj heq
      exact absurd (hword.symm.trans hword') (by simp)
  simp only [parseRequest, hlines, hword, bind_eq_ok_iff]
  -- what remains is the loop, from the line that follows the request line
  have hloop : ∀ result, headerLoop ((readline (cstr first) rest).2.length + 2)
      (readline (cstr first) rest).1 (readline (cstr first) rest).2 [] = .ok result ↔
      HeaderLines (rest.map cstr) result ∧ result.length ≤ maxHeaders := by
    intro result
    cases rest with
    | nil =>
      have hne : cstr first ≠ crlf := fun h ↦
        absurd (hword.symm.trans (h ▸ secondWord_crlf)) (by simp)
      rw [readline, headerLoop_eq_ok_iff [] ⟨first, hisLine first List.mem_cons_self, rfl⟩ (by simp)
        le_rfl (Nat.zero_le _)]
      constructor
      · rintro ⟨more, hmore, -⟩
        obtain ⟨_, _, -, -, hnil⟩ := (headerLines_cons_iff hne).1 hmore
        exact absurd hnil headerLines_nil_iff
      · rintro ⟨hnil, -⟩
        exact absurd hnil headerLines_nil_iff
    | cons l rest =>
      have hmem : ∀ l' ∈ l :: rest, IsLine l' := fun l' hl' ↦
        hisLine l' (List.mem_cons_of_mem _ hl')
      rw [readline, headerLoop_eq_ok_iff rest ⟨l, hmem l List.mem_cons_self, rfl⟩
        (fun l' hl' ↦ hmem l' (List.mem_cons_of_mem _ hl')) le_rfl (Nat.zero_le _)]
      simp
  constructor
  · rintro ⟨line', hline, result, hresult, heq⟩
    obtain ⟨rfl, rfl⟩ := Prod.mk.inj (Option.some.inj (Except.ok.inj heq))
    exact ⟨first, rest, uri, rfl, hword, hline, (hloop _).1 hresult⟩
  · rintro ⟨first', rest', uri', heq, hword', hline, hheaders⟩
    obtain ⟨rfl, rfl⟩ := List.cons.inj heq
    obtain rfl := Option.some.inj (hword.symm.trans hword')
    exact ⟨line, hline, headers, (hloop _).2 hheaders, rfl⟩

theorem parses_parseUri (uri : List UInt8) : Parses (parseUri uri) := by
  rw [parseUri]
  split_ifs
  · split
    · exact parses_error rfl
    · refine (parses_copyInto _ _ _).bind fun _ ↦ ?_
      split
      · exact parses_error rfl
      · exact (parses_copyInto _ _ _).bind fun _ ↦ (parses_copyInto _ _ _).bind fun _ ↦ parses_ok _
  · exact parses_error rfl

/-- It returns without an answer only at an empty stream. -/
theorem parseRequest_ne_none {stream first : List UInt8} {rest : List (List UInt8)}
    (hlines : lines stream = first :: rest) : parseRequest stream ≠ .ok none := by
  simp only [parseRequest, hlines]
  split
  · simp
  · intro h
    obtain ⟨_, -, h⟩ := bind_eq_ok_iff.1 h
    obtain ⟨_, -, h⟩ := bind_eq_ok_iff.1 h
    exact absurd h (by simp [pure, Except.pure])

/-- Behind a request line with a second word there are no other faults. -/
theorem parses_parseRequest {stream first uri : List UInt8} {rest : List (List UInt8)}
    (hlines : lines stream = first :: rest) (hword : secondWord (cstr first) = some uri) :
    Parses (parseRequest stream) := by
  simp only [parseRequest, hlines, hword]
  exact (parses_parseUri uri).bind fun _ ↦ (parses_headerLoop _ le_rfl).bind fun _ ↦ parses_ok _

/-- **`parse_request` ends** on every stream. -/
theorem parseRequest_ne_running (stream : List UInt8) :
    parseRequest stream ≠ .error .running := by
  rcases hlines : lines stream with - | ⟨first, rest⟩
  · simp [parseRequest, hlines]
  · rcases hword : secondWord (cstr first) with - | uri
    · simp [parseRequest, hlines, hword]
    · exact fun h ↦ absurd (parses_parseRequest hlines hword _ h) (by decide)

end CsappCode.ProxyLab
