import CsappCode.Tiny.Responses
import CsappCode.ProxyLab.Doit

/-!
# Asking for a file

`Get` is a request as a client composes it, and `Serves` are the files that can be asked for.

* `doit_get` says that Tiny answers the URI of a request, whatever the headers are and whatever
  comes behind them.
* `isSome_readRequesthdrs_iff` says when `read_requesthdrs` comes back: just if the empty line
  comes. At the end of file its buffer stays what it was, and so it waits for good.
* `get_file` is about the file that is asked for. Its content is sent whole with every library; what
  stands in front of it depends on what the library makes of a `sprintf` into its own source.

## What a client can rely on

A reader who goes by `Content-length` has the file if the library appends, and no response at all if
the library keeps the last text only. A reader who takes what is behind the first empty line, up to
the end of file, has the file with both.

## What the results assume

**The request** is well formed: the URI is a word, what follows it in its line and the header lines
are lines, and each fits the array it is read into. The headers may be any, and none of them is
looked at.

**The file** is regular, its owner may read it, it can be opened, and its size is a positive `int`;
an empty file cannot be mapped. Its name is the one that `parse_uri` makes of the URI, and its
content may be anything, NULs included.

**The turns** of `read_requesthdrs` are at least as many as there are header lines.
-/

namespace CsappCode.Tiny

open Csapp (lines maxline newline EndsInNewline)
open ProxyLab (cstr crlf readline NulFree getMethod cstr_eq_self)
open Printf (bytes SelfSprintf)
open Scanf (isSpace readWord)

/-! ### `read_requesthdrs` -/

/-- **When `read_requesthdrs` comes back**: one of the first `fuel` strings is the empty line. -/
theorem isSome_readRequesthdrs_iff (fuel : ℕ) : ∀ (buf : List UInt8) (rest : List (List UInt8)),
    (readRequesthdrs fuel buf rest).isSome ↔ crlf ∈ (buf :: rest.map cstr).take fuel := by
  induction fuel with
  | zero => exact fun _ _ ↦ by simp [readRequesthdrs]
  | succ fuel ih =>
    intro buf rest
    rw [readRequesthdrs, List.take_succ_cons, List.mem_cons]
    split_ifs with hbuf
    · exact iff_of_true rfl (.inl hbuf.symm)
    · rw [or_iff_right (Ne.symm hbuf)]
      cases rest with
      | nil =>
        -- the end of file
        refine (ih buf []).trans (iff_of_false ?_ (by simp))
        cases fuel <;> simp [Ne.symm hbuf]
      | cons line rest => exact ih (cstr line) rest

/-- The strings that `read_requesthdrs` finds in its buffer, one after the other. -/
def headerStrings (x : Connection) (rest : List (List UInt8)) : List (List UInt8) :=
  (readline x.headers rest).1 :: (readline x.headers rest).2.map cstr

theorem headerStrings_cons (x : Connection) (line : List UInt8) (rest : List (List UInt8)) :
    headerStrings x (line :: rest) = (line :: rest).map cstr := rfl

/-! ### Requests -/

/-- The parts of a request: `tail` is what follows the URI in its line. -/
structure Get where
  uri : List UInt8
  tail : List UInt8
  headers : List (List UInt8)

namespace Get

def requestLine (g : Get) : List UInt8 := getMethod ++ g.uri ++ g.tail

/-- The bytes on the wire, up to the empty line. -/
def bytes (g : Get) : List UInt8 := g.requestLine ++ (g.headers.flatten ++ crlf)

/-- The URI is a word, and the lines are lines. -/
structure WellFormed (g : Get) : Prop where
  uri_ne_nil : g.uri ≠ []
  uri : ∀ b ∈ g.uri, isSpace b = false
  tail : ∃ c rest, g.tail = c :: rest ∧ isSpace c = true
  requestLine : EndsInNewline g.requestLine ∧ NulFree g.requestLine
  headers : ∀ l ∈ g.headers, EndsInNewline l

variable {g : Get}

theorem WellFormed.length_uri (hg : g.WellFormed) : g.uri.length < maxline := by
  have hlen := hg.requestLine.1.1
  rw [Get.requestLine, List.length_append, List.length_append] at hlen
  omega

theorem lines_bytes (hg : g.WellFormed) (more : List UInt8) :
    lines (g.bytes ++ more) = g.requestLine :: (g.headers ++ crlf :: lines more) := by
  have hcrlf : EndsInNewline crlf := ⟨by decide, [13], rfl, by decide⟩
  rw [bytes, List.append_assoc, List.append_assoc, Csapp.lines_append hg.requestLine.1,
    Csapp.lines_flatten_append hg.headers, Csapp.lines_append hcrlf]

/-- **The words of the request line.** -/
theorem scanRequest_requestLine (hg : g.WellFormed) (x : Connection) :
    scanRequest x (cstr g.requestLine) = (Printf.bytes "GET", g.uri) := by
  obtain ⟨c, rest, htail, hc⟩ := hg.tail
  have hmethod : readWord (Printf.bytes "GET" ++ 32 :: (g.uri ++ c :: rest)) =
      some (Printf.bytes "GET", 32 :: (g.uri ++ c :: rest)) :=
    @Scanf.readWord_append [] (Printf.bytes "GET") _ 32 (by simp) (by decide)
      (by decide +kernel) (by decide)
  have huri : readWord (32 :: (g.uri ++ c :: rest)) = some (g.uri, c :: rest) :=
    @Scanf.readWord_append [32] g.uri rest c (by decide +kernel) hg.uri_ne_nil hg.uri hc
  have hline : g.requestLine = Printf.bytes "GET" ++ 32 :: (g.uri ++ c :: rest) := by
    rw [Get.requestLine, htail, show getMethod = Printf.bytes "GET" ++ [32] by decide]
    simp only [List.append_assoc, List.cons_append, List.nil_append]
  rw [cstr_eq_self hg.requestLine.2, scanRequest, hline, hmethod]
  dsimp only
  rw [huri]

end Get

/-- **Tiny answers the URI of a request**, in as many turns as the request has header lines. -/
theorem doit_get (lib : SelfSprintf) (fs : Files) {g : Get} (hg : g.WellFormed) {more : List UInt8}
    {x : Connection} (hx : x.client = g.bytes ++ more) {fuel : ℕ}
    (hfuel : g.headers.length < fuel) : doit lib fs fuel x = answer lib fs g.uri := by
  have hlines : lines x.client = g.requestLine :: (g.headers ++ crlf :: lines more) := by
    rw [hx, g.lines_bytes hg]
  have hscan := Get.scanRequest_requestLine hg x
  -- the empty line is the one behind the headers
  have hread : (readRequesthdrs fuel (readline x.headers (g.headers ++ crlf :: lines more)).1
      (readline x.headers (g.headers ++ crlf :: lines more)).2).isSome := by
    rw [isSome_readRequesthdrs_iff]
    show crlf ∈ (headerStrings x (g.headers ++ crlf :: lines more)).take fuel
    have hcons : headerStrings x (g.headers ++ crlf :: lines more) =
        (g.headers ++ crlf :: lines more).map cstr := by
      cases g.headers <;> rfl
    rw [hcons, List.map_append, List.take_append]
    refine List.mem_append_right _ ?_
    obtain ⟨k, hk⟩ := Nat.exists_eq_add_of_lt hfuel
    rw [List.length_map, hk, show g.headers.length + k + 1 - g.headers.length = k + 1 by omega]
    exact List.mem_cons_self
  have hcase := doit_case lib fs fuel x
  generalize doit lib fs fuel x = reply at hcase
  cases hcase with
  | closed h => exact absurd (hlines.symm.trans h) (by simp)
  | otherMethod h hscan' hget =>
    obtain ⟨rfl, rfl⟩ := List.cons.inj (hlines.symm.trans h)
    obtain ⟨rfl, rfl⟩ := Prod.mk.inj (hscan.symm.trans hscan')
    exact absurd hget (by decide)
  | running h hscan' hget hnone =>
    obtain ⟨rfl, rfl⟩ := List.cons.inj (hlines.symm.trans h)
    rw [hnone] at hread
    exact absurd hread (by simp)
  | answered h hscan' =>
    obtain ⟨rfl, rfl⟩ := List.cons.inj (hlines.symm.trans h)
    obtain ⟨rfl, rfl⟩ := Prod.mk.inj (hscan.symm.trans hscan')
    rfl

/-! ### Files -/

/-- A file that can be had under a URI. -/
structure Serves (fs : Files) (uri : List UInt8) (file : File) : Prop where
  static : ¬ cgiBin <:+: uri
  fits : (target uri).filename.length < maxline
  found : fs (target uri).filename = some file
  regular : file.regular = true
  ownerReads : file.ownerReads = true
  opens : file.opens = true
  pos : 0 < file.content.length
  lt : file.content.length < 2 ^ 31

/-- What a client of the file receives. -/
def fileResponse (uri : List UInt8) (file : File) : Response :=
  staticResponse (target uri).filename file.content

theorem Serves.wellFormed {fs : Files} {uri : List UInt8} {file : File} (h : Serves fs uri file) :
    (fileResponse uri file).WellFormed :=
  wellFormed_staticResponse _ (h.lt.trans (by decide))

theorem Serves.isInt {fs : Files} {uri : List UInt8} {file : File} (h : Serves fs uri file) :
    IsInt file.content.length := by
  have hlt := h.lt
  exact ⟨by omega, by omega⟩

theorem Serves.answer_eq {lib : SelfSprintf} {fs : Files} {uri head : List UInt8} {file : File}
    (h : Serves fs uri file) (hne : uri ≠ []) (hlen : uri.length < maxline)
    (hhead : staticHead lib (target uri).filename file.content.length = some head) :
    answer lib fs uri = ⟨head ++ file.content, none⟩ := by
  have huri := (parseUri_eq_ok_iff hlen).2 ⟨hne, h.fits, rfl⟩
  have hint := intOfSize_of_lt h.lt
  have hstatic : (target uri).isStatic = true := by rw [target_static h.static]
  have hserve := serveStatic_eq hhead h.opens (Int.natCast_pos.2 h.pos)
  rw [Int.toNat_natCast, List.take_length] at hserve
  rw [answer, huri]
  dsimp only
  rw [h.found]
  dsimp only
  rw [if_pos hstatic, if_neg (by simp [h.regular, h.ownerReads]), hint, hserve]

/-- **The file is what a client receives**, with every library behind some head. -/
theorem Serves.exists_head {fs : Files} {uri : List UInt8} {file : File} (h : Serves fs uri file)
    (lib : SelfSprintf) : ∃ head,
      staticHead lib (target uri).filename file.content.length = some head ∧
      (lib = .append → head ++ file.content = (fileResponse uri file).bytes) ∧
      (lib = .keepLast → head = typeLine (target uri).filename ++ crlf) := by
  refine ⟨_, staticHead_eq lib _ h.isInt, ?_, ?_⟩
  · rintro rfl
    obtain ⟨head, hhead, hbytes⟩ := staticHead_append (target uri).filename file.content h.isInt
    obtain rfl := Option.some.inj ((staticHead_eq .append _ h.isInt).symm.trans hhead)
    exact hbytes
  · rintro rfl
    exact Option.some.inj
      ((staticHead_eq .keepLast _ h.isInt).symm.trans (staticHead_keepLast _ h.isInt))

/-- **A file that is asked for is sent**, for every request for it. With a library that appends,
whoever reads the response off the connection has its content; with one that keeps the last text the
content stands behind its type and an empty line, and there is no response to be read. -/
theorem get_file (lib : SelfSprintf) {fs : Files} {g : Get} (hg : g.WellFormed) {file : File}
    (hfile : Serves fs g.uri file) {more : List UInt8} {x : Connection}
    (hx : x.client = g.bytes ++ more) {fuel : ℕ} (hfuel : g.headers.length < fuel) :
    (doit lib fs fuel x).fault = none ∧
      (∃ head, staticHead lib (target g.uri).filename file.content.length = some head ∧
        (doit lib fs fuel x).written = head ++ file.content) ∧
      (lib = .append → ∃ r, parseResponse (doit lib fs fuel x).written = some r ∧
        r.status = bytes "HTTP/1.0 200 OK\r\n" ∧ r.body = file.content ∧
        typeLine (target g.uri).filename ∈ r.headers) ∧
      (lib = .keepLast → (doit lib fs fuel x).written =
          typeLine (target g.uri).filename ++ crlf ++ file.content ∧
        parseResponse (doit lib fs fuel x).written = none) := by
  obtain ⟨head, hhead, happend, hkeep⟩ := hfile.exists_head lib
  rw [doit_get lib fs hg hx hfuel, hfile.answer_eq hg.uri_ne_nil hg.length_uri hhead]
  refine ⟨rfl, ⟨head, hhead, rfl⟩, fun hlib ↦ ?_, fun hlib ↦ ?_⟩
  · have hread := parseResponse_bytes hfile.wellFormed []
    rw [List.append_nil, ← happend hlib] at hread
    exact ⟨_, hread, rfl, rfl, by simp [fileResponse, staticResponse, typeLine]⟩
  · rw [hkeep hlib]
    exact ⟨rfl, parseResponse_typeLine _ _⟩

/-- A home page of one byte, and nothing else. -/
def homePage : File := ⟨true, true, false, true, [97], fun _ ↦ []⟩

def homeFiles : Files := fun name ↦ if name = dot :: slash :: homeHtml then some homePage else none

theorem serves_homePage : Serves homeFiles [slash] homePage where
  static := by decide
  fits := by decide
  found := if_pos (by decide)
  regular := rfl
  ownerReads := rfl
  opens := rfl
  pos := by decide
  lt := by decide

/-- `"GET / HTTP/1.0"` with one header. -/
def getRoot : Get := ⟨[slash], bytes " HTTP/1.0\r\n", [bytes "Host: h\r\n"]⟩

theorem wellFormed_getRoot : getRoot.WellFormed where
  uri_ne_nil := by decide
  uri := by decide +kernel
  tail := ⟨32, bytes "HTTP/1.0\r\n", rfl, by decide⟩
  requestLine := ⟨⟨by decide, getRoot.requestLine.dropLast, by decide, by decide⟩, by decide⟩
  headers := by
    intro l hl
    obtain rfl := List.mem_singleton.1 hl
    exact ⟨by decide, bytes "Host: h\r", by decide, by decide⟩

theorem get_file_root :
    (∃ r,
      parseResponse (doit .append homeFiles 2 (freshConnection getRoot.bytes)).written = some r ∧
      r.status = bytes "HTTP/1.0 200 OK\r\n" ∧ r.body = [97] ∧
      typeLine (target [slash]).filename ∈ r.headers) ∧
    parseResponse (doit .keepLast homeFiles 2 (freshConnection getRoot.bytes)).written = none :=
  have hget := fun lib ↦ get_file lib wellFormed_getRoot serves_homePage
    (x := freshConnection getRoot.bytes) (List.append_nil _).symm (by decide : 1 < 2)
  ⟨(hget .append).2.2.1 rfl, ((hget .keepLast).2.2.2 rfl).2⟩

end CsappCode.Tiny
