import CsappCode.ProxyLab.SendBuffer

/-!
# What the origin server is asked for

A request is taken apart by `parse_request` and put together again by `send_to_server`. On the way
the method, the host and the version are dropped, and the headers are each cut in two.

* `ClientRequest` is a request as a client composes it, and `lines_bytes` how the proxy reads it.
* `parseRequest_bytes` says that a request whose fields fit is parsed.
* `flatten_headerFits` puts the headers together again, each as it was cut.
* `forwards_faithfully` says that the path and the headers arrive as they were sent.

## What is assumed of the request

**It is well formed**: the second word of its first line is a URI of the form
`http://host:port/path`, the header lines end in a newline, none of them is the empty line, and no
line has a NUL in it or is too long for the array of `Rio_readlineb`.

**Its fields fit.** The host, the port, the headers and the composed text are short enough. What a
longer one does is not said here.

**The method and the version** may be anything. They are dropped and replaced by those of the proxy,
so the origin server is always sent a `GET` of version 1.0, whatever the client asked.

**What follows the request** on the wire, the NUL and the rest of the buffer, is left to the module
on the buffer of `send_to_server`.
-/

namespace CsappCode.ProxyLab

open Csapp (lines maxline newline EndsInNewline)
open Scanf (isSpace)

/-! ### Words -/

/-- The word behind some blanks, up to the next one. -/
theorem nextWord_eq {blanks word rest : List UInt8} (hblanks : ∀ b ∈ blanks, isSpace b = true)
    (hne : word ≠ []) (hword : ∀ b ∈ word, isSpace b = false)
    (hrest : ∀ b ∈ rest.head?, isSpace b = true) :
    nextWord (blanks ++ (word ++ rest)) = (word, rest) := by
  have hdrop : (blanks ++ (word ++ rest)).dropWhile isSpace = word ++ rest := by
    obtain ⟨b, bs, rfl⟩ := List.exists_cons_of_ne_nil hne
    rw [List.dropWhile_append_of_pos hblanks, List.cons_append,
      List.dropWhile_cons_of_neg (by simp [hword b List.mem_cons_self])]
  have hword' : ∀ b ∈ word, (!isSpace b) = true := fun b hb ↦ by rw [hword b hb]; rfl
  have hstop : rest.takeWhile (fun b ↦ !isSpace b) = [] ∧
      rest.dropWhile (fun b ↦ !isSpace b) = rest := by
    rcases rest with - | ⟨b, rest⟩
    · exact ⟨rfl, rfl⟩
    · have hb : isSpace b = true := hrest b rfl
      rw [List.takeWhile_cons_of_neg (by simp [hb]), List.dropWhile_cons_of_neg (by simp [hb])]
      exact ⟨rfl, rfl⟩
  rw [nextWord, hdrop, List.takeWhile_append_of_pos hword', List.dropWhile_append_of_pos hword',
    hstop.1, hstop.2, List.append_nil]

/-- The second of two words. -/
theorem secondWord_eq {method blanks uri tail : List UInt8} (hmethod : method ≠ [])
    (hmethodWord : ∀ b ∈ method, isSpace b = false) (hblanks : blanks ≠ [])
    (hblanksSpace : ∀ b ∈ blanks, isSpace b = true) (huri : uri ≠ [])
    (huriWord : ∀ b ∈ uri, isSpace b = false) (htail : ∀ b ∈ tail.head?, isSpace b = true) :
    secondWord (method ++ (blanks ++ (uri ++ tail))) = some uri := by
  have hhead : ∀ b ∈ (blanks ++ (uri ++ tail)).head?, isSpace b = true := by
    obtain ⟨c, cs, rfl⟩ := List.exists_cons_of_ne_nil hblanks
    intro b hb
    obtain rfl : c = b := Option.some.inj hb
    exact hblanksSpace c List.mem_cons_self
  have hnone : ∀ b ∈ ([] : List UInt8), isSpace b = true := fun b hb ↦ absurd hb List.not_mem_nil
  have hfirst : nextWord (method ++ (blanks ++ (uri ++ tail))) =
      (method, blanks ++ (uri ++ tail)) := nextWord_eq hnone hmethod hmethodWord hhead
  have hsecond := nextWord_eq hblanksSpace huri huriWord htail
  rw [secondWord, hfirst]
  dsimp only
  rw [hsecond]
  exact if_neg (not_or.2 ⟨hmethod, huri⟩)

/-! ### Requests -/

/-- The parts of a request: the words of the request line, where `tail` is what follows the URI, and
the header lines. -/
structure ClientRequest where
  method : List UInt8
  blanks : List UInt8
  host : List UInt8
  port : List UInt8
  path : List UInt8
  tail : List UInt8
  headers : List (List UInt8)

namespace ClientRequest

def uri (r : ClientRequest) : List UInt8 := httpPrefix ++ (r.host ++ colon :: (r.port ++ r.path))

def requestLine (r : ClientRequest) : List UInt8 := r.method ++ (r.blanks ++ (r.uri ++ r.tail))

/-- The bytes on the wire, up to the empty line. -/
def bytes (r : ClientRequest) : List UInt8 := r.requestLine ++ (r.headers.flatten ++ crlf)

/-- What the origin server is to be asked. -/
def forwarded (r : ClientRequest) : List UInt8 :=
  getMethod ++ r.path ++ httpVersion ++ r.headers.flatten ++ crlf

/-- The request line has a URI of the form `http://host:port/path`, and the lines are strings. -/
structure WellFormed (r : ClientRequest) : Prop where
  method_ne_nil : r.method ≠ []
  method : ∀ b ∈ r.method, isSpace b = false
  blanks_ne_nil : r.blanks ≠ []
  blanks : ∀ b ∈ r.blanks, isSpace b = true
  uri : ∀ b ∈ r.uri, isSpace b = false
  host : colon ∉ r.host
  port : slash ∉ r.port
  path : ∃ rest, r.path = slash :: rest
  tail : ∀ b ∈ r.tail.head?, isSpace b = true
  requestLine : EndsInNewline r.requestLine ∧ NulFree r.requestLine
  headers : ∀ l ∈ r.headers, EndsInNewline l ∧ NulFree l

/-- The fields fit, at most twenty headers, each around a separator, and the whole text. -/
structure Fits (r : ClientRequest) : Prop where
  host : r.host.length < hostnameMaxLen
  port : r.port.length < portMaxLen
  headers : ∀ l ∈ r.headers, ∃ header, HeaderFits l header
  headers_le : r.headers.length ≤ maxHeaders
  forwarded : r.forwarded.length < maxline

variable {r : ClientRequest}

/-- **How the proxy reads a request**: line by line, up to the empty one. -/
theorem lines_bytes (hr : r.WellFormed) (rest : List UInt8) :
    lines (r.bytes ++ rest) = r.requestLine :: (r.headers ++ crlf :: lines rest) := by
  have hcrlf : EndsInNewline crlf := ⟨by decide, [13], rfl, by decide⟩
  rw [bytes, List.append_assoc, List.append_assoc, Csapp.lines_append hr.requestLine.1,
    Csapp.lines_flatten_append fun l hl ↦ (hr.headers l hl).1, Csapp.lines_append hcrlf]

theorem secondWord_requestLine (hr : r.WellFormed) : secondWord r.requestLine = some r.uri :=
  secondWord_eq hr.method_ne_nil hr.method hr.blanks_ne_nil hr.blanks
    (by simp [ClientRequest.uri, httpPrefix]) hr.uri hr.tail

/-- The path is shorter than its line. -/
theorem length_path_lt (hr : r.WellFormed) : r.path.length < maxline := by
  have hlen := hr.requestLine.1.1
  simp only [requestLine, ClientRequest.uri, List.length_append, List.length_cons] at hlen
  omega

/-- **A request whose fields fit is parsed.** -/
theorem parseRequest_bytes (hr : r.WellFormed) (hhost : r.host.length < hostnameMaxLen)
    (hport : r.port.length < portMaxLen) {headers : List ReqHeader}
    (hheaders : List.Forall₂ HeaderFits r.headers headers) (hle : r.headers.length ≤ maxHeaders)
    (rest : List UInt8) :
    parseRequest (r.bytes ++ rest) = .ok (some (⟨r.host, r.port, r.path⟩, headers)) := by
  have hline : cstr r.requestLine = r.requestLine := cstr_eq_self hr.requestLine.2
  have hcstr : r.headers.map cstr = r.headers :=
    (List.map_congr_left fun l hl ↦ cstr_eq_self (hr.headers l hl).2).trans (List.map_id' _)
  have huri : parseUri r.uri = .ok ⟨r.host, r.port, r.path⟩ := parseUri_eq_ok_iff.2
    ⟨⟨rfl, hr.host, hr.port, hr.path⟩, hhost, hport, r.length_path_lt hr⟩
  refine parseRequest_eq_ok_iff.2 ⟨_, _, r.uri, r.lines_bytes hr rest, ?_, huri, ?_,
    hheaders.length_eq ▸ hle⟩
  · rw [hline, r.secondWord_requestLine hr]
  · refine headerLines_iff.2 ⟨r.headers, (lines rest).map cstr, ?_, hheaders⟩
    rw [List.map_append, hcstr, List.map_cons]
    rfl

end ClientRequest

/-- **What is cut in two is put together again**, header by header. -/
theorem flatten_headerFits {ls : List (List UInt8)} {headers : List ReqHeader}
    (h : List.Forall₂ HeaderFits ls headers) :
    (headers.map fun h ↦ h.name ++ headerSep ++ h.value) = ls := by
  induction h with
  | nil => rfl
  | cons hfits _ ih => rw [List.map_cons, ih, hfits.cut.eq_append, List.append_assoc]

/-- The headers of lines that fit. -/
theorem exists_forall₂ {α β : Type} {R : α → β → Prop} {l : List α} (h : ∀ a ∈ l, ∃ b, R a b) :
    ∃ l', List.Forall₂ R l l' := by
  induction l with
  | nil => exact ⟨[], .nil⟩
  | cons a l ih =>
    obtain ⟨b, hb⟩ := h a List.mem_cons_self
    obtain ⟨l', hl'⟩ := ih fun a' ha' ↦ h a' (List.mem_cons_of_mem _ ha')
    exact ⟨b :: l', .cons hb hl'⟩

/-- **Forwarding is faithful.** A request that fits is parsed, and the text that `send_to_server`
then builds in its buffer asks for the path, with the header lines byte for byte and in order. -/
theorem forwards_faithfully (r : ClientRequest) (hr : r.WellFormed) (hfits : r.Fits)
    (rest : List UInt8) : ∃ line headers,
      parseRequest (r.bytes ++ rest) = .ok (some (line, headers)) ∧
      ∀ buf : List UInt8, buf.length = maxline → ∃ sent,
        sendToServerInPlace buf line headers = .ok sent ∧ cstr sent = r.forwarded := by
  obtain ⟨headers, hheaders⟩ := exists_forall₂ hfits.headers
  have hflatten := flatten_headerFits hheaders
  have hparse := r.parseRequest_bytes hr hfits.host hfits.port hheaders hfits.headers_le rest
  have htext : requestText ⟨r.host, r.port, r.path⟩ headers = r.forwarded := by
    rw [requestText, requestPieces, hflatten, List.cons_append, List.flatten_cons,
      List.flatten_append, List.flatten_singleton, ClientRequest.forwarded]
    simp only [List.append_assoc]
  have hstrings := holdStrings_of_parseRequest hparse
  refine ⟨_, headers, hparse, fun buf hbuf ↦ ?_⟩
  have hsent := sendToServerInPlace_of_fits hstrings (htext ▸ hfits.forwarded) hbuf
  have hfree := hstrings.nulFree_requestText
  rw [htext] at hsent hfree
  exact ⟨_, hsent, cstr_append_nul hfree _⟩

/-- `GET http://h:80/` with the headers `A: b: c` and `B: d`. -/
def twoHeaders : ClientRequest where
  method := [71, 69, 84]
  blanks := [32]
  host := [104]
  port := [56, 48]
  path := [47]
  tail := [32, 72, 84, 84, 80, 47, 49, 46, 49, 13, 10]
  headers := [[65, 58, 32, 98, 58, 32, 99, 13, 10], [66, 58, 32, 100, 13, 10]]

theorem wellFormed_twoHeaders : twoHeaders.WellFormed where
  method_ne_nil := by decide
  method := by simp [twoHeaders, isSpace]
  blanks_ne_nil := by decide
  blanks := by simp [twoHeaders, isSpace]
  uri := by simp [twoHeaders, ClientRequest.uri, httpPrefix, colon, isSpace]
  host := by decide
  port := by decide
  path := ⟨[], rfl⟩
  tail := by simp [twoHeaders, isSpace]
  requestLine := ⟨⟨by decide, twoHeaders.requestLine.dropLast, by decide, by decide⟩, by decide⟩
  headers := by
    intro l hl
    rcases List.mem_cons.1 hl with rfl | hl
    · exact ⟨⟨by decide, [65, 58, 32, 98, 58, 32, 99, 13], rfl, by decide⟩, by decide⟩
    · obtain rfl := List.mem_singleton.1 hl
      exact ⟨⟨by decide, [66, 58, 32, 100, 13], rfl, by decide⟩, by decide⟩

theorem fits_twoHeaders : twoHeaders.Fits where
  host := by decide
  port := by decide
  headers := by
    intro l hl
    rcases List.mem_cons.1 hl with rfl | hl
    · exact ⟨⟨[65], [98, 58, 32, 99, 13, 10]⟩, ⟨rfl, by decide⟩, by decide, by decide⟩
    · obtain rfl := List.mem_singleton.1 hl
      exact ⟨⟨[66], [100, 13, 10]⟩, ⟨rfl, by decide⟩, by decide, by decide⟩
  headers_le := by decide
  forwarded := by decide

theorem forwards_faithfully_twoHeaders : ∃ line headers sent,
    parseRequest (twoHeaders.bytes ++ []) = .ok (some (line, headers)) ∧
      sendToServerInPlace (List.replicate maxline 0) line headers = .ok sent ∧
      cstr sent = twoHeaders.forwarded := by
  obtain ⟨line, headers, hparse, hsend⟩ :=
    forwards_faithfully twoHeaders wellFormed_twoHeaders fits_twoHeaders []
  obtain ⟨sent, hsent, hcstr⟩ := hsend (List.replicate maxline 0) List.length_replicate
  exact ⟨line, headers, sent, hparse, hsent, hcstr⟩

end CsappCode.ProxyLab
