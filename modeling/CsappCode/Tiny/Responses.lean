import CsappCode.Tiny.Uri

/-!
# Responses that say where they end

A `Response` is a status line, header lines and a body, and `Response.bytes` how it is sent. The
header `Content-length` of a well-formed response is that of its body, so whoever reads the response
knows where it ends.

* `parseResponse_bytes` says so: `parseResponse` takes the response off a stream, whatever comes
  behind it.
* `wellFormed_errorResponse` and `wellFormed_staticResponse` are the error page and the file.
* `doit_framed` says what Tiny sends, for every file system and every request.

## What it depends on

**An error page is a well-formed response whatever the library makes of the page**, for its length
is taken from the array and its header lines are written one by one. **The head of a file is not**:
`serve_static` builds it with `sprintf` of a buffer into itself.

* With a library that appends, the head is a status line, four headers and an empty line, and the
  file is sent in a well-formed response (`staticHead_append`).
* With one that keeps the last text only `Content-type` and the empty line are left
  (`staticHead_keepLast`), and a reader who goes by `Content-length` finds no response
  (`parseResponse_typeLine`).

**What a program sends** behind the first two lines is the program's own affair. No header of it is
looked at, and a program may well send no length.

**The request is served to its end.** A connection that brings the process down may have been sent a
part of a response by then; which connections do is answered in `Service`.
-/

namespace CsappCode.Tiny

open Csapp (lines maxline newline EndsInNewline)
open ProxyLab (crlf)
open Printf (bytes signed unsigned SelfSprintf)
open Scanf (readInteger)

/-- `"Content-length: "`. -/
def contentLength : List UInt8 := bytes "Content-length: "

/-- A response. The lines are with their ends. -/
structure Response where
  status : List UInt8
  headers : List (List UInt8)
  body : List UInt8

namespace Response

/-- The bytes on the wire. -/
def bytes (r : Response) : List UInt8 := (r.status :: r.headers).flatten ++ (crlf ++ r.body)

/-- The header that announces the body. -/
def lengthLine (r : Response) : List UInt8 := contentLength ++ signed r.body.length ++ crlf

/-- The lines are lines, none of them empty, and the length of the body is announced, once. -/
structure WellFormed (r : Response) : Prop where
  lines : ∀ l ∈ r.status :: r.headers, EndsInNewline l ∧ l ≠ crlf
  length_mem : r.lengthLine ∈ r.headers
  length_unique : ∀ l ∈ r.headers, contentLength <+: l → l = r.lengthLine

end Response

/-! ### Reading a response -/

/-- What a header line announces. -/
def announced (line : List UInt8) : Option ℕ :=
  if contentLength <+: line then
    (readInteger 10 (line.drop contentLength.length)).1.bind fun v ↦
      if 0 ≤ v then some v.toNat else none
  else none

/-- The response at the front of a stream: the lines up to the empty one, and as many bytes as they
announce. -/
def parseResponse (stream : List UInt8) : Option Response :=
  match (lines stream).takeWhile (· ≠ crlf), (lines stream).dropWhile (· ≠ crlf) with
  | status :: headers, _ :: rest =>
    (headers.findSome? announced).bind fun n ↦
      if n ≤ rest.flatten.length then some ⟨status, headers, rest.flatten.take n⟩ else none
  | _, _ => none

theorem announced_lengthLine (n : ℕ) : announced (contentLength ++ signed n ++ crlf) = some n := by
  have hstop : Printf.Stops crlf := by
    intro b hb
    obtain rfl : (13 : UInt8) = b := Option.some.inj hb
    decide
  rw [announced, List.append_assoc, if_pos (List.prefix_append _ _), List.drop_left,
    Printf.readInteger_signed _ hstop, Option.bind_some, if_pos (Int.natCast_nonneg n),
    Int.toNat_natCast]

/-- The header lines of a well-formed response announce its body. -/
theorem Response.WellFormed.findSome_announced {r : Response} (h : r.WellFormed) :
    r.headers.findSome? announced = some r.body.length := by
  have hannounced : ∀ l ∈ r.headers, announced l = none ∨ announced l = some r.body.length := by
    intro l hl
    by_cases hprefix : contentLength <+: l
    · rw [h.length_unique l hl hprefix]
      exact .inr (announced_lengthLine _)
    · exact .inl (if_neg hprefix)
  have hmem := h.length_mem
  generalize r.headers = headers at hannounced hmem
  induction headers with
  | nil => exact absurd hmem List.not_mem_nil
  | cons l headers ih =>
    rw [List.findSome?_cons]
    rcases hannounced l List.mem_cons_self with hnone | hsome
    · rw [hnone]
      refine ih (fun l' hl' ↦ hannounced l' (List.mem_cons_of_mem _ hl')) ?_
      refine (List.mem_cons.1 hmem).resolve_left fun heq ↦ ?_
      rw [← heq, Response.lengthLine, announced_lengthLine] at hnone
      exact absurd hnone (by simp)
    · rw [hsome]

/-- **A well-formed response is read back**, whatever comes behind it. -/
theorem parseResponse_bytes {r : Response} (h : r.WellFormed) (more : List UInt8) :
    parseResponse (r.bytes ++ more) = some r := by
  have hcrlf : EndsInNewline crlf := ⟨by decide, [13], rfl, by decide⟩
  have hlines : lines (r.bytes ++ more) =
      (r.status :: r.headers) ++ crlf :: lines (r.body ++ more) := by
    rw [Response.bytes, List.append_assoc, List.append_assoc,
      Csapp.lines_flatten_append fun l hl ↦ (h.lines l hl).1, Csapp.lines_append hcrlf]
  have hne : ∀ l ∈ r.status :: r.headers, decide (l ≠ crlf) = true := fun l hl ↦
    decide_eq_true (h.lines l hl).2
  rw [parseResponse, hlines, List.takeWhile_append_of_pos hne, List.dropWhile_append_of_pos hne,
    List.takeWhile_cons_of_neg (by simp), List.dropWhile_cons_of_neg (by simp), List.append_nil]
  dsimp only
  rw [h.findSome_announced, Option.bind_some, Csapp.flatten_lines, List.length_append,
    if_pos (Nat.le_add_right _ _), List.take_left]

/-! ### What Tiny sends -/

/-- The page that `clienterror` sends. -/
def errorResponse (body errnum shortmsg : List UInt8) : Response where
  status := bytes "HTTP/1.0 " ++ errnum ++ bytes " " ++ shortmsg ++ bytes "\r\n"
  headers := [bytes "Content-type: text/html\r\n", contentLength ++ signed body.length ++ crlf]
  body := body

/-- The file that `serve_static` sends. -/
def staticResponse (filename content : List UInt8) : Response where
  status := bytes "HTTP/1.0 200 OK\r\n"
  headers := [bytes "Server: Tiny Web Server\r\n", bytes "Connection: close\r\n",
    contentLength ++ signed content.length ++ crlf,
    bytes "Content-type: " ++ getFiletype filename ++ crlf]
  body := content

theorem length_errorBody_lt {lib : SelfSprintf} {cause errnum shortmsg longmsg body : List UInt8}
    (h : errorBody lib cause errnum shortmsg longmsg = some body) : body.length < maxbuf :=
  SelfSprintf.length_of_printAll (by decide) h

theorem clienterror_eq {lib : SelfSprintf} {cause errnum shortmsg longmsg body : List UInt8}
    (h : errorBody lib cause errnum shortmsg longmsg = some body) :
    clienterror lib cause errnum shortmsg longmsg =
      ⟨(errorResponse body errnum shortmsg).bytes, none⟩ := by
  have hend : bytes "\r\n\r\n" = crlf ++ crlf := by decide
  rw [clienterror, h, errorResponse, Response.bytes]
  simp only [hend, contentLength, List.flatten_cons, List.flatten_nil, List.append_assoc,
    List.append_nil]

/-- A size below 2 GiB is an `int`. -/
theorem intOfSize_of_lt {n : ℕ} (h : n < 2 ^ 31) : intOfSize n = n := by
  rw [intOfSize, BitVec.toInt_ofNat', Int.bmod_def]
  omega

/-- A size is never taken for more than it is. -/
theorem intOfSize_le (n : ℕ) : intOfSize n ≤ n := by
  rw [intOfSize, BitVec.toInt_ofNat', Int.bmod_def]
  omega

/-- The numbers of an `int`. -/
def IsInt (v : ℤ) : Prop := -2 ^ 31 ≤ v ∧ v < 2 ^ 31

instance : DecidablePred IsInt := fun _ ↦ inferInstanceAs (Decidable (_ ∧ _))

theorem isInt_intOfSize (n : ℕ) : IsInt (intOfSize n) := ⟨BitVec.le_toInt _, BitVec.toInt_lt⟩

/-- A printed `int` has at most eleven characters. -/
theorem length_signed_int_le {v : ℤ} (hv : IsInt v) : (signed v).length ≤ 11 := by
  obtain ⟨hlo, hhi⟩ := hv
  have hlen := @Printf.length_unsigned_le 10 v.natAbs 10 (by decide) (by decide) (by omega)
  rw [signed]
  split_ifs
  · rw [List.length_cons]
    omega
  · omega

/-- The types of files. -/
theorem getFiletype_mem (filename : List UInt8) :
    getFiletype filename ∈ [bytes "text/html", bytes "image/gif", bytes "image/png",
      bytes "image/jpeg", bytes "video/mpeg", bytes "text/plain"] := by
  rw [getFiletype]
  split_ifs <;> simp

/-- **The head of a file fits**, with every library. -/
theorem staticHead_eq (lib : SelfSprintf) (filename : List UInt8) {filesize : ℤ}
    (hsize : IsInt filesize) : staticHead lib filename filesize =
      some ((staticTexts filename filesize).foldl lib.result (bytes "HTTP/1.0 200 OK\r\n")) := by
  have hsigned := length_signed_int_le hsize
  have htype : (getFiletype filename).length ≤ 10 := by
    have key : ∀ filetype ∈ [bytes "text/html", bytes "image/gif", bytes "image/png",
        bytes "image/jpeg", bytes "video/mpeg", bytes "text/plain"], filetype.length ≤ 10 := by
      decide
    exact key _ (getFiletype_mem filename)
  have hfixed : (bytes "HTTP/1.0 200 OK\r\n").length +
      (bytes "Server: Tiny Web Server\r\n").length + (bytes "Connection: close\r\n").length +
      (bytes "Content-length: ").length + (bytes "\r\n").length +
      (bytes "Content-type: ").length + (bytes "\r\n\r\n").length < 200 := by decide
  refine SelfSprintf.printAll_eq_some ?_
  simp only [staticTexts, List.flatten_cons, List.flatten_nil, List.length_append,
    List.length_nil, maxbuf]
  omega

/-- The line that the last text begins with. -/
def typeLine (filename : List UInt8) : List UInt8 :=
  bytes "Content-type: " ++ getFiletype filename ++ crlf

/-- **A library that appends** makes the head of a response. -/
theorem staticHead_append (filename content : List UInt8) (hsize : IsInt content.length) :
    ∃ head, staticHead .append filename content.length = some head ∧
      head ++ content = (staticResponse filename content).bytes := by
  have hend : bytes "\r\n\r\n" = crlf ++ crlf := by decide
  have hcrlf : bytes "\r\n" = crlf := by decide
  refine ⟨_, staticHead_eq .append filename hsize, ?_⟩
  rw [SelfSprintf.foldl_append, staticTexts, staticResponse, Response.bytes]
  simp only [hend, hcrlf, contentLength, List.flatten_cons, List.flatten_nil, List.append_assoc,
    List.append_nil]

/-- **A library that keeps the last text** leaves the type of the file and the empty line. -/
theorem staticHead_keepLast (filename : List UInt8) {filesize : ℤ} (hsize : IsInt filesize) :
    staticHead .keepLast filename filesize = some (typeLine filename ++ crlf) := by
  have hend : bytes "\r\n\r\n" = crlf ++ crlf := by decide
  rw [staticHead_eq .keepLast filename hsize, SelfSprintf.foldl_keepLast, typeLine,
    List.append_assoc, ← hend]
  rfl

/-- A file that can be opened and mapped is sent behind its head, as far as its size says. -/
theorem serveStatic_eq {lib : SelfSprintf} {filename head : List UInt8} {file : File} {filesize : ℤ}
    (hhead : staticHead lib filename filesize = some head) (hopens : file.opens = true)
    (hpos : 0 < filesize) : serveStatic lib filename file filesize =
      ⟨head ++ file.content.take filesize.toNat, none⟩ := by
  rw [serveStatic, hhead]
  dsimp only
  rw [if_neg (by simp [hopens]), if_neg (by omega)]

/-- Only such a file is sent. -/
theorem serveStatic_fault {lib : SelfSprintf} {filename : List UInt8} {file : File} {filesize : ℤ}
    (h : (serveStatic lib filename file filesize).fault = none) :
    file.opens = true ∧ 0 < filesize := by
  rw [serveStatic] at h
  rcases hhead : staticHead lib filename filesize with - | head
  · rw [hhead] at h
    exact absurd h (by simp)
  · rw [hhead] at h
    dsimp only at h
    split_ifs at h with hopens hsize
    exact ⟨Bool.not_eq_false _ ▸ hopens, by omega⟩

/-! ### Their lines -/

/-- A line of the head of a response. -/
def IsHeadLine (l : List UInt8) : Prop := EndsInNewline l ∧ l ≠ crlf

/-- A text that is not empty makes a line. -/
theorem isHeadLine_text {text : List UInt8} (hne : text ≠ [])
    (hlen : text.length + crlf.length < maxline) (htext : newline ∉ text) :
    IsHeadLine (text ++ crlf) := by
  refine ⟨⟨by rwa [List.length_append], text ++ [13], by simp [crlf, newline], ?_⟩, ?_⟩
  · rw [List.mem_append, List.mem_singleton]
    exact not_or.2 ⟨htext, by decide⟩
  · rwa [ne_eq, List.append_left_eq_self]

/-- The lines that are always the same. -/
theorem isHeadLine_fixed {l : List UInt8} (h : l ∈ [bytes "HTTP/1.0 200 OK\r\n",
    bytes "Server: Tiny Web Server\r\n", bytes "Connection: close\r\n",
    bytes "Content-type: text/html\r\n"]) : IsHeadLine l ∧ ¬ contentLength <+: l := by
  have key : ∀ l ∈ [bytes "HTTP/1.0 200 OK\r\n", bytes "Server: Tiny Web Server\r\n",
      bytes "Connection: close\r\n", bytes "Content-type: text/html\r\n"],
      ∃ text ∈ [l.dropLast.dropLast], l = text ++ crlf ∧ text ≠ [] ∧
        text.length + crlf.length < maxline ∧ newline ∉ text ∧ ¬ contentLength <+: l := by decide
  obtain ⟨text, -, rfl, hne, hlen, htext, hprefix⟩ := key l h
  exact ⟨isHeadLine_text hne hlen htext, hprefix⟩

/-- A numeral has no newline, and is shorter than the number allows. -/
theorem newline_notMem_signed (n : ℕ) : newline ∉ signed n := by
  have hds := Printf.numeral_unsigned (by decide : 2 ≤ 10) (by decide) n
  rw [signed, if_neg (by omega), Int.natAbs_natCast]
  exact fun hmem ↦ absurd (hds.digits _ hmem) (by decide)

theorem length_signed_le {n k : ℕ} (hk : 0 < k) (hn : n < 10 ^ k) : (signed n).length ≤ k := by
  rw [signed, if_neg (by omega), Int.natAbs_natCast]
  exact Printf.length_unsigned_le (by decide) hk hn

/-- The length of anything below 10 GB is announced in a line. -/
theorem isHeadLine_length {n : ℕ} (hn : n < 10 ^ 10) :
    IsHeadLine (contentLength ++ signed n ++ crlf) := by
  refine isHeadLine_text (by simp [contentLength, bytes]) ?_ ?_
  · have hlen := length_signed_le (by decide) hn
    rw [List.length_append, show contentLength.length = 16 by decide, show crlf.length = 2 from rfl,
      maxline]
    omega
  · rw [List.mem_append]
    exact not_or.2 ⟨by decide, newline_notMem_signed n⟩

/-- A type is announced in a line. -/
theorem isHeadLine_filetype (filename : List UInt8) :
    IsHeadLine (typeLine filename) ∧ ¬ contentLength <+: typeLine filename := by
  have key : ∀ filetype ∈ [bytes "text/html", bytes "image/gif", bytes "image/png",
      bytes "image/jpeg", bytes "video/mpeg", bytes "text/plain"],
      bytes "Content-type: " ++ filetype ≠ [] ∧
      (bytes "Content-type: " ++ filetype).length + crlf.length < maxline ∧
      newline ∉ bytes "Content-type: " ++ filetype ∧
      ¬ contentLength <+: bytes "Content-type: " ++ filetype ++ crlf := by decide
  obtain ⟨hne, hlen, hnewline, hprefix⟩ := key _ (getFiletype_mem filename)
  exact ⟨isHeadLine_text hne hlen hnewline, hprefix⟩

/-- **A file is sent in a well-formed response.** -/
theorem wellFormed_staticResponse (filename : List UInt8) {content : List UInt8}
    (h : content.length < 10 ^ 10) : (staticResponse filename content).WellFormed := by
  have hlength := isHeadLine_length h
  obtain ⟨htype, htype'⟩ := isHeadLine_filetype filename
  have hstatus := @isHeadLine_fixed (bytes "HTTP/1.0 200 OK\r\n") (by simp)
  have hserver := @isHeadLine_fixed (bytes "Server: Tiny Web Server\r\n") (by simp)
  have hconnection := @isHeadLine_fixed (bytes "Connection: close\r\n") (by simp)
  refine ⟨?_, by simp [staticResponse, Response.lengthLine], ?_⟩
  · simp only [staticResponse, List.forall_mem_cons]
    exact ⟨hstatus.1, hserver.1, hconnection.1, hlength, htype, fun _ h ↦ absurd h List.not_mem_nil⟩
  · simp only [staticResponse, List.forall_mem_cons]
    exact ⟨fun h ↦ absurd h hserver.2, fun h ↦ absurd h hconnection.2, fun _ ↦ rfl,
      fun h ↦ absurd h htype', fun _ h ↦ absurd h List.not_mem_nil⟩

/-- **An error is reported in a well-formed response**, when its status line is a line. -/
theorem wellFormed_errorResponse {body errnum shortmsg : List UInt8}
    (hstatus : IsHeadLine (bytes "HTTP/1.0 " ++ errnum ++ bytes " " ++ shortmsg ++ bytes "\r\n"))
    (h : body.length < maxbuf) : (errorResponse body errnum shortmsg).WellFormed := by
  have hlength := isHeadLine_length (h.trans (by decide : maxbuf < 10 ^ 10))
  have htype := @isHeadLine_fixed (bytes "Content-type: text/html\r\n") (by simp)
  refine ⟨?_, by simp [errorResponse, Response.lengthLine], ?_⟩
  · simp only [errorResponse, List.forall_mem_cons]
    exact ⟨hstatus, htype.1, hlength, fun _ h ↦ absurd h List.not_mem_nil⟩
  · simp only [errorResponse, List.forall_mem_cons]
    exact ⟨fun h ↦ absurd h htype.2, fun _ ↦ rfl, fun _ h ↦ absurd h List.not_mem_nil⟩

/-- **Without `Content-length` there is no response to be read**: what the type of the file is taken
for is the status line. -/
theorem parseResponse_typeLine (filename more : List UInt8) :
    parseResponse (typeLine filename ++ crlf ++ more) = none := by
  have hcrlf : EndsInNewline crlf := ⟨by decide, [13], rfl, by decide⟩
  obtain ⟨⟨hline, hne⟩, -⟩ := isHeadLine_filetype filename
  have hlines : lines (typeLine filename ++ crlf ++ more) =
      typeLine filename :: crlf :: lines more := by
    rw [List.append_assoc, Csapp.lines_append hline, Csapp.lines_append hcrlf]
  rw [parseResponse, hlines, List.takeWhile_cons_of_pos (by simp [hne]),
    List.takeWhile_cons_of_neg (by simp), List.dropWhile_cons_of_pos (by simp [hne]),
    List.dropWhile_cons_of_neg (by simp)]
  rfl

/-! ### Everything it sends -/

/-- The bytes of a well-formed response, which a reader takes off the stream. -/
def Framed (written : List UInt8) : Prop :=
  ∃ r : Response, r.WellFormed ∧ written = r.bytes ∧
    ∀ more, parseResponse (written ++ more) = some r

theorem Response.WellFormed.framed {r : Response} (h : r.WellFormed) : Framed r.bytes :=
  ⟨r, h, rfl, parseResponse_bytes h⟩

/-- What a program writes behind the lines that `serve_dynamic` sends. -/
def FromProgram (fs : Files) (written : List UInt8) : Prop :=
  ∃ filename file args, fs filename = some file ∧ written = (serveDynamic file args).written

/-- **What is sent**: a response that says where it ends, what a program writes, or as much of a
file as its size says, behind the head that the library makes. -/
inductive Sent (lib : SelfSprintf) (fs : Files) : List UInt8 → Prop
  | framed {written : List UInt8} : Framed written → Sent lib fs written
  | program {written : List UInt8} : FromProgram fs written → Sent lib fs written
  | file {filename head content : List UInt8} {file : File} : fs filename = some file →
    content = file.content.take (intOfSize file.content.length).toNat →
    staticHead lib filename content.length = some head → IsInt content.length →
    Sent lib fs (head ++ content)

/-- A page that is sent is framed. -/
theorem framed_clienterror {lib : SelfSprintf} {cause errnum shortmsg longmsg : List UInt8}
    (hstatus : IsHeadLine (bytes "HTTP/1.0 " ++ errnum ++ bytes " " ++ shortmsg ++ bytes "\r\n"))
    (h : (clienterror lib cause errnum shortmsg longmsg).fault = none) :
    Framed (clienterror lib cause errnum shortmsg longmsg).written := by
  rcases hbody : errorBody lib cause errnum shortmsg longmsg with - | body
  · rw [clienterror, hbody] at h
    exact absurd h (by simp)
  · rw [clienterror_eq hbody]
    exact (wellFormed_errorResponse hstatus (length_errorBody_lt hbody)).framed

/-- The status lines of the errors. -/
theorem isHeadLine_error {errnum shortmsg : List UInt8}
    (h : (errnum, shortmsg) ∈ [(bytes "501", bytes "Not Implemented"),
      (bytes "404", bytes "Not found"), (bytes "403", bytes "Forbidden")]) :
    IsHeadLine (bytes "HTTP/1.0 " ++ errnum ++ bytes " " ++ shortmsg ++ bytes "\r\n") := by
  have key : ∀ q ∈ [(bytes "501", bytes "Not Implemented"),
      (bytes "404", bytes "Not found"), (bytes "403", bytes "Forbidden")],
      bytes "HTTP/1.0 " ++ q.1 ++ bytes " " ++ q.2 ≠ [] ∧
      (bytes "HTTP/1.0 " ++ q.1 ++ bytes " " ++ q.2).length + crlf.length < maxline ∧
      newline ∉ bytes "HTTP/1.0 " ++ q.1 ++ bytes " " ++ q.2 := by decide
  obtain ⟨hne, hlen, htext⟩ := key _ h
  exact isHeadLine_text hne hlen htext

/-- What is sent behind the headers of a request. -/
theorem sent_answer {lib : SelfSprintf} {fs : Files} {uri : List UInt8}
    (h : (answer lib fs uri).fault = none) : Sent lib fs (answer lib fs uri).written := by
  have hcase := answer_case lib fs uri
  generalize answer lib fs uri = reply at h hcase
  cases hcase with
  | fault => exact absurd h (by simp)
  | notFound => exact .framed (framed_clienterror (isHeadLine_error (by simp)) h)
  | unreadable => exact .framed (framed_clienterror (isHeadLine_error (by simp)) h)
  | @served target file _ hfile =>
    obtain ⟨hopens, hpos⟩ := serveStatic_fault h
    have hint := isInt_intOfSize file.content.length
    have hle := intOfSize_le file.content.length
    have hlen : ((file.content.take (intOfSize file.content.length).toNat).length : ℤ) =
        intOfSize file.content.length := by
      rw [List.length_take]
      omega
    have hhead := staticHead_eq lib target.filename hint
    rw [serveStatic_eq hhead hopens hpos]
    exact .file hfile rfl (by rw [hlen, hhead]) (by rwa [hlen])
  | unexecutable => exact .framed (framed_clienterror (isHeadLine_error (by simp)) h)
  | executed _ hfile => exact .program ⟨_, _, _, hfile, rfl⟩

/-- What is sent on a connection. -/
theorem sent_doit {lib : SelfSprintf} {fs : Files} {fuel : ℕ} {x : Connection}
    (hclient : x.client ≠ []) (h : (doit lib fs fuel x).fault = none) :
    Sent lib fs (doit lib fs fuel x).written := by
  have hcase := doit_case lib fs fuel x
  generalize doit lib fs fuel x = reply at h hcase
  cases hcase with
  | closed hlines =>
    have hflatten := Csapp.flatten_lines x.client
    rw [hlines] at hflatten
    exact absurd hflatten.symm hclient
  | otherMethod => exact .framed (framed_clienterror (isHeadLine_error (by simp)) h)
  | running => exact absurd h (by simp)
  | answered => exact sent_answer h

/-- A file is framed by a library that appends. -/
theorem Sent.of_append {fs : Files} {written : List UInt8} (h : Sent .append fs written) :
    Framed written ∨ FromProgram fs written := by
  cases h with
  | framed hframed => exact .inl hframed
  | program hprogram => exact .inr hprogram
  | @file filename head content _ _ _ hhead hint =>
    obtain ⟨head', hhead', hbytes⟩ := staticHead_append filename content hint
    obtain rfl := Option.some.inj (hhead.symm.trans hhead')
    obtain ⟨-, hlt⟩ := hint
    rw [hbytes]
    exact .inl (wellFormed_staticResponse filename (by omega)).framed

/-- A file behind its type and an empty line: no response for a reader of responses. -/
def Headless (fs : Files) (written : List UInt8) : Prop :=
  ∃ filename file, fs filename = some file ∧
    written = typeLine filename ++ crlf ++
      file.content.take (intOfSize file.content.length).toNat ∧
    ∀ more, parseResponse (written ++ more) = none

/-- A file is headless if only the last text is kept. -/
theorem Sent.of_keepLast {fs : Files} {written : List UInt8} (h : Sent .keepLast fs written) :
    Framed written ∨ FromProgram fs written ∨ Headless fs written := by
  cases h with
  | framed hframed => exact .inl hframed
  | program hprogram => exact .inr (.inl hprogram)
  | @file filename head content file hfile hcontent hhead hint =>
    rw [staticHead_keepLast filename hint] at hhead
    obtain rfl := Option.some.inj hhead
    refine .inr (.inr ⟨filename, file, hfile, by rw [hcontent], fun more ↦ ?_⟩)
    rw [List.append_assoc _ content, parseResponse_typeLine]

/-- **What Tiny sends says where it ends**, unless a program has written it or it is a file behind a
head that the library has not put together: for every file system, every request that is served to
the end, and every library. -/
theorem doit_framed (lib : SelfSprintf) (fs : Files) (fuel : ℕ) {x : Connection}
    (hclient : x.client ≠ []) (h : (doit lib fs fuel x).fault = none) :
    Sent lib fs (doit lib fs fuel x).written ∧
      (lib = .append →
        Framed (doit lib fs fuel x).written ∨ FromProgram fs (doit lib fs fuel x).written) ∧
      (lib = .keepLast → Framed (doit lib fs fuel x).written ∨
        FromProgram fs (doit lib fs fuel x).written ∨
        Headless fs (doit lib fs fuel x).written) := by
  have hsent := sent_doit hclient h
  refine ⟨hsent, ?_, ?_⟩
  · rintro rfl
    exact hsent.of_append
  · rintro rfl
    exact hsent.of_keepLast

/-- A connection on which nothing else has been before. -/
def freshConnection (client : List UInt8) : Connection where
  client := client
  method := []
  uri := []
  headers := []
  length_method := by decide
  length_uri := by decide
  length_headers := by decide

/-- A method that Tiny does not implement, with a library that keeps the last text. -/
theorem doit_framed_put : Sent .keepLast (fun _ ↦ none) (doit .keepLast (fun _ ↦ none) 0
    (freshConnection (bytes "PUT"))).written :=
  (doit_framed .keepLast (fun _ ↦ none) 0 (by decide) (by decide +kernel)).1

end CsappCode.Tiny
