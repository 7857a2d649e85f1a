import CsappCode.Library.Printf
import CsappCode.Library.SelfPrint
import CsappCode.Library.ScanfTokens
import CsappCode.ProxyLab.Request

/-!
# The Tiny web server

`tiny.c` reads a request, turns its URI into a file name, and sends the file, the output of the
program in it, or an error page. All that it knows of the file system is what `stat`, `open` and
`mmap` say of that name.

A request is served to its end, or it brings the process down: by `unix_error`, by writing past an
array, or by never coming back from `read_requesthdrs`. These ends are the `Fault`s.

## What the results rest on

**`sprintf` of a buffer into itself.** `serve_static` and `clienterror` build their texts with
`sprintf(buf, "%s…", buf)`, which C leaves undefined. What the library makes of it is the parameter
`lib` of everything that sends (`SelfSprintf`), and every result says for which libraries it holds.
The server that the `Makefile` builds with `-O2` is linked with one that keeps only the last text;
the source is written for one that appends.

**The file system stands still** while a request is served: a file is what `stat` finds under a
name, and `open`, `mmap` and the program in the file are asked about that same file.

**The socket calls succeed**, and so do `fork` and `execve`: a reply is the bytes written, in one
piece, and a client reads all of them. A program writes what it writes, by its query string alone.

**Arrays that nothing has been written to** hold arbitrary strings: the `Connection` has those that
`doit` and `read_requesthdrs` may look at.

`AnswerCase` and `DoitCase` list the ways through the code, and the proofs are by cases on them.
-/

namespace CsappCode.Tiny

open Csapp (lines maxline)
open ProxyLab (cstr strstr crlf readline)
open Printf (bytes signed SelfSprintf)
open Scanf (readWord)

/-- `MAXBUF`. -/
def maxbuf : ℕ := 8192

/-! ### What the server finds -/

/-- A file: what `stat` says of it, whether `open` succeeds, what is in it, and what it writes to
its standard output for a query string when it is executed. -/
structure File where
  regular : Bool
  ownerReads : Bool
  ownerExecutes : Bool
  opens : Bool
  content : List UInt8
  output : List UInt8 → List UInt8

/-- The files that `stat` finds. -/
abbrev Files := List UInt8 → Option File

/-- A connection: what the client sends until it closes, and the strings that the arrays `method`
and `uri` of `doit` and `buf` of `read_requesthdrs` happen to hold. -/
structure Connection where
  client : List UInt8
  method : List UInt8
  uri : List UInt8
  headers : List UInt8
  length_method : method.length < maxline
  length_uri : uri.length < maxline
  length_headers : headers.length < maxline

/-- What ends the process, or the service of it. -/
inductive Fault where
  /-- `unix_error` with the message -/
  | exits (message : String)
  /-- a string that does not fit its array -/
  | overflow
  /-- `uri[strlen(uri)-1]` of an empty string -/
  | outOfBounds
  /-- not over after the turns allowed -/
  | running
  deriving DecidableEq

/-- What a connection is sent, and how serving it ends if not in the next `accept`. -/
structure Reply where
  written : List UInt8
  fault : Option Fault
  deriving DecidableEq

/-! ### `parse_uri` and `get_filetype` -/

/-- A copy into an array, with its NUL. -/
def copyInto (capacity : ℕ) (s : List UInt8) : Except Fault (List UInt8) :=
  if s.length < capacity then .ok s else .error .overflow

/-- What `parse_uri` computes. -/
structure Target where
  isStatic : Bool
  filename : List UInt8
  cgiargs : List UInt8
  deriving DecidableEq

/-- `"cgi-bin"`. -/
def cgiBin : List UInt8 := bytes "cgi-bin"

/-- `"home.html"`. -/
def homeHtml : List UInt8 := bytes "home.html"

/-- `'/'`. -/
def slash : UInt8 := 47

/-- `'?'`. -/
def question : UInt8 := 63

/-- `'.'`. -/
def dot : UInt8 := 46

/-- `parse_uri(uri, filename, cgiargs)`. -/
def parseUri (uri : List UInt8) : Except Fault Target :=
  match strstr cgiBin uri with
  | none => do
    let filename ← copyInto maxline (dot :: uri)
    match uri.getLast? with
    | none => .error .outOfBounds
    | some c =>
      if c = slash then do
        let filename ← copyInto maxline (filename ++ homeHtml)
        pure ⟨true, filename, []⟩
      else pure ⟨true, filename, []⟩
  | some _ =>
    match strstr [question] uri with
    | some (path, ptr) => do
      let cgiargs ← copyInto maxline (ptr.drop 1)
      let filename ← copyInto maxline (dot :: path)
      pure ⟨false, filename, cgiargs⟩
    | none => do
      let filename ← copyInto maxline (dot :: uri)
      pure ⟨false, filename, []⟩

/-- `get_filetype(filename, filetype)`. -/
def getFiletype (filename : List UInt8) : List UInt8 :=
  if (strstr (bytes ".html") filename).isSome then bytes "text/html"
  else if (strstr (bytes ".gif") filename).isSome then bytes "image/gif"
  else if (strstr (bytes ".png") filename).isSome then bytes "image/png"
  else if (strstr (bytes ".jpg") filename).isSome then bytes "image/jpeg"
  else if (strstr (bytes ".mpg") filename).isSome then bytes "video/mpeg"
  else bytes "text/plain"

/-! ### What is sent -/

/-- The body that `clienterror` builds, if it fits. -/
def errorBody (lib : SelfSprintf) (cause errnum shortmsg longmsg : List UInt8) :
    Option (List UInt8) :=
  lib.printAll maxbuf (bytes "<html><title>Tiny Error</title>")
    [bytes "<body bgcolor=ffffff>\r\n",
      errnum ++ bytes ": " ++ shortmsg ++ bytes "\r\n",
      bytes "<p>" ++ longmsg ++ bytes ": " ++ cause ++ bytes "\r\n",
      bytes "<hr><em>The Tiny Web server</em>\r\n"]

/-- `clienterror(fd, cause, errnum, shortmsg, longmsg)`. -/
def clienterror (lib : SelfSprintf) (cause errnum shortmsg longmsg : List UInt8) : Reply :=
  match errorBody lib cause errnum shortmsg longmsg with
  | none => ⟨[], some .overflow⟩
  | some body =>
    ⟨bytes "HTTP/1.0 " ++ errnum ++ bytes " " ++ shortmsg ++ bytes "\r\n" ++
      bytes "Content-type: text/html\r\n" ++
      (bytes "Content-length: " ++ signed body.length ++ bytes "\r\n\r\n") ++ body, none⟩

/-- The conversion of `st_size` to the `int` that `serve_static` takes. -/
def intOfSize (n : ℕ) : ℤ := (BitVec.ofNat 32 n).toInt

/-- What `serve_static` writes behind the status line. -/
def staticTexts (filename : List UInt8) (filesize : ℤ) : List (List UInt8) :=
  [bytes "Server: Tiny Web Server\r\n", bytes "Connection: close\r\n",
    bytes "Content-length: " ++ signed filesize ++ bytes "\r\n",
    bytes "Content-type: " ++ getFiletype filename ++ bytes "\r\n\r\n"]

/-- The response headers that `serve_static` builds, if they fit. -/
def staticHead (lib : SelfSprintf) (filename : List UInt8) (filesize : ℤ) : Option (List UInt8) :=
  lib.printAll maxbuf (bytes "HTTP/1.0 200 OK\r\n") (staticTexts filename filesize)

/-- `serve_static(fd, filename, filesize)`. The response headers are sent before the file is looked
at, and `mmap` maps no file of size 0 and none of a negative one, which is past any address. -/
def serveStatic (lib : SelfSprintf) (filename : List UInt8) (file : File) (filesize : ℤ) : Reply :=
  match staticHead lib filename filesize with
  | none => ⟨[], some .overflow⟩
  | some buf =>
    if file.opens = false then ⟨buf, some (.exits "Open error")⟩
    else if filesize ≤ 0 then ⟨buf, some (.exits "mmap error")⟩
    else ⟨buf ++ file.content.take filesize.toNat, none⟩

/-- `serve_dynamic(fd, filename, cgiargs)`. -/
def serveDynamic (file : File) (cgiargs : List UInt8) : Reply :=
  ⟨bytes "HTTP/1.0 200 OK\r\n" ++ bytes "Server: Tiny Web Server\r\n" ++ file.output cgiargs, none⟩

/-! ### `doit` -/

/-- The loop of `read_requesthdrs`, for at most `fuel` turns: the lines that are left. -/
def readRequesthdrs : ℕ → List UInt8 → List (List UInt8) → Option (List (List UInt8))
  | 0, _, _ => none
  | fuel + 1, buf, rest =>
    if buf = crlf then some rest
    else
      -- at the end of file `buf` stays as it is
      let (buf, rest) := readline buf rest
      readRequesthdrs fuel buf rest

/-- The words that `sscanf(buf, "%s %s %s", method, uri, version)` leaves in `method` and `uri`. -/
def scanRequest (x : Connection) (buf : List UInt8) : List UInt8 × List UInt8 :=
  match readWord buf with
  | none => (x.method, x.uri)
  | some (method, rest) =>
    match readWord rest with
    | none => (method, x.uri)
    | some (uri, _) => (method, uri)

/-- `tolower`. -/
def tolower (b : UInt8) : UInt8 := if 65 ≤ b ∧ b ≤ 90 then b + 32 else b

/-- `!strcasecmp(method, "GET")`. -/
def isGet (method : List UInt8) : Bool := method.map tolower = bytes "get"

/-- What `doit` does behind the headers. -/
def answer (lib : SelfSprintf) (fs : Files) (uri : List UInt8) : Reply :=
  match parseUri uri with
  | .error fault => ⟨[], some fault⟩
  | .ok target =>
    match fs target.filename with
    | none => clienterror lib target.filename (bytes "404") (bytes "Not found")
        (bytes "Tiny couldn't find this file")
    | some file =>
      if target.isStatic then
        if file.regular = false ∨ file.ownerReads = false then
          clienterror lib target.filename (bytes "403") (bytes "Forbidden")
            (bytes "Tiny couldn't read the file")
        else serveStatic lib target.filename file (intOfSize file.content.length)
      else
        if file.regular = false ∨ file.ownerExecutes = false then
          clienterror lib target.filename (bytes "403") (bytes "Forbidden")
            (bytes "Tiny couldn't run the CGI program")
        else serveDynamic file target.cgiargs

/-- `doit(fd)`, when `read_requesthdrs` is given `fuel` turns. -/
def doit (lib : SelfSprintf) (fs : Files) (fuel : ℕ) (x : Connection) : Reply :=
  match lines x.client with
  | [] => ⟨[], none⟩
  | first :: rest =>
    let (method, uri) := scanRequest x (cstr first)
    if isGet method then
      let (buf, rest) := readline x.headers rest
      match readRequesthdrs fuel buf rest with
      | none => ⟨[], some .running⟩
      | some _ => answer lib fs uri
    else
      clienterror lib method (bytes "501") (bytes "Not Implemented")
        (bytes "Tiny does not implement this method")

/-! ### The ways through -/

/-- The replies behind the headers, each with the way to it. -/
inductive AnswerCase (lib : SelfSprintf) (fs : Files) (uri : List UInt8) : Reply → Prop
  | fault {fault : Fault} : parseUri uri = .error fault → AnswerCase lib fs uri ⟨[], some fault⟩
  | notFound {target : Target} : parseUri uri = .ok target → fs target.filename = none →
    AnswerCase lib fs uri (clienterror lib target.filename (bytes "404") (bytes "Not found")
      (bytes "Tiny couldn't find this file"))
  | unreadable {target : Target} {file : File} : parseUri uri = .ok target →
    fs target.filename = some file → target.isStatic = true →
    file.regular = false ∨ file.ownerReads = false →
    AnswerCase lib fs uri (clienterror lib target.filename (bytes "403") (bytes "Forbidden")
      (bytes "Tiny couldn't read the file"))
  | served {target : Target} {file : File} : parseUri uri = .ok target →
    fs target.filename = some file → target.isStatic = true →
    file.regular = true → file.ownerReads = true →
    AnswerCase lib fs uri (serveStatic lib target.filename file (intOfSize file.content.length))
  | unexecutable {target : Target} {file : File} : parseUri uri = .ok target →
    fs target.filename = some file → target.isStatic = false →
    file.regular = false ∨ file.ownerExecutes = false →
    AnswerCase lib fs uri (clienterror lib target.filename (bytes "403") (bytes "Forbidden")
      (bytes "Tiny couldn't run the CGI program"))
  | executed {target : Target} {file : File} : parseUri uri = .ok target →
    fs target.filename = some file → target.isStatic = false →
    file.regular = true → file.ownerExecutes = true →
    AnswerCase lib fs uri (serveDynamic file target.cgiargs)

theorem answer_case (lib : SelfSprintf) (fs : Files) (uri : List UInt8) :
    AnswerCase lib fs uri (answer lib fs uri) := by
  rw [answer]
  rcases huri : parseUri uri with fault | target
  · exact .fault huri
  dsimp only
  rcases hfile : fs target.filename with - | file
  · exact .notFound huri hfile
  dsimp only
  split_ifs with hstatic hread hrun
  · exact .unreadable huri hfile hstatic hread
  · rw [not_or, Bool.not_eq_false, Bool.not_eq_false] at hread
    exact .served huri hfile hstatic hread.1 hread.2
  · exact .unexecutable huri hfile (Bool.eq_false_of_not_eq_true hstatic) hrun
  · rw [not_or, Bool.not_eq_false, Bool.not_eq_false] at hrun
    exact .executed huri hfile (Bool.eq_false_of_not_eq_true hstatic) hrun.1 hrun.2

/-- The replies of `doit`, each with the way to it. -/
inductive DoitCase (lib : SelfSprintf) (fs : Files) (fuel : ℕ) (x : Connection) : Reply → Prop
  | closed : lines x.client = [] → DoitCase lib fs fuel x ⟨[], none⟩
  | otherMethod {first : List UInt8} {rest : List (List UInt8)} {method uri : List UInt8} :
    lines x.client = first :: rest → scanRequest x (cstr first) = (method, uri) →
    isGet method = false →
    DoitCase lib fs fuel x (clienterror lib method (bytes "501") (bytes "Not Implemented")
      (bytes "Tiny does not implement this method"))
  | running {first : List UInt8} {rest : List (List UInt8)} {method uri : List UInt8} :
    lines x.client = first :: rest → scanRequest x (cstr first) = (method, uri) →
    isGet method = true →
    readRequesthdrs fuel (readline x.headers rest).1 (readline x.headers rest).2 = none →
    DoitCase lib fs fuel x ⟨[], some .running⟩
  | answered {first : List UInt8} {rest left : List (List UInt8)} {method uri : List UInt8} :
    lines x.client = first :: rest → scanRequest x (cstr first) = (method, uri) →
    isGet method = true →
    readRequesthdrs fuel (readline x.headers rest).1 (readline x.headers rest).2 = some left →
    DoitCase lib fs fuel x (answer lib fs uri)

theorem doit_case (lib : SelfSprintf) (fs : Files) (fuel : ℕ) (x : Connection) :
    DoitCase lib fs fuel x (doit lib fs fuel x) := by
  rw [doit]
  rcases hlines : lines x.client with - | ⟨first, rest⟩
  · exact .closed hlines
  dsimp only
  rcases hscan : scanRequest x (cstr first) with ⟨method, uri⟩
  dsimp only
  split_ifs with hget
  · rcases hread : readRequesthdrs fuel (readline x.headers rest).1 (readline x.headers rest).2
      with - | left
    · exact .running hlines hscan hget hread
    · exact .answered hlines hscan hget hread
  · exact .otherMethod hlines hscan (Bool.eq_false_of_not_eq_true hget)

end CsappCode.Tiny
