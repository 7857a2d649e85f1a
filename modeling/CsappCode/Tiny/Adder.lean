import CsappCode.Tiny.Requests

/-!
# Adding two numbers

`cgi-bin/adder.c` takes two numbers from its query string and writes the rest of a response to its
standard output, behind the two lines that `serve_dynamic` has sent. Without an `&` the program
stores a NUL through a null pointer, and has written nothing by then.

* `atoi_signed` reads back a number that has been printed.
* `adder_signed` is the program on two numbers, and `content_eq` says that its page fits the array.
* `get_sum` says that the two programs together answer with one well-formed response, for any two
  numbers whose sum is an `int`. The numbers are printed by the client, cut out of the URI, handed
  over in the environment, cut apart and read by `atoi`.

## What the results rest on

**The page is built by `sprintf` of an array into itself**, as the head of a file is. Its length is
taken from the array afterwards, so the response says where it ends whatever the library makes of
the page. But only a library that appends puts the sum into it (`content_append`); one that keeps
the last text leaves the good-bye alone (`content_keepLast`). Server and program are linked with the
same library.

**The sum is an `int`.** The program adds two `int`s, and an overflow is undefined.

**The environment** hands the query string over as it is. The program is run by `serve_dynamic` with
its standard output on the connection, writes there and nowhere else, and is waited for.
-/

namespace CsappCode.Tiny

open Csapp (maxline newline)
open ProxyLab (strstr crlf)
open Printf (bytes signed SelfSprintf)
open Scanf (isSpace readInteger)

/-! ### `adder.c` -/

/-- What ends the program early. -/
inductive AdderFault where
  /-- `*p` for the null pointer that `strchr` returned -/
  | nullPointer
  /-- a string that does not fit its array -/
  | overflow
  /-- a sum that is no `int` -/
  | signedOverflow
  deriving DecidableEq

/-- `atoi`, which is `strtol` converted to an `int`. -/
def atoi (s : List UInt8) : ℤ :=
  let v := (readInteger 10 (s.dropWhile isSpace)).1.getD 0
  (BitVec.ofInt 32 (max (-2 ^ 63) (min v (2 ^ 63 - 1)))).toInt

/-- `'&'`. -/
def ampersand : UInt8 := 38

/-- What is written behind the first text. -/
def contentTexts (n1 n2 : ℤ) : List (List UInt8) :=
  [bytes "THE Internet addition portal.\r\n<p>",
    bytes "The answer is: " ++ signed n1 ++ bytes " + " ++ signed n2 ++ bytes " = " ++
      signed (n1 + n2) ++ bytes "\r\n<p>",
    bytes "Thanks for visiting!\r\n"]

/-- The body that is made of the two numbers, if it fits. -/
def content (lib : SelfSprintf) (n1 n2 : ℤ) : Option (List UInt8) :=
  lib.printAll maxline (bytes "Welcome to add.com: ") (contentTexts n1 n2)

/-- What is written for the two numbers. -/
def printSum (lib : SelfSprintf) (n1 n2 : ℤ) : Except AdderFault (List UInt8) :=
  if IsInt (n1 + n2) then
    match content lib n1 n2 with
    | none => .error .overflow
    | some content =>
      .ok (bytes "Connection: close\r\n" ++
        (bytes "Content-length: " ++ signed content.length ++ bytes "\r\n") ++
        bytes "Content-type: text/html\r\n\r\n" ++ content)
  else .error .signedOverflow

/-- `main` of `adder.c`, on what `getenv("QUERY_STRING")` returns. -/
def adder (lib : SelfSprintf) : Option (List UInt8) → Except AdderFault (List UInt8)
  | none => printSum lib 0 0
  | some buf =>
    match strstr [ampersand] buf with
    | none => .error .nullPointer
    | some (arg1, p) =>
      let arg2 := p.drop 1
      if arg1.length < maxline ∧ arg2.length < maxline then
        printSum lib (atoi arg1) (atoi arg2)
      else .error .overflow

/-- A file with the program in it. -/
def RunsAdder (lib : SelfSprintf) (file : File) : Prop :=
  ∀ args out, adder lib (some args) = .ok out → file.output args = out

/-! ### Numbers -/

/-- **A number that has been printed is read back.** -/
theorem atoi_signed {v : ℤ} (hv : IsInt v) : atoi (signed v) = v := by
  have hspace : (signed v).dropWhile isSpace = signed v := by
    obtain ⟨d, ds, hcons⟩ := List.exists_cons_of_ne_nil (show signed v ≠ [] by
      rw [signed]
      split_ifs
      · simp
      · exact (Printf.numeral_unsigned (by decide) (by decide) _).ne_nil)
    have hd : isSpace d = false := by
      rw [signed] at hcons
      split_ifs at hcons
      · rw [← (List.cons.inj hcons).1]
        decide
      · have hds := Printf.numeral_unsigned (by decide : 2 ≤ 10) (by decide) v.natAbs
        exact Scanf.isSpace_eq_false_of_isDigit (hds.digits d (hcons ▸ List.mem_cons_self))
    rw [hcons, List.dropWhile_cons_of_neg (by simp [hd])]
  have hread := @Printf.readInteger_signed v [] fun b hb ↦ absurd hb (by simp)
  rw [List.append_nil] at hread
  obtain ⟨hlo, hhi⟩ := hv
  rw [atoi, hspace, hread]
  show (BitVec.ofInt 32 (max (-2 ^ 63) (min v (2 ^ 63 - 1)))).toInt = v
  rw [min_eq_left (by omega), max_eq_right (by omega), BitVec.toInt_ofInt, Int.bmod_def]
  omega

/-- No `&` is printed. -/
theorem ampersand_notMem_signed (v : ℤ) : ampersand ∉ signed v := by
  have hds := Printf.numeral_unsigned (by decide : 2 ≤ 10) (by decide) v.natAbs
  have hmem : ampersand ∉ Printf.unsigned 10 v.natAbs := fun h ↦
    absurd (hds.digits _ h) (by decide)
  rw [signed]
  split_ifs
  · exact List.not_mem_cons_of_ne_of_not_mem (by decide) hmem
  · exact hmem

/-- **The program adds its arguments.** -/
theorem adder_signed (lib : SelfSprintf) {a b : ℤ} (ha : IsInt a) (hb : IsInt b) :
    adder lib (some (signed a ++ ampersand :: signed b)) = printSum lib a b := by
  have hcut : strstr [ampersand] (signed a ++ ampersand :: signed b) =
      some (signed a, ampersand :: signed b) :=
    ProxyLab.strstr_eq_some_iff.2
      ⟨_, rfl, ProxyLab.firstCut_singleton_iff.2 ⟨rfl, ampersand_notMem_signed a⟩⟩
  have hla := length_signed_int_le ha
  have hlb := length_signed_int_le hb
  rw [adder, hcut]
  dsimp only
  rw [List.drop_succ_cons, List.drop_zero, if_pos (by rw [maxline]; omega), atoi_signed ha,
    atoi_signed hb]

/-! ### The page -/

/-- **The page fits**, with every library. -/
theorem content_eq (lib : SelfSprintf) {a b : ℤ} (ha : IsInt a) (hb : IsInt b)
    (hab : IsInt (a + b)) : content lib a b =
      some ((contentTexts a b).foldl lib.result (bytes "Welcome to add.com: ")) := by
  have hla := length_signed_int_le ha
  have hlb := length_signed_int_le hb
  have hlab := length_signed_int_le hab
  have hfixed : (bytes "Welcome to add.com: ").length +
      (bytes "THE Internet addition portal.\r\n<p>").length + (bytes "The answer is: ").length +
      (bytes " + ").length + (bytes " = ").length + (bytes "\r\n<p>").length +
      (bytes "Thanks for visiting!\r\n").length < 200 := by decide
  refine SelfSprintf.printAll_eq_some ?_
  simp only [contentTexts, List.flatten_cons, List.flatten_nil, List.length_append,
    List.length_nil, maxline]
  omega

/-- The page that is meant. -/
def sumPage (a b : ℤ) : List UInt8 :=
  bytes "Welcome to add.com: " ++ bytes "THE Internet addition portal.\r\n<p>" ++
    (bytes "The answer is: " ++ signed a ++ bytes " + " ++ signed b ++ bytes " = " ++
      signed (a + b) ++ bytes "\r\n<p>") ++
    bytes "Thanks for visiting!\r\n"

/-- **A library that appends** makes the page. -/
theorem content_append {a b : ℤ} (ha : IsInt a) (hb : IsInt b) (hab : IsInt (a + b)) :
    content .append a b = some (sumPage a b) := by
  rw [content_eq .append ha hb hab, SelfSprintf.foldl_append, contentTexts, sumPage]
  simp only [List.flatten_cons, List.flatten_nil, List.append_assoc, List.append_nil]

/-- **A library that keeps the last text** leaves the good-bye. -/
theorem content_keepLast {a b : ℤ} (ha : IsInt a) (hb : IsInt b) (hab : IsInt (a + b)) :
    content .keepLast a b = some (bytes "Thanks for visiting!\r\n") := by
  rw [content_eq .keepLast ha hb hab, SelfSprintf.foldl_keepLast]
  rfl

/-! ### The two programs together -/

/-- The response with a page. -/
def sumResponse (page : List UInt8) : Response where
  status := bytes "HTTP/1.0 200 OK\r\n"
  headers := [bytes "Server: Tiny Web Server\r\n", bytes "Connection: close\r\n",
    contentLength ++ signed page.length ++ crlf, bytes "Content-type: text/html\r\n"]
  body := page

theorem wellFormed_sumResponse {page : List UInt8} (h : page.length < maxline) :
    (sumResponse page).WellFormed := by
  have hlength := isHeadLine_length (h.trans (by decide : maxline < 10 ^ 10))
  have hstatus := @isHeadLine_fixed (bytes "HTTP/1.0 200 OK\r\n") (by simp)
  have hserver := @isHeadLine_fixed (bytes "Server: Tiny Web Server\r\n") (by simp)
  have hconnection := @isHeadLine_fixed (bytes "Connection: close\r\n") (by simp)
  have htype := @isHeadLine_fixed (bytes "Content-type: text/html\r\n") (by simp)
  refine ⟨?_, by simp [sumResponse, Response.lengthLine], ?_⟩
  · simp only [sumResponse, List.forall_mem_cons]
    exact ⟨hstatus.1, hserver.1, hconnection.1, hlength, htype.1,
      fun _ h ↦ absurd h List.not_mem_nil⟩
  · simp only [sumResponse, List.forall_mem_cons]
    exact ⟨fun h ↦ absurd h hserver.2, fun h ↦ absurd h hconnection.2, fun _ ↦ rfl,
      fun h ↦ absurd h htype.2, fun _ h ↦ absurd h List.not_mem_nil⟩

/-- What Tiny sends and what the program writes make one response. -/
theorem serveDynamic_sum {lib : SelfSprintf} {a b : ℤ} (ha : IsInt a) (hb : IsInt b)
    (hab : IsInt (a + b)) {page : List UInt8} (hpage : content lib a b = some page) {file : File}
    (hfile : RunsAdder lib file) : serveDynamic file (signed a ++ ampersand :: signed b) =
      ⟨(sumResponse page).bytes, none⟩ := by
  have hprint := adder_signed lib ha hb
  rw [printSum, if_pos hab, hpage] at hprint
  have hend : bytes "Content-type: text/html\r\n\r\n" =
      bytes "Content-type: text/html\r\n" ++ crlf := by decide
  have hcrlf : bytes "\r\n" = crlf := by decide
  rw [serveDynamic, hfile _ _ hprint, sumResponse, Response.bytes]
  simp only [hend, hcrlf, contentLength, List.flatten_cons, List.flatten_nil, List.append_assoc,
    List.append_nil]

/-- **A sum that is asked for is answered**, in a response that says where it ends: for any two
numbers whose sum is an `int`, and every library. If the library appends, the response is the page
with the numbers and their sum. -/
theorem get_sum (lib : SelfSprintf) {fs : Files} {a b : ℤ} (ha : IsInt a) (hb : IsInt b)
    (hab : IsInt (a + b)) {path : List UInt8} (hcgi : cgiBin <:+: path) (hpath : question ∉ path)
    {file : File} (hfound : fs (dot :: path) = some file) (hregular : file.regular = true)
    (hexecutes : file.ownerExecutes = true) (hadder : RunsAdder lib file) {g : Get}
    (hg : g.WellFormed) (huri : g.uri = path ++ question :: (signed a ++ ampersand :: signed b))
    {more : List UInt8} {x : Connection} (hx : x.client = g.bytes ++ more) {fuel : ℕ}
    (hfuel : g.headers.length < fuel) :
    (doit lib fs fuel x).fault = none ∧ ∃ page,
      (∀ later, parseResponse ((doit lib fs fuel x).written ++ later) = some (sumResponse page)) ∧
      (lib = .append → page = sumPage a b) ∧
      (lib = .keepLast → page = bytes "Thanks for visiting!\r\n") := by
  have hcgi' : cgiBin <:+: path ++ question :: (signed a ++ ampersand :: signed b) :=
    hcgi.trans (List.prefix_append _ _).isInfix
  have htarget := target_query hcgi' hpath
  have hparse : parseUri g.uri = .ok ⟨false, dot :: path, signed a ++ ampersand :: signed b⟩ := by
    have hlen := hg.length_uri
    refine (parseUri_eq_ok_iff hlen).2 ⟨hg.uri_ne_nil, ?_, by rw [huri, htarget]⟩
    rw [huri, List.length_append, List.length_cons] at hlen
    rw [huri, htarget]
    show path.length + 1 < maxline
    omega
  obtain ⟨page, hpage⟩ : ∃ page, content lib a b = some page := ⟨_, content_eq lib ha hb hab⟩
  have hanswer : answer lib fs g.uri = ⟨(sumResponse page).bytes, none⟩ := by
    rw [answer, hparse]
    dsimp only
    rw [hfound]
    dsimp only
    rw [if_neg (by simp), if_neg (by simp [hregular, hexecutes]),
      serveDynamic_sum ha hb hab hpage hadder]
  have hlen : page.length < maxline := SelfSprintf.length_of_printAll (by decide) hpage
  rw [doit_get lib fs hg hx hfuel, hanswer]
  refine ⟨rfl, page, parseResponse_bytes (wellFormed_sumResponse hlen), ?_, ?_⟩
  · rintro rfl
    exact Option.some.inj (hpage.symm.trans (content_append ha hb hab))
  · rintro rfl
    exact Option.some.inj (hpage.symm.trans (content_keepLast ha hb hab))

/-! ### `1 + -2` -/

/-- The program, and nothing else. -/
def adderFile (lib : SelfSprintf) : File where
  regular := true
  ownerReads := true
  ownerExecutes := true
  opens := true
  content := []
  output args :=
    match adder lib (some args) with
    | .ok out => out
    | .error _ => []

theorem runsAdder_adderFile (lib : SelfSprintf) : RunsAdder lib (adderFile lib) := by
  intro args out h
  simp only [adderFile, h]

def adderPath : List UInt8 := bytes "/cgi-bin/adder"

def adderFiles (lib : SelfSprintf) : Files := fun name ↦
  if name = dot :: adderPath then some (adderFile lib) else none

def getOneMinusTwo : Get := ⟨bytes "/cgi-bin/adder?1&-2", bytes " HTTP/1.0\r\n", []⟩

theorem wellFormed_getOneMinusTwo : getOneMinusTwo.WellFormed where
  uri_ne_nil := by decide
  uri := by decide +kernel
  tail := ⟨32, bytes "HTTP/1.0\r\n", rfl, by decide⟩
  requestLine :=
    ⟨⟨by decide, getOneMinusTwo.requestLine.dropLast, by decide, by decide⟩, by decide⟩
  headers := fun _ h ↦ absurd h List.not_mem_nil

/-- What is read off the connection, with a library that appends. -/
theorem get_sum_oneMinusTwo :
    (doit .append (adderFiles .append) 1 (freshConnection getOneMinusTwo.bytes)).fault = none ∧
    ∀ later, parseResponse ((doit .append (adderFiles .append) 1
      (freshConnection getOneMinusTwo.bytes)).written ++ later) =
        some (sumResponse (sumPage 1 (-2))) := by
  obtain ⟨hfault, page, hread, happend, -⟩ := @get_sum .append (adderFiles .append) 1 (-2)
    (by decide) (by decide) (by decide) adderPath (by decide) (by decide) (adderFile .append)
    (if_pos rfl) rfl rfl (runsAdder_adderFile .append) getOneMinusTwo wellFormed_getOneMinusTwo
    (by decide) [] (freshConnection getOneMinusTwo.bytes) (List.append_nil _).symm 1 (by decide)
  rw [happend rfl] at hread
  exact ⟨hfault, hread⟩

end CsappCode.Tiny
