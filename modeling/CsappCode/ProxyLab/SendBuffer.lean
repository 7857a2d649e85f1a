import CsappCode.ProxyLab.Survival
import CsappCode.ProxyLab.CacheKey

/-!
# The buffer of `send_to_server`

`send_to_server` composes the request in a buffer on its stack, with a cursor that `strlen` moves
behind each `sprintf`, and then writes the whole buffer to the origin server. `sendToServerInPlace`
runs on the buffer.

* `sprintfAt_strcpy` is one `sprintf` behind a text, and `sendHeaders_strcpy` the loop over the
  headers.
* `sendToServerInPlace_eq` says that the cursor loses nothing: what is sent is what `sendToServer`
  sends, and `doit_sends` takes this to a served connection.
* `sent_ne_of_filled` tells two runs apart by what the stack held.
* `never_only_the_request` says that what goes on the wire is always more than the request.

## What the results rest on

**Strings.** `strlen` finds the end of the text only if no piece has a NUL in it. The fields that
`parse_request` fills are strings, and that is all that is used (`HoldStrings`).

**The stack.** What the buffer held before is arbitrary, of the length of the array. So the bytes
behind the NUL are arbitrary too, and the statement is for all of them: there is no request and no
content of the stack for which just the text is sent, since the NUL itself is sent.

**The size.** The composed text fits the array. Where it does not, `sprintf` writes past it, and no
result here is about that.
-/

namespace CsappCode.ProxyLab

open Csapp (maxline)

/-! ### The function -/

/-- `sprintf(buf + head, ..)`, when it prints `text`. -/
def sprintfAt (buf : List UInt8) (head : ℕ) (text : List UInt8) : Except Fault (List UInt8) :=
  if head + text.length < maxline then .ok (buf.take head ++ strcpy (buf.drop head) text)
  else .error (.overflow .request)

/-- The loop over the headers: the buffer and the cursor after it. -/
def sendHeaders : List UInt8 → ℕ → List ReqHeader → Except Fault (List UInt8 × ℕ)
  | buf, head, [] => .ok (buf, head)
  | buf, head, h :: headers => do
    let buf ← sprintfAt buf head (cstr h.name ++ headerSep ++ cstr h.value)
    sendHeaders buf (cstr buf).length headers

/-- `send_to_server(line, headers, num_hds)`, when `buf` holds these bytes at first: the bytes that
are written to the origin server. -/
def sendToServerInPlace (buf : List UInt8) (line : ReqLine) (headers : List ReqHeader) :
    Except Fault (List UInt8) := do
  let buf ← sprintfAt buf 0 (getMethod ++ cstr line.path ++ httpVersion)
  let (buf, head) ← sendHeaders buf (cstr buf).length headers
  let buf ← sprintfAt buf head crlf
  pure (buf.take maxline)

/-- The text of a request, as it is composed. -/
def requestText (line : ReqLine) (headers : List ReqHeader) : List UInt8 :=
  (requestPieces line headers).flatten

/-- The fields hold strings. -/
structure HoldStrings (line : ReqLine) (headers : List ReqHeader) : Prop where
  path : NulFree line.path
  headers : ∀ h ∈ headers, NulFree h.name ∧ NulFree h.value

/-- What `parse_request` fills in are strings. -/
theorem holdStrings_of_parseRequest {stream : List UInt8} {line : ReqLine}
    {headers : List ReqHeader} (h : parseRequest stream = .ok (some (line, headers))) :
    HoldStrings line headers := by
  obtain ⟨first, rest, uri, -, hword, huri, hheaders, -⟩ := parseRequest_eq_ok_iff.1 h
  constructor
  · have hfree := nulFree_secondWord hword
    rw [(parseUri_eq_ok_iff.1 huri).1.eq_append] at hfree
    exact fun b hb ↦ hfree b (by simp [hb])
  · obtain ⟨ls, tail, hls, hall⟩ := headerLines_iff.1 hheaders
    have hfree : ∀ l ∈ ls, NulFree l := by
      intro l hl
      have hmem : l ∈ rest.map cstr := hls ▸ List.mem_append_left _ hl
      obtain ⟨l', -, rfl⟩ := List.mem_map.1 hmem
      exact nulFree_cstr l'
    clear hls hheaders h
    induction hall with
    | nil => exact fun h hh ↦ absurd hh List.not_mem_nil
    | cons hfits _ ih =>
      have hl := hfree _ List.mem_cons_self
      rw [hfits.cut.eq_append] at hl
      obtain ⟨hname, hrest⟩ := nulFree_append_iff.1 hl
      intro h hh
      rcases List.mem_cons.1 hh with rfl | hh
      · exact ⟨hname, (nulFree_append_iff.1 hrest).2⟩
      · exact ih (fun l hl ↦ hfree l (List.mem_cons_of_mem _ hl)) h hh

/-- Every `sprintf` prints a string. -/
theorem HoldStrings.pieces {line : ReqLine} {headers : List ReqHeader}
    (h : HoldStrings line headers) : NulFree (getMethod ++ line.path ++ httpVersion) ∧
      ∀ p ∈ headers.map fun h ↦ h.name ++ headerSep ++ h.value, NulFree p := by
  constructor
  · exact ((show NulFree getMethod by decide).append h.path).append (by decide)
  · intro p hp
    obtain ⟨header, hmem, rfl⟩ := List.mem_map.1 hp
    obtain ⟨hname, hvalue⟩ := h.headers header hmem
    exact (hname.append (by decide)).append hvalue

theorem HoldStrings.nulFree_requestText {line : ReqLine} {headers : List ReqHeader}
    (h : HoldStrings line headers) : NulFree (requestText line headers) := by
  intro b hb
  obtain ⟨p, hp, hbp⟩ := List.mem_flatten.1 hb
  rw [requestPieces, List.mem_append, List.mem_cons, List.mem_singleton] at hp
  rcases hp with (rfl | hp) | rfl
  · exact h.pieces.1 b hbp
  · exact h.pieces.2 p hp b hbp
  · exact (show NulFree crlf by decide) b hbp

/-! ### The moving cursor -/

/-- **One `sprintf`** behind a text. -/
theorem sprintfAt_strcpy {text piece : List UInt8} (htext : NulFree text) (hpiece : NulFree piece)
    (buf : List UInt8) : sprintfAt (strcpy buf text) text.length piece =
      (copyInto .request maxline (text ++ piece)).map (strcpy buf) := by
  rw [sprintfAt, copyInto, List.length_append]
  split_ifs with hlt
  · have hdrop : (strcpy buf text).drop text.length = 0 :: buf.drop (text.length + 1) := by
      rw [strcpy, cstr_eq_self htext, List.drop_left]
    have htake : (strcpy buf text).take text.length = text := by
      rw [strcpy, cstr_eq_self htext, List.take_left]
    show Except.ok _ = Except.ok _
    rw [htake, hdrop, strcpy, strcpy, cstr_eq_self hpiece, cstr_eq_self (htext.append hpiece),
      List.append_assoc, List.drop_succ_cons, List.drop_drop, List.length_append]
    congr 5
    omega
  · rfl

/-- The first `sprintf`. -/
theorem sprintfAt_zero (buf piece : List UInt8) :
    sprintfAt buf 0 piece = (copyInto .request maxline piece).map (strcpy buf) := by
  rw [sprintfAt, copyInto, Nat.zero_add]
  split_ifs
  · rfl
  · rfl

theorem sprintfAll_append (ps qs : List (List UInt8)) : ∀ text : List UInt8,
    sprintfAll text (ps ++ qs) = sprintfAll text ps >>= fun text ↦ sprintfAll text qs := by
  induction ps with
  | nil => exact fun _ ↦ rfl
  | cons p ps ih =>
    intro text
    rw [List.cons_append, sprintfAll, sprintfAll]
    rcases copyInto .request maxline (text ++ p) with fault | text'
    · rfl
    · exact ih text'

/-- **The loop over the headers** appends them to the text. -/
theorem sendHeaders_strcpy (buf : List UInt8) (headers : List ReqHeader) : ∀ {text : List UInt8},
    NulFree text → (∀ h ∈ headers, NulFree h.name ∧ NulFree h.value) →
      sendHeaders (strcpy buf text) text.length headers =
        (sprintfAll text (headers.map fun h ↦ h.name ++ headerSep ++ h.value)).map
          fun text ↦ (strcpy buf text, text.length) := by
  induction headers with
  | nil => exact fun _ _ ↦ rfl
  | cons h headers ih =>
    intro text htext hheaders
    obtain ⟨hname, hvalue⟩ := hheaders h List.mem_cons_self
    have hpiece : NulFree (h.name ++ headerSep ++ h.value) :=
      (hname.append (by decide)).append hvalue
    rw [sendHeaders, List.map_cons, sprintfAll, cstr_eq_self hname, cstr_eq_self hvalue,
      sprintfAt_strcpy htext hpiece]
    rcases hcopy : copyInto .request maxline (text ++ (h.name ++ headerSep ++ h.value)) with
      fault | text'
    · rfl
    · obtain ⟨rfl, -⟩ := copyInto_eq_ok_iff.1 hcopy
      have hnext := ih (htext.append hpiece) fun h' hh' ↦ hheaders h' (List.mem_cons_of_mem _ hh')
      have hcursor : (cstr (strcpy buf (text ++ (h.name ++ headerSep ++ h.value)))).length =
          (text ++ (h.name ++ headerSep ++ h.value)).length := by
        rw [cstr_strcpy, cstr_eq_self (htext.append hpiece)]
      show sendHeaders _ (cstr (strcpy buf _)).length headers = _
      rw [hcursor]
      exact hnext

/-- Texts appended to a string without a NUL. -/
theorem nulFree_of_sprintfAll (pieces : List (List UInt8)) {text text' : List UInt8}
    (htext : NulFree text) (hlt : text.length < maxline) (hpieces : ∀ p ∈ pieces, NulFree p)
    (h : sprintfAll text pieces = .ok text') : NulFree text' := by
  obtain ⟨rfl, -⟩ := (sprintfAll_eq_ok_iff pieces hlt).1 h
  refine htext.append fun b hb ↦ ?_
  obtain ⟨p, hp, hbp⟩ := List.mem_flatten.1 hb
  exact hpieces p hp b hbp

/-- **The cursor loses nothing**: run on its buffer, `send_to_server` sends what `sendToServer`
says. -/
theorem sendToServerInPlace_eq {line : ReqLine} {headers : List ReqHeader}
    (hstrings : HoldStrings line headers) (buf : List UInt8) :
    sendToServerInPlace buf line headers = sendToServer buf line headers := by
  obtain ⟨hfirst, hheaders⟩ := hstrings.pieces
  rw [sendToServerInPlace, sendToServer, requestPieces, List.cons_append, sprintfAll,
    List.nil_append, cstr_eq_self hstrings.path, sprintfAt_zero]
  rcases hcopy : copyInto .request maxline (getMethod ++ line.path ++ httpVersion) with
    fault | text
  · rfl
  obtain ⟨rfl, hlt⟩ := copyInto_eq_ok_iff.1 hcopy
  show (sendHeaders (strcpy buf _) (cstr (strcpy buf _)).length headers >>= _) =
    (sprintfAll _ (_ ++ [crlf]) >>= _)
  rw [cstr_strcpy, cstr_eq_self hfirst, sendHeaders_strcpy buf headers hfirst hstrings.headers,
    sprintfAll_append]
  generalize headers.map (fun h ↦ h.name ++ headerSep ++ h.value) = pieces at hheaders ⊢
  rcases hall : sprintfAll (getMethod ++ line.path ++ httpVersion) pieces with fault | text
  · rfl
  have htext := nulFree_of_sprintfAll _ hfirst hlt hheaders hall
  show (sprintfAt (strcpy buf text) text.length crlf >>= _) = (sprintfAll text [crlf] >>= _)
  rw [sprintfAt_strcpy htext (by decide), sprintfAll]
  rcases hlast : copyInto .request maxline (text ++ crlf) with fault | text'
  · rfl
  obtain ⟨rfl, -⟩ := copyInto_eq_ok_iff.1 hlast
  show Except.ok _ = Except.ok _
  rw [strcpy, cstr_eq_self (htext.append (by decide))]

/-! ### What goes on the wire -/

/-- **What `send_to_server` writes**: the text and its NUL, and behind them what the buffer held
before. -/
theorem sendToServerInPlace_of_fits {line : ReqLine} {headers : List ReqHeader}
    (hstrings : HoldStrings line headers) (hfits : (requestText line headers).length < maxline)
    {buf : List UInt8} (hbuf : buf.length = maxline) : sendToServerInPlace buf line headers =
      .ok (requestText line headers ++ 0 :: buf.drop ((requestText line headers).length + 1)) := by
  rw [sendToServerInPlace_eq hstrings]
  refine sendToServer_eq_ok_iff.2 ⟨hfits, (List.take_of_length_le ?_).symm⟩
  rw [requestText] at hfits ⊢
  rw [List.length_append, List.length_cons, List.length_drop]
  omega

/-- An answer from the origin server has been asked for with the parsed request. -/
theorem Answers.sent_eq {c : Cache} {x : Connection} {line : ReqLine} {headers : List ReqHeader}
    {out : Outcome} {bytes sent : List UInt8} {filled : Option ℕ}
    (h : Answers c x line headers out) (hanswer : out.answer = .fromOrigin bytes sent filled) :
    sendToServer x.requestBuf line headers = .ok sent := by
  cases h with
  | fromCache _ => exact absurd hanswer (by simp)
  | stored _ _ hsent =>
    obtain ⟨-, rfl, -⟩ := Answer.fromOrigin.inj hanswer
    exact hsent
  | tooLarge _ _ hsent =>
    obtain ⟨-, rfl, -⟩ := Answer.fromOrigin.inj hanswer
    exact hsent

/-- **What a served miss puts on the wire**: the request that the client's bytes parse to, its
terminator, and the rest of the buffer of that connection. -/
theorem doit_sends {c : Cache} {x : Connection} {out : Outcome} {bytes sent : List UInt8}
    {filled : Option ℕ} (h : doit c x = .ok out)
    (hanswer : out.answer = .fromOrigin bytes sent filled) :
    ∃ line headers, parseRequest x.client = .ok (some (line, headers)) ∧
      sendToServerInPlace x.requestBuf line headers = .ok sent ∧
      sent = requestText line headers ++
        0 :: x.requestBuf.drop ((requestText line headers).length + 1) := by
  obtain ⟨line, headers, hparse, -, hanswers⟩ := doit_eq_ok_iff.1 h
  have hstrings := holdStrings_of_parseRequest hparse
  have hsent : sendToServerInPlace x.requestBuf line headers = .ok sent :=
    (sendToServerInPlace_eq hstrings _).trans (hanswers.sent_eq hanswer)
  have hfits := (sendToServer_eq_ok_iff.1 (hanswers.sent_eq hanswer)).1
  have htext := sendToServerInPlace_of_fits hstrings hfits x.length_requestBuf
  exact ⟨line, headers, hparse, hsent, Except.ok.inj (hsent.symm.trans htext)⟩

/-- Only the request goes on the wire: two runs write the same bytes, whatever is in their buffers
at first, and these are the text. -/
def OnlyTheRequest (line : ReqLine) (headers : List ReqHeader) : Prop :=
  ∀ buf buf' : List UInt8, buf.length = maxline → buf'.length = maxline →
    sendToServerInPlace buf line headers = sendToServerInPlace buf' line headers ∧
      sendToServerInPlace buf line headers = .ok (requestText line headers)

/-- **Two runs can be told apart on the wire** when the text does not fill the buffer. -/
theorem sent_ne_of_filled {line : ReqLine} {headers : List ReqHeader}
    (hstrings : HoldStrings line headers) (hfits : (requestText line headers).length + 1 < maxline)
    {b b' : UInt8} (hne : b ≠ b') :
    sendToServerInPlace (List.replicate maxline b) line headers ≠
      sendToServerInPlace (List.replicate maxline b') line headers := by
  have hlt : (requestText line headers).length < maxline := Nat.lt_of_succ_lt hfits
  rw [sendToServerInPlace_of_fits hstrings hlt List.length_replicate,
    sendToServerInPlace_of_fits hstrings hlt List.length_replicate, List.drop_replicate,
    List.drop_replicate]
  intro hsame
  obtain ⟨-, hrest⟩ := List.cons.inj (List.append_cancel_left (Except.ok.inj hsame))
  have hmem : b ∈ List.replicate (maxline - ((requestText line headers).length + 1)) b' :=
    hrest ▸ List.mem_replicate.2 ⟨by omega, rfl⟩
  exact hne (List.eq_of_mem_replicate hmem)

/-- **More than the request goes on the wire, always**: at least the terminator. What follows it is
the old contents of the buffer, so two runs can only agree when the text fills the buffer. -/
theorem never_only_the_request {line : ReqLine} {headers : List ReqHeader}
    (hstrings : HoldStrings line headers) (hfits : (requestText line headers).length < maxline) :
    ¬ OnlyTheRequest line headers ∧
      ((∀ buf buf' : List UInt8, buf.length = maxline → buf'.length = maxline →
          sendToServerInPlace buf line headers = sendToServerInPlace buf' line headers) ↔
        (requestText line headers).length + 1 = maxline) := by
  refine ⟨fun h ↦ ?_, fun h ↦ ?_, fun hfull buf buf' hbuf hbuf' ↦ ?_⟩
  · have hbuf : (List.replicate maxline (0 : UInt8)).length = maxline := List.length_replicate
    obtain ⟨-, htext⟩ := h _ _ hbuf hbuf
    rw [sendToServerInPlace_of_fits hstrings hfits hbuf] at htext
    have hlen := congrArg List.length (Except.ok.inj htext)
    rw [List.length_append, List.length_cons] at hlen
    omega
  · by_contra hne
    exact sent_ne_of_filled hstrings (by omega) (show (0 : UInt8) ≠ 1 by decide)
      (h _ _ List.length_replicate List.length_replicate)
  · rw [sendToServerInPlace_of_fits hstrings hfits hbuf,
      sendToServerInPlace_of_fits hstrings hfits hbuf', hfull, List.drop_of_length_le hbuf.le,
      List.drop_of_length_le hbuf'.le]

/-- `GET http://h:80/` without headers. -/
def rootOfH : ReqLine := ⟨[104], [56, 48], [47]⟩

theorem holdStrings_rootOfH : HoldStrings rootOfH [] :=
  ⟨by decide, fun _ h ↦ absurd h List.not_mem_nil⟩

theorem never_only_the_request_rootOfH : ¬ OnlyTheRequest rootOfH [] ∧
    ((∀ buf buf' : List UInt8, buf.length = maxline → buf'.length = maxline →
        sendToServerInPlace buf rootOfH [] = sendToServerInPlace buf' rootOfH []) ↔
      (requestText rootOfH []).length + 1 = maxline) :=
  never_only_the_request holdStrings_rootOfH (by decide)

/-- One request, on a buffer of `A`s and on one of `B`s. -/
theorem rootOfH_leaks : ¬ ∀ line headers, HoldStrings line headers →
    (requestText line headers).length < maxline → OnlyTheRequest line headers := by
  intro h
  obtain ⟨hsame, -⟩ := h rootOfH [] holdStrings_rootOfH (by decide) (List.replicate maxline 65)
    (List.replicate maxline 66) List.length_replicate List.length_replicate
  exact sent_ne_of_filled holdStrings_rootOfH (by decide) (by decide) hsame

end CsappCode.ProxyLab
