import CsappCode.ProxyLab.Forwarding
import CsappCode.ProxyLab.Fields
import Mathlib.Algebra.GroupWithZero.Nat

/-!
# How long a composed request gets

`send_to_server` prints the path, the headers and 17 bytes of its own into an array as long as those
that the lines of the client were read into. The path alone may come from a line that filled one.

* `length_requestText` adds up what is printed.
* `RequestFits` says that the text with its NUL is no longer than the array, and that no `sprintf`
  overruns it.
* `request_fits_iff` says for which requests the array is large enough.

## What the results rest on

**The requests** are those that `parse_request` can produce, from any stream. So the names and
values of the headers fit their fields, there are at most twenty of them, and the path is shorter
than a line. Within these bounds every length up to the largest occurs, and twenty headers of the
largest size together with a short path do not fill the array: it is the path that decides.

**Two measures.** That no `sprintf` overruns the array is a fact about every prefix of the text, and
that the whole text fits is one about its length. They agree because the text only grows, and the
condition is on the length.

**The cursor.** The code finds the end of the text with `strlen` each time. That this is where the
model appends is the subject of the module on the buffer.
-/

namespace CsappCode.ProxyLab

open Csapp (maxline newline)
open Scanf (isSpace)

/-- The bytes of the header lines. -/
def headerBytes (headers : List ReqHeader) : ℕ :=
  (headers.map fun h ↦ h.name.length + headerSep.length + h.value.length).sum

/-- **The length of the request text**: the path and the header lines, and 17 bytes around them. -/
theorem length_requestText (line : ReqLine) (headers : List ReqHeader) :
    (requestText line headers).length = line.path.length + headerBytes headers + 17 := by
  have hmethod : getMethod.length = 4 := rfl
  have hversion : httpVersion.length = 11 := rfl
  have hcrlf : crlf.length = 2 := rfl
  have hheaders : (headers.map fun h ↦ h.name ++ headerSep ++ h.value).flatten.length =
      headerBytes headers := by
    rw [List.length_flatten, List.map_map, headerBytes]
    congr 1
    refine List.map_congr_left fun h _ ↦ ?_
    rw [Function.comp_apply, List.length_append, List.length_append]
  rw [requestText, requestPieces, List.cons_append, List.flatten_cons, List.flatten_append,
    List.length_append, List.length_append, List.length_append, List.length_append, hheaders,
    hmethod, hversion, List.flatten_singleton, hcrlf]
  omega

/-- **The composed request fits**: with its NUL it is no longer than the array, and no `sprintf`
overruns it. -/
structure RequestFits (line : ReqLine) (headers : List ReqHeader) : Prop where
  text : (requestText line headers).length + 1 ≤ maxline
  sprintf : ∀ buf : List UInt8, buf.length = maxline →
    NoOverflow (sendToServerInPlace buf line headers)

/-- The calls of `sprintf` stay inside just if the whole text does. -/
theorem requestFits_iff_length {line : ReqLine} {headers : List ReqHeader}
    (hstrings : HoldStrings line headers) :
    RequestFits line headers ↔ (requestText line headers).length < maxline := by
  refine ⟨fun h ↦ h.text, fun h ↦ ⟨h, fun buf hbuf ↦ ?_⟩⟩
  rw [sendToServerInPlace_of_fits hstrings h hbuf]
  exact noOverflow_ok _

/-- **Which parsed requests fit**: those whose path and header lines together are 18 bytes shorter
than the array. -/
theorem request_fits_iff {stream : List UInt8} {line : ReqLine} {headers : List ReqHeader}
    (hparse : parseRequest stream = .ok (some (line, headers))) :
    RequestFits line headers ↔ line.path.length + headerBytes headers ≤ maxline - 18 := by
  have hmaxline : maxline = 8192 := rfl
  rw [requestFits_iff_length (holdStrings_of_parseRequest hparse), length_requestText]
  omega

theorem request_fits_twoHeaders :
    RequestFits ⟨[104], [56, 48], [47]⟩ [⟨[65], [98, 58, 32, 99, 13, 10]⟩, ⟨[66], [100, 13, 10]⟩] ↔
      1 + 15 ≤ maxline - 18 := by
  refine request_fits_iff (twoHeaders.parseRequest_bytes wellFormed_twoHeaders (by decide)
    (by decide) (.cons ?_ (.cons ?_ .nil)) (by decide) [])
  · exact ⟨⟨rfl, by decide⟩, by decide, by decide⟩
  · exact ⟨⟨rfl, by decide⟩, by decide, by decide⟩

/-- `GET http://h:1/aaa...`, with `n` letters, and no headers. -/
def longPath (n : ℕ) : ClientRequest where
  method := [71, 69, 84]
  blanks := [32]
  host := [104]
  port := [49]
  path := slash :: List.replicate n 97
  tail := crlf
  headers := []

/-- The bytes of the request line, its newline apart. -/
def longPathText (n : ℕ) : List UInt8 :=
  [71, 69, 84, 32, 104, 116, 116, 112, 58, 47, 47, 104, 58, 49, 47] ++ (List.replicate n 97 ++ [13])

theorem requestLine_longPath (n : ℕ) :
    (longPath n).requestLine = longPathText n ++ [newline] := by
  simp [longPath, longPathText, ClientRequest.requestLine, ClientRequest.uri, httpPrefix, colon,
    slash, crlf, newline]

theorem mem_longPathText {n : ℕ} {b : UInt8} (hb : b ∈ longPathText n) :
    b ∈ [71, 69, 84, 32, 104, 116, 116, 112, 58, 47, 47, 104, 58, 49, 47, 97, 13] := by
  rw [longPathText, List.mem_append, List.mem_append, List.mem_replicate] at hb
  rcases hb with hb | ⟨-, rfl⟩ | hb
  · exact List.mem_append_left _ hb
  · decide
  · obtain rfl := List.mem_singleton.1 hb
    decide

/-- It is a line as long as the proxy reads one, up to 8174 letters. -/
theorem wellFormed_longPath {n : ℕ} (hn : n ≤ 8174) : (longPath n).WellFormed where
  method_ne_nil := by simp [longPath]
  method := by simp [longPath, isSpace]
  blanks_ne_nil := by simp [longPath]
  blanks := by simp [longPath, isSpace]
  uri := by
    intro b hb
    simp only [longPath, ClientRequest.uri, httpPrefix, List.mem_append, List.mem_cons,
      List.mem_replicate, List.not_mem_nil, or_false] at hb
    rcases hb with (rfl | rfl | rfl | rfl | rfl | rfl | rfl) | rfl | rfl | rfl | rfl | ⟨-, rfl⟩ <;>
      decide
  host := by simp [longPath, colon]
  port := by simp [longPath, slash]
  path := ⟨_, rfl⟩
  tail := by simp [longPath, crlf, isSpace]
  requestLine := by
    rw [requestLine_longPath]
    refine ⟨⟨?_, _, rfl, fun hmem ↦ absurd (mem_longPathText hmem) (by decide)⟩, ?_⟩
    · simp only [longPathText, List.length_append, List.length_replicate, List.length_cons,
        List.length_nil]
      exact Nat.lt_succ_of_le (by omega)
    · intro b hb hnul
      rcases List.mem_append.1 hb with hb | hb
      · exact absurd (hnul ▸ mem_longPathText hb) (by decide)
      · exact absurd (List.mem_singleton.1 (hnul ▸ hb)) (by decide)
  headers := by simp [longPath]

theorem length_requestText_longPath (n : ℕ) :
    (requestText ⟨(longPath n).host, (longPath n).port, (longPath n).path⟩ []).length = n + 18 := by
  rw [length_requestText]
  simp [longPath, headerBytes]

/-- A path that fills its line leaves no room for the version. -/
theorem longPath_overruns : ¬ ∀ stream line headers,
    parseRequest stream = .ok (some (line, headers)) → RequestFits line headers := by
  intro h
  have hparse := (longPath 8174).parseRequest_bytes (wellFormed_longPath le_rfl)
    (by decide : 1 < 63) (by decide : 1 < 10) .nil (Nat.zero_le _) []
  have htext := (h _ _ _ hparse).text
  rw [length_requestText_longPath] at htext
  exact absurd htext (by decide)

end CsappCode.ProxyLab
