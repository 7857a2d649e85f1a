import CsappCode.ProxyLab.Doit
import Mathlib.Data.List.Forall2

/-!
# Which connections the proxy survives

Every malformed request ends the process: the parsing functions `exit`, store through null pointers
or overrun their arrays. `Survives` is the exact condition, on the bytes of a connection and on the
cache it meets, under which `doit` answers.

* `Parsable` is a request that can be parsed, and `parsable_iff` says that `parse_request` succeeds
  on just these.
* `Relayable` is one that can be relayed, and `exists_answers_iff` says that a parsed request is
  answered just if it is cached or can be relayed.
* `exists_doit_iff` puts them together, and `doit_ne_running` says that `doit` always ends.
* `proxy_survives_iff` lifts the condition to sequences of connections.
* `relativeRequest_ends_process` is one request that ends the process.

## What the results rest on

**One connection after the other.** The condition on a connection is in the cache that the earlier
ones have left, and `proxy_survives_iff` runs through the sequence: at the first connection that
fails it, the process ends or C leaves undefined what it does.

**Hosts and ports.** `Open_clientfd` returns or ends the process. Which of the two it does, for
which host and port, is part of the connection, as are the bytes of the client and those of the
origin server.

**Undefined runs** count as not surviving. Some of them would go on in practice; that none is
counted as an answer is what makes the condition one on the bytes.
-/

namespace CsappCode.ProxyLab

open Csapp (lines maxline)

/-! ### The condition -/

/-- A header line as `parse_header` can take it: a separator, and around its first occurrence texts
that fit. -/
structure HeaderFits (line : List UInt8) (header : ReqHeader) : Prop where
  cut : FirstCut headerSep line header.name header.value
  name : header.name.length < headerNameMaxLen
  value : header.value.length < headerValueMaxLen

/-- **A request that can be parsed**: the second word of its first line is a URI with a host, a port
and a path that fit; at most twenty header lines follow, and then an empty line. -/
structure Parsable (stream : List UInt8) (line : ReqLine) (headers : List ReqHeader) : Prop where
  shape : ∃ first rest uri ls tail, lines stream = first :: rest ∧
    rest.map cstr = ls ++ crlf :: tail ∧ secondWord (cstr first) = some uri ∧ UriCut uri line ∧
    List.Forall₂ HeaderFits ls headers
  host : line.host.length < hostnameMaxLen
  port : line.port.length < portMaxLen
  headers_le : headers.length ≤ maxHeaders

/-- A request that is answered from the cache. -/
def Cached (c : Cache) (line : ReqLine) : Prop :=
  ∃ k < slots, cstr (c.objects k).name = cstr line.cacheKey

/-- **A request that can be relayed**: `Open_clientfd` returns for its host and port, it fits the
buffer of `send_to_server`, the response finds room in `object_buf`, and if it is to be stored there
is a slot left and, for an empty response, a NUL in what `object_buf` happens to hold. -/
structure Relayable (c : Cache) (x : Connection) (line : ReqLine) (headers : List ReqHeader) :
    Prop where
  opens : x.opens line.host line.port = true
  request : (requestPieces line headers).flatten.length < maxline
  response : RelayFits 0 (lines x.origin)
  slot : x.origin.length < maxObjectSize → c.usedCnt < slots
  empty : x.origin = [] → 0 ∈ x.objectBuf

/-- **A connection that the proxy survives.** -/
def Survives (c : Cache) (x : Connection) : Prop :=
  ∃ line headers, Parsable x.client line headers ∧ (Cached c line ∨ Relayable c x line headers)

/-! ### Parsing -/

theorem headerLines_iff {ls : List (List UInt8)} {headers : List ReqHeader} :
    HeaderLines ls headers ↔
      ∃ ls' tail, ls = ls' ++ crlf :: tail ∧ List.Forall₂ HeaderFits ls' headers := by
  refine ⟨fun h ↦ ?_, ?_⟩
  · induction h with
    | stop => exact ⟨[], _, rfl, .nil⟩
    | header hparse _ ih =>
      obtain ⟨ls', tail, rfl, hall⟩ := ih
      obtain ⟨-, hcut, hname, hvalue⟩ := parseHeader_eq_ok_iff.1 hparse
      exact ⟨_ :: ls', tail, rfl, .cons ⟨hcut, hname, hvalue⟩ hall⟩
  · rintro ⟨ls', tail, rfl, hall⟩
    induction hall with
    | nil => exact .stop
    | cons hfits _ ih =>
      exact .header (parseHeader_eq_ok_iff.2 ⟨rfl, hfits.cut, hfits.name, hfits.value⟩) ih

/-- The fields of a URI are together shorter than the URI. -/
theorem UriCut.length_eq {uri : List UInt8} {line : ReqLine} (h : UriCut uri line) :
    uri.length = 8 + line.host.length + line.port.length + line.path.length := by
  rw [h.eq_append]
  simp only [List.length_append, List.length_cons, httpPrefix, List.length_nil]
  omega

/-- What `parse_request` accepts can be parsed. -/
theorem parsable_of_parseRequest {stream : List UInt8} {line : ReqLine} {headers : List ReqHeader}
    (h : parseRequest stream = .ok (some (line, headers))) : Parsable stream line headers := by
  obtain ⟨first, rest, uri, hlines, hword, hparse, hheaders, hle⟩ := parseRequest_eq_ok_iff.1 h
  obtain ⟨hcut, hhost, hport, -⟩ := parseUri_eq_ok_iff.1 hparse
  obtain ⟨ls, tail, hrest, hall⟩ := headerLines_iff.1 hheaders
  exact ⟨⟨first, rest, uri, ls, tail, hlines, hrest, hword, hcut, hall⟩, hhost, hport, hle⟩

/-- **`parse_request` succeeds on just the requests that can be parsed**, and then the key fits. -/
theorem parsable_iff {stream : List UInt8} {line : ReqLine} {headers : List ReqHeader} :
    Parsable stream line headers ↔ parseRequest stream = .ok (some (line, headers)) ∧
      line.cacheKey.length < maxline := by
  constructor
  · rintro ⟨⟨first, rest, uri, ls, tail, hlines, hrest, hword, hcut, hall⟩, hhost, hport, hle⟩
    have hfirst := Csapp.isLine_of_mem_lines (hlines ▸ List.mem_cons_self)
    have huri := length_secondWord_lt hfirst hword
    have hlen := hcut.length_eq
    have hheaders := headerLines_iff.2 ⟨ls, tail, hrest, hall⟩
    refine ⟨parseRequest_eq_ok_iff.2 ⟨first, rest, uri, hlines, hword, ?_, hheaders, hle⟩, ?_⟩
    · exact parseUri_eq_ok_iff.2 ⟨hcut, hhost, hport, by omega⟩
    · rw [ReqLine.cacheKey, List.length_append]
      omega
  · exact fun h ↦ parsable_of_parseRequest h.1

/-! ### Answering -/

theorem reader_isSome_iff {c : Cache} {line : ReqLine} :
    Cached c line ↔ reader c line.cacheKey ≠ none := by
  rw [Ne, reader_eq_none_iff, Cached]
  push Not
  exact Iff.rfl

/-- The string in `object_buf` ends there, whatever the response. -/
theorem length_cstr_object_lt {x : Connection} {object : List UInt8} {total : ℕ}
    (hempty : x.origin = [] → 0 ∈ x.objectBuf)
    (h : relay x.objectBuf 0 (lines x.origin) = .ok (object, total)) :
    (cstr object).length < maxObjectSize := by
  rcases eq_or_ne (lines x.origin) [] with hlines | hlines
  · rw [hlines] at h
    obtain ⟨rfl, -⟩ := Prod.mk.inj (Except.ok.inj h)
    have horigin : x.origin = [] := by rw [← Csapp.flatten_lines x.origin, hlines]; rfl
    obtain ⟨pre, post, heq⟩ := List.append_of_mem (hempty horigin)
    have hle := length_cstr_append_nul_le pre post
    have hlen := x.length_objectBuf
    rw [heq, List.length_append, List.length_cons] at hlen
    rw [heq]
    omega
  · exact length_cstr_relay_lt _ hlines h

/-- **A parsed request is answered just if it is cached or can be relayed.** -/
theorem exists_answers_iff {c : Cache} {x : Connection} {line : ReqLine}
    {headers : List ReqHeader} : (∃ out, Answers c x line headers out) ↔
      Cached c line ∨ Relayable c x line headers := by
  constructor
  · rintro ⟨out, hout⟩
    cases hout with
    | fromCache hreader => exact .inl (reader_isSome_iff.2 (by rw [hreader]; simp))
    | stored hreader hopens hsent hrelay hsize hslot hobject =>
      refine .inr ⟨hopens, (sendToServer_eq_ok_iff.1 hsent).1, relayFits_iff.2 ⟨_, hrelay⟩,
        fun _ ↦ hslot, fun horigin ↦ ?_⟩
      · -- nothing was relayed, so what is stored is what `object_buf` happened to hold
        rw [horigin] at hrelay
        obtain ⟨rfl, -⟩ := Prod.mk.inj (Except.ok.inj hrelay)
        by_contra hmem
        have hself : cstr x.objectBuf = x.objectBuf :=
          cstr_eq_self fun b hb h0 ↦ hmem (h0 ▸ hb)
        rw [hself, x.length_objectBuf] at hobject
        exact lt_irrefl _ hobject
    | tooLarge hreader hopens hsent hrelay hsize =>
      refine .inr ⟨hopens, (sendToServer_eq_ok_iff.1 hsent).1, relayFits_iff.2 ⟨_, hrelay⟩,
        fun hlt ↦ ?_, fun horigin ↦ ?_⟩
      · exact absurd hlt (Nat.not_lt_of_le hsize)
      · rw [horigin] at hsize
        exact absurd hsize (by decide)
  · intro h
    rcases hreader : reader c line.cacheKey with - | ⟨slot, bytes⟩
    · have hnot : ¬ Cached c line := fun hc ↦ reader_isSome_iff.1 hc hreader
      obtain ⟨hopens, hrequest, hresponse, hslot, hempty⟩ := h.resolve_left hnot
      obtain ⟨sent, hsent⟩ : ∃ sent, sendToServer x.requestBuf line headers = .ok sent :=
        ⟨_, sendToServer_eq_ok_iff.2 ⟨hrequest, rfl⟩⟩
      obtain ⟨object, hrelay⟩ := relayFits_iff.1 hresponse
      rcases Nat.lt_or_ge x.origin.length maxObjectSize with hlt | hge
      · exact ⟨_, .stored hreader hopens hsent hrelay hlt (hslot hlt)
          (length_cstr_object_lt hempty hrelay)⟩
      · exact ⟨_, .tooLarge hreader hopens hsent hrelay hge⟩
    · exact ⟨_, .fromCache hreader⟩

/-- **`doit` answers exactly the connections that it survives.** -/
theorem exists_doit_iff {c : Cache} {x : Connection} :
    (∃ out, doit c x = .ok out) ↔ Survives c x := by
  constructor
  · rintro ⟨out, h⟩
    obtain ⟨line, headers, hparse, hlen, hanswer⟩ := doit_eq_ok_iff.1 h
    exact ⟨line, headers, parsable_iff.2 ⟨hparse, hlen⟩, exists_answers_iff.1 ⟨out, hanswer⟩⟩
  · rintro ⟨line, headers, hparsable, h⟩
    obtain ⟨hparse, hlen⟩ := parsable_iff.1 hparsable
    obtain ⟨out, hanswer⟩ := exists_answers_iff.2 h
    exact ⟨out, doit_eq_ok_iff.2 ⟨line, headers, hparse, hlen, hanswer⟩⟩

/-! ### `doit` always ends -/

theorem sprintfAll_ne_running (pieces : List (List UInt8)) : ∀ text : List UInt8,
    sprintfAll text pieces ≠ .error .running := by
  induction pieces with
  | nil => simp [sprintfAll]
  | cons piece pieces ih => exact fun _ ↦ bind_ne_running copyInto_ne_running fun _ ↦ ih _

theorem openClientfd_ne_running {x : Connection} {line : ReqLine} :
    openClientfd x line ≠ .error .running := by
  rw [openClientfd]
  split_ifs <;> simp

theorem relay_ne_running (ls : List (List UInt8)) : ∀ (object : List UInt8) (total : ℕ),
    relay object total ls ≠ .error .running := by
  induction ls with
  | nil => simp [relay]
  | cons line rest ih =>
    intro object total
    rw [relay]
    split_ifs
    · exact ih _ _
    · simp

theorem storeObject_ne_running (c : Cache) (uri object : List UInt8) :
    storeObject c uri object ≠ .error .running := by
  rw [storeObject]
  split_ifs <;> simp

/-- **`doit` ends after finitely many steps**, on every connection and every cache. -/
theorem doit_ne_running (c : Cache) (x : Connection) : doit c x ≠ .error .running := by
  refine bind_ne_running (parseRequest_ne_running _) fun parsed ↦ ?_
  rcases parsed with - | ⟨line, headers⟩
  · simp
  refine bind_ne_running copyInto_ne_running fun uri ↦ ?_
  split
  · simp [pure, Except.pure]
  · refine bind_ne_running openClientfd_ne_running fun _ ↦ ?_
    refine bind_ne_running (bind_ne_running (sprintfAll_ne_running _ _) fun _ ↦ ?_) fun sent ↦ ?_
    · simp [pure, Except.pure]
    refine bind_ne_running (relay_ne_running _ _ _) fun r ↦ ?_
    dsimp only
    split_ifs
    · exact bind_ne_running (storeObject_ne_running _ _ _) fun _ ↦ by simp [pure, Except.pure]
    · simp [pure, Except.pure]

/-! ### Sequences of connections -/

/-- The last connection of a sequence is served after the others. -/
theorem runs_concat_iff {c₀ : Cache} {xs : List Connection} {x : Connection} :
    (∃ outs c, Runs c₀ (xs ++ [x]) outs c) ↔ ∃ outs c, Runs c₀ xs outs c ∧ Survives c x := by
  constructor
  · rintro ⟨outs, c', h⟩
    generalize hys : xs ++ [x] = ys at h
    cases h with
    | start => exact absurd hys (by simp)
    | @serve xs' outs' c x' out hrun hdoit =>
      obtain ⟨rfl, hx⟩ := List.append_inj' hys rfl
      obtain rfl := List.singleton_inj.1 hx
      exact ⟨outs', c, hrun, exists_doit_iff.1 ⟨out, hdoit⟩⟩
  · rintro ⟨outs, c, hrun, hx⟩
    obtain ⟨out, hdoit⟩ := exists_doit_iff.2 hx
    exact ⟨_, _, hrun.serve hdoit⟩

/-- A sequence of connections is served in one way. -/
theorem Runs.unique {c₀ c c' : Cache} {xs : List Connection} {outs outs' : List Outcome}
    (h : Runs c₀ xs outs c) (h' : Runs c₀ xs outs' c') : outs = outs' ∧ c = c' := by
  induction h generalizing outs' c' with
  | start =>
    generalize hys : ([] : List Connection) = ys at h'
    cases h' with
    | start => exact ⟨rfl, rfl⟩
    | serve => exact absurd hys (by simp)
  | @serve xs outs c x out hrun hdoit ih =>
    generalize hys : xs ++ [x] = ys at h'
    cases h' with
    | start => exact absurd hys (by simp)
    | @serve xs' outs' c' x' out' hrun' hdoit' =>
      obtain ⟨rfl, hx⟩ := List.append_inj' hys rfl
      obtain rfl := List.singleton_inj.1 hx
      obtain ⟨rfl, rfl⟩ := ih hrun'
      obtain rfl := Except.ok.inj (hdoit.symm.trans hdoit')
      exact ⟨rfl, rfl⟩

/-- **The proxy survives a sequence of connections exactly when it survives each of them in the
state that the earlier ones leave.** Otherwise the process ends, or does something undefined, at the
first connection that fails the condition. -/
theorem proxy_survives_iff (c₀ : Cache) (xs : List Connection) :
    (∃ outs c, Runs c₀ xs outs c) ↔
      ∀ pre x post, xs = pre ++ x :: post → ∀ outs c, Runs c₀ pre outs c → Survives c x := by
  induction xs using List.reverseRecOn with
  | nil => exact ⟨fun _ pre x post heq ↦ absurd heq (by simp), fun _ ↦ ⟨[], c₀, .start⟩⟩
  | append_singleton xs x ih =>
    rw [runs_concat_iff, forall_split_concat_iff, ← ih]
    constructor
    · rintro ⟨outs, c, hrun, hx⟩
      exact ⟨⟨outs, c, hrun⟩, fun outs' c' hrun' ↦ (hrun.unique hrun').2 ▸ hx⟩
    · rintro ⟨⟨outs, c, hrun⟩, h⟩
      exact ⟨outs, c, hrun, h outs c hrun⟩

/-- Areas and arrays that are all zeros. -/
def zeroedCache : Cache :=
  initCache fun _ ↦ ⟨List.replicate maxline 0, List.replicate maxObjectSize 0⟩

/-- A port in digits, which is what `AI_NUMERICSERV` makes `getaddrinfo` look for. -/
def numericPort (port : List UInt8) : Bool := port ≠ [] ∧ port.all (Scanf.isDigit 10)

/-- A connection with zeroed arrays, to a host that has an address. -/
def zeroedConnection (client origin : List UInt8) : Connection where
  client := client
  opens := fun _ port ↦ numericPort port
  origin := origin
  requestBuf := List.replicate maxline 0
  objectBuf := List.replicate maxObjectSize 0
  length_requestBuf := List.length_replicate
  length_objectBuf := List.length_replicate

/-- `"GET / HTTP/1.0\r\n\r\n"`, a request whose URI does not begin with `http://`. -/
def relativeRequest : List UInt8 :=
  [71, 69, 84, 32, 47, 32, 72, 84, 84, 80, 47, 49, 46, 48, 13, 10, 13, 10]

/-- **One such request ends the process.** -/
theorem relativeRequest_ends_process :
    doit zeroedCache (zeroedConnection relativeRequest []) = .error .invalidUri ∧
      ¬ ∃ outs c, Runs zeroedCache [zeroedConnection relativeRequest []] outs c := by
  have hdoit : doit zeroedCache (zeroedConnection relativeRequest []) = .error .invalidUri := rfl
  refine ⟨hdoit, ?_⟩
  rintro ⟨outs, c, h⟩
  obtain ⟨outs', c', hrun, hx⟩ := runs_concat_iff.1 (⟨outs, c, h⟩ : ∃ outs c,
    Runs zeroedCache ([] ++ [zeroedConnection relativeRequest []]) outs c)
  obtain ⟨-, rfl⟩ := hrun.unique .start
  obtain ⟨out, hout⟩ := exists_doit_iff.2 hx
  exact absurd (hdoit.symm.trans hout) (by simp)

end CsappCode.ProxyLab
