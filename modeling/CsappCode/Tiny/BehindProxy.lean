import CsappCode.Tiny.Requests
import CsappCode.ProxyLab.Forwarding
import CsappCode.ProxyLab.RelayLoop
import CsappCode.ProxyLab.Replay

/-!
# Tiny behind the proxy

The proxy asks the origin server with its own request line and the whole of its buffer, stale bytes
included. When the origin is Tiny the bytes behind the empty line do not matter (`doit_get`), and a
client of the proxy receives what Tiny sends for the path that it asked for.

* `wellFormed_proxied` says that what the proxy sends is a request that Tiny understands.
* `origin_eq` says that Tiny's reply to it is the one to the path that the client has asked for.
* `proxy_serves_file` follows a small text file through the proxy: to the client that asks first,
  and from the cache to every later one, in every run.

## What later clients receive

It has stale bytes at its end. **Whether they can tell is up to the library that Tiny is linked
with.** If it appends, Tiny's response says where it ends, and a client that goes by
`Content-length` finds the file in front of the stale bytes. If it keeps the last text, there is no
length, and such a client finds nothing.

## What is assumed

**The origin server is Tiny itself**: `OriginIsTiny` says that what the proxy is sent back is Tiny's
reply to the bytes that the proxy has sent. `Open_clientfd` returns for the host and port of the
first request.

**The file** has no NUL, for the proxy stores what it relays as a string, and head and content
together are small enough to be stored. A slot of the cache is free, and none has the key of the
request; the socket calls succeed.
-/

namespace CsappCode.Tiny

open Csapp (lines maxline newline EndsInNewline)
open Printf (SelfSprintf)
open ProxyLab (ClientRequest ReqHeader NulFree getMethod httpVersion maxObjectSize slots Cache
  Runs)

/-! ### What the proxy asks -/

/-- The request that the proxy makes of a client's. -/
def proxied (r : ClientRequest) : Get := ⟨r.path, httpVersion, r.headers⟩

theorem proxied_bytes (r : ClientRequest) : (proxied r).bytes = r.forwarded := by
  rw [Get.bytes, Get.requestLine, ClientRequest.forwarded, proxied]
  simp only [List.append_assoc]

/-- **The proxy's request is one that Tiny understands.** -/
theorem wellFormed_proxied {r : ClientRequest} (hr : r.WellFormed) (hfits : r.Fits) :
    (proxied r).WellFormed := by
  have hspace : ∀ b ∈ r.path, Scanf.isSpace b = false := fun b hb ↦
    hr.uri b (by simp [ClientRequest.uri, hb])
  have hnewline : newline ∉ r.path := fun h ↦ absurd (hspace _ h) (by decide)
  have hnul : NulFree r.path := by
    intro b hb
    exact hr.requestLine.2 b (by simp [ClientRequest.requestLine, ClientRequest.uri, hb])
  refine ⟨?_, hspace, ⟨32, httpVersion.tail, rfl, by decide⟩, ⟨⟨?_, ?_⟩, ?_⟩,
    fun l hl ↦ (hr.headers l hl).1⟩
  · obtain ⟨rest, hpath⟩ := hr.path
    show r.path ≠ []
    rw [hpath]
    simp
  · -- the line is shorter than the request
    have hlen := hfits.forwarded
    rw [ClientRequest.forwarded, List.length_append, List.length_append] at hlen
    show (getMethod ++ r.path ++ httpVersion).length < maxline
    omega
  · refine ⟨getMethod ++ r.path ++ httpVersion.dropLast, ?_, ?_⟩
    · show getMethod ++ r.path ++ httpVersion = _
      rw [List.append_assoc (getMethod ++ r.path)]
      rfl
    · rw [List.mem_append, List.mem_append]
      exact not_or.2 ⟨not_or.2 ⟨by decide, hnewline⟩, by decide⟩
  · show NulFree (getMethod ++ r.path ++ httpVersion)
    exact ((show NulFree getMethod by decide).append hnul).append (by decide)

/-- The proxy sends its request, a NUL and stale bytes. -/
theorem exists_sent {r : ClientRequest} (hfits : r.Fits)
    {headers : List ReqHeader} (hheaders : List.Forall₂ ProxyLab.HeaderFits r.headers headers)
    (requestBuf : List UInt8) : ∃ stale,
      ProxyLab.sendToServer requestBuf ⟨r.host, r.port, r.path⟩ headers =
        .ok ((proxied r).bytes ++ stale) := by
  have htext : (ProxyLab.requestPieces ⟨r.host, r.port, r.path⟩ headers).flatten =
      r.forwarded := by
    rw [ProxyLab.requestPieces, ProxyLab.flatten_headerFits hheaders, List.cons_append,
      List.flatten_cons, List.flatten_append, List.flatten_singleton, ClientRequest.forwarded]
    simp only [List.append_assoc]
  have hsent := @ProxyLab.sendToServer_eq_ok_iff requestBuf
    (((proxied r).bytes ++ 0 :: requestBuf.drop (r.forwarded.length + 1)).take maxline)
    ⟨r.host, r.port, r.path⟩ headers
  rw [htext, proxied_bytes] at hsent
  refine ⟨(0 :: requestBuf.drop (r.forwarded.length + 1)).take (maxline - r.forwarded.length), ?_⟩
  rw [hsent.2 ⟨hfits.forwarded, rfl⟩, List.take_append, proxied_bytes,
    List.take_of_length_le hfits.forwarded.le]

/-- The origin server of a proxy's connection is Tiny: its response is Tiny's reply to what the
proxy sends, in enough turns of `read_requesthdrs`. -/
def OriginIsTiny (lib : SelfSprintf) (fs : Files) (conn : ProxyLab.Connection) : Prop :=
  ∀ line headers sent, ProxyLab.parseRequest conn.client = .ok (some (line, headers)) →
    ProxyLab.sendToServer conn.requestBuf line headers = .ok sent →
    ∃ (x : Connection) (fuel : ℕ), x.client = sent ∧ sent.length < fuel ∧
      conn.origin = (doit lib fs fuel x).written

/-- A line has a byte. -/
theorem length_le_length_flatten {ls : List (List UInt8)} (h : ∀ l ∈ ls, EndsInNewline l) :
    ls.length ≤ ls.flatten.length := by
  induction ls with
  | nil => exact le_rfl
  | cons l ls ih =>
    obtain ⟨-, text, rfl, -⟩ := h l List.mem_cons_self
    have := ih fun l' hl' ↦ h l' (List.mem_cons_of_mem _ hl')
    rw [List.flatten_cons, List.length_append, List.length_append, List.length_cons,
      List.length_singleton]
    omega

/-- **Tiny's reply through the proxy** is the one to the path that the client asked for. -/
theorem origin_eq {lib : SelfSprintf} {fs : Files} {r : ClientRequest} (hr : r.WellFormed)
    (hfits : r.Fits) {conn : ProxyLab.Connection} {rest : List UInt8}
    (hclient : conn.client = r.bytes ++ rest) (hconn : OriginIsTiny lib fs conn) :
    conn.origin = (answer lib fs r.path).written := by
  obtain ⟨headers, hheaders⟩ := ProxyLab.exists_forall₂ hfits.headers
  have hparse := r.parseRequest_bytes hr hfits.host hfits.port hheaders hfits.headers_le rest
  obtain ⟨stale, hsent⟩ := exists_sent hfits hheaders conn.requestBuf
  obtain ⟨x, fuel, hx, hfuel, horigin⟩ := hconn _ headers _ (hclient ▸ hparse) hsent
  have hle := length_le_length_flatten (fun l hl ↦ (hr.headers l hl).1)
  have hturns : (proxied r).headers.length < fuel := by
    refine Nat.lt_of_le_of_lt ?_ hfuel
    rw [Get.bytes, List.length_append, List.length_append, List.length_append]
    show r.headers.length ≤ _ + (r.headers.flatten.length + _) + _
    omega
  rw [horigin, doit_get lib fs (wellFormed_proxied hr hfits) hx hturns]
  rfl

/-- A connection on which Tiny answers. -/
theorem originIsTiny {lib : SelfSprintf} {fs : Files} {r : ClientRequest} (hr : r.WellFormed)
    (hfits : r.Fits) {conn : ProxyLab.Connection} {rest : List UInt8}
    (hclient : conn.client = r.bytes ++ rest)
    (horigin : conn.origin = (answer lib fs r.path).written) : OriginIsTiny lib fs conn := by
  intro line headers' sent hparse hsent
  obtain ⟨headers, hheaders⟩ := ProxyLab.exists_forall₂ hfits.headers
  have hparse' := r.parseRequest_bytes hr hfits.host hfits.port hheaders hfits.headers_le rest
  rw [hclient, hparse'] at hparse
  obtain ⟨rfl, rfl⟩ := Prod.mk.inj (Option.some.inj (Except.ok.inj hparse))
  obtain ⟨stale, hsent'⟩ := exists_sent hfits hheaders conn.requestBuf
  have hx : sent = (proxied r).bytes ++ stale := Except.ok.inj (hsent.symm.trans hsent')
  have hturns : (proxied r).headers.length < sent.length + 1 := by
    rw [hx, Get.bytes, List.length_append, List.length_append, List.length_append]
    have hle := length_le_length_flatten fun l hl ↦ (hr.headers l hl).1
    show r.headers.length < _ + (r.headers.flatten.length + _) + _ + 1
    omega
  refine ⟨freshConnection sent, sent.length + 1, rfl, Nat.lt_succ_self _, ?_⟩
  rw [doit_get lib fs (wellFormed_proxied hr hfits) (x := freshConnection sent) hx hturns, horigin]
  rfl

/-! ### The file through the proxy -/

/-- A request for a small file is relayed and stored. -/
theorem exists_stored {lib : SelfSprintf} {fs : Files} {r : ClientRequest} (hr : r.WellFormed)
    (hfits : r.Fits) {file : File} (hfile : Serves fs r.path file) {head : List UInt8}
    (hhead : staticHead lib (target r.path).filename file.content.length = some head)
    {conn : ProxyLab.Connection} {rest : List UInt8} (hclient : conn.client = r.bytes ++ rest)
    (hconn : OriginIsTiny lib fs conn) (hopens : conn.opens r.host r.port = true) {c : Cache}
    (hmiss : ProxyLab.reader c (r.host ++ r.path) = none) (hslot : c.usedCnt < slots)
    (hsmall : (head ++ file.content).length < maxObjectSize) :
    conn.origin = head ++ file.content ∧ ∃ out, ProxyLab.doit c conn = .ok out ∧
      out.line = ⟨r.host, r.port, r.path⟩ ∧ ProxyLab.Stores c conn out := by
  obtain ⟨headers, hheaders⟩ := ProxyLab.exists_forall₂ hfits.headers
  have hproxied := wellFormed_proxied hr hfits
  have horigin : conn.origin = head ++ file.content := by
    rw [origin_eq hr hfits hclient hconn,
      hfile.answer_eq hproxied.uri_ne_nil (ClientRequest.length_path_lt hr) hhead]
  have hne : conn.origin ≠ [] := by
    intro h
    have hcontent := (List.append_eq_nil_iff.1 (horigin.symm.trans h)).2
    exact absurd hfile.pos (by simp [hcontent])
  have hparse := r.parseRequest_bytes hr hfits.host hfits.port hheaders hfits.headers_le rest
  have hkey : (r.host ++ r.path).length < maxline := by
    have hlen := hr.requestLine.1.1
    rw [ClientRequest.requestLine, ClientRequest.uri] at hlen
    simp only [List.length_append, List.length_cons] at hlen ⊢
    omega
  obtain ⟨stale, hsent⟩ := exists_sent hfits hheaders conn.requestBuf
  have hroom : ProxyLab.RelayFits 0 (lines conn.origin) := ProxyLab.relayFits_of_length_lt (by
    rwa [Csapp.flatten_lines, horigin])
  refine ⟨horigin, ProxyLab.exists_stores
    (ProxyLab.parsable_iff.2 ⟨hclient ▸ hparse, hkey⟩) hmiss ?_ (horigin ▸ hsmall)⟩
  exact ⟨hopens, (ProxyLab.sendToServer_eq_ok_iff.1 hsent).1, hroom, fun _ ↦ hslot,
    fun h ↦ absurd h hne⟩

/-- What is stored has been relayed. -/
theorem answer_of_stores {c : Cache} {conn : ProxyLab.Connection} {out : ProxyLab.Outcome}
    (h : ProxyLab.Stores c conn out) (hdoit : ProxyLab.doit c conn = .ok out) :
    ∃ sent, out.answer = .fromOrigin conn.origin sent (some c.usedCnt) := by
  obtain ⟨line, headers, -, -, hanswer⟩ := ProxyLab.doit_eq_ok_iff.1 hdoit
  cases hanswer with
  | fromCache hreader => exact absurd (hreader.symm.trans h.miss) (by simp)
  | @stored sent => exact ⟨sent, rfl⟩
  | tooLarge _ _ _ _ hsize => exact absurd h.size (Nat.not_lt_of_le hsize)

/-- **The proxy in front of Tiny serves a text file**: to the client that asks for it first, and
from the cache to every later one, with stale bytes behind it. A later client that goes by
`Content-length` has the file if Tiny's library appends, and finds no response if it keeps the last
text. -/
theorem proxy_serves_file (lib : SelfSprintf) {fs : Files} {r : ClientRequest} (hr : r.WellFormed)
    (hfits : r.Fits) {file : File} (hfile : Serves fs r.path file) {head : List UInt8}
    (hhead : staticHead lib (target r.path).filename file.content.length = some head)
    (hnul : NulFree (head ++ file.content))
    (hsmall : (head ++ file.content).length < maxObjectSize)
    {conn : ProxyLab.Connection} {rest : List UInt8} (hclient : conn.client = r.bytes ++ rest)
    (hconn : OriginIsTiny lib fs conn) (hopens : conn.opens r.host r.port = true) {c : Cache}
    (hmiss : ProxyLab.reader c (r.host ++ r.path) = none) (hslot : c.usedCnt < slots) :
    ∃ out sent, ProxyLab.doit c conn = .ok out ∧
      out.answer = .fromOrigin (head ++ file.content) sent (some c.usedCnt) ∧
      ∀ conns outs c' conn' out', Runs out.cache conns outs c' →
        ProxyLab.doit c' conn' = .ok out' → out'.line.cacheKey = r.host ++ r.path →
        ∃ stale, out'.answer = .fromCache c.usedCnt (head ++ file.content ++ stale) ∧
          (lib = .append →
            parseResponse (head ++ file.content ++ stale) = some (fileResponse r.path file)) ∧
          (lib = .keepLast → parseResponse (head ++ file.content ++ stale) = none) := by
  obtain ⟨horigin, out, hdoit, hline, hstores⟩ :=
    exists_stored hr hfits hfile hhead hclient hconn hopens hmiss hslot hsmall
  obtain ⟨sent, hanswer⟩ := answer_of_stores hstores hdoit
  have hne : conn.origin ≠ [] := by
    intro h
    have hcontent := (List.append_eq_nil_iff.1 (horigin.symm.trans h)).2
    exact absurd hfile.pos (by simp [hcontent])
  refine ⟨out, sent, hdoit, horigin ▸ hanswer, fun conns outs c' conn' out' hrun hdoit' hkey ↦ ?_⟩
  have hkey' : out'.line.cacheKey = out.line.cacheKey := by
    rw [hkey, hline]
    rfl
  obtain ⟨stale, hanswer'⟩ := hstores.replay_of_nulFree hne (horigin ▸ hnul) hrun hdoit' hkey'
  obtain ⟨head', hhead', happend, hkeep⟩ := hfile.exists_head lib
  obtain rfl := Option.some.inj (hhead.symm.trans hhead')
  refine ⟨_, by rw [hanswer', horigin], fun hlib ↦ ?_, fun hlib ↦ ?_⟩
  · rw [happend hlib, parseResponse_bytes hfile.wellFormed]
  · rw [hkeep hlib, List.append_assoc _ file.content, parseResponse_typeLine]

/-- A request for the home page. -/
def homeConnection (lib : SelfSprintf) : ProxyLab.Connection :=
  ProxyLab.zeroedConnection ProxyLab.twoHeaders.bytes (answer lib homeFiles [slash]).written

theorem originIsTiny_homeConnection (lib : SelfSprintf) :
    OriginIsTiny lib homeFiles (homeConnection lib) :=
  originIsTiny ProxyLab.wellFormed_twoHeaders ProxyLab.fits_twoHeaders (List.append_nil _).symm rfl

/-- The head of the home page, with a library that appends. -/
def homeHead : List UInt8 := (staticHead .append (target [slash]).filename 1).getD []

theorem proxy_serves_file_home : ∃ out sent,
    ProxyLab.doit ProxyLab.zeroedCache (homeConnection .append) = .ok out ∧
    out.answer = .fromOrigin (homeHead ++ [97]) sent (some 0) ∧
    ∀ conns outs c' conn' out', Runs out.cache conns outs c' →
      ProxyLab.doit c' conn' = .ok out' → out'.line.cacheKey = [104, slash] →
      ∃ stale, out'.answer = .fromCache 0 (homeHead ++ [97] ++ stale) ∧
        (SelfSprintf.append = .append →
          parseResponse (homeHead ++ [97] ++ stale) = some (fileResponse [slash] homePage)) ∧
        (SelfSprintf.append = .keepLast → parseResponse (homeHead ++ [97] ++ stale) = none) := by
  have hhead : staticHead .append (target [slash]).filename homePage.content.length =
      some homeHead := by decide +kernel
  have hnul : NulFree (homeHead ++ homePage.content) := by decide +kernel
  have hsmall : (homeHead ++ homePage.content).length < maxObjectSize := by decide +kernel
  have hclient : (homeConnection .append).client = ProxyLab.twoHeaders.bytes ++ [] :=
    (List.append_nil _).symm
  exact proxy_serves_file .append ProxyLab.wellFormed_twoHeaders ProxyLab.fits_twoHeaders
    serves_homePage hhead hnul hsmall hclient (originIsTiny_homeConnection .append) (by decide)
    (ProxyLab.reader_zeroedCache (by decide)) (by decide)

end CsappCode.Tiny
