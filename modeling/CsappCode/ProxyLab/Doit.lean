import CsappCode.ProxyLab.Cache
import CsappCode.ProxyLab.Request

/-!
# Serving a request

`doit` of `proxy.c` parses the request, looks its URI up in the cache, and on a miss asks the origin
server, relays the response and stores it. `doit_eq_ok_iff` takes the function apart once and for
all; `Runs` are the connections served one after the other.

## What a connection is

Its bytes, in and out: what the client sends until it closes, and what the origin server would
answer. Its arrays live on the stack, and what they hold before they are written to is part of the
connection as well, for `send_to_server` writes all of its buffer and `writer` copies what the relay
has left in `object_buf`, which may be nothing.

## What is assumed of the sockets

`Rio_readlineb`, `Rio_writen` and `Close` succeed, and so do `socket` and `connect`. `Open_clientfd`
need not: before any of these calls `getaddrinfo` looks at the host and the port, which are the
client's, and a port that is not a number is enough for `Open_clientfd` to end the process in
`unix_error`. What it says of a host and a port is a parameter of the connection (`opens`), for the
resolver is not part of the program. It is asked on a miss only.

## What the results rest on

`doit` returns a value just where it comes to its end; every other end of the process or of what C
defines is a `Fault`. So a theorem about `doit c x = .ok out` is about the connections that are
answered, and that there are such connections, and which, is for `ProxyLab/Survival.lean` to say.
The cache is threaded through one connection after the other; how the threads of the proxy mix is in
`ProxyLab/Concurrent.lean`, which is put together from the same parts.
-/

namespace CsappCode.ProxyLab

open Csapp (lines maxline)

/-- A connection: what the client sends until it closes, for which hosts and ports `Open_clientfd`
returns, what the origin server would answer, and what the arrays `buf` of `send_to_server` and
`object_buf` of `doit` happen to hold. -/
structure Connection where
  client : List UInt8
  opens : List UInt8 → List UInt8 → Bool
  origin : List UInt8
  requestBuf : List UInt8
  objectBuf : List UInt8
  length_requestBuf : requestBuf.length = maxline
  length_objectBuf : objectBuf.length = maxObjectSize

/-- The name under which `doit` caches an object. -/
def ReqLine.cacheKey (line : ReqLine) : List UInt8 := line.host ++ line.path

/-! ### `send_to_server` -/

/-- `Open_clientfd(line->host, line->port)`, with which `send_to_server` begins. -/
def openClientfd (x : Connection) (line : ReqLine) : Except Fault Unit :=
  if x.opens line.host line.port then .ok () else .error .openClientfd

theorem openClientfd_eq_ok_iff {x : Connection} {line : ReqLine} {u : Unit} :
    openClientfd x line = .ok u ↔ x.opens line.host line.port = true := by
  rw [openClientfd]
  split_ifs with h
  · exact iff_of_true rfl h
  · exact iff_of_false (by simp) h

/-- `"GET "`. -/
def getMethod : List UInt8 := [71, 69, 84, 32]

/-- `" HTTP/1.0\\r\\n"`. -/
def httpVersion : List UInt8 := [32, 72, 84, 84, 80, 47, 49, 46, 48, 13, 10]

/-- What each `sprintf` appends. -/
def requestPieces (line : ReqLine) (headers : List ReqHeader) : List (List UInt8) :=
  (getMethod ++ line.path ++ httpVersion) ::
    (headers.map fun h ↦ h.name ++ headerSep ++ h.value) ++ [crlf]

/-- The calls of `sprintf` one after the other, behind `text`. -/
def sprintfAll : List UInt8 → List (List UInt8) → Except Fault (List UInt8)
  | text, [] => .ok text
  | text, piece :: pieces => do
    let text ← copyInto .request maxline (text ++ piece)
    sprintfAll text pieces

/-- The rest of `send_to_server`: the bytes written to the origin server, the whole of `buf`. -/
def sendToServer (requestBuf : List UInt8) (line : ReqLine) (headers : List ReqHeader) :
    Except Fault (List UInt8) := do
  let text ← sprintfAll [] (requestPieces line headers)
  pure ((text ++ 0 :: requestBuf.drop (text.length + 1)).take maxline)

theorem sprintfAll_eq_ok_iff (pieces : List (List UInt8)) : ∀ {text result : List UInt8},
    text.length < maxline → (sprintfAll text pieces = .ok result ↔
      result = text ++ pieces.flatten ∧ (text ++ pieces.flatten).length < maxline) := by
  induction pieces with
  | nil =>
    intro text result htext
    simp [sprintfAll, htext, eq_comm]
  | cons piece pieces ih =>
    intro text result htext
    rw [sprintfAll, bind_eq_ok_iff]
    simp only [copyInto_eq_ok_iff]
    constructor
    · rintro ⟨_, ⟨rfl, hlt⟩, h⟩
      rw [ih hlt, List.append_assoc] at h
      exact h
    · rintro ⟨rfl, hlt⟩
      have hlt' : (text ++ piece).length < maxline := by
        simp only [List.flatten_cons, List.length_append] at hlt ⊢
        omega
      refine ⟨_, ⟨rfl, hlt'⟩, (ih hlt').2 ⟨?_, ?_⟩⟩
      · rw [List.append_assoc]; rfl
      · rwa [List.append_assoc]

/-- **`send_to_server` needs the request to fit its buffer.** -/
theorem sendToServer_eq_ok_iff {requestBuf sent : List UInt8} {line : ReqLine}
    {headers : List ReqHeader} : sendToServer requestBuf line headers = .ok sent ↔
      (requestPieces line headers).flatten.length < maxline ∧
      sent = ((requestPieces line headers).flatten ++ 0 ::
        requestBuf.drop ((requestPieces line headers).flatten.length + 1)).take maxline := by
  have hspec := fun text ↦ @sprintfAll_eq_ok_iff (requestPieces line headers) [] text (by decide)
  rw [sendToServer, bind_eq_ok_iff]
  simp only [hspec]
  constructor
  · rintro ⟨_, ⟨rfl, hlt⟩, h⟩
    exact ⟨hlt, (Except.ok.inj h).symm⟩
  · rintro ⟨hlt, rfl⟩
    exact ⟨_, ⟨rfl, hlt⟩, rfl⟩

/-! ### The relay -/

/-- The relay loop on the lines to come: `object_buf` and `total_size` at its end. Every line is
also written to the client. -/
def relay : List UInt8 → ℕ → List (List UInt8) → Except Fault (List UInt8 × ℕ)
  | object, total, [] => .ok (object, total)
  | object, total, line :: rest =>
    if total + (cstr line).length < maxObjectSize then
      relay (object.take total ++ strcpy (object.drop total) line) (total + line.length) rest
    else .error (.overflow .objectBuf)

/-- The lines of a response find room in `object_buf`, behind `total` bytes. -/
def RelayFits (total : ℕ) (ls : List (List UInt8)) : Prop :=
  ∀ pre line post, ls = pre ++ line :: post →
    total + pre.flatten.length + (cstr line).length < maxObjectSize

theorem relayFits_cons {total : ℕ} {line : List UInt8} {rest : List (List UInt8)} :
    RelayFits total (line :: rest) ↔
      total + (cstr line).length < maxObjectSize ∧ RelayFits (total + line.length) rest := by
  refine ⟨fun h ↦ ?_, ?_⟩
  · refine ⟨by simpa using h [] line rest rfl, fun pre line' post heq ↦ ?_⟩
    have := h (line :: pre) line' post (by rw [heq]; rfl)
    rw [List.flatten_cons, List.length_append] at this
    omega
  · rintro ⟨hline, hrest⟩ (- | ⟨l, pre⟩) line' post heq
    · obtain ⟨rfl, -⟩ := List.cons.inj heq
      simpa using hline
    · obtain ⟨rfl, rfl⟩ := List.cons.inj heq
      have := hrest pre line' post rfl
      rw [List.flatten_cons, List.length_append]
      omega

/-- **The relay loop runs through just if every line finds room**, and counts all the bytes. -/
theorem relay_eq_ok_iff (ls : List (List UInt8)) : ∀ (object : List UInt8) (total : ℕ),
    (RelayFits total ls ↔
        ∃ object', relay object total ls = .ok (object', total + ls.flatten.length)) ∧
      ∀ r, relay object total ls = .ok r → r.2 = total + ls.flatten.length := by
  induction ls with
  | nil =>
    intro object total
    refine ⟨⟨fun _ ↦ ⟨object, rfl⟩, fun _ pre line post heq ↦ absurd heq (by simp)⟩, ?_⟩
    rintro r h
    rw [← Except.ok.inj h]
    rfl
  | cons line rest ih =>
    intro object total
    have hsum : total + (line :: rest).flatten.length =
        total + line.length + rest.flatten.length := by
      rw [List.flatten_cons, List.length_append, Nat.add_assoc]
    rw [relay, hsum, relayFits_cons]
    split_ifs with hlt
    · refine ⟨?_, fun r h ↦ (ih _ _).2 r h⟩
      rw [and_iff_right hlt]
      exact (ih _ _).1
    · refine ⟨⟨fun h ↦ absurd h.1 hlt, ?_⟩, fun r h ↦ absurd h (by simp)⟩
      exact fun ⟨_, h⟩ ↦ absurd h (by simp)

/-- A string ends no later than a NUL behind it. -/
theorem length_cstr_append_nul_le (pre post : List UInt8) :
    (cstr (pre ++ 0 :: post)).length ≤ pre.length := by
  induction pre with
  | nil => simp [cstr]
  | cons b pre ih =>
    rw [List.cons_append, cstr, List.takeWhile_cons]
    split_ifs
    · exact Nat.succ_le_succ ih
    · simp

/-- **What is relayed leaves a string in `object_buf`**, unless nothing is. -/
theorem length_cstr_relay_lt (ls : List (List UInt8)) : ∀ {object object' : List UInt8}
    {total total' : ℕ}, ls ≠ [] → relay object total ls = .ok (object', total') →
      (cstr object').length < maxObjectSize := by
  induction ls with
  | nil => exact fun hne ↦ absurd rfl hne
  | cons line rest ih =>
    intro object object' total total' _ h
    rw [relay] at h
    split_ifs at h with hlt
    rcases eq_or_ne rest [] with rfl | hne
    · -- the NUL of the last `strcpy` is still there
      obtain ⟨rfl, -⟩ := Prod.mk.inj (Except.ok.inj h)
      rw [strcpy, ← List.append_assoc]
      have hle := length_cstr_append_nul_le (object.take total ++ cstr line)
        ((object.drop total).drop ((cstr line).length + 1))
      have htake := List.length_take_le total object
      rw [List.length_append] at hle
      omega
    · exact ih hne h

/-! ### `doit` -/

/-- `writer(uri, object_buf)`, which needs a slot, and a string in `object_buf` that ends there. -/
def storeObject (c : Cache) (uri object : List UInt8) : Except Fault Cache :=
  if c.usedCnt < slots then
    if (cstr object).length < maxObjectSize then .ok (writer c uri object)
    else .error (.overflow .object)
  else .error (.overflow .slots)

/-- How a request is answered: from a slot of the cache, with the bytes written to the client, or by
relaying the response, with the bytes written to the origin server and the slot filled, if any. -/
inductive Answer where
  | fromCache (slot : ℕ) (bytes : List UInt8)
  | fromOrigin (bytes sent : List UInt8) (filled : Option ℕ)

structure Outcome where
  line : ReqLine
  answer : Answer
  cache : Cache

/-- `doit(fd)`. -/
def doit (c : Cache) (x : Connection) : Except Fault Outcome := do
  match ← parseRequest x.client with
  | none => .error .uninitialised
  | some (line, headers) =>
    let uri ← copyInto .uri maxline line.cacheKey
    match reader c uri with
    | some (slot, bytes) => pure ⟨line, .fromCache slot bytes, c⟩
    | none =>
      -- a miss: the response is relayed, and stored if it is small
      openClientfd x line
      let sent ← sendToServer x.requestBuf line headers
      let (object, total) ← relay x.objectBuf 0 (lines x.origin)
      if total < maxObjectSize then
        let c' ← storeObject c uri object
        pure ⟨line, .fromOrigin x.origin sent (some c.usedCnt), c'⟩
      else pure ⟨line, .fromOrigin x.origin sent none, c⟩

/-- What is answered to a request that has been parsed. -/
inductive Answers (c : Cache) (x : Connection) (line : ReqLine) (headers : List ReqHeader) :
    Outcome → Prop
  | fromCache {slot : ℕ} {bytes : List UInt8} : reader c line.cacheKey = some (slot, bytes) →
    Answers c x line headers ⟨line, .fromCache slot bytes, c⟩
  | stored {sent object : List UInt8} : reader c line.cacheKey = none →
    x.opens line.host line.port = true →
    sendToServer x.requestBuf line headers = .ok sent →
    relay x.objectBuf 0 (lines x.origin) = .ok (object, x.origin.length) →
    x.origin.length < maxObjectSize → c.usedCnt < slots → (cstr object).length < maxObjectSize →
    Answers c x line headers
      ⟨line, .fromOrigin x.origin sent (some c.usedCnt), writer c line.cacheKey object⟩
  | tooLarge {sent object : List UInt8} : reader c line.cacheKey = none →
    x.opens line.host line.port = true →
    sendToServer x.requestBuf line headers = .ok sent →
    relay x.objectBuf 0 (lines x.origin) = .ok (object, x.origin.length) →
    maxObjectSize ≤ x.origin.length →
    Answers c x line headers ⟨line, .fromOrigin x.origin sent none, c⟩

theorem Answers.line_eq {c : Cache} {x : Connection} {line : ReqLine} {headers : List ReqHeader}
    {out : Outcome} (h : Answers c x line headers out) : out.line = line := by
  cases h <;> rfl

/-- The relay counts the bytes of the response. -/
theorem relay_total {x : Connection} {object : List UInt8} {total : ℕ}
    (h : relay x.objectBuf 0 (lines x.origin) = .ok (object, total)) : total = x.origin.length := by
  have htotal := (relay_eq_ok_iff (lines x.origin) x.objectBuf 0).2 _ h
  rwa [Csapp.flatten_lines, Nat.zero_add] at htotal

/-- A response is relayed to its end just if it finds room. -/
theorem relayFits_iff {x : Connection} : RelayFits 0 (lines x.origin) ↔
    ∃ object, relay x.objectBuf 0 (lines x.origin) = .ok (object, x.origin.length) := by
  have hiff := (relay_eq_ok_iff (lines x.origin) x.objectBuf 0).1
  rwa [Csapp.flatten_lines, Nat.zero_add] at hiff

/-- **`doit` answers a request just if it parses, its key fits, and it can be answered.** -/
theorem doit_eq_ok_iff {c : Cache} {x : Connection} {out : Outcome} :
    doit c x = .ok out ↔ ∃ line headers, parseRequest x.client = .ok (some (line, headers)) ∧
      line.cacheKey.length < maxline ∧ Answers c x line headers out := by
  refine ⟨fun h ↦ ?_, ?_⟩
  · obtain ⟨parsed, hparse, h⟩ := bind_eq_ok_iff.1 h
    rcases parsed with - | ⟨line, headers⟩
    · exact absurd h (by simp)
    obtain ⟨uri, huri, h⟩ := bind_eq_ok_iff.1 h
    obtain ⟨rfl, hlen⟩ := copyInto_eq_ok_iff.1 huri
    refine ⟨line, headers, hparse, hlen, ?_⟩
    rcases hreader : reader c line.cacheKey with - | ⟨slot, bytes⟩
    · simp only [hreader] at h
      obtain ⟨_, hopens, h⟩ := bind_eq_ok_iff.1 h
      rw [openClientfd_eq_ok_iff] at hopens
      obtain ⟨sent, hsent, h⟩ := bind_eq_ok_iff.1 h
      obtain ⟨⟨object, total⟩, hrelay, h⟩ := bind_eq_ok_iff.1 h
      obtain rfl := relay_total hrelay
      dsimp only at h
      split_ifs at h with hsize
      · obtain ⟨c', hstore, h⟩ := bind_eq_ok_iff.1 h
        rw [storeObject] at hstore
        split_ifs at hstore with hslot hobject
        obtain rfl := Except.ok.inj hstore
        obtain rfl := Except.ok.inj h
        exact .stored hreader hopens hsent hrelay hsize hslot hobject
      · obtain rfl := Except.ok.inj h
        exact .tooLarge hreader hopens hsent hrelay (Nat.le_of_not_lt hsize)
    · simp only [hreader] at h
      obtain rfl := Except.ok.inj h
      exact .fromCache hreader
  · rintro ⟨line, headers, hparse, hlen, hanswer⟩
    refine bind_eq_ok_iff.2 ⟨_, hparse, bind_eq_ok_iff.2 ⟨_, copyInto_eq_ok_iff.2 ⟨rfl, hlen⟩, ?_⟩⟩
    cases hanswer with
    | fromCache hreader => simp only [hreader]; rfl
    | stored hreader hopens hsent hrelay hsize hslot hobject =>
      simp only [hreader]
      refine bind_eq_ok_iff.2 ⟨(), openClientfd_eq_ok_iff.2 hopens, ?_⟩
      refine bind_eq_ok_iff.2 ⟨_, hsent, bind_eq_ok_iff.2 ⟨_, hrelay, ?_⟩⟩
      rw [if_pos hsize, storeObject, if_pos hslot, if_pos hobject]
      rfl
    | tooLarge hreader hopens hsent hrelay hsize =>
      simp only [hreader]
      refine bind_eq_ok_iff.2 ⟨(), openClientfd_eq_ok_iff.2 hopens, ?_⟩
      refine bind_eq_ok_iff.2 ⟨_, hsent, bind_eq_ok_iff.2 ⟨_, hrelay, ?_⟩⟩
      rw [if_neg (Nat.not_lt_of_le hsize)]
      rfl

/-! ### Connections one after the other -/

/-- A condition on every member of a sequence and on what precedes it, when one more is added. -/
theorem forall_split_concat_iff {α : Type} {P : List α → α → Prop} {l : List α} {b : α} :
    (∀ pre a post, l ++ [b] = pre ++ a :: post → P pre a) ↔
      (∀ pre a post, l = pre ++ a :: post → P pre a) ∧ P l b := by
  refine ⟨fun h ↦ ?_, ?_⟩
  · exact ⟨fun pre a post heq ↦ h pre a (post ++ [b]) (by rw [heq, List.append_assoc]; rfl),
      h l b [] rfl⟩
  · rintro ⟨h, hb⟩ pre a post heq
    rcases List.eq_nil_or_concat post with rfl | ⟨post, b', rfl⟩
    · obtain ⟨rfl, hab⟩ := List.append_inj' heq rfl
      obtain rfl := List.singleton_inj.1 hab
      exact hb
    · rw [List.concat_eq_append, ← List.cons_append, ← List.append_assoc] at heq
      exact h pre a post (List.append_inj' heq rfl).1

/-- Connections served one after the other, each to its end. -/
inductive Runs (c₀ : Cache) : List Connection → List Outcome → Cache → Prop
  | start : Runs c₀ [] [] c₀
  | serve {xs : List Connection} {outs : List Outcome} {c : Cache} {x : Connection}
      {out : Outcome} : Runs c₀ xs outs c → doit c x = .ok out →
      Runs c₀ (xs ++ [x]) (outs ++ [out]) out.cache

/-- What every answer keeps, every run keeps. -/
theorem Runs.invariant {P : Cache → Prop} {c₀ c : Cache} {xs : List Connection}
    {outs : List Outcome} (h : Runs c₀ xs outs c) (hstart : P c₀)
    (hdoit : ∀ c x out, P c → doit c x = .ok out → P out.cache) : P c := by
  induction h with
  | start => exact hstart
  | serve _ hserve ih => exact hdoit _ _ _ ih hserve

/-! ### The slots filled -/

/-- The request has filled a slot. -/
def Outcome.Fills (out : Outcome) (k : ℕ) : Prop :=
  ∃ bytes sent, out.answer = .fromOrigin bytes sent (some k)

/-- A request fills at most one slot. -/
theorem Outcome.Fills.unique {out : Outcome} {j k : ℕ} (hj : out.Fills j) (hk : out.Fills k) :
    j = k := by
  obtain ⟨_, _, hj⟩ := hj
  obtain ⟨_, _, hk⟩ := hk
  obtain ⟨-, -, heq⟩ := Answer.fromOrigin.inj (hj.symm.trans hk)
  exact Option.some.inj heq

/-- A later cache: the slots filled are still there, as they were. -/
structure Cache.Extends (c c' : Cache) : Prop where
  usedCnt_le : c.usedCnt ≤ c'.usedCnt
  objects_eq : ∀ k < c.usedCnt, c'.objects k = c.objects k

theorem Cache.Extends.refl (c : Cache) : c.Extends c := ⟨le_rfl, fun _ _ ↦ rfl⟩

theorem Cache.Extends.trans {c c' c'' : Cache} (h : c.Extends c') (h' : c'.Extends c'') :
    c.Extends c'' where
  usedCnt_le := h.usedCnt_le.trans h'.usedCnt_le
  objects_eq k hk := by
    rw [h'.objects_eq k (hk.trans_le h.usedCnt_le), h.objects_eq k hk]

theorem extends_writer (c : Cache) (uri buf : List UInt8) : c.Extends (writer c uri buf) where
  usedCnt_le := by rw [writer_usedCnt]; exact Nat.le_succ _
  objects_eq _ hk := writer_objects_of_ne c uri buf hk.ne

/-- The request has been answered from a slot. -/
def Outcome.Hits (out : Outcome) (k : ℕ) : Prop := ∃ bytes, out.answer = .fromCache k bytes

/-- The request stores its response: a miss, a small response, and a call of `writer` with what the
relay left in `object_buf`. -/
structure Stores (c : Cache) (x : Connection) (out : Outcome) : Prop where
  miss : reader c out.line.cacheKey = none
  size : x.origin.length < maxObjectSize
  slot : c.usedCnt < slots
  fills : out.Fills c.usedCnt
  cache : ∃ object, relay x.objectBuf 0 (lines x.origin) = .ok (object, x.origin.length) ∧
    out.cache = writer c out.line.cacheKey object

/-- **What an answer does to the cache.** -/
theorem doit_cases {c : Cache} {x : Connection} {out : Outcome} (h : doit c x = .ok out) :
    (∃ k bytes, reader c out.line.cacheKey = some (k, bytes) ∧ out.answer = .fromCache k bytes ∧
      out.cache = c) ∨ Stores c x out ∨
    (reader c out.line.cacheKey = none ∧ maxObjectSize ≤ x.origin.length ∧
      (∃ sent, out.answer = .fromOrigin x.origin sent none) ∧ out.cache = c) := by
  obtain ⟨line, headers, -, -, hanswer⟩ := doit_eq_ok_iff.1 h
  cases hanswer with
  | fromCache hreader => exact .inl ⟨_, _, hreader, rfl, rfl⟩
  | stored hreader _ _ hrelay hsize hslot _ =>
    exact .inr (.inl ⟨hreader, hsize, hslot, ⟨_, _, rfl⟩, _, hrelay, rfl⟩)
  | tooLarge hreader _ _ _ hsize => exact .inr (.inr ⟨hreader, hsize, ⟨_, rfl⟩, rfl⟩)

/-- Only what is stored fills a slot. -/
theorem stores_of_fills {c : Cache} {x : Connection} {out : Outcome} (h : doit c x = .ok out)
    {k : ℕ} (hfills : out.Fills k) : Stores c x out := by
  obtain ⟨_, _, hfills⟩ := hfills
  obtain ⟨_, _, -, hanswer, -⟩ | hstores | ⟨-, -, ⟨_, hanswer⟩, -⟩ := doit_cases h
  · exact absurd (hfills.symm.trans hanswer) (by simp)
  · exact hstores
  · exact absurd (hfills.symm.trans hanswer) (by simp)

theorem extends_doit {c : Cache} {x : Connection} {out : Outcome} (h : doit c x = .ok out) :
    c.Extends out.cache := by
  obtain ⟨_, _, -, -, hcache⟩ | hstores | ⟨-, -, -, hcache⟩ := doit_cases h
  · rw [hcache]
    exact .refl c
  · obtain ⟨object, -, hcache⟩ := hstores.cache
    rw [hcache]
    exact extends_writer c _ _
  · rw [hcache]
    exact .refl c

/-- A run only adds to the cache. -/
theorem Runs.extends {c₀ c : Cache} {xs : List Connection} {outs : List Outcome}
    (h : Runs c₀ xs outs c) : c₀.Extends c :=
  h.invariant (.refl c₀) fun _ _ _ hc hdoit ↦ hc.trans (extends_doit hdoit)

end CsappCode.ProxyLab
