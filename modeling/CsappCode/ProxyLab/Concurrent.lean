import CsappCode.Library.Clients
import CsappCode.ProxyLab.Exclusion
import CsappCode.ProxyLab.CacheKey
import CsappCode.ProxyLab.Fields

/-!
# Connections served at the same time

`main` of `proxy.c` gives every connection a thread of its own, and each thread executes `doit`: it
parses the request, calls `reader`, and on a miss fetches the response and calls `writer`. Between
the two calls the thread holds nothing, so the others can do anything there. What a thread does by
itself before a call is taken together with the call.

* `doit_eq` puts the sequential `doit` together from the same parts.
* `Connection.Orderly` is a connection that keeps to the arrays of the proxy.
* `follows_of_steps` is the invariant: the calls a thread has made, by where it stands.
* `storable_iff` says which threads come to a call of `writer`.

## Threads that end the process

A thread whose next action is `exit`, or a store through a null pointer, does not take it here. The
process has reached nothing before that it does not also reach while that thread is slow.

## Threads that C says nothing about

A thread that overruns an array, or reads a variable without a value, may go on in any way; often it
goes on as if nothing had happened, and stores. Here it makes whatever calls of `reader` and
`writer` a parameter `stray` says, one after the other and without end if need be. All results are
for every `stray`. The condition that a connection stays clear of this is on its bytes: its fields
fit (`FieldsFit`), and if its request can be parsed, the request composed for the origin server and
the response fit their buffers. It is exact, for any other connection does go astray
(`astray_of_not_orderly`).
-/

namespace CsappCode.ProxyLab

open Interleaving (State Steps)
open ReadersWriters (Shared Call Event Client ClientThread callsBy writersOf returned finished)
open Csapp (lines maxline)

/-! ### A thread -/

/-- What `doit` does up to the call of `reader`: the request, and its name `uri`. -/
def lookupName (x : Connection) : Except Fault (ReqLine × List ReqHeader × List UInt8) := do
  match ← parseRequest x.client with
  | none => .error .uninitialised
  | some (line, headers) =>
    let uri ← copyInto .uri maxline line.cacheKey
    pure (line, headers, uri)

/-- What `doit` does after a miss: what the origin server receives, `object_buf` and
`total_size`. -/
def fetch (x : Connection) (line : ReqLine) (headers : List ReqHeader) :
    Except Fault (List UInt8 × List UInt8 × ℕ) := do
  openClientfd x line
  let sent ← sendToServer x.requestBuf line headers
  let (object, total) ← relay x.objectBuf 0 (lines x.origin)
  pure (sent, object, total)

/-- **`doit` in one piece** is made of these parts. -/
theorem doit_eq (c : Cache) (x : Connection) :
    doit c x = (do
      let (line, headers, uri) ← lookupName x
      match reader c uri with
      | some (slot, bytes) => pure ⟨line, .fromCache slot bytes, c⟩
      | none =>
        let (sent, object, total) ← fetch x line headers
        if total < maxObjectSize then
          let c' ← storeObject c uri object
          pure ⟨line, .fromOrigin x.origin sent (some c.usedCnt), c'⟩
        else pure ⟨line, .fromOrigin x.origin sent none, c⟩) := by
  rw [doit, lookupName, bind_assoc]
  refine congrArg (parseRequest x.client >>= ·) (funext fun parsed ↦ ?_)
  rcases parsed with - | ⟨line, headers⟩
  · rfl
  dsimp only
  rw [bind_assoc]
  refine congrArg (copyInto .uri maxline line.cacheKey >>= ·) (funext fun uri ↦ ?_)
  rw [pure_bind]
  dsimp only
  rcases reader c uri with - | ⟨slot, bytes⟩
  · dsimp only
    rw [fetch, bind_assoc]
    refine congrArg (openClientfd x line >>= ·) (funext fun _ ↦ ?_)
    rw [bind_assoc]
    refine congrArg (sendToServer x.requestBuf line headers >>= ·) (funext fun sent ↦ ?_)
    rw [bind_assoc]
    rfl
  · rfl

/-- Where a thread stands in `doit`. -/
inductive DoitAt where
  /-- before the call of `reader` -/
  | start
  /-- in the call of `reader` -/
  | looking (line : ReqLine) (headers : List ReqHeader) (uri : List UInt8)
  /-- before the call of `writer`, if it comes to that -/
  | missed (line : ReqLine) (headers : List ReqHeader) (uri : List UInt8)
  /-- in the call of `writer` -/
  | storing
  /-- at the end -/
  | done
  /-- in a part of the run that C leaves undefined, `n` calls behind its beginning -/
  | astray (n : ℕ)

/-- A thread that serves a connection. -/
structure Serving where
  connection : Connection
  at' : DoitAt

/-- The calls of threads that have gone astray. -/
abbrev Stray := Connection → ℕ → Option (Call Scan Store)

/-- The next call of such a thread. -/
def Stray.next (stray : Stray) (x : Connection) (n : ℕ) : Option (Call Scan Store × Serving) :=
  (stray x n).map fun call ↦ (call, ⟨x, .astray (n + 1)⟩)

/-- The next call of a thread. -/
def Serving.next (stray : Stray) : Serving → Option (Call Scan Store × Serving)
  | ⟨x, .start⟩ =>
    match lookupName x with
    | .ok (line, headers, uri) =>
      some ((CacheCall.reader uri).start, ⟨x, .looking line headers uri⟩)
    | .error fault => if fault.undefined then stray.next x 0 else none
  | ⟨x, .missed line headers uri⟩ =>
    match fetch x line headers with
    | .ok (_, object, total) =>
      if total < maxObjectSize then
        -- a string that does not end in `object_buf` overruns the slot
        if (cstr object).length < maxObjectSize then
          some ((CacheCall.writer uri object).start, ⟨x, .storing⟩)
        else stray.next x 0
      else none
    | .error fault => if fault.undefined then stray.next x 0 else none
  | ⟨x, .astray n⟩ => stray.next x n
  | _ => none

/-- What a thread makes of a step of its call. -/
def Serving.told : Serving → Event Scan Store ScanEvent → Serving
  | ⟨x, .looking line headers uri⟩, .readerReturned r =>
    ⟨x, if r.inCache then .done else .missed line headers uri⟩
  | ⟨x, .storing⟩, .writerReturned _ => ⟨x, .done⟩
  | q, _ => q

/-- The threads of the proxy. -/
def doitClient (stray : Stray) : Client Scan Store ScanEvent Serving :=
  ⟨Serving.next stray, Serving.told⟩

/-- A fresh cache, and a thread for each connection. -/
def serveInitial {ι : Type*} (malloced : ℕ → CacheLine) (x : ι → Connection) :
    State ι (Shared Cache) (ClientThread Scan Store Serving) :=
  Client.initial (initCache malloced) fun i ↦ ⟨x i, .start⟩

/-! ### Which connections come to a store -/

/-- **A connection whose response would be stored**, were its lookup to miss: it is well formed, the
origin server can be connected to, all fits the buffers, and the response is small. -/
structure Storable (x : Connection) (line : ReqLine) (headers : List ReqHeader) : Prop where
  parsable : Parsable x.client line headers
  opens : x.opens line.host line.port = true
  request : (requestPieces line headers).flatten.length < maxline
  response : RelayFits 0 (lines x.origin)
  small : x.origin.length < maxObjectSize
  empty : x.origin = [] → 0 ∈ x.objectBuf

theorem lookupName_eq_ok_iff {x : Connection} {line : ReqLine} {headers : List ReqHeader}
    {uri : List UInt8} : lookupName x = .ok (line, headers, uri) ↔
      Parsable x.client line headers ∧ uri = line.cacheKey := by
  rw [parsable_iff]
  constructor
  · intro h
    obtain ⟨parsed, hparse, h⟩ := bind_eq_ok_iff.1 h
    rcases parsed with - | ⟨line', headers'⟩
    · exact absurd h (by simp)
    obtain ⟨uri', huri, h⟩ := bind_eq_ok_iff.1 h
    obtain ⟨rfl, hlen⟩ := copyInto_eq_ok_iff.1 huri
    obtain ⟨rfl, rfl, rfl⟩ : line' = line ∧ headers' = headers ∧ line'.cacheKey = uri := by
      simpa [pure, Except.pure] using h
    exact ⟨⟨hparse, hlen⟩, rfl⟩
  · rintro ⟨⟨hparse, hlen⟩, rfl⟩
    exact bind_eq_ok_iff.2 ⟨_, hparse, bind_eq_ok_iff.2 ⟨_, copyInto_eq_ok_iff.2 ⟨rfl, hlen⟩, rfl⟩⟩

theorem fetch_eq_ok_iff {x : Connection} {line : ReqLine} {headers : List ReqHeader}
    {sent object : List UInt8} {total : ℕ} : fetch x line headers = .ok (sent, object, total) ↔
      x.opens line.host line.port = true ∧ sendToServer x.requestBuf line headers = .ok sent ∧
        relay x.objectBuf 0 (lines x.origin) = .ok (object, total) := by
  constructor
  · intro h
    obtain ⟨_, hopens, h⟩ := bind_eq_ok_iff.1 h
    obtain ⟨sent', hsent, h⟩ := bind_eq_ok_iff.1 h
    obtain ⟨⟨object', total'⟩, hrelay, h⟩ := bind_eq_ok_iff.1 h
    obtain ⟨rfl, rfl, rfl⟩ : sent' = sent ∧ object' = object ∧ total' = total := by
      simpa [pure, Except.pure] using h
    exact ⟨openClientfd_eq_ok_iff.1 hopens, hsent, hrelay⟩
  · rintro ⟨hopens, hsent, hrelay⟩
    exact bind_eq_ok_iff.2 ⟨(), openClientfd_eq_ok_iff.2 hopens,
      bind_eq_ok_iff.2 ⟨_, hsent, bind_eq_ok_iff.2 ⟨_, hrelay, rfl⟩⟩⟩

/-- **What is fetched**, of a request that fits. -/
theorem exists_fetch {x : Connection} {line : ReqLine} {headers : List ReqHeader}
    (hopens : x.opens line.host line.port = true)
    (hrequest : (requestPieces line headers).flatten.length < maxline)
    (hresponse : RelayFits 0 (lines x.origin)) (hempty : x.origin = [] → 0 ∈ x.objectBuf) :
    ∃ sent object, fetch x line headers = .ok (sent, object, x.origin.length) ∧
      (cstr object).length < maxObjectSize := by
  obtain ⟨object, hrelay⟩ := relayFits_iff.1 hresponse
  obtain ⟨sent, hsent⟩ : ∃ sent, sendToServer x.requestBuf line headers = .ok sent :=
    ⟨_, sendToServer_eq_ok_iff.2 ⟨hrequest, rfl⟩⟩
  exact ⟨sent, object, fetch_eq_ok_iff.2 ⟨hopens, hsent, hrelay⟩,
    length_cstr_object_lt hempty hrelay⟩

/-- **What comes to a store.** -/
theorem storable_iff (stray : Stray) {x : Connection} {line : ReqLine} {headers : List ReqHeader} :
    Storable x line headers ↔ Parsable x.client line headers ∧ ∃ object,
      Serving.next stray ⟨x, .missed line headers line.cacheKey⟩ =
        some (.writer ⟨line.cacheKey, object, .name⟩, ⟨x, .storing⟩) := by
  have hastray : ∀ call, stray.next x 0 ≠ some (call, ⟨x, .storing⟩) := by
    intro call hnext
    obtain ⟨_, -, heq⟩ := Option.map_eq_some_iff.1 hnext
    exact absurd (congrArg Serving.at' (Prod.mk.inj heq).2) (by simp)
  constructor
  · rintro ⟨hparsable, hopens, hrequest, hresponse, hsmall, hempty⟩
    obtain ⟨sent, object, hfetch, hobject⟩ := exists_fetch hopens hrequest hresponse hempty
    refine ⟨hparsable, object, ?_⟩
    simp only [Serving.next, hfetch]
    rw [if_pos hsmall, if_pos hobject]
    rfl
  · rintro ⟨hparsable, object, hnext⟩
    rcases hfetch : fetch x line headers with e | ⟨sent, object', total⟩
    · simp only [Serving.next, hfetch] at hnext
      split_ifs at hnext
      exact absurd hnext (hastray _)
    simp only [Serving.next, hfetch] at hnext
    split_ifs at hnext with hsize hobject
    swap
    · exact absurd hnext (hastray _)
    obtain ⟨hopens, hsent, hrelay⟩ := fetch_eq_ok_iff.1 hfetch
    obtain rfl := relay_total hrelay
    refine ⟨hparsable, hopens, (sendToServer_eq_ok_iff.1 hsent).1, relayFits_iff.2 ⟨_, hrelay⟩,
      hsize, fun horigin ↦ ?_⟩
    -- an empty response leaves `object_buf` as it was
    rw [horigin] at hrelay
    obtain ⟨rfl, -⟩ := Prod.mk.inj (Except.ok.inj hrelay)
    by_contra hmem
    rw [cstr_eq_self fun b hb h0 ↦ hmem (h0 ▸ hb), x.length_objectBuf] at hobject
    exact lt_irrefl _ hobject

/-- The connection's response would be stored under this name. -/
def StorableAs (x : Connection) (key : List UInt8) : Prop :=
  ∃ line headers, Storable x line headers ∧ line.cacheKey = key

/-! ### Connections that keep to the arrays -/

/-- **An orderly connection**: the client sends something, the fields of its request fit, and if it
can be parsed and the origin server connected to, the composed request fits its buffer, the lines of
the response find room in `object_buf`, and for an empty response `object_buf` happens to hold a
NUL. -/
structure Connection.Orderly (x : Connection) : Prop where
  client : x.client ≠ []
  fields : FieldsFit x.client
  request : ∀ line headers, Parsable x.client line headers → x.opens line.host line.port = true →
    (requestPieces line headers).flatten.length < maxline
  response : ∀ line headers, Parsable x.client line headers →
    x.opens line.host line.port = true → RelayFits 0 (lines x.origin)
  empty : ∀ line headers, Parsable x.client line headers → x.opens line.host line.port = true →
    x.origin = [] → 0 ∈ x.objectBuf

/-- A request whose fields fit is read without an overrun, and its second word is there. -/
theorem FieldsFit.defined {stream : List UInt8} (h : FieldsFit stream) {fault : Fault}
    (hparse : parseRequest stream = .error fault) : fault.undefined = false := by
  have hparses : Parses (parseRequest stream) := by
    rcases hlines : lines stream with - | ⟨first, rest⟩
    · rw [parseRequest, hlines]
      exact parses_ok none
    · obtain ⟨uri, hword, -⟩ := h first rest hlines
      exact parses_parseRequest hlines hword
  have hword : parseRequest stream ≠ .error .uninitialised := fun heq ↦
    absurd (hparses _ heq) (by decide)
  have hno := (no_overflow_iff stream).2 h [] (fun _ hb ↦ absurd hb List.not_mem_nil) (by decide)
  rw [parseRequestOn_eq [] hword, hparse] at hno
  cases fault with
  | overflow area => exact absurd rfl (hno area)
  | uninitialised => exact absurd hparse hword
  | _ => rfl

namespace Connection.Orderly

variable {x : Connection} {line : ReqLine} {headers : List ReqHeader}

/-- It comes to its lookup, or ends the process. -/
theorem lookup (h : x.Orderly) {fault : Fault} (hlookup : lookupName x = .error fault) :
    fault.undefined = false := by
  rcases hparse : parseRequest x.client with e | - | ⟨line, headers⟩
  · rw [lookupName, hparse] at hlookup
    obtain rfl := Except.error.inj hlookup
    exact h.fields.defined hparse
  · have hlines : lines x.client = [] := by
      rcases hlines : lines x.client with - | ⟨first, rest⟩
      · rfl
      · exact absurd hparse (by simp [parseRequest_ne_none hlines])
    exact absurd (by rw [← Csapp.flatten_lines x.client, hlines]; rfl) h.client
  · have hok := lookupName_eq_ok_iff.2 ⟨parsable_of_parseRequest hparse, rfl⟩
    exact absurd (hlookup.symm.trans hok) (by simp)

/-- Behind a miss it fetches the response, or ends the process. -/
theorem fetch (h : x.Orderly) (hparsable : Parsable x.client line headers) {fault : Fault}
    (hfetch : ProxyLab.fetch x line headers = .error fault) : fault.undefined = false := by
  rcases hopens : x.opens line.host line.port
  · rw [ProxyLab.fetch, openClientfd, hopens] at hfetch
    obtain rfl := Except.error.inj hfetch
    rfl
  · obtain ⟨sent, object, hok, -⟩ := exists_fetch hopens (h.request line headers hparsable hopens)
      (h.response line headers hparsable hopens) (h.empty line headers hparsable hopens)
    exact absurd (hfetch.symm.trans hok) (by simp)

/-- What it stores is a string that ends in `object_buf`. -/
theorem object (h : x.Orderly) (hparsable : Parsable x.client line headers)
    {sent object : List UInt8} {total : ℕ}
    (hfetch : ProxyLab.fetch x line headers = .ok (sent, object, total)) :
    (cstr object).length < maxObjectSize := by
  obtain ⟨hopens, -, hrelay⟩ := fetch_eq_ok_iff.1 hfetch
  exact length_cstr_object_lt (h.empty line headers hparsable hopens) hrelay

end Connection.Orderly

/-- What is composed for the origin server can only be too long. -/
theorem undefined_of_sendToServer {requestBuf : List UInt8} {line : ReqLine}
    {headers : List ReqHeader} {fault : Fault}
    (h : sendToServer requestBuf line headers = .error fault) : fault.undefined = true := by
  have hpieces : ∀ {pieces : List (List UInt8)} {text : List UInt8},
      sprintfAll text pieces = .error fault → fault.undefined = true := by
    intro pieces
    induction pieces with
    | nil => exact fun h ↦ absurd h (by simp [sprintfAll])
    | cons piece pieces ih =>
      intro text h
      rw [sprintfAll, copyInto] at h
      split_ifs at h
      · exact ih h
      · rw [← Except.error.inj h]
        rfl
  rw [sendToServer] at h
  rcases htext : sprintfAll [] (requestPieces line headers) with fault' | text
  · rw [htext] at h
    exact hpieces (htext.trans (congrArg _ (Except.error.inj h)))
  · rw [htext] at h
    exact absurd h (by simp [bind, Except.bind, pure, Except.pure])

/-- A response can only outgrow `object_buf`. -/
theorem undefined_of_relay {ls : List (List UInt8)} : ∀ {object : List UInt8} {total : ℕ}
    {fault : Fault}, relay object total ls = .error fault → fault.undefined = true := by
  induction ls with
  | nil => exact fun h ↦ absurd h (by simp [relay])
  | cons l ls ih =>
    intro object total fault h
    rw [relay] at h
    split_ifs at h
    · exact ih h
    · rw [← Except.error.inj h]
      rfl

/-- Before the lookup a connection that does not go astray keeps to the arrays. -/
theorem fieldsFit_of_lookup {x : Connection}
    (h : ∀ fault, lookupName x = .error fault → fault.undefined = false) :
    x.client ≠ [] ∧ FieldsFit x.client := by
  have hparse : ∀ fault, parseRequest x.client = .error fault → fault.undefined = false := by
    intro fault hparse
    refine h fault ?_
    rw [lookupName, hparse]
    rfl
  refine ⟨fun hnil ↦ ?_, (no_overflow_iff _).1 fun uri₀ _ _ area hover ↦ ?_⟩
  · have hlookup : lookupName x = .error .uninitialised := by rw [lookupName, hnil]; rfl
    exact absurd (h _ hlookup) (by decide)
  · rw [parseRequestOn_eq uri₀ fun hword ↦ absurd (hparse _ hword) (by decide)] at hover
    exact absurd (hparse _ hover) (by simp [Fault.undefined])

/-- Behind a miss it does so too. -/
theorem fits_of_fetch {x : Connection} {line : ReqLine} {headers : List ReqHeader}
    (h : ∀ fault, fetch x line headers = .error fault → fault.undefined = false)
    (hopens : x.opens line.host line.port = true) :
    (requestPieces line headers).flatten.length < maxline ∧ RelayFits 0 (lines x.origin) := by
  have hopen : openClientfd x line = .ok () := openClientfd_eq_ok_iff.2 hopens
  rcases hsent : sendToServer x.requestBuf line headers with fault | sent
  · have hfetch : fetch x line headers = .error fault := by rw [fetch, hopen, hsent]; rfl
    exact absurd ((undefined_of_sendToServer hsent).symm.trans (h fault hfetch)) (by decide)
  rcases hrelay : relay x.objectBuf 0 (lines x.origin) with fault | ⟨object, total⟩
  · have hfetch : fetch x line headers = .error fault := by rw [fetch, hopen, hsent, hrelay]; rfl
    exact absurd ((undefined_of_relay hrelay).symm.trans (h fault hfetch)) (by decide)
  · obtain rfl := relay_total hrelay
    exact ⟨(sendToServer_eq_ok_iff.1 hsent).1, relayFits_iff.2 ⟨object, hrelay⟩⟩

/-- An `object_buf` without a NUL is no string. -/
theorem next_missed_of_empty {x : Connection} {line : ReqLine} {headers : List ReqHeader}
    (hopens : x.opens line.host line.port = true)
    (hrequest : (requestPieces line headers).flatten.length < maxline) (horigin : x.origin = [])
    (hobject : 0 ∉ x.objectBuf) (stray : Stray) :
    Serving.next stray ⟨x, .missed line headers line.cacheKey⟩ = stray.next x 0 := by
  have hfetch := fetch_eq_ok_iff.2 ⟨hopens, sendToServer_eq_ok_iff.2 ⟨hrequest, rfl⟩,
    show relay x.objectBuf 0 (lines x.origin) = .ok (x.objectBuf, 0) by rw [horigin]; rfl⟩
  have hlength : ¬ (cstr x.objectBuf).length < maxObjectSize := by
    rw [cstr_eq_self fun b hb h0 ↦ hobject (h0 ▸ hb), x.length_objectBuf]
    exact lt_irrefl _
  simp only [Serving.next, hfetch]
  rw [if_pos (by decide), if_neg hlength]

/-- **A connection that is not orderly goes astray**, at once or behind a miss. -/
theorem astray_of_not_orderly {x : Connection} (h : ¬ x.Orderly) :
    (∀ stray, Serving.next stray ⟨x, .start⟩ = stray.next x 0) ∨
      ∃ line headers, Parsable x.client line headers ∧
        ∀ stray, Serving.next stray ⟨x, .missed line headers line.cacheKey⟩ = stray.next x 0 := by
  by_contra hnot
  obtain ⟨hstart, hmissed⟩ := not_or.1 hnot
  have hlookup : ∀ fault, lookupName x = .error fault → fault.undefined = false := by
    intro fault hlookup
    by_contra hundefined
    refine hstart fun stray ↦ ?_
    simp only [Serving.next, hlookup]
    rw [if_pos (by simpa using hundefined)]
  have hfetch : ∀ {line headers}, Parsable x.client line headers →
      ∀ fault, fetch x line headers = .error fault → fault.undefined = false := by
    intro line headers hparsable fault hfetch
    by_contra hundefined
    refine hmissed ⟨line, headers, hparsable, fun stray ↦ ?_⟩
    simp only [Serving.next, hfetch]
    rw [if_pos (by simpa using hundefined)]
  obtain ⟨hclient, hfields⟩ := fieldsFit_of_lookup hlookup
  refine h ⟨hclient, hfields, fun line headers hparsable hopens ↦ ?_,
    fun line headers hparsable hopens ↦ ?_, fun line headers hparsable hopens horigin ↦ ?_⟩
  · exact (fits_of_fetch (hfetch hparsable) hopens).1
  · exact (fits_of_fetch (hfetch hparsable) hopens).2
  · by_contra hobject
    have hrequest := (fits_of_fetch (hfetch hparsable) hopens).1
    exact hmissed ⟨line, headers, hparsable, next_missed_of_empty hopens hrequest horigin hobject⟩

/-! ### The calls of a thread -/

/-- **The calls a thread has made**, by where it stands. -/
inductive Follows (x : Connection) : DoitAt → List (Call Scan Store) → Prop
  | start : Follows x .start []
  | looking {line headers} : Parsable x.client line headers →
    Follows x (.looking line headers line.cacheKey) [.reader ⟨line.cacheKey, 0, false⟩]
  | missed {line headers} : Parsable x.client line headers →
    Follows x (.missed line headers line.cacheKey) [.reader ⟨line.cacheKey, 0, false⟩]
  | hit {line headers} : Parsable x.client line headers →
    Follows x .done [.reader ⟨line.cacheKey, 0, false⟩]
  | storing {line headers object} : Storable x line headers → Follows x .storing
    [.reader ⟨line.cacheKey, 0, false⟩, .writer ⟨line.cacheKey, object, .name⟩]
  | stored {line headers object} : Storable x line headers → Follows x .done
    [.reader ⟨line.cacheKey, 0, false⟩, .writer ⟨line.cacheKey, object, .name⟩]

theorem Follows.next {stray : Stray} {x : Connection} {at' : DoitAt} {cs : List (Call Scan Store)}
    {c : Call Scan Store} {q : Serving} (horderly : x.Orderly) (h : Follows x at' cs)
    (hnext : Serving.next stray ⟨x, at'⟩ = some (c, q)) :
    q.connection = x ∧ Follows x q.at' (cs ++ [c]) := by
  cases h with
  | start =>
    rcases hlookup : lookupName x with e | ⟨line, headers, uri⟩
    · simp [Serving.next, hlookup, horderly.lookup hlookup] at hnext
    · simp only [Serving.next, hlookup, Option.some.injEq, Prod.mk.injEq] at hnext
      obtain ⟨rfl, rfl⟩ := hnext
      obtain ⟨hparsable, rfl⟩ := lookupName_eq_ok_iff.1 hlookup
      exact ⟨rfl, .looking hparsable⟩
  | @missed line headers hparsable =>
    rcases hfetch : fetch x line headers with e | ⟨sent, object, total⟩
    · simp [Serving.next, hfetch, horderly.fetch hparsable hfetch] at hnext
    · have hnext' := hnext
      simp only [Serving.next, hfetch] at hnext
      rw [if_pos (horderly.object hparsable hfetch)] at hnext
      split_ifs at hnext
      obtain ⟨rfl, rfl⟩ := Prod.mk.inj (Option.some.inj hnext)
      exact ⟨rfl, .storing ((storable_iff stray).2 ⟨hparsable, object, hnext'⟩)⟩
  | _ => exact absurd hnext (by simp [Serving.next])

theorem Follows.told {x : Connection} {at' : DoitAt} {cs : List (Call Scan Store)}
    (h : Follows x at' cs) (e : Event Scan Store ScanEvent) :
    (Serving.told ⟨x, at'⟩ e).connection = x ∧ Follows x (Serving.told ⟨x, at'⟩ e).at' cs := by
  cases h with
  | looking hparsable =>
    cases e with
    | readerReturned r =>
      refine ⟨rfl, ?_⟩
      rcases hhit : r.inCache
      · simpa [Serving.told, hhit] using .missed hparsable
      · simpa [Serving.told, hhit] using .hit hparsable
    | _ => exact ⟨rfl, .looking hparsable⟩
  | storing hstorable =>
    cases e with
    | writerReturned y => exact ⟨rfl, .stored hstorable⟩
    | _ => exact ⟨rfl, .storing hstorable⟩
  | start => exact ⟨rfl, .start⟩
  | missed hparsable => exact ⟨rfl, .missed hparsable⟩
  | hit hparsable => exact ⟨rfl, .hit hparsable⟩
  | stored hstorable => exact ⟨rfl, .stored hstorable⟩

/-- A thread calls `writer` at most once, and only to store what is storable. -/
theorem Follows.writersOf {x : Connection} {at' : DoitAt} {cs : List (Call Scan Store)}
    (h : Follows x at' cs) : (writersOf cs).length ≤ 1 ∧
      ∀ y ∈ ReadersWriters.writersOf cs, y.at' = .name ∧ StorableAs x y.uri := by
  cases h with
  | storing hstorable | stored hstorable =>
    refine ⟨le_rfl, fun y hy ↦ ?_⟩
    obtain rfl := List.mem_singleton.1 hy
    exact ⟨rfl, _, _, hstorable, rfl⟩
  | _ => exact ⟨Nat.zero_le _, fun y hy ↦ absurd hy (by simp [ReadersWriters.writersOf])⟩

section Runs

variable {ι : Type*} [DecidableEq ι] {stray : Stray} {malloced : ℕ → CacheLine}
  {x : ι → Connection} {h : List (ι × Event Scan Store ScanEvent)}
  {s : State ι (Shared Cache) (ClientThread Scan Store Serving)}

/-- **Every thread of an orderly connection follows `doit`**, whatever the others do. -/
theorem follows_of_steps (horderly : ∀ i, (x i).Orderly)
    (hs : Steps ((doitClient stray).program cacheSections) (serveInitial malloced x) h s) (i : ι) :
    (s.thread i).client.connection = x i ∧ Follows (x i) (s.thread i).client.at' (callsBy i h) := by
  revert i
  refine hs.invariant (I := fun h s ↦ ∀ i, (s.thread i).client.connection = x i ∧
    Follows (x i) (s.thread i).client.at' (callsBy i h)) (fun _ ↦ ⟨rfl, .start⟩) ?_
  intro h s i e sh th ih hP j
  rcases eq_or_ne j i with rfl | hne
  · obtain ⟨hconn, hfollows⟩ := ih j
    have hclient : (s.thread j).client = ⟨x j, (s.thread j).client.at'⟩ := by rw [← hconn]
    rw [State.advance_thread_self, ReadersWriters.callsBy_append_self]
    rcases Client.program_cases hP with ⟨c, -, hnext, rfl, -, -⟩ | ⟨-, hcall, htold, -⟩
    · rw [hclient] at hnext
      exact hfollows.next (horderly j) hnext
    · rw [htold, hclient, hcall, Option.toList_none, List.append_nil]
      exact hfollows.told e
  · rw [s.advance_thread_of_ne sh th hne, ReadersWriters.callsBy_append_of_ne hne]
    exact ih j

end Runs

end CsappCode.ProxyLab
