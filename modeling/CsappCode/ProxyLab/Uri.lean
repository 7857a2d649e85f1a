import CsappCode.ProxyLab.Request

/-!
# `parse_uri` in place

`parse_uri` searches the area of the URI from moving positions and writes terminators into it: the
one for the host stays, the one for the port is overwritten again before the path is copied.
`parseUriInPlace` runs on the area; positions are counted from its beginning.

* `portAndPath_eq` is the part behind the host.
* `parseUriInPlace_eq` says that the fields come out as `parseUri` has them, and what is left in the
  area.
* `uri_round_trip` goes from the fields to the URI and back.

## What the results rest on

**Two models of one function.** `parseUri` works on the string and never writes to it; it is what
the other modules use. `parseUriInPlace` follows the source, with the pointers as positions and the
stores of the terminators. The theorem between the two says that the terminators do not disturb the
parse, and that the only change left in the area is the colon.

**The round trip.** In one direction three fields that fit are put together to a URI and parsed. The
host has no colon and the port no slash, for the searches would stop there. In the other direction
the fields of any URI that is accepted make up the URI again, behind the scheme.

**Assumed** is a URI without a NUL, behind which the area may hold anything. The sizes of the fields
are those of `ReqLine`; strings that do not fit are overruns and not parsed.
-/

namespace CsappCode.ProxyLab

open Csapp (maxline)

/-! ### Strings behind a position -/

/-- `strstr(m + p, pat)`, as a position. -/
def strstrAt (m : List UInt8) (p : ℕ) (pat : List UInt8) : Option ℕ :=
  (strstr pat (cstr (m.drop p))).map fun cut ↦ p + cut.1.length

theorem cstr_drop {s : List UInt8} (hs : NulFree s) (pre rest : List UInt8) :
    cstr ((pre ++ (s ++ 0 :: rest)).drop pre.length) = s := by
  rw [List.drop_left, cstr_append_nul hs]

theorem strstrAt_eq {s : List UInt8} (hs : NulFree s) (pre rest pat : List UInt8) :
    strstrAt (pre ++ (s ++ 0 :: rest)) pre.length pat =
      (strstr pat s).map fun cut ↦ pre.length + cut.1.length := by
  rw [strstrAt, cstr_drop hs]

/-- `strstr` returns its argument when the pattern stands there. -/
theorem strstrAt_zero_iff {s : List UInt8} (hs : NulFree s) (rest pat : List UInt8) :
    strstrAt (s ++ 0 :: rest) 0 pat = some 0 ↔ pat <+: s := by
  rw [show strstrAt (s ++ 0 :: rest) 0 pat = _ from strstrAt_eq hs [] rest pat,
    Option.map_eq_some_iff]
  constructor
  · rintro ⟨⟨pre, suf⟩, hstr, hlen⟩
    obtain rfl : pre = [] := List.length_eq_zero_iff.1 (by simpa using hlen)
    obtain ⟨post, -, hcut⟩ := strstr_eq_some_iff.1 hstr
    exact ⟨post, hcut.eq_append.symm⟩
  · rintro ⟨post, rfl⟩
    exact ⟨([], pat ++ post), strstr_eq_some_iff.2 ⟨post, rfl, rfl, by simp⟩, rfl⟩

/-- A store at the byte behind a field. -/
theorem set_field (pre field : List UInt8) (b c : UInt8) (rest : List UInt8) :
    (pre ++ (field ++ b :: rest)).set (pre.length + field.length) c =
      pre ++ (field ++ c :: rest) := by
  rw [List.set_append_right _ _ (Nat.le_add_right _ _), Nat.add_sub_cancel_left,
    List.set_append_right _ _ le_rfl, Nat.sub_self, List.set_cons_zero]

/-! ### The function -/

/-- `parse_uri(uri, linep)` on the area of `uri`: the fields, and the area afterwards. -/
def parseUriInPlace (m : List UInt8) : Except Fault (ReqLine × List UInt8) :=
  if strstrAt m 0 httpPrefix = some 0 then
    let uri := httpPrefix.length
    match strstrAt m uri [colon] with
    | none => .error .nullPointer
    | some c => do
      let m := m.set c 0
      let host ← copyInto .host hostnameMaxLen (cstr (m.drop uri))
      let uri := c + 1
      match strstrAt m uri [slash] with
      | none => .error .nullPointer
      | some c => do
        let m := m.set c 0
        let port ← copyInto .port portMaxLen (cstr (m.drop uri))
        let m := m.set c slash
        let path ← copyInto .path maxline (cstr (m.drop c))
        pure (⟨host, port, path⟩, m)
  else .error .invalidUri

/-- What `parse_uri` leaves of the URI: the colon behind the host is gone. -/
def ReqLine.leftover (r : ReqLine) : List UInt8 :=
  httpPrefix ++ (r.host ++ 0 :: (r.port ++ r.path))

theorem ok_bind {ε α β : Type} (a : α) (f : α → Except ε β) : (.ok a >>= f) = f a := rfl

/-- **Behind the host**: the terminator of the port is gone again when the path is copied. -/
theorem portAndPath_eq {post : List UInt8} (hpost : NulFree post) {host pre : List UInt8}
    (hpre : pre = httpPrefix ++ (host ++ [0])) (rest : List UInt8) :
    (match strstrAt (pre ++ (post ++ 0 :: rest)) pre.length [slash] with
      | none => .error .nullPointer
      | some c => do
        let m := (pre ++ (post ++ 0 :: rest)).set c 0
        let port ← copyInto .port portMaxLen (cstr (m.drop pre.length))
        let m := m.set c slash
        let path ← copyInto .path maxline (cstr (m.drop c))
        pure ((⟨host, port, path⟩ : ReqLine), m)) =
      Except.map (fun r ↦ (r, r.leftover ++ 0 :: rest)) (match strstr [slash] post with
        | none => .error .nullPointer
        | some (port, c) => do
          let port ← copyInto .port portMaxLen port
          let path ← copyInto .path maxline c
          pure (⟨host, port, path⟩ : ReqLine)) := by
  rw [strstrAt_eq hpost]
  obtain ⟨hnone, -⟩ | ⟨port, path, rfl, -, hsome⟩ := strstr_byte slash post
  · rw [hnone]
    rfl
  rw [hsome]
  obtain ⟨hportFree, hpath⟩ := nulFree_append_iff.1 hpost
  have hdrop : (pre ++ (port ++ slash :: (path ++ 0 :: rest))).drop (pre.length + port.length) =
      slash :: path ++ 0 :: rest := by
    rw [← List.length_append, ← List.append_assoc, List.drop_left]
    rfl
  have hcstr : cstr (slash :: path ++ 0 :: rest) = slash :: path := cstr_append_nul hpath rest
  simp only [Option.map_some, List.append_assoc, List.cons_append, set_field, cstr_drop hportFree,
    hdrop] at hcstr ⊢
  rw [hcstr]
  rcases hportCopy : copyInto .port portMaxLen port with fault | port'
  · rfl
  obtain ⟨rfl, -⟩ := copyInto_eq_ok_iff.1 hportCopy
  rw [ok_bind, ok_bind]
  rcases hpathCopy : copyInto .path maxline (slash :: path) with fault | path'
  · rfl
  obtain ⟨rfl, -⟩ := copyInto_eq_ok_iff.1 hpathCopy
  show Except.ok _ = Except.ok (_, _)
  rw [ReqLine.leftover, hpre]
  simp only [List.append_assoc, List.cons_append, List.nil_append]

/-- **The terminators do not disturb the parse**: the fields are those of the string, and all that
changes in the area is the colon. -/
theorem parseUriInPlace_eq {uri : List UInt8} (huri : NulFree uri) (rest : List UInt8) :
    parseUriInPlace (uri ++ 0 :: rest) =
      (parseUri uri).map fun r ↦ (r, r.leftover ++ 0 :: rest) := by
  rw [parseUriInPlace, parseUri]
  by_cases hscheme : httpPrefix <+: uri
  swap
  · rw [if_neg hscheme, if_neg (mt (strstrAt_zero_iff huri rest _).1 hscheme)]
    rfl
  rw [if_pos hscheme, if_pos ((strstrAt_zero_iff huri rest _).2 hscheme)]
  obtain ⟨t, rfl⟩ := hscheme
  obtain ⟨-, ht⟩ := nulFree_append_iff.1 huri
  rw [List.append_assoc, List.drop_left]
  dsimp only
  rw [strstrAt_eq ht]
  obtain ⟨hnone, -⟩ | ⟨host, post, rfl, -, hsome⟩ := strstr_byte colon t
  · rw [hnone]
    rfl
  rw [hsome]
  obtain ⟨hhostFree, hpost⟩ := nulFree_append_iff.1 ht
  have hpost : NulFree post := fun b hb ↦ hpost b (List.mem_cons_of_mem _ hb)
  simp only [Option.map_some, List.drop_succ_cons, List.drop_zero, List.append_assoc,
    List.cons_append, set_field, cstr_drop hhostFree]
  rcases hcopy : copyInto .host hostnameMaxLen host with fault | host'
  · rfl
  obtain ⟨rfl, -⟩ := copyInto_eq_ok_iff.1 hcopy
  -- the host and its terminator are now the part in front
  have hlen : httpPrefix.length + host'.length + 1 = (httpPrefix ++ (host' ++ [0])).length := by
    simp only [List.length_append, List.length_singleton, Nat.add_assoc]
  have hsplit : httpPrefix ++ (host' ++ 0 :: (post ++ 0 :: rest)) =
      (httpPrefix ++ (host' ++ [0])) ++ (post ++ 0 :: rest) := by
    simp only [List.append_assoc, List.singleton_append]
  rw [ok_bind, hlen, hsplit]
  exact portAndPath_eq hpost rfl rest

/-! ### There and back -/

/-- **The URI round trip.** Three fields that fit, put together to a URI, come out of `parse_uri` as
they were; and whenever it fills the fields, they make up the URI. -/
theorem uri_round_trip :
    (∀ host port path : List UInt8, NulFree host → NulFree port → NulFree path → colon ∉ host →
      slash ∉ port → (∃ rest, path = slash :: rest) → host.length < hostnameMaxLen →
      port.length < portMaxLen →
      (httpPrefix ++ host ++ [colon] ++ port ++ path).length < maxline → ∀ rest, ∃ m,
        parseUriInPlace (httpPrefix ++ host ++ [colon] ++ port ++ path ++ 0 :: rest) =
          .ok (⟨host, port, path⟩, m)) ∧
    ∀ uri rest r m, NulFree uri → parseUriInPlace (uri ++ 0 :: rest) = .ok (r, m) →
      httpPrefix ++ r.host ++ [colon] ++ r.port ++ r.path = uri := by
  constructor
  · intro host port path hhost hport hpath hcolon hslash hstart hhostLen hportLen hlen rest
    have huri : NulFree (httpPrefix ++ host ++ [colon] ++ port ++ path) := by
      have hscheme : NulFree httpPrefix := by decide
      have hcolonFree : NulFree [colon] := by decide
      exact (((hscheme.append hhost).append hcolonFree).append hport).append hpath
    have hparse : parseUri (httpPrefix ++ host ++ [colon] ++ port ++ path) =
        .ok ⟨host, port, path⟩ := by
      refine parseUri_eq_ok_iff.2 ⟨⟨by simp, hcolon, hslash, hstart⟩, hhostLen, hportLen, ?_⟩
      simp only [List.length_append] at hlen
      exact lt_of_le_of_lt (Nat.le_add_left _ _) hlen
    rw [parseUriInPlace_eq huri, hparse]
    exact ⟨_, rfl⟩
  · intro uri rest r m huri h
    rw [parseUriInPlace_eq huri] at h
    rcases hparse : parseUri uri with fault | r'
    · rw [hparse] at h
      exact absurd h (by simp [Except.map])
    · rw [hparse] at h
      obtain ⟨rfl, -⟩ := Prod.mk.inj (Except.ok.inj h)
      rw [(parseUri_eq_ok_iff.1 hparse).1.eq_append]
      simp only [List.append_assoc, List.cons_append, List.nil_append]

/-- `"http://localhost:7778/home.html"`. -/
def homeUri : List UInt8 :=
  [104, 116, 116, 112, 58, 47, 47, 108, 111, 99, 97, 108, 104, 111, 115, 116, 58, 55, 55, 55, 56,
    47, 104, 111, 109, 101, 46, 104, 116, 109, 108]

theorem uri_round_trip_homeUri :
    ∃ m, parseUriInPlace (homeUri ++ [0]) = .ok (⟨[108, 111, 99, 97, 108, 104, 111, 115, 116],
        [55, 55, 55, 56], [47, 104, 111, 109, 101, 46, 104, 116, 109, 108]⟩, m) ∧
      httpPrefix ++ [108, 111, 99, 97, 108, 104, 111, 115, 116] ++ [colon] ++ [55, 55, 55, 56] ++
        [47, 104, 111, 109, 101, 46, 104, 116, 109, 108] = homeUri := by
  obtain ⟨m, hm⟩ := uri_round_trip.1 [108, 111, 99, 97, 108, 104, 111, 115, 116] [55, 55, 55, 56]
    [47, 104, 111, 109, 101, 46, 104, 116, 109, 108] (by decide) (by decide) (by decide)
    (by decide) (by decide) ⟨_, rfl⟩ (by decide) (by decide) (by decide) []
  exact ⟨m, hm, uri_round_trip.2 homeUri [] _ m (by decide) hm⟩

end CsappCode.ProxyLab
