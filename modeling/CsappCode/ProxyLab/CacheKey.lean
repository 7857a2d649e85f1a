import CsappCode.ProxyLab.Replay

/-!
# The key of a cached object

`doit` caches an object under the host of its request followed by the path. The port is not part of
the key, and where the host ends and the path begins cannot be told from it, so requests for
different resources can share a key.

* `cacheKey_eq_iff` says which requests do, and `Confusable` are those that differ all the same.
* `Recorded` is the invariant of a run: every slot filled has been filled by one earlier request,
  under the key of that request.
* `cache_sound_iff` says in which runs every answer from the cache is the object of an earlier
  request for the same host, port and path.
* `otherPort_answered` is a run of two requests in which the second is answered with what another
  port has sent.

## What the results rest on

**The run** is one connection after the other, each served to its end, from a cache fresh from
`init_cache`. `Recorded` is kept by one connection and says where the content of each slot comes
from; whether an answer is sound is then a question about two requests, the one that asks and the
one that filled the slot.

**The memory of `Malloc`** may hold anything. A slot that is yet to be filled can have a name by
chance, and a request for that name is answered with what stands there. The condition excludes just
this.

**Faults.** A run is one in which no connection ends the process; the module on survival says when
that is so.
-/

namespace CsappCode.ProxyLab

open Csapp (lines)

/-! ### Keys -/

/-- **Requests that `doit` cannot tell apart**: different ones, where the host and the path of both
put together are the same bytes, cut at different places or at the same. -/
def Confusable (l l' : ReqLine) : Prop :=
  l ≠ l' ∧ ∃ between, (l'.host = l.host ++ between ∧ l.path = between ++ l'.path) ∨
    (l.host = l'.host ++ between ∧ l'.path = between ++ l.path)

/-- **When two requests have the same key.** -/
theorem cacheKey_eq_iff {l l' : ReqLine} : l.cacheKey = l'.cacheKey ↔ l = l' ∨ Confusable l l' := by
  refine ⟨fun h ↦ ?_, ?_⟩
  · rcases eq_or_ne l l' with heq | hne
    · exact .inl heq
    · obtain ⟨between, hhost, hpath⟩ | ⟨between, hhost, hpath⟩ := List.append_eq_append_iff.1 h
      · exact .inr ⟨hne, between, .inl ⟨hhost, hpath⟩⟩
      · exact .inr ⟨hne, between, .inr ⟨hhost, hpath⟩⟩
  · rintro (rfl | ⟨-, between, ⟨hhost, hpath⟩ | ⟨hhost, hpath⟩⟩)
    · rfl
    · rw [ReqLine.cacheKey, ReqLine.cacheKey, hhost, hpath, List.append_assoc]
    · rw [ReqLine.cacheKey, ReqLine.cacheKey, hhost, hpath, List.append_assoc]

/-- The connection asks for this. -/
def Requests (x : Connection) (line : ReqLine) : Prop :=
  ∃ headers, parseRequest x.client = .ok (some (line, headers))

theorem Requests.unique {x : Connection} {l l' : ReqLine} (h : Requests x l) (h' : Requests x l') :
    l = l' := by
  obtain ⟨_, h⟩ := h
  obtain ⟨_, h'⟩ := h'
  exact (Prod.mk.inj (Option.some.inj (Except.ok.inj (h.symm.trans h')))).1

theorem requests_of_doit {c : Cache} {x : Connection} {out : Outcome} (h : doit c x = .ok out) :
    Requests x out.line := by
  obtain ⟨line, headers, hparse, -, hanswer⟩ := doit_eq_ok_iff.1 h
  rw [hanswer.line_eq]
  exact ⟨headers, hparse⟩

/-- A key is a string, so `strcmp` compares all of it. -/
theorem Requests.cstr_cacheKey {x : Connection} {line : ReqLine} (h : Requests x line) :
    cstr line.cacheKey = line.cacheKey := by
  obtain ⟨headers, hparse⟩ := h
  obtain ⟨first, rest, uri, -, hword, huri, -, -⟩ := parseRequest_eq_ok_iff.1 hparse
  have hcut := (parseUri_eq_ok_iff.1 huri).1.eq_append
  have hnul : NulFree uri := nulFree_secondWord hword
  refine cstr_eq_self fun b hb ↦ hnul b ?_
  rw [hcut]
  rcases List.mem_append.1 hb with hhost | hpath
  · simp [hhost]
  · simp [hpath]

theorem eq_of_between {l l' : ReqLine} {rest between : List UInt8} (hpath : l.path = slash :: rest)
    (hslash : slash ∉ l'.host) (hhost : l'.host = l.host ++ between)
    (hcut : l.path = between ++ l'.path) : l.host = l'.host ∧ l.path = l'.path := by
  rcases between with - | ⟨b, between⟩
  · exact ⟨by rw [hhost, List.append_nil], hcut⟩
  · obtain ⟨rfl, -⟩ := List.cons.inj (hpath.symm.trans hcut)
    exact absurd (hhost ▸ List.mem_append_right _ List.mem_cons_self) hslash

/-- **Where hosts have no slash, only the port is lost.** -/
theorem confusable_iff_of_host {uri uri' : List UInt8} {l l' : ReqLine} (h : UriCut uri l)
    (h' : UriCut uri' l') (hl : slash ∉ l.host) (hl' : slash ∉ l'.host) :
    Confusable l l' ↔ l.host = l'.host ∧ l.path = l'.path ∧ l.port ≠ l'.port := by
  obtain ⟨rest, hpath⟩ := h.path
  obtain ⟨rest', hpath'⟩ := h'.path
  constructor
  · rintro ⟨hne, between, hcut⟩
    have hsame : l.host = l'.host ∧ l.path = l'.path := by
      rcases hcut with ⟨hhost, hcut⟩ | ⟨hhost, hcut⟩
      · exact eq_of_between hpath hl' hhost hcut
      · exact (eq_of_between hpath' hl hhost hcut).imp Eq.symm Eq.symm
    obtain ⟨hhost, hpath⟩ := hsame
    refine ⟨hhost, hpath, fun hport ↦ hne ?_⟩
    cases l
    cases l'
    simp_all only
  · rintro ⟨hhost, hpath, hport⟩
    exact ⟨fun heq ↦ hport (by rw [heq]), [], .inl ⟨by rw [hhost, List.append_nil], hpath⟩⟩

/-! ### What a run records -/

/-- **The slots filled and the requests that filled them.** -/
structure Recorded (xs : List Connection) (outs : List Outcome) (c : Cache) : Prop where
  usedCnt_le : c.usedCnt ≤ slots
  filled : ∀ k < c.usedCnt, ∃ o ∈ outs, o.Fills k
  fills : ∀ o ∈ outs, ∀ k, o.Fills k → k < c.usedCnt ∧
    cstr (c.objects k).name = o.line.cacheKey ∧
    ∃ y ∈ xs, y.origin.length < maxObjectSize ∧ Requests y o.line
  injective : ∀ j < c.usedCnt, ∀ k < c.usedCnt,
    cstr (c.objects j).name = cstr (c.objects k).name → j = k

theorem recorded_initCache (malloced : ℕ → CacheLine) : Recorded [] [] (initCache malloced) where
  usedCnt_le := Nat.zero_le _
  filled _ hk := absurd hk (Nat.not_lt_zero _)
  fills _ ho := absurd ho List.not_mem_nil
  injective _ hj := absurd hj (Nat.not_lt_zero _)

/-- A request that stores nothing. -/
theorem Recorded.keep {xs : List Connection} {outs : List Outcome} {c : Cache}
    (h : Recorded xs outs c) (x : Connection) {out : Outcome} (hnot : ∀ k, ¬ out.Fills k) :
    Recorded (xs ++ [x]) (outs ++ [out]) c where
  usedCnt_le := h.usedCnt_le
  filled k hk := by
    obtain ⟨o, ho, hfills⟩ := h.filled k hk
    exact ⟨o, List.mem_append_left _ ho, hfills⟩
  fills o ho k hfills := by
    rcases List.mem_append.1 ho with ho | ho
    · obtain ⟨hk, hname, y, hy, hsize, hline⟩ := h.fills o ho k hfills
      exact ⟨hk, hname, y, List.mem_append_left _ hy, hsize, hline⟩
    · obtain rfl := List.mem_singleton.1 ho
      exact absurd hfills (hnot k)
  injective := h.injective

/-- A request that stores its response. -/
theorem Recorded.store {xs : List Connection} {outs : List Outcome} {c : Cache}
    (h : Recorded xs outs c) {x : Connection} {out : Outcome} (hstores : Stores c x out)
    (hline : Requests x out.line) : Recorded (xs ++ [x]) (outs ++ [out]) out.cache := by
  obtain ⟨object, -, hcache⟩ := hstores.cache
  have hext : c.Extends out.cache := hcache ▸ extends_writer c _ _
  have hcnt : out.cache.usedCnt = c.usedCnt + 1 := by rw [hcache, writer_usedCnt]
  have hname : cstr (out.cache.objects c.usedCnt).name = out.line.cacheKey := by
    rw [hcache, writer_objects_usedCnt, CacheLine.fill, cstr_strcpy, hline.cstr_cacheKey]
  -- the name is new: `reader` has just failed to find it
  have hmiss : ∀ k < c.usedCnt, cstr (out.cache.objects k).name ≠ out.line.cacheKey := by
    intro k hk
    rw [hext.objects_eq k hk, ← hline.cstr_cacheKey]
    exact reader_eq_none_iff.1 hstores.miss k (hk.trans hstores.slot)
  refine ⟨hcnt ▸ hstores.slot, fun k hk ↦ ?_, fun o ho k hfills ↦ ?_, fun j hj k hk heq ↦ ?_⟩
  · rcases Nat.lt_succ_iff_lt_or_eq.1 (hcnt ▸ hk) with hlt | rfl
    · obtain ⟨o, ho, hfills⟩ := h.filled k hlt
      exact ⟨o, List.mem_append_left _ ho, hfills⟩
    · exact ⟨out, List.mem_append_right _ List.mem_cons_self, hstores.fills⟩
  · rcases List.mem_append.1 ho with ho | ho
    · obtain ⟨hk, hkey, y, hy, hsize, hyline⟩ := h.fills o ho k hfills
      exact ⟨hk.trans_le hext.usedCnt_le, by rw [hext.objects_eq k hk, hkey], y,
        List.mem_append_left _ hy, hsize, hyline⟩
    · obtain rfl := List.mem_singleton.1 ho
      obtain rfl := hfills.unique hstores.fills
      exact ⟨by omega, hname, x, List.mem_append_right _ List.mem_cons_self, hstores.size, hline⟩
  · rcases Nat.lt_succ_iff_lt_or_eq.1 (hcnt ▸ hj) with hj | rfl <;>
      rcases Nat.lt_succ_iff_lt_or_eq.1 (hcnt ▸ hk) with hk | rfl
    · rw [hext.objects_eq j hj, hext.objects_eq k hk] at heq
      exact h.injective j hj k hk heq
    · exact absurd (heq.trans hname) (hmiss j hj)
    · exact absurd (heq.symm.trans hname) (hmiss k hk)
    · rfl

theorem Recorded.serve {xs : List Connection} {outs : List Outcome} {c : Cache}
    (h : Recorded xs outs c) {x : Connection} {out : Outcome} (hdoit : doit c x = .ok out) :
    Recorded (xs ++ [x]) (outs ++ [out]) out.cache := by
  obtain ⟨_, _, -, hanswer, hcache⟩ | hstores | ⟨-, -, ⟨_, hanswer⟩, hcache⟩ := doit_cases hdoit
  · rw [hcache]
    exact h.keep x fun k ⟨_, _, hfills⟩ ↦ absurd (hfills.symm.trans hanswer) (by simp)
  · exact h.store hstores (requests_of_doit hdoit)
  · rw [hcache]
    exact h.keep x fun k ⟨_, _, hfills⟩ ↦ absurd (hfills.symm.trans hanswer) (by simp)

/-! ### Sound answers -/

/-- An answer after the earlier ones: if it comes from a slot, an earlier request has filled that
slot, and with the object of the same host, port and path. -/
def SoundAnswer (earlier : List Outcome) (out : Outcome) : Prop :=
  ∀ k, out.Hits k → (∃ o ∈ earlier, o.Fills k) ∧ ∀ o ∈ earlier, o.Fills k → o.line = out.line

/-- **What the cache promises of a run.** -/
def Sound (outs : List Outcome) : Prop :=
  ∀ pre out post, outs = pre ++ out :: post → SoundAnswer pre out

/-- No earlier request with a small response is confused with this one. -/
def Unconfused (earlier : List Connection) (line : ReqLine) : Prop :=
  ∀ y ∈ earlier, y.origin.length < maxObjectSize → ∀ l, Requests y l → ¬ Confusable l line

/-- No slot that is still to be filled happens to hold the key, unless one that is filled does. -/
def Unforeseen (c : Cache) (line : ReqLine) : Prop :=
  ∀ k, c.usedCnt ≤ k → k < slots → cstr (c.objects k).name = line.cacheKey →
    ∃ j < c.usedCnt, cstr (c.objects j).name = line.cacheKey

/-- Every request with a small response finds its object afterwards. -/
def SmallStored (xs : List Connection) (outs : List Outcome) : Prop :=
  ∀ y ∈ xs, y.origin.length < maxObjectSize → ∀ l, Requests y l →
    ∃ o ∈ outs, o.line = l ∧ ∃ k, o.Fills k

/-- A request for a key that some slot holds is answered from the first such slot. -/
theorem exists_hits {c : Cache} {x : Connection} {out : Outcome} (hdoit : doit c x = .ok out)
    {k : ℕ} (hk : k < slots) (hname : cstr (c.objects k).name = out.line.cacheKey) :
    ∃ j ≤ k, out.Hits j ∧ cstr (c.objects j).name = out.line.cacheKey := by
  have hkey := (requests_of_doit hdoit).cstr_cacheKey
  rcases hreader : reader c out.line.cacheKey with - | ⟨j, bytes⟩
  · exact absurd (hname.trans hkey.symm) (reader_eq_none_iff.1 hreader k hk)
  · obtain ⟨-, hj, -, hfirst⟩ := reader_eq_some_iff.1 hreader
    refine ⟨j, Nat.le_of_not_lt fun hlt ↦ hfirst k hlt (hname.trans hkey.symm), ?_, hj.trans hkey⟩
    exact ⟨bytes, answer_of_reader hdoit hreader⟩

/-- **When an answer is sound**, by what the run has recorded. -/
theorem soundAnswer_iff {xs : List Connection} {outs : List Outcome} {c : Cache} {x : Connection}
    {out : Outcome} (hrec : Recorded xs outs c) (hsmall : SmallStored xs outs)
    (hdoit : doit c x = .ok out) :
    SoundAnswer outs out ↔ Unconfused xs out.line ∧ Unforeseen c out.line := by
  have hkey := (requests_of_doit hdoit).cstr_cacheKey
  refine ⟨fun hsound ↦ ?_, ?_⟩
  · refine ⟨fun y hy hsize l hl hconf ↦ ?_, fun k _ hk hname ↦ ?_⟩
    · obtain ⟨o, ho, rfl, k, hfills⟩ := hsmall y hy hsize l hl
      obtain ⟨hk, hname, -⟩ := hrec.fills o ho k hfills
      rw [cacheKey_eq_iff.2 (.inr hconf)] at hname
      obtain ⟨j, hjk, hhits, hj⟩ := exists_hits hdoit (hk.trans_le hrec.usedCnt_le) hname
      -- the slot hit is the one that the earlier request has filled
      obtain rfl := hrec.injective j (hjk.trans_lt hk) k hk (hj.trans hname.symm)
      exact hconf.1 ((hsound j hhits).2 o ho hfills)
    · obtain ⟨j, -, hhits, hj⟩ := exists_hits hdoit hk hname
      obtain ⟨⟨o, ho, hfills⟩, -⟩ := hsound j hhits
      exact ⟨j, (hrec.fills o ho j hfills).1, hj⟩
  · rintro ⟨hunconf, hunforeseen⟩ k ⟨bytes, hhits⟩
    obtain ⟨k', _, hreader, hanswer, -⟩ | hstores | ⟨-, -, ⟨_, hanswer⟩, -⟩ := doit_cases hdoit
    · obtain ⟨rfl, rfl⟩ := Answer.fromCache.inj (hhits.symm.trans hanswer)
      obtain ⟨hk, hname, -, hfirst⟩ := reader_eq_some_iff.1 hreader
      rw [hkey] at hname
      -- `reader` takes the first slot with the name, so a filled one if there is any
      have hlt : k < c.usedCnt := by
        by_contra hle
        obtain ⟨j, hj, hjname⟩ := hunforeseen k (Nat.le_of_not_lt hle) hk hname
        exact hfirst j (by omega) (hjname.trans hkey.symm)
      refine ⟨hrec.filled k hlt, fun o ho hfills ↦ ?_⟩
      obtain ⟨-, hoName, y, hy, hsize, hyline⟩ := hrec.fills o ho k hfills
      have hsame : o.line.cacheKey = out.line.cacheKey := hoName.symm.trans hname
      exact (cacheKey_eq_iff.1 hsame).resolve_right (hunconf y hy hsize o.line hyline)
    · obtain ⟨_, _, hfills⟩ := hstores.fills
      exact absurd (hhits.symm.trans hfills) (by simp)
    · exact absurd (hhits.symm.trans hanswer) (by simp)

/-- In a sound run every small response is stored, or was already. -/
theorem SmallStored.serve {xs : List Connection} {outs : List Outcome} {c : Cache}
    {x : Connection} {out : Outcome} (h : SmallStored xs outs) (hdoit : doit c x = .ok out)
    (hsound : SoundAnswer outs out) : SmallStored (xs ++ [x]) (outs ++ [out]) := by
  intro y hy hsize l hl
  rcases List.mem_append.1 hy with hy | hy
  · obtain ⟨o, ho, hline, hfills⟩ := h y hy hsize l hl
    exact ⟨o, List.mem_append_left _ ho, hline, hfills⟩
  obtain rfl := List.mem_singleton.1 hy
  obtain rfl := hl.unique (requests_of_doit hdoit)
  obtain ⟨k, bytes, -, hanswer, -⟩ | hstores | ⟨-, hlarge, -, -⟩ := doit_cases hdoit
  · obtain ⟨⟨o, ho, hfills⟩, hsame⟩ := hsound k ⟨bytes, hanswer⟩
    exact ⟨o, List.mem_append_left _ ho, hsame o ho hfills, k, hfills⟩
  · exact ⟨out, List.mem_append_right _ List.mem_cons_self, rfl, _, hstores.fills⟩
  · exact absurd hsize (Nat.not_lt_of_le hlarge)

/-! ### Sound runs -/

/-- A request that the cache keeps apart from the earlier ones. -/
def KeptApart (c₀ : Cache) (earlier : List Connection) (x : Connection) : Prop :=
  ∀ line, Requests x line → Unconfused earlier line ∧
    ∀ outs c, Runs c₀ earlier outs c → Unforeseen c line

theorem keptApart_iff {c₀ c : Cache} {xs : List Connection} {outs : List Outcome}
    {x : Connection} {out : Outcome} (hrun : Runs c₀ xs outs c) (hdoit : doit c x = .ok out) :
    KeptApart c₀ xs x ↔ Unconfused xs out.line ∧ Unforeseen c out.line := by
  refine ⟨fun h ↦ ?_, ?_⟩
  · obtain ⟨hunconf, hunforeseen⟩ := h out.line (requests_of_doit hdoit)
    exact ⟨hunconf, hunforeseen outs c hrun⟩
  · rintro ⟨hunconf, hunforeseen⟩ line hline
    obtain rfl := hline.unique (requests_of_doit hdoit)
    exact ⟨hunconf, fun outs' c' hrun' ↦ (hrun.unique hrun').2 ▸ hunforeseen⟩

/-- The invariant, and with it the condition, from one connection to the next. -/
theorem Runs.recorded {malloced : ℕ → CacheLine} {xs : List Connection} {outs : List Outcome}
    {c : Cache} (hrun : Runs (initCache malloced) xs outs c) :
    Recorded xs outs c ∧ (Sound outs → SmallStored xs outs) ∧
      (Sound outs ↔
        ∀ pre x post, xs = pre ++ x :: post → KeptApart (initCache malloced) pre x) := by
  induction hrun with
  | start =>
    refine ⟨recorded_initCache malloced, fun _ y hy ↦ absurd hy List.not_mem_nil, ?_, ?_⟩
    · exact fun _ pre x post heq ↦ absurd heq (by simp)
    · exact fun _ pre out post heq ↦ absurd heq (by simp)
  | @serve xs outs c x out hrun hdoit ih =>
    obtain ⟨hrec, hsmall, hiff⟩ := ih
    refine ⟨hrec.serve hdoit, fun hsound ↦ ?_, ?_⟩
    · obtain ⟨hsound, hanswer⟩ := forall_split_concat_iff.1 hsound
      exact (hsmall hsound).serve hdoit hanswer
    · rw [Sound, forall_split_concat_iff, forall_split_concat_iff, ← hiff, keptApart_iff hrun hdoit]
      exact and_congr_right fun hsound ↦ soundAnswer_iff hrec (hsmall hsound) hdoit

/-- **When a run is sound**: no request is confused with an earlier one whose response is small, and
none is for a key that a slot yet to be filled happens to hold. -/
theorem cache_sound_iff {malloced : ℕ → CacheLine} {xs : List Connection} {outs : List Outcome}
    {c : Cache} (hrun : Runs (initCache malloced) xs outs c) :
    Sound outs ↔ ∀ pre x post, xs = pre ++ x :: post → KeptApart (initCache malloced) pre x :=
  hrun.recorded.2.2

/-- A request after one that has been stored, for the same host and path. -/
theorem exists_run_again {port : UInt8}
    (hparse : parseRequest (rootRequest port) = .ok (some (⟨[104], [port], [47]⟩, []))) :
    ∃ out out' c, Runs zeroedCache [zeroedConnection (rootRequest 49) [97],
        zeroedConnection (rootRequest port) [97]] [out, out'] c ∧
      doit zeroedCache (zeroedConnection (rootRequest 49) [97]) = .ok out ∧
      Stores zeroedCache (zeroedConnection (rootRequest 49) [97]) out ∧
      out.line = ⟨[104], [49], [47]⟩ ∧ out'.line = ⟨[104], [port], [47]⟩ ∧ out'.Hits 0 := by
  obtain ⟨out, hdoit, hline, hstores⟩ := rootRequest_stores
  obtain ⟨object, -, hreader⟩ := hstores.reader_eq (.refl _)
  rw [hline] at hreader
  have hdoit' : doit out.cache (zeroedConnection (rootRequest port) [97]) = .ok ⟨_, _, out.cache⟩ :=
    doit_eq_ok_iff.2 ⟨_, [], hparse, show 2 < Csapp.maxline by decide, .fromCache hreader⟩
  have hrun := ((@Runs.start zeroedCache).serve hdoit).serve hdoit'
  exact ⟨out, _, _, hrun, hdoit, hstores, hline, rfl, _, rfl⟩

theorem requests_rootRequest {port : UInt8} {origin : List UInt8} {line : ReqLine}
    (hparse : parseRequest (rootRequest port) = .ok (some (⟨[104], [port], [47]⟩, [])))
    (h : Requests (zeroedConnection (rootRequest port) origin) line) :
    line = ⟨[104], [port], [47]⟩ :=
  h.unique ⟨[], hparse⟩

/-- The same request twice is answered soundly. -/
theorem cache_sound_same : ∃ out out' c, Runs zeroedCache [zeroedConnection (rootRequest 49) [97],
      zeroedConnection (rootRequest 49) [97]] [out, out'] c ∧ out'.Hits 0 ∧ Sound [out, out'] := by
  have hparse : parseRequest (rootRequest 49) = .ok (some (⟨[104], [49], [47]⟩, [])) := rfl
  obtain ⟨out, out', c, hrun, hdoit, hstores, hline, -, hhits⟩ := exists_run_again hparse
  refine ⟨out, out', c, hrun, hhits, (cache_sound_iff hrun).2 ?_⟩
  rw [show [zeroedConnection (rootRequest 49) [97], zeroedConnection (rootRequest 49) [97]] =
    [] ++ [zeroedConnection (rootRequest 49) [97]] ++ [zeroedConnection (rootRequest 49) [97]]
    from rfl, forall_split_concat_iff, forall_split_concat_iff]
  refine ⟨⟨fun pre x post h ↦ absurd h (by simp), fun line hreq ↦ ?_⟩, fun line hreq ↦ ?_⟩
  · obtain rfl := requests_rootRequest hparse hreq
    refine ⟨fun y hy ↦ absurd hy List.not_mem_nil, fun outs c hrun k _ _ hname ↦ ?_⟩
    obtain ⟨-, rfl⟩ := hrun.unique .start
    exact absurd (show ([] : List UInt8) = [104, 47] from hname) (by simp)
  · obtain rfl := requests_rootRequest hparse hreq
    refine ⟨fun y hy _ l hl hconf ↦ ?_, fun outs c hrun k _ _ _ ↦ ?_⟩
    · obtain rfl := List.mem_singleton.1 hy
      exact hconf.1 (requests_rootRequest hparse hl)
    · have hfirst := (@Runs.start zeroedCache).serve hdoit
      obtain ⟨-, rfl⟩ := hrun.unique hfirst
      obtain ⟨h0, hname, -⟩ := hfirst.recorded.1.fills out List.mem_cons_self 0 hstores.fills
      exact ⟨0, h0, hline ▸ hname⟩

/-- **A request for port 2 is answered with what port 1 has sent.** -/
theorem otherPort_answered :
    (⟨[104], [49], [47]⟩ : ReqLine).cacheKey = (⟨[104], [50], [47]⟩ : ReqLine).cacheKey ∧
      ∃ out out' c, Runs zeroedCache [zeroedConnection (rootRequest 49) [97],
        zeroedConnection (rootRequest 50) [97]] [out, out'] c ∧
        out.line = ⟨[104], [49], [47]⟩ ∧ out.Fills 0 ∧
        out'.line = ⟨[104], [50], [47]⟩ ∧ out'.Hits 0 ∧ ¬ Sound [out, out'] := by
  refine ⟨rfl, ?_⟩
  obtain ⟨out, out', c, hrun, -, hstores, hline, hline', hhits⟩ := @exists_run_again 50 rfl
  refine ⟨out, out', c, hrun, hline, hstores.fills, hline', hhits, fun hsound ↦ ?_⟩
  have hsame := (hsound [out] out' [] rfl 0 hhits).2 out List.mem_cons_self hstores.fills
  rw [hline, hline'] at hsame
  exact absurd hsame (by decide)

end CsappCode.ProxyLab
