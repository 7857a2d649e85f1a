import CsappCode.ProxyLab.Survival

/-!
# What a cached object is replayed as

`doit` stores a response that it has relayed, and `reader` sends it to every later client that asks
for it. But `reader` writes `MAX_OBJECT_SIZE` bytes, whatever the length of the response was, so the
later clients never receive what the first one did.

* `length_of_reader` is the number of bytes that `reader` writes.
* `Stores.reader_eq` says that a stored object is found in its slot from then on.
* `Stores.replay_length` is about all later runs of the proxy: they do answer from the cache, with
  `MAX_OBJECT_SIZE` bytes each time.
* `Stores.replay_of_nulFree` says what these bytes begin with: a response without NULs, a NUL, and
  stale bytes.
* `replay_never_exact` puts them together.

## What the results rest on

**Later runs.** A slot once filled is never touched again, and earlier slots do not get the name of
a later one. So what a key is answered with is settled when its object is stored, for every run from
then on.

**Why never.** Only responses below `MAX_OBJECT_SIZE` are stored, so no stored response has the
length of what is sent for it. This needs nothing of the bytes, and holds of responses with NULs as
well.

**Assumed** is that `Malloc` has returned areas of the sizes that `init_cache` asks for.
-/

namespace CsappCode.ProxyLab

open Csapp (lines maxline)

/-! ### The slots' areas -/

/-- The areas for objects are at least as long as `init_cache` makes them. -/
def Allocated (objects : ℕ → CacheLine) : Prop :=
  ∀ k < slots, maxObjectSize ≤ (objects k).object.length

theorem allocated_writer {c : Cache} (hc : Allocated c.objects) (uri buf : List UInt8) :
    Allocated (writer c uri buf).objects := by
  intro k hk
  rcases eq_or_ne k c.usedCnt with rfl | hne
  · rw [writer_objects_usedCnt]
    exact (hc _ hk).trans (length_le_length_strcpy _ buf)
  · rw [writer_objects_of_ne c uri buf hne]
    exact hc k hk

theorem allocated_doit {c : Cache} {x : Connection} {out : Outcome} (h : doit c x = .ok out)
    (hc : Allocated c.objects) : Allocated out.cache.objects := by
  obtain ⟨_, _, -, -, hcache⟩ | hstores | ⟨-, -, -, hcache⟩ := doit_cases h
  · rwa [hcache]
  · obtain ⟨object, -, hcache⟩ := hstores.cache
    rw [hcache]
    exact allocated_writer hc _ _
  · rwa [hcache]

/-- No run shortens an area. -/
theorem Runs.allocated {c₀ c : Cache} {xs : List Connection} {outs : List Outcome}
    (h : Runs c₀ xs outs c) (hc₀ : Allocated c₀.objects) : Allocated c.objects :=
  h.invariant hc₀ fun _ _ _ hc hdoit ↦ allocated_doit hdoit hc

/-- **`reader` writes `MAX_OBJECT_SIZE` bytes.** -/
theorem length_of_reader {c : Cache} (hc : Allocated c.objects) {uri bytes : List UInt8} {k : ℕ}
    (h : reader c uri = some (k, bytes)) : bytes.length = maxObjectSize := by
  obtain ⟨hk, -, rfl, -⟩ := reader_eq_some_iff.1 h
  rw [List.length_take, min_eq_left (hc k hk)]

/-! ### Later requests -/

/-- **A stored object is found in its slot from then on.** -/
theorem Stores.reader_eq {c c' : Cache} {x : Connection} {out : Outcome} (h : Stores c x out)
    (hext : out.cache.Extends c') :
    ∃ object, relay x.objectBuf 0 (lines x.origin) = .ok (object, x.origin.length) ∧
      reader c' out.line.cacheKey = some (c.usedCnt,
        (strcpy (c.objects c.usedCnt).object object).take maxObjectSize) := by
  obtain ⟨object, hrelay, hcache⟩ := h.cache
  have hslot : c.usedCnt < out.cache.usedCnt := by
    rw [hcache, writer_usedCnt]
    exact Nat.lt_succ_self _
  have hfilled : c'.objects c.usedCnt = (c.objects c.usedCnt).fill out.line.cacheKey object := by
    rw [hext.objects_eq _ hslot, hcache, writer_objects_usedCnt]
  have hbefore : ∀ j < c.usedCnt, cstr (c'.objects j).name ≠ cstr out.line.cacheKey := by
    intro j hj
    rw [hext.objects_eq j (hj.trans hslot), hcache, writer_objects_of_ne _ _ _ hj.ne]
    exact reader_eq_none_iff.1 h.miss j (hj.trans h.slot)
  refine ⟨object, hrelay, reader_eq_some_iff.2 ⟨h.slot, ?_, ?_, hbefore⟩⟩
  · rw [hfilled, CacheLine.fill, cstr_strcpy]
  · rw [hfilled, CacheLine.fill]

/-- A request whose key is found is answered from the slot. -/
theorem answer_of_reader {c : Cache} {x : Connection} {out : Outcome} (h : doit c x = .ok out)
    {k : ℕ} {bytes : List UInt8} (hreader : reader c out.line.cacheKey = some (k, bytes)) :
    out.answer = .fromCache k bytes := by
  obtain ⟨k', bytes', hreader', hanswer, -⟩ | hstores | ⟨hmiss, -, -, -⟩ := doit_cases h
  · obtain ⟨rfl, rfl⟩ := Prod.mk.inj (Option.some.inj (hreader.symm.trans hreader'))
    exact hanswer
  · exact absurd (hreader.symm.trans hstores.miss) (by simp)
  · exact absurd (hreader.symm.trans hmiss) (by simp)

/-- The same request once more is answered. -/
theorem Stores.exists_again {c : Cache} {x : Connection} {out : Outcome} (h : Stores c x out)
    (hdoit : doit c x = .ok out) : ∃ out', doit out.cache x = .ok out' ∧ out'.line = out.line := by
  obtain ⟨line, headers, hparse, hlen, hanswer⟩ := doit_eq_ok_iff.1 hdoit
  obtain ⟨object, -, hreader⟩ := h.reader_eq (.refl _)
  rw [hanswer.line_eq] at hreader
  exact ⟨_, doit_eq_ok_iff.2 ⟨line, headers, hparse, hlen, .fromCache hreader⟩,
    hanswer.line_eq.symm⟩

/-- What the cache is for: later requests for the object receive what the first client received. -/
def ReplaysExactly (c : Cache) (key response : List UInt8) : Prop :=
  ∀ {ys outs c' y out k bytes}, Runs c ys outs c' → doit c' y = .ok out →
    out.line.cacheKey = key → out.answer = .fromCache k bytes → bytes = response

/-- **Every later answer is `MAX_OBJECT_SIZE` bytes long**, in every later run. -/
theorem Stores.replay_length {c c' : Cache} {x y : Connection} {out out' : Outcome}
    {ys : List Connection} {outs : List Outcome} (h : Stores c x out)
    (hc : Allocated out.cache.objects) (hrun : Runs out.cache ys outs c')
    (hdoit : doit c' y = .ok out') (hkey : out'.line.cacheKey = out.line.cacheKey) :
    ∃ k bytes, out'.answer = .fromCache k bytes ∧ bytes.length = maxObjectSize := by
  obtain ⟨object, -, hreader⟩ := h.reader_eq hrun.extends
  exact ⟨_, _, answer_of_reader hdoit (hkey ▸ hreader),
    length_of_reader (hrun.allocated hc) hreader⟩

theorem Stores.not_replaysExactly {c : Cache} {x : Connection} {out : Outcome}
    (h : Stores c x out) (hc : Allocated out.cache.objects) (hdoit : doit c x = .ok out) :
    ¬ ReplaysExactly out.cache out.line.cacheKey x.origin := by
  obtain ⟨out', hdoit', hline⟩ := h.exists_again hdoit
  have hkey : out'.line.cacheKey = out.line.cacheKey := by rw [hline]
  obtain ⟨k, bytes, hanswer, hlen⟩ := h.replay_length hc .start hdoit' hkey
  intro hexact
  obtain rfl := hexact .start hdoit' hkey hanswer
  exact h.size.ne hlen

/-! ### What the answers begin with -/

/-- Lines without NULs are put one behind the other. -/
theorem relay_of_nulFree (ls : List (List UInt8)) : ∀ {object object' : List UInt8}
    {total total' : ℕ}, ls ≠ [] → (∀ line ∈ ls, NulFree line) → total ≤ object.length →
      relay object total ls = .ok (object', total') →
      ∃ stale, object' = object.take total ++ ls.flatten ++ 0 :: stale := by
  induction ls with
  | nil => exact fun hne ↦ absurd rfl hne
  | cons line rest ih =>
    intro object object' total total' _ hnul htotal h
    rw [relay] at h
    split_ifs at h
    rw [strcpy, cstr_eq_self (hnul line List.mem_cons_self), ← List.append_assoc] at h
    have hlen : (object.take total ++ line).length = total + line.length := by
      rw [List.length_append, List.length_take, min_eq_left htotal]
    rcases eq_or_ne rest [] with rfl | hne
    · obtain ⟨rfl, -⟩ := Prod.mk.inj (Except.ok.inj h)
      exact ⟨_, by rw [List.flatten_singleton]⟩
    · obtain ⟨stale, hstale⟩ := ih hne (fun l hl ↦ hnul l (List.mem_cons_of_mem _ hl))
        (by rw [List.length_append, hlen]; omega) h
      refine ⟨stale, ?_⟩
      rw [hstale, ← hlen, List.take_left, List.flatten_cons, ← List.append_assoc]

/-- **A response without NULs is replayed with a NUL and stale bytes behind it.** -/
theorem Stores.replay_of_nulFree {c c' : Cache} {x y : Connection} {out out' : Outcome}
    {ys : List Connection} {outs : List Outcome} (h : Stores c x out) (horigin : x.origin ≠ [])
    (hnul : NulFree x.origin) (hrun : Runs out.cache ys outs c') (hdoit : doit c' y = .ok out')
    (hkey : out'.line.cacheKey = out.line.cacheKey) :
    ∃ stale, out'.answer = .fromCache c.usedCnt (x.origin ++ 0 :: stale) := by
  obtain ⟨object, hrelay, hreader⟩ := h.reader_eq hrun.extends
  have hflatten := Csapp.flatten_lines x.origin
  have hlines : lines x.origin ≠ [] := fun hnil ↦ horigin (by rw [← hflatten, hnil]; rfl)
  have hnul' : ∀ line ∈ lines x.origin, NulFree line := fun line hline b hb ↦
    hnul b (by rw [← hflatten]; exact List.mem_flatten_of_mem hline hb)
  obtain ⟨stale, hobject⟩ := relay_of_nulFree _ hlines hnul' (Nat.zero_le _) hrelay
  rw [List.take_zero, List.nil_append, hflatten] at hobject
  have hcstr : cstr object = x.origin := by rw [hobject, cstr_append_nul hnul]
  have htake : (strcpy (c.objects c.usedCnt).object object).take maxObjectSize = x.origin ++
      0 :: ((c.objects c.usedCnt).object.drop (x.origin.length + 1)).take
        (maxObjectSize - x.origin.length - 1) := by
    have hsize := h.size
    -- behind the NUL the area holds what it held before
    rw [strcpy, hcstr, List.take_append, List.take_of_length_le hsize.le,
      show maxObjectSize - x.origin.length = maxObjectSize - x.origin.length - 1 + 1 by omega]
    rfl
  rw [htake] at hreader
  exact ⟨_, answer_of_reader hdoit (hkey ▸ hreader)⟩

/-! ### Runs of the proxy -/

/-- A small response to a miss is stored. -/
theorem exists_stores {c : Cache} {x : Connection} {line : ReqLine} {headers : List ReqHeader}
    (hparsable : Parsable x.client line headers) (hmiss : reader c line.cacheKey = none)
    (hrelay : Relayable c x line headers) (hsize : x.origin.length < maxObjectSize) :
    ∃ out, doit c x = .ok out ∧ out.line = line ∧ Stores c x out := by
  obtain ⟨hparse, hlen⟩ := parsable_iff.1 hparsable
  obtain ⟨out, hanswer⟩ := exists_answers_iff.2 (.inr hrelay)
  have hdoit := doit_eq_ok_iff.2 ⟨line, headers, hparse, hlen, hanswer⟩
  refine ⟨out, hdoit, hanswer.line_eq, ?_⟩
  obtain ⟨_, _, hreader, -⟩ | hstores | ⟨-, hlarge, -⟩ := doit_cases hdoit
  · rw [hanswer.line_eq, hmiss] at hreader
    exact absurd hreader (by simp)
  · exact hstores
  · exact absurd hsize (Nat.not_lt_of_le hlarge)

/-- **No stored object is ever replayed exactly.** In every later run every request for it is
answered from the cache, and none with the response that the first client received. -/
theorem replay_never_exact {malloced : ℕ → CacheLine} (hmalloc : Allocated malloced)
    {xs : List Connection} {outs : List Outcome} {c : Cache}
    (hrun : Runs (initCache malloced) xs outs c) {x : Connection} {out : Outcome}
    (hdoit : doit c x = .ok out) {slot : ℕ} (hfills : out.Fills slot) :
    ¬ ReplaysExactly out.cache out.line.cacheKey x.origin ∧
      ∀ ys outs' c' y out', Runs out.cache ys outs' c' → doit c' y = .ok out' →
        out'.line.cacheKey = out.line.cacheKey →
        ∃ k bytes, out'.answer = .fromCache k bytes ∧ bytes ≠ x.origin := by
  have hstores := stores_of_fills hdoit hfills
  have hc := allocated_doit hdoit (hrun.allocated hmalloc)
  refine ⟨hstores.not_replaysExactly hc hdoit, fun ys outs' c' y out' hrun' hdoit' hkey ↦ ?_⟩
  obtain ⟨k, bytes, hanswer, hlen⟩ := hstores.replay_length hc hrun' hdoit' hkey
  refine ⟨k, bytes, hanswer, ?_⟩
  rintro rfl
  exact hstores.size.ne hlen

theorem allocated_zeroedCache : Allocated zeroedCache.objects := fun _ _ ↦
  List.length_replicate.ge

theorem reader_zeroedCache {uri : List UInt8} (huri : cstr uri ≠ []) :
    reader zeroedCache uri = none :=
  reader_eq_none_iff.2 fun _ _ hname ↦ huri hname.symm

/-- `"GET http://h:1/ HTTP/1.0\r\n\r\n"`, at any port of one digit. -/
def rootRequest (port : UInt8) : List UInt8 :=
  [71, 69, 84, 32, 104, 116, 116, 112, 58, 47, 47, 104, 58, port, 47, 32, 72, 84, 84, 80, 47, 49,
    46, 48, 13, 10, 13, 10]

/-- A first request, and the response `"a"`. -/
theorem rootRequest_stores :
    ∃ out, doit zeroedCache (zeroedConnection (rootRequest 49) [97]) = .ok out ∧
      out.line = ⟨[104], [49], [47]⟩ ∧
      Stores zeroedCache (zeroedConnection (rootRequest 49) [97]) out := by
  have hparsable : Parsable (rootRequest 49) ⟨[104], [49], [47]⟩ [] :=
    parsable_iff.2 ⟨rfl, by decide⟩
  refine exists_stores hparsable (reader_zeroedCache (by decide)) ?_ (by decide : 1 < maxObjectSize)
  have hfits : RelayFits 0 [[97]] := relayFits_cons.2 ⟨by decide, fun _ _ _ h ↦ absurd h (by simp)⟩
  exact ⟨by decide, by decide, hfits, fun _ ↦ by decide, fun h ↦
    absurd h (by simp [zeroedConnection])⟩

/-- Every later client receives the byte, and a hundred thousand more. -/
theorem replay_never_exact_oneByte :
    ∃ out, doit zeroedCache (zeroedConnection (rootRequest 49) [97]) = .ok out ∧
      ¬ ReplaysExactly out.cache out.line.cacheKey [97] ∧
      ∀ ys outs' c' y out', Runs out.cache ys outs' c' → doit c' y = .ok out' →
        out'.line.cacheKey = out.line.cacheKey →
        ∃ k bytes, out'.answer = .fromCache k bytes ∧ bytes ≠ [97] := by
  obtain ⟨out, hdoit, -, hstores⟩ := rootRequest_stores
  exact ⟨out, hdoit, replay_never_exact allocated_zeroedCache .start hdoit hstores.fills⟩

/-- The same request twice: the second client receives `MAX_OBJECT_SIZE` bytes in place of one. -/
theorem oneByte_not_replayed :
    ∃ out out' bytes, doit zeroedCache (zeroedConnection (rootRequest 49) [97]) = .ok out ∧
      doit out.cache (zeroedConnection (rootRequest 49) [97]) = .ok out' ∧
      out'.answer = .fromCache 0 bytes ∧ bytes.length = maxObjectSize ∧
      ¬ ReplaysExactly out.cache out.line.cacheKey [97] := by
  obtain ⟨out, hdoit, -, hstores⟩ := rootRequest_stores
  have hc := allocated_doit hdoit allocated_zeroedCache
  obtain ⟨out', hdoit', hline⟩ := hstores.exists_again hdoit
  obtain ⟨object, -, hreader⟩ := hstores.reader_eq (.refl _)
  refine ⟨out, out', _, hdoit, hdoit', answer_of_reader hdoit' (hline ▸ hreader), ?_, ?_⟩
  · exact length_of_reader hc hreader
  · exact hstores.not_replaysExactly hc hdoit

end CsappCode.ProxyLab
