import CsappCode.Library.ReadersWriters
import CsappCode.ProxyLab.Memory

/-!
# The proxy's object cache

`proxy.c` keeps ten slots, filled one after the other and never emptied. `reader` scans them under
the readers-first protocol, `writer` fills the next one. The sections are given step by step, one
`strcpy` or one access to `used_cnt` at a time, and run under `ReadersWriters`.

* `Scan.step` is one turn of the scan of `reader`, `Store.step` one step of `writer`.
* `cacheSections` are the two as sections of the protocol.
* `reader` and `writer` are calls that nobody interrupts. `reader_eq_some_iff`, `reader_eq_none_iff`
  and `writer_eq` say what they do.

## How the code is modelled

**The array of slots** is given by its lines, as a function of the index. `init_cache` allocates
ten; a store past them goes to memory that no reader scans, and whether one happens is a question of
its own.

**The areas** of a slot are lists of bytes, as long as `Malloc` made them, with whatever content
they had. `strcpy` writes a string and its NUL over the front and keeps the rest. What a reader
sends is the whole area of the object.

**The increment** of `used_cnt` is a load and a store. Since only writers touch it this makes no
difference in the end, but it is the protocol that sees to this and not the model.
-/

namespace CsappCode.ProxyLab

open ReadersWriters (Sections Call)

/-- `MAX_OBJECT_SIZE`. -/
def maxObjectSize : ℕ := 1024 * 100

/-- The number of slots. -/
def slots : ℕ := 10

/-- A slot: the contents of its two areas. -/
structure CacheLine where
  name : List UInt8
  object : List UInt8
  deriving DecidableEq

structure Cache where
  usedCnt : ℕ
  objects : ℕ → CacheLine

/-- `init_cache`: nothing is written to the areas that `Malloc` returns. -/
def initCache (malloced : ℕ → CacheLine) : Cache := ⟨0, malloced⟩

/-- The line at `cache.objects[cache.used_cnt]` changes. -/
def Cache.setNext (c : Cache) (line : CacheLine) : Cache :=
  { c with objects := Function.update c.objects c.usedCnt line }

@[simp] theorem Cache.setNext_usedCnt (c : Cache) (line : CacheLine) :
    (c.setNext line).usedCnt = c.usedCnt := rfl

@[simp] theorem Cache.setNext_objects (c : Cache) (line : CacheLine) :
    (c.setNext line).objects = Function.update c.objects c.usedCnt line := rfl

/-! ### The scan of a reader -/

/-- The locals of `reader`. -/
structure Scan where
  uri : List UInt8
  i : ℕ
  inCache : Bool

/-- What one turn of the scan does. -/
inductive ScanEvent where
  | differs
  | wrote (bytes : List UInt8)

/-- One turn of the loop of `reader`. -/
def Scan.step (c : Cache) (r : Scan) : Option (ScanEvent × Scan) :=
  if r.inCache ∨ slots ≤ r.i then none
  else if cstr (c.objects r.i).name = cstr r.uri then
    some (.wrote ((c.objects r.i).object.take maxObjectSize), { r with inCache := true })
  else some (.differs, { r with i := r.i + 1 })

/-! ### The stores of a writer -/

/-- Where the writing section of `writer` stands. -/
inductive WriterAt where
  /-- before `strcpy(cache.objects[cache.used_cnt].name, uri)` -/
  | name
  /-- before `strcpy(cache.objects[cache.used_cnt].object, buf)` -/
  | object
  /-- before the load of `++cache.used_cnt` -/
  | load
  /-- before its store -/
  | store (usedCnt : ℕ)
  /-- before `V(&w)` -/
  | done
  deriving DecidableEq, Repr

/-- The locals of `writer`. -/
structure Store where
  uri : List UInt8
  buf : List UInt8
  at' : WriterAt

/-- One step of the writing section of `writer`. -/
def Store.step (c : Cache) (x : Store) : Option (Cache × Store) :=
  match x.at' with
  | .name =>
    let line := c.objects c.usedCnt
    some (c.setNext { line with name := strcpy line.name x.uri }, { x with at' := .object })
  | .object =>
    let line := c.objects c.usedCnt
    some (c.setNext { line with object := strcpy line.object x.buf }, { x with at' := .load })
  | .load => some (c, { x with at' := .store c.usedCnt })
  | .store v => some ({ c with usedCnt := v + 1 }, { x with at' := .done })
  | .done => none

/-- What `reader` and `writer` of `proxy.c` do inside their sections. -/
def cacheSections : Sections Cache Scan Store ScanEvent := ⟨Scan.step, Store.step⟩

/-- A call of `reader` or of `writer`. -/
inductive CacheCall where
  | reader (uri : List UInt8)
  | writer (uri buf : List UInt8)

/-- The locals on entry. -/
def CacheCall.start : CacheCall → Call Scan Store
  | .reader uri => .reader ⟨uri, 0, false⟩
  | .writer uri buf => .writer ⟨uri, buf, .name⟩

/-- A slot after a call of `writer` has filled it. -/
def CacheLine.fill (line : CacheLine) (uri buf : List UInt8) : CacheLine :=
  ⟨strcpy line.name uri, strcpy line.object buf⟩

/-! ### Calls that nobody interrupts -/

/-- The scan from some turn on, for at most `n` turns: the slot found, and the bytes written to the
client. -/
def Scan.run (c : Cache) : ℕ → Scan → Option (ℕ × List UInt8)
  | 0, _ => none
  | n + 1, r =>
    match r.step c with
    | none => none
    | some (.wrote bytes, _) => some (r.i, bytes)
    | some (.differs, r') => Scan.run c n r'

/-- `reader(fd, uri)`: it returns 1 just if it found a slot. -/
def reader (c : Cache) (uri : List UInt8) : Option (ℕ × List UInt8) :=
  Scan.run c slots ⟨uri, 0, false⟩

/-- The section of `writer` from some step on, for at most `n` steps. -/
def Store.run : ℕ → Cache → Store → Cache
  | 0, c, _ => c
  | n + 1, c, x =>
    match x.step c with
    | none => c
    | some (c', x') => Store.run n c' x'

/-- `writer(uri, buf)`. -/
def writer (c : Cache) (uri buf : List UInt8) : Cache := Store.run 5 c ⟨uri, buf, .name⟩

/-- **`writer` fills the next slot** and counts it. -/
theorem writer_eq (c : Cache) (uri buf : List UInt8) : writer c uri buf =
    ⟨c.usedCnt + 1, Function.update c.objects c.usedCnt ((c.objects c.usedCnt).fill uri buf)⟩ := by
  simp only [writer, Store.run, Store.step, Cache.setNext, Function.update_self,
    Function.update_idem, CacheLine.fill]

@[simp] theorem writer_usedCnt (c : Cache) (uri buf : List UInt8) :
    (writer c uri buf).usedCnt = c.usedCnt + 1 := by
  rw [writer_eq]

@[simp] theorem writer_objects_usedCnt (c : Cache) (uri buf : List UInt8) :
    (writer c uri buf).objects c.usedCnt = (c.objects c.usedCnt).fill uri buf := by
  rw [writer_eq]
  exact Function.update_self _ _ _

theorem writer_objects_of_ne (c : Cache) (uri buf : List UInt8) {k : ℕ} (hk : k ≠ c.usedCnt) :
    (writer c uri buf).objects k = c.objects k := by
  rw [writer_eq]
  exact Function.update_of_ne hk _ _

/-- The scan finds the first slot with the name. -/
theorem run_eq_some_iff {c : Cache} {uri : List UInt8} (n : ℕ) : ∀ {i k : ℕ} {bytes : List UInt8},
    i + n = slots → (Scan.run c n ⟨uri, i, false⟩ = some (k, bytes) ↔
      i ≤ k ∧ k < slots ∧ cstr (c.objects k).name = cstr uri ∧
        bytes = (c.objects k).object.take maxObjectSize ∧
        ∀ j, i ≤ j → j < k → cstr (c.objects j).name ≠ cstr uri) := by
  induction n with
  | zero =>
    intro i k bytes hi
    refine ⟨fun h ↦ absurd h (by simp [Scan.run]), ?_⟩
    rintro ⟨hik, hk, -⟩
    omega
  | succ n ih =>
    intro i k bytes hi
    have hstep : Scan.step c ⟨uri, i, false⟩ =
        if cstr (c.objects i).name = cstr uri then
          some (.wrote ((c.objects i).object.take maxObjectSize), ⟨uri, i, true⟩)
        else some (.differs, ⟨uri, i + 1, false⟩) := by
      rw [Scan.step, if_neg (by simp; omega)]
    rcases eq_or_ne (cstr (c.objects i).name) (cstr uri) with hname | hname
    · rw [if_pos hname] at hstep
      simp only [Scan.run, hstep, Option.some.injEq, Prod.mk.injEq]
      constructor
      · rintro ⟨rfl, rfl⟩
        exact ⟨le_rfl, by omega, hname, rfl, fun j hj hj' ↦ by omega⟩
      · rintro ⟨hik, -, -, rfl, hfirst⟩
        rcases Nat.eq_or_lt_of_le hik with rfl | hlt
        · exact ⟨rfl, rfl⟩
        · exact absurd hname (hfirst i le_rfl hlt)
    · rw [if_neg hname] at hstep
      simp only [Scan.run, hstep]
      rw [ih (by omega)]
      constructor
      · rintro ⟨hik, hk, hkname, hbytes, hfirst⟩
        refine ⟨by omega, hk, hkname, hbytes, fun j hj hjk ↦ ?_⟩
        rcases Nat.eq_or_lt_of_le hj with rfl | hlt
        · exact hname
        · exact hfirst j hlt hjk
      · rintro ⟨hik, hk, hkname, hbytes, hfirst⟩
        have hne : i ≠ k := fun h ↦ hname (h ▸ hkname)
        exact ⟨by omega, hk, hkname, hbytes, fun j hj hjk ↦ hfirst j (by omega) hjk⟩

/-- **What `reader` finds.** -/
theorem reader_eq_some_iff {c : Cache} {uri : List UInt8} {k : ℕ} {bytes : List UInt8} :
    reader c uri = some (k, bytes) ↔ k < slots ∧ cstr (c.objects k).name = cstr uri ∧
      bytes = (c.objects k).object.take maxObjectSize ∧
      ∀ j < k, cstr (c.objects j).name ≠ cstr uri := by
  rw [reader, run_eq_some_iff slots (by simp)]
  simp

/-- **When `reader` finds nothing.** -/
theorem reader_eq_none_iff {c : Cache} {uri : List UInt8} :
    reader c uri = none ↔ ∀ k < slots, cstr (c.objects k).name ≠ cstr uri := by
  refine ⟨fun hnone k ↦ ?_, fun hall ↦ ?_⟩
  · induction k using Nat.strong_induction_on with
    | _ k ih =>
      intro hk hname
      have hfound := reader_eq_some_iff.2 ⟨hk, hname, rfl, fun j hj ↦ ih j hj (by omega)⟩
      exact absurd (hnone.symm.trans hfound) (by simp)
  · rcases hr : reader c uri with - | ⟨k, bytes⟩
    · rfl
    · obtain ⟨hk, hname, -, -⟩ := reader_eq_some_iff.1 hr
      exact absurd hname (hall k hk)

end CsappCode.ProxyLab
