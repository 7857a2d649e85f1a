import CsappCode.Library.Recency
import Mathlib.Data.BitVec

/-!
# The cache simulator `csim.c`

The data model of the simulator and its two working functions, `init_cache` and `process`, with the
replay loop of `main`.

* `Arguments` are the options that matter here, and `initCache` the cache that is allocated for
  them.
* `decompose` is the arithmetic on the address, `accessLines` the work on one set, and `process` a
  call.
* `processAll` is a run of calls, with the outcome of each.
* `replayOperation` and `replay` are the loop of `main`, and `summary` what it prints.
* `Geometry` are the arguments that the statements about runs are for.

## How the code is modelled

**Integers.** A C `int` is a `BitVec 32` and a `long` a `BitVec 64`; comparisons on them are signed.
Nothing is idealized: ages and counters wrap as the machine's do. That they do not wrap on short
traces is a theorem of the modules that follow.

**Undefined behaviour.** A shift by the operand's width or more, or an access outside an array, is
`none`, so a result that is `some` says that there was none.

**The address** is a `long` in an operation and an `int` in the call of `process`. The conversion is
part of the replay loop, and what it does to a trace is the subject of a module of its own.

**Left out** is what `process` and `main` print on the way to the summary.
-/

namespace CsappCode.CacheLab

open Recency (Outcome)

/-- The arguments that `init_cache` and `process` read: `2 ^ s` sets of `E` lines, blocks of
`2 ^ b` bytes. -/
structure Arguments where
  s : ℕ
  E : ℕ
  b : ℕ

structure CacheLine where
  /-- `valid_bit`, of which the code stores only `0` and `1`. -/
  validBit : Bool
  tagBit : BitVec 32
  times : BitVec 32
  deriving DecidableEq, Repr

abbrev CacheSet := List CacheLine
abbrev Cache := List CacheSet

/-- The cache with the three global counters. -/
structure Simulator where
  cache : Cache
  hitCount : BitVec 32
  missCount : BitVec 32
  evictionCount : BitVec 32
  deriving DecidableEq, Repr

/-! ### Building the cache -/

/-- A line as `init_cache` leaves it. -/
def emptyLine : CacheLine := ⟨false, -1, 0⟩

def initCache (args : Arguments) : Cache :=
  List.replicate (2 ^ args.s) (List.replicate args.E emptyLine)

/-- The state in which `main` starts to replay: a fresh cache and zero counters. -/
def start (args : Arguments) : Simulator := ⟨initCache args, 0, 0, 0⟩

/-! ### Decomposing an address -/

/-- `x >> n` on a signed operand, defined for counts below the width. -/
def sshr? {w : ℕ} (x : BitVec w) (n : ℕ) : Option (BitVec w) :=
  if n < w then some (x.sshiftRight n) else none

/-- `x >> n` on an unsigned operand, defined for counts below the width. -/
def ushr? {w : ℕ} (x : BitVec w) (n : ℕ) : Option (BitVec w) :=
  if n < w then some (x >>> n) else none

/-- The first half of `process`: the set index and the tag of an address. The mask is a `long`, so
the address is sign-extended for the `&` and the result cut back to an `int`. -/
def decompose (args : Arguments) (address : BitVec 32) : Option (BitVec 32 × BitVec 32) := do
  let address ← sshr? address args.b
  let mask ← ushr? (BitVec.allOnes 64) (64 - args.s)
  let setIndex := (mask &&& address.signExtend 64).setWidth 32
  let tagBits ← sshr? address args.s
  pure (setIndex, tagBits)

/-! ### One access to a set

A set's array has `args->E` lines, so the loops over `i < args->E` run over the whole list. -/

/-- The first loop: every valid line ages by one. -/
def ageLines (set : CacheSet) : CacheSet :=
  set.map fun line ↦ if line.validBit then { line with times := line.times + 1 } else line

/-- The loop for the oldest line. The comparison is strict, so the first maximum wins. -/
def maxLoop : CacheSet → ℕ → ℕ → BitVec 32 → ℕ
  | [], _, maxIndex, _ => maxIndex
  | line :: lines, i, maxIndex, maxTime =>
    if maxTime.slt line.times then maxLoop lines (i + 1) i line.times
    else maxLoop lines (i + 1) maxIndex maxTime

/-- The line to evict; reading `set[0]` needs a line to be there. -/
def victim : CacheSet → Option ℕ
  | [] => none
  | line :: lines => some (maxLoop (line :: lines) 0 0 line.times)

/-- The second half of `process` on one set, with the path by which it returns. -/
def accessLines (set : CacheSet) (tagBits : BitVec 32) : Option (CacheSet × Outcome) :=
  let set := ageLines set
  match set.findIdx? fun line ↦ line.validBit && line.tagBit == tagBits with
  | some i => some (set.modify i fun line ↦ { line with times := 0 }, .hit)
  | none =>
    -- from here on it is a miss
    match set.findIdx? fun line ↦ !line.validBit with
    | some i =>
      some (set.modify i fun line ↦ { line with tagBit := tagBits, validBit := true, times := 0 },
        .fill)
    | none => do
      let maxIndex ← victim set
      some (set.modify maxIndex fun line ↦ { line with tagBit := tagBits, times := 0 }, .evict)

/-- The counters a return path advances: a miss counts before it is known whether it evicts. -/
def Simulator.count (st : Simulator) : Outcome → Simulator
  | .hit => { st with hitCount := st.hitCount + 1 }
  | .fill => { st with missCount := st.missCount + 1 }
  | .evict => { st with missCount := st.missCount + 1, evictionCount := st.evictionCount + 1 }

/-- `process`: one access, with the path by which it returned. A negative set index reads as a
large natural number and falls outside the cache. -/
def process (args : Arguments) (st : Simulator) (address : BitVec 32) :
    Option (Simulator × Outcome) := do
  let (setIndex, tagBits) ← decompose args address
  let set ← st.cache[setIndex.toNat]?
  let (set', o) ← accessLines set tagBits
  pure ({ st with cache := st.cache.set setIndex.toNat set' }.count o, o)

/-- `process` on one address after another, with the outcome of every call. -/
def processAll (args : Arguments) : Simulator → List (BitVec 32) → Option (Simulator × List Outcome)
  | st, [] => some (st, [])
  | st, address :: addresses => do
    let (st, o) ← process args st address
    let (st, os) ← processAll args st addresses
    pure (st, o :: os)

/-! ### Replaying a trace -/

structure Operation where
  op : UInt8
  address : BitVec 64
  size : BitVec 32
  deriving DecidableEq, Repr

/-- Why `main` does not reach `printSummary`. -/
inductive Stop where
  /-- The `default` branch of the switch: `exit(0)`. -/
  | invalidOperation
  | undefinedBehaviour
  deriving DecidableEq, Repr

/-- A call of `process` from `main`: the `long` address is passed for an `int` parameter, which
keeps its low 32 bits. -/
def callProcess (args : Arguments) (st : Simulator) (address : BitVec 64) : Except Stop Simulator :=
  match process args st (address.setWidth 32) with
  | some (st', _) => .ok st'
  | none => .error .undefinedBehaviour

/-- One turn of `main`'s loop. -/
def replayOperation (args : Arguments) (st : Simulator) (o : Operation) : Except Stop Simulator :=
  if o.op = 'I'.toUInt8 then .ok st
  else if o.op = 'M'.toUInt8 then do
    let st ← callProcess args st o.address
    callProcess args st o.address
  else if o.op = 'L'.toUInt8 then callProcess args st o.address
  else if o.op = 'S'.toUInt8 then callProcess args st o.address
  else .error .invalidOperation

/-- `main`'s loop over the operations. -/
def replay (args : Arguments) : Simulator → List Operation → Except Stop Simulator
  | st, [] => .ok st
  | st, o :: ops => do
    let st ← replayOperation args st o
    replay args st ops

/-- The three totals `main` hands to `printSummary`. -/
def summary (args : Arguments) (ops : List Operation) :
    Except Stop (BitVec 32 × BitVec 32 × BitVec 32) := do
  let st ← replay args (start args) ops
  pure (st.hitCount, st.missCount, st.evictionCount)

/-! ### The geometries of the statements -/

/-- Arguments for which every shift is defined and every set has a line. -/
structure Geometry extends Arguments where
  one_le_s : 1 ≤ s
  s_le : s ≤ 30
  sum_le : s + b ≤ 31
  one_le_E : 1 ≤ E

/-- A direct-mapped cache of two sets of one-byte blocks: the second of two addresses in one set
evicts the first. -/
example : processAll ⟨1, 1, 0⟩ (start ⟨1, 1, 0⟩) [4, 4, 6] =
    some (⟨[[⟨true, 3, 0⟩], [emptyLine]], 1, 2, 1⟩, [.fill, .hit, .evict]) := by decide

end CsappCode.CacheLab
