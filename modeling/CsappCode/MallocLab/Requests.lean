import CsappCode.MallocLab.Mdriver

/-!
# What a trace asks for

The requests of a trace, read without a package: they name blocks by their indices, and every index
stands for one block at a time. `requests` is the list of the blocks in use, newest first, where a
trace keeps to this.

* `request` is one request, and `requests` a list of them.
* `Live` is a list of indices with their sizes.
* `Proper` traces allocate only indices that are not in use, and free or reallocate only those that
  are.
* `request_of_alloc`, `request_of_realloc` and `request_of_free` say what each type of request does
  to the list.

## How it is used

**Two readings of a trace.** The driver reads a trace with the pointers that a package returns, and
what it does depends on them. `requests` depends on the trace alone. The invariants of the modules
on the driver relate the two: which blocks are in use is read here, and where they lie, there.

**The order** of the list is that of the driver's list of ranges, newest first, and a block that is
reallocated counts as new. So the two lists can be compared place by place.

Nothing here says that the sizes are positive or that the indices lie in the arrays; the check does
ask for the one, and `read_trace` for the other.
-/

namespace CsappCode.MallocLab.Mdriver

/-- The blocks in use: their indices and sizes. -/
abbrev Live := List (ℕ × ℕ)

/-- The block of an index is given back. -/
def Live.release (live : Live) (i : ℕ) : Live := live.filter (·.1 ≠ i)

/-- The index is in use. -/
def Live.Uses (live : Live) (i : ℕ) : Prop := i ∈ live.map Prod.fst

instance (live : Live) (i : ℕ) : Decidable (live.Uses i) := inferInstanceAs (Decidable (_ ∈ _))

/-- One request. There is no value when it does not fit the blocks in use. -/
def request (live : Live) (op : TraceOp) : Option Live :=
  let i := op.index.toNat
  match op.type with
  | .alloc => if live.Uses i then none else some ((i, op.size.toNat) :: live)
  | .realloc => if live.Uses i then some ((i, op.size.toNat) :: live.release i) else none
  | .free => if live.Uses i then some (live.release i) else none

/-- The requests of a trace, in order. -/
def requests (live : Live) (ops : List TraceOp) : Option Live := ops.foldlM request live

/-- Every request fits the blocks in use. -/
def Proper (ops : List TraceOp) : Prop := (requests [] ops).isSome

instance (ops : List TraceOp) : Decidable (Proper ops) := inferInstanceAs (Decidable (_ = true))

/-- The bytes in use. -/
def Live.bytes (live : Live) : ℕ := (live.map Prod.snd).sum

variable {live live' : Live} {i : ℕ} {b : ℕ × ℕ}

theorem mem_release : b ∈ live.release i ↔ b ∈ live ∧ b.1 ≠ i := by
  simp [Live.release]

theorem not_uses_release : ¬ (live.release i).Uses i := by
  intro huses
  obtain ⟨b, hb, heq⟩ := List.mem_map.1 huses
  exact (mem_release.1 hb).2 heq

theorem uses_of_mem (hb : b ∈ live) : live.Uses b.1 := List.mem_map_of_mem hb

/-- Indices stay distinct. -/
theorem release_nodup (h : (live.map Prod.fst).Nodup) :
    ((live.release i).map Prod.fst).Nodup :=
  h.sublist (List.filter_sublist.map _)

section Types

variable {op : TraceOp}

theorem request_of_alloc (htype : op.type = .alloc) : request live op = some live' ↔
    ¬ live.Uses op.index.toNat ∧ (op.index.toNat, op.size.toNat) :: live = live' := by
  rw [request, htype]
  by_cases huses : live.Uses op.index.toNat <;> simp [huses]

theorem request_of_realloc (htype : op.type = .realloc) : request live op = some live' ↔
    live.Uses op.index.toNat ∧
      (op.index.toNat, op.size.toNat) :: live.release op.index.toNat = live' := by
  rw [request, htype]
  by_cases huses : live.Uses op.index.toNat <;> simp [huses]

theorem request_of_free (htype : op.type = .free) : request live op = some live' ↔
    live.Uses op.index.toNat ∧ live.release op.index.toNat = live' := by
  rw [request, htype]
  by_cases huses : live.Uses op.index.toNat <;> simp [huses]

end Types

theorem requests_cons {op : TraceOp} {ops : List TraceOp} :
    requests live (op :: ops) = some live' ↔
      ∃ live₁, request live op = some live₁ ∧ requests live₁ ops = some live' := by
  rw [requests, List.foldlM_cons]
  exact Option.bind_eq_some_iff

end CsappCode.MallocLab.Mdriver
