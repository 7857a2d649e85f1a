import Mathlib.Data.Option.Basic
import Mathlib.Logic.Basic

/-!
# Sole owners

Parties that hold at most one resource each, of those that are live. The resource may be acquired
when it is not live, passed on, and released.

* `Sole` says that whoever holds a resource is the only one, and that it is live: nobody holds what
  somebody else may release.
* `Sole.acquire`, `Sole.pass` and `Sole.release` are the three events that change who holds what,
  and keep it.

## How it is used

**A proof of no use after release** has two parts: which party holds what after each step of a
program, and that holding is exclusive. The second is the same for every program and stands here. A
step that reads a resource needs to know that its party holds it, and then the resource is live.

**Recycled resources.** A resource that was released may be acquired again, by anybody. `Sole`
speaks of the present only, so this is no special case: the new owner is the only one, because the
old one no longer holds anything.

**Parties** may be threads, calls or places in a buffer, and the types of parties and of resources
are arbitrary. Passing on is from one party to another with nobody in between; a hand-over through a
place in a queue is two steps.
-/

namespace Ownership

variable {P R : Type*}

/-- **Sole ownership.** What a party holds is live, and no other party holds it. -/
structure Sole (holds : P → Option R) (live : R → Prop) : Prop where
  live : ∀ {q r}, holds q = some r → live r
  sole : ∀ {q q' r}, holds q = some r → holds q' = some r → q = q'

variable {holds holds' : P → Option R} {live live' : R → Prop} {q q₁ : P} {r : R}

/-- A party acquires a resource that was not live. -/
theorem Sole.acquire (h : Sole holds live) (hr : ¬ live r) (hq : holds' q = some r)
    (hothers : ∀ q', q' ≠ q → holds' q' = holds q') (hlive : live' r)
    (hmono : ∀ r', live r' → live' r') : Sole holds' live' := by
  have hold : ∀ {q' r'}, holds' q' = some r' → q' = q ∧ r' = r ∨ holds q' = some r' ∧ r' ≠ r := by
    intro q' r' hr'
    rcases eq_or_ne q q' with rfl | hne
    · exact .inl ⟨rfl, Option.some.inj (hr'.symm.trans hq)⟩
    · have hbefore := (hothers q' hne.symm).symm.trans hr'
      exact .inr ⟨hbefore, fun heq ↦ hr (heq ▸ h.live hbefore)⟩
  constructor
  · intro q' r' hr'
    obtain ⟨-, rfl⟩ | ⟨hbefore, -⟩ := hold hr'
    · exact hlive
    · exact hmono r' (h.live hbefore)
  · intro q' q'' r' hr' hr''
    obtain ⟨rfl, heq⟩ | ⟨hbefore, hne⟩ := hold hr' <;>
      obtain ⟨rfl, heq'⟩ | ⟨hbefore', hne'⟩ := hold hr''
    · rfl
    · exact absurd heq hne'
    · exact absurd heq' hne
    · exact h.sole hbefore hbefore'

/-- A party passes what it holds on to another one. -/
theorem Sole.pass (h : Sole holds live) (hq : holds q = some r) (hq' : holds' q = none)
    (hq₁ : holds' q₁ = some r) (hothers : ∀ q', q' ≠ q → q' ≠ q₁ → holds' q' = holds q') :
    Sole holds' live := by
  have hsole : ∀ {q' r'}, holds' q' = some r' → q' ≠ q₁ → holds q' = some r' ∧ q' ≠ q := by
    intro q' r' hr' hne
    have hne' : q' ≠ q := by
      rintro rfl
      rw [hq'] at hr'
      exact absurd hr' (by simp)
    exact ⟨(hothers q' hne' hne).symm.trans hr', hne'⟩
  constructor
  · intro q' r' hr'
    rcases eq_or_ne q₁ q' with rfl | hne
    · obtain rfl := Option.some.inj (hq₁.symm.trans hr')
      exact h.live hq
    · exact h.live (hsole hr' hne.symm).1
  · intro q' q'' r' hr' hr''
    rcases eq_or_ne q₁ q' with rfl | hne <;> rcases eq_or_ne q₁ q'' with rfl | hne'
    · rfl
    · obtain rfl := Option.some.inj (hq₁.symm.trans hr')
      obtain ⟨hbefore, hother⟩ := hsole hr'' hne'.symm
      exact absurd (h.sole hbefore hq) hother
    · obtain rfl := Option.some.inj (hq₁.symm.trans hr'')
      obtain ⟨hbefore, hother⟩ := hsole hr' hne.symm
      exact absurd (h.sole hbefore hq) hother
    · exact h.sole (hsole hr' hne.symm).1 (hsole hr'' hne'.symm).1

/-- A party releases what it holds, which may then no longer be live. -/
theorem Sole.release (h : Sole holds live) (hq : holds q = some r) (hq' : holds' q = none)
    (hothers : ∀ q', q' ≠ q → holds' q' = holds q') (hlive : ∀ r', r' ≠ r → live r' → live' r') :
    Sole holds' live' := by
  have hold : ∀ {q' r'}, holds' q' = some r' → holds q' = some r' ∧ q' ≠ q := by
    intro q' r' hr'
    have hne : q' ≠ q := by
      rintro rfl
      rw [hq'] at hr'
      exact absurd hr' (by simp)
    exact ⟨(hothers q' hne).symm.trans hr', hne⟩
  constructor
  · intro q' r' hr'
    obtain ⟨hbefore, hne⟩ := hold hr'
    exact hlive r' (fun heq ↦ hne (h.sole (heq ▸ hbefore) hq)) (h.live hbefore)
  · intro q' q'' r' hr' hr''
    exact h.sole (hold hr').1 (hold hr'').1

/-- Nobody acquires or releases anything. -/
theorem Sole.congr (h : Sole holds live) (hholds : ∀ q, holds' q = holds q)
    (hlive : ∀ r, live r → live' r) : Sole holds' live' :=
  ⟨fun {q r} hr ↦ hlive r (h.live ((hholds q).symm.trans hr)),
    fun {q q' _} hr hr' ↦ h.sole ((hholds q).symm.trans hr) ((hholds q').symm.trans hr')⟩

end Ownership
