import Mathlib.Logic.Basic

/-!
# Routines that return exactly under a condition

A routine that can fail is an `Except`.  A triple "if it returns, then …" is
also met by a routine that never returns, and says nothing about why a routine
stops.  `Outcome E p x` says both: the routine `x` returns if `p` holds, and
stops with an error that satisfies `E` if `p` does not.

## Main definitions

* `Outcome E p x` — `x` returns under `p`, and fails with an error in `E`
  otherwise.

## Main results

* `Outcome.bind` — the sequence of two routines returns under the conjunction
  of their conditions, where the second condition may depend on the first
  routine having returned;
* `Outcome.returns_iff` — the condition is exact.

Outcomes are proved along a routine, one rule for each way it is put together,
and used once, at the end of a run.
-/

universe u v

variable {ε : Type u} {α β : Type v} {E : ε → Prop} {p q : Prop} {x : Except ε α}
  {f : α → Except ε β} {a : α} {e : ε}

/-- The routine returns if `p` holds, and else stops with an error that
satisfies `E`. -/
inductive Outcome (E : ε → Prop) (p : Prop) : Except ε α → Prop
  | returns {a : α} (hp : p) : Outcome E p (.ok a)
  | stops {e : ε} (he : E e) (hp : ¬p) : Outcome E p (.error e)

namespace Outcome

/-- A routine without failures. -/
theorem ok : Outcome E True (.ok a : Except ε α) := .returns trivial

/-- The condition in other words. -/
theorem congr (h : Outcome E p x) (hpq : p ↔ q) : Outcome E q x := by
  cases h with
  | returns hp => exact .returns (hpq.mp hp)
  | stops he hp => exact .stops he (mt hpq.mpr hp)

/-- **A sequence** returns when both its parts do. -/
theorem bind (h : Outcome E p x) (hf : ∀ a, x = .ok a → Outcome E q (f a)) :
    Outcome E (p ∧ q) (x >>= f) := by
  cases h with
  | returns hp => exact (hf _ rfl).congr (and_iff_right hp).symm
  | stops he hp => exact .stops he fun hpq => hp hpq.1

/-- A sequence whose second part always returns. -/
theorem bind_ok (h : Outcome E p x) (hf : ∀ a, x = .ok a → ∃ b, f a = .ok b) :
    Outcome E p (x >>= f) := by
  refine (h.bind (q := True) fun a ha => ?_).congr (and_iff_left trivial)
  obtain ⟨b, hb⟩ := hf a ha
  rw [hb]
  exact ok

/-- The condition is exact. -/
theorem returns_iff (h : Outcome E p x) : (∃ a, x = .ok a) ↔ p := by
  cases h with
  | returns hp => exact iff_of_true ⟨_, rfl⟩ hp
  | stops he hp => exact iff_of_false nofun hp

theorem of_ok (h : Outcome E p x) (hx : x = .ok a) : p := h.returns_iff.mp ⟨a, hx⟩

theorem of_error (h : Outcome E p x) (hx : x = .error e) : E e ∧ ¬p := by
  cases h with
  | returns hp => cases hx
  | stops he hp =>
      cases hx
      exact ⟨he, hp⟩

end Outcome
