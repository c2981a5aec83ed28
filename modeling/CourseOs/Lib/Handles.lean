import Mathlib.Data.Nat.Notation
import Mathlib.Logic.Function.Basic

/-!
# Cells with one owner

A heap is a partial function from addresses to what the cells hold; an owner
points at one cell, or, with the address 0, at none.  Objects that each keep
their data in a block of their own, which they grow by moving to a new one,
are of this kind.

## Main definitions

* `Apart target cells` — what the owners point at is allocated, and no cell
  has two of them.
* `Tight target cells` — each allocated cell has an owner, so nothing has been
  lost.
* `Assigns` — one pointer changes, and only the cells at its old and at its
  new address.

## Main results

Everything an owner does with its cell (write it, give it up, move to a fresh
one) is a change of its own pointer, and of the cells at the old and at the
new address.  `Apart.assign` has what follows: the owners stay apart, the
cells of the others are as they were, and the heap is tight afterwards exactly
when it was before and the old cell is kept or freed
(`Apart.tight_assign_iff`).  The last is an equivalence, so it tells a routine
that leaks from one that does not.
-/

namespace Handles

variable {K B : Type*} {target : K → ℕ} {cells cells' : ℕ → Option B} {k : K} {a : ℕ}

/-- Every pointer is null or to a cell, and no two to the same one.  There is
never a cell at null. -/
structure Apart (target : K → ℕ) (cells : ℕ → Option B) : Prop where
  null : cells 0 = none
  live : ∀ k, target k ≠ 0 → (cells (target k)).isSome
  distinct : ∀ k k', target k = target k' → target k ≠ 0 → k = k'

/-- Every cell has an owner, so that nothing was leaked. -/
def Tight (target : K → ℕ) (cells : ℕ → Option B) : Prop :=
  ∀ a, (cells a).isSome → ∃ k, target k = a

/-- The pointer of `k` becomes `a`, and only the cells there and at its old
address change.  A cell at a new address was free before. -/
structure Assigns (target : K → ℕ) (cells : ℕ → Option B) (k : K) (a : ℕ)
    (cells' : ℕ → Option B) : Prop where
  null : cells' 0 = none
  frame : ∀ c, c ≠ target k → c ≠ a → cells' c = cells c
  live : a ≠ 0 → (cells' a).isSome
  fresh : a ≠ 0 → a ≠ target k → cells a = none

namespace Apart

variable (h : Apart target cells) (hk : Assigns target cells k a cells')

include h hk

/-- The cells of the others. -/
theorem assign_other {k' : K} (hne : k' ≠ k) : cells' (target k') = cells (target k') := by
  by_cases hzero : target k' = 0
  · rw [hzero, hk.null, h.null]
  · refine hk.frame _ (fun heq => hne (h.distinct k' k heq hzero)) fun heq => ?_
    -- the address was allocated already
    have hlive := h.live k' hzero
    by_cases hsame : a = target k
    · exact hne (h.distinct k' k (heq.trans hsame) hzero)
    · rw [heq, hk.fresh (heq ▸ hzero) hsame] at hlive
      cases hlive

/-- No other points at the new address. -/
theorem assign_ne {k' : K} (hne : k' ≠ k) (ha : a ≠ 0) : target k' ≠ a := by
  intro heq
  have hzero : target k' ≠ 0 := heq ▸ ha
  by_cases hsame : a = target k
  · exact hne (h.distinct k' k (heq.trans hsame) hzero)
  · have hlive := h.live k' hzero
    rw [heq, hk.fresh ha hsame] at hlive
    cases hlive

variable [DecidableEq K]

theorem assign : Apart (Function.update target k a) cells' where
  null := hk.null
  live k' := by
    by_cases hkk : k' = k
    · rw [hkk, Function.update_self]
      exact hk.live
    · rw [Function.update_of_ne hkk, h.assign_other hk hkk]
      exact h.live k'
  distinct k₁ k₂ := by
    by_cases h₁ : k₁ = k
    · by_cases h₂ : k₂ = k
      · exact fun _ _ => h₁.trans h₂.symm
      · rw [h₁, Function.update_self, Function.update_of_ne h₂]
        exact fun heq ha => absurd heq.symm (h.assign_ne hk h₂ ha)
    · by_cases h₂ : k₂ = k
      · rw [h₂, Function.update_self, Function.update_of_ne h₁]
        exact fun heq ha => absurd heq (h.assign_ne hk h₁ (heq ▸ ha))
      · rw [Function.update_of_ne h₁, Function.update_of_ne h₂]
        exact h.distinct k₁ k₂

/-- **Nothing is lost** exactly when the old cell is kept or freed.  Only the
handle assigned to had owned it, and every other cell is owned as before. -/
theorem tight_assign_iff : Tight (Function.update target k a) cells' ↔
    Tight target cells ∧ (a = target k ∨ cells' (target k) = none) := by
  constructor
  · intro htight
    refine ⟨fun c hc => ?_, or_iff_not_imp_left.mpr fun hne => ?_⟩
    · by_cases hck : c = target k
      · exact ⟨k, hck.symm⟩
      · have hca : c ≠ a := by
          rintro rfl
          by_cases hzero : c = 0
          · rw [hzero, h.null] at hc
            cases hc
          · rw [hk.fresh hzero hck] at hc
            cases hc
        obtain ⟨k', hk'⟩ := htight c (by rw [hk.frame c hck hca]; exact hc)
        by_cases hkk : k' = k
        · rw [hkk, Function.update_self] at hk'
          exact absurd hk'.symm hca
        · rw [Function.update_of_ne hkk] at hk'
          exact ⟨k', hk'⟩
    · refine Option.not_isSome_iff_eq_none.mp fun hsome => ?_
      obtain ⟨k', hk'⟩ := htight _ hsome
      by_cases hkk : k' = k
      · rw [hkk, Function.update_self] at hk'
        exact hne hk'
      · rw [Function.update_of_ne hkk] at hk'
        refine hkk (h.distinct k' k hk' fun hzero => ?_)
        rw [← hk', hzero, hk.null] at hsome
        cases hsome
  · rintro ⟨htight, hold⟩ c hc
    by_cases hca : c = a
    · exact ⟨k, by rw [Function.update_self, hca]⟩
    · by_cases hck : c = target k
      · rcases hold with rfl | hnone
        · exact absurd hck hca
        · rw [hck, hnone] at hc
          cases hc
      · obtain ⟨k', hk'⟩ := htight c (by rw [← hk.frame c hck hca]; exact hc)
        have hkk : k' ≠ k := by
          rintro rfl
          exact hck hk'.symm
        exact ⟨k', by rw [Function.update_of_ne hkk, hk']⟩

end Apart

end Handles
