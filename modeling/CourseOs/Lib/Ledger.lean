import Mathlib.Data.Set.Card

/-!
# Ledgers

A ledger is a partial function from keys to values.  It is `Simple` when no
value is entered under two keys: a table that hands out each of its values
once is of this kind, with the holders for keys.

## Main definitions

* `keys f`, `values f` — the keys under which something is entered, and what
  is entered.
* `Simple f` — no value is entered under two keys.

## Main results

Entering a value that is not there, and striking one out, keep a ledger simple
(`Simple.enter`, `Simple.strike`), and say what becomes of the set of values
(`values_enter`, `Simple.values_strike`, `Simple.values_replace`).  A simple
ledger has as many values as keys (`Simple.ncard_values`), so a count of the
holders is a count of what they hold.
-/

namespace Ledger

variable {K V : Type*} {f : K → Option V} {k : K} {v w : V}

/-- The keys under which a value is entered. -/
def keys (f : K → Option V) : Set K := {k | f k ≠ none}

/-- The values entered, under any key. -/
def values (f : K → Option V) : Set V := {v | ∃ k, f k = some v}

/-- No value is entered twice: what is handed out once has one holder. -/
def Simple (f : K → Option V) : Prop := ∀ k k' v, f k = some v → f k' = some v → k = k'

theorem mem_values (h : f k = some v) : v ∈ values f := ⟨k, h⟩

@[simp] theorem values_none : values (fun _ : K => (none : Option V)) = ∅ := by
  ext v
  exact iff_of_false (fun ⟨_, h⟩ => nomatch h) id

theorem simple_none : Simple (fun _ : K => (none : Option V)) := fun _ _ _ h => nomatch h

section Update

variable [DecidableEq K]

/-- An entry under a free key. -/
theorem values_enter (hk : f k = none) :
    values (Function.update f k (some v)) = insert v (values f) := by
  ext w
  rw [Set.mem_insert_iff]
  constructor
  · rintro ⟨k', h⟩
    by_cases hkk : k' = k
    · subst hkk
      rw [Function.update_self] at h
      exact .inl (Option.some.inj h).symm
    · rw [Function.update_of_ne hkk] at h
      exact .inr ⟨k', h⟩
  · rintro (rfl | ⟨k', h⟩)
    · exact ⟨k, Function.update_self ..⟩
    · refine ⟨k', (Function.update_of_ne ?_ ..).trans h⟩
      rintro rfl
      rw [hk] at h
      cases h

/-- An entry struck out. -/
theorem Simple.values_strike (h : Simple f) (hk : f k = some v) :
    values (Function.update f k none) = values f \ {v} := by
  ext w
  rw [Set.mem_sdiff, Set.mem_singleton_iff]
  constructor
  · rintro ⟨k', hk'⟩
    by_cases hkk : k' = k
    · subst hkk
      rw [Function.update_self] at hk'
      cases hk'
    · rw [Function.update_of_ne hkk] at hk'
      refine ⟨⟨k', hk'⟩, ?_⟩
      rintro rfl
      exact hkk (h k' k w hk' hk)
  · rintro ⟨⟨k', hk'⟩, hne⟩
    refine ⟨k', (Function.update_of_ne ?_ ..).trans hk'⟩
    rintro rfl
    exact hne (Option.some.inj (hk'.symm.trans hk))

/-- A value entered that is not in the ledger, whatever was under the key. -/
theorem Simple.enter (h : Simple f) (hv : v ∉ values f) :
    Simple (Function.update f k (some v)) := by
  intro k₁ k₂ w h₁ h₂
  by_cases hk₁ : k₁ = k
  · by_cases hk₂ : k₂ = k
    · exact hk₁.trans hk₂.symm
    · rw [hk₁, Function.update_self] at h₁
      rw [Function.update_of_ne hk₂, ← h₁] at h₂
      exact absurd (mem_values h₂) hv
  · rw [Function.update_of_ne hk₁] at h₁
    by_cases hk₂ : k₂ = k
    · rw [hk₂, Function.update_self] at h₂
      rw [← h₂] at h₁
      exact absurd (mem_values h₁) hv
    · rw [Function.update_of_ne hk₂] at h₂
      exact h k₁ k₂ w h₁ h₂

theorem Simple.strike (h : Simple f) : Simple (Function.update f k none) := by
  intro k₁ k₂ w h₁ h₂
  have hold : ∀ k', Function.update f k none k' = some w → f k' = some w := by
    intro k' hk'
    by_cases hkk : k' = k
    · rw [hkk, Function.update_self] at hk'
      cases hk'
    · rwa [Function.update_of_ne hkk] at hk'
  exact h k₁ k₂ w (hold k₁ h₁) (hold k₂ h₂)

/-- A value entered for another: the old one is in the ledger no longer, as it
was nowhere else. -/
theorem Simple.values_replace (h : Simple f) (hk : f k = some w) :
    values (Function.update f k (some v)) = insert v (values f \ {w}) := by
  rw [← h.values_strike hk, ← values_enter (Function.update_self k none f), Function.update_idem]

end Update

/-- As many values as keys. -/
theorem Simple.ncard_values (h : Simple f) : (values f).ncard = (keys f).ncard := by
  refine (Set.ncard_congr (fun k hk => (f k).get (Option.isSome_iff_ne_none.mpr hk)) ?_ ?_ ?_).symm
  · intro k hk
    exact ⟨k, (Option.some_get _).symm⟩
  · intro k k' hk hk' heq
    refine h k k' _ (Option.some_get (Option.isSome_iff_ne_none.mpr hk)).symm ?_
    rw [heq]
    exact (Option.some_get _).symm
  · rintro v ⟨k, hk⟩
    have hne : k ∈ keys f := fun h0 => by rw [hk] at h0; cases h0
    exact ⟨k, hne, Option.get_of_eq_some _ hk⟩

end Ledger
