import Mathlib.Data.Nat.Notation
import Mathlib.Logic.Relation

/-!
# Loops that may not end

A loop is a function `step : σ → σ ⊕ α`: one pass leads to the next state or
leaves the loop with a result.  `run step n` makes at most `n` passes, and
`Returns step s a` says that the loop left from `s` ends with `a`, after
however many passes.

A loop of a program whose variable is never advanced, or that steps over its
limit, does not end, and a model with a fixed amount of fuel would only say
that the fuel was not enough.  Here both are theorems.  A pass changes nothing
about what is returned (`returns_iff_of_step`), so a run is followed forwards,
by `Leads`, to the state it is left from (`Leads.returns`); states that only
lead to one another return nothing (`not_returns_of_invariant`).
-/

namespace StepLoop

variable {σ α : Type*} {step : σ → σ ⊕ α} {s s' s'' : σ} {a b : α}

/-- At most `n` passes through the loop; `none` is that it has not ended by
then. -/
def run (step : σ → σ ⊕ α) : ℕ → σ → Option α
  | 0, _ => none
  | n + 1, s =>
      match step s with
      | .inl s' => run step n s'
      | .inr a => some a

/-- The loop ends, and with `a`.  At most one `a` is returned, as `run` is a
function. -/
def Returns (step : σ → σ ⊕ α) (s : σ) (a : α) : Prop := ∃ n, run step n s = some a

/-- The loop comes from `s` to `s'` without being left in between. -/
def Leads (step : σ → σ ⊕ α) : σ → σ → Prop :=
  Relation.ReflTransGen fun s s' => step s = .inl s'

theorem run_succ_of_step (h : step s = .inl s') (n : ℕ) : run step (n + 1) s = run step n s' := by
  simp only [run, h]

theorem run_succ_of_done (h : step s = .inr a) (n : ℕ) : run step (n + 1) s = some a := by
  simp only [run, h]

/-- The last pass gives the result. -/
theorem returns_iff_of_done (h : step s = .inr a) : Returns step s b ↔ b = a := by
  constructor
  · rintro ⟨n, hn⟩
    cases n with
    | zero => cases hn
    | succ n =>
        rw [run_succ_of_done h] at hn
        exact (Option.some.inj hn).symm
  · rintro rfl
    exact ⟨1, run_succ_of_done h 0⟩

/-- A pass that does not leave the loop leaves the result to the others. -/
theorem returns_iff_of_step (h : step s = .inl s') : Returns step s a ↔ Returns step s' a := by
  constructor
  · rintro ⟨n, hn⟩
    cases n with
    | zero => cases hn
    | succ n =>
        rw [run_succ_of_step h] at hn
        exact ⟨n, hn⟩
  · rintro ⟨n, hn⟩
    exact ⟨n + 1, (run_succ_of_step h n).trans hn⟩

theorem Leads.returns_iff (h : Leads step s s') : Returns step s a ↔ Returns step s' a := by
  induction h with
  | refl => exact Iff.rfl
  | tail _ h ih => exact ih.trans (returns_iff_of_step h)

/-- A loop that is left from somewhere returns that, and nothing else. -/
theorem Leads.returns (h : Leads step s s') (hdone : step s' = .inr a) :
    Returns step s b ↔ b = a := h.returns_iff.trans (returns_iff_of_done hdone)

/-- From states that are only led to one another, nothing is returned: the
loop does not end. -/
theorem not_returns_of_invariant {I : σ → Prop} (hstep : ∀ s, I s → ∃ s', step s = .inl s' ∧ I s')
    (hs : I s) : ¬Returns step s a := by
  rintro ⟨n, hn⟩
  induction n generalizing s with
  | zero => cases hn
  | succ n ih =>
      obtain ⟨s', h, hI⟩ := hstep s hs
      rw [run_succ_of_step h] at hn
      exact ih hI hn

end StepLoop
