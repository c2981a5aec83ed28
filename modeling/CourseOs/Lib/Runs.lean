import Mathlib.Logic.Relation

/-!
# Runs of a step relation

A run is a chain of steps, `Relation.ReflTransGen Step`.  `invariant` is the
rule all safety results about runs go through: what holds at the start and
survives a step holds in every state reached.  It is used where the steps are
those of several parties and a list of calls would not say who makes them;
where one component answers calls, `Calls` says more.
-/

namespace Runs

variable {σ τ : Type*} {Step : σ → σ → Prop} {s s' : σ}

/-- What every step preserves holds throughout a run. -/
theorem invariant {I : σ → Prop} (hstep : ∀ s s', I s → Step s s' → I s')
    (hrun : Relation.ReflTransGen Step s s') (hs : I s) : I s' := by
  induction hrun with
  | refl => exact hs
  | tail _ h ih => exact hstep _ _ ih h

end Runs
