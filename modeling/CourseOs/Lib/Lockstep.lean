import Mathlib.Data.List.Basic

/-!
# Two machines in lockstep

A machine answers requests: `step s i` is the new state and the answer, or the
error that stops the machine.  `answers` is what a list of requests is
answered, up to and including the first error.

Two machines whose steps agree on related states (`SameOutcome`) answer every
list alike (`answers_eq`).  Nothing is asked about the states themselves: a
machine that keeps its state in another form, or keeps more of it, is the same
to its callers.  `SameOutcome.join` composes two comparisons with a common
third machine, which is how two layouts of one structure are compared when
neither is the simpler one.
-/

namespace Lockstep

variable {σ τ υ ι α ε : Type*} {R : σ → τ → Prop} {P : ι → Prop}

/-- The answers to a list of requests, up to and including the first error.
This is all that a client of the machine sees. -/
def answers (step : σ → ι → Except ε (σ × α)) : σ → List ι → List (Except ε α)
  | _, [] => []
  | s, i :: is =>
      match step s i with
      | .ok (s', a) => .ok a :: answers step s' is
      | .error e => [.error e]

/-- Both outcomes are errors, the same, or both are the same answer with
related states.  Neither machine may go on where the other stops. -/
inductive SameOutcome (R : σ → τ → Prop) : Except ε (σ × α) → Except ε (τ × α) → Prop
  | ok {s : σ} {t : τ} (a : α) (h : R s t) : SameOutcome R (.ok (s, a)) (.ok (t, a))
  | error (e : ε) : SameOutcome R (.error e) (.error e)

/-- Two machines with the outcomes of a third have the same outcome. -/
theorem SameOutcome.join {R₁ : σ → υ → Prop} {R₂ : τ → υ → Prop} {x : Except ε (σ × α)}
    {y : Except ε (τ × α)} {z : Except ε (υ × α)} (h₁ : SameOutcome R₁ x z)
    (h₂ : SameOutcome R₂ y z) : SameOutcome (fun s t => ∃ w, R₁ s w ∧ R₂ t w) x y := by
  cases h₁ with
  | ok a h =>
      cases h₂ with
      | ok _ h' => exact .ok a ⟨_, h, h'⟩
  | error e =>
      cases h₂ with
      | error _ => exact .error e

/-- **Machines in lockstep give the same answers**, to requests that satisfy
`P`.  The errors are part of the answers, so they also stop at the same
request. -/
theorem answers_eq {step : σ → ι → Except ε (σ × α)} {step' : τ → ι → Except ε (τ × α)}
    (hstep : ∀ s t i, R s t → P i → SameOutcome R (step s i) (step' t i)) :
    ∀ (is : List ι) (s : σ) (t : τ), R s t → (∀ i ∈ is, P i) →
      answers step s is = answers step' t is := by
  intro is
  induction is with
  | nil => exact fun _ _ _ _ => rfl
  | cons i is ih =>
      intro s t hR hP
      have hout := hstep s t i hR (hP i List.mem_cons_self)
      unfold answers
      generalize step s i = x at hout
      generalize step' t i = y at hout
      cases hout with
      | ok a hR' => exact congrArg _ (ih _ _ hR' fun j hj => hP j (List.mem_cons_of_mem i hj))
      | error e => rfl

/-- The first answer. -/
theorem answers_singleton (step : σ → ι → Except ε (σ × α)) (s : σ) (i : ι) :
    answers step s [i] = [(step s i).map Prod.snd] := by
  unfold answers
  cases step s i with
  | ok x => rfl
  | error e => rfl

end Lockstep
