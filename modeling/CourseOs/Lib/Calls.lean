import Mathlib.Data.List.Basic

/-!
# Runs of calls

A component answers calls: `step i s` is the state after call `i` and what it
returns, or the error that stops it.  This module has what is said about lists
of such calls, so that a development only proves what one call does.

## Main definitions

* `run` — makes a list of calls, and stops at the first that does not return.
* `Each P` — every call of the list satisfies `P` in the state it is made in,
  as far as the calls return.  Conditions that depend on the state (a pointer
  that is live, a handle that is open) can only be stated in this way.
* `States I` — every state of the run satisfies `I`, the last one too.
* `reference` — what a reference, which answers every call, makes of the list.
* `Faithful` — every call of the run returns what the reference returns, in
  related states.
* `Accepts` — a run that a specification allows, where the specification is a
  relation and may leave the result open.

## Main results

* `invariant`, `preserved`, `states_of_invariant` — what one call keeps holds
  at the end of a run, or in all of its states.
* `simulation`, `simulated`, `faithful` — a forward simulation of calls is one
  of runs; the three differ in whether calls are known to return, and in how
  much of the run the conclusion speaks about.
* `refined`, `accepted`, `mapped` — the same for specifications that are
  relations.
* `states_iff_each`, `states_iff`, `exact` — equivalences are lifted as well:
  where a call leaves a good state, or is right, exactly when it satisfies a
  condition, all states of a run are good, or right, exactly when all its
  calls satisfy it.
* `tracked_or_stopped` — the same with a ghost beside the state, and with what
  stops a run.

The results that assume that the run returned come in pairs with those that
prove it.  The first are for components that can stop for a good reason, and
are then joined with a statement about when they stop; the second should be
used wherever they can be had.
-/

namespace Calls

variable {σ τ ι α ε : Type*} {step : ι → σ → Except ε (σ × α)} {ref : ι → τ → τ × α}
  {P F A Q : ι → σ → Prop} {R : σ → τ → Prop} {I : σ → Prop}
  {i : ι} {is : List ι} {s s' s'' : σ} {t : τ} {a : α} {as : List α}

/-- The calls one after the other, with what they return.  The first call that
does not return stops the run, and what was returned before it is given up. -/
def run (step : ι → σ → Except ε (σ × α)) : List ι → σ → Except ε (σ × List α)
  | [], s => .ok (s, [])
  | i :: is, s =>
      match step i s with
      | .error e => .error e
      | .ok (s, a) =>
          match run step is s with
          | .error e => .error e
          | .ok (s, as) => .ok (s, a :: as)

/-- Each call satisfies `P` in the state it is made in.  Behind a call that
does not return there is no state, and nothing is asked. -/
def Each (step : ι → σ → Except ε (σ × α)) (P : ι → σ → Prop) : List ι → σ → Prop
  | [], _ => True
  | i :: is, s => P i s ∧ ∀ s' a, step i s = .ok (s', a) → Each step P is s'

/-- Each state satisfies `I`, the last one too.  Behind a call that does not
return there are no further states. -/
def States (step : ι → σ → Except ε (σ × α)) (I : σ → Prop) : List ι → σ → Prop
  | [], s => I s
  | i :: is, s => I s ∧ ∀ s' a, step i s = .ok (s', a) → States step I is s'

/-- The calls on the reference, which always returns. -/
def reference (ref : ι → τ → τ × α) : List ι → τ → τ × List α
  | [], t => (t, [])
  | i :: is, t =>
      ((reference ref is (ref i t).1).1, (ref i t).2 :: (reference ref is (ref i t).1).2)

/-- Whether each call satisfies `P` is found by making the calls, up to the
first one that stops. -/
instance Each.decidable [∀ i s, Decidable (P i s)] : ∀ is s, Decidable (Each step P is s)
  | [], _ => .isTrue trivial
  | i :: is, s =>
      match hi : step i s with
      | .error _ => decidable_of_iff (P i s)
          ⟨fun hP => ⟨hP, fun _ _ hrun => nomatch hi.symm.trans hrun⟩, And.left⟩
      | .ok (s₁, a) =>
          have := Each.decidable is s₁
          decidable_of_iff (P i s ∧ Each step P is s₁)
            ⟨fun h => ⟨h.1, fun s' a' hrun => by
              cases hi.symm.trans hrun
              exact h.2⟩, fun h => ⟨h.1, h.2 s₁ a hi⟩⟩

theorem run_cons (h : step i s = .ok (s', a)) (hrest : run step is s' = .ok (s'', as)) :
    run step (i :: is) s = .ok (s'', a :: as) := by
  unfold run
  rw [h]
  dsimp only
  rw [hrest]

/-- A run that returns has returned from each call. -/
theorem exists_of_run_cons (h : run step (i :: is) s = .ok (s'', as)) :
    ∃ s' a as', step i s = .ok (s', a) ∧ run step is s' = .ok (s'', as') := by
  unfold run at h
  cases hi : step i s with
  | error e =>
      rw [hi] at h
      cases h
  | ok r =>
      obtain ⟨s', a⟩ := r
      rw [hi] at h
      dsimp only at h
      cases hrest : run step is s' with
      | error e =>
          rw [hrest] at h
          cases h
      | ok r =>
          obtain ⟨s₂, as₂⟩ := r
          rw [hrest] at h
          cases h
          exact ⟨s', a, as₂, rfl, hrest⟩

theorem States.first (h : States step I is s) : I s := by
  cases is with
  | nil => exact h
  | cons i is => exact h.1

/-- What every call that satisfies `P` keeps, and returns from, holds at the
end of a run.  The run is shown to return. -/
theorem invariant (hstep : ∀ i s, I s → P i s → ∃ s' a, step i s = .ok (s', a) ∧ I s')
    (hs : I s) (his : Each step P is s) : ∃ s' as, run step is s = .ok (s', as) ∧ I s' := by
  induction is generalizing s with
  | nil => exact ⟨s, [], rfl, hs⟩
  | cons i is ih =>
      obtain ⟨s₁, a, hrun, h₁⟩ := hstep i s hs his.1
      obtain ⟨s', as, hrest, h'⟩ := ih h₁ (his.2 s₁ a hrun)
      exact ⟨s', a :: as, run_cons hrun hrest, h'⟩

/-- **A forward simulation of calls** is one of runs: they return, with what
the reference returns, and the states are related at the end. -/
theorem simulation (hstep : ∀ i s t, R s t → A i s →
      ∃ s', step i s = .ok (s', (ref i t).2) ∧ R s' (ref i t).1)
    (hs : R s t) (his : Each step A is s) :
    ∃ s', run step is s = .ok (s', (reference ref is t).2) ∧ R s' (reference ref is t).1 := by
  induction is generalizing s t with
  | nil => exact ⟨s, rfl, hs⟩
  | cons i is ih =>
      obtain ⟨s₁, hrun, h₁⟩ := hstep i s t hs his.1
      obtain ⟨s', hrest, h'⟩ := ih h₁ (his.2 s₁ _ hrun)
      exact ⟨s', run_cons hrun hrest, h'⟩

/-- The same for calls that need not return: a run that does returns what the
reference returns. -/
theorem simulated (hstep : ∀ i s t s' a, R s t → A i s → step i s = .ok (s', a) →
      a = (ref i t).2 ∧ R s' (ref i t).1)
    (hs : R s t) (his : Each step A is s) (hrun : run step is s = .ok (s', as)) :
    as = (reference ref is t).2 ∧ R s' (reference ref is t).1 := by
  induction is generalizing s t as with
  | nil =>
      cases hrun
      exact ⟨rfl, hs⟩
  | cons i is ih =>
      obtain ⟨s₁, a, as₁, hi, hrest⟩ := exists_of_run_cons hrun
      obtain ⟨rfl, h₁⟩ := hstep i s t s₁ a hs his.1 hi
      obtain ⟨rfl, h'⟩ := ih h₁ (his.2 s₁ _ hi) hrest
      cases (run_cons hi hrest).symm.trans hrun
      exact ⟨rfl, h'⟩

/-- What every call that satisfies `P`, and returns, keeps, holds where a run
returns. -/
theorem preserved (hstep : ∀ i s s' a, I s → P i s → step i s = .ok (s', a) → I s')
    (hs : I s) (his : Each step P is s) (hrun : run step is s = .ok (s', as)) : I s' := by
  induction is generalizing s as with
  | nil =>
      cases hrun
      exact hs
  | cons i is ih =>
      obtain ⟨s₁, a, as₁, hi, hrest⟩ := exists_of_run_cons hrun
      exact ih (hstep i s s₁ a hs his.1 hi) (his.2 s₁ a hi) hrest

/-- What every call that satisfies `P`, and returns, keeps, holds in every
state of a run. -/
theorem states_of_invariant {G : σ → Prop}
    (hstep : ∀ i s s' a, I s → P i s → step i s = .ok (s', a) → I s') (hgood : ∀ s, I s → G s)
    (hs : I s) (his : Each step P is s) : States step G is s := by
  induction is generalizing s with
  | nil => exact hgood s hs
  | cons i is ih =>
      exact ⟨hgood s hs, fun s' a hrun => ih (hstep i s s' a hs his.1 hrun) (his.2 s' a hrun)⟩

/-- The same with a ghost beside the state, for calls that stop where they do
not satisfy `P`, with an error that satisfies `E`.  What holds of the ghost at
the end of a run is what held at the start, and `P` of every call; and a run
stops only at a call that does not satisfy it.  The ghost may be chosen as the
run goes on. -/
theorem tracked_or_stopped {γ : Type*} {T : σ → γ → Prop} {G : γ → Prop} {E : ε → Prop} {g : γ}
    (hstep : ∀ i s g, T s g → A i s →
      (∃ s' a g', step i s = .ok (s', a) ∧ T s' g' ∧ (G g' ↔ G g ∧ P i s)) ∨
        ∃ e, step i s = .error e ∧ E e ∧ ¬P i s)
    (hs : T s g) (his : Each step A is s) :
    (∃ s' as g', run step is s = .ok (s', as) ∧ T s' g' ∧ (G g' ↔ G g ∧ Each step P is s)) ∨
      ∃ e, run step is s = .error e ∧ E e ∧ ¬Each step P is s := by
  induction is generalizing s g with
  | nil => exact .inl ⟨s, [], g, rfl, hs, (and_iff_left trivial).symm⟩
  | cons i is ih =>
      rcases hstep i s g hs his.1 with ⟨s₁, a, g₁, hi, h₁, hiff₁⟩ | ⟨e, hi, he, hno⟩
      · -- what the call and the rest have to satisfy
        have heach : Each step P (i :: is) s ↔ P i s ∧ Each step P is s₁ := by
          refine and_congr_right' ⟨fun hall => hall s₁ a hi, fun hall s' a' hrun => ?_⟩
          cases hi.symm.trans hrun
          exact hall
        rcases ih h₁ (his.2 s₁ a hi) with ⟨s', as, g', hrest, h', hiff⟩ | ⟨e, hrest, he, hno⟩
        · refine .inl ⟨s', a :: as, g', run_cons hi hrest, h', hiff.trans ?_⟩
          rw [hiff₁, and_assoc, heach]
        · refine .inr ⟨e, ?_, he, fun hall => hno (heach.mp hall).2⟩
          unfold run
          rw [hi]
          dsimp only
          rw [hrest]
      · refine .inr ⟨e, ?_, he, fun hall => hno hall.1⟩
        unfold run
        rw [hi]

/-- **Good states** are left by the calls that satisfy `P`, among those
allowed: then they are all states of the runs whose calls satisfy `P`.  Calls
that do not return count as such, which `hstop` is for. -/
theorem states_iff_each {G : σ → Prop}
    (hstep : ∀ i s s' a, I s → G s → A i s → step i s = .ok (s', a) → I s' ∧ (G s' ↔ P i s))
    (hstop : ∀ i s, I s → G s → A i s → (∀ r, step i s ≠ .ok r) → P i s)
    (hs : I s) (hgood : G s) (his : Each step A is s) :
    States step G is s ↔ Each step P is s := by
  induction is generalizing s with
  | nil => exact iff_of_true hgood trivial
  | cons i is ih =>
      obtain ⟨hi, hrest⟩ := his
      have hnext := fun s' a (hrun : step i s = .ok (s', a)) => hstep i s s' a hs hgood hi hrun
      constructor
      · rintro ⟨-, hall⟩
        refine ⟨?_, fun s' a hrun => ?_⟩
        · by_cases hreturns : ∃ r, step i s = .ok r
          · obtain ⟨⟨s', a⟩, hrun⟩ := hreturns
            exact (hnext s' a hrun).2.mp (hall s' a hrun).first
          · exact hstop i s hs hgood hi fun r hr => hreturns ⟨r, hr⟩
        · have hs' := hall s' a hrun
          exact (ih (hnext s' a hrun).1 hs'.first (hrest s' a hrun)).mp hs'
      · rintro ⟨hP, hall⟩
        refine ⟨hgood, fun s' a hrun => ?_⟩
        obtain ⟨hI, hiff⟩ := hnext s' a hrun
        exact (ih hI (hiff.mpr hP) (hrest s' a hrun)).mpr (hall s' a hrun)

/-- The same, with a condition on the calls that return.  Calls that stop
leave no state to speak about. -/
theorem states_iff {G : σ → Prop}
    (hstep : ∀ i s s' a, I s → G s → A i s → step i s = .ok (s', a) → I s' ∧ (G s' ↔ P i s))
    (hs : I s) (hgood : G s) (his : Each step A is s) :
    States step G is s ↔ Each step (fun i s => (∃ r, step i s = .ok r) → P i s) is s := by
  refine states_iff_each (fun i s s' a hI hG hA hrun => ?_) (fun i s _ _ _ hstop => ?_) hs hgood his
  · obtain ⟨hI', hiff⟩ := hstep i s s' a hI hG hA hrun
    exact ⟨hI', hiff.trans ⟨fun hP _ => hP, fun himp => himp ⟨_, hrun⟩⟩⟩
  · exact fun ⟨r, hr⟩ => absurd hr (hstop r)

/-- Every state of the run is related to that of the reference, and every call
satisfies `Q` and returns what it returns there.  Stated along the list, so
that nothing is hidden in the middle of a run. -/
def Faithful (step : ι → σ → Except ε (σ × α)) (ref : ι → τ → τ × α) (R : σ → τ → Prop)
    (Q : ι → σ → Prop) : List ι → σ → τ → Prop
  | [], s, t => R s t
  | i :: is, s, t => R s t ∧ Q i s ∧
      ∃ s', step i s = .ok (s', (ref i t).2) ∧ Faithful step ref R Q is s' (ref i t).1

theorem Faithful.first (h : Faithful step ref R Q is s t) : R s t := by
  cases is with
  | nil => exact h
  | cons i is => exact h.1

/-- **A simulation of calls** that satisfy `A`, with what every such call
satisfies. -/
theorem faithful (hstep : ∀ i s t, R s t → A i s →
      Q i s ∧ ∃ s', step i s = .ok (s', (ref i t).2) ∧ R s' (ref i t).1)
    (hs : R s t) (his : Each step A is s) : Faithful step ref R Q is s t := by
  induction is generalizing s t with
  | nil => exact hs
  | cons i is ih =>
      obtain ⟨hQ, s', hrun, h'⟩ := hstep i s t hs his.1
      exact ⟨hs, hQ, s', hrun, ih h' (his.2 s' _ hrun)⟩

/-- **An equivalence for calls** is one for runs: where a call is answered as
on the reference just when it satisfies `F`, a run is faithful just when all
its calls do. -/
theorem exact (hstep : ∀ i s t, R s t → A i s →
      ((Q i s ∧ ∃ s', step i s = .ok (s', (ref i t).2) ∧ R s' (ref i t).1) ↔ F i s))
    (hs : R s t) (his : Each step A is s) :
    Faithful step ref R Q is s t ↔ Each step F is s := by
  induction is generalizing s t with
  | nil => exact iff_of_true hs trivial
  | cons i is ih =>
      obtain ⟨hi, hrest⟩ := his
      constructor
      · rintro ⟨-, hQ, s', hrun, hfaithful⟩
        refine ⟨(hstep i s t hs hi).mp ⟨hQ, s', hrun, hfaithful.first⟩, fun s'' a hrun' => ?_⟩
        cases hrun.symm.trans hrun'
        exact (ih hfaithful.first (hrest s' _ hrun)).mp hfaithful
      · rintro ⟨hF, hall⟩
        obtain ⟨hQ, s', hrun, h'⟩ := (hstep i s t hs hi).mpr hF
        exact ⟨hs, hQ, s', hrun, (ih h' (hrest s' _ hrun)).mpr (hall s' _ hrun)⟩

/-! ### Specifications that are relations

Where the specification leaves something open, such as which address a new
object gets, it is a relation, and a run is accepted if each of its calls is. -/

/-- A run that the specification allows: `spec i t a t'` says that call `i`
may return `a` in `t` and leave `t'`. -/
inductive Accepts (spec : ι → τ → α → τ → Prop) : List ι → τ → List α → τ → Prop
  | nil (t : τ) : Accepts spec [] t [] t
  | cons {i : ι} {is : List ι} {t t' t'' : τ} {a : α} {as : List α} (h : spec i t a t')
      (hrest : Accepts spec is t' as t'') : Accepts spec (i :: is) t (a :: as) t''

/-- **A refinement of calls** is one of runs.  The specification is a
relation, so that it may leave choices open. -/
theorem refined {spec : ι → τ → α → τ → Prop}
    (hstep : ∀ i s t, R s t → A i s →
      ∃ s' a t', step i s = .ok (s', a) ∧ R s' t' ∧ spec i t a t')
    (hs : R s t) (his : Each step A is s) :
    ∃ s' as t', run step is s = .ok (s', as) ∧ R s' t' ∧ Accepts spec is t as t' := by
  induction is generalizing s t with
  | nil => exact ⟨s, [], t, rfl, hs, .nil t⟩
  | cons i is ih =>
      obtain ⟨s₁, a, t₁, hrun, h₁, hspec⟩ := hstep i s t hs his.1
      obtain ⟨s', as, t', hrest, h', haccepts⟩ := ih h₁ (his.2 s₁ a hrun)
      exact ⟨s', a :: as, t', run_cons hrun hrest, h', .cons hspec haccepts⟩

/-- The same for calls that need not return: a run that does is one that the
specification allows, with the specification's state related to the last one. -/
theorem accepted {spec : ι → τ → α → τ → Prop}
    (hstep : ∀ i s t s' a, R s t → A i s → step i s = .ok (s', a) → ∃ t', R s' t' ∧ spec i t a t')
    (hs : R s t) (his : Each step A is s) (hrun : run step is s = .ok (s', as)) :
    ∃ t', R s' t' ∧ Accepts spec is t as t' := by
  induction is generalizing s t as with
  | nil =>
      cases hrun
      exact ⟨t, hs, .nil t⟩
  | cons i is ih =>
      obtain ⟨s₁, a, as₁, hi, hrest⟩ := exists_of_run_cons hrun
      obtain ⟨t₁, h₁, hspec⟩ := hstep i s t s₁ a hs his.1 hi
      obtain ⟨t', h', haccepts⟩ := ih h₁ (his.2 s₁ a hi) hrest
      cases (run_cons hi hrest).symm.trans hrun
      exact ⟨t', h', .cons hspec haccepts⟩

/-- The same, where the specification's state is a function of the state. -/
theorem mapped {spec : ι → τ → α → τ → Prop} {f : σ → τ}
    (hstep : ∀ i s, I s → A i s →
      ∃ s' a, step i s = .ok (s', a) ∧ I s' ∧ spec i (f s) a (f s'))
    (hs : I s) (his : Each step A is s) :
    ∃ s' as, run step is s = .ok (s', as) ∧ I s' ∧ Accepts spec is (f s) as (f s') := by
  have hmap : ∀ i s t, (I s ∧ f s = t) → A i s →
      ∃ s' a t', step i s = .ok (s', a) ∧ (I s' ∧ f s' = t') ∧ spec i t a t' := by
    rintro i s t ⟨hI, rfl⟩ hA
    obtain ⟨s', a, hrun, h', hspec⟩ := hstep i s hI hA
    exact ⟨s', a, f s', hrun, ⟨h', rfl⟩, hspec⟩
  obtain ⟨s', as, t', hrun, ⟨h', rfl⟩, haccepts⟩ := refined hmap ⟨hs, rfl⟩ his
  exact ⟨s', as, hrun, h', haccepts⟩

end Calls
