import Mathlib.Logic.Function.Iterate
import Mathlib.Algebra.BigOperators.Group.Finset.Basic
import Mathlib.Algebra.Order.BigOperators.Group.Finset
import Mathlib.Tactic.Ring

/-!
# Timetables

What the queued timers amount to: for each handle a priority, a deadline and a
period, the period of a one-shot timer being 0.  A timer fires at its
deadline; a periodic one is then queued again, with the deadline just met as
its priority (`Entry.fire`), so its priority lags behind its deadline by one
period.

`Fires now` fires one timer of least priority that is due.  It is a relation,
since the queue may choose between timers of equal priority.  A run of it is
what an interrupt does, until the timer at the head is not due; each firing
uses up part of the `workload`, so the run ends.

`Timely now` says, on the timetable before an interrupt, that the timers that
are left at the end are in order of deadline when they are in order of
priority, and come after all that are due before that; an interrupt then
leaves `InOrder` (`Timely.inOrder`).  It speaks of the last firing of each
timer and of the place it takes after that, which are given by the timetable:
`Entry.firings` counts how often a timer fires up to `now`, `Entry.lastDue` is
the timer before its last firing, and `Entry.settled` is the timer after it.
-/

namespace CourseOs.Timer

/-- A queued timer: where it stands in the queue, when it is due, and after
how many counts it is due again. -/
@[ext]
structure Entry where
  priority : ℤ
  deadline : ℕ
  period : ℕ
  deriving DecidableEq, Repr

/-- The queued timers by handle; there is none where the map has nothing. -/
abbrev Timetable := ℕ → Option Entry

variable {now i j p q : ℕ} {e e' : Entry} {A A' A₀ : Timetable}

/-- The timer after a firing: it is due one period later, and its priority is
the deadline it has just met. -/
def Entry.fire (e : Entry) : Entry := ⟨e.deadline, e.deadline + e.period, e.period⟩

/-- How often the timer fires up to `now`.  For a period of 0 the quotient is
0, and a timer that is due fires once. -/
def Entry.firings (e : Entry) (now : ℕ) : ℕ :=
  if now < e.deadline then 0 else (now - e.deadline) / e.period + 1

/-- The timer is still queued after all firings up to `now`. -/
def Entry.Stays (e : Entry) (now : ℕ) : Prop := e.period ≠ 0 ∨ now < e.deadline

/-- The timer after all firings up to `now`, if it stays. -/
def Entry.settled (e : Entry) (now : ℕ) : Entry := Entry.fire^[e.firings now] e

/-- The timer before its last firing up to `now`, if it is due. -/
def Entry.lastDue (e : Entry) (now : ℕ) : Entry := Entry.fire^[e.firings now - 1] e

@[simp] theorem Entry.period_iterate (e : Entry) (j : ℕ) :
    (Entry.fire^[j] e).period = e.period := by
  induction j with
  | zero => rfl
  | succ j ih =>
      rw [Function.iterate_succ_apply']
      exact ih

theorem Entry.deadline_iterate (e : Entry) (j : ℕ) :
    (Entry.fire^[j] e).deadline = e.deadline + j * e.period := by
  induction j with
  | zero => simp
  | succ j ih =>
      rw [Function.iterate_succ_apply']
      show (Entry.fire^[j] e).deadline + (Entry.fire^[j] e).period = _
      rw [ih, Entry.period_iterate]
      ring

/-- Before its last firing a timer is due. -/
theorem Entry.due_of_lt (h : j < e.firings now) : (Entry.fire^[j] e).deadline ≤ now := by
  rw [Entry.deadline_iterate]
  unfold Entry.firings at h
  by_cases hlt : now < e.deadline
  · rw [if_pos hlt] at h
    omega
  · rw [if_neg hlt] at h
    have hle : j * e.period ≤ now - e.deadline :=
      (Nat.mul_le_mul_right _ (by omega)).trans (Nat.div_mul_le_self _ _)
    omega

/-- After its last firing it is not. -/
theorem Entry.lt_settled (h : e.Stays now) : now < (e.settled now).deadline := by
  unfold Entry.settled
  rw [Entry.deadline_iterate]
  unfold Entry.firings
  by_cases hlt : now < e.deadline
  · rw [if_pos hlt]
    omega
  · rw [if_neg hlt]
    have hperiod : 0 < e.period := by
      rcases h with h | h
      · omega
      · exact absurd h hlt
    have := Nat.lt_div_mul_add (a := now - e.deadline) hperiod
    rw [Nat.add_mul, Nat.one_mul]
    omega

/-- A firing does not put a timer forward in the queue. -/
theorem Entry.priority_mono (h : e.priority ≤ e.deadline) (hij : i ≤ j) :
    (Entry.fire^[i] e).priority ≤ (Entry.fire^[j] e).priority := by
  have hstep : ∀ j, (Entry.fire^[j] e).priority ≤ (Entry.fire^[j + 1] e).priority := by
    intro j
    rw [Function.iterate_succ_apply']
    show _ ≤ ((Entry.fire^[j] e).deadline : ℤ)
    cases j with
    | zero => exact h
    | succ j =>
        rw [Function.iterate_succ_apply']
        show ((Entry.fire^[j] e).deadline : ℤ) ≤
          ((Entry.fire^[j] e).deadline + (Entry.fire^[j] e).period : ℕ)
        omega
  exact monotone_nat_of_le_succ hstep hij

/-! ### Firing in order of priority

A timetable has no order of its own.  A firing may take any timer of least
priority, so that everything proved of `Fires` holds however the queue breaks
ties. -/

/-- `p` is a timer of least priority.  There may be several, and any of them
may be the one in the first slot of the queue. -/
def Timetable.Head (A : Timetable) (p : ℕ) (e : Entry) : Prop :=
  A p = some e ∧ ∀ q e', A q = some e' → e.priority ≤ e'.priority

/-- Firing takes a one-shot timer out and queues a periodic one again. -/
def Timetable.fire (A : Timetable) (p : ℕ) (e : Entry) : Timetable :=
  Function.update A p (if e.period = 0 then none else some e.fire)

/-- A timer of least priority that is due fires.  Which one, if there are
several, is left open. -/
def Fires (now : ℕ) (A A' : Timetable) : Prop :=
  ∃ p e, A.Head p e ∧ e.deadline ≤ now ∧ A' = A.fire p e

/-- No timer is ahead of its deadline in the queue.  This is so when a timer
is scheduled, and stays so with each firing. -/
def Lagging (A : Timetable) : Prop := ∀ p e, A p = some e → e.priority ≤ e.deadline

/-- Deadlines are in the order of priorities, so that the head of the queue is
the timer that is due next. -/
def InOrder (A : Timetable) : Prop :=
  ∀ p q e e', A p = some e → A q = some e' → e.priority ≤ e'.priority → e.deadline ≤ e'.deadline

/-- An interrupt at `now` keeps deadlines in the order of priorities: a timer
that is due comes, up to its last firing, before every other that is left in
the end, and those left are in order. -/
structure Timely (now : ℕ) (A : Timetable) : Prop where
  due_first : ∀ p q e e', p ≠ q → A p = some e → A q = some e' → e.deadline ≤ now →
    e'.Stays now → (e.lastDue now).priority < (e'.settled now).priority
  left_inOrder : ∀ p q e e', A p = some e → A q = some e' → e.Stays now → e'.Stays now →
    (e.settled now).priority ≤ (e'.settled now).priority →
      (e.settled now).deadline ≤ (e'.settled now).deadline

/-- A timetable on the way from `A₀`: each timer has fired a number of times,
no more often than it is due. -/
def Underway (now : ℕ) (A₀ A : Timetable) : Prop :=
  ∀ p e, A p = some e → ∃ e₀ j, A₀ p = some e₀ ∧ e = Entry.fire^[j] e₀ ∧
    (j < e₀.firings now ∨ j = e₀.firings now ∧ e₀.Stays now)

theorem Underway.refl (now : ℕ) (A : Timetable) : Underway now A A := by
  intro p e he
  refine ⟨e, 0, he, rfl, ?_⟩
  by_cases hlt : now < e.deadline
  · exact Or.inr ⟨(if_pos hlt).symm, Or.inr hlt⟩
  · refine Or.inl ?_
    unfold Entry.firings
    rw [if_neg hlt]
    exact Nat.succ_pos _

/-- One firing keeps every entry among those its first one becomes by firing
while it is due: the one that fired is one further on, and the others are
where they were. -/
theorem Underway.fires (h : Underway now A₀ A) (hf : Fires now A A') : Underway now A₀ A' := by
  obtain ⟨p, e, ⟨hp, -⟩, hdue, rfl⟩ := hf
  intro q e' hq
  by_cases hqp : q = p
  · subst hqp
    obtain ⟨e₀, j, h₀, rfl, hj⟩ := h q e hp
    unfold Timetable.fire at hq
    rw [Function.update_self] at hq
    by_cases hperiod : (Entry.fire^[j] e₀).period = 0
    · rw [if_pos hperiod] at hq
      cases hq
    · rw [if_neg hperiod, Option.some.injEq] at hq
      subst hq
      rw [Entry.period_iterate] at hperiod
      have hlt : j < e₀.firings now := by
        rcases hj with hj | ⟨rfl, hstay⟩
        · exact hj
        · exact absurd hdue (not_le.mpr (Entry.lt_settled hstay))
      refine ⟨e₀, j + 1, h₀, (Function.iterate_succ_apply' _ _ _).symm, ?_⟩
      rcases Nat.lt_or_ge (j + 1) (e₀.firings now) with hlt' | hge
      · exact Or.inl hlt'
      · exact Or.inr ⟨by omega, Or.inl hperiod⟩
  · unfold Timetable.fire at hq
    rw [Function.update_of_ne hqp] at hq
    exact h q e' hq

theorem Lagging.fires (h : Lagging A) (hf : Fires now A A') : Lagging A' := by
  obtain ⟨p, e, ⟨hp, -⟩, -, rfl⟩ := hf
  intro q e' hq
  unfold Timetable.fire at hq
  by_cases hqp : q = p
  · rw [hqp, Function.update_self] at hq
    by_cases hperiod : e.period = 0
    · rw [if_pos hperiod] at hq
      cases hq
    · rw [if_neg hperiod, Option.some.injEq] at hq
      subst hq
      show (e.deadline : ℤ) ≤ ((e.deadline + e.period : ℕ) : ℤ)
      omega
  · rw [Function.update_of_ne hqp] at hq
    exact h q e' hq

/-- **A timely interrupt leaves the timers in order**: once the timer at the
head is not due, no timer is, for one that is due would come before it. -/
theorem Timely.inOrder (h : Timely now A₀) (hlag : Lagging A₀) (hu : Underway now A₀ A)
    (hp : A.Head p e) (hnot : now < e.deadline) : InOrder A := by
  obtain ⟨e₀, j, h₀, rfl, hj⟩ := hu p e hp.1
  have hhead : j = e₀.firings now ∧ e₀.Stays now := by
    rcases hj with hj | hj
    · exact absurd hnot (not_lt.mpr (Entry.due_of_lt hj))
    · exact hj
  obtain ⟨rfl, hstay⟩ := hhead
  have hsettled : ∀ q e', A q = some e' → ∃ e₁, A₀ q = some e₁ ∧ e' = e₁.settled now ∧
      e₁.Stays now := by
    intro q e' hq
    obtain ⟨e₁, i, h₁, rfl, hi⟩ := hu q e' hq
    rcases hi with hi | ⟨rfl, hstay₁⟩
    · exfalso
      have hqp : q ≠ p := by
        rintro rfl
        rw [hp.1, Option.some.injEq] at hq
        exact absurd hnot (not_lt.mpr (hq ▸ Entry.due_of_lt hi))
      have hdue : e₁.deadline ≤ now := by
        by_contra hlt
        unfold Entry.firings at hi
        rw [if_pos (by omega)] at hi
        omega
      have hbefore := h.due_first q p e₁ e₀ hqp h₁ h₀ hdue hstay
      have hmono := Entry.priority_mono (hlag q e₁ h₁) (show i ≤ e₁.firings now - 1 by omega)
      have hleast := hp.2 q _ hq
      exact absurd (hmono.trans_lt hbefore) (not_lt.mpr hleast)
    · exact ⟨e₁, h₁, rfl, hstay₁⟩
  intro q r e₁ e₂ hq hr hle
  obtain ⟨e₁, h₁, rfl, hstay₁⟩ := hsettled q _ hq
  obtain ⟨e₂, h₂, rfl, hstay₂⟩ := hsettled r _ hr
  exact h.left_inOrder q r e₁ e₂ h₁ h₂ hstay₁ hstay₂ hle

/-! ### The number of firings

Each firing moves one deadline forward by at least one count, or takes its
timer out.  The counts between the deadlines and `now` therefore bound the
number of firings, which is what the handler's loop needs for its end. -/

/-- A bound on the firings up to `now` of the timers in `K`: the counts from
each deadline to `now`. -/
def workload (now : ℕ) (K : Finset ℕ) (A : Timetable) : ℕ :=
  ∑ p ∈ K, (A p).elim 0 fun e => now + 1 - e.deadline

theorem workload_le (now : ℕ) (K : Finset ℕ) (A : Timetable) :
    workload now K A ≤ K.card * (now + 1) := by
  refine Finset.sum_le_card_nsmul _ _ _ fun p _ => ?_
  cases A p with
  | none => exact Nat.zero_le _
  | some e => exact Nat.sub_le _ _

theorem workload_fire (hp : A.Head p e) (hdue : e.deadline ≤ now) {K : Finset ℕ} (hK : p ∈ K) :
    workload now K (A.fire p e) < workload now K A := by
  unfold workload Timetable.fire
  refine Finset.sum_lt_sum (fun q _ => ?_) ⟨p, hK, ?_⟩
  · by_cases hqp : q = p
    · rw [hqp, Function.update_self, hp.1]
      by_cases hperiod : e.period = 0
      · rw [if_pos hperiod]
        exact Nat.zero_le _
      · rw [if_neg hperiod]
        show now + 1 - (e.deadline + e.period) ≤ now + 1 - e.deadline
        omega
    · rw [Function.update_of_ne hqp]
  · rw [Function.update_self, hp.1]
    by_cases hperiod : e.period = 0
    · rw [if_pos hperiod]
      show 0 < now + 1 - e.deadline
      omega
    · rw [if_neg hperiod]
      show now + 1 - (e.deadline + e.period) < now + 1 - e.deadline
      omega

end CourseOs.Timer
