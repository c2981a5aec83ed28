import CourseOs.Drivers.TimerInterrupt

/-!
# Runs of the timer driver

A run of `schedule_timer`, `bcm2836_deschedule_timer` on queued timers and
`timer_handle_interrupt`, with callbacks that do not call the API.  In every
run the interrupt is unmasked just when a timer is queued, and the compare
value is the deadline of the timer at the head of the queue (`Aimed`).

That timer need not be the next one due, for a periodic timer that fired is
queued with the deadline it met as its priority.  `Op.KeepsOrder` says when a
call leaves the deadlines of the queued timers in the order of their
priorities; in a run of such calls the compare value is the earliest deadline
(`comparator_next`).  The condition is about the timetable before the call.
It holds of every call while no periodic timer has fired, and of a timer that
is alone in the queue (`timely_of_oneShot`, `timely_of_alone`).
-/

namespace CourseOs.Timer

open PriorityQueue Relation

variable {s s' u : TimerState} {now : ℕ} {A : Timetable}

/-- A call of the driver, with what the counter reads and what the allocator
gives.  Callbacks make no calls here; the module on callbacks has those that
do. -/
inductive Op
  | schedule (mem : Allocation) (now callback delayMs : ℕ) (periodic : Bool)
  | deschedule (handle : ℕ)
  | interrupt (slots : ℕ → ℕ) (now : ℕ)

namespace Op

/-- What the call does.  An interrupt comes with a callback that leaves the
driver alone. -/
def run : Op → TimerState → Exec TimerState
  | schedule mem now callback delayMs periodic, s =>
      (if periodic then scheduleTimerPeriodic mem now s callback delayMs
        else scheduleTimerOnce mem now s callback delayMs).map Prod.fst
  | deschedule handle, s => descheduleTimer s handle
  | interrupt slots now, s => timerHandleInterrupt idle slots now s

/-- When the call may be made.  The memory of a new timer is fresh, a handle
that is given back is one of the queue, and an interrupt comes while the
counter fits in a priority. -/
def Allowed : Op → TimerState → Prop
  | schedule mem _ _ _ _, s => Fresh s mem
  | deschedule handle, s => handle ∈ queued s.queue
  | interrupt _ now, _ => now ≤ int32Max

/-- When the call may be made, with interrupts at any count.  What is due then
may be past `INT32_MAX`, and the handler's assertion may stop it. -/
def Callable : Op → TimerState → Prop
  | schedule mem _ _ _ _, s => Fresh s mem
  | deschedule handle, s => handle ∈ queued s.queue
  | interrupt _ _, _ => True

theorem Allowed.callable {op : Op} (h : op.Allowed s) : op.Callable s := by
  cases op with
  | schedule mem now callback delayMs periodic => exact h
  | deschedule handle => exact h
  | interrupt slots now => exact trivial

/-- The call leaves deadlines in the order of priorities: a new timer is not
due while a queued one waits for its next period with a priority from the
last, and an interrupt is `Timely`. -/
def KeepsOrder : Op → TimerState → Prop
  | schedule _ now _ delayMs _, s => ∀ p e, timetable s p = some e →
      e.priority ≤ scheduledAt s now delayMs → e.deadline ≤ scheduledAt s now delayMs
  | deschedule _, _ => True
  | interrupt _ now, s => Timely now (timetable s)

end Op

/-- A call that returns, made when it may be made. -/
def Step (s s' : TimerState) : Prop := ∃ op : Op, op.Allowed s ∧ op.run s = .ok s'

/-- A call that returns and keeps the order of deadlines.  The runs in which
the comparator is right are made of these. -/
def OrderlyStep (s s' : TimerState) : Prop :=
  ∃ op : Op, op.Allowed s ∧ op.KeepsOrder s ∧ op.run s = .ok s'

/-- The comparator is programmed for the next deadline: there is one exactly
if the interrupt is unmasked, none is earlier, and it is that of a queued
timer. -/
structure Programmed (s : TimerState) : Prop where
  unmasked_iff : s.unmasked = true ↔ (queued s.queue).Nonempty
  compare_le : ∀ p ∈ queued s.queue, ∃ t, s.nodeTimer p = .ok t ∧ s.compare ≤ t.scheduledCount
  compare_mem : (queued s.queue).Nonempty →
    ∃ p ∈ queued s.queue, ∃ t, s.nodeTimer p = .ok t ∧ s.compare = t.scheduledCount

/-! ### How far the condition reaches

As for the interrupt: one-shot timers meet the condition whatever their
deadlines are, and a periodic timer meets it on its own.  What it leaves out
is a periodic timer that has fired beside another timer. -/

/-- Interrupts that find no periodic timer due, in a queue where none has
fired, are timely. -/
theorem timely_of_oneShot (hprio : ∀ p e, A p = some e → e.priority = e.deadline)
    (honce : ∀ p e, A p = some e → e.deadline ≤ now → e.period = 0) : Timely now A := by
  have hlater : ∀ p e, A p = some e → e.Stays now → now < e.deadline := by
    intro p e hp hstay
    by_contra hdue
    exact hstay.elim (fun hne => hne (honce p e hp (by omega))) hdue
  have hsettled : ∀ p e, A p = some e → e.Stays now → e.settled now = e := by
    intro p e hp hstay
    unfold Entry.settled Entry.firings
    rw [if_pos (hlater p e hp hstay)]
    rfl
  refine ⟨fun p q e e' _ hp hq hdue hstay => ?_, fun p q e e' hp hq hs hs' hle => ?_⟩
  · have hlast : e.lastDue now = e := by
      unfold Entry.lastDue Entry.firings
      rw [if_neg (by omega), honce p e hp hdue, Nat.div_zero]
      rfl
    have := hlater q e' hq hstay
    rw [hlast, hsettled q e' hq hstay, hprio p e hp, hprio q e' hq]
    omega
  · rw [hsettled p e hp hs, hsettled q e' hq hs'] at hle ⊢
    rw [hprio p e hp, hprio q e' hq] at hle
    omega

/-- A timer alone in the queue is always served in time. -/
theorem timely_of_alone (h : ∀ p q e e', A p = some e → A q = some e' → p = q) : Timely now A := by
  refine ⟨fun p q e e' hne hp hq _ _ => absurd (h p q e e' hp hq) hne,
    fun p q e e' hp hq _ _ _ => ?_⟩
  obtain rfl := h p q e e' hp hq
  rw [Option.some.inj (hp.symm.trans hq)]

/-! ### The invariant of a run

Two things are kept apart.  The registers are aimed at the head of the queue
in every run; that the head is also the next timer due takes the order of
deadlines, which the calls of an orderly run keep. -/

theorem Aimed.unmasked_iff (h : TimerInv s) (ha : Aimed s) :
    s.unmasked = true ↔ (queued s.queue).Nonempty := by
  rcases ha with ⟨p, e, hhead, -, hu⟩ | ⟨hnone, hu⟩
  · exact iff_of_true hu ⟨p, mem_of_timetable hhead.1⟩
  · refine iff_of_false (by rw [hu]; exact Bool.false_ne_true) ?_
    rintro ⟨p, hp⟩
    obtain ⟨n, t, -, -, hentry⟩ := h.linked.entry hp
    cases (congrFun hnone p).symm.trans hentry

/-- In order of deadline the timer at the head is the next one due, and the
driver aims at it. -/
theorem Aimed.programmed (h : TimerInv s) (ha : Aimed s) (ho : InOrder (timetable s)) :
    Programmed s := by
  refine ⟨ha.unmasked_iff h, fun q hq => ?_, fun hne => ?_⟩
  · obtain ⟨n, t, hn, ht, hentry⟩ := h.linked.entry hq
    refine ⟨t, nodeTimer_eq hn ht, ?_⟩
    rcases ha with ⟨p, e, hhead, hcompare, -⟩ | ⟨hnone, -⟩
    · rw [hcompare]
      exact ho p q e _ hhead.1 hentry (hhead.2 q _ hentry)
    · cases (congrFun hnone q).symm.trans hentry
  · rcases ha with ⟨p, e, hhead, hcompare, -⟩ | ⟨hnone, -⟩
    · have hp := mem_of_timetable hhead.1
      obtain ⟨n, t, hn, ht, hentry⟩ := h.linked.entry hp
      refine ⟨p, hp, t, nodeTimer_eq hn ht, ?_⟩
      rw [hhead.1, Option.some.injEq] at hentry
      rw [hcompare, hentry]
      rfl
    · obtain ⟨q, hq⟩ := hne
      obtain ⟨n, t, -, -, hentry⟩ := h.linked.entry hq
      cases (congrFun hnone q).symm.trans hentry

theorem InOrder.erase (h : InOrder A) (p : ℕ) : InOrder (Function.update A p none) := by
  have hsub : ∀ q e, Function.update A p none q = some e → A q = some e := by
    intro q e hq
    by_cases hqp : q = p
    · rw [hqp, Function.update_self] at hq
      cases hq
    · rwa [Function.update_of_ne hqp] at hq
  exact fun q r e e' hq hr => h q r e e' (hsub q e hq) (hsub r e' hr)

/-- A new timer is in order with those queued. -/
theorem InOrder.insert (h : InOrder A) (hlag : Lagging A) {p at' period : ℕ}
    (hnew : ∀ q e, A q = some e → e.priority ≤ at' → e.deadline ≤ at') :
    InOrder (Function.update A p (some ⟨at', at', period⟩)) := by
  intro q r e e' hq hr hle
  by_cases hqp : q = p
  · rw [hqp, Function.update_self, Option.some.injEq] at hq
    subst hq
    by_cases hrp : r = p
    · rw [hrp, Function.update_self, Option.some.injEq] at hr
      rw [← hr]
    · rw [Function.update_of_ne hrp] at hr
      have hlate : (at' : ℤ) ≤ e'.deadline := hle.trans (hlag r e' hr)
      exact_mod_cast hlate
  · rw [Function.update_of_ne hqp] at hq
    by_cases hrp : r = p
    · rw [hrp, Function.update_self, Option.some.injEq] at hr
      subst hr
      exact hnew q e hq hle
    · rw [Function.update_of_ne hrp] at hr
      exact h q r e e' hq hr hle

/-- **Any call** keeps the invariant and the registers aimed; one that keeps
the order leaves the timers in order. -/
theorem TimerInv.step (h : TimerInv s) (ha : Aimed s) {op : Op} (hop : op.Callable s)
    (hrun : op.run s = .ok s') : TimerInv s' ∧ Aimed s' ∧
      (op.KeepsOrder s → InOrder (timetable s) → InOrder (timetable s')) := by
  cases op with
  | schedule mem now callback delayMs periodic =>
      have hrun' : (scheduleTimer mem now s callback delayMs periodic).map Prod.fst = .ok s' := by
        cases periodic <;> exact hrun
      have hcb : callback ≠ 0 := by
        rintro rfl
        cases hrun'
      have hdelay : delayMs ≠ 0 := by
        rintro rfl
        unfold scheduleTimer at hrun'
        rw [if_neg hcb] at hrun'
        cases hrun'
      have hcount : scheduledAt s now delayMs ≤ int32Max := by
        by_contra hlt
        unfold scheduleTimer at hrun'
        rw [if_neg hcb, if_neg hdelay] at hrun'
        dsimp only at hrun'
        rw [if_pos (show int32Max < (now + countOffset s.frequency delayMs) % 2 ^ 64 from
          not_le.mp hlt)] at hrun'
        cases hrun'
      rcases scheduleTimer_spec h hop hcb hdelay hcount periodic with
        ⟨s₁, hs₁, hinv, haim, htable, -⟩ | ⟨herr, -⟩
      · rw [hs₁] at hrun'
        cases hrun'
        refine ⟨hinv, haim, fun hkeep ho => ?_⟩
        rw [htable]
        exact ho.insert h.lagging hkeep
      · rw [herr] at hrun'
        cases hrun'
  | deschedule handle =>
      obtain ⟨s₁, hs₁, hinv, haim, htable, -⟩ := descheduleTimer_spec h hop
      cases Except.ok.inj (hs₁.symm.trans hrun)
      refine ⟨hinv, haim ha, fun _ ho => ?_⟩
      rw [htable]
      exact ho.erase handle
  | interrupt slots now =>
      rcases timerHandleInterrupt_spec h ha slots now with
        ⟨herr, -⟩ | ⟨s₁, log, hs₁, hinv, haim, hmade, hend⟩
      · cases herr.symm.trans hrun
      cases Except.ok.inj (hs₁.symm.trans hrun)
      refine ⟨hinv, haim, fun hkeep _ => ?_⟩
      rcases hend with hnone | ⟨p, e, hhead, hlt⟩
      · intro p q e e' hp
        cases (congrFun hnone p).symm.trans hp
      · have hunder := Runs.invariant (I := Underway now (timetable s))
          (fun _ _ hu hf => hu.fires hf) hmade.firings.fires (Underway.refl now _)
        exact hkeep.inOrder h.lagging hunder hhead hlt

/-- **`bcm2836_timer_init`** starts without timers, whatever its memory and
the compare register hold. -/
theorem timerInit_spec (frequency compare : ℕ) (garbage : ℕ → ℕ) (nodes : ℕ → Option PrqNode)
    (timers : ℕ → Option ScheduledTimer) :
    ∃ s, timerInit frequency compare garbage nodes timers = .ok s ∧ TimerInv s ∧ Aimed s ∧
      timetable s = fun _ => none := by
  obtain ⟨q, hcreate, hinv, hq⟩ := prqCreateFixed_spec garbage nodes
    (show 1 ≤ defaultCount by decide) (by decide)
  let s : TimerState := ⟨frequency, q, timers, compare, false, true, []⟩
  have hnone : timetable s = fun _ => none := by
    funext p
    refine timetable_of_notMem ?_
    show p ∉ queued q
    rw [hq]
    exact Set.notMem_empty p
  refine ⟨s, ?_, ⟨hinv, ?_, ?_, ?_⟩, Or.inr ⟨hnone, rfl⟩, hnone⟩
  · unfold timerInit prqCreate
    rw [hcreate, Exec.ok_bind]
  · show Linked s (queued q)
    rw [hq]
    exact ⟨fun p hp => hp.elim, fun p hp => hp.elim⟩
  · intro p e hp
    cases (congrFun hnone p).symm.trans hp
  · intro p e hp
    cases (congrFun hnone p).symm.trans hp

/-- **The comparator points at the next deadline** in every run whose calls
keep the order; that it is unmasked just when a timer is queued holds in every
run, and interrupts return. -/
theorem comparator_next (frequency compare : ℕ) (garbage : ℕ → ℕ) (nodes : ℕ → Option PrqNode)
    (timers : ℕ → Option ScheduledTimer) :
    ∃ s, timerInit frequency compare garbage nodes timers = .ok s ∧
      (∀ u, ReflTransGen OrderlyStep s u → Programmed u) ∧
      ∀ u, ReflTransGen Step s u → (u.unmasked = true ↔ (queued u.queue).Nonempty) ∧
        ∀ slots now, now ≤ int32Max → ∃ u', timerHandleInterrupt idle slots now u = .ok u' := by
  obtain ⟨s, hinit, hinv, haim, hnone⟩ := timerInit_spec frequency compare garbage nodes timers
  refine ⟨s, hinit, fun u hrun => ?_, fun u hrun => ?_⟩
  · have ho : InOrder (timetable s) := by
      intro p q e e' hp
      cases (congrFun hnone p).symm.trans hp
    obtain ⟨hu, ha, ho⟩ := Runs.invariant
      (I := fun u => TimerInv u ∧ Aimed u ∧ InOrder (timetable u))
      (fun u u' ⟨h, ha, ho⟩ ⟨op, hop, hkeep, hrun⟩ => by
        obtain ⟨h', ha', ho'⟩ := h.step ha hop.callable hrun
        exact ⟨h', ha', ho' hkeep ho⟩) hrun ⟨hinv, haim, ho⟩
    exact ha.programmed hu ho
  · obtain ⟨hu, ha⟩ := Runs.invariant (I := fun u => TimerInv u ∧ Aimed u)
      (fun u u' ⟨h, ha⟩ ⟨op, hop, hrun⟩ => by
        obtain ⟨h', ha', -⟩ := h.step ha hop.callable hrun
        exact ⟨h', ha'⟩) hrun ⟨hinv, haim⟩
    refine ⟨ha.unmasked_iff hu, fun slots now hnow => ?_⟩
    obtain ⟨u', -, hu', -⟩ := timerHandleInterrupt_of_le hu ha hnow slots
    exact ⟨u', hu'⟩

/-- A periodic timer of 10 counts and a timer for count 15, at an interrupt at
count 12: the periodic timer is queued again with priority 10, and the
comparator waits for count 20, past the deadline of the other. -/
theorem stale_priority_hides_deadline :
    ∃ s u, timerInit 1000 0 (fun _ => 0) (fun _ => none) (fun _ => none) = .ok s ∧
      ReflTransGen Step s u ∧ ¬Programmed u := by
  refine ⟨_, _, rfl, .tail (.tail (.tail .refl
    ⟨.schedule ⟨0x1000, 0x1010, 0, fun _ => 0⟩ 0 0x8000 10 true,
      ⟨by decide, by decide, rfl, rfl⟩, rfl⟩)
    ⟨.schedule ⟨0x1020, 0x1030, 0, fun _ => 0⟩ 0 0x8000 15 false,
      ⟨by decide, by decide, rfl, rfl⟩, rfl⟩)
    ⟨.interrupt (fun _ => 0) 12, by show 12 ≤ int32Max; decide, rfl⟩, fun h => ?_⟩
  obtain ⟨t, ht, hle⟩ := h.compare_le 0x1030 ⟨2, by decide, by decide, rfl⟩
  cases ht
  exact absurd hle (by decide)

end CourseOs.Timer
