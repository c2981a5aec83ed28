import CourseOs.Drivers.TimerRun

/-!
# What fires in an interrupt

`FiresAllDue` is what an interrupt is for: each timer's callback runs once for
each of its deadlines up to `now`, in order of deadline, and nothing that is
due stays queued.  The handler looks only at the timer at the head of the
queue, and a periodic timer that fired is queued by the deadline it met: one
that waits for its next period can stand before another that is due.

`ServedInTurn` compares the two orders over all places the timers take during
the interrupt; it decides whether all that is due fires
(`interrupt_fires_all_due`), but for equal priorities, between which the heap
chooses.  It is a condition on the timetable before the interrupt.  One-shot
timers meet it (`servedInTurn_of_oneShot`), and a timer alone in the queue is
in turn in any case (`inTurn_of_alone`).

The work is done in `CourseOs.Drivers.Firings`, for timetables; here the
firings become the calls of the driver, with the timer each callback ran for.
-/

namespace CourseOs.Timer

open PriorityQueue Relation

variable {s s' u : TimerState} {t : ScheduledTimer} {e : Entry} {p now : ℕ} {A : Timetable}
  {log : List (ℕ × ScheduledTimer)}

/-- A call that returns, with interrupts at any count. -/
def CallStep (s s' : TimerState) : Prop := ∃ op : Op, op.Callable s ∧ op.run s = .ok s'

/-- The node at `p` is queued with the timer `t`, which its pointer leads to. -/
def Queued (s : TimerState) (p : ℕ) (t : ScheduledTimer) : Prop :=
  p ∈ queued s.queue ∧ s.nodeTimer p = .ok t

/-- The timer after `k` periods.  Only its count differs, and for a one-shot
timer not even that. -/
def ScheduledTimer.after (t : ScheduledTimer) (k : ℕ) : ScheduledTimer :=
  { t with scheduledCount := t.scheduledCount + k * t.periodicDelay }

/-- From `s` to `s'` the callbacks of `log` ran, each with the node and the
timer it ran for: once for each deadline of a queued timer up to `now`, in
order of deadline, and no timer is due at the end. -/
structure FiresAllDue (now : ℕ) (s s' : TimerState) (log : List (ℕ × ScheduledTimer)) : Prop where
  calls : s'.calls = (log.map Prod.snd).reverse ++ s.calls
  once : log.Nodup
  mem_iff : ∀ p t', (p, t') ∈ log ↔
    t'.scheduledCount ≤ now ∧ ∃ t k, Queued s p t ∧ t' = t.after k
  sorted : (log.map fun x => x.2.scheduledCount).Pairwise (· ≤ ·)
  noneDue : ∀ p t, Queued s' p t → now < t.scheduledCount

/-- In order of deadline goes in order of priority `r`, and no periodic timer
is due past `INT32_MAX`, where the handler would stop. -/
structure ServedInTurn (r : ℤ → ℤ → Prop) (now : ℕ) (A : Timetable) : Prop where
  inTurn : InTurn r now A
  inRange : ∀ p e, A p = some e → e.period ≠ 0 → ∀ d ∈ e.dues now, d ≤ int32Max

/-! ### How far the condition reaches

Two families of states in which an interrupt serves all timers in turn, for
readers who do not want to compare priorities: no periodic timer has fired
yet, and there is one timer only. -/

/-- One-shot timers are served in turn. -/
theorem servedInTurn_of_oneShot (hprio : ∀ p e, A p = some e → e.priority = e.deadline)
    (honce : ∀ p e, A p = some e → e.period = 0) : ServedInTurn (· < ·) now A := by
  have hfixed : ∀ p e, A p = some e → ∀ j, (Entry.fire^[j] e).priority = e.deadline ∧
      (Entry.fire^[j] e).deadline = e.deadline := by
    intro p e hp j
    have hdeadline : ∀ j, (Entry.fire^[j] e).deadline = e.deadline := by
      intro j
      rw [Entry.deadline_iterate, honce p e hp, Nat.mul_zero, Nat.add_zero]
    refine ⟨?_, hdeadline j⟩
    cases j with
    | zero => exact hprio p e hp
    | succ j =>
        rw [Function.iterate_succ_apply']
        show ((Entry.fire^[j] e).deadline : ℤ) = e.deadline
        rw [hdeadline j]
  refine ⟨fun p q e e' i j _ hp hq _ _ hlt => ?_, fun p e hp hne => absurd (honce p e hp) hne⟩
  rw [(hfixed p e hp i).2, (hfixed q e' hq j).2] at hlt
  show (Entry.fire^[i] e).priority < (Entry.fire^[j] e').priority
  rw [(hfixed p e hp i).1, (hfixed q e' hq j).1]
  exact_mod_cast hlt

/-- A timer alone in the queue is served in turn. -/
theorem inTurn_of_alone (r : ℤ → ℤ → Prop)
    (h : ∀ p q e e', A p = some e → A q = some e' → p = q) : InTurn r now A :=
  fun p q e e' _ _ hne hp hq => absurd (h p q e e' hp hq) hne

/-! ### Timers and entries

An entry of the timetable is what the handler goes by, and a `ScheduledTimer`
is what a client knows.  These lemmas go from one to the other. -/

theorem Queued.entry (h : TimerInv s) (hq : Queued s p t) :
    ∃ e, timetable s p = some e ∧ e.deadline = t.scheduledCount ∧ e.period = t.periodicDelay ∧
      fixedAt s p = some t.fixed := by
  obtain ⟨n, t', hn, ht, hentry⟩ := h.linked.entry hq.1
  obtain rfl : t = t' := Except.ok.inj (hq.2.symm.trans (nodeTimer_eq hn ht))
  exact ⟨_, hentry, rfl, rfl, fixedAt_eq hn ht⟩

theorem queued_of_timetable (h : TimerInv s) (hp : timetable s p = some e) :
    ∃ t, Queued s p t ∧ e.deadline = t.scheduledCount := by
  obtain ⟨n, t, hn, ht, hentry⟩ := h.linked.entry (mem_of_timetable hp)
  refine ⟨t, ⟨mem_of_timetable hp, nodeTimer_eq hn ht⟩, ?_⟩
  rw [Option.some.inj (hp.symm.trans hentry)]
  rfl

/-- No queued timer is due, as the timetable has it. -/
theorem noneDue_iff (h : TimerInv s) :
    NoneDue now (timetable s) ↔ ∀ p t, Queued s p t → now < t.scheduledCount := by
  constructor
  · intro hnone p t hq
    obtain ⟨e, hp, hdeadline, -⟩ := hq.entry h
    exact hdeadline ▸ hnone p e hp
  · intro hnone p e hp
    obtain ⟨t, hq, hdeadline⟩ := queued_of_timetable h hp
    exact hdeadline ▸ hnone p t hq

/-! ### The calls made

The handler calls a callback with a timer whose `scheduled_count` is the
deadline met.  As no timer fires twice for one deadline, a call can be
identified by its handle and its deadline, and the list of calls has no
repetitions. -/

/-- A timer is what is fixed of it and its deadline. -/
theorem ScheduledTimer.eq_after {t t' : ScheduledTimer} {k : ℕ} (hf : t'.fixed = t.fixed)
    (hcount : t'.scheduledCount = t.scheduledCount + k * t.periodicDelay) : t' = t.after k := by
  obtain ⟨c, h, cb, d⟩ := t
  obtain ⟨c', h', cb', d'⟩ := t'
  cases hf
  cases hcount
  rfl

/-- A deadline in a timer's part of the log is that of a call. -/
theorem mem_logOf {d : ℕ} : d ∈ logOf p (firingsOf log) ↔
    ∃ t, (p, t) ∈ log ∧ t.scheduledCount = d := by
  unfold logOf firingsOf
  simp only [List.mem_map, List.mem_filter, decide_eq_true_eq]
  constructor
  · rintro ⟨_, ⟨⟨x, hx, rfl⟩, rfl⟩, rfl⟩
    exact ⟨x.2, hx, rfl⟩
  · rintro ⟨t, ht, rfl⟩
    exact ⟨_, ⟨⟨(p, t), ht, rfl⟩, rfl⟩, rfl⟩

/-- **The calls made** are those of all deadlines, when none is due at the
end: a call is one of the log exactly if its timer is a queued one after some
periods, and due. -/
theorem MadeCalls.mem_iff (hm : MadeCalls now s s' log) (h : TimerInv s)
    (hend : NoneDue now (timetable s')) (p : ℕ) (t' : ScheduledTimer) :
    (p, t') ∈ log ↔ t'.scheduledCount ≤ now ∧ ∃ t k, Queued s p t ∧ t' = t.after k := by
  constructor
  · intro hmem
    obtain ⟨e, -, hp, -⟩ := hm.firings.of_mem (List.mem_map_of_mem hmem)
    obtain ⟨t, hq, -⟩ := queued_of_timetable h hp
    obtain ⟨e', hp', hdeadline, hperiod, hfixed⟩ := hq.entry h
    have hdue : t'.scheduledCount ∈ e'.dues now := by
      rw [← hm.firings.log_of hend hp']
      exact mem_logOf.mpr ⟨t', hmem, rfl⟩
    obtain ⟨hle, k, hk⟩ := Entry.mem_dues.mp hdue
    rw [hdeadline, hperiod] at hk
    have hsame := (hm.fixed _ hmem).symm.trans hfixed
    exact ⟨hle, t, k, hq, ScheduledTimer.eq_after (Option.some.inj hsame) hk⟩
  · rintro ⟨hle, t, k, hq, rfl⟩
    obtain ⟨e, hp, hdeadline, hperiod, hfixed⟩ := hq.entry h
    have hdue : (t.after k).scheduledCount ∈ logOf p (firingsOf log) := by
      rw [hm.firings.log_of hend hp, Entry.mem_dues]
      refine ⟨hle, k, ?_⟩
      rw [hdeadline, hperiod]
      rfl
    obtain ⟨t'', hmem, hcount⟩ := mem_logOf.mp hdue
    have hsame : t''.fixed = t.fixed :=
      Option.some.inj ((hm.fixed _ hmem).symm.trans hfixed)
    obtain rfl := ScheduledTimer.eq_after hsame hcount
    exact hmem

theorem MadeCalls.nodup (hm : MadeCalls now s s' log)
    (hend : NoneDue now (timetable s')) : log.Nodup := by
  rw [List.nodup_iff_count_le_one]
  rintro ⟨p, t⟩
  by_cases hmem : (p, t) ∈ log
  · obtain ⟨e, -, hp, -⟩ := hm.firings.of_mem (List.mem_map_of_mem hmem)
    have hnodup : (logOf p (firingsOf log)).Nodup := by
      rw [hm.firings.log_of hend hp]
      exact Entry.nodup_dues
    calc log.count (p, t) = (log.filter fun x => x.1 = p).count (p, t) := by
          rw [List.count_filter]
          exact decide_eq_true rfl
      _ ≤ ((log.filter fun x => x.1 = p).map fun x => x.2.scheduledCount).count
            t.scheduledCount :=
          List.count_le_count_map (f := fun x : ℕ × ScheduledTimer => x.2.scheduledCount)
            (x := (p, t))
      _ = (logOf p (firingsOf log)).count t.scheduledCount := by
          unfold logOf firingsOf
          rw [List.filter_map, List.map_map]
          rfl
      _ ≤ 1 := List.nodup_iff_count_le_one.mp hnodup _
  · rw [List.count_eq_zero.mpr hmem]
    exact Nat.zero_le 1

theorem MadeCalls.sorted_iff : ((firingsOf log).map Prod.snd).Pairwise (· ≤ ·) ↔
    (log.map fun x => x.2.scheduledCount).Pairwise (· ≤ ·) := by
  unfold firingsOf
  rw [List.map_map]
  rfl

/-! ### The interrupt

The results on timetables, carried over to the driver: one direction for
timers that are served in turn, and the other, in which equal priorities are
left open because the queue may take either of two timers with the same
priority first. -/

/-- In range, no pass stops at the assertion. -/
theorem ServedInTurn.not_runsPast {r : ℤ → ℤ → Prop} (h : ServedInTurn r now A) :
    ¬RunsPast now A := by
  rintro ⟨log, A', p, e, hrun, hhead, hdue, hperiod, hpast⟩
  obtain ⟨e₀, j, hp, rfl, -⟩ := Runs.invariant (I := Underway now A)
    (fun _ _ hu hf => hu.fires hf) hrun.fires (Underway.refl now A) p e hhead.1
  rw [Entry.period_iterate] at hperiod
  have hmem : (Entry.fire^[j] e₀).deadline ∈ e₀.dues now :=
    Entry.mem_dues.mpr ⟨hdue, j, Entry.deadline_iterate e₀ j⟩
  exact absurd (h.inRange p e₀ hp hperiod _ hmem) (not_le.mpr hpast)

/-- Served in turn, all that is due fires, and the interrupt returns. -/
theorem ServedInTurn.firesAllDue (hserved : ServedInTurn (· < ·) now (timetable s))
    (h : TimerInv s) (ha : Aimed s) (slots : ℕ → ℕ) :
    ∃ s' log, timerHandleInterrupt idle slots now s = .ok s' ∧ FiresAllDue now s s' log := by
  rcases timerHandleInterrupt_spec h ha slots now with
    ⟨-, hpast⟩ | ⟨s', log, hrun, h', -, hm, hend⟩
  · exact absurd hpast hserved.not_runsPast
  have hnone : NoneDue now (timetable s') := by
    rcases hend with hempty | ⟨p, e, hhead, hlt⟩
    · intro p e hp
      cases (congrFun hempty p).symm.trans hp
    · exact (hserved.inTurn.firings hm.firings).noneDue hhead hlt
  exact ⟨s', log, hrun, hm.calls, hm.nodup hnone, hm.mem_iff h hnone,
    MadeCalls.sorted_iff.mp (hserved.inTurn.sorted h.lagging hm.firings),
    (noneDue_iff h').mp hnone⟩

/-- If all that is due fires, it was served in turn, but for equal priorities.
The calls that were made are the same on both accounts, and they are in the
order of their counts. -/
theorem FiresAllDue.servedInTurn (hall : FiresAllDue now s s' log) (h : TimerInv s) (ha : Aimed s)
    {slots : ℕ → ℕ} (hrun : timerHandleInterrupt idle slots now s = .ok s') :
    ServedInTurn (· ≤ ·) now (timetable s) := by
  rcases timerHandleInterrupt_spec h ha slots now with
    ⟨herr, -⟩ | ⟨s₁, log₁, hok, h', -, hm, -⟩
  · cases herr.symm.trans hrun
  obtain rfl : s₁ = s' := Except.ok.inj (hok.symm.trans hrun)
  have hnone : NoneDue now (timetable s₁) := (noneDue_iff h').mpr hall.noneDue
  have hsame : log₁.map Prod.snd = log.map Prod.snd :=
    List.reverse_inj.mp (List.append_cancel_right (hm.calls.symm.trans hall.calls))
  have hsorted : (log₁.map fun x => x.2.scheduledCount).Pairwise (· ≤ ·) := by
    have hcounts := congrArg (List.map ScheduledTimer.scheduledCount) hsame
    rw [List.map_map, List.map_map] at hcounts
    show (log₁.map (ScheduledTimer.scheduledCount ∘ Prod.snd)).Pairwise (· ≤ ·)
    rw [hcounts]
    exact hall.sorted
  refine ⟨hm.firings.inTurn h.lagging hnone (MadeCalls.sorted_iff.mpr hsorted),
    fun p e hp hne d hd => ?_⟩
  obtain ⟨t, hq, -⟩ := queued_of_timetable h hp
  obtain ⟨e', hp', hdeadline, hperiod, -⟩ := hq.entry h
  obtain rfl : e = e' := Option.some.inj (hp.symm.trans hp')
  obtain ⟨hle, k, hk⟩ := Entry.mem_dues.mp hd
  rw [hdeadline, hperiod] at hk
  have hcount : (t.after k).scheduledCount = d := hk.symm
  have hmem : (p, t.after k) ∈ log₁ :=
    (hm.mem_iff h hnone p _).mpr ⟨hcount ▸ hle, t, k, hq, rfl⟩
  exact hcount ▸ hm.asserted _ hmem (show t.periodicDelay ≠ 0 from hperiod ▸ hne)

/-- **Every timer that is due fires** in the interrupt that finds it due, when
timers are served in turn; that they are is needed, but for equal priorities. -/
theorem interrupt_fires_all_due (frequency compare : ℕ) (garbage : ℕ → ℕ)
    (nodes : ℕ → Option PrqNode) (timers : ℕ → Option ScheduledTimer) :
    ∃ s, timerInit frequency compare garbage nodes timers = .ok s ∧
      ∀ u, ReflTransGen CallStep s u → ∀ slots now,
        (ServedInTurn (· < ·) now (timetable u) → ∃ u' log,
          timerHandleInterrupt idle slots now u = .ok u' ∧ FiresAllDue now u u' log) ∧
        ((∃ u' log, timerHandleInterrupt idle slots now u = .ok u' ∧ FiresAllDue now u u' log) →
          ServedInTurn (· ≤ ·) now (timetable u)) := by
  obtain ⟨s, hinit, hinv, haim, -⟩ := timerInit_spec frequency compare garbage nodes timers
  refine ⟨s, hinit, fun u hrun slots now => ?_⟩
  obtain ⟨hu, ha⟩ := Runs.invariant (I := fun u => TimerInv u ∧ Aimed u)
    (fun u u' ⟨h, ha⟩ ⟨op, hop, hrun⟩ => by
      obtain ⟨h', ha', -⟩ := h.step ha hop hrun
      exact ⟨h', ha'⟩) hrun ⟨hinv, haim⟩
  exact ⟨fun hserved => hserved.firesAllDue hu ha slots,
    fun ⟨u', log, hok, hall⟩ => hall.servedInTurn hu ha hok⟩

/-- A periodic timer of 10 counts and a timer for count 15.  The periodic
timer fires at count 12 and is queued for count 20 with priority 10; an
interrupt at count 17 finds it at the head of the queue and leaves the other,
which is due. -/
theorem due_timer_is_left :
    ∃ s u, timerInit 1000 0 (fun _ => 0) (fun _ => none) (fun _ => none) = .ok s ∧
      ReflTransGen CallStep s u ∧
      ¬∃ u' log, timerHandleInterrupt idle (fun _ => 0) 17 u = .ok u' ∧
        FiresAllDue 17 u u' log := by
  refine ⟨_, _, rfl, .tail (.tail (.tail .refl
    ⟨.schedule ⟨0x1000, 0x1010, 0, fun _ => 0⟩ 0 0x8000 10 true,
      ⟨by decide, by decide, rfl, rfl⟩, rfl⟩)
    ⟨.schedule ⟨0x1020, 0x1030, 0, fun _ => 0⟩ 0 0x8000 15 false,
      ⟨by decide, by decide, rfl, rfl⟩, rfl⟩)
    ⟨.interrupt (fun _ => 0) 12, trivial, rfl⟩, ?_⟩
  rintro ⟨u', log, hrun, hall⟩
  cases hrun
  have hlate := hall.noneDue 0x1030 ⟨15, 0x1030, 0x8000, 0⟩ ⟨⟨2, by decide, by decide, rfl⟩, rfl⟩
  exact absurd hlate (by decide)

end CourseOs.Timer
