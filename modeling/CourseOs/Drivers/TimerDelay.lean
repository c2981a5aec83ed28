import CourseOs.Drivers.TimerRun

/-!
# How exact the delays are

`schedule_timer` forms the delay in counts as a product of 32-bit integers and
checks the range of the sum with the counter only after that.  A delay of 2^32
counts or more is cut to its low 32 bits, and the check can pass.
`timer_delay_exact` says for which frequencies, delays and counts the timer is
due when it was asked for.

A request ends in one of three ways: its timer is due when asked for, it is
rejected by the assertion because the count would be out of range, or there is
no memory for it.  `Punctual` asks that it be one of these, and that a
rejected request was out of range indeed.  The delay in question is `counts`,
the product without the cut; whether a request meets it depends only on the
delay and the counter (`Representable`, `OutOfRange`), and on no state of the
driver.
-/

namespace CourseOs.Timer

open PriorityQueue

variable {s : TimerState} {mem : Allocation} {now callback delayMs : ℕ} {periodic : Bool}

/-- The delay asked for, in counts, as an integer of any size. -/
def counts (frequency delayMs : ℕ) : ℕ := frequency / 1000 * delayMs

/-- The timer of `handle` is queued for `delay` counts after `now` and, if
periodic, comes again every `delay` counts. -/
def DueIn (s : TimerState) (handle now delay : ℕ) (periodic : Bool) : Prop :=
  ∃ n t, NodeAt s.queue handle n ∧ s.nodeTimer handle = .ok t ∧
    n.priority = ((now + delay : ℕ) : ℤ) ∧ t.scheduledCount = now + delay ∧
    t.periodicDelay = if periodic then delay else 0

/-- What becomes of a request: its timer is due when asked for, or it is
rejected for being out of range, or there is no memory for it. -/
def Punctual (now delay : ℕ) (periodic : Bool) : Exec (TimerState × ℕ) → Prop
  | .ok (s, handle) => DueIn s handle now delay periodic
  | .error e => (e = .assertion ∧ int32Max < now + delay) ∨ e = .outOfMemory

/-- The delay is a 32-bit integer and the count it leads to a 64-bit one. -/
def Representable (now delay : ℕ) : Prop := delay < 2 ^ 32 ∧ now + delay < 2 ^ 64

/-- The low 32 bits of the delay lead out of range already.  Then the request
is rejected, and since the delay itself is no smaller, rightly. -/
def OutOfRange (now delay : ℕ) : Prop := int32Max < (now + delay % 2 ^ 32) % 2 ^ 64

instance (now delay : ℕ) : Decidable (Representable now delay) :=
  inferInstanceAs (Decidable (_ ∧ _))

instance (now delay : ℕ) : Decidable (OutOfRange now delay) := inferInstanceAs (Decidable (_ < _))

/-- A request out of range is rejected, and rightly: the count it would be due
at does not fit in the priority. -/
theorem scheduleTimer_rejected (mem : Allocation) (periodic : Bool) (hcb : callback ≠ 0)
    (hdelay : delayMs ≠ 0)
    (hrange : OutOfRange now (counts s.frequency delayMs)) :
    scheduleTimer mem now s callback delayMs periodic = .error .assertion ∧
      int32Max < now + counts s.frequency delayMs := by
  refine ⟨?_, lt_of_lt_of_le hrange ?_⟩
  · unfold scheduleTimer
    rw [if_neg hcb, if_neg hdelay]
    exact if_pos hrange
  · exact (Nat.mod_le _ _).trans (Nat.add_le_add_left (Nat.mod_le _ _) now)

/-- The timer in the queue is the one of its entry, so that what a client
asked for can be read off the timetable. -/
theorem dueIn_iff {handle at' period delay : ℕ} (h : TimerInv s)
    (hentry : timetable s handle = some ⟨(at' : ℤ), at', period⟩) :
    DueIn s handle now delay periodic ↔
      at' = now + delay ∧ period = if periodic then delay else 0 := by
  obtain ⟨n, t, hn, ht, hentry'⟩ := h.linked.entry (mem_of_timetable hentry)
  obtain ⟨hprio, hcount, hperiod⟩ : n.priority = (at' : ℤ) ∧ t.scheduledCount = at' ∧
      t.periodicDelay = period := by
    have heq := Option.some.inj (hentry'.symm.trans hentry)
    exact ⟨congrArg Entry.priority heq, congrArg Entry.deadline heq, congrArg Entry.period heq⟩
  constructor
  · rintro ⟨n', t', -, ht', -, hcount', hperiod'⟩
    obtain rfl : t = t' := Except.ok.inj ((nodeTimer_eq hn ht).symm.trans ht')
    exact ⟨hcount.symm.trans hcount', hperiod.symm.trans hperiod'⟩
  · rintro ⟨hat, hper⟩
    refine ⟨n, t, hn, nodeTimer_eq hn ht, ?_, hcount.trans hat, hperiod.trans hper⟩
    rw [hprio, hat]

/-- The count and the period are those asked for just when they are
representable.  The period has 32 bits, and the count 64. -/
theorem representable_iff (now delay : ℕ) (periodic : Bool) :
    Representable now delay ↔
      (now + delay % 2 ^ 32) % 2 ^ 64 = now + delay ∧
        (if periodic then delay % 2 ^ 32 else 0) = if periodic then delay else 0 := by
  unfold Representable
  constructor
  · rintro ⟨hdelay, hcount⟩
    rw [Nat.mod_eq_of_lt hdelay, Nat.mod_eq_of_lt hcount]
    exact ⟨rfl, rfl⟩
  · rintro ⟨hcount, -⟩
    omega

/-- A request in range sets a timer, which is due when asked for just when the
delay is representable, or there is no memory for it. -/
theorem scheduleTimer_inRange (h : TimerInv s) (hf : Fresh s mem) (periodic : Bool)
    (hcb : callback ≠ 0) (hdelay : delayMs ≠ 0)
    (hrange : ¬OutOfRange now (counts s.frequency delayMs)) :
    (∃ s', scheduleTimer mem now s callback delayMs periodic = .ok (s', mem.node) ∧
      (DueIn s' mem.node now (counts s.frequency delayMs) periodic ↔
        Representable now (counts s.frequency delayMs))) ∨
      (scheduleTimer mem now s callback delayMs periodic = .error .outOfMemory ∧
        s.queue.count + 2 = s.queue.heapSize) := by
  refine (scheduleTimer_spec h hf hcb hdelay (not_lt.mp hrange) periodic).imp_left ?_
  rintro ⟨s', hs', hinv, -, htable, -⟩
  refine ⟨s', hs', ?_⟩
  rw [representable_iff now _ periodic]
  refine dueIn_iff hinv ?_
  rw [htable, Function.update_self]
  rfl

/-- **Delays are exact** just when they are representable or already out of
range by their low 32 bits. -/
theorem timer_delay_exact (frequency delayMs now callback : ℕ) (periodic : Bool)
    (hcb : callback ≠ 0) (hdelay : delayMs ≠ 0) :
    (∀ s mem, TimerInv s → s.frequency = frequency → Fresh s mem →
      Punctual now (counts frequency delayMs) periodic
        (scheduleTimer mem now s callback delayMs periodic)) ↔
      Representable now (counts frequency delayMs) ∨ OutOfRange now (counts frequency delayMs) := by
  constructor
  · intro h
    by_contra hnot
    rw [not_or] at hnot
    -- the first timer after `timer_init` is already wrong
    obtain ⟨s, hinit, hinv, -⟩ :=
      timerInit_spec frequency 0 (fun _ => 0) (fun _ => none) fun _ => none
    let mem : Allocation := ⟨0x1000, 0x1010, 0, fun _ => 0⟩
    obtain ⟨rfl, hf, hroom⟩ : s.frequency = frequency ∧ Fresh s mem ∧
        s.queue.count + 2 ≠ s.queue.heapSize := by
      obtain rfl := Except.ok.inj hinit
      exact ⟨rfl, ⟨by decide, by decide, rfl, rfl⟩, show 0 + 2 ≠ defaultCount + 1 by decide⟩
    have hdue := h s mem hinv rfl hf
    rcases scheduleTimer_inRange hinv hf periodic hcb hdelay hnot.2 with
      ⟨s', hs', hiff⟩ | ⟨-, hfull⟩
    · rw [hs'] at hdue
      exact hnot.1 (hiff.mp hdue)
    · exact hroom hfull
  · rintro hcases s mem hinv rfl hf
    by_cases hrange : OutOfRange now (counts s.frequency delayMs)
    · obtain ⟨hrun, hlt⟩ := scheduleTimer_rejected mem periodic hcb hdelay hrange
      rw [hrun]
      exact Or.inl ⟨rfl, hlt⟩
    · rcases scheduleTimer_inRange hinv hf periodic hcb hdelay hrange with
        ⟨s', hs', hiff⟩ | ⟨herr, -⟩
      · rw [hs']
        exact hiff.mpr (hcases.resolve_right hrange)
      · rw [herr]
        exact Or.inr rfl

/-- A second at 62.5 MHz, each second: the product is below 2³², and the timer
is due in as many counts. -/
theorem timer_delay_exact_one_second :
    ∃ s s', timerInit 62500000 0 (fun _ => 0) (fun _ => none) (fun _ => none) = .ok s ∧
      scheduleTimer ⟨0x1000, 0x1010, 0, fun _ => 0⟩ 0 s 0x8000 1000 true = .ok (s', 0x1010) ∧
      DueIn s' 0x1010 0 62500000 true := by
  obtain ⟨s, hinit, hinv, -⟩ := timerInit_spec 62500000 0 (fun _ => 0) (fun _ => none) fun _ => none
  obtain rfl := Except.ok.inj hinit
  refine ⟨_, _, rfl, rfl, ?_⟩
  exact (timer_delay_exact 62500000 1000 0 0x8000 true (by decide) (by decide)).mpr
    (Or.inl (by decide)) _ ⟨0x1000, 0x1010, 0, fun _ => 0⟩ hinv rfl
    ⟨by decide, by decide, rfl, rfl⟩

/-- 68.72 s at 62.5 MHz are 2^32 counts and 32704 more: the timer is due after
32704 counts, half a millisecond. -/
theorem long_delay_comes_early :
    ∃ s s', timerInit 62500000 0 (fun _ => 0) (fun _ => none) (fun _ => none) = .ok s ∧
      scheduleTimer ⟨0x1000, 0x1010, 0, fun _ => 0⟩ 0 s 0x8000 68720 false = .ok (s', 0x1010) ∧
      (∃ t, s'.nodeTimer 0x1010 = .ok t ∧ t.scheduledCount = 32704) ∧
      ¬Punctual 0 (counts 62500000 68720) false
        (scheduleTimer ⟨0x1000, 0x1010, 0, fun _ => 0⟩ 0 s 0x8000 68720 false) := by
  refine ⟨_, _, rfl, rfl, ⟨_, rfl, rfl⟩, ?_⟩
  rintro ⟨n, t, -, ht, -, hcount, -⟩
  cases ht
  exact absurd hcount (by decide)

end CourseOs.Timer
