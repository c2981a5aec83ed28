import CourseOs.Drivers.Firings
import CourseOs.Drivers.TimerOps

/-!
# The interrupt handler

A pass of the loop of `timer_handle_interrupt` takes the timer at the head out
of the queue, runs its callback and then frees the timer or queues it again
(`finishTimer_spec`).  With callbacks that do not call the API the loop runs
`Firings` until no timer at the head is due (`handleLoop_spec`), and the calls
it makes are those of the log.  It stops at the assertion of a periodic timer
that is due past `INT32_MAX`.

A pass never runs out of memory: the timer it queues again goes to the slot it
was taken from, so the queue does not have to grow.  And the loop ends,
because each firing uses up part of the `workload` of the timetable.

`MadeCalls` connects the log of the abstract run with the calls of the driver:
the firings are those of the timetable, and each call has the timer that its
node had, with the deadline of the firing.
-/

namespace CourseOs.Timer

open PriorityQueue Relation

variable {s s' u : TimerState} {n : PrqNode} {t : ScheduledTimer} {e : Entry} {p q now : ℕ}
  {slots : ℕ → ℕ}

/-! ### The fields no firing changes

A log of handles and deadlines says which callbacks ran, provided that the
callback, the period and the handle of a timer stay what they were.  `fixedAt`
follows these through the changes of a pass. -/

/-- What no firing changes in a timer: its handle, its callback and its
period. -/
def ScheduledTimer.fixed (t : ScheduledTimer) : ℕ × ℕ × ℕ := (t.handle, t.callback, t.periodicDelay)

/-- What is fixed of the timer of the node at `p`, if node and timer are
allocated. -/
def fixedAt (s : TimerState) (p : ℕ) : Option (ℕ × ℕ × ℕ) :=
  ((s.queue.nodes p).map PrqNode.client).bind fun c => (s.timers c.2).map ScheduledTimer.fixed

theorem fixedAt_eq (hn : NodeAt s.queue p n) (ht : TimerAt s n.data t) :
    fixedAt s p = some t.fixed := by
  unfold fixedAt
  rw [hn.2, Option.map_some, Option.bind_some]
  show (s.timers n.data).map _ = _
  rw [ht.2]
  rfl

/-- Fixed parts do not depend on priorities and indices, nor on other timers. -/
theorem fixedAt_congr (hq : (u.queue.nodes p).map PrqNode.client =
    (s.queue.nodes p).map PrqNode.client)
    (ht : ∀ n, s.queue.nodes p = some n → u.timers n.data = s.timers n.data) :
    fixedAt u p = fixedAt s p := by
  unfold fixedAt
  rw [hq]
  cases hn : s.queue.nodes p with
  | none => rfl
  | some n =>
      rw [Option.map_some, Option.bind_some, Option.bind_some]
      show (u.timers n.data).map _ = (s.timers n.data).map _
      rw [ht n hn]

/-! ### The end of a pass

After its callback a timer is freed or queued again.  It is queued with the
deadline it has just met as its priority, since the source reads
`scheduled_count` before it adds the period. -/

/-- A periodic timer set to its next deadline, before it is queued again.  Its
node gets the deadline it has met as its priority. -/
def requeued (s : TimerState) (p : ℕ) (n : PrqNode) (t : ScheduledTimer) : TimerState :=
  (s.putTimer n.data { t with scheduledCount := t.scheduledCount + t.periodicDelay }).putNode p
    { n with priority := t.scheduledCount }

theorem finishTimer_periodic (hd : Detached s p n t) (hperiod : t.periodicDelay < 2 ^ 32)
    (hne : t.periodicDelay ≠ 0) (hle : t.scheduledCount ≤ int32Max) (slots : ℕ → ℕ) :
    finishTimer slots s p n.data = (prqEnqueue slots (requeued s p n t).queue p).map fun q =>
      (requeued s p n t).withQueue q := by
  have hwrap : (t.scheduledCount + t.periodicDelay) % 2 ^ 64 =
      t.scheduledCount + t.periodicDelay := by
    have hle' : t.scheduledCount ≤ 2 ^ 31 - 1 := hle
    exact Nat.mod_eq_of_lt (by omega)
  unfold finishTimer
  rw [hd.timer.timer_eq, Exec.ok_bind, if_neg hne, hwrap]
  dsimp only
  rw [if_neg (not_lt.mpr hle), NodeAt.node_eq (s := (s.putTimer n.data _).queue) hd.node,
    Exec.ok_bind]
  show (prqEnqueue slots (requeued s p n t).queue p >>= _) = _
  cases prqEnqueue slots (requeued s p n t).queue p <;> rfl

/-- A timer that is due, after its callback: it stops at the assertion, finds
no room in the queue, or has fired and is in its next place. -/
theorem finishTimer_spec (hd : Detached s p n t) (h : TimerInv s)
    (hperiod : t.periodicDelay < 2 ^ 32) (slots : ℕ → ℕ) :
    (t.periodicDelay ≠ 0 ∧ int32Max < t.scheduledCount ∧
      finishTimer slots s p n.data = .error .assertion) ∨
    (finishTimer slots s p n.data = .error .outOfMemory ∧
      s.queue.count + 2 = s.queue.heapSize) ∨
    ∃ s', finishTimer slots s p n.data = .ok s' ∧
      (t.periodicDelay ≠ 0 → t.scheduledCount ≤ int32Max) ∧ TimerInv s' ∧ SameRegisters s s' ∧
      s'.calls = s.calls ∧
      timetable s' = Function.update (timetable s) p (if t.periodicDelay = 0 then none else
        some ⟨t.scheduledCount, t.scheduledCount + t.periodicDelay, t.periodicDelay⟩) ∧
      ∀ q, (timetable s' q).isSome → fixedAt s' q = fixedAt s q := by
  have hnone : timetable s p = none := timetable_of_notMem hd.notMem
  have hothers : ∀ {u : TimerState}, (∀ q, q ≠ p → u.queue.nodes q = s.queue.nodes q) →
      (∀ a, a ≠ n.data → u.timers a = s.timers a) →
      ∀ q, q ≠ p → (timetable s q).isSome → fixedAt u q = fixedAt s q := by
    intro u hnodes htimers q hqp hq
    obtain ⟨e, he⟩ := Option.isSome_iff_exists.mp hq
    obtain ⟨nq, -, hnq, -⟩ := h.linked.held q (mem_of_timetable he)
    exact fixedAt_congr (by rw [hnodes q hqp]) fun nq' hnq' =>
      htimers _ (hd.apart q (mem_of_timetable he) nq' ⟨hnq.1, hnq'⟩)
  have hself : ∀ {A : Timetable} {q}, A = timetable s → (A q).isSome → q ≠ p := by
    rintro A q rfl hq rfl
    rw [hnone] at hq
    cases hq
  by_cases honce : t.periodicDelay = 0
  · -- a one-shot timer is freed
    obtain ⟨s', hfree, hinv, -, htable, hr, hcalls, -, -, hnodes, htimers⟩ := hd.free h
    refine .inr (.inr ⟨s', ?_, fun hne => absurd honce hne, hinv, hr, hcalls, ?_, fun q hq => ?_⟩)
    · unfold finishTimer
      rw [hd.timer.timer_eq, Exec.ok_bind, if_pos honce]
      exact hfree
    · rw [htable, if_pos honce, ← hnone, Function.update_eq_self]
    · exact hothers hnodes htimers q (hself htable hq) (htable ▸ hq)
  by_cases hmax : int32Max < t.scheduledCount
  · refine .inl ⟨honce, hmax, ?_⟩
    unfold finishTimer
    rw [hd.timer.timer_eq, Exec.ok_bind, if_neg honce]
    exact if_pos hmax
  -- a periodic timer is queued at the count it was due at
  have hnodes : ∀ q, q ≠ p → (requeued s p n t).queue.nodes q = s.queue.nodes q := fun q hq =>
    Prq.putNode_nodes_of_ne _ hq
  have htimers : ∀ a, a ≠ n.data → (requeued s p n t).timers a = s.timers a :=
    fun a ha => Function.update_of_ne ha _ _
  obtain ⟨hinv₃, hq₃, htable₃⟩ := hd.frame h (u := requeued s p n t) rfl rfl rfl hnodes htimers
  have hd₃ : Detached (requeued s p n t) p { n with priority := t.scheduledCount }
      { t with scheduledCount := t.scheduledCount + t.periodicDelay } := by
    refine ⟨⟨hd.node.1, Prq.putNode_nodes_self ..⟩, ⟨hd.timer.1, Function.update_self ..⟩,
      by rw [hq₃]; exact hd.notMem, fun q hq nq hnq => ?_⟩
    rw [hq₃] at hq
    have hqp : q ≠ p := by
      rintro rfl
      exact hd.notMem hq
    exact hd.apart q hq nq ⟨hnq.1, (hnodes q hqp).symm.trans hnq.2⟩
  have hrun := finishTimer_periodic hd hperiod honce (not_lt.mp hmax) slots
  rcases hinv₃.enqueue hd₃
    (show (t.scheduledCount : ℤ) ≤ ((t.scheduledCount + t.periodicDelay : ℕ) : ℤ) by omega)
    hperiod slots with ⟨r, henq, hinv₄, htable₄, hclient, -⟩ | ⟨herr, hfull⟩
  · rw [henq] at hrun
    refine .inr (.inr ⟨(requeued s p n t).withQueue r, hrun, fun _ => not_lt.mp hmax, hinv₄,
      ⟨rfl, rfl, rfl⟩, rfl, ?_, fun q hq => ?_⟩)
    · rw [htable₄, htable₃, if_neg honce]
      rfl
    · have hsame : fixedAt ((requeued s p n t).withQueue r) q = fixedAt (requeued s p n t) q :=
        fixedAt_congr (hclient q) fun _ _ => rfl
      rw [hsame]
      by_cases hqp : q = p
      · rw [hqp, fixedAt_eq hd₃.node hd₃.timer, fixedAt_eq hd.node hd.timer]
        rfl
      · rw [htable₄, htable₃, Function.update_of_ne hqp] at hq
        exact hothers hnodes htimers q hqp hq
  · rw [herr] at hrun
    exact .inr (.inl ⟨hrun, hfull⟩)

/-! ### A pass

The timer at the head leaves the queue, its callback runs, and `finishTimer`
ends the pass.  The state in between is that of a queue in order with one
timer beside it (`Detached`). -/

/-- What is taken out of the queue at the start of a pass: the node at the
head, with its timer, which both stay allocated.  The timetable loses this
entry and no other, and there is room to queue the node again. -/
theorem dequeue_spec (h : TimerInv s) (hp : s.queue.count ≠ 0) :
    ∃ r n t, prqDequeue s.queue = .ok (r, s.queue.heap 1) ∧ TimerInv (s.withQueue r) ∧
      Detached (s.withQueue r) (s.queue.heap 1) n t ∧ t.periodicDelay < 2 ^ 32 ∧
      timetable s (s.queue.heap 1) = some (entryOf n t) ∧
      timetable (s.withQueue r) = Function.update (timetable s) (s.queue.heap 1) none ∧
      r.count + 2 < r.heapSize ∧ (∀ q, fixedAt (s.withQueue r) q = fixedAt s q) ∧
      n.index = -1 ∧ s.nodeTimer (s.queue.heap 1) = .ok t := by
  obtain ⟨r, hdeq, hr, hq, hk, hcount, hsize, n₀, hn₀, hindex⟩ := prqDequeue_spec h.queue hp
  have hmem : s.queue.heap 1 ∈ queued s.queue := ⟨1, le_rfl, Nat.pos_of_ne_zero hp, rfl⟩
  obtain ⟨n, t, hn, ht, hentry⟩ := h.linked.entry hmem
  obtain ⟨hinv, htable⟩ := h.takeOut hr hq hk
  obtain ⟨n', hc, hd⟩ := h.detached_takeOut hq hk hmem hn ht
  have hsame : entryOf n' t = entryOf n t := by
    show Entry.mk n'.client.1 _ _ = Entry.mk n.client.1 _ _
    rw [hc]
  obtain rfl : n₀ = n' := Option.some.inj (hn₀.2.symm.trans hd.node.2)
  refine ⟨r, n₀, t, hdeq, hinv, hd, h.period_lt _ _ hentry, hsame ▸ hentry, htable, ?_,
    fun q => ?_, hindex, nodeTimer_eq hn ht⟩
  · have hroom := h.queue.room
    omega
  · exact fixedAt_congr (hk.client q) fun _ _ => rfl

/-- A pass runs the callback while the timer is out of the queue. -/
theorem fireTimer_eq {r : Prq} (hdeq : prqDequeue s.queue = .ok (r, p))
    (hd : Detached (s.withQueue r) p n t) (call : Callback) (slots : ℕ → ℕ) :
    fireTimer call slots s p = (call t.callback { s.withQueue r with calls := t :: s.calls } >>=
      fun u => finishTimer slots u p n.data) := by
  unfold fireTimer
  rw [hdeq, Exec.ok_bind]
  dsimp only
  rw [getPrqNodeData_eq hd.node, Exec.ok_bind, hd.timer.timer_eq, Exec.ok_bind]
  rfl

/-- **One pass** with a callback that does not call the API: the timer at the
head fires, or the pass stops at the assertion. -/
theorem fireTimer_spec (h : TimerInv s) (hp : s.queue.count ≠ 0)
    (he : timetable s (s.queue.heap 1) = some e) (slots : ℕ → ℕ) :
    (e.period ≠ 0 ∧ int32Max < e.deadline ∧
      fireTimer idle slots s (s.queue.heap 1) = .error .assertion) ∨
    ∃ s' t, fireTimer idle slots s (s.queue.heap 1) = .ok s' ∧
      (e.period ≠ 0 → e.deadline ≤ int32Max) ∧ TimerInv s' ∧ SameRegisters s s' ∧
      timetable s' = (timetable s).fire (s.queue.heap 1) e ∧ s'.calls = t :: s.calls ∧
      fixedAt s (s.queue.heap 1) = some t.fixed ∧ t.scheduledCount = e.deadline ∧
      t.periodicDelay = e.period ∧ ∀ q, (timetable s' q).isSome → fixedAt s' q = fixedAt s q := by
  obtain ⟨r, n, t, hdeq, hinv, hd, hperiod, hentry, htable, hroom, hfixed, -⟩ := dequeue_spec h hp
  rw [he, Option.some.injEq] at hentry
  subst hentry
  let s₂ : TimerState := { s.withQueue r with calls := t :: s.calls }
  obtain ⟨hinv₂, hq₂, htable₂⟩ := hinv.frame (u := s₂) rfl rfl rfl (fun _ _ => rfl)
    fun _ _ _ _ => rfl
  have hd₂ : Detached s₂ (s.queue.heap 1) n t := hd.of_frame hq₂ (fun _ _ => rfl) rfl
  have hrun : fireTimer idle slots s (s.queue.heap 1) =
      finishTimer slots s₂ (s.queue.heap 1) n.data := fireTimer_eq hdeq hd idle slots
  rw [hrun]
  rcases finishTimer_spec hd₂ hinv₂ hperiod slots with herr | ⟨-, hfull⟩ |
    ⟨s', hs', hmax, hinv', hr', hcalls, htable', hfixed'⟩
  · exact .inl herr
  · replace hfull : r.count + 2 = r.heapSize := hfull
    omega
  · refine .inr ⟨s', t, hs', hmax, hinv', ⟨hr'.frequency, hr'.compare, hr'.unmasked⟩, ?_, hcalls,
      ?_, rfl, rfl, fun q hq => (hfixed' q hq).trans (hfixed q)⟩
    · rw [htable', htable₂, htable, Function.update_idem]
      rfl
    · rw [← hfixed]
      exact fixedAt_eq hd.node hd.timer

/-! ### The loop

The run of passes as a run of firings.  The fuel of the loop is a bound on the
number of passes: each firing uses up at least one count between a deadline
and `now`. -/

/-- The handle and deadline of each call, as a log of firings has them. -/
def firingsOf (log : List (ℕ × ScheduledTimer)) : List (ℕ × ℕ) :=
  log.map fun x => (x.1, x.2.scheduledCount)

/-- `s'` is `s` after the callbacks of `log`, each with the node it was run
for.  A periodic timer among them has passed the assertion on its count. -/
structure MadeCalls (now : ℕ) (s s' : TimerState) (log : List (ℕ × ScheduledTimer)) : Prop where
  firings : Firings now (timetable s) (firingsOf log) (timetable s')
  calls : s'.calls = (log.map Prod.snd).reverse ++ s.calls
  fixed : ∀ x ∈ log, fixedAt s x.1 = some x.2.fixed
  asserted : ∀ x ∈ log, x.2.periodicDelay ≠ 0 → x.2.scheduledCount ≤ int32Max

/-- A periodic timer comes up that is due past `INT32_MAX`.  The assertion is
about the count it was due at, so it stops one firing late. -/
def RunsPast (now : ℕ) (A : Timetable) : Prop :=
  ∃ log A' p e, Firings now A log A' ∧ A'.Head p e ∧ e.deadline ≤ now ∧ e.period ≠ 0 ∧
    int32Max < e.deadline

/-- **The loop** fires timers at the head of the queue until none there is
due, or stops at the assertion.  By induction on the passes left, which are
more than the firings to come. -/
theorem handleLoop_spec (slots : ℕ → ℕ) (now : ℕ) (S : Finset ℕ) :
    ∀ fuel s, TimerInv s → (∀ p e, timetable s p = some e → p ∈ S) →
      workload now S (timetable s) < fuel →
      (handleLoop idle slots now fuel s = .error .assertion ∧ RunsPast now (timetable s)) ∨
      ∃ s' next log, handleLoop idle slots now fuel s = .ok (s', next) ∧
        prqPeek s'.queue = .ok next ∧ TimerInv s' ∧ SameRegisters s s' ∧
        MadeCalls now s s' log ∧
        ((timetable s' = fun _ => none) ∨
          ∃ e, (timetable s').Head next e ∧ now < e.deadline) := by
  intro fuel
  induction fuel with
  | zero => exact fun _ _ _ h => absurd h (Nat.not_lt_zero _)
  | succ fuel ih =>
      intro s h hS hwork
      unfold handleLoop
      rcases h.peek with ⟨-, hpeek, hnone⟩ | ⟨n, t, hc, hpeek, hmem, hn, ht, hhead⟩
      · rw [hpeek, Exec.ok_bind, if_pos rfl]
        exact .inr ⟨s, 0, [], rfl, hpeek, h, ⟨rfl, rfl, rfl⟩, ⟨.nil _, rfl, nofun, nofun⟩,
          Or.inl hnone⟩
      rw [hpeek, Exec.ok_bind, if_neg hn.1, nodeTimer_eq hn ht, Exec.ok_bind]
      by_cases hlt : now < t.scheduledCount
      · rw [if_pos hlt]
        exact .inr ⟨s, _, [], rfl, hpeek, h, ⟨rfl, rfl, rfl⟩, ⟨.nil _, rfl, nofun, nofun⟩,
          Or.inr ⟨_, hhead, hlt⟩⟩
      rw [if_neg hlt]
      have hdue : (entryOf n t).deadline ≤ now := not_lt.mp hlt
      rcases fireTimer_spec h hc hhead.1 slots with ⟨hperiod, hpast, herr⟩ |
        ⟨s₁, t₁, hfire, hle, h₁, hr₁, htable₁, hcalls₁, hfixed, hcount, hperiod, hkept⟩
      · rw [herr]
        exact .inl ⟨rfl, [], _, _, _, .nil _, hhead, hdue, hperiod, hpast⟩
      have hS₁ : ∀ p e, timetable s₁ p = some e → p ∈ S := by
        intro p e hp
        rw [htable₁] at hp
        by_cases hp₁ : p = s.queue.heap 1
        · rw [hp₁]
          exact hS _ _ hhead.1
        · rw [Timetable.fire_of_ne hp₁] at hp
          exact hS p e hp
      have hless := workload_fire hhead hdue (hS _ _ hhead.1)
      rw [← htable₁] at hless
      rw [hfire, Exec.ok_bind]
      rcases ih s₁ h₁ hS₁ (by omega) with ⟨herr, log, A, p, e, hrun, hrest⟩ |
        ⟨s₂, next, log, hloop, hpeek₂, h₂, hr₂, hmade, hend⟩
      · refine .inl ⟨herr, _, A, p, e, .cons hhead hdue (htable₁ ▸ hrun), hrest⟩
      · refine .inr ⟨s₂, next, (s.queue.heap 1, t₁) :: log, hloop, hpeek₂, h₂, hr₁.trans hr₂,
          ⟨?_, ?_, ?_, ?_⟩, hend⟩
        · have hrest : Firings now ((timetable s).fire (s.queue.heap 1) (entryOf n t))
              (firingsOf log) (timetable s₂) := htable₁ ▸ hmade.firings
          have hcons : firingsOf ((s.queue.heap 1, t₁) :: log) =
              (s.queue.heap 1, (entryOf n t).deadline) :: firingsOf log := by
            show (_, t₁.scheduledCount) :: _ = _
            rw [hcount]
            rfl
          rw [hcons]
          exact .cons hhead hdue hrest
        · rw [hmade.calls, hcalls₁, List.map_cons, List.reverse_cons, List.append_assoc]
          rfl
        · intro x hx
          rcases List.mem_cons.mp hx with rfl | hx
          · exact hfixed
          · obtain ⟨e, j, he, -, -⟩ := hmade.firings.of_mem (List.mem_map_of_mem hx)
            rw [← hkept x.1 (Option.isSome_iff_exists.mpr ⟨e, he⟩), hmade.fixed x hx]
        · intro x hx hne
          rcases List.mem_cons.mp hx with rfl | hx
          · rw [hcount]
            exact hle (hperiod ▸ hne)
          · exact hmade.asserted x hx hne

/-- **`timer_handle_interrupt`** fires timers in order of priority until the
one at the head of the queue is not due, and aims at it; or it stops at the
assertion. -/
theorem timerHandleInterrupt_spec (h : TimerInv s) (ha : Aimed s) (slots : ℕ → ℕ) (now : ℕ) :
    (timerHandleInterrupt idle slots now s = .error .assertion ∧ RunsPast now (timetable s)) ∨
    ∃ s' log, timerHandleInterrupt idle slots now s = .ok s' ∧ TimerInv s' ∧ Aimed s' ∧
      MadeCalls now s s' log ∧
      ((timetable s' = fun _ => none) ∨
        ∃ p e, (timetable s').Head p e ∧ now < e.deadline) := by
  obtain ⟨h₁, -, htable₁⟩ := h.frame (u := { s with interrupts := false }) rfl rfl rfl
    (fun _ _ => rfl) fun _ _ _ _ => rfl
  -- the queued nodes, of which there are `count`
  let S : Finset ℕ := (Finset.Icc 1 s.queue.count).image s.queue.heap
  have hS : ∀ p e, timetable s p = some e → p ∈ S := by
    intro p e hp
    obtain ⟨i, hi, hic, rfl⟩ := mem_of_timetable hp
    exact Finset.mem_image_of_mem _ (Finset.mem_Icc.mpr ⟨hi, hic⟩)
  have hcard : S.card ≤ s.queue.count := by
    refine Finset.card_image_le.trans ?_
    rw [Nat.card_Icc]
    omega
  have hwork : workload now S (timetable s) < s.queue.count * (now + 1) + 1 :=
    Nat.lt_succ_of_le ((workload_le now S _).trans (Nat.mul_le_mul_right _ hcard))
  unfold timerHandleInterrupt
  rcases handleLoop_spec slots now S _ { s with interrupts := false } h₁
    (fun p e hp => hS p e (htable₁ ▸ hp)) (htable₁ ▸ hwork) with
    ⟨herr, hpast⟩ | ⟨s₂, next, log, hloop, hpeek, h₂, hr, hmade, hend⟩
  · refine .inl ⟨?_, htable₁ ▸ hpast⟩
    rw [herr]
    rfl
  have hfirings : Firings now (timetable s) (firingsOf log) (timetable s₂) :=
    htable₁ ▸ hmade.firings
  have hmask : (∃ p e, timetable s₂ p = some e) → s₂.unmasked = true := by
    rintro ⟨p, e, hp⟩
    rw [hr.unmasked]
    rcases ha with ⟨-, -, -, -, hu⟩ | ⟨hnone, -⟩
    · exact hu
    · rw [hnone] at hfirings
      have hempty := Runs.invariant (I := fun A : Timetable => ∀ p, A p = none)
        (fun A A' hA ⟨q, e, hq, _⟩ => by cases (hA q).symm.trans hq.1) hfirings.fires fun _ => rfl
      cases (hempty p).symm.trans hp
  obtain ⟨next', s₃, hpeek', hprog, hq₃, ht₃, hcalls₃, haim⟩ := programNext_spec h₂
  obtain rfl : next = next' := Except.ok.inj (hpeek.symm.trans hpeek')
  let s₄ : TimerState := { s₃ with interrupts := true }
  obtain ⟨h₄, -, htable₄⟩ := h₂.frame (u := s₄) (congrArg Prq.heap hq₃)
    (congrArg Prq.count hq₃) (congrArg Prq.heapSize hq₃) (fun p _ => congrArg (Prq.nodes · p) hq₃)
    fun p _ n _ => congrFun ht₃ n.data
  refine .inr ⟨s₄, log, ?_, h₄, haim hmask, ⟨htable₄ ▸ hfirings, ?_, hmade.fixed,
    hmade.asserted⟩, ?_⟩
  · rw [hloop, Exec.ok_bind]
    dsimp only
    rw [hprog, Exec.ok_bind]
  · exact hcalls₃.trans hmade.calls
  · rw [htable₄]
    rcases hend with hnone | ⟨e, hhead, hlt⟩
    · exact Or.inl hnone
    · exact Or.inr ⟨_, e, hhead, hlt⟩

/-- Up to `INT32_MAX` an interrupt returns, since what is due then is not past
it.  Nothing that is left in the queue is due. -/
theorem timerHandleInterrupt_of_le (h : TimerInv s) (ha : Aimed s) (hnow : now ≤ int32Max)
    (slots : ℕ → ℕ) :
    ∃ s' log, timerHandleInterrupt idle slots now s = .ok s' ∧ TimerInv s' ∧ Aimed s' ∧
      MadeCalls now s s' log ∧
      ((timetable s' = fun _ => none) ∨
        ∃ p e, (timetable s').Head p e ∧ now < e.deadline) := by
  rcases timerHandleInterrupt_spec h ha slots now with
    ⟨-, _, _, _, _, -, -, hdue, -, hpast⟩ | hok
  · exact absurd (hdue.trans hnow) (not_le.mpr hpast)
  · exact hok

end CourseOs.Timer
