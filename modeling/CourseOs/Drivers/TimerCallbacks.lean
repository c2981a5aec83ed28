import CourseOs.Drivers.TimerRun

/-!
# Callbacks that call the API

A callback is a script of API calls, chosen by the callback and by the state
it finds.  While it runs, the timer it runs for is out of the queue, and the
interrupt handler uses it again when the callback returns.  `schedule_timer`
and `bcm2836_deschedule_timer` leave it alone as long as the handle is not its
own (`ApiCall.run_spec`), so the handler follows no pointer to freed memory
then, however many passes it makes (`handleLoop_sound`).

A callback that deschedules the timer it runs for frees what the handler uses
next (`fireTimer_descheduled`).  The pass then stops, unless a later call of
the script was given the block of that timer for a new one; the model cannot
tell the old timer from the new one there, and neither can the kernel.

`Permits` is the condition on a script: the blocks it is given are new, and
the handles it names are those of queued timers, or its own.  `SparesRunning`
leaves the last out.  Both are about the passes that are reached, because what
a script does depends on the state it finds.  With callbacks that schedule
timers an interrupt may go on for ever, so the number of passes is an
argument, and running out of them is one of the benign ways to stop.
-/

namespace CourseOs.Timer

open PriorityQueue Relation

variable {s s' u v w : TimerState} {n : PrqNode} {t : ScheduledTimer} {p next now : ℕ}
  {slots : ℕ → ℕ} {own : Set ℕ} {c : ApiCall} {cs : List ApiCall}

/-- A call of the API that a callback makes, with the counter it reads and the
memory it gets if it schedules a timer. -/
inductive ApiCall
  | schedule (mem : Allocation) (now callback delayMs : ℕ) (periodic : Bool)
  | deschedule (handle : ℕ)

/-- What a callback does: the calls it makes, given the callback and the state
it finds. -/
abbrev Script := ℕ → TimerState → List ApiCall

namespace ApiCall

/-- What the call does.  The handle that a request returns is dropped, as
callbacks have no place to keep it. -/
def run : ApiCall → TimerState → Exec TimerState
  | schedule mem now callback delayMs periodic, s =>
      (if periodic then scheduleTimerPeriodic mem now s callback delayMs
        else scheduleTimerOnce mem now s callback delayMs).map Prod.fst
  | deschedule handle, s => descheduleTimer s handle

/-- Blocks are new, and handles are of queued timers or among `own`. -/
def Allowed (own : Set ℕ) : ApiCall → TimerState → Prop
  | schedule mem _ _ _ _, s => Fresh s mem
  | deschedule handle, s => handle ∈ queued s.queue ∨ handle ∈ own

end ApiCall

/-- The calls of a script, in order.  The first one that stops the kernel
stops the script. -/
def runCalls : List ApiCall → TimerState → Exec TimerState
  | [], s => .ok s
  | c :: cs, s => do
      let s ← c.run s
      runCalls cs s

/-- The callback that runs the script, in the state it is called in. -/
def perform (script : Script) : Callback := fun callback s => runCalls (script callback s) s

/-- Each call is allowed when its turn comes, in the state that the calls
before it have left. -/
def Permitted (own : Set ℕ) : List ApiCall → TimerState → Prop
  | [], _ => True
  | c :: cs, s => c.Allowed own s ∧ ∀ s', c.run s = .ok s' → Permitted own cs s'

/-- `timer_handle_interrupt`, for as many passes as there is `fuel`. -/
def handleInterrupt (fuel : ℕ) (call : Callback) (slots : ℕ → ℕ) (now : ℕ) (s : TimerState) :
    Exec TimerState := do
  let (s, next) ← handleLoop call slots now fuel { s with interrupts := false }
  let s ← s.programNext next
  .ok { s with interrupts := true }

theorem timerHandleInterrupt_eq (call : Callback) (slots : ℕ → ℕ) (now : ℕ) (s : TimerState) :
    timerHandleInterrupt call slots now s =
      handleInterrupt (s.queue.count * (now + 1) + 1) call slots now s := rfl

/-- The loop has found the timer `t` of the node `next` due and taken it out
of the queue; its callback finds the state `v`. -/
structure Entered (now : ℕ) (s : TimerState) (next : ℕ) (t : ScheduledTimer) (v : TimerState) :
    Prop where
  peek : prqPeek s.queue = .ok next
  ne : next ≠ 0
  timer : s.nodeTimer next = .ok t
  due : ¬now < t.scheduledCount
  dequeue : ∃ q p, prqDequeue s.queue = .ok (q, p) ∧
    v = { s.withQueue q with calls := t :: s.calls }

/-- A pass whose callback does not deschedule the timer it runs for. -/
def Pass (script : Script) (slots : ℕ → ℕ) (now : ℕ) (s s' : TimerState) : Prop :=
  ∃ next t v, Entered now s next t v ∧ .deschedule next ∉ script t.callback v ∧
    fireTimer (perform script) slots s next = .ok s'

/-- In every pass reached, the callback makes allowed calls; a callback may
name the handle of the timer it runs for. -/
def Permits (script : Script) (slots : ℕ → ℕ) (now : ℕ) (s : TimerState) : Prop :=
  ∀ w next t v, ReflTransGen (Pass script slots now) s w → Entered now w next t v →
    Permitted {next} (script t.callback v) v

/-- In every pass reached, the callback does not deschedule the timer it runs
for. -/
def SparesRunning (script : Script) (slots : ℕ → ℕ) (now : ℕ) (s : TimerState) : Prop :=
  ∀ w next t v, ReflTransGen (Pass script slots now) s w → Entered now w next t v →
    .deschedule next ∉ script t.callback v

/-- What may stop a call besides freed memory: an assertion, a lack of memory,
or that the passes counted are over. -/
def Benign (e : Trap) : Prop := e = .assertion ∨ e = .outOfMemory ∨ e = .diverged

/-- The routine keeps the timers in order, or stops for a benign reason.  It
follows no pointer to freed memory in either case. -/
def Sound (r : Exec TimerState) : Prop :=
  (∃ s, r = .ok s ∧ TimerInv s) ∨ ∃ e, r = .error e ∧ Benign e

/-! ### One call

While a callback runs, the node it runs for is allocated and out of the queue.
A call of the API works on the queue and on blocks that are new, and neither
is that node or its timer; only `bcm2836_deschedule_timer` takes a handle, and
this is where the condition on handles is needed. -/

/-- **An API call** on other timers keeps those that are out of the queue, or
stops for a benign reason. -/
theorem ApiCall.run_spec (h : TimerInv s) (hc : c.Allowed ∅ s) :
    (∃ s', c.run s = .ok s' ∧ TimerInv s' ∧
      ∀ q nq tq, Detached s q nq tq → Detached s' q nq tq) ∨
    ∃ e, c.run s = .error e ∧ Benign e := by
  cases c with
  | schedule mem now callback delayMs periodic =>
      have hrun : (ApiCall.schedule mem now callback delayMs periodic).run s =
          (scheduleTimer mem now s callback delayMs periodic).map Prod.fst := by
        cases periodic <;> rfl
      rw [hrun]
      by_cases hcb : callback = 0
      · refine .inr ⟨.assertion, ?_, .inl rfl⟩
        unfold scheduleTimer
        rw [if_pos hcb]
        rfl
      by_cases hdelay : delayMs = 0
      · refine .inr ⟨.assertion, ?_, .inl rfl⟩
        unfold scheduleTimer
        rw [if_neg hcb, if_pos hdelay]
        rfl
      by_cases hcount : scheduledAt s now delayMs ≤ int32Max
      · rcases scheduleTimer_spec h hc hcb hdelay hcount periodic with
          ⟨s₁, hs₁, hinv, -, -, -, hkeep⟩ | ⟨herr, -⟩
        · rw [hs₁]
          exact .inl ⟨s₁, rfl, hinv, hkeep⟩
        · rw [herr]
          exact .inr ⟨.outOfMemory, rfl, .inr (.inl rfl)⟩
      · refine .inr ⟨.assertion, ?_, .inl rfl⟩
        have hlate : int32Max < (now + countOffset s.frequency delayMs) % 2 ^ 64 :=
          not_le.mp hcount
        unfold scheduleTimer
        rw [if_neg hcb, if_neg hdelay]
        dsimp only
        rw [if_pos hlate]
        rfl
  | deschedule handle =>
      have hmem : handle ∈ queued s.queue := hc.resolve_right (Set.notMem_empty handle)
      obtain ⟨s₁, hs₁, hinv, -, -, -, hkeep⟩ := descheduleTimer_spec h hmem
      exact .inl ⟨s₁, hs₁, hinv, hkeep⟩

/-- A call that is allowed but for the handle `p` does not name another. -/
theorem ApiCall.Allowed.of_ne (hc : c.Allowed {p} s) (hne : c ≠ .deschedule p) :
    c.Allowed ∅ s := by
  cases c with
  | schedule mem now callback delayMs periodic => exact hc
  | deschedule handle => exact .inl (hc.resolve_right fun heq => hne (congrArg _ heq))

/-- **A script** that spares the timer `p`, out of the queue, leaves it as it
is.  It returns, or it stops for one of the benign reasons. -/
theorem runCalls_spec : ∀ {cs : List ApiCall} {s : TimerState}, TimerInv s →
    Detached s p n t → Permitted {p} cs s → .deschedule p ∉ cs →
    (∃ s', runCalls cs s = .ok s' ∧ TimerInv s' ∧ Detached s' p n t) ∨
      ∃ e, runCalls cs s = .error e ∧ Benign e := by
  intro cs
  induction cs with
  | nil => exact fun h hd _ _ => .inl ⟨_, rfl, h, hd⟩
  | cons c cs ih =>
      intro s h hd hperm hspare
      have hne : c ≠ .deschedule p := fun heq => hspare (heq ▸ List.mem_cons_self)
      unfold runCalls
      rcases ApiCall.run_spec h (hperm.1.of_ne hne) with ⟨s₁, hs₁, h₁, hkeep⟩ | ⟨e, he, hb⟩
      · rw [hs₁, Exec.ok_bind]
        exact ih h₁ (hkeep _ _ _ hd) (hperm.2 s₁ hs₁) fun hin =>
          hspare (List.mem_cons_of_mem c hin)
      · rw [he]
        exact .inr ⟨e, rfl, hb⟩

/-! ### One pass

Between the callback and the end of the pass the handler reads the timer
again, through the pointer it read before.  That the timer is as it was is the
point of the previous section; what is left of the pass is then as with a
callback that makes no calls. -/

/-- The state in which the callback of the timer at the head runs.  The timer
has left the queue and is still allocated; what is left of the pass is the
callback and `finishTimer`. -/
theorem Entered.spec (hin : Entered now s next t v) (h : TimerInv s) :
    ∃ n, TimerInv v ∧ Detached v next n t ∧ t.periodicDelay < 2 ^ 32 ∧ n.index = -1 ∧
      ∀ call slots, fireTimer call slots s next =
        (call t.callback v >>= fun u => finishTimer slots u next n.data) := by
  rcases h.peek with ⟨-, hp, -⟩ | ⟨n₀, t₀, hc, hp, hmem, hn₀, ht₀, -⟩
  · exact absurd (Except.ok.inj (hin.peek.symm.trans hp)) hin.ne
  obtain rfl : next = s.queue.heap 1 := Except.ok.inj (hin.peek.symm.trans hp)
  obtain rfl : t = t₀ := Except.ok.inj (hin.timer.symm.trans (nodeTimer_eq hn₀ ht₀))
  obtain ⟨r, n, t₁, hdeq, hinv, hd, hperiod, -, -, -, -, hindex, htimer⟩ := dequeue_spec h hc
  obtain rfl : t = t₁ := Except.ok.inj (hin.timer.symm.trans htimer)
  obtain ⟨q, x, hdeq', rfl⟩ := hin.dequeue
  obtain rfl : r = q := congrArg Prod.fst (Except.ok.inj (hdeq.symm.trans hdeq'))
  let v : TimerState := { s.withQueue r with calls := t :: s.calls }
  obtain ⟨hinv', hq', -⟩ := hinv.frame (u := v) rfl rfl rfl (fun _ _ => rfl) fun _ _ _ _ => rfl
  exact ⟨n, hinv', hd.of_frame hq' (fun _ _ => rfl) rfl, hperiod, hindex, fireTimer_eq hdeq hd⟩

/-- **A pass** whose callback spares the timer it runs for finds that timer as
it was, and frees it or queues it again. -/
theorem fireTimer_sound {script : Script} (h : TimerInv s) (hin : Entered now s next t v)
    (hperm : Permitted {next} (script t.callback v) v)
    (hspare : .deschedule next ∉ script t.callback v) (slots : ℕ → ℕ) :
    Sound (fireTimer (perform script) slots s next) := by
  obtain ⟨n, hv, hd, hperiod, -, hfire⟩ := hin.spec h
  rw [hfire]
  rcases runCalls_spec hv hd hperm hspare with ⟨u, hu, hinv, hdu⟩ | ⟨e, he, hb⟩
  · have hcall : perform script t.callback v = .ok u := hu
    rw [hcall, Exec.ok_bind]
    rcases finishTimer_spec hdu hinv hperiod slots with ⟨-, -, herr⟩ | ⟨herr, -⟩ |
      ⟨s', hs', -, h', -⟩
    · exact .inr ⟨_, herr, .inl rfl⟩
    · exact .inr ⟨_, herr, .inr (.inl rfl)⟩
    · exact .inl ⟨s', hs', h'⟩
  · have hcall : perform script t.callback v = .error e := he
    rw [hcall]
    exact .inr ⟨e, rfl, hb⟩

/-! ### The loop

A script may find a different state in each pass, and may schedule timers that
are due at once.  The number of passes is therefore not bounded by the timers
there were at the start, and the statement is about any number of passes. -/

theorem Permits.head {script : Script} (h : Permits script slots now s)
    (hs : Pass script slots now s s') : Permits script slots now s' :=
  fun w next t v hw => h w next t v (.head hs hw)

theorem SparesRunning.head {script : Script} (h : SparesRunning script slots now s)
    (hs : Pass script slots now s s') : SparesRunning script slots now s' :=
  fun w next t v hw => h w next t v (.head hs hw)

/-- **The loop** follows no pointer to freed memory in any number of passes.
By induction on them, with `fireTimer_sound` for each. -/
theorem handleLoop_sound {script : Script} : ∀ {fuel : ℕ} {s : TimerState}, TimerInv s →
    Permits script slots now s → SparesRunning script slots now s →
    (∃ s' next, handleLoop (perform script) slots now fuel s = .ok (s', next) ∧ TimerInv s' ∧
      prqPeek s'.queue = .ok next) ∨
      ∃ e, handleLoop (perform script) slots now fuel s = .error e ∧ Benign e := by
  intro fuel
  induction fuel with
  | zero => exact fun _ _ _ => .inr ⟨.diverged, rfl, .inr (.inr rfl)⟩
  | succ fuel ih =>
      intro s h hperm hspare
      unfold handleLoop
      rcases h.peek with ⟨-, hpeek, -⟩ | ⟨n, t, hc, hpeek, -, hn, ht, -⟩
      · rw [hpeek, Exec.ok_bind, if_pos rfl]
        exact .inl ⟨s, 0, rfl, h, hpeek⟩
      rw [hpeek, Exec.ok_bind, if_neg hn.1, nodeTimer_eq hn ht, Exec.ok_bind]
      by_cases hlt : now < t.scheduledCount
      · rw [if_pos hlt]
        exact .inl ⟨s, _, rfl, h, hpeek⟩
      rw [if_neg hlt]
      obtain ⟨r, -, -, hdeq, -⟩ := dequeue_spec h hc
      have hin : Entered now s (s.queue.heap 1) t { s.withQueue r with calls := t :: s.calls } :=
        ⟨hpeek, hn.1, nodeTimer_eq hn ht, hlt, r, _, hdeq, rfl⟩
      have hown := hspare s _ t _ .refl hin
      rcases fireTimer_sound h hin (hperm s _ t _ .refl hin) hown slots with
        ⟨s₁, hs₁, h₁⟩ | ⟨e, he, hb⟩
      · have hpass : Pass script slots now s s₁ := ⟨_, t, _, hin, hown, hs₁⟩
        rw [hs₁, Exec.ok_bind]
        exact ih h₁ (hperm.head hpass) (hspare.head hpass)
      · rw [he]
        exact .inr ⟨e, rfl, hb⟩

/-- What only the registers and the log of calls tell apart. -/
theorem TimerInv.of_registers (h : TimerInv s) (hq : u.queue = s.queue)
    (ht : u.timers = s.timers) : TimerInv u :=
  (h.frame (by rw [hq]) (by rw [hq]) (by rw [hq]) (fun _ _ => by rw [hq])
    fun _ _ _ _ => by rw [ht]).1

/-- **`timer_handle_interrupt`** follows no pointer to freed memory and keeps
the timers in order, when no callback deschedules the timer it runs for. -/
theorem handleInterrupt_sound {script : Script} (h : TimerInv s)
    (hperm : Permits script slots now { s with interrupts := false })
    (hspare : SparesRunning script slots now { s with interrupts := false }) (fuel : ℕ) :
    Sound (handleInterrupt fuel (perform script) slots now s) := by
  have h₁ : TimerInv { s with interrupts := false } := h.of_registers rfl rfl
  unfold handleInterrupt
  rcases @handleLoop_sound _ _ _ fuel _ h₁ hperm hspare with
    ⟨s₂, next, hloop, h₂, hpeek⟩ | ⟨e, he, hb⟩
  · obtain ⟨next', s₃, hpeek', hprog, hq₃, ht₃, -⟩ := programNext_spec h₂
    obtain rfl : next = next' := Except.ok.inj (hpeek.symm.trans hpeek')
    rw [hloop, Exec.ok_bind]
    dsimp only
    rw [hprog, Exec.ok_bind]
    exact .inl ⟨_, rfl, h₂.of_registers hq₃ ht₃⟩
  · rw [he]
    exact .inr ⟨e, rfl, hb⟩

/-! ### A callback that frees its own timer

The converse.  When the callback deschedules its own timer, the timer and its
node are freed while the handler still holds pointers to both, and the next
thing the handler does is to read the timer.  The model stops there, unless
the block has been handed out again in the meantime, in which case the source
reads whatever is there now. -/

/-- The call is given the block at `a` for its timer, so that what was freed
there is allocated again. -/
def ApiCall.Takes (a : ℕ) : ApiCall → Prop
  | schedule mem _ _ _ _ => mem.timer = a
  | deschedule _ => False

theorem programNext_timers (h : s.programNext next = .ok s') : s'.timers = s.timers := by
  unfold TimerState.programNext at h
  split at h
  · cases h
    rfl
  · obtain ⟨t, -, h⟩ := Exec.bind_eq_ok.mp h
    cases h
    rfl

/-- `bcm2836_deschedule_timer` frees the timer that the node points to. -/
theorem descheduleTimer_timers (h : descheduleTimer s p = .ok s') :
    ∃ q a, prqRemove s.queue p = .ok q ∧ (s.withQueue q).getPrqNodeData p = .ok a ∧
      s'.timers = Function.update s.timers a none := by
  obtain ⟨q, hrem, h⟩ := Exec.bind_eq_ok.mp h
  obtain ⟨a, hdata, h⟩ := Exec.bind_eq_ok.mp h
  obtain ⟨s₁, hfree, h⟩ := Exec.bind_eq_ok.mp h
  obtain ⟨s₂, hnode, h⟩ := Exec.bind_eq_ok.mp h
  obtain ⟨next, -, h⟩ := Exec.bind_eq_ok.mp h
  obtain ⟨_, -, h₁⟩ := Exec.bind_eq_ok.mp hfree
  obtain ⟨_, -, h₂⟩ := Exec.bind_eq_ok.mp hnode
  cases h₁
  cases h₂
  exact ⟨q, a, hrem, hdata, programNext_timers h⟩

theorem scheduleTimer_timers {mem : Allocation} {callback delayMs handle : ℕ} {periodic : Bool}
    (h : scheduleTimer mem now s callback delayMs periodic = .ok (s', handle)) :
    ∃ t, s'.timers = Function.update s.timers mem.timer (some t) := by
  unfold scheduleTimer at h
  split at h
  · cases h
  split at h
  · cases h
  dsimp only at h
  split at h
  · cases h
  obtain ⟨q, -, h⟩ := Exec.bind_eq_ok.mp h
  obtain ⟨next, -, h⟩ := Exec.bind_eq_ok.mp h
  obtain ⟨t, -, h⟩ := Exec.bind_eq_ok.mp h
  cases h
  exact ⟨_, rfl⟩

/-- A timer freed stays so until its block is handed out again. -/
theorem ApiCall.timers_eq_none {a : ℕ} (hrun : c.run s = .ok s') (htakes : ¬c.Takes a)
    (hfree : s.timers a = none) : s'.timers a = none := by
  cases c with
  | schedule mem now callback delayMs periodic =>
      have hrun' : (scheduleTimer mem now s callback delayMs periodic).map Prod.fst = .ok s' := by
        cases periodic <;> exact hrun
      cases hsched : scheduleTimer mem now s callback delayMs periodic with
      | error e =>
          rw [hsched] at hrun'
          cases hrun'
      | ok r =>
          rw [hsched] at hrun'
          cases hrun'
          obtain ⟨t, ht⟩ := scheduleTimer_timers hsched
          rw [ht, Function.update_of_ne fun heq => htakes heq.symm]
          exact hfree
  | deschedule handle =>
      obtain ⟨q, b, -, -, ht⟩ := descheduleTimer_timers hrun
      rw [ht]
      by_cases hab : a = b
      · rw [hab, Function.update_self]
      · rw [Function.update_of_ne hab]
        exact hfree

theorem runCalls_timers_eq_none {a : ℕ} : ∀ {cs : List ApiCall} {s : TimerState},
    runCalls cs s = .ok s' → (∀ c ∈ cs, ¬c.Takes a) → s.timers a = none → s'.timers a = none := by
  intro cs
  induction cs with
  | nil =>
      intro s hrun _ hfree
      cases hrun
      exact hfree
  | cons c cs ih =>
      intro s hrun htakes hfree
      obtain ⟨s₁, hs₁, hrun⟩ := Exec.bind_eq_ok.mp hrun
      exact ih hrun (fun d hd => htakes d (List.mem_cons_of_mem c hd))
        (ApiCall.timers_eq_none hs₁ (htakes c List.mem_cons_self) hfree)

/-- `prq_remove` of a node that was taken out before leaves that node as it
is. -/
theorem prqRemove_out {q r : Prq} (h : QueueInv q) (hn : NodeAt q p n) (hp : p ∉ queued q)
    (hindex : n.index = -1) (hrun : prqRemove q p = .ok r) : NodeAt r p n := by
  rcases prqRemove_idle h hn hindex with ⟨-, hsame⟩ | ⟨hc, last, -, -, hmoved⟩
  · cases hrun.symm.trans hsame
    exact hn
  · cases hrun.symm.trans hmoved
    refine hn.putNode ?_
    rintro rfl
    exact hp (Indexed.mem_queued (Nat.one_le_iff_ne_zero.mpr hc) le_rfl)

/-- **Descheduling the timer that is out of the queue** frees it. -/
theorem descheduleTimer_detached (h : TimerInv s) (hd : Detached s p n t) (hindex : n.index = -1)
    (hrun : descheduleTimer s p = .ok s') : s'.timers n.data = none := by
  obtain ⟨q, a, hrem, hdata, ht⟩ := descheduleTimer_timers hrun
  have hn : NodeAt (s.withQueue q).queue p n := prqRemove_out h.queue hd.node hd.notMem hindex hrem
  obtain rfl : a = n.data := Except.ok.inj (hdata.symm.trans (getPrqNodeData_eq hn))
  rw [ht, Function.update_self]

/-- A script that deschedules the timer out of the queue ends without it. -/
theorem runCalls_descheduled : ∀ {cs : List ApiCall} {s : TimerState}, TimerInv s →
    Detached s p n t → n.index = -1 → Permitted {p} cs s → .deschedule p ∈ cs →
    (∀ c ∈ cs, ¬c.Takes n.data) → runCalls cs s = .ok s' → s'.timers n.data = none := by
  intro cs
  induction cs with
  | nil => exact fun _ _ _ _ hmem => absurd hmem List.not_mem_nil
  | cons c cs ih =>
      intro s h hd hindex hperm hmem htakes hrun
      have htakes' : ∀ d ∈ cs, ¬d.Takes n.data := fun d hd => htakes d (List.mem_cons_of_mem c hd)
      obtain ⟨s₁, hs₁, hrest⟩ := Exec.bind_eq_ok.mp hrun
      by_cases hc : c = .deschedule p
      · subst hc
        exact runCalls_timers_eq_none hrest htakes' (descheduleTimer_detached h hd hindex hs₁)
      · rcases ApiCall.run_spec h (hperm.1.of_ne hc) with ⟨s₂, hs₂, h₂, hkeep⟩ | ⟨e, he, -⟩
        · obtain rfl : s₁ = s₂ := Except.ok.inj (hs₁.symm.trans hs₂)
          exact ih h₂ (hkeep _ _ _ hd) hindex (hperm.2 s₁ hs₁)
            ((List.mem_cons.mp hmem).resolve_left fun heq => hc heq.symm) htakes' hrest
        · cases he.symm.trans hs₁

/-- **A pass whose callback deschedules the timer it runs for** does not
return, unless the callback was given the block of that timer again. -/
theorem fireTimer_descheduled {script : Script} (h : TimerInv s) (hin : Entered now s next t v)
    (hperm : Permitted {next} (script t.callback v) v)
    (hown : .deschedule next ∈ script t.callback v)
    (hrun : fireTimer (perform script) slots s next = .ok s') :
    ∃ a, v.getPrqNodeData next = .ok a ∧ ∃ c ∈ script t.callback v, c.Takes a := by
  obtain ⟨n, hv, hd, -, hindex, hfire⟩ := hin.spec h
  refine ⟨n.data, getPrqNodeData_eq hd.node, ?_⟩
  by_contra hnone
  rw [hfire] at hrun
  obtain ⟨u, hu, hfinish⟩ := Exec.bind_eq_ok.mp hrun
  have hfree := runCalls_descheduled hv hd hindex hperm hown
    (fun c hc htakes => hnone ⟨c, hc, htakes⟩) hu
  -- the handler reads `periodic_delay` of the freed timer
  obtain ⟨t', htimer, -⟩ := Exec.bind_eq_ok.mp hfinish
  unfold TimerState.timer at htimer
  rw [if_neg hd.timer.1, hfree] at htimer
  cases htimer

/-! ### Runs

The condition is put into the steps of the run: each callback makes calls that
are allowed when it makes them, and none deschedules the timer it runs for.
Handles of queued timers are all that a callback may name. -/

/-- A call of the driver that returns, callbacks making calls of their own.
What they call is allowed when they call it, and no callback takes away the
timer it runs for. -/
inductive ScriptStep : TimerState → TimerState → Prop
  | call {s s' : TimerState} (c : ApiCall) (hc : c.Allowed ∅ s) (h : c.run s = .ok s') :
      ScriptStep s s'
  | interrupt {s s' : TimerState} (script : Script) (slots : ℕ → ℕ) (now fuel : ℕ)
      (hperm : Permits script slots now { s with interrupts := false })
      (hspare : SparesRunning script slots now { s with interrupts := false })
      (h : handleInterrupt fuel (perform script) slots now s = .ok s') : ScriptStep s s'

theorem TimerInv.scriptStep (h : TimerInv s) (hstep : ScriptStep s s') : TimerInv s' := by
  cases hstep with
  | call c hc hrun =>
      rcases ApiCall.run_spec h hc with ⟨s₁, hs₁, h₁, -⟩ | ⟨e, he, -⟩
      · exact Except.ok.inj (hs₁.symm.trans hrun) ▸ h₁
      · cases he.symm.trans hrun
  | interrupt script slots now fuel hperm hspare hrun =>
      rcases handleInterrupt_sound h hperm hspare fuel with ⟨s₁, hs₁, h₁⟩ | ⟨e, he, -⟩
      · exact Except.ok.inj (hs₁.symm.trans hrun) ▸ h₁
      · cases he.symm.trans hrun

/-- In the states of a pass reached from `s`. -/
theorem TimerInv.passes {script : Script} (h : TimerInv s)
    (hperm : Permits script slots now s) (hrun : ReflTransGen (Pass script slots now) s w) :
    TimerInv w := by
  induction hrun with
  | refl => exact h
  | tail hrun hpass ih =>
      obtain ⟨next, t, v, hin, hspare, hfire⟩ := hpass
      rcases fireTimer_sound ih hin (hperm _ next t v hrun hin) hspare slots with
        ⟨s₁, hs₁, h₁⟩ | ⟨e, he, -⟩
      · exact Except.ok.inj (hs₁.symm.trans hfire) ▸ h₁
      · cases he.symm.trans hfire

/-- **Callbacks may use the timer API**, as long as they do not deschedule the
timer they run for: in every run of such calls the queue is in order, and the
next interrupt follows no pointer to freed memory in any number of passes.  A
callback that does deschedule its own timer is never returned from safely: the
pass goes on with the freed timer, and stops unless the callback was given its
block again. -/
theorem callbacks_safe (frequency compare : ℕ) (garbage : ℕ → ℕ) (nodes : ℕ → Option PrqNode)
    (timers : ℕ → Option ScheduledTimer) :
    ∃ s, timerInit frequency compare garbage nodes timers = .ok s ∧
      ∀ u, ReflTransGen ScriptStep s u → TimerInv u ∧
        ∀ script slots now, Permits script slots now { u with interrupts := false } →
          (SparesRunning script slots now { u with interrupts := false } →
            ∀ fuel, Sound (handleInterrupt fuel (perform script) slots now u)) ∧
          ∀ w next t v, ReflTransGen (Pass script slots now) { u with interrupts := false } w →
            Entered now w next t v → .deschedule next ∈ script t.callback v →
            ∀ w', fireTimer (perform script) slots w next = .ok w' →
              ∃ a, v.getPrqNodeData next = .ok a ∧ ∃ c ∈ script t.callback v, c.Takes a := by
  obtain ⟨s, hinit, hinv, -⟩ := timerInit_spec frequency compare garbage nodes timers
  refine ⟨s, hinit, fun u hrun => ?_⟩
  have hu : TimerInv u := Runs.invariant (fun _ _ h hstep => h.scriptStep hstep) hrun hinv
  refine ⟨hu, fun script slots now hperm => ⟨fun hspare => handleInterrupt_sound hu hperm hspare,
    fun w next t v hw hin hown w' hfire => ?_⟩⟩
  have hstart : TimerInv { u with interrupts := false } := hu.of_registers rfl rfl
  have hw' : TimerInv w := hstart.passes hperm hw
  exact fireTimer_descheduled hw' hin (hperm w next t v hw hin) hown hfire

/-- A periodic timer whose callback deschedules it: the handler reads the
freed timer when the callback is back. -/
theorem callback_frees_own_timer :
    ∃ s u, timerInit 1000 0 (fun _ => 0) (fun _ => none) (fun _ => none) = .ok s ∧
      scheduleTimerPeriodic ⟨0x1000, 0x1010, 0, fun _ => 0⟩ 0 s 0x8000 10 = .ok (u, 0x1010) ∧
      timerHandleInterrupt (perform fun _ _ => [.deschedule 0x1010]) (fun _ => 0) 12 u =
        .error .dangling :=
  ⟨_, _, rfl, rfl, rfl⟩

end CourseOs.Timer
