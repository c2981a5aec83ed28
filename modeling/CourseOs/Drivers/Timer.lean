import CourseOs.Ds.PriorityQueue

/-!
# The generic timer

`drivers/chipset/bcm2836/timer.c`.  A timer is a `ScheduledTimer` and the
queue node that points to it; the node's priority orders the queue, and the
timer's `scheduled_count` is when it is due.  The handle that a client gets is
the address of the node.  `TimerState` holds both stores, the registers the
driver writes, and the callbacks made so far, the last one first.

The counter is read once in each routine that needs it, and what it reads is
an argument of that routine.  So is what a callback does:
`timerHandleInterrupt` takes it as a routine on the state, and `idle` is a
callback that does not call the timer API.

Two things of the source are worth a look.  `count_offset` is a product of
32-bit integers, although the variable it goes to has 64 bits.  And the
interrupt handler queues a periodic timer again with the count it was due at
as its priority, where `schedule_timer` takes the count it will be due at: the
two orders, of priorities and of deadlines, are not the same after that.
-/

namespace CourseOs.Timer

open PriorityQueue

/-- `ScheduledTimer`: when it is due, its handle, what to call, and the counts
between two firings, or 0 for a timer that fires once. -/
structure ScheduledTimer where
  scheduledCount : ℕ
  handle : ℕ
  callback : ℕ
  periodicDelay : ℕ
  deriving DecidableEq, Repr

/-- The driver, its timers and its registers.  The counter is not part of it,
since it goes on by itself; what it reads is an argument of the routines that
read it. -/
structure TimerState where
  /-- `CNTFRQ`. -/
  frequency : ℕ
  /-- `scheduled_timers`, with all nodes. -/
  queue : Prq
  /-- The timer allocated at an address, if any. -/
  timers : ℕ → Option ScheduledTimer
  /-- `CNTP_CVAL`. -/
  compare : ℕ
  /-- `CNTP_CTL` enables the timer with its output unmasked. -/
  unmasked : Bool
  /-- `Core0TimersInterruptControl` is `PHYSICAL_SECURE_TIMER`. -/
  interrupts : Bool
  /-- The timers whose callbacks ran, as they were then, the latest first. -/
  calls : List ScheduledTimer

/-- What the allocator gives `schedule_timer`: two blocks, and what they and
the slots of a larger queue hold. -/
structure Allocation where
  timer : ℕ
  node : ℕ
  index : ℤ
  slots : ℕ → ℕ

/-- `INT32_MAX`, the largest priority of the queue and so the largest count a
timer can be queued with. -/
abbrev int32Max : ℕ := 2 ^ 31 - 1

namespace TimerState

/-- The timer at an address.  A null pointer and a timer that has been freed
stop the kernel, for different reasons. -/
def timer (s : TimerState) (p : ℕ) : Exec ScheduledTimer :=
  if p = 0 then .error .nullDereference
  else match s.timers p with
    | some t => .ok t
    | none => .error .dangling

/-- `get_prq_node_data`: the data of a node is the address of its timer. -/
def getPrqNodeData (s : TimerState) (node : ℕ) : Exec ℕ := do
  let n ← s.queue.node node
  .ok n.data

/-- The timer of a node, through the pointer in the node.  Both have to be
allocated. -/
def nodeTimer (s : TimerState) (node : ℕ) : Exec ScheduledTimer := do
  let p ← s.getPrqNodeData node
  s.timer p

/-- The node at `p` becomes `n`, whether it is queued or not. -/
def putNode (s : TimerState) (p : ℕ) (n : PrqNode) : TimerState :=
  { s with queue := s.queue.putNode p n }

/-- The timer at `p` becomes `t`, and all other timers stay as they are. -/
def putTimer (s : TimerState) (p : ℕ) (t : ScheduledTimer) : TimerState :=
  { s with timers := Function.update s.timers p (some t) }

/-- The queue becomes `q`. -/
def withQueue (s : TimerState) (q : Prq) : TimerState := { s with queue := q }

/-- `kfree`, of a timer.  Freeing what is not allocated stops the model. -/
def freeTimer (s : TimerState) (p : ℕ) : Exec TimerState := do
  let _ ← s.timer p
  .ok { s with timers := Function.update s.timers p none }

/-- `prq_free_node`.  Nothing is done about the queue, which may still have
the node. -/
def freeNode (s : TimerState) (node : ℕ) : Exec TimerState := do
  let _ ← s.queue.node node
  .ok { s with queue := { s.queue with nodes := Function.update s.queue.nodes node none } }

/-- The end of an interrupt and of `bcm2836_deschedule_timer`: mask the
interrupt, or set the compare value to that of the next timer.  The interrupt
is not unmasked here, for it is unmasked wherever a timer is queued. -/
def programNext (s : TimerState) (next : ℕ) : Exec TimerState :=
  if next = 0 then .ok { s with unmasked := false }
  else do
    let t ← s.nodeTimer next
    .ok { s with compare := t.scheduledCount }

end TimerState

/-- What a callback does to the driver, given its number and the state it
finds.  It may stop the kernel. -/
abbrev Callback := ℕ → TimerState → Exec TimerState

/-- A callback that does not call the timer API.  Whatever else it does is no
part of the driver's state. -/
def idle : Callback := fun _ s => .ok s

/-- `bcm2836_timer_init`.  The compare value is whatever the register holds. -/
def timerInit (frequency compare : ℕ) (garbage : ℕ → ℕ) (nodes : ℕ → Option PrqNode)
    (timers : ℕ → Option ScheduledTimer) : Exec TimerState := do
  let q ← prqCreate garbage nodes
  .ok ⟨frequency, q, timers, compare, false, true, []⟩

/-- `count_offset`: the product is one of 32-bit integers, and is only then
made one of 64. -/
def countOffset (frequency delayMs : ℕ) : ℕ := frequency / 1000 * delayMs % 2 ^ 32

/-- `schedule_timer`.  The count is checked against `INT32_MAX` after both
blocks have been allocated, and since it stops the kernel, before anything is
queued. -/
def scheduleTimer (mem : Allocation) (now : ℕ) (s : TimerState) (callback delayMs : ℕ)
    (periodic : Bool) : Exec (TimerState × ℕ) :=
  if callback = 0 then .error .assertion
  else if delayMs = 0 then .error .assertion
  else
    let scheduledCount := (now + countOffset s.frequency delayMs) % 2 ^ 64
    if int32Max < scheduledCount then .error .assertion
    else do
      let s := (s.putTimer mem.timer ⟨scheduledCount, mem.node, callback,
        if periodic then countOffset s.frequency delayMs else 0⟩).putNode mem.node
          ⟨mem.index, scheduledCount, mem.timer⟩
      let q ← prqEnqueue mem.slots s.queue mem.node
      let next ← prqPeek q
      let t ← (s.withQueue q).nodeTimer next
      .ok ({ s.withQueue q with
        compare := t.scheduledCount, unmasked := true, interrupts := true }, mem.node)

/-- `bcm2836_schedule_timer_once`: a timer with the period 0. -/
def scheduleTimerOnce (mem : Allocation) (now : ℕ) (s : TimerState) (callback delayMs : ℕ) :
    Exec (TimerState × ℕ) := scheduleTimer mem now s callback delayMs false

/-- `bcm2836_schedule_timer_periodic`: the period is the delay. -/
def scheduleTimerPeriodic (mem : Allocation) (now : ℕ) (s : TimerState) (callback delayMs : ℕ) :
    Exec (TimerState × ℕ) := scheduleTimer mem now s callback delayMs true

/-- `bcm2836_deschedule_timer`: the node is removed from the queue, the timer
it points to and the node are freed, and the driver aims at the timer that is
first now. -/
def descheduleTimer (s : TimerState) (handle : ℕ) : Exec TimerState := do
  let q ← prqRemove s.queue handle
  let p ← (s.withQueue q).getPrqNodeData handle
  let s ← (s.withQueue q).freeTimer p
  let s ← s.freeNode handle
  let next ← prqPeek s.queue
  s.programNext next

/-- A timer that is due, after its callback: it is freed, or queued again.
The priority it is queued with is the count it was due at, not the one it is
due at next. -/
def finishTimer (slots : ℕ → ℕ) (s : TimerState) (node p : ℕ) : Exec TimerState := do
  let t ← s.timer p
  if t.periodicDelay = 0 then do
    let s ← s.freeTimer p
    s.freeNode node
  else do
    let s := s.putTimer p { t with scheduledCount := (t.scheduledCount + t.periodicDelay) % 2 ^ 64 }
    if int32Max < t.scheduledCount then .error .assertion
    else do
      let n ← s.queue.node node
      let s := s.putNode node { n with priority := t.scheduledCount }
      let q ← prqEnqueue slots s.queue node
      .ok (s.withQueue q)

/-- One pass of the loop of `timer_handle_interrupt`, for the node `next`.
The timer is read before the callback and used after it. -/
def fireTimer (call : Callback) (slots : ℕ → ℕ) (s : TimerState) (next : ℕ) : Exec TimerState := do
  let (q, _) ← prqDequeue s.queue
  let s := s.withQueue q
  let p ← s.getPrqNodeData next
  let t ← s.timer p
  let s ← call t.callback { s with calls := t :: s.calls }
  finishTimer slots s next p

/-- The loop of `timer_handle_interrupt`: the state and the node peeked at
last.  It goes on while the timer at the head of the queue is due; the others
are not looked at. -/
def handleLoop (call : Callback) (slots : ℕ → ℕ) (now : ℕ) :
    ℕ → TimerState → Exec (TimerState × ℕ)
  | 0, _ => .error .diverged
  | fuel + 1, s => do
      let next ← prqPeek s.queue
      if next = 0 then .ok (s, 0)
      else do
        let t ← s.nodeTimer next
        if now < t.scheduledCount then .ok (s, next)
        else do
          let s ← fireTimer call slots s next
          handleLoop call slots now fuel s

/-- `timer_handle_interrupt` at the counter value `now`.  A pass takes out a
timer that is due or moves it to a later count, which bounds the number of
passes. -/
def timerHandleInterrupt (call : Callback) (slots : ℕ → ℕ) (now : ℕ) (s : TimerState) :
    Exec TimerState := do
  let (s, next) ← handleLoop call slots now (s.queue.count * (now + 1) + 1)
    { s with interrupts := false }
  let s ← s.programNext next
  .ok { s with interrupts := true }

end CourseOs.Timer
