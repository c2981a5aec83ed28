import CourseOs.Drivers.Timer
import CourseOs.Drivers.Timetable
import CourseOs.Ds.PriorityQueueOps
import CourseOs.Lib.Runs
import Mathlib.Order.Interval.Finset.Nat

/-!
# What each routine does to the timetable

`timetable s` reads the queued timers off the driver's state, as an abstract
`Timetable`.  `TimerInv` is the state between routines: a queue in order, each
queued node with a timer of its own, and no priority ahead of its deadline.
Scheduling inserts an entry (`scheduleTimer_spec`) and descheduling removes
one (`descheduleTimer_spec`); what the interrupt handler does is in
`CourseOs.Drivers.TimerInterrupt`.

`Detached` describes a timer that is out of the queue but still allocated, as
the one is whose callback is running, and as a timer is just before it is
freed.  Work on it does not touch the queue (`Detached.frame`), and work on
the queue does not touch it (`Detached.takeOut`).  Those are the frame rules
by which the routines are put together.

`Aimed` is the register side: the compare value is the deadline of the timer
at the head, and the interrupt is masked when there is none.  Every routine
that returns leaves the registers so.
-/

namespace CourseOs.Timer

open PriorityQueue Relation

variable {s s' u : TimerState} {n : PrqNode} {t : ScheduledTimer} {e : Entry} {p q now : ℕ}
  {K A : Set ℕ} {slots : ℕ → ℕ}

/-- The timer `t` is allocated at `p`, which is not the null pointer. -/
def TimerAt (s : TimerState) (p : ℕ) (t : ScheduledTimer) : Prop := p ≠ 0 ∧ s.timers p = some t

/-- The entry of a node and its timer: the priority is in the node, the rest
in the timer. -/
def entryOf (n : PrqNode) (t : ScheduledTimer) : Entry :=
  ⟨n.priority, t.scheduledCount, t.periodicDelay⟩

/-- The entry of the node at `p`, if it and its timer are allocated. -/
def entryAt (s : TimerState) (p : ℕ) : Option Entry :=
  ((s.queue.nodes p).map PrqNode.client).bind fun c =>
    (s.timers c.2).map fun t => ⟨c.1, t.scheduledCount, t.periodicDelay⟩

open Classical in
/-- The queued timers, read off the nodes in the queue and the timers they
point to. -/
noncomputable def timetable (s : TimerState) : Timetable :=
  fun p => if p ∈ queued s.queue then entryAt s p else none

/-- The nodes in `K` have each a timer of its own: no two point to the same.
So freeing the timer of one node leaves the others theirs. -/
structure Linked (s : TimerState) (K : Set ℕ) : Prop where
  held : ∀ p ∈ K, ∃ n t, NodeAt s.queue p n ∧ TimerAt s n.data t
  apart : ∀ p ∈ K, ∀ q ∈ K, ∀ np nq, NodeAt s.queue p np → NodeAt s.queue q nq →
    np.data = nq.data → p = q

/-- The driver between routines.  The period is a number of 32 bits, as the
field of the timer is. -/
structure TimerInv (s : TimerState) : Prop where
  queue : QueueInv s.queue
  linked : Linked s (queued s.queue)
  lagging : Lagging (timetable s)
  period_lt : ∀ p e, timetable s p = some e → e.period < 2 ^ 32

/-- The registers that only the ends of routines write. -/
structure SameRegisters (s s' : TimerState) : Prop where
  frequency : s'.frequency = s.frequency
  compare : s'.compare = s.compare
  unmasked : s'.unmasked = s.unmasked

theorem SameRegisters.trans {s'' : TimerState} (h : SameRegisters s s')
    (h' : SameRegisters s' s'') : SameRegisters s s'' :=
  ⟨h'.frequency.trans h.frequency, h'.compare.trans h.compare, h'.unmasked.trans h.unmasked⟩

theorem TimerAt.timer_eq (h : TimerAt s p t) : s.timer p = .ok t := by
  unfold TimerState.timer
  rw [if_neg h.1, h.2]

theorem getPrqNodeData_eq (h : NodeAt s.queue p n) : s.getPrqNodeData p = .ok n.data := by
  unfold TimerState.getPrqNodeData
  rw [h.node_eq, Exec.ok_bind]

theorem nodeTimer_eq (hn : NodeAt s.queue p n) (ht : TimerAt s n.data t) :
    s.nodeTimer p = .ok t := by
  unfold TimerState.nodeTimer
  rw [getPrqNodeData_eq hn, Exec.ok_bind, ht.timer_eq]

theorem entryAt_eq (hn : NodeAt s.queue p n) (ht : TimerAt s n.data t) :
    entryAt s p = some (entryOf n t) := by
  unfold entryAt
  rw [hn.2, Option.map_some, Option.bind_some]
  show (s.timers n.data).map _ = _
  rw [ht.2]
  rfl

theorem timetable_of_mem (h : p ∈ queued s.queue) : timetable s p = entryAt s p := if_pos h

theorem timetable_of_notMem (h : p ∉ queued s.queue) : timetable s p = none := if_neg h

theorem mem_of_timetable (h : timetable s p = some e) : p ∈ queued s.queue := by
  by_contra hp
  rw [timetable_of_notMem hp] at h
  cases h

/-! ### Entries of the timetable

The timetable is a function of what the queue, the nodes and the timers hold,
so that it changes only where one of these does.  A node has fields that the
queue writes, its priority and index, and one that only its client writes, the
pointer to the timer; the lemmas keep the two apart. -/

/-- An entry depends on the node's priority and data and on the timer there. -/
theorem entryAt_congr (hq : (u.queue.nodes p).map PrqNode.client =
    (s.queue.nodes p).map PrqNode.client) (ht : u.timers = s.timers) :
    entryAt u p = entryAt s p := by
  unfold entryAt
  rw [hq, ht]

/-- A queued node is one of the timetable. -/
theorem Linked.entry (h : Linked s (queued s.queue)) (hp : p ∈ queued s.queue) :
    ∃ n t, NodeAt s.queue p n ∧ TimerAt s n.data t ∧ timetable s p = some (entryOf n t) := by
  obtain ⟨n, t, hn, ht⟩ := h.held p hp
  exact ⟨n, t, hn, ht, (timetable_of_mem hp).trans (entryAt_eq hn ht)⟩

theorem Linked.mono {K' : Set ℕ} (h : Linked s K) (hK : K' ⊆ K) : Linked s K' where
  held p hp := h.held p (hK hp)
  apart p hp q hq := h.apart p (hK hp) q (hK hq)

/-- A node that is the same to its client has the same data. -/
theorem nodeAt_of_client {n' : PrqNode} (hq : (u.queue.nodes p).map PrqNode.client =
    (s.queue.nodes p).map PrqNode.client) (hn : NodeAt u.queue p n') :
    ∃ n, NodeAt s.queue p n ∧ n.client = n'.client := by
  rw [hn.2] at hq
  obtain ⟨n, hn', heq⟩ := Option.map_eq_some_iff.mp hq.symm
  exact ⟨n, ⟨hn.1, hn'⟩, heq⟩

/-- Nodes that are the same to their clients stay with their timers. -/
theorem Linked.congr (h : Linked s K) (hk : ∀ p ∈ K, (s'.queue.nodes p).map PrqNode.client =
    (s.queue.nodes p).map PrqNode.client) (ht : ∀ p ∈ K, ∀ n t, NodeAt s.queue p n →
    TimerAt s n.data t → s'.timers n.data = s.timers n.data) : Linked s' K := by
  refine ⟨fun p hp => ?_, fun p hp q hq np nq hnp hnq heq => ?_⟩
  · obtain ⟨n, t, hn, htn⟩ := h.held p hp
    obtain ⟨n', hn', hc⟩ := nodeAt_of_client (hk p hp).symm hn
    have hdata : n'.data = n.data := congrArg Prod.snd hc
    refine ⟨n', t, hn', ?_, ?_⟩
    · rw [hdata]
      exact htn.1
    · rw [hdata, ht p hp n t hn htn]
      exact htn.2
  · obtain ⟨np', hnp', hcp⟩ := nodeAt_of_client (hk p hp) hnp
    obtain ⟨nq', hnq', hcq⟩ := nodeAt_of_client (hk q hq) hnq
    have hdp : np'.data = np.data := congrArg Prod.snd hcp
    have hdq : nq'.data = nq.data := congrArg Prod.snd hcq
    exact h.apart p hp q hq np' nq' hnp' hnq' (hdp.trans (heq.trans hdq.symm))

/-- The timetable without `p`. -/
theorem timetable_erase (hq : queued s'.queue = queued s.queue \ {p})
    (he : ∀ q ∈ queued s'.queue, entryAt s' q = entryAt s q) :
    timetable s' = Function.update (timetable s) p none := by
  funext q
  by_cases hqp : q = p
  · rw [hqp, Function.update_self]
    refine timetable_of_notMem ?_
    rw [hq]
    exact fun hmem => hmem.2 rfl
  · rw [Function.update_of_ne hqp]
    by_cases hmem : q ∈ queued s.queue
    · have hmem' : q ∈ queued s'.queue := by
        rw [hq]
        exact ⟨hmem, hqp⟩
      rw [timetable_of_mem hmem, timetable_of_mem hmem', he q hmem']
    · rw [timetable_of_notMem hmem, timetable_of_notMem]
      rw [hq]
      exact fun hmem' => hmem hmem'.1

/-- The timetable with the entry of `p` set, for a state in which `p` has come
into the queue and the other entries are as before. -/
theorem timetable_insert (hq : queued s'.queue = insert p (queued s.queue))
    (he : ∀ q ∈ queued s.queue, q ≠ p → entryAt s' q = entryAt s q)
    (hp : entryAt s' p = some e) :
    timetable s' = Function.update (timetable s) p (some e) := by
  funext q
  by_cases hqp : q = p
  · rw [hqp, Function.update_self, timetable_of_mem (by rw [hq]; exact Set.mem_insert p _), hp]
  · rw [Function.update_of_ne hqp]
    by_cases hmem : q ∈ queued s.queue
    · rw [timetable_of_mem hmem, timetable_of_mem (by rw [hq]; exact Or.inr hmem), he q hmem hqp]
    · rw [timetable_of_notMem hmem, timetable_of_notMem]
      rw [hq]
      exact fun hmem' => hmem'.elim hqp hmem

/-! ### The head of the queue

`bcm2836_deschedule_timer`, `schedule_timer` and the interrupt handler all end
by aiming at the head of the queue.  After that nothing of the queue is
written, and a node that has been taken out of it can be dealt with as if it
were alone. -/

/-- **The head of the queue** is a timer of least priority, unless the queue
is empty. -/
theorem TimerInv.peek (h : TimerInv s) :
    (s.queue.count = 0 ∧ prqPeek s.queue = .ok 0 ∧ timetable s = fun _ => none) ∨
      ∃ n t, s.queue.count ≠ 0 ∧ prqPeek s.queue = .ok (s.queue.heap 1) ∧
        s.queue.heap 1 ∈ queued s.queue ∧
        NodeAt s.queue (s.queue.heap 1) n ∧ TimerAt s n.data t ∧
        (timetable s).Head (s.queue.heap 1) (entryOf n t) := by
  rcases prqPeek_spec h.queue with ⟨hc, hp⟩ | ⟨hp, hmem, hleast⟩
  · refine Or.inl ⟨hc, hp, ?_⟩
    funext p
    refine timetable_of_notMem ?_
    rw [queued_eq_empty hc]
    exact Set.notMem_empty p
  · obtain ⟨n, t, hn, ht, hentry⟩ := h.linked.entry hmem
    refine Or.inr ⟨n, t, ?_, hp, hmem, hn, ht, hentry, fun q e' hq => ?_⟩
    · obtain ⟨i, hi, hic, -⟩ := hmem
      omega
    · have hqmem := mem_of_timetable hq
      obtain ⟨n', t', hn', ht', hentry'⟩ := h.linked.entry hqmem
      rw [hq, Option.some.injEq] at hentry'
      have := hleast q hqmem
      rw [hn.prio_eq, hn'.prio_eq] at this
      rw [hentry']
      exact this

/-- The register side of the state between routines: the compare value is that
of the head of the queue, and without one the interrupt is masked. -/
def Aimed (s : TimerState) : Prop :=
  (∃ p e, (timetable s).Head p e ∧ s.compare = e.deadline ∧ s.unmasked = true) ∨
    ((timetable s = fun _ => none) ∧ s.unmasked = false)

/-- The routines' common end.  The compare register is set to the head of the
queue, or the timer is masked when the queue is empty; the queue and the
timers stay. -/
theorem programNext_spec (h : TimerInv s) :
    ∃ next s', prqPeek s.queue = .ok next ∧ s.programNext next = .ok s' ∧
      s'.queue = s.queue ∧ s'.timers = s.timers ∧ s'.calls = s.calls ∧
      (((∃ p e, timetable s p = some e) → s.unmasked = true) → Aimed s') := by
  rcases h.peek with ⟨-, hp, hnone⟩ | ⟨n, t, -, hp, -, hn, ht, hhead⟩
  · exact ⟨0, { s with unmasked := false }, hp, rfl, rfl, rfl, rfl, fun _ => Or.inr ⟨hnone, rfl⟩⟩
  · refine ⟨_, { s with compare := t.scheduledCount }, hp, ?_, rfl, rfl, rfl,
      fun hmask => Or.inl ⟨_, _, hhead, rfl, hmask ⟨_, _, hhead.1⟩⟩⟩
    unfold TimerState.programNext
    rw [if_neg hn.1, nodeTimer_eq hn ht, Exec.ok_bind]

/-- **Frame**: work on nodes and timers that are not queued, and on registers,
leaves the timetable as it is. -/
theorem TimerInv.frame (h : TimerInv s) (hheap : u.queue.heap = s.queue.heap)
    (hcount : u.queue.count = s.queue.count) (hsize : u.queue.heapSize = s.queue.heapSize)
    (hnodes : ∀ p ∈ queued s.queue, u.queue.nodes p = s.queue.nodes p)
    (htimers : ∀ p ∈ queued s.queue, ∀ n, NodeAt s.queue p n →
      u.timers n.data = s.timers n.data) :
    TimerInv u ∧ queued u.queue = queued s.queue ∧ timetable u = timetable s := by
  obtain ⟨hqueue, hq⟩ := h.queue.frame hheap hcount hsize hnodes
  have hlinked : Linked u (queued s.queue) :=
    h.linked.congr (fun p hp => by rw [hnodes p hp]) fun p hp n _ hn _ => htimers p hp n hn
  have htable : timetable u = timetable s := by
    funext p
    by_cases hp : p ∈ queued s.queue
    · obtain ⟨n, t, hn, ht, hentry⟩ := h.linked.entry hp
      rw [hentry, timetable_of_mem (by rw [hq]; exact hp)]
      exact entryAt_eq ⟨hn.1, (hnodes p hp).trans hn.2⟩ ⟨ht.1, (htimers p hp n hn).trans ht.2⟩
    · rw [timetable_of_notMem hp, timetable_of_notMem (by rw [hq]; exact hp)]
  exact ⟨⟨hqueue, by rw [hq]; exact hlinked, htable ▸ h.lagging, htable ▸ h.period_lt⟩, hq, htable⟩

/-- The node `n` at `p` and its timer `t` are allocated and not queued, and no
queued node has that timer. -/
structure Detached (s : TimerState) (p : ℕ) (n : PrqNode) (t : ScheduledTimer) : Prop where
  node : NodeAt s.queue p n
  timer : TimerAt s n.data t
  notMem : p ∉ queued s.queue
  apart : ∀ q ∈ queued s.queue, ∀ nq, NodeAt s.queue q nq → nq.data ≠ n.data

/-- A timer taken out of the queue, as `prq_remove` and `prq_dequeue` leave
it: the invariant holds of the rest, and the timetable has lost this entry. -/
theorem TimerInv.takeOut (h : TimerInv s) {r : Prq} (hr : QueueInv r)
    (hq : queued r = queued s.queue \ {p}) (hk : Keeps (queued s.queue) s.queue r) :
    TimerInv (s.withQueue r) ∧
      timetable (s.withQueue r) = Function.update (timetable s) p none := by
  have htable : timetable (s.withQueue r) = Function.update (timetable s) p none :=
    timetable_erase hq fun q _ => entryAt_congr (hk.client q) rfl
  have hsub : ∀ q e, timetable (s.withQueue r) q = some e → timetable s q = some e := by
    intro q e hqe
    rw [htable] at hqe
    by_cases hqp : q = p
    · rw [hqp, Function.update_self] at hqe
      cases hqe
    · rwa [Function.update_of_ne hqp] at hqe
  refine ⟨⟨hr, ?_, fun q e hqe => h.lagging q e (hsub q e hqe),
    fun q e hqe => h.period_lt q e (hsub q e hqe)⟩, htable⟩
  show Linked (s.withQueue r) (queued r)
  rw [hq]
  exact (h.linked.mono Set.sdiff_subset).congr (fun q _ => hk.client q) fun _ _ _ _ _ _ => rfl

/-- The node taken out stays allocated with its timer, and no node of the
queue points to that timer. -/
theorem TimerInv.detached_takeOut (h : TimerInv s) {r : Prq}
    (hq : queued r = queued s.queue \ {p}) (hk : Keeps (queued s.queue) s.queue r)
    (hp : p ∈ queued s.queue) (hn : NodeAt s.queue p n) (ht : TimerAt s n.data t) :
    ∃ n', n'.client = n.client ∧ Detached (s.withQueue r) p n' t := by
  obtain ⟨n', hn', hc⟩ := hk.nodeAt hn
  have hdata : n'.data = n.data := congrArg Prod.snd hc
  refine ⟨n', hc, hn', by rw [hdata]; exact ht, ?_, fun q hqr nq hnq heq => ?_⟩
  · show p ∉ queued r
    rw [hq]
    exact fun hmem => hmem.2 rfl
  · replace hqr : q ∈ queued r := hqr
    rw [hq] at hqr
    obtain ⟨nq', hnq', hcq⟩ := nodeAt_of_client (s := s) (hk.client q) hnq
    refine hqr.2 (h.linked.apart q hqr.1 p hp nq' n hnq' hn ?_)
    exact (congrArg Prod.snd hcq).trans (heq.trans hdata)

/-- Other nodes taken out before stay as they are. -/
theorem Detached.takeOut {r : Prq} {nq : PrqNode} {tq : ScheduledTimer} (hd : Detached s q nq tq)
    (hq : queued r = queued s.queue \ {p}) (hk : Keeps (queued s.queue) s.queue r) :
    Detached (s.withQueue r) q nq tq := by
  have hsub : queued r ⊆ queued s.queue := by
    rw [hq]
    exact Set.sdiff_subset
  refine ⟨⟨hd.node.1, (hk.frame q hd.notMem).trans hd.node.2⟩, hd.timer,
    fun hmem => hd.notMem (hsub hmem), fun x hx nx hnx heq => ?_⟩
  obtain ⟨nx', hnx', hcx⟩ := nodeAt_of_client (s := s) (hk.client x) hnx
  exact hd.apart x (hsub hx) nx' hnx' ((congrArg Prod.snd hcx).trans heq)

/-- Changes to the node and timer of `p` leave the queue as it is.  This is
what a client may do with a timer that is out of the queue. -/
theorem Detached.frame (hd : Detached s p n t) (h : TimerInv s)
    (hheap : u.queue.heap = s.queue.heap) (hcount : u.queue.count = s.queue.count)
    (hsize : u.queue.heapSize = s.queue.heapSize)
    (hnodes : ∀ q, q ≠ p → u.queue.nodes q = s.queue.nodes q)
    (htimers : ∀ a, a ≠ n.data → u.timers a = s.timers a) :
    TimerInv u ∧ queued u.queue = queued s.queue ∧ timetable u = timetable s := by
  refine h.frame hheap hcount hsize (fun q hq => hnodes q ?_) fun q hq nq hnq =>
    htimers _ (hd.apart q hq nq hnq)
  rintro rfl
  exact hd.notMem hq

/-- A second node taken out is not affected either, when what is done concerns
other nodes and other timers. -/
theorem Detached.of_frame {nq : PrqNode} {tq : ScheduledTimer} (hd : Detached s q nq tq)
    (hqueued : queued u.queue = queued s.queue)
    (hnodes : ∀ x ∈ insert q (queued s.queue), u.queue.nodes x = s.queue.nodes x)
    (htimer : u.timers nq.data = s.timers nq.data) : Detached u q nq tq := by
  refine ⟨⟨hd.node.1, (hnodes q (Set.mem_insert q _)).trans hd.node.2⟩,
    ⟨hd.timer.1, htimer.trans hd.timer.2⟩, by rw [hqueued]; exact hd.notMem,
    fun x hx nx hnx => ?_⟩
  rw [hqueued] at hx
  exact hd.apart x hx nx ⟨hnx.1, (hnodes x (Set.mem_insert_of_mem q hx)).symm.trans hnx.2⟩

/-- A node put in the queue with its timer.  It gets its place in the
timetable, or the queue is full and there is no memory for a larger one; nodes
that are out of the queue stay as they are. -/
theorem TimerInv.enqueue (h : TimerInv s) (hd : Detached s p n t)
    (hlag : n.priority ≤ t.scheduledCount) (hperiod : t.periodicDelay < 2 ^ 32)
    (slots : ℕ → ℕ) :
    (∃ r, prqEnqueue slots s.queue p = .ok r ∧ TimerInv (s.withQueue r) ∧
      timetable (s.withQueue r) = Function.update (timetable s) p (some (entryOf n t)) ∧
      (∀ q, (r.nodes q).map PrqNode.client = (s.queue.nodes q).map PrqNode.client) ∧
      ∀ q nq tq, Detached s q nq tq → q ≠ p → nq.data ≠ n.data →
        Detached (s.withQueue r) q nq tq) ∨
      (prqEnqueue slots s.queue p = .error .outOfMemory ∧
        s.queue.count + 2 = s.queue.heapSize) := by
  rcases prqEnqueue_spec slots h.queue hd.node hd.notMem with ⟨r, henq, hinv, hq, hk⟩ | herr
  · refine Or.inl ⟨r, henq, ?_⟩
    have htable : timetable (s.withQueue r) =
        Function.update (timetable s) p (some (entryOf n t)) :=
      timetable_insert hq (fun q _ _ => entryAt_congr (hk.client q) rfl)
        ((entryAt_congr (u := s.withQueue r) (hk.client p) rfl).trans
          (entryAt_eq hd.node hd.timer))
    have hlinked : Linked s (insert p (queued s.queue)) := by
      refine ⟨?_, ?_⟩
      · rintro q (rfl | hq)
        · exact ⟨n, t, hd.node, hd.timer⟩
        · exact h.linked.held q hq
      · rintro a (rfl | ha) b (rfl | hb) na nb hna hnb heq
        · rfl
        · obtain rfl : na = n := Option.some.inj (hna.2.symm.trans hd.node.2)
          exact absurd heq.symm (hd.apart b hb nb hnb)
        · obtain rfl : nb = n := Option.some.inj (hnb.2.symm.trans hd.node.2)
          exact absurd heq (hd.apart a ha na hna)
        · exact h.linked.apart a ha b hb na nb hna hnb heq
    have hcases : ∀ q e, timetable (s.withQueue r) q = some e → e = entryOf n t ∨
        timetable s q = some e := by
      intro q e hqe
      rw [htable] at hqe
      by_cases hqp : q = p
      · rw [hqp, Function.update_self, Option.some.injEq] at hqe
        exact Or.inl hqe.symm
      · rw [Function.update_of_ne hqp] at hqe
        exact Or.inr hqe
    refine ⟨⟨hinv, ?_, fun q e hqe => ?_, fun q e hqe => ?_⟩, htable, hk.client, ?_⟩
    · show Linked (s.withQueue r) (queued r)
      rw [hq]
      exact hlinked.congr (fun q _ => hk.client q) fun _ _ _ _ _ _ => rfl
    · rcases hcases q e hqe with rfl | hold
      · exact hlag
      · exact h.lagging q e hold
    · rcases hcases q e hqe with rfl | hold
      · exact hperiod
      · exact h.period_lt q e hold
    · intro q nq tq hdq hqp hdata
      have hnot : q ∉ insert p (queued s.queue) := fun hmem => hmem.elim hqp hdq.notMem
      refine ⟨⟨hdq.node.1, (hk.frame q hnot).trans hdq.node.2⟩, hdq.timer, ?_,
        fun x hx nx hnx heq => ?_⟩
      · show q ∉ queued r
        rw [hq]
        exact hnot
      · replace hx : x ∈ queued r := hx
        rw [hq] at hx
        obtain ⟨nx', hnx', hcx⟩ := nodeAt_of_client (s := s) (hk.client x) hnx
        have hdx : nx'.data = nx.data := congrArg Prod.snd hcx
        rcases hx with rfl | hx
        · obtain rfl : nx' = n := Option.some.inj (hnx'.2.symm.trans hd.node.2)
          exact hdata (heq.symm.trans hdx.symm)
        · exact hdq.apart x hx nx' hnx' (hdx.trans heq)
  · exact Or.inr herr

/-- **A timer is freed** with its node.  It is out of the queue, so the
timetable stays. -/
theorem Detached.free (hd : Detached s p n t) (h : TimerInv s) :
    ∃ s', (s.freeTimer n.data >>= fun s => s.freeNode p) = .ok s' ∧ TimerInv s' ∧
      queued s'.queue = queued s.queue ∧ timetable s' = timetable s ∧ SameRegisters s s' ∧
      s'.calls = s.calls ∧ s'.timers n.data = none ∧ s'.queue.nodes p = none ∧
      (∀ q, q ≠ p → s'.queue.nodes q = s.queue.nodes q) ∧
      ∀ a, a ≠ n.data → s'.timers a = s.timers a := by
  let s₁ : TimerState := { s with timers := Function.update s.timers n.data none }
  let s₂ : TimerState := { s₁ with
    queue := { s.queue with nodes := Function.update s.queue.nodes p none } }
  have hnodes : ∀ q, q ≠ p → s₂.queue.nodes q = s.queue.nodes q :=
    fun q hq => Function.update_of_ne hq _ _
  have htimers : ∀ a, a ≠ n.data → s₂.timers a = s.timers a :=
    fun a ha => Function.update_of_ne ha _ _
  obtain ⟨hinv, hqueued, htable⟩ := hd.frame h (u := s₂) rfl rfl rfl hnodes htimers
  refine ⟨s₂, ?_, hinv, hqueued, htable, ⟨rfl, rfl, rfl⟩, rfl, Function.update_self ..,
    Function.update_self .., hnodes, htimers⟩
  have hfree : s.freeTimer n.data = .ok s₁ := by
    unfold TimerState.freeTimer
    rw [hd.timer.timer_eq]
    rfl
  rw [hfree, Exec.ok_bind]
  unfold TimerState.freeNode
  rw [NodeAt.node_eq (s := s₁.queue) hd.node]
  rfl

/-! ### Scheduling and descheduling

What a client calls.  Both specifications say which entry of the timetable
changes, that the registers are aimed at the head of the new queue, and that
timers somebody has taken out of the queue stay as they are; the last part is
for the callbacks. -/

/-- What `schedule_timer` may assume of the blocks it gets: they are neither
null nor allocated. -/
structure Fresh (s : TimerState) (mem : Allocation) : Prop where
  node_ne : mem.node ≠ 0
  timer_ne : mem.timer ≠ 0
  node_free : s.queue.nodes mem.node = none
  timer_free : s.timers mem.timer = none

/-- The count that `schedule_timer` sets a timer for, from the counter and the
delay in 64 bits. -/
def scheduledAt (s : TimerState) (now delayMs : ℕ) : ℕ :=
  (now + countOffset s.frequency delayMs) % 2 ^ 64

/-- The entry `schedule_timer` makes.  Its priority is its deadline, as it has
not fired yet. -/
def scheduledEntry (s : TimerState) (now delayMs : ℕ) (periodic : Bool) : Entry :=
  ⟨scheduledAt s now delayMs, scheduledAt s now delayMs,
    if periodic then countOffset s.frequency delayMs else 0⟩

/-- **`schedule_timer`** adds an entry and aims at the head of the queue,
unless the queue has to grow and cannot.  Timers that are out of the queue
stay as they are. -/
theorem scheduleTimer_spec (h : TimerInv s) {mem : Allocation} (hf : Fresh s mem)
    {callback delayMs : ℕ} (hcb : callback ≠ 0) (hdelay : delayMs ≠ 0)
    (hcount : scheduledAt s now delayMs ≤ int32Max) (periodic : Bool) :
    (∃ s', scheduleTimer mem now s callback delayMs periodic = .ok (s', mem.node) ∧
      TimerInv s' ∧ Aimed s' ∧ timetable s' = Function.update (timetable s) mem.node
        (some (scheduledEntry s now delayMs periodic)) ∧
      s'.calls = s.calls ∧ ∀ q nq tq, Detached s q nq tq → Detached s' q nq tq) ∨
      (scheduleTimer mem now s callback delayMs periodic = .error .outOfMemory ∧
        s.queue.count + 2 = s.queue.heapSize) := by
  let t : ScheduledTimer := ⟨scheduledAt s now delayMs, mem.node, callback,
    if periodic then countOffset s.frequency delayMs else 0⟩
  let n : PrqNode := ⟨mem.index, scheduledAt s now delayMs, mem.timer⟩
  let s₁ := (s.putTimer mem.timer t).putNode mem.node n
  have hrun : scheduleTimer mem now s callback delayMs periodic =
      (prqEnqueue mem.slots s₁.queue mem.node >>= fun q => prqPeek q >>= fun next =>
        (s₁.withQueue q).nodeTimer next >>= fun t => .ok ({ s₁.withQueue q with
          compare := t.scheduledCount, unmasked := true, interrupts := true }, mem.node)) := by
    unfold scheduleTimer
    rw [if_neg hcb, if_neg hdelay]
    exact if_neg (not_lt.mpr hcount)
  have hp : mem.node ∉ queued s.queue := by
    intro hmem
    obtain ⟨n', -, hn', -⟩ := h.linked.held _ hmem
    cases hf.node_free.symm.trans hn'.2
  have hdata : ∀ q ∈ queued s.queue, ∀ n', NodeAt s.queue q n' → n'.data ≠ mem.timer := by
    intro q hq n' hn' heq
    obtain ⟨n₀, t₀, hn₀, ht₀⟩ := h.linked.held q hq
    obtain rfl : n' = n₀ := Option.some.inj (hn'.2.symm.trans hn₀.2)
    cases hf.timer_free.symm.trans (heq ▸ ht₀.2)
  have hold : ∀ q, q ≠ mem.node → s₁.queue.nodes q = s.queue.nodes q := fun q hq =>
    Prq.putNode_nodes_of_ne n hq
  have hqne : ∀ q ∈ queued s.queue, q ≠ mem.node := fun q hq heq => hp (heq ▸ hq)
  obtain ⟨hinv₁, hq₁, htable₁⟩ := h.frame (u := s₁) rfl rfl rfl (fun q hq => hold q (hqne q hq))
    fun q hq n' hn' => Function.update_of_ne (hdata q hq n' hn') _ _
  have hd₁ : Detached s₁ mem.node n t := by
    refine ⟨⟨hf.node_ne, Prq.putNode_nodes_self ..⟩, ⟨hf.timer_ne, Function.update_self ..⟩,
      by rw [hq₁]; exact hp, fun q hq n' hn' => ?_⟩
    rw [hq₁] at hq
    exact hdata q hq n' ⟨hn'.1, (hold q (hqne q hq)).symm.trans hn'.2⟩
  have hperiod : t.periodicDelay < 2 ^ 32 := by
    show (if periodic then countOffset s.frequency delayMs else 0) < 2 ^ 32
    split
    · exact Nat.mod_lt _ (by decide)
    · decide
  rw [hrun]
  rcases hinv₁.enqueue hd₁ le_rfl hperiod mem.slots with
    ⟨r, henq, hinv₂, htable₂, -, hkeep₂⟩ | ⟨herr, hfull⟩
  · rw [henq, Exec.ok_bind]
    rw [htable₁] at htable₂
    rcases hinv₂.peek with ⟨-, -, hnone⟩ | ⟨n', t', -, hpeek, -, hn', ht', hhead⟩
    · have := congrFun (hnone.symm.trans htable₂) mem.node
      rw [Function.update_self] at this
      cases this
    · let s₃ : TimerState := { s₁.withQueue r with
        compare := t'.scheduledCount, unmasked := true, interrupts := true }
      obtain ⟨hinv₃, -, htable₃⟩ := hinv₂.frame (u := s₃) rfl rfl rfl (fun _ _ => rfl)
        fun _ _ _ _ => rfl
      refine Or.inl ⟨s₃, ?_, hinv₃, Or.inl ⟨_, _, htable₃ ▸ hhead, rfl, rfl⟩,
        htable₃.trans htable₂, rfl, fun q nq tq hdq => ?_⟩
      · have hfirst : (s₁.withQueue r).nodeTimer (r.heap 1) = .ok t' := nodeTimer_eq hn' ht'
        replace hpeek : prqPeek r = .ok (r.heap 1) := hpeek
        rw [hpeek, Exec.ok_bind, hfirst, Exec.ok_bind]
      · have hqnode : q ≠ mem.node := by
          rintro rfl
          cases hf.node_free.symm.trans hdq.node.2
        have hqtimer : nq.data ≠ mem.timer := by
          intro heq
          cases hf.timer_free.symm.trans (heq ▸ hdq.timer.2)
        have hdq₁ : Detached s₁ q nq tq := hdq.of_frame hq₁
          (fun x hx => hold x (hx.elim (fun h => h ▸ hqnode) (hqne x)))
          (Function.update_of_ne hqtimer _ _)
        exact (hkeep₂ q nq tq hdq₁ hqnode hqtimer).of_frame rfl (fun _ _ => rfl) rfl
  · rw [herr]
    exact Or.inr ⟨rfl, hfull⟩

/-- **`bcm2836_deschedule_timer`** removes the entry and aims at the head of
the queue.  Timers that are out of the queue stay as they are. -/
theorem descheduleTimer_spec (h : TimerInv s) (hp : p ∈ queued s.queue) :
    ∃ s', descheduleTimer s p = .ok s' ∧ TimerInv s' ∧ (Aimed s → Aimed s') ∧
      timetable s' = Function.update (timetable s) p none ∧
      s'.calls = s.calls ∧ ∀ q nq tq, Detached s q nq tq → Detached s' q nq tq := by
  obtain ⟨n, t, hn, ht, hentry⟩ := h.linked.entry hp
  obtain ⟨r, hrem, hr, hq, hk, -⟩ := prqRemove_spec h.queue hp
  obtain ⟨hinv₁, htable₁⟩ := h.takeOut hr hq hk
  obtain ⟨n₁, hc, hd₁⟩ := h.detached_takeOut hq hk hp hn ht
  have hdata : n₁.data = n.data := congrArg Prod.snd hc
  obtain ⟨s₃, hfree, hinv₃, hq₃, htable₃, hr₃, hcalls₃, -, -, hnodes₃, htimers₃⟩ := hd₁.free hinv₁
  obtain ⟨next, s₄, hpeek, hprog, hq₄, ht₄, hcalls₄, haim⟩ := programNext_spec hinv₃
  obtain ⟨hinv₄, -, htable₄⟩ := hinv₃.frame (u := s₄) (by rw [hq₄]) (by rw [hq₄]) (by rw [hq₄])
    (fun _ _ => by rw [hq₄]) fun _ _ _ _ => by rw [ht₄]
  refine ⟨s₄, ?_, hinv₄, fun ha => haim fun _ => ?_, htable₄.trans (htable₃.trans htable₁),
    hcalls₄.trans hcalls₃, fun q nq tq hdq => ?_⟩
  · unfold descheduleTimer
    rw [hrem, Exec.ok_bind, getPrqNodeData_eq (s := s.withQueue r) hd₁.node, Exec.ok_bind]
    calc ((s.withQueue r).freeTimer n₁.data >>= fun s => s.freeNode p >>= fun s =>
            prqPeek s.queue >>= fun next => s.programNext next)
        = (((s.withQueue r).freeTimer n₁.data >>= fun s => s.freeNode p) >>= fun s =>
            prqPeek s.queue >>= fun next => s.programNext next) := by
          cases (s.withQueue r).freeTimer n₁.data <;> rfl
      _ = .ok s₄ := by rw [hfree, Exec.ok_bind, hpeek, Exec.ok_bind, hprog]
  · rw [hr₃.unmasked]
    rcases ha with ⟨-, -, -, -, hu⟩ | ⟨hnone, -⟩
    · exact hu
    · rw [hnone] at hentry
      cases hentry
  · have hqp : q ≠ p := by
      rintro rfl
      exact hdq.notMem hp
    have hqdata : nq.data ≠ n₁.data := fun heq => hdq.apart p hp n hn (hdata.symm.trans heq.symm)
    have hdq₁ := hdq.takeOut hq hk
    refine hdq₁.of_frame (by rw [hq₄, hq₃]) (fun x hx => ?_) (by rw [ht₄, htimers₃ _ hqdata])
    rw [hq₄]
    refine hnodes₃ x ?_
    rintro rfl
    exact hx.elim (fun h => hqp h.symm) hd₁.notMem

end CourseOs.Timer
