import CourseOs.Ds.PriorityQueueOps
import CourseOs.Lib.Runs

/-!
# Runs of the priority queue

The clients of a queue enqueue nodes that are not queued, remove nodes that
are, and dequeue.  Between the calls they create, free and write nodes as they
like, but not those that are queued.  `InUse` keeps beside the queue the set
of nodes enqueued and not taken out since, which the code does not record
anywhere; `Safe` is what the clients rely on, and it holds in every state of
every run (`prq_safe`): the slots hold exactly these nodes, each of them once
and with its index, in heap order, and `prq_peek` and `prq_dequeue` give one
of least priority.

The last section is about `prq_remove` of a node that is not queued.  It is
meant to do nothing, and does so exactly when the queue is empty
(`prqRemove_noOp_iff`): otherwise the last node has got the index -1, and can
no longer be removed.  `IdleStep` adds such calls on an empty queue to the
runs, and `remove_unqueued` has the equivalence in every state they reach.
-/

namespace CourseOs.PriorityQueue

variable {s s' : Prq} {n : PrqNode} {p i : ℕ}

/-- A queue and the nodes its clients have in it, as they would keep account
of them. -/
structure InUse where
  state : Prq
  held : Set ℕ

/-- One call of a client, or a client at work on its own nodes.  Nodes that
are queued are the queue's: a client does not enqueue them again, and neither
frees nor writes them. -/
inductive Step : InUse → InUse → Prop
  | enqueue {u : InUse} {s' : Prq} {p : ℕ} {n : PrqNode} (garbage : ℕ → ℕ)
      (hn : NodeAt u.state p n) (hp : p ∉ u.held)
      (h : prqEnqueue garbage u.state p = .ok s') : Step u ⟨s', insert p u.held⟩
  | dequeue {u : InUse} {s' : Prq} {p : ℕ} (h : prqDequeue u.state = .ok (s', p)) :
      Step u ⟨s', u.held \ {p}⟩
  | remove {u : InUse} {s' : Prq} {p : ℕ} (hp : p ∈ u.held)
      (h : prqRemove u.state p = .ok s') : Step u ⟨s', u.held \ {p}⟩
  | client {u : InUse} (nodes : ℕ → Option PrqNode)
      (h : ∀ p ∈ u.held, nodes p = u.state.nodes p) :
      Step u ⟨{ u.state with nodes := nodes }, u.held⟩

/-- The node at `p` is one of least priority among those held.  There may be
several. -/
structure Least (u : InUse) (p : ℕ) : Prop where
  ne_null : p ≠ 0
  mem : p ∈ u.held
  le : ∀ q ∈ u.held, prio u.state p ≤ prio u.state q

/-- What the clients rely on: the elements of the queue, their slots, their
order and what the calls return. -/
structure Safe (u : InUse) : Prop where
  /-- `heap[1..count]` holds exactly the nodes enqueued and not taken out since. -/
  elements : ∀ p, p ∈ u.held ↔ ∃ i, 1 ≤ i ∧ i ≤ u.state.count ∧ u.state.heap i = p
  /-- Each of them once. -/
  once : ∀ i j, 1 ≤ i → i ≤ u.state.count → 1 ≤ j → j ≤ u.state.count →
    u.state.heap i = u.state.heap j → i = j
  /-- `heap[i]->__index = i`. -/
  index : ∀ i, 1 ≤ i → i ≤ u.state.count → ∃ n, NodeAt u.state (u.state.heap i) n ∧ n.index = i
  /-- No node is before its parent. -/
  order : ∀ i, 2 ≤ i → i ≤ u.state.count →
    prio u.state (u.state.heap (i / 2)) ≤ prio u.state (u.state.heap i)
  /-- No call stops at an index past the array, at a stale pointer or in a loop: the one
  way to stop is an array too large to ask for. -/
  enqueue_returns : ∀ garbage p n, NodeAt u.state p n → p ∉ u.held →
    (∃ s', prqEnqueue garbage u.state p = .ok s') ∨
      prqEnqueue garbage u.state p = .error .outOfMemory
  remove_returns : ∀ p ∈ u.held, ∃ s', prqRemove u.state p = .ok s'
  dequeue_returns : ∃ s' p, prqDequeue u.state = .ok (s', p) ∧
    (p = 0 ↔ u.held = ∅) ∧ (p ≠ 0 → Least u p)
  peek_returns : ∃ p, prqPeek u.state = .ok p ∧ (p = 0 ↔ u.held = ∅) ∧ (p ≠ 0 → Least u p)

/-- The invariant of a run: the queue is in order, and its nodes are those
that the clients have put in. -/
structure InUse.Inv (u : InUse) : Prop where
  queue : QueueInv u.state
  held : queued u.state = u.held

namespace InUse.Inv

variable {u u' : InUse}

theorem count_eq_zero_iff (h : u.Inv) : u.state.count = 0 ↔ u.held = ∅ := by
  rw [← h.held]
  constructor
  · exact queued_eq_empty
  · intro hempty
    by_contra hne
    have hmem : u.state.heap 1 ∈ queued u.state := ⟨1, le_rfl, by omega, rfl⟩
    rw [hempty] at hmem
    exact hmem

theorem least_head (h : u.Inv) (hne : u.state.count ≠ 0) : Least u (u.state.heap 1) where
  ne_null := by
    obtain ⟨n, hn, -⟩ := h.queue.indexed 1 le_rfl (by omega)
    exact hn.1
  mem := h.held ▸ ⟨1, le_rfl, by omega, rfl⟩
  le q hq := by
    rw [← h.held] at hq
    obtain ⟨i, hi, hic, rfl⟩ := hq
    exact h.queue.ordered.head_le i hi hic

/-- What the invariant gives a client: the heap order, the back-indices, the
elements, and what each of the four calls returns. -/
theorem safe (h : u.Inv) : Safe u where
  elements p := by
    rw [← h.held]
    exact Iff.rfl
  once i j hi hic hj hjc heq := h.queue.indexed.inj hi hic hj hjc heq
  index := h.queue.indexed
  order := h.queue.ordered
  enqueue_returns garbage p n hn hp := by
    rw [← h.held] at hp
    rcases prqEnqueue_spec garbage h.queue hn hp with ⟨s', hs', -⟩ | ⟨hmem, -⟩
    · exact Or.inl ⟨s', hs'⟩
    · exact Or.inr hmem
  remove_returns p hp := by
    rw [← h.held] at hp
    obtain ⟨s', hs', -⟩ := prqRemove_spec h.queue hp
    exact ⟨s', hs'⟩
  dequeue_returns := by
    by_cases hc : u.state.count = 0
    · exact ⟨u.state, 0, if_pos hc, iff_of_true rfl (h.count_eq_zero_iff.mp hc),
        fun hne => absurd rfl hne⟩
    · have hleast := h.least_head hc
      obtain ⟨s', hs', -⟩ := prqDequeue_spec h.queue hc
      exact ⟨s', _, hs', iff_of_false hleast.ne_null fun hempty =>
        hc (h.count_eq_zero_iff.mpr hempty), fun _ => hleast⟩
  peek_returns := by
    rcases prqPeek_spec h.queue with ⟨hc, hp⟩ | ⟨hp, ⟨i, hi, hic, -⟩, -⟩
    · exact ⟨0, hp, iff_of_true rfl (h.count_eq_zero_iff.mp hc), fun hne => absurd rfl hne⟩
    · have hc : u.state.count ≠ 0 := by omega
      have hleast := h.least_head hc
      exact ⟨_, hp, iff_of_false hleast.ne_null fun hempty =>
        hc (h.count_eq_zero_iff.mpr hempty), fun _ => hleast⟩

/-- A client's work on nodes that are not queued does not touch the queue. -/
theorem client (h : u.Inv) {nodes : ℕ → Option PrqNode}
    (hnodes : ∀ p ∈ u.held, nodes p = u.state.nodes p) :
    (InUse.mk { u.state with nodes := nodes } u.held).Inv := by
  let s' : Prq := { u.state with nodes := nodes }
  have hframe : QueueInv s' ∧ queued s' = queued u.state :=
    h.queue.frame rfl rfl rfl fun p hp => hnodes p (h.held ▸ hp)
  exact ⟨hframe.1, hframe.2.trans h.held⟩

/-- **Every step** keeps the invariant, by what each call does to the queue
and to the set of its elements. -/
theorem step (h : u.Inv) (hstep : Step u u') : u'.Inv := by
  cases hstep with
  | enqueue garbage hn hp henq =>
      rw [← h.held] at hp
      rcases prqEnqueue_spec garbage h.queue hn hp with ⟨s₁, hs₁, hinv, hq, -⟩ | ⟨hmem, -⟩
      · rw [henq] at hs₁
        cases hs₁
        exact ⟨hinv, by rw [hq, h.held]⟩
      · rw [henq] at hmem
        cases hmem
  | dequeue hdeq =>
      by_cases hc : u.state.count = 0
      · have hempty := h.count_eq_zero_iff.mp hc
        have heq : prqDequeue u.state = .ok (u.state, 0) := if_pos hc
        rw [hdeq] at heq
        cases heq
        exact ⟨h.queue, by rw [h.held, hempty, Set.empty_sdiff]⟩
      · obtain ⟨s₁, hs₁, hinv, hq, -⟩ := prqDequeue_spec h.queue hc
        rw [hdeq] at hs₁
        cases hs₁
        exact ⟨hinv, by rw [hq, h.held]⟩
  | remove hp hrem =>
      rw [← h.held] at hp
      obtain ⟨s₁, hs₁, hinv, hq, -⟩ := prqRemove_spec h.queue hp
      rw [hrem] at hs₁
      cases hs₁
      exact ⟨hinv, by rw [hq, h.held]⟩
  | client nodes hnodes => exact h.client hnodes

end InUse.Inv

/-- **A priority queue in use** holds what was put in, in order, and gives out
a node of least priority.  The growth of the array and the removal of the last
node are steps like any other. -/
theorem prq_safe (garbage : ℕ → ℕ) (nodes : ℕ → Option PrqNode) {size : ℕ} (hsize : 1 ≤ size)
    (hmem : sizeofPointer * (size + 1) < 2 ^ 32) :
    ∃ s, prqCreateFixed garbage nodes size = .ok s ∧
      ∀ u, Relation.ReflTransGen Step ⟨s, ∅⟩ u → Safe u := by
  obtain ⟨s, hcreate, hinv, hempty⟩ := prqCreateFixed_spec garbage nodes hsize hmem
  refine ⟨s, hcreate, fun u hrun => ?_⟩
  have hu := Runs.invariant (I := InUse.Inv) (fun _ _ h hstep => h.step hstep) hrun ⟨hinv, hempty⟩
  exact hu.safe

/-- A queue that grows with the first node. -/
theorem prq_safe_one_slot :
    ∃ s, prqCreateFixed (fun _ => 0) (fun _ => none) 1 = .ok s ∧
      ∀ u, Relation.ReflTransGen Step ⟨s, ∅⟩ u → Safe u :=
  prq_safe _ _ le_rfl (by decide)

/-! ### Removing what is not queued

A node that is out of the queue has the index -1, and `prq_remove` copies this
index to the last node before it looks whether the node is queued.  The last
node then cannot be removed any more, which a client sees only later. -/

/-- The queue is as before: its nodes, their slots and the indices they
record, and each of them can still be removed.  This is what a call that does
nothing leaves. -/
structure NoOp (s s' : Prq) : Prop where
  elements : queued s' = queued s
  position : ∀ i, s'.heap i = s.heap i
  index : ∀ q ∈ queued s, ∀ n, NodeAt s q n → ∃ n', NodeAt s' q n' ∧ n'.index = n.index
  removable : ∀ q ∈ queued s, ∃ s'', prqRemove s' q = .ok s'' ∧ queued s'' = queued s \ {q}

theorem QueueInv.noOp_self (h : QueueInv s) : NoOp s s where
  elements := rfl
  position _ := rfl
  index _ _ n hn := ⟨n, hn, rfl⟩
  removable q hq := by
    obtain ⟨s'', hrun, -, hqueued, -⟩ := prqRemove_spec h hq
    exact ⟨s'', hrun, hqueued⟩

/-- **`prq_remove` of a node that is not queued** changes nothing exactly when
the queue is empty.  In a queue with nodes the last one gets the index -1. -/
theorem prqRemove_noOp_iff (h : QueueInv s) (hn : NodeAt s p n) (hindex : n.index = -1) :
    ∃ s', prqRemove s p = .ok s' ∧ (NoOp s s' ↔ s.count = 0) ∧ (s.count = 0 → s' = s) := by
  rcases prqRemove_idle h hn hindex with ⟨hc, hrun⟩ | ⟨hc, last, hl, hli, hrun⟩
  · exact ⟨s, hrun, iff_of_true h.noOp_self hc, fun _ => rfl⟩
  · refine ⟨_, hrun, iff_of_false (fun hno => ?_) hc, fun heq => absurd heq hc⟩
    have hlast := Indexed.mem_queued (Nat.one_le_iff_ne_zero.mpr hc) (le_refl s.count)
    obtain ⟨n', hn', hsame⟩ := hno.index _ hlast last hl
    -- the last node now says that it is out of the queue
    have hnow := Option.some.inj (hn'.2.symm.trans (Prq.putNode_nodes_self ..))
    rw [hnow, hli] at hsame
    exact absurd hsame (by show (-1 : ℤ) ≠ s.count; omega)

/-- Steps of a run, and `prq_remove` of nodes out of a queue that is empty.
In such a queue the removal does nothing, so that these are harmless. -/
inductive IdleStep : InUse → InUse → Prop
  | step {u u' : InUse} (h : Step u u') : IdleStep u u'
  | remove {u : InUse} {s' : Prq} {p : ℕ} {n : PrqNode} (hn : NodeAt u.state p n)
      (hindex : n.index = -1) (hempty : u.held = ∅) (h : prqRemove u.state p = .ok s') :
      IdleStep u ⟨s', u.held⟩

theorem InUse.Inv.idleStep {u u' : InUse} (h : u.Inv) (hstep : IdleStep u u') : u'.Inv := by
  cases hstep with
  | step hstep => exact h.step hstep
  | remove hn hindex hempty hrun =>
      obtain ⟨s₁, hrun', -, hsame⟩ := prqRemove_noOp_iff h.queue hn hindex
      cases hrun.symm.trans hrun'
      rw [hsame (h.count_eq_zero_iff.mpr hempty)]
      exact h

/-- **Removing a node that is not queued**, in every state of every run from
an empty queue.  The call returns, and it does nothing exactly if the queue is
empty; else the last node gets the index -1. -/
theorem remove_unqueued (garbage : ℕ → ℕ) (nodes : ℕ → Option PrqNode) {size : ℕ}
    (hsize : 1 ≤ size) (hmem : sizeofPointer * (size + 1) < 2 ^ 32) :
    ∃ s, prqCreateFixed garbage nodes size = .ok s ∧
      ∀ u, Relation.ReflTransGen IdleStep ⟨s, ∅⟩ u → ∀ p n, NodeAt u.state p n → p ∉ u.held →
        n.index = -1 → ∃ s', prqRemove u.state p = .ok s' ∧ (NoOp u.state s' ↔ u.held = ∅) := by
  obtain ⟨s, hcreate, hinv, hempty⟩ := prqCreateFixed_spec garbage nodes hsize hmem
  refine ⟨s, hcreate, fun u hrun p n hn _ hindex => ?_⟩
  have hu := Runs.invariant (I := InUse.Inv) (fun _ _ h hstep => h.idleStep hstep) hrun
    ⟨hinv, hempty⟩
  obtain ⟨s', hremove, hiff, -⟩ := prqRemove_noOp_iff hu.queue hn hindex
  exact ⟨s', hremove, hiff.trans hu.count_eq_zero_iff⟩

/-- A queue with one slot, and memory that is all zero. -/
theorem remove_unqueued_one_slot :
    ∃ s, prqCreateFixed (fun _ => 0) (fun _ => none) 1 = .ok s ∧
      ∀ u, Relation.ReflTransGen IdleStep ⟨s, ∅⟩ u → ∀ p n, NodeAt u.state p n → p ∉ u.held →
        n.index = -1 → ∃ s', prqRemove u.state p = .ok s' ∧ (NoOp u.state s' ↔ u.held = ∅) :=
  remove_unqueued _ _ le_rfl (by decide)

/-- Two nodes, at 16 and at 32, with the priorities 5 and 7. -/
def twoNodes (p : ℕ) : Option PrqNode :=
  if p = 16 then some ⟨0, 5, 0⟩ else if p = 32 then some ⟨0, 7, 0⟩ else none

/-- The second of two nodes is removed twice.  The second call writes -1 to
the index of the first node, which is queued. -/
theorem second_remove_changes :
    ∃ s u p n s', prqCreateFixed (fun _ => 0) twoNodes 4 = .ok s ∧
      Relation.ReflTransGen IdleStep ⟨s, ∅⟩ u ∧ NodeAt u.state p n ∧ p ∉ u.held ∧ n.index = -1 ∧
      prqRemove u.state p = .ok s' ∧ ¬NoOp u.state s' := by
  obtain ⟨s, hcreate, hinv, hempty⟩ :=
    prqCreateFixed_spec (fun _ => 0) twoNodes (by decide : 1 ≤ 4) (by decide)
  obtain ⟨s₁, h₁, s₂, h₂, s₃, h₃, hnode, hfirst, hsecond, hcount⟩ : ∃ s₁,
      prqEnqueue (fun _ => 0) s 16 = .ok s₁ ∧ ∃ s₂, prqEnqueue (fun _ => 0) s₁ 32 = .ok s₂ ∧
        ∃ s₃, prqRemove s₂ 32 = .ok s₃ ∧ NodeAt s 16 ⟨0, 5, 0⟩ ∧ NodeAt s₁ 32 ⟨0, 7, 0⟩ ∧
        NodeAt s₃ 32 ⟨-1, 7, 0⟩ ∧ s₃.count = 1 := by
    cases hcreate
    exact ⟨_, rfl, _, rfl, _, rfl, ⟨by decide, rfl⟩, ⟨by decide, rfl⟩, ⟨by decide, rfl⟩, rfl⟩
  let u : InUse := ⟨s₃, insert 32 (insert 16 ∅) \ {32}⟩
  have hrun : Relation.ReflTransGen Step ⟨s, ∅⟩ u := by
    refine ((Relation.ReflTransGen.single (.enqueue _ hnode (Set.notMem_empty 16) h₁)).tail
      (.enqueue _ hfirst ?_ h₂)).tail (.remove (Set.mem_insert 32 _) h₃)
    rintro (h | h)
    · cases h
    · exact h
  have hu := Runs.invariant (I := InUse.Inv) (fun _ _ h hstep => h.step hstep) hrun ⟨hinv, hempty⟩
  obtain ⟨s', hremove, hiff, -⟩ := prqRemove_noOp_iff hu.queue hsecond rfl
  refine ⟨s, u, 32, _, s', hcreate, hrun.lift id fun _ _ => IdleStep.step, hsecond,
    fun hin => hin.2 rfl, rfl, hremove, fun hno => ?_⟩
  exact absurd (hcount.symm.trans (hiff.mp hno)) (by decide)

end CourseOs.PriorityQueue
