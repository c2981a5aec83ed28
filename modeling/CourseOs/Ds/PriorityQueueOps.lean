import CourseOs.Ds.PriorityQueueSifts
import Mathlib.Order.BooleanAlgebra.Set
import Mathlib.Tactic.Set

/-!
# What each operation does to the queue

`QueueInv` is the state between operations: the queue is indexed and ordered,
and one slot past the last node is free.  Each operation keeps it, and says
what it does to the set of queued nodes:

* `prqEnqueue_spec` inserts one node, unless the array has to grow and there
  is no memory;
* `prqRemove_spec` takes the given node out;
* `prqDequeue_spec` takes out a node of least priority, the one that
  `prqPeek_spec` finds;
* `prqCreateFixed_spec` makes an empty queue.

`Vacated` is the common part of the removals: a slot is filled with the last
node, and the node it held is out.  The sifts then restore the order.  When
the node is itself the last one, its slot is past the end and there is nothing
to restore (`Vacated.ordered_of_last`).

`Keeps` is the frame of all of them: what the clients own, the priority and
the data of a node, is as before, and nodes out of a given set are not touched
at all.
-/

namespace CourseOs.PriorityQueue

open BinaryHeap

variable {s s' s'' : Prq} {n : PrqNode} {p q i j : ℕ} {A : Set ℕ}

/-- The queue between operations: the slots are those of live nodes, in heap
order, with room for one more. -/
structure QueueInv (s : Prq) : Prop where
  indexed : Indexed s
  ordered : Ordered (key s) s.count
  /-- One slot past the last is free, and `prq_remove` writes one further. -/
  room : s.count + 1 < s.heapSize

/-- Only indices of the nodes in `A` change: the priority and the data of
every node stay, and nodes out of `A` stay as they are. -/
structure Keeps (A : Set ℕ) (s s' : Prq) : Prop where
  client : ∀ p, (s'.nodes p).map PrqNode.client = (s.nodes p).map PrqNode.client
  frame : ∀ p, p ∉ A → s'.nodes p = s.nodes p

theorem Keeps.trans {B : Set ℕ} (h : Keeps A s s') (h' : Keeps B s' s'') (hB : B ⊆ A) :
    Keeps A s s'' where
  client p := (h'.client p).trans (h.client p)
  frame p hp := (h'.frame p fun hb => hp (hB hb)).trans (h.frame p hp)

theorem Rearranged.keeps (h : Rearranged s s') : Keeps (PriorityQueue.queued s) s s' :=
  ⟨h.client, h.frame⟩

theorem Keeps.prio (h : Keeps A s s') (p : ℕ) : prio s' p = prio s p := prio_congr (h.client p)

/-- A node stays allocated, at its priority and with its data. -/
theorem Keeps.nodeAt (h : Keeps A s s') (hn : NodeAt s p n) :
    ∃ n', NodeAt s' p n' ∧ n'.client = n.client := by
  have hc := h.client p
  rw [hn.2] at hc
  obtain ⟨n', hn', heq⟩ := Option.map_eq_some_iff.mp hc
  exact ⟨n', ⟨hn.1, hn'⟩, heq⟩

theorem setIndex_client (s : Prq) (hn : s.nodes p = some n) (i : ℤ) (q : ℕ) :
    ((s.putNode p { n with index := i }).nodes q).map PrqNode.client =
      (s.nodes q).map PrqNode.client := by
  by_cases hq : q = p
  · rw [hq, Prq.putNode_nodes_self, hn]
    rfl
  · rw [Prq.putNode_nodes_of_ne _ hq]

theorem Indexed.mem_queued (hi : 1 ≤ i) (hic : i ≤ s.count) : s.heap i ∈ queued s :=
  ⟨i, hi, hic, rfl⟩

theorem queued_eq_empty (h : s.count = 0) : queued s = ∅ := by
  ext p
  constructor
  · rintro ⟨i, hi, hic, -⟩
    omega
  · exact False.elim

/-- A queue whose slots and their nodes are as before is in order as before. -/
theorem QueueInv.congr (h : QueueInv s) (hcount : u.count = s.count)
    (hheap : ∀ i, 1 ≤ i → i ≤ s.count → u.heap i = s.heap i) (hnodes : u.nodes = s.nodes)
    (hroom : u.count + 1 < u.heapSize) : QueueInv u ∧ queued u = queued s := by
  refine ⟨⟨fun i hi hic => ?_, ?_, hroom⟩, ?_⟩
  · rw [hcount] at hic
    obtain ⟨n, ⟨hn0, hn⟩, hni⟩ := h.indexed i hi hic
    exact ⟨n, by rw [hheap i hi hic]; exact ⟨hn0, by rw [hnodes]; exact hn⟩, hni⟩
  · rw [hcount]
    refine h.ordered.congr fun i hi hic => ?_
    unfold key prio
    rw [hheap i hi hic, hnodes]
  · ext p
    constructor
    · rintro ⟨i, hi, hic, rfl⟩
      rw [hcount] at hic
      exact ⟨i, hi, hic, (hheap i hi hic).symm⟩
    · rintro ⟨i, hi, hic, rfl⟩
      exact ⟨i, hi, by rw [hcount]; exact hic, hheap i hi hic⟩

/-- Work on nodes that are not queued does not touch the queue. -/
theorem QueueInv.frame (h : QueueInv s) (hheap : s'.heap = s.heap) (hcount : s'.count = s.count)
    (hsize : s'.heapSize = s.heapSize) (hnodes : ∀ p ∈ queued s, s'.nodes p = s.nodes p) :
    QueueInv s' ∧ queued s' = queued s := by
  have hslot : ∀ i, 1 ≤ i → i ≤ s.count → s'.nodes (s.heap i) = s.nodes (s.heap i) :=
    fun i hi hic => hnodes _ ⟨i, hi, hic, rfl⟩
  refine ⟨⟨fun i hi hic => ?_, ?_, by rw [hcount, hsize]; exact h.room⟩, ?_⟩
  · rw [hcount] at hic
    obtain ⟨n, hn, hni⟩ := h.indexed i hi hic
    rw [hheap]
    exact ⟨n, ⟨hn.1, (hslot i hi hic).trans hn.2⟩, hni⟩
  · rw [hcount]
    refine h.ordered.congr fun i hi hic => ?_
    unfold key prio
    rw [hheap, hslot i hi hic]
  · unfold queued
    rw [hheap, hcount]

/-! ### `prq_enqueue`

The new node is put in the slot behind the last one, where it is in order with
its children, since it has none, but perhaps not with its parent.  The sift up
starts from there. -/

/-- The queue with `p` in a new last slot: all is in order except that slot,
from which the bubbling starts. -/
theorem enqueue_start (h : QueueInv s) (hn : NodeAt s p n) (hp : p ∉ queued s) :
    let s₁ :=
      ((s.putNode p { n with index := (s.count + 1 : ℕ) }).putSlot (s.count + 1) p).withCount
        (s.count + 1)
    Indexed s₁ ∧ Ordered (key s₁) s.count ∧ queued s₁ = insert p (queued s) ∧
      Keeps (insert p (queued s)) s s₁ := by
  intro s₁
  have hself : s₁.heap (s.count + 1) = p := Prq.putSlot_heap_self ..
  have hheap : ∀ i, i ≤ s.count → s₁.heap i = s.heap i := fun i hi =>
    Prq.putSlot_heap_of_ne _ (by omega)
  have hnew : s₁.nodes p = some { n with index := (s.count + 1 : ℕ) } := Prq.putNode_nodes_self ..
  have hother : ∀ q, q ≠ p → s₁.nodes q = s.nodes q := fun q hq => Prq.putNode_nodes_of_ne _ hq
  refine ⟨fun i hi hic => ?_, ?_, ?_, ?_, fun q hq => ?_⟩
  · replace hic : i ≤ s.count + 1 := hic
    by_cases hlast : i = s.count + 1
    · rw [hlast, hself]
      exact ⟨_, ⟨hn.1, hnew⟩, rfl⟩
    · obtain ⟨n', hn', hni⟩ := h.indexed i hi (by omega)
      rw [hheap i (by omega)]
      exact ⟨n', ⟨hn'.1, by rw [hother _ fun heq => hp ⟨i, hi, by omega, heq⟩]; exact hn'.2⟩, hni⟩
  · refine h.ordered.congr fun i hi hic => ?_
    unfold key
    rw [hheap i hic]
    exact prio_congr (setIndex_client s hn.2 _ _)
  · ext q
    constructor
    · rintro ⟨i, hi, hic, rfl⟩
      replace hic : i ≤ s.count + 1 := hic
      by_cases hlast : i = s.count + 1
      · exact Or.inl (by rw [hlast, hself])
      · exact Or.inr ⟨i, hi, by omega, (hheap i (by omega)).symm⟩
    · rintro (rfl | ⟨i, hi, hic, rfl⟩)
      · exact ⟨s.count + 1, by omega, le_rfl, hself⟩
      · exact ⟨i, hi, le_trans hic (Nat.le_succ _), hheap i hic⟩
  · exact setIndex_client s hn.2 _
  · exact hother q fun heq => hq (Or.inl heq)

/-- The queue after the array has grown, which has the same nodes in the same
slots and room for more. -/
theorem amortize_spec (garbage : ℕ → ℕ) (hi : Indexed s) (ho : Ordered (key s) s.count)
    (hfull : s.count + 1 = s.heapSize) :
    (∃ s', prqAmortize garbage s = .ok s' ∧ QueueInv s' ∧ queued s' = queued s ∧
      s'.nodes = s.nodes) ∨ prqAmortize garbage s = .error .outOfMemory := by
  unfold prqAmortize
  by_cases hmem : sizeofPointer * (s.heapSize * amortizedConstant) < 2 ^ 32
  · rw [if_pos hmem]
    refine Or.inl ⟨_, rfl, ?_⟩
    -- the same queue in an array that already had the room
    have hinv : QueueInv { s with heapSize := s.heapSize * amortizedConstant } :=
      ⟨hi, ho, by show s.count + 1 < s.heapSize * 2; omega⟩
    obtain ⟨hinv', hq⟩ := hinv.congr
      (u := { s with
        heap := fun i => if i < s.heapSize then s.heap i else garbage i
        heapSize := s.heapSize * amortizedConstant }) rfl
      (fun i _ hic => if_pos (lt_of_le_of_lt hic (show s.count < s.heapSize by omega))) rfl
      hinv.room
    exact ⟨hinv', hq, rfl⟩
  · exact Or.inr (if_neg hmem)

/-- **`prq_enqueue`** adds the node, unless the array has to grow and cannot.
The array has to grow exactly when the node takes the last slot but one. -/
theorem prqEnqueue_spec (garbage : ℕ → ℕ) (h : QueueInv s) (hn : NodeAt s p n)
    (hp : p ∉ queued s) :
    (∃ s', prqEnqueue garbage s p = .ok s' ∧ QueueInv s' ∧ queued s' = insert p (queued s) ∧
      Keeps (insert p (queued s)) s s') ∨
      (prqEnqueue garbage s p = .error .outOfMemory ∧ s.count + 2 = s.heapSize) := by
  obtain ⟨hi, ho, hq, hk⟩ := enqueue_start h hn hp
  set s₁ := ((s.putNode p { n with index := (s.count + 1 : ℕ) }).putSlot (s.count + 1) p).withCount
    (s.count + 1) with hs₁
  have hroom := h.room
  obtain ⟨s₂, hup, hr, hend⟩ := shiftUp_spec (s := s₁) (show 1 ≤ s.count + 1 by omega)
    (show s.count + 1 ≤ s₁.count from le_rfl) (show s.count + 1 < s.heapSize by omega) hi
    ho.near_last
  have hord : Ordered (key s₂) s₂.count := by
    rw [hr.count]
    rcases hend with hord | ⟨rfl, habove⟩
    · exact hord
    · exact ho.near_last.ordered habove (.of_leaf (by omega))
  have hkeep : Keeps (insert p (queued s)) s s₂ := hk.trans hr.keeps hq.subset
  have hrun : prqEnqueue garbage s p =
      if s₂.count + 1 = s₂.heapSize then prqAmortize garbage s₂ else .ok s₂ := by
    unfold prqEnqueue
    rw [if_neg hn.1]
    show (s.setIndex p ((s.count + 1 : ℕ) : ℤ) >>= _) = _
    rw [hn.setIndex_eq, Exec.ok_bind, setSlot_eq (by exact hroom), Exec.ok_bind]
    show s₁.shiftUp (s.count + 1) >>= _ = _
    rw [hup, Exec.ok_bind]
  rw [hrun]
  by_cases hfull : s₂.count + 1 = s₂.heapSize
  · rw [if_pos hfull]
    rcases amortize_spec garbage hr.indexed hord hfull with ⟨s₃, hs₃, hinv, hq₃, hn₃⟩ | hmem
    · refine Or.inl ⟨s₃, hs₃, hinv, hq₃.trans (hr.queued.trans hq), ?_⟩
      exact ⟨fun p => by rw [hn₃]; exact hkeep.client p,
        fun p hp => by rw [hn₃]; exact hkeep.frame p hp⟩
    · refine Or.inr ⟨hmem, ?_⟩
      have h₁ : s₂.count = s.count + 1 := hr.count
      have h₂ : s₂.heapSize = s.heapSize := hr.heapSize
      omega
  · rw [if_neg hfull]
    refine Or.inl ⟨s₂, rfl, ⟨hr.indexed, hord, ?_⟩, hr.queued.trans hq, hkeep⟩
    have h₁ : s₂.count = s.count + 1 := hr.count
    have h₂ : s₂.heapSize = s.heapSize := hr.heapSize
    omega

/-! ### Taking a node out

Both operations leave a queue in which one slot may be out of order, on either
side: the last node, moved to the slot that became free, may belong further up
or further down.  `prq_remove` therefore sifts in both directions, and
`prq_dequeue`, which fills the root, only down. -/

/-- Slot `i` is filled with the last node, and the node it held is out.  If
the node was the last one nothing is moved. -/
structure Vacated (s s₁ : Prq) (i : ℕ) : Prop where
  count : s₁.count = s.count - 1
  heapSize : s₁.heapSize = s.heapSize
  kept : ∀ j, 1 ≤ j → j < s.count → j ≠ i → s₁.heap j = s.heap j
  moved : i < s.count → s₁.heap i = s.heap s.count
  reindexed : i < s.count → ∃ n, NodeAt s₁ (s.heap s.count) n ∧ n.index = i
  keeps : Keeps {s.heap i, s.heap s.count} s s₁

section Vacated

variable {s₁ : Prq}

theorem Vacated.key_eq (h : Vacated s s₁ i) (hj : 1 ≤ j) (hjc : j < s.count) (hji : j ≠ i) :
    key s₁ j = key s j := by
  unfold key
  rw [h.kept j hj hjc hji]
  exact h.keeps.prio _

theorem Vacated.indexed (h : Vacated s s₁ i) (hs : Indexed s) (hi : 1 ≤ i) (hic : i ≤ s.count) :
    Indexed s₁ := by
  intro j hj hjc
  rw [h.count] at hjc
  by_cases hji : j = i
  · rw [hji, h.moved (by omega)]
    exact h.reindexed (by omega)
  · obtain ⟨n, hn, hnj⟩ := hs j hj (by omega)
    rw [h.kept j hj (by omega) hji]
    refine ⟨n, ⟨hn.1, (h.keeps.frame _ ?_).trans hn.2⟩, hnj⟩
    rintro (heq | heq)
    · exact hji (hs.inj hj (by omega) hi hic heq)
    · have := hs.inj hj (by omega) (show 1 ≤ s.count by omega) le_rfl heq
      omega

theorem Vacated.queued (h : Vacated s s₁ i) (hs : Indexed s) (hi : 1 ≤ i) (hic : i ≤ s.count) :
    queued s₁ = queued s \ {s.heap i} := by
  ext p
  constructor
  · rintro ⟨j, hj, hjc, rfl⟩
    rw [h.count] at hjc
    by_cases hji : j = i
    · rw [hji, h.moved (by omega)]
      refine ⟨⟨s.count, by omega, le_rfl, rfl⟩, fun heq => ?_⟩
      have := hs.inj (by omega) le_rfl hi hic heq
      omega
    · rw [h.kept j hj (by omega) hji]
      exact ⟨⟨j, hj, by omega, rfl⟩, fun heq => hji (hs.inj hj (by omega) hi hic heq)⟩
  · rintro ⟨⟨j, hj, hjc, rfl⟩, hne⟩
    have hji : j ≠ i := fun heq => hne (by rw [heq]; rfl)
    by_cases hlast : j = s.count
    · subst hlast
      exact ⟨i, hi, by rw [h.count]; omega, h.moved (by omega)⟩
    · exact ⟨j, hj, by rw [h.count]; omega, h.kept j hj (by omega) hji⟩

theorem Vacated.near (h : Vacated s s₁ i) (hs : Ordered (key s) s.count) (hi : 1 ≤ i) :
    Near (key s₁) s₁.count i := by
  have hcount := h.count
  refine ⟨fun j hj hjc hji hpi => ?_, fun hi₂ c hc hcc => ?_⟩
  · rw [h.key_eq (by omega) (by omega) hji, h.key_eq (by omega) (by omega) hpi]
    exact hs j hj (by omega)
  · rw [h.key_eq (by omega) (by omega) (by omega), h.key_eq (by omega) (by omega) (by omega)]
    exact (hs.near i).across hi₂ c hc (by omega)

/-- A queue that lost its last node is in order. -/
theorem Vacated.ordered_of_last (h : Vacated s s₁ s.count) (hs : Ordered (key s) s.count) :
    Ordered (key s₁) s₁.count := by
  have hcount := h.count
  exact (hs.mono (by omega)).congr fun j hj hjc => h.key_eq hj (by omega) (by omega)

end Vacated

/-- The queue that both operations leave to the sifts: `last` in slot `i`, the
node of slot `i` out, and a slot cleared that is past the queue. -/
theorem vacated_putSlot {n nl : PrqNode} {c : ℕ} (hs : Indexed s) (hi : 1 ≤ i) (hic : i ≤ s.count)
    (hl : NodeAt s (s.heap s.count) nl)
    (hn : NodeAt (s.putNode (s.heap s.count) { nl with index := i }) (s.heap i) n)
    (hc : s.count ≤ c) :
    let s₁ := ((((s.putNode (s.heap s.count) { nl with index := i }).putNode (s.heap i)
      { n with index := -1 }).putSlot i (s.heap s.count)).putSlot c 0).withCount (s.count - 1)
    Vacated s s₁ i ∧ NodeAt s₁ (s.heap i) { n with index := -1 } := by
  intro s₁
  refine ⟨⟨rfl, rfl, fun j _ hj hji => ?_, fun hlt => ?_, fun hlt => ?_, fun p => ?_,
      fun p hp => ?_⟩,
    hn.1, Prq.putNode_nodes_self ..⟩
  · exact (Prq.putSlot_heap_of_ne _ (by omega)).trans (Prq.putSlot_heap_of_ne _ hji)
  · exact (Prq.putSlot_heap_of_ne _ (by omega)).trans (Prq.putSlot_heap_self ..)
  · refine ⟨_, ⟨hl.1, (Prq.putNode_nodes_of_ne _ fun heq => ?_).trans (Prq.putNode_nodes_self ..)⟩,
      rfl⟩
    have := hs.inj (by omega) le_rfl hi hic heq
    omega
  · exact (setIndex_client _ hn.2 _ p).trans (setIndex_client s hl.2 _ p)
  · have hpi : p ≠ s.heap i := fun heq => hp (Or.inl heq)
    have hpl : p ≠ s.heap s.count := fun heq => hp (Or.inr heq)
    exact (Prq.putNode_nodes_of_ne _ hpi).trans (Prq.putNode_nodes_of_ne _ hpl)

/-- **`prq_remove`** takes the node out, gives it the index -1, and leaves the
other nodes queued. -/
theorem prqRemove_spec (h : QueueInv s) (hp : p ∈ queued s) :
    ∃ s', prqRemove s p = .ok s' ∧ QueueInv s' ∧ queued s' = queued s \ {p} ∧
      Keeps (queued s) s s' ∧ ∃ n, NodeAt s' p n ∧ n.index = -1 := by
  obtain ⟨i, hi, hic, rfl⟩ := hp
  obtain ⟨n, hn, hni⟩ := h.indexed i hi hic
  obtain ⟨nl, hl, -⟩ := h.indexed s.count (by omega) le_rfl
  have hroom := h.room
  obtain ⟨n₁, hn₁⟩ : ∃ n₁, NodeAt (s.putNode (s.heap s.count) { nl with index := i })
      (s.heap i) n₁ := by
    by_cases heq : s.heap i = s.heap s.count
    · exact ⟨_, hn.1, by rw [heq, Prq.putNode_nodes_self]⟩
    · exact ⟨n, hn.putNode heq⟩
  obtain ⟨hv, hout⟩ := vacated_putSlot (c := s.count + 1) h.indexed hi hic hl hn₁ (by omega)
  set s₁ := ((((s.putNode (s.heap s.count) { nl with index := i }).putNode (s.heap i)
    { n₁ with index := -1 }).putSlot i (s.heap s.count)).putSlot (s.count + 1) 0).withCount
    (s.count - 1) with hs₁
  have hindexed := hv.indexed h.indexed hi hic
  have hqueued := hv.queued h.indexed hi hic
  have hkeep : Keeps (queued s) s s₁ := by
    refine ⟨hv.keeps.client, fun p hp => hv.keeps.frame p ?_⟩
    rintro (rfl | rfl)
    · exact hp ⟨i, hi, hic, rfl⟩
    · exact hp ⟨s.count, by omega, le_rfl, rfl⟩
  have hsize : s₁.count < s₁.heapSize := by
    rw [hv.count, hv.heapSize]
    omega
  have hrun : prqRemove s (s.heap i) = (s₁.shiftUp i >>= fun s => s.shiftDown i) := by
    unfold prqRemove
    rw [if_neg hn.1, if_neg (by omega), slot_eq (by omega), Exec.ok_bind, hn.node_eq, Exec.ok_bind,
      hni, hl.setIndex_eq, Exec.ok_bind, if_neg (by omega), if_neg (by omega), hn₁.setIndex_eq,
      Exec.ok_bind, Int.toNat_natCast, setSlot_eq (by simpa using (by omega : i < s.heapSize)),
      Exec.ok_bind, setSlot_eq (by simpa using hroom), Exec.ok_bind]
    rfl
  -- the sifts, from a state in order except for slot `i`
  obtain ⟨s₂, hsift, hr, hord⟩ : ∃ s₂, (s₁.shiftUp i >>= fun s => s.shiftDown i) = .ok s₂ ∧
      Rearranged s₁ s₂ ∧ Ordered (key s₂) s₁.count := by
    have hnear := hv.near h.ordered hi
    by_cases hlast : i = s.count
    · have hheap : s₁.heap i = s.heap i :=
        (Prq.putSlot_heap_of_ne _ (by omega)).trans
          ((Prq.putSlot_heap_self ..).trans (by rw [hlast]))
      have habove : Above (key s₁) i := by
        intro hi₂
        rw [hv.key_eq (by omega) (by omega) (by omega)]
        refine (h.ordered i hi₂ hic).trans (le_of_eq ?_)
        unfold key
        rw [hheap, hkeep.prio]
      have hup : s₁.shiftUp i = .ok s₁ := by
        by_cases hi₂ : 2 ≤ i
        · obtain ⟨nu, hnu, -⟩ := hindexed (i / 2) (by omega) (by rw [hv.count]; omega)
          exact shiftUp_of_above (by rw [hv.heapSize]; omega) (by rw [hheap]; exact hout)
            (fun _ => hnu) habove
        · have hnone : 2 ≤ i → NodeAt s₁ (s₁.heap (i / 2)) n := fun h2 => absurd h2 hi₂
          exact shiftUp_of_above (by rw [hv.heapSize]; omega) (by rw [hheap]; exact hout) hnone
            habove
      rw [hup, Exec.ok_bind]
      refine ⟨s₁, shiftDown_of_leaf (by rw [hv.count]; omega), .refl hindexed, ?_⟩
      subst hlast
      exact hv.ordered_of_last h.ordered
    · obtain ⟨s₂, hup, hr₂, hend⟩ := shiftUp_spec hi (by rw [hv.count]; omega) hsize hindexed hnear
      have hstart : Near (key s₂) s₂.count i ∧ Above (key s₂) i := by
        rcases hend with hord | ⟨rfl, habove⟩
        · rw [hr₂.count]
          exact ⟨hord.near i, hord.above (by rw [hv.count]; omega)⟩
        · exact ⟨hnear, habove⟩
      obtain ⟨s₃, hdown, hr₃, hord⟩ := shiftDown_spec hi
        (by rw [hr₂.count, hr₂.heapSize]; exact hsize) hr₂.indexed hstart.1 hstart.2
      rw [hup, Exec.ok_bind, hdown]
      exact ⟨s₃, rfl, hr₂.trans hr₃, by rw [← hr₂.count]; exact hord⟩
  refine ⟨s₂, hrun.trans hsift, ⟨hr.indexed, by rw [hr.count]; exact hord, ?_⟩,
    hr.queued.trans hqueued, hkeep.trans hr.keeps ?_, _,
    ⟨hout.1, (hr.frame _ ?_).trans hout.2⟩, rfl⟩
  · rw [hr.count, hr.heapSize, hv.count, hv.heapSize]
    omega
  · rw [hqueued]
    exact Set.sdiff_subset
  · rw [hqueued]
    exact fun hmem => hmem.2 rfl

/-- `prq_remove` of a node that is out of the queue: its index goes to the
last node all the same. -/
theorem prqRemove_idle (h : QueueInv s) (hn : NodeAt s p n) (hindex : n.index = -1) :
    (s.count = 0 ∧ prqRemove s p = .ok s) ∨
      (s.count ≠ 0 ∧ ∃ last, NodeAt s (s.heap s.count) last ∧ last.index = s.count ∧
        prqRemove s p = .ok (s.putNode (s.heap s.count) { last with index := -1 })) := by
  unfold prqRemove
  rw [if_neg hn.1]
  by_cases hc : s.count = 0
  · exact .inl ⟨hc, if_pos hc⟩
  · have hroom := h.room
    obtain ⟨last, hl, hli⟩ := h.indexed s.count (Nat.one_le_iff_ne_zero.mpr hc) le_rfl
    refine .inr ⟨hc, last, hl, hli, ?_⟩
    rw [if_neg hc, slot_eq (by omega), Exec.ok_bind, hn.node_eq, Exec.ok_bind, hl.setIndex_eq,
      Exec.ok_bind, if_pos hindex, hindex]

/-- **`prq_dequeue`** takes out a node of least priority and gives it the
index -1.  The node stays allocated, and the others keep their priority and
data. -/
theorem prqDequeue_spec (h : QueueInv s) (hne : s.count ≠ 0) :
    ∃ s', prqDequeue s = .ok (s', s.heap 1) ∧ QueueInv s' ∧
      queued s' = queued s \ {s.heap 1} ∧ Keeps (queued s) s s' ∧
      s'.count = s.count - 1 ∧ s'.heapSize = s.heapSize ∧
      ∃ n, NodeAt s' (s.heap 1) n ∧ n.index = -1 := by
  obtain ⟨n, hn, hni⟩ := h.indexed 1 le_rfl (by omega)
  obtain ⟨nl, hl, -⟩ := h.indexed s.count (by omega) le_rfl
  have hroom := h.room
  obtain ⟨n₁, hn₁⟩ : ∃ n₁, NodeAt (s.putNode (s.heap s.count) { nl with index := (1 : ℕ) })
      (s.heap 1) n₁ := by
    by_cases heq : s.heap 1 = s.heap s.count
    · exact ⟨_, hn.1, by rw [heq, Prq.putNode_nodes_self]⟩
    · exact ⟨n, hn.putNode heq⟩
  obtain ⟨hv, hout⟩ := vacated_putSlot (i := 1) (c := s.count) h.indexed le_rfl (by omega) hl hn₁
    le_rfl
  set s₁ := ((((s.putNode (s.heap s.count) { nl with index := (1 : ℕ) }).putNode (s.heap 1)
    { n₁ with index := -1 }).putSlot 1 (s.heap s.count)).putSlot s.count 0).withCount
    (s.count - 1) with hs₁
  have hindexed := hv.indexed h.indexed le_rfl (by omega)
  have hqueued := hv.queued h.indexed le_rfl (by omega)
  have hkeep : Keeps (queued s) s s₁ := by
    refine ⟨hv.keeps.client, fun p hp => hv.keeps.frame p ?_⟩
    rintro (rfl | rfl)
    · exact hp ⟨1, le_rfl, by omega, rfl⟩
    · exact hp ⟨s.count, by omega, le_rfl, rfl⟩
  obtain ⟨s₂, hdown, hr, hord⟩ := shiftDown_spec (s := s₁) (show 1 ≤ 1 from le_rfl)
    (by rw [hv.count, hv.heapSize]; omega) hindexed (hv.near h.ordered le_rfl)
    (fun h2 => absurd h2 (by decide))
  refine ⟨s₂, ?_, ⟨hr.indexed, by rw [hr.count]; exact hord, ?_⟩, hr.queued.trans hqueued,
    hkeep.trans hr.keeps ?_, hr.count, hr.heapSize, _, ⟨hout.1, (hr.frame _ ?_).trans hout.2⟩, rfl⟩
  · unfold prqDequeue
    rw [if_neg hne, slot_eq (by omega), Exec.ok_bind, slot_eq (by omega), Exec.ok_bind,
      hl.setIndex_eq, Exec.ok_bind]
    show (Prq.setIndex (s.putNode (s.heap s.count) { nl with index := (1 : ℕ) }) (s.heap 1) (-1) >>=
      _) = _
    rw [hn₁.setIndex_eq, Exec.ok_bind, setSlot_eq (by simpa using (by omega : 1 < s.heapSize)),
      Exec.ok_bind, setSlot_eq (by simpa using (by omega : s.count < s.heapSize)), Exec.ok_bind]
    show (s₁.shiftDown 1 >>= _) = _
    rw [hdown, Exec.ok_bind]
  · rw [hr.count, hr.heapSize, hv.count, hv.heapSize]
    omega
  · rw [hqueued]
    exact Set.sdiff_subset
  · rw [hqueued]
    exact fun hmem => hmem.2 rfl

/-- **`prq_peek`** finds a node of least priority, or that there is none, and
changes nothing. -/
theorem prqPeek_spec (h : QueueInv s) :
    (s.count = 0 ∧ prqPeek s = .ok 0) ∨
      (prqPeek s = .ok (s.heap 1) ∧ s.heap 1 ∈ queued s ∧
        ∀ q ∈ queued s, prio s (s.heap 1) ≤ prio s q) := by
  have hroom := h.room
  unfold prqPeek
  by_cases hc : s.count = 0
  · exact Or.inl ⟨hc, if_neg (by omega)⟩
  · refine Or.inr ⟨?_, ⟨1, le_rfl, by omega, rfl⟩, ?_⟩
    · rw [if_pos (by omega), slot_eq (by omega)]
    · rintro _ ⟨i, hi, hic, rfl⟩
      exact h.ordered.head_le i hi hic

/-- **`prq_create_fixed`** makes an empty queue. -/
theorem prqCreateFixed_spec (garbage : ℕ → ℕ) (nodes : ℕ → Option PrqNode) {size : ℕ}
    (hsize : 1 ≤ size) (hmem : sizeofPointer * (size + 1) < 2 ^ 32) :
    ∃ s, prqCreateFixed garbage nodes size = .ok s ∧ QueueInv s ∧ queued s = ∅ := by
  refine ⟨⟨nodes, garbage, 0, size + 1⟩, ?_, ⟨fun i hi hic => ?_, fun i hi hic => ?_, ?_⟩,
    queued_eq_empty rfl⟩
  · unfold prqCreateFixed
    rw [if_neg (by omega), if_pos hmem]
  · replace hic : i ≤ 0 := hic
    omega
  · replace hic : i ≤ 0 := hic
    omega
  · show 0 + 1 < size + 1
    omega

end CourseOs.PriorityQueue
