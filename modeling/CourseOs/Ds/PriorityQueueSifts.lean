import CourseOs.Ds.PriorityQueue
import CourseOs.Lib.BinaryHeap

/-!
# The sifts keep the queue

`Indexed` says that slots `1, …, count` hold live nodes that know their slot,
so no node is in two slots.  `Rearranged s s'` is what a sift may do: nodes
change slots among these, and only their indices change; priorities, data and
all other nodes stay.

The order of the keys is `BinaryHeap.Ordered (key s)`, and each loop is an
instance of the two invariants of a heap with one key out of place.
`BinaryHeap.Near` says that the keys are in order except at one slot, whose
children are in order with its parent; `Above` says that the slot is in order
with its parent.  The loop of `__prq_shift_up` carries `Near`, the loop of
`__prq_shift_down` both, and each ends ordered.

The loops are called at a slot that may be in order already, and after
`prq_remove` of the last node at the slot past the end, which still holds the
node.  That no sift does anything there is `shiftUp_of_above` and
`shiftDown_of_leaf`.
-/

namespace CourseOs.PriorityQueue

open BinaryHeap

variable {s s' s'' : Prq} {n nx ny : PrqNode} {p a b i idx fuel : ℕ}

/-- The node `n` is allocated at `p`, which is not the null pointer. -/
def NodeAt (s : Prq) (p : ℕ) (n : PrqNode) : Prop := p ≠ 0 ∧ s.nodes p = some n

/-- Slots `1, …, count` hold live nodes whose indices are their slots. -/
def Indexed (s : Prq) : Prop :=
  ∀ i, 1 ≤ i → i ≤ s.count → ∃ n, NodeAt s (s.heap i) n ∧ n.index = i

/-- The nodes in slots `1, …, count`: the contents of the queue as a set. -/
def queued (s : Prq) : Set ℕ := {p | ∃ i, 1 ≤ i ∧ i ≤ s.count ∧ s.heap i = p}

/-- The priority of the node at `p`; 0 where there is none, so that it can be
written without a proof. -/
def prio (s : Prq) (p : ℕ) : ℤ := (s.nodes p).elim 0 PrqNode.priority

/-- The priority of the node in slot `i`, which is what the heap order is
about. -/
def key (s : Prq) (i : ℕ) : ℤ := prio s (s.heap i)

/-- The fields the client of the queue owns, which no operation writes. -/
def PrqNode.client (n : PrqNode) : ℤ × ℕ := (n.priority, n.data)

theorem NodeAt.node_eq (h : NodeAt s p n) : s.node p = .ok n := by
  unfold Prq.node
  rw [if_neg h.1, h.2]

theorem NodeAt.prio_eq (h : NodeAt s p n) : prio s p = n.priority := by
  unfold prio
  rw [h.2]
  rfl

theorem NodeAt.setIndex_eq (h : NodeAt s p n) (i : ℤ) :
    s.setIndex p i = .ok (s.putNode p { n with index := i }) := by
  unfold Prq.setIndex
  rw [h.node_eq, Exec.ok_bind]

theorem slot_eq (h : i < s.heapSize) : s.slot i = .ok (s.heap i) := if_pos h

theorem setSlot_eq (h : i < s.heapSize) (p : ℕ) :
    s.setSlot i p = .ok (s.putSlot i p) := if_pos h

theorem priorityAt_eq (hi : i < s.heapSize) (h : NodeAt s (s.heap i) n) :
    s.priorityAt i = .ok (key s i) := by
  unfold Prq.priorityAt key
  rw [slot_eq hi, Exec.ok_bind, h.node_eq, Exec.ok_bind, h.prio_eq]

/-- No node is in two slots. -/
theorem Indexed.inj (h : Indexed s) {j : ℕ} (hi : 1 ≤ i) (hic : i ≤ s.count) (hj : 1 ≤ j)
    (hjc : j ≤ s.count) (heq : s.heap i = s.heap j) : i = j := by
  obtain ⟨n, ⟨-, hn⟩, hni⟩ := h i hi hic
  obtain ⟨n', ⟨-, hn'⟩, hnj⟩ := h j hj hjc
  rw [heq, hn', Option.some.injEq] at hn
  rw [← hn, hnj] at hni
  exact_mod_cast hni.symm

/-- What a sift may do: the queue has the same nodes in the same number of
slots, each with the priority and the data it had, and no other node is
touched. -/
structure Rearranged (s s' : Prq) : Prop where
  count : s'.count = s.count
  heapSize : s'.heapSize = s.heapSize
  queued : queued s' = queued s
  client : ∀ p, (s'.nodes p).map PrqNode.client = (s.nodes p).map PrqNode.client
  frame : ∀ p, p ∉ PriorityQueue.queued s → s'.nodes p = s.nodes p
  indexed : Indexed s'

theorem Rearranged.refl (h : Indexed s) : Rearranged s s :=
  ⟨rfl, rfl, rfl, fun _ => rfl, fun _ _ => rfl, h⟩

theorem Rearranged.trans (h : Rearranged s s') (h' : Rearranged s' s'') : Rearranged s s'' where
  count := h'.count.trans h.count
  heapSize := h'.heapSize.trans h.heapSize
  queued := h'.queued.trans h.queued
  client p := (h'.client p).trans (h.client p)
  frame p hp := (h'.frame p (by rwa [h.queued])).trans (h.frame p hp)
  indexed := h'.indexed

/-- Nodes that agree in what the client owns have the same priority. -/
theorem prio_congr (h : (s'.nodes p).map PrqNode.client = (s.nodes p).map PrqNode.client) :
    prio s' p = prio s p := by
  unfold prio
  cases h' : s'.nodes p <;> cases hs : s.nodes p <;> rw [h', hs] at h
  · cases h
  · cases h
  · exact congrArg Prod.fst (Option.some.inj h)

/-! ### One exchange

A sift is a sequence of exchanges of a slot and its parent or child.  What one
exchange does to the keys is a transposition; indices are kept up to date in
the nodes at the same time. -/

theorem NodeAt.putNode {q : ℕ} {n' : PrqNode} (h : NodeAt s p n) (hne : p ≠ q) :
    NodeAt (s.putNode q n') p n :=
  ⟨h.1, (Prq.putNode_nodes_of_ne n' hne).trans h.2⟩

theorem exchange_eq (ha : a < s.heapSize) (hb : b < s.heapSize) (hx : NodeAt s (s.heap a) nx)
    (hy : NodeAt s (s.heap b) ny) (hne : s.heap a ≠ s.heap b) :
    s.exchange a b = .ok ((((s.putNode (s.heap b) { ny with index := a }).putNode (s.heap a)
      { nx with index := b }).putSlot a (s.heap b)).putSlot b (s.heap a)) := by
  unfold Prq.exchange
  rw [slot_eq ha, Exec.ok_bind, slot_eq hb, Exec.ok_bind, hy.setIndex_eq, Exec.ok_bind,
    (hx.putNode hne).setIndex_eq, Exec.ok_bind, setSlot_eq (by simpa using ha), Exec.ok_bind,
    setSlot_eq (by simpa using hb)]

/-- The slots after an exchange. -/
theorem heap_exchange (s : Prq) (a b : ℕ) :
    ((s.putSlot a (s.heap b)).putSlot b (s.heap a)).heap = s.heap ∘ Equiv.swap a b := by
  funext i
  by_cases hib : i = b
  · rw [hib, Prq.putSlot_heap_self, Function.comp_apply, Equiv.swap_apply_right]
  · rw [Prq.putSlot_heap_of_ne _ hib]
    by_cases hia : i = a
    · rw [hia, Prq.putSlot_heap_self, Function.comp_apply, Equiv.swap_apply_left]
    · rw [Prq.putSlot_heap_of_ne _ hia, Function.comp_apply,
        Equiv.swap_apply_of_ne_of_ne hia hib]

/-- **An exchange** of two slots of the queue rearranges it: the keys are
those before with two of them exchanged. -/
theorem exchange_spec (h : Indexed s) (hsize : s.count < s.heapSize) (ha : 1 ≤ a)
    (hac : a ≤ s.count) (hb : 1 ≤ b) (hbc : b ≤ s.count) (hab : a ≠ b) :
    ∃ s', s.exchange a b = .ok s' ∧ Rearranged s s' ∧ key s' = key s ∘ Equiv.swap a b := by
  obtain ⟨nx, hx, hxa⟩ := h a ha hac
  obtain ⟨ny, hy, hyb⟩ := h b hb hbc
  have hne : s.heap a ≠ s.heap b := fun heq => hab (h.inj ha hac hb hbc heq)
  let s₁ := (s.putNode (s.heap b) { ny with index := a }).putNode (s.heap a) { nx with index := b }
  let s' := (s₁.putSlot a (s.heap b)).putSlot b (s.heap a)
  refine ⟨s', exchange_eq (by omega) (by omega) hx hy hne, ?_⟩
  have hheap : s'.heap = s.heap ∘ Equiv.swap a b := heap_exchange s₁ a b
  have hnx : s'.nodes (s.heap a) = some { nx with index := b } := Prq.putNode_nodes_self ..
  have hny : s'.nodes (s.heap b) = some { ny with index := a } :=
    (Prq.putNode_nodes_of_ne _ hne.symm).trans (Prq.putNode_nodes_self ..)
  have hother : ∀ p, p ≠ s.heap a → p ≠ s.heap b → s'.nodes p = s.nodes p := fun p hpa hpb =>
    (Prq.putNode_nodes_of_ne _ hpa).trans (Prq.putNode_nodes_of_ne _ hpb)
  have hclient : ∀ p, (s'.nodes p).map PrqNode.client = (s.nodes p).map PrqNode.client := by
    intro p
    by_cases hpa : p = s.heap a
    · rw [hpa, hnx, hx.2]
      rfl
    · by_cases hpb : p = s.heap b
      · rw [hpb, hny, hy.2]
        rfl
      · rw [hother p hpa hpb]
  have hswap : ∀ i, 1 ≤ i → i ≤ s.count →
      1 ≤ Equiv.swap a b i ∧ Equiv.swap a b i ≤ s.count := by
    intro i hi hic
    rw [Equiv.swap_apply_def]
    split_ifs <;> omega
  refine ⟨⟨rfl, rfl, ?_, hclient, fun p hp => ?_, fun i hi hic => ?_⟩, ?_⟩
  · ext p
    unfold queued
    rw [hheap]
    constructor
    · rintro ⟨i, hi, hic, rfl⟩
      exact ⟨_, (hswap i hi hic).1, (hswap i hi hic).2, rfl⟩
    · rintro ⟨i, hi, hic, rfl⟩
      exact ⟨_, (hswap i hi hic).1, (hswap i hi hic).2,
        congrArg s.heap (Equiv.swap_apply_self a b i)⟩
  · exact hother p (fun heq => hp ⟨a, ha, hac, heq.symm⟩) fun heq => hp ⟨b, hb, hbc, heq.symm⟩
  · rw [hheap, Function.comp_apply]
    by_cases hia : i = a
    · rw [hia, Equiv.swap_apply_left]
      exact ⟨_, ⟨hy.1, hny⟩, rfl⟩
    · by_cases hib : i = b
      · rw [hib, Equiv.swap_apply_right]
        exact ⟨_, ⟨hx.1, hnx⟩, rfl⟩
      · rw [Equiv.swap_apply_of_ne_of_ne hia hib]
        obtain ⟨n, hn, hni⟩ := h i hi hic
        refine ⟨n, ⟨hn.1, ?_⟩, hni⟩
        rw [hother _ (fun heq => hia (h.inj hi hic ha hac heq))
          fun heq => hib (h.inj hi hic hb hbc heq)]
        exact hn.2
  · funext i
    unfold key
    rw [hheap]
    exact prio_congr (hclient _)

/-! ### The loops

Each loop has the heap order with a gap at one slot for its invariant: all is
in order but between this slot and its parent, or between this slot and its
children.  The general facts about such gaps are those of binary heaps. -/

/-- A node in order with its parent stays: this also covers a slot past the
queue. -/
theorem shiftUp_of_above {nu : PrqNode} (hidx : idx < s.heapSize)
    (hn : NodeAt s (s.heap idx) n) (hu : 2 ≤ idx → NodeAt s (s.heap (idx / 2)) nu)
    (h : Above (key s) idx) : s.shiftUp idx = .ok s := by
  unfold Prq.shiftUp Prq.shiftUpLoop
  by_cases h1 : idx ≤ 1
  · exact if_pos h1
  · rw [if_neg h1, priorityAt_eq hidx hn, Exec.ok_bind,
      priorityAt_eq (by omega) (hu (by omega)), Exec.ok_bind,
      if_neg (not_lt.mpr (h (by omega)))]

/-- **`__prq_shift_up`**: the queue ends ordered, unless the node did not
move, and then it was in order with its parent.  The loop has to be followed
by `__prq_shift_down` in that case. -/
theorem shiftUpLoop_spec : ∀ fuel s idx, idx < fuel → 1 ≤ idx → idx ≤ s.count →
    s.count < s.heapSize → Indexed s → Near (key s) s.count idx →
    ∃ s', Prq.shiftUpLoop fuel s idx = .ok s' ∧ Rearranged s s' ∧
      (Ordered (key s') s.count ∨ (s' = s ∧ Above (key s) idx)) := by
  intro fuel
  induction fuel with
  | zero => exact fun _ _ h => absurd h (Nat.not_lt_zero _)
  | succ fuel ih =>
      intro s idx hfuel hidx hic hsize hi hnear
      unfold Prq.shiftUpLoop
      by_cases h1 : idx ≤ 1
      · rw [if_pos h1]
        exact ⟨s, rfl, .refl hi, Or.inr ⟨rfl, fun h2 => by omega⟩⟩
      · obtain ⟨n, hn, -⟩ := hi idx hidx hic
        obtain ⟨nu, hnu, -⟩ := hi (idx / 2) (by omega) (by omega)
        rw [if_neg h1, priorityAt_eq (by omega) hn, Exec.ok_bind, priorityAt_eq (by omega) hnu,
          Exec.ok_bind]
        by_cases hlt : key s idx < key s (idx / 2)
        · rw [if_pos hlt]
          obtain ⟨s₁, hex, hr₁, hkey⟩ := exchange_spec (a := idx) (b := idx / 2) hi hsize hidx hic
            (by omega) (by omega) (by omega)
          obtain ⟨hnear₁, hbelow⟩ := hnear.up (by omega) hic hlt
          rw [← hkey] at hnear₁ hbelow
          rw [hex, Exec.ok_bind]
          obtain ⟨s₂, hloop, hr₂, hend⟩ := ih s₁ (idx / 2) (by omega) (by omega)
            (by rw [hr₁.count]; omega) (by rw [hr₁.count, hr₁.heapSize]; exact hsize) hr₁.indexed
            (by rw [hr₁.count]; exact hnear₁)
          rw [hr₁.count] at hend
          refine ⟨s₂, hloop, hr₁.trans hr₂, Or.inl ?_⟩
          rcases hend with hord | ⟨rfl, habove⟩
          · exact hord
          · exact hnear₁.ordered habove hbelow
        · rw [if_neg hlt]
          exact ⟨s, rfl, .refl hi, Or.inr ⟨rfl, fun _ => not_lt.mp hlt⟩⟩

/-- The child compared with is a least one: there is no child with a smaller
key.  Where there is only a left child, the slot behind it is not read. -/
theorem childIndex_spec (hi : Indexed s) (hsize : s.count < s.heapSize) (hidx : 1 ≤ idx)
    (hchild : idx * 2 ≤ s.count) :
    ∃ c, s.childIndex idx = .ok c ∧ c / 2 = idx ∧ c ≤ s.count ∧
      ∀ d, d / 2 = idx → d ≤ s.count → key s c ≤ key s d := by
  unfold Prq.childIndex
  obtain ⟨nl, hl, -⟩ := hi (idx * 2) (by omega) hchild
  by_cases hboth : idx * 2 < s.count
  · obtain ⟨nr, hr, -⟩ := hi (idx * 2 + 1) (by omega) hboth
    rw [if_pos hboth, priorityAt_eq (by omega) hl, Exec.ok_bind, priorityAt_eq (by omega) hr,
      Exec.ok_bind]
    have hcases : ∀ d, d / 2 = idx → d = idx * 2 ∨ d = idx * 2 + 1 := fun d hd => by omega
    by_cases hlt : key s (idx * 2 + 1) < key s (idx * 2)
    · refine ⟨idx * 2 + 1, if_pos hlt, by omega, hboth, fun d hd _ => ?_⟩
      rcases hcases d hd with rfl | rfl
      · exact hlt.le
      · exact le_rfl
    · refine ⟨idx * 2, if_neg hlt, by omega, hchild, fun d hd _ => ?_⟩
      rcases hcases d hd with rfl | rfl
      · exact le_rfl
      · exact not_lt.mp hlt
  · rw [if_neg hboth]
    refine ⟨idx * 2, rfl, by omega, hchild, fun d hd hdc => ?_⟩
    rw [show d = idx * 2 by omega]

/-- Nothing happens below a slot without children. -/
theorem shiftDown_of_leaf (h : s.count < idx * 2) : s.shiftDown idx = .ok s := if_pos h

/-- **`__prq_shift_down`**: the queue ends ordered.  The number of slots below
`idx` bounds the turns. -/
theorem shiftDownLoop_spec : ∀ fuel s idx, s.count < idx + fuel → 0 < fuel → 1 ≤ idx →
    s.count < s.heapSize → Indexed s → Near (key s) s.count idx → Above (key s) idx →
    ∃ s', Prq.shiftDownLoop fuel s idx = .ok s' ∧ Rearranged s s' ∧
      Ordered (key s') s.count := by
  intro fuel
  induction fuel with
  | zero => exact fun _ _ _ h => absurd h (Nat.lt_irrefl 0)
  | succ fuel ih =>
      intro s idx hfuel _ hidx hsize hi hnear habove
      unfold Prq.shiftDownLoop
      by_cases hleaf : s.count < idx * 2
      · rw [if_pos hleaf]
        exact ⟨s, rfl, .refl hi, hnear.ordered habove (.of_leaf (by omega))⟩
      · obtain ⟨c, hc, hpar, hcc, hmin⟩ := childIndex_spec hi hsize hidx (by omega)
        obtain ⟨n, hn, -⟩ := hi idx hidx (by omega)
        obtain ⟨nc, hnc, -⟩ := hi c (by omega) hcc
        rw [if_neg hleaf, hc, Exec.ok_bind, priorityAt_eq (by omega) hnc, Exec.ok_bind,
          priorityAt_eq (by omega) hn, Exec.ok_bind]
        by_cases hlt : key s c < key s idx
        · rw [if_pos hlt]
          obtain ⟨s₁, hex, hr₁, hkey⟩ := exchange_spec (a := idx) (b := c) hi hsize hidx
            (by omega) (by omega) hcc (by omega)
          obtain ⟨hnear₁, habove₁⟩ := hnear.down hpar hidx hcc hlt hmin
          rw [← hkey] at hnear₁ habove₁
          rw [hex, Exec.ok_bind]
          obtain ⟨s₂, hloop, hr₂, hord⟩ := ih s₁ c (by rw [hr₁.count]; omega) (by omega) (by omega)
            (by rw [hr₁.count, hr₁.heapSize]; exact hsize) hr₁.indexed
            (by rw [hr₁.count]; exact hnear₁) habove₁
          rw [hr₁.count] at hord
          exact ⟨s₂, hloop, hr₁.trans hr₂, hord⟩
        · rw [if_neg hlt]
          exact ⟨s, rfl, .refl hi, hnear.ordered habove fun d hd hdc =>
            (not_lt.mp hlt).trans (hmin d hd hdc)⟩

theorem shiftUp_spec (hidx : 1 ≤ idx) (hic : idx ≤ s.count) (hsize : s.count < s.heapSize)
    (hi : Indexed s) (hnear : Near (key s) s.count idx) :
    ∃ s', s.shiftUp idx = .ok s' ∧ Rearranged s s' ∧
      (Ordered (key s') s.count ∨ (s' = s ∧ Above (key s) idx)) :=
  shiftUpLoop_spec (idx + 1) s idx (Nat.lt_succ_self idx) hidx hic hsize hi hnear

theorem shiftDown_spec (hidx : 1 ≤ idx) (hsize : s.count < s.heapSize) (hi : Indexed s)
    (hnear : Near (key s) s.count idx) (habove : Above (key s) idx) :
    ∃ s', s.shiftDown idx = .ok s' ∧ Rearranged s s' ∧ Ordered (key s') s.count :=
  shiftDownLoop_spec (s.count + 1) s idx (by omega) (by omega) hidx hsize hi hnear habove

end CourseOs.PriorityQueue
