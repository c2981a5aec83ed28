import CourseOs.Machine
import Mathlib.Logic.Function.Basic
import Mathlib.Data.Set.Basic

/-!
# The priority queue

`ds/priority_queue.c`: a binary heap of pointers to nodes, the node of least
priority first.  The pointers are in slots `1, …, __count` of an array of
`__heap_size` slots; slot 0 is never used, so the parent of slot `i` is slot
`i / 2` and its children are slots `2 * i` and `2 * i + 1`.  Each queued node
records its slot in `__index`, and a node that has been taken out has the
index -1.

A slot at or past `__heap_size` is never read or written: `slot` and `setSlot`
stop with `Trap.outOfBounds` there.  A node is reached through its address,
and `node` stops unless one is allocated there: the nodes are allocated and
freed by the clients of the queue, and nothing in the queue keeps a client
from freeing a node that is queued.

The routines read and write in the order of the source.  That matters in
`prq_remove`, which copies the index of the node to the last node of the queue
before it looks whether that index is -1, and in `prq_enqueue`, which grows
the array after the node is in it.
-/

namespace CourseOs.PriorityQueue

/-- `prq_node`: a priority and data of the client, and the slot the queue
keeps the node in. -/
structure PrqNode where
  /-- `__index`. -/
  index : ℤ
  priority : ℤ
  /-- The address `data` points to. -/
  data : ℕ
  deriving DecidableEq, Repr

/-- A `prq_handle`, with the nodes its pointers reach.  A slot past
`__heap_size` has a value here as well; the accessors stop there. -/
structure Prq where
  /-- The node allocated at an address, if any. -/
  nodes : ℕ → Option PrqNode
  /-- `__heap`. -/
  heap : ℕ → ℕ
  /-- `__count`. -/
  count : ℕ
  /-- `__heap_size`. -/
  heapSize : ℕ

/-- `AMORTIZED_CONSTANT`: the factor by which the array grows. -/
abbrev amortizedConstant : ℕ := 2

/-- `DEFAULT_COUNT`: how many nodes a queue is made for if nothing is said. -/
abbrev defaultCount : ℕ := 10

/-- `sizeof(prq_node *)`. -/
abbrev sizeofPointer : ℕ := 4

namespace Prq

/-- `*p`, for a node.  Null and a node that has been freed stop the kernel. -/
def node (s : Prq) (p : ℕ) : Exec PrqNode :=
  if p = 0 then .error .nullDereference
  else match s.nodes p with
    | some n => .ok n
    | none => .error .dangling

/-- The node at `p` becomes `n`; slots and count stay. -/
def putNode (s : Prq) (p : ℕ) (n : PrqNode) : Prq :=
  { s with nodes := Function.update s.nodes p (some n) }

/-- Slot `i` becomes `p`; nothing is written to the nodes. -/
def putSlot (s : Prq) (i p : ℕ) : Prq := { s with heap := Function.update s.heap i p }

/-- `__count` becomes `n`.  The slots past it stay as they are. -/
def withCount (s : Prq) (n : ℕ) : Prq := { s with count := n }

/-- `p->__index = i`, for a node that is allocated. -/
def setIndex (s : Prq) (p : ℕ) (i : ℤ) : Exec Prq := do
  let n ← s.node p
  .ok (s.putNode p { n with index := i })

section Updates

variable (s : Prq) (p i c : ℕ) (n : PrqNode)

@[simp] theorem putNode_heap : (s.putNode p n).heap = s.heap := rfl
@[simp] theorem putNode_count : (s.putNode p n).count = s.count := rfl
@[simp] theorem putNode_heapSize : (s.putNode p n).heapSize = s.heapSize := rfl
@[simp] theorem putSlot_nodes : (s.putSlot i p).nodes = s.nodes := rfl
@[simp] theorem putSlot_count : (s.putSlot i p).count = s.count := rfl
@[simp] theorem putSlot_heapSize : (s.putSlot i p).heapSize = s.heapSize := rfl
@[simp] theorem withCount_nodes : (s.withCount c).nodes = s.nodes := rfl
@[simp] theorem withCount_heap : (s.withCount c).heap = s.heap := rfl
@[simp] theorem withCount_count : (s.withCount c).count = c := rfl
@[simp] theorem withCount_heapSize : (s.withCount c).heapSize = s.heapSize := rfl

@[simp] theorem putNode_nodes_self : (s.putNode p n).nodes p = some n := Function.update_self ..

theorem putNode_nodes_of_ne {s : Prq} {p q : ℕ} (n : PrqNode) (h : q ≠ p) :
    (s.putNode p n).nodes q = s.nodes q := Function.update_of_ne h _ _

@[simp] theorem putSlot_heap_self : (s.putSlot i p).heap i = p := Function.update_self ..

theorem putSlot_heap_of_ne {s : Prq} {i j : ℕ} (p : ℕ) (h : j ≠ i) :
    (s.putSlot i p).heap j = s.heap j := Function.update_of_ne h _ _

end Updates

/-- `heap[i]`, for an index within the array.  That it is within the count is
not asked. -/
def slot (s : Prq) (i : ℕ) : Exec ℕ :=
  if i < s.heapSize then .ok (s.heap i) else .error .outOfBounds

/-- `heap[i] = p`, for an index within the array. -/
def setSlot (s : Prq) (i p : ℕ) : Exec Prq :=
  if i < s.heapSize then .ok (s.putSlot i p) else .error .outOfBounds

/-- `heap[i]->priority`, through the pointer in the slot. -/
def priorityAt (s : Prq) (i : ℕ) : Exec ℤ := do
  let p ← s.slot i
  let n ← s.node p
  .ok n.priority

/-- The exchange of both sifts: the nodes in slots `a` and `b` change places.
The indices are written before the slots, as in the source. -/
def exchange (s : Prq) (a b : ℕ) : Exec Prq := do
  let x ← s.slot a
  let y ← s.slot b
  let s ← s.setIndex y a
  let s ← s.setIndex x b
  let s ← s.setSlot a y
  s.setSlot b x

/-- The loop of `__prq_shift_up`: a node goes up while its parent has a
greater priority.  The slot is halved in each turn, so `idx + 1` turns are
enough. -/
def shiftUpLoop : ℕ → Prq → ℕ → Exec Prq
  | 0, _, _ => .error .diverged
  | fuel + 1, s, idx =>
      if idx ≤ 1 then .ok s
      else do
        let own ← s.priorityAt idx
        let above ← s.priorityAt (idx / 2)
        if own < above then do
          let s ← s.exchange idx (idx / 2)
          shiftUpLoop fuel s (idx / 2)
        else .ok s

/-- `__prq_shift_up`, from a slot to the root at most. -/
def shiftUp (s : Prq) (idx : ℕ) : Exec Prq := shiftUpLoop (idx + 1) s idx

/-- The child of `idx` that `__prq_shift_down` compares with: the right one if
there is one and its priority is less, and the left one otherwise. -/
def childIndex (s : Prq) (idx : ℕ) : Exec ℕ :=
  if idx * 2 < s.count then do
    let left ← s.priorityAt (idx * 2)
    let right ← s.priorityAt (idx * 2 + 1)
    if right < left then .ok (idx * 2 + 1) else .ok (idx * 2)
  else .ok (idx * 2)

/-- The loop of `__prq_shift_down`: a node goes down while a child has a
smaller priority. -/
def shiftDownLoop : ℕ → Prq → ℕ → Exec Prq
  | 0, _, _ => .error .diverged
  | fuel + 1, s, idx =>
      if s.count < idx * 2 then .ok s
      else do
        let cidx ← s.childIndex idx
        let child ← s.priorityAt cidx
        let own ← s.priorityAt idx
        if child < own then do
          let s ← s.exchange idx cidx
          shiftDownLoop fuel s cidx
        else .ok s

/-- `__prq_shift_down`, from a slot to a leaf at most. -/
def shiftDown (s : Prq) (idx : ℕ) : Exec Prq := shiftDownLoop (s.count + 1) s idx

end Prq

/-! ### The operations

Enqueueing grows the array after the node has been put in place, so that the
next node finds a slot; the two ways of taking a node out put the last node in
its place and let it sink or rise.  `prq_remove` takes the slot from the node
itself, whether or not the node is queued. -/

/-- `prq_create_fixed`, for `n` nodes and the unused slot 0.  The slots
allocated hold whatever was there. -/
def prqCreateFixed (garbage : ℕ → ℕ) (nodes : ℕ → Option PrqNode) (n : ℕ) : Exec Prq :=
  if n < 1 then .error .assertion
  else if sizeofPointer * (n + 1) < 2 ^ 32 then .ok ⟨nodes, garbage, 0, n + 1⟩
  else .error .outOfMemory

/-- `prq_create`: a queue for the default number of nodes. -/
def prqCreate (garbage : ℕ → ℕ) (nodes : ℕ → Option PrqNode) : Exec Prq :=
  prqCreateFixed garbage nodes defaultCount

/-- `prq_peek`: the node in slot 1, or the null pointer when the queue is
empty. -/
def prqPeek (s : Prq) : Exec ℕ := if 0 < s.count then s.slot 1 else .ok 0

/-- `__prq_amortize`: the array is doubled, and `krealloc` keeps the old
slots. -/
def prqAmortize (garbage : ℕ → ℕ) (s : Prq) : Exec Prq :=
  if sizeofPointer * (s.heapSize * amortizedConstant) < 2 ^ 32 then
    .ok { s with
      heap := fun i => if i < s.heapSize then s.heap i else garbage i
      heapSize := s.heapSize * amortizedConstant }
  else .error .outOfMemory

/-- `prq_enqueue`: the node goes to a new last slot and up from there.  The
array grows once it has no free slot left, so that the next node finds one. -/
def prqEnqueue (garbage : ℕ → ℕ) (s : Prq) (node : ℕ) : Exec Prq :=
  if node = 0 then .error .assertion
  else do
    let index := s.count + 1
    let s ← s.setIndex node index
    let s ← s.setSlot index node
    let s ← (s.withCount (s.count + 1)).shiftUp index
    if s.count + 1 = s.heapSize then prqAmortize garbage s else .ok s

/-- `prq_remove`: the last node goes to the slot of the node that is taken
out, and up or down from there.  A node that is not queued has the index -1
and is left alone, but by then that index has been copied to the last node. -/
def prqRemove (s : Prq) (node : ℕ) : Exec Prq :=
  if node = 0 then .error .assertion
  else if s.count = 0 then .ok s
  else do
    let last ← s.slot s.count
    let n ← s.node node
    let s ← s.setIndex last n.index
    if n.index = -1 then .ok s
    else if n.index < 0 then .error .outOfBounds
    else do
      let index := n.index.toNat
      let s ← s.setIndex node (-1)
      let s ← s.setSlot index last
      let s ← s.setSlot (s.count + 1) 0
      let s ← (s.withCount (s.count - 1)).shiftUp index
      s.shiftDown index

/-- `prq_dequeue`: the last node goes to slot 1 and down from there. -/
def prqDequeue (s : Prq) : Exec (Prq × ℕ) :=
  if s.count = 0 then .ok (s, 0)
  else do
    let top ← s.slot 1
    let last ← s.slot s.count
    let s ← s.setIndex last 1
    let s ← s.setIndex top (-1)
    let s ← s.setSlot 1 last
    let s ← s.setSlot s.count 0
    let s ← (s.withCount (s.count - 1)).shiftDown 1
    .ok (s, top)

end CourseOs.PriorityQueue
