import CourseOs.Lib.ByteMemory
import CourseOs.Machine
import Mathlib.Logic.Function.Basic

/-!
# The kernel heap

`allocator.c` and `llist.c`.  The heap is cut into blocks.  A block starts
with a `node_t` of four words and ends with a footer that points back to it;
the `next` and `prev` words of the node belong to the payload while the block
is in use.  So a block has 20 bytes that are not payload, and a payload starts
8 bytes into its block.  Free blocks ("holes") are kept in `BIN_COUNT` lists,
each sorted by size, and the bin of a hole is given by the logarithm of its
size.  The last block of the heap is called the wilderness; it is found by its
footer, the last word before `heap->end`.

`heap_t` and its bins lie outside the heap; `HeapState` has the three fields
`start`, `end` and the heads of the bins beside the memory.  Everything else
is in memory, byte by byte, and is read and written there.  `placeBlock` and
`splitBlock` are the parts of `heap_alloc` before its wilderness check and
inside its first `if`, `coalescePrev` and `coalesceNext` the two `if` blocks
of `heap_free`.

What `vm2_allocate_page` answers is the argument `granted` of the routines
that may ask for a page.
-/

namespace CourseOs.Heap

open ByteMemory

/-- `HEAP_INIT_SIZE`: the bytes of a heap that has just been created, all of
them in one hole.  It is also the size from which `init_heap` sets the end of
the heap. -/
abbrev heapInitSize : ℕ := 0x10000

/-- `MIN_ALLOC_SZ`.  A hole is split when it has more than this many bytes
left for a further block, its overhead not counted. -/
abbrev minAllocSz : ℕ := 4

/-- `MIN_WILDERNESS`: a request that leaves the last block smaller than this
has the heap expanded. -/
abbrev minWilderness : ℕ := 0x2000

/-- `MAX_WILDERNESS`: a request that leaves the last block larger than this
has the heap contracted. -/
abbrev maxWilderness : ℕ := 0x1000000

/-- `BIN_COUNT`: the number of bins, each for holes of sizes between two
powers of two, and the last one for all that are larger. -/
abbrev binCount : ℕ := 9

/-- `BIN_MAX_IDX`. -/
abbrev binMaxIdx : ℕ := binCount - 1

/-- `sizeof(node_t)`: four words, of which only the first two are there while
a block is in use. -/
abbrev sizeofNode : ℕ := 16

/-- `sizeof(footer_t)`: one word, which points back to the block's node. -/
abbrev sizeofFooter : ℕ := 4

/-- `overhead`: the bytes of a block that are not counted in its size, those
of its node and its footer. -/
abbrev overhead : ℕ := sizeofFooter + sizeofNode

/-- `offset`: where the payload starts in a block.  Clients are handed this
address, and `heap_free` goes back from it to the header. -/
abbrev offset : ℕ := 8

/-- The words of a `node_t`.  The first two are the header of any block; the
last two are links in a hole, and payload in a block in use. -/
inductive NodeField
  | hole
  | size
  | next
  | prev
  deriving DecidableEq

/-- Where the word lies in the node.  The header is in front of the links, so
that a payload may begin where the links are. -/
def NodeField.offset : NodeField → ℕ
  | hole => 0
  | size => 4
  | next => 8
  | prev => 12

/-- Read one word of the node at `n`.  As in the source, nothing is checked:
at an address that is no block's this is whatever memory holds there. -/
def node (m : ByteMemory) (n : ℕ) (f : NodeField) : ℕ := readWord m (n + f.offset)

/-- Write one word of the node at `n`, and no other word of it. -/
def setNode (m : ByteMemory) (n : ℕ) (f : NodeField) (v : ℕ) : ByteMemory :=
  writeWord m (n + f.offset) v

/-- Memory and the fields of `heap_t`; `bins i` is `bins[i]->head`.
Everything else that the allocator knows is in memory. -/
structure HeapState where
  mem : ByteMemory
  start : ℕ
  endAddress : ℕ
  bins : ℕ → ℕ

namespace HeapState

/-- Replace the memory. -/
def withMem (s : HeapState) (m : ByteMemory) : HeapState := { s with mem := m }

/-- `bins[i]->head = n`.  The other bins keep their heads, and no memory is
written. -/
def setBin (s : HeapState) (i n : ℕ) : HeapState :=
  { s with bins := Function.update s.bins i n }

@[simp] theorem withMem_mem (s : HeapState) (m : ByteMemory) : (s.withMem m).mem = m := rfl

@[simp] theorem withMem_start (s : HeapState) (m : ByteMemory) :
    (s.withMem m).start = s.start := rfl

@[simp] theorem withMem_endAddress (s : HeapState) (m : ByteMemory) :
    (s.withMem m).endAddress = s.endAddress := rfl

@[simp] theorem withMem_bins (s : HeapState) (m : ByteMemory) : (s.withMem m).bins = s.bins := rfl

@[simp] theorem setBin_mem (s : HeapState) (i n : ℕ) : (s.setBin i n).mem = s.mem := rfl

@[simp] theorem setBin_start (s : HeapState) (i n : ℕ) : (s.setBin i n).start = s.start := rfl

@[simp] theorem setBin_endAddress (s : HeapState) (i n : ℕ) :
    (s.setBin i n).endAddress = s.endAddress := rfl

@[simp] theorem setBin_bins (s : HeapState) (i n : ℕ) :
    (s.setBin i n).bins = Function.update s.bins i n := rfl

end HeapState

/-- `get_bin_index`: shifting `sz` right until it is zero counts its binary
logarithm. -/
def getBinIndex (sz : ℕ) : ℕ :=
  let index := (if sz < 4 then 4 else sz).log2 - 2
  if binMaxIdx < index then binMaxIdx else index

/-- `get_foot`: where the footer of the block at `n` is, by the size in its
header. -/
def getFoot (m : ByteMemory) (n : ℕ) : ℕ := n + sizeofNode + node m n .size

/-- `create_foot`: the footer of the block at `head` is made to point back to
it.  The size has to be in the header by then. -/
def createFoot (m : ByteMemory) (head : ℕ) : ByteMemory := writeWord m (getFoot m head) head

/-- `get_wilderness`: the word before the end of the heap, which is the footer
of the last block as long as a block ends there. -/
def getWilderness (s : HeapState) : ℕ := readWord s.mem (sub32 s.endAddress sizeofFooter)

/-! ### Bins

The doubly linked lists of holes, with the three loops of `llist.c`.  The
loops are given as much fuel as there are addresses; what the source leaves
undefined, a list that runs in a circle, ends them with a trap instead. -/

/-- No list has as many nodes as there are addresses. -/
abbrev maxNodes : ℕ := 2 ^ 32

/-- The `while` loop of `add_node`: the nodes `previous` and `current` between
which a node of this size belongs. -/
def insertLoop (m : ByteMemory) (size : ℕ) : ℕ → ℕ → ℕ → Exec (ℕ × ℕ)
  | 0, _, _ => .error .diverged
  | fuel + 1, current, previous =>
      if current ≠ 0 ∧ node m current .size ≤ size then
        insertLoop m size fuel (node m current .next) current
      else .ok (previous, current)

/-- `add_node`: the node goes behind the nodes of its size and before the
larger ones. -/
def addNode (s : HeapState) (bin n : ℕ) : Exec HeapState :=
  let m := setNode (setNode s.mem n .next 0) n .prev 0
  let head := s.bins bin
  if head = 0 then .ok ((s.withMem m).setBin bin n)
  else do
    let (previous, current) ← insertLoop m (node m n .size) maxNodes head 0
    if current = 0 then
      if previous = 0 then
        .error (.fatal "BUG: previous shouldn't be null, this is probably a bug!")
      else .ok (s.withMem (setNode (setNode m previous .next n) n .prev previous))
    else if previous ≠ 0 then
      let m := setNode (setNode m n .next current) previous .next n
      .ok (s.withMem (setNode (setNode m n .prev previous) current .prev n))
    else
      let m := setNode (setNode m n .next head) head .prev n
      .ok ((s.withMem m).setBin bin n)

/-- The `while` loop of `remove_node`: whether `n` is reached from `temp`.  It
stops with a trap where the list has more nodes than the fuel, as a circle
has. -/
def reachLoop (m : ByteMemory) (n : ℕ) : ℕ → ℕ → Exec Bool
  | 0, _ => .error .diverged
  | fuel + 1, temp =>
      if temp = 0 then .ok false
      else if temp = n then .ok true
      else reachLoop m n fuel (node m temp .next)

/-- `remove_node`.  The head is taken out without a look at its successor,
whose `prev` word stays as it is. -/
def removeNode (s : HeapState) (bin n : ℕ) : Exec HeapState :=
  let head := s.bins bin
  if head = 0 then .ok s
  else if head = n then .ok (s.setBin bin (node s.mem head .next))
  else do
    let found ← reachLoop s.mem n maxNodes (node s.mem head .next)
    if found then
      let previous := node s.mem n .prev
      if previous = 0 then .error .nullDereference
      else if node s.mem n .next = 0 then .ok (s.withMem (setNode s.mem previous .next 0))
      else
        let m := setNode s.mem previous .next (node s.mem n .next)
        .ok (s.withMem (setNode m (node m n .next) .prev (node m n .prev)))
    else .ok s

/-- The `while` loop of `get_best_fit`.  The list is expected to be sorted,
and the first node that is large enough is taken. -/
def bestFitLoop (m : ByteMemory) (size : ℕ) : ℕ → ℕ → Exec ℕ
  | 0, _ => .error .diverged
  | fuel + 1, temp =>
      if temp = 0 then .ok 0
      else if size ≤ node m temp .size then .ok temp
      else bestFitLoop m size fuel (node m temp .next)

/-- `get_best_fit`: the first node of the bin that is large enough, which is
the smallest of these, since the bin is sorted. -/
def getBestFit (s : HeapState) (bin size : ℕ) : Exec ℕ :=
  if s.bins bin = 0 then .ok 0 else bestFitLoop s.mem size maxNodes (s.bins bin)

/-! ### Allocation

`heap_alloc` in the pieces its lemmas need: the search through the bins, the
split of the hole found, its removal from the bin, and the check of the
wilderness that may move the end of the heap.  `placeBlock` is all that comes
before this check. -/

/-- `create_heap`: one hole from the start of the heap to its end. -/
def createHeap (mem : ByteMemory) (bins : ℕ → ℕ) (start : ℕ) : Exec HeapState := do
  let m := setNode (setNode mem start .hole 1) start .size
    (heapInitSize - sizeofNode - sizeofFooter)
  let m := createFoot m start
  addNode ⟨m, start, start + heapInitSize, bins⟩ (getBinIndex (node m start .size)) start

/-- The search of `heap_alloc` from bin `index` on: the block found and its
bin.  It goes up to the last bin, and gives `none` where no bin has a block
that fits. -/
def searchBins (s : HeapState) (size : ℕ) : ℕ → ℕ → Exec (Option (ℕ × ℕ))
  | 0, _ => .error .diverged
  | fuel + 1, index => do
      let found ← getBestFit s index size
      if found ≠ 0 then .ok (some (found, index))
      else if binCount ≤ index + 1 then .ok none
      else searchBins s size fuel (index + 1)

/-- Split the block `found`, keeping `size` bytes of payload.  The block
behind the cut is put in its bin before the block found is taken out of its
own. -/
def splitBlock (s : HeapState) (found size : ℕ) : Exec HeapState := do
  let split := found + overhead + size
  let m := setNode s.mem split .size (sub32 (node s.mem found .size) size - overhead)
  let m := createFoot (setNode m split .hole 1) split
  let s ← addNode (s.withMem m) (getBinIndex (node m split .size)) split
  .ok (s.withMem (createFoot (setNode s.mem found .size size) found))

/-- `heap_alloc` up to the wilderness check: the block taken, no longer a hole
and in no bin. -/
def placeBlock (s : HeapState) (size : ℕ) : Exec (Option (HeapState × ℕ)) := do
  match ← searchBins s size binCount (getBinIndex size) with
  | none => .ok none
  | some (found, index) =>
      let s ←
        if overhead + minAllocSz < sub32 (node s.mem found .size) size then
          splitBlock s found size
        else .ok s
      let s ← removeNode (s.withMem (setNode s.mem found .hole 0)) index found
      .ok (some (s, found))

/-- `expand`.  `granted` says whether `vm2_allocate_page` finds a page; it
maps one that the physical memory manager has zeroed.  No block is made of it. -/
def expand (granted : Bool) (s : HeapState) : HeapState × Bool :=
  if granted then
    ({ s with
        mem := fill s.mem s.endAddress pageSize 0
        endAddress := (s.endAddress + pageSize) % 2 ^ 32 }, true)
  else (s, false)

/-- `contract`: the end moves back by a page, and the last block keeps its
size. -/
def contract (s : HeapState) : HeapState :=
  { s with endAddress := sub32 s.endAddress pageSize }

/-- The end of `heap_alloc`: the block's links become payload. -/
def handOut (s : HeapState) (found : ℕ) : HeapState × ℕ :=
  (s.withMem (setNode (setNode s.mem found .prev 0) found .next 0), found + offset)

/-- `heap_alloc`; 0 is `NULL`.  After the block has been placed the wilderness
is looked at, and the heap expanded or contracted if it is too small or too
large; a page that is not found makes the request fail, with the block placed
all the same. -/
def heapAlloc (granted : Bool) (s : HeapState) (size : ℕ) : Exec (HeapState × ℕ) := do
  match ← placeBlock s size with
  | none => .ok (s, 0)
  | some (s, found) =>
      let wild := getWilderness s
      if wild = 0 then .error .nullDereference
      else if node s.mem wild .size < minWilderness then
        let (s, success) := expand granted s
        if success then .ok (handOut s found) else .ok (s, 0)
      else if maxWilderness < node s.mem wild .size then .ok (handOut (contract s) found)
      else .ok (handOut s found)

/-! ### Freeing

`heap_free` follows the source in looking backward before it looks forward,
and in leaving the first block of the heap without either.  The pointer it
gets is trusted: the header is read at `p - offset` whatever lies there. -/

/-- Merge the block `head` into the hole `prev` before it. -/
def coalescePrev (s : HeapState) (prev head : ℕ) : Exec (HeapState × ℕ) :=
  if node s.mem prev .hole ≠ 0 then do
    let s ← removeNode s (getBinIndex (node s.mem prev .size)) prev
    let m := setNode s.mem prev .size (node s.mem prev .size + overhead + node s.mem head .size)
    .ok (s.withMem (writeWord m (getFoot m head) prev), prev)
  else .ok (s, head)

/-- Merge the hole `next` into the block `head` before it. -/
def coalesceNext (s : HeapState) (next head : ℕ) : Exec HeapState :=
  if node s.mem next .hole ≠ 0 then do
    let s ← removeNode s (getBinIndex (node s.mem next .size)) next
    let m := setNode s.mem head .size (node s.mem head .size + overhead + node s.mem next .size)
    let m := writeWord m (getFoot m next) 0
    let m := setNode (setNode m next .size 0) next .hole 0
    .ok (s.withMem (writeWord m (getFoot m head) head))
  else .ok s

/-- Mark the block `head` as a hole and put it in its bin. -/
def binBlock (s : HeapState) (head : ℕ) : Exec HeapState :=
  let m := setNode s.mem head .hole 1
  addNode (s.withMem m) (getBinIndex (node m head .size)) head

/-- `heap_free`.  The block at the start of the heap only goes to its bin; any
other block is first merged with the holes before it and behind it. -/
def heapFree (s : HeapState) (p : ℕ) : Exec HeapState :=
  if p = 0 then .ok s
  else
    let head := sub32 p offset
    if head = s.start then binBlock s head
    else do
      let next := getFoot s.mem head + sizeofFooter
      let prev := readWord s.mem (sub32 head sizeofFooter)
      let (s, head) ← coalescePrev s prev head
      let s ← coalesceNext s next head
      binBlock s head

/-- `get_alloc_size`: the size of the payload at `p`, from the header in front
of it. -/
def getAllocSize (m : ByteMemory) (p : ℕ) : ℕ := node m (sub32 p offset) .size

end CourseOs.Heap
