import CourseOs.Allocator.HeapFree
import CourseOs.Lib.Runs

/-!
# The heap in use

Clients allocate, free what they hold and write into it; `Step` is one such
action on an `InUse` state, the heap together with the live pointers.
Allocations are those after which the wilderness is a hole whose size is
within bounds, so that neither `expand` nor `contract` is called.

`InUse.Inv` is the run invariant: some list of blocks is a well-formed heap
whose blocks in use are the live ones, and the last block is a large enough
hole.  `Safe` is what it means for clients, in terms of memory: the blocks
tile the heap, the bins partition the holes, and live payloads keep clear of
each other and of the allocator's words.  `heap_safe` has it in every state of
every run, and that no call changes a byte of a block that stays live.

`HeapInv.allocate` and `HeapInv.release` are one call on a heap with given
live pointers; they do not mention runs, and serve other runs as well.
-/

namespace CourseOs.Heap

open ByteMemory LinkedList

variable {m m' : ByteMemory} {s s' : HeapState} {blocks init pre post : List Block} {b last : Block}
  {start p : ℕ} {sz : ℕ → ℕ}

/-! ### The fresh heap

One hole of 64 KiB, less its node and its footer, in the bin of its size.  The
bins have to be empty when `create_heap` is called: it puts its block in one
of them and leaves the others alone. -/

/-- The block `create_heap` makes: a hole from `start` on, of all the bytes
there are. -/
def firstBlock (start : ℕ) : Block := ⟨start, heapInitSize - sizeofNode - sizeofFooter, true⟩

/-- A block of a heap that has only one. -/
theorem singleton_eq_append {c : Block} (h : [c] = pre ++ b :: post) :
    pre = [] ∧ b = c ∧ post = [] := by
  simpa using List.append_eq_singleton_iff.mp h.symm

/-- **`create_heap`** makes one hole, of all the `HEAP_INIT_SIZE` bytes from
`start` on, and puts it in its bin. -/
theorem createHeap_spec (m : ByteMemory) (start : ℕ) (hstart : 0 < start)
    (hend : start + heapInitSize < 2 ^ 32) :
    ∃ s, createHeap m (fun _ => 0) start = .ok s ∧ HeapInv s [firstBlock start] ∧
      s.start = start ∧ s.endAddress = start + heapInitSize := by
  have hnext : (firstBlock start).next = start + heapInitSize := by
    show start + 20 + 65516 = start + 65536
    omega
  let m₁ := setNode (setNode m start .hole 1) start .size 65516
  have hsize₁ : node m₁ start .size = 65516 := by
    show readWord (writeWord _ (start + 4) 65516) (start + 4) = _
    rw [readWord_writeWord_self, Nat.mod_eq_of_lt (by decide)]
  have hhole₁ : node m₁ start .hole = 1 := by
    show readWord (writeWord (writeWord m (start + 0) 1) (start + 4) 65516) (start + 0) = 1
    rw [readWord_writeWord_of_disjoint (by omega), readWord_writeWord_self,
      Nat.mod_eq_of_lt (by decide)]
  let m₂ := createFoot m₁ start
  have hrep : Represents m₂ (firstBlock start) :=
    represents_createFoot (b := firstBlock start) hhole₁ hsize₁ (show start < 2 ^ 32 by omega)
  have htiled : WellTiled m₂ start (start + heapInitSize) [firstBlock start] :=
    { tiles := ⟨rfl, hnext⟩
      represents := fun b hb => by
        rw [List.mem_singleton.mp hb]
        exact hrep
      pos := hstart
      bounded := hend }
  have hempty : Binned m₂ (fun _ => 0) ∅ (fun _ => 0) :=
    { size_eq := fun b hb => absurd hb (Set.notMem_empty b)
      bin := fun i _ => ⟨[], ⟨⟨rfl, trivial⟩, List.nodup_nil, List.Pairwise.nil⟩, fun a =>
        iff_of_false List.not_mem_nil fun ⟨b, hb, _⟩ => Set.notMem_empty b hb⟩ }
  have hset : holes [firstBlock start] = insert (firstBlock start) ∅ := by
    ext b
    simp only [holes, Set.mem_ofPred_eq, List.mem_singleton, Set.mem_insert_iff,
      Set.mem_empty_iff_false, or_false]
    refine ⟨fun h => h.1, fun h => ⟨h, by rw [h]; rfl⟩⟩
  let s₀ : HeapState := ⟨m₂, start, start + heapInitSize, fun _ => 0⟩
  obtain ⟨s, sz, hadd, hbin, hlink, hs, he⟩ := Binned.add (s := s₀) hempty
    (hset ▸ htiled.separate_holes) (Set.notMem_empty _) (by
      intro b hb
      rw [← hset] at hb
      exact (htiled.represents b hb.1).size)
  rw [← hset] at hbin hlink
  refine ⟨s, ?_, ⟨?_, sz, hbin⟩, hs, he⟩
  · unfold createHeap
    show addNode s₀ (getBinIndex (node m₂ start .size)) start = _
    rw [show node m₂ start .size = (firstBlock start).size from hrep.size]
    exact hadd
  · rw [hs, he]
    exact htiled.of_linkFrame hlink

/-! ### The wilderness

The last word of the heap is the footer of its last block, as long as the
blocks reach its end.  With a wilderness within bounds `heap_alloc` neither
expands nor contracts the heap, and is its placement. -/

/-- `get_wilderness` finds the last block. -/
theorem getWilderness_eq (h : HeapInv s (init ++ [last])) : getWilderness s = last.addr := by
  have hrep := h.tiled.represents last (by simp)
  have hb := h.tiled.tiles.bounds (b := last) (by simp)
  have hstop := h.tiled.bounded
  have hend : last.next = s.endAddress := by
    obtain ⟨mid, -, rfl, hlast⟩ := tiles_append.mp h.tiled.tiles
    exact hlast
  rw [last.next_eq] at hend
  have hfoot : sub32 s.endAddress sizeofFooter = last.addr + sizeofNode + last.size := by
    unfold sizeofFooter sizeofNode
    rw [sub32_of_le (by omega) (by omega)]
    omega
  unfold getWilderness
  rw [hfoot]
  exact hrep.foot

/-- The block the last footer belongs to is a hole whose size is within
bounds. -/
def WildernessFree (s : HeapState) : Prop :=
  node s.mem (getWilderness s) .hole = 1 ∧
    minWilderness ≤ node s.mem (getWilderness s) .size ∧
    node s.mem (getWilderness s) .size ≤ maxWilderness

theorem HeapInv.exists_last (h : HeapInv s blocks) (hne : s.start < s.endAddress) :
    ∃ init last, blocks = init ++ [last] := by
  rcases List.eq_nil_or_concat' blocks with rfl | hsome
  · have : s.start = s.endAddress := h.tiled.tiles
    omega
  · exact hsome

/-- With the wilderness within bounds, `heap_alloc` hands out the block
placed. -/
theorem heapAlloc_eq (granted : Bool) {size found : ℕ} (h : HeapInv s' (init ++ [last]))
    (hplace : placeBlock s size = .ok (some (s', found))) (hwild : WildernessFree s') :
    heapAlloc granted s size = .ok (handOut s' found) := by
  have hw := getWilderness_eq h
  have hpos : 0 < last.addr := h.tiled.separate.pos last (by simp)
  unfold heapAlloc
  rw [hplace, Exec.ok_bind]
  dsimp only
  obtain ⟨-, hmin, hmax⟩ := hwild
  rw [if_neg (by omega), if_neg (by omega), if_neg (by omega)]

theorem heapAlloc_none (granted : Bool) {size : ℕ} (hplace : placeBlock s size = .ok none) :
    heapAlloc granted s size = .ok (s, 0) := by
  unfold heapAlloc
  rw [hplace, Exec.ok_bind]

/-- Handing a block in use to the client keeps the heap well formed. -/
theorem HeapInv.handOut (h : HeapInv s blocks) (hb : b ∈ blocks) (hlive : b.hole = false) :
    HeapInv (handOut s b.addr).1 blocks := by
  refine h.of_payload fun x _ hx => ?_
  have hxb := hx b hb hlive
  show writeWord (writeWord s.mem (b.addr + 12) 0) (b.addr + 8) 0 x = _
  rw [writeWord_apply_of_notMem (by omega), writeWord_apply_of_notMem (by omega)]

/-! ### Runs

Clients call `heap_alloc` and `heap_free` and write into what they hold.  A
write is any change to the bytes of live payloads, so that nothing can depend
on what clients leave there, or on what they left in a block before it became
a hole. -/

/-- The heap and the pointers its clients hold.  The heap does not record
these; they are what its calls have returned and have not been given back. -/
structure InUse where
  state : HeapState
  live : List ℕ

/-- A call to the allocator.  Any answer of `vm2_allocate_page` is allowed,
and any size that leaves a wilderness after the placement; a pointer that is
freed is one that is out. -/
inductive Call : InUse → InUse → Prop
  | alloc {u : InUse} {s' : HeapState} {p : ℕ} (granted : Bool) (size : ℕ)
      (hwild : ∀ s₁ found, placeBlock u.state size = .ok (some (s₁, found)) → WildernessFree s₁)
      (h : heapAlloc granted u.state size = .ok (s', p)) :
      Call u ⟨s', if p = 0 then u.live else p :: u.live⟩
  | free {u : InUse} {s' : HeapState} {p : ℕ} (hp : p ∈ u.live)
      (h : heapFree u.state p = .ok s') : Call u ⟨s', u.live.erase p⟩

/-- A call, or clients writing into the blocks they hold.  Such a write may
change any bytes of these payloads, and nothing else. -/
inductive Step : InUse → InUse → Prop
  | call {u u' : InUse} (h : Call u u') : Step u u'
  | write {u : InUse} (m : ByteMemory)
      (h : ∀ x, (∀ p ∈ u.live, x < p ∨ p + getAllocSize u.state.mem p ≤ x) →
        m x = u.state.mem x) : Step u ⟨u.state.withMem m, u.live⟩

/-- The run invariant: a well-formed heap, whose blocks in use are those that
clients hold, and whose last block is a large enough hole. -/
structure InUse.Inv (u : InUse) (blocks : List Block) : Prop where
  heap : HeapInv u.state blocks
  live_iff : ∀ p, p ∈ u.live ↔ ∃ b ∈ blocks, b.hole = false ∧ b.payload = p
  nodup : u.live.Nodup
  last : LastHole blocks minWilderness
  length : u.state.endAddress = u.state.start + heapInitSize

/-- What clients rely on: the blocks tile the heap, the bins partition the
holes, and live payloads keep clear of each other and of the allocator's
words. -/
structure Safe (u : InUse) : Prop where
  exists_blocks : ∃ blocks,
    Tiles u.state.start blocks u.state.endAddress ∧
    (∀ b ∈ blocks, Represents u.state.mem b) ∧
    (∀ i < binCount, ∃ xs, Chain (node u.state.mem · .next) (u.state.bins i) xs ∧ xs.Nodup ∧
      ∀ a, a ∈ xs ↔ ∃ b ∈ blocks, b.hole = true ∧ b.addr = a ∧ getBinIndex b.size = i) ∧
    (∀ p, p ∈ u.live ↔ ∃ b ∈ blocks, b.hole = false ∧ b.payload = p) ∧
    ∀ p ∈ u.live, ∀ b ∈ blocks,
      RangesDisjoint p (getAllocSize u.state.mem p) b.addr 8 ∧
      RangesDisjoint p (getAllocSize u.state.mem p) (getFoot u.state.mem b.addr) sizeofFooter
  disjoint : u.live.Pairwise fun p q =>
    RangesDisjoint p (getAllocSize u.state.mem p) q (getAllocSize u.state.mem q)
  /-- No call of the run stops the kernel. -/
  alloc_returns : ∀ granted size,
    (∀ s₁ found, placeBlock u.state size = .ok (some (s₁, found)) → WildernessFree s₁) →
      ∃ r, heapAlloc granted u.state size = .ok r
  free_returns : ∀ p ∈ u.live, ∃ s', heapFree u.state p = .ok s'

/-- Blocks that are live before and after keep their size and their bytes. -/
def Unchanged (u u' : InUse) : Prop :=
  ∀ p ∈ u.live, p ∈ u'.live →
    getAllocSize u'.state.mem p = getAllocSize u.state.mem p ∧
      ∀ x, p ≤ x → x < p + getAllocSize u.state.mem p → u'.state.mem x = u.state.mem x

variable {u u' : InUse} {live : List ℕ} {found head c : Block} {size : ℕ}

/-! ### Live pointers

The live pointers are the payloads of the blocks in use, one each.  They are
kept as a list beside the heap because the heap does not know them: a pointer
is held because `heap_alloc` has returned it and it has not been freed since. -/

theorem WellTiled.getAllocSize_eq {stop : ℕ} (h : WellTiled m start stop blocks) (hb : b ∈ blocks) :
    getAllocSize m b.payload = b.size := by
  unfold getAllocSize
  rw [sub32_payload h hb]
  exact (h.represents b hb).size

theorem Tiles.payload_inj {stop : ℕ} (h : Tiles start blocks stop) (hb : b ∈ blocks)
    (hc : c ∈ blocks) (heq : b.payload = c.payload) : b = c := by
  by_contra hne
  have haddr : b.addr = c.addr := Nat.add_right_cancel heq
  have := h.separate hb hc hne
  rw [b.next_eq, c.next_eq] at this
  omega

/-- The pointers are the payloads of the blocks in use, without repetitions. -/
structure LiveBlocks (live : List ℕ) (blocks : List Block) : Prop where
  live_iff : ∀ p, p ∈ live ↔ ∃ b ∈ blocks, b.hole = false ∧ b.payload = p
  nodup : live.Nodup

namespace LiveBlocks

theorem nil (h : ∀ b ∈ blocks, b.hole = true) : LiveBlocks [] blocks := by
  refine ⟨fun p => iff_of_false List.not_mem_nil ?_, List.nodup_nil⟩
  rintro ⟨b, hb, hl, -⟩
  exact ne_of_hole hl (h b hb) rfl

/-- A hole is taken into use, all or part of it.  The rest is a hole, so that
the live blocks are the old ones and the one taken, and its payload is new
because no two blocks have the same one. -/
theorem alloc {stop : ℕ} (h : LiveBlocks live (pre ++ found :: post))
    (htiles : Tiles start (pre ++ found :: post) stop) (hhole : found.hole = true) :
    LiveBlocks (found.payload :: live) (placed pre found post size) := by
  let taken : Block := ⟨found.addr, kept found size, false⟩
  have hlive : ∀ b, b.hole = false → (b ∈ placed pre found post size ↔
      b = taken ∨ b ∈ pre ++ found :: post) := by
    intro b hb
    have hrest : b ∉ rest found size := fun hin => ne_of_hole hb (hole_of_mem_rest hin) rfl
    have hfound : b ≠ found := ne_of_hole hb hhole
    simp only [placed, List.mem_append, List.mem_cons]
    show (b ∈ pre ∨ b = taken ∨ b ∈ rest found size) ∨ b ∈ post ↔ _
    tauto
  refine ⟨fun p => ?_, List.nodup_cons.mpr ⟨fun hin => ?_, h.nodup⟩⟩
  · rw [List.mem_cons, h.live_iff]
    constructor
    · rintro (rfl | ⟨b, hb, hl, rfl⟩)
      · exact ⟨taken, (hlive taken rfl).mpr (Or.inl rfl), rfl, rfl⟩
      · exact ⟨b, (hlive b hl).mpr (Or.inr hb), hl, rfl⟩
    · rintro ⟨b, hb, hl, rfl⟩
      rcases (hlive b hl).mp hb with rfl | hb
      · exact Or.inl rfl
      · exact Or.inr ⟨b, hb, hl, rfl⟩
  · obtain ⟨b, hb, hl, heq⟩ := (h.live_iff _).mp hin
    exact ne_of_hole hl hhole (htiles.payload_inj hb (by simp) heq)

/-- A block in use becomes part of a hole, and its pointer is taken off the
list; all the other pointers still have their blocks. -/
theorem free {stop : ℕ} (h : LiveBlocks live (pre ++ head :: post))
    (htiles : Tiles start (pre ++ head :: post) stop)
    (hmem : ∀ b, b.hole = false → (b ∈ blocks ↔ b ∈ pre ++ post)) :
    LiveBlocks (live.erase head.payload) blocks := by
  have hnd := List.nodup_append.mp htiles.nodup
  refine ⟨fun p => ?_, h.nodup.erase _⟩
  rw [h.nodup.mem_erase_iff, h.live_iff]
  constructor
  · rintro ⟨hne, b, hb, hl, rfl⟩
    refine ⟨b, (hmem b hl).mpr ?_, hl, rfl⟩
    simp only [List.mem_append, List.mem_cons] at hb ⊢
    rcases hb with hb | rfl | hb
    · exact Or.inl hb
    · exact absurd rfl hne
    · exact Or.inr hb
  · rintro ⟨b, hb, hl, rfl⟩
    have hb' := (hmem b hl).mp hb
    refine ⟨fun heq => ?_, b, mem_insert_middle hb', hl, rfl⟩
    obtain rfl := htiles.payload_inj (mem_insert_middle hb') (by simp) heq
    rcases List.mem_append.mp hb' with hin | hin
    · exact hnd.2.2 b hin b List.mem_cons_self rfl
    · exact (List.nodup_cons.mp hnd.2.1).1 hin

end LiveBlocks

/-! ### One call on a heap whose last block is a hole

The two operations as a client sees them: which pointers are live after the
call, and that no byte of the others has changed. -/

/-- **An allocation** that leaves the wilderness a hole within bounds: it
returns `NULL` and changes nothing, or a block that was free before. -/
theorem HeapInv.allocate (h : HeapInv s blocks) (hlive : LiveBlocks live blocks) (granted : Bool)
    {size : ℕ}
    (hwild : ∀ s₁ found, placeBlock s size = .ok (some (s₁, found)) → WildernessFree s₁) :
    heapAlloc granted s size = .ok (s, 0) ∨
      ∃ s' taken blocks', heapAlloc granted s size = .ok (s', taken.payload) ∧
        HeapInv s' blocks' ∧ taken ∈ blocks' ∧ taken.hole = false ∧ size ≤ taken.size ∧
        (∀ b ∈ blocks, b.hole = false → b ∈ blocks') ∧
        LiveBlocks (taken.payload :: live) blocks' ∧ LastHole blocks' minWilderness ∧
        KeepsLive blocks s.mem s'.mem ∧ s'.start = s.start ∧ s'.endAddress = s.endAddress := by
  rcases placeBlock_spec h size with ⟨hnone, -⟩ |
    ⟨pre, found, post, s₁, rfl, hhole, hfits, -, hplace, hinv, hframe, hstart, hend⟩
  · exact .inl (heapAlloc_none granted hnone)
  · refine .inr ?_
    have hw := hwild s₁ found.addr hplace
    let taken : Block := ⟨found.addr, kept found size, false⟩
    have htaken : taken ∈ placed pre found post size := by simp [placed, taken]
    obtain ⟨init, last, hblocks⟩ : ∃ init last, placed pre found post size = init ++ [last] :=
      (List.eq_nil_or_concat' _).resolve_left (List.ne_nil_of_mem htaken)
    have hinv' := hinv
    rw [hblocks] at hinv'
    refine ⟨_, taken, placed pre found post size, heapAlloc_eq granted hinv' hplace hw,
      hinv.handOut (b := taken) htaken rfl, htaken, rfl, le_kept hfits, fun b hb hl => ?_,
      hlive.alloc h.tiled.tiles hhole, ?_, fun b hb hl x hx hx' => ?_, hstart, hend⟩
    · have hbf : b ≠ found := ne_of_hole hl hhole
      simp only [List.mem_append, List.mem_cons, placed] at hb ⊢
      tauto
    · have hwe := getWilderness_eq hinv'
      have hrep := hinv'.tiled.represents last (by simp)
      obtain ⟨hh, hmin, -⟩ := hw
      rw [hwe] at hh hmin
      rw [hrep.size] at hmin
      rw [hrep.hole] at hh
      refine ⟨last, ?_, ?_, hmin⟩
      · rw [hblocks]
        simp
      · by_contra hno
        rw [if_neg hno] at hh
        cases hh
    · have hbf : b ≠ found := ne_of_hole hl hhole
      have hsep := h.tiled.tiles.separate hb (c := found) (by simp) hbf
      have hne : x < found.addr + 8 ∨ found.addr + 16 ≤ x := by
        rw [found.next_eq] at hsep
        omega
      show writeWord (writeWord s₁.mem (found.addr + 12) 0) (found.addr + 8) 0 x = _
      rw [writeWord_apply_of_notMem (by omega), writeWord_apply_of_notMem (by omega)]
      exact h.tiled.frame_eq hframe (by simp) hb hbf hx hx' fun hh => by
        rw [hl] at hh
        cases hh

/-- **A free** of a live pointer, where the last block is a hole: the pointer
is live no longer, and the other blocks in use keep their bytes. -/
theorem HeapInv.release {n : ℕ} (h : HeapInv s blocks) (hlive : LiveBlocks live blocks)
    (hlast : LastHole blocks n) (hp : p ∈ live) :
    ∃ s' blocks' pre, heapFree s p = .ok s' ∧ HeapInv s' blocks' ∧
      LiveBlocks (live.erase p) blocks' ∧ LastHole blocks' n ∧ KeepsLive pre s.mem s'.mem ∧
      (∀ b ∈ blocks, b.hole = false → b.payload ≠ p → b ∈ pre ∧ b ∈ blocks') ∧
      s'.start = s.start ∧ s'.endAddress = s.endAddress := by
  obtain ⟨head, hhead, hused, rfl⟩ := (hlive.live_iff p).mp hp
  obtain ⟨pre, post, rfl⟩ := List.append_of_mem hhead
  have hpost : post ≠ [] := by
    rintro rfl
    obtain ⟨last, hlast, hh, -⟩ := hlast
    obtain rfl : head = last := by simpa using hlast
    exact ne_of_hole hused hh rfl
  obtain ⟨s', blocks', hfree, hinv, hkeep, hmem, hlast', -, hs, he⟩ :=
    heapFree_spec h hused fun _ heq => absurd heq hpost
  refine ⟨s', blocks', pre ++ post, hfree, hinv, hlive.free h.tiled.tiles hmem,
    hlast' hpost n hlast, hkeep.live, fun b hb hl hne => ?_, hs, he⟩
  have hin : b ∈ pre ++ post := by
    simp only [List.mem_append, List.mem_cons] at hb ⊢
    rcases hb with hb | rfl | hb
    · exact Or.inl hb
    · exact absurd rfl hne
    · exact Or.inr hb
  exact ⟨hin, (hmem b hl).mpr hin⟩

namespace InUse.Inv

theorem liveBlocks (h : u.Inv blocks) : LiveBlocks u.live blocks := ⟨h.live_iff, h.nodup⟩

theorem sub32_payload (h : u.Inv blocks) (hb : b ∈ blocks) : sub32 b.payload offset = b.addr :=
  Heap.sub32_payload h.heap.tiled hb

theorem getAllocSize_eq (h : u.Inv blocks) (hb : b ∈ blocks) :
    getAllocSize u.state.mem b.payload = b.size := h.heap.tiled.getAllocSize_eq hb

/-- No byte of the blocks that stay live changes. -/
theorem unchanged (h : u.Inv blocks) (hkeep : KeepsLive pre u.state.mem u'.state.mem)
    (hpre : ∀ b ∈ blocks, b.hole = false → b.payload ∈ u'.live → b ∈ pre) : Unchanged u u' := by
  intro p hp hp'
  obtain ⟨b, hb, hlive, rfl⟩ := (h.live_iff p).mp hp
  have hin := hpre b hb hlive hp'
  have hnext := b.next_eq
  rw [h.getAllocSize_eq hb]
  constructor
  · unfold getAllocSize
    rw [h.sub32_payload hb, ← (h.heap.tiled.represents b hb).size]
    refine readWord_congr fun x hx hx' => hkeep b hin hlive x ?_ ?_
    · replace hx : b.addr + 4 ≤ x := hx
      omega
    · replace hx' : x < b.addr + 4 + 4 := hx'
      omega
  · intro x hx hx'
    replace hx : b.addr + 8 ≤ x := hx
    replace hx' : x < b.addr + 8 + b.size := hx'
    exact hkeep b hin hlive x (by omega) (by omega)

/-- **An allocation** keeps the invariant and the live blocks, and returns:
that the wilderness stays free is all it takes. -/
theorem alloc (h : u.Inv blocks) (granted : Bool) {size : ℕ}
    (hwild : ∀ s₁ found, placeBlock u.state size = .ok (some (s₁, found)) → WildernessFree s₁) :
    ∃ s' p blocks', heapAlloc granted u.state size = .ok (s', p) ∧
      InUse.Inv ⟨s', if p = 0 then u.live else p :: u.live⟩ blocks' ∧
      KeepsLive blocks u.state.mem s'.mem := by
  rcases h.heap.allocate h.liveBlocks granted hwild with hnone |
    ⟨s', taken, blocks', halloc, hinv, -, -, -, -, hlive, hlast, hkeep, hs, he⟩
  · exact ⟨u.state, 0, blocks, hnone, h, fun _ _ _ _ _ _ => rfl⟩
  · refine ⟨s', taken.payload, blocks', halloc, ?_, hkeep⟩
    rw [if_neg payload_ne_zero]
    refine ⟨hinv, hlive.live_iff, hlive.nodup, hlast, ?_⟩
    show s'.endAddress = s'.start + heapInitSize
    rw [hs, he]
    exact h.length

/-- **A free** keeps the invariant and the other live blocks.  The blocks in
front of the one freed, and all other blocks in use, are the same blocks
afterwards. -/
theorem free (h : u.Inv blocks) (hp : p ∈ u.live) :
    ∃ s' blocks' pre, heapFree u.state p = .ok s' ∧
      InUse.Inv ⟨s', u.live.erase p⟩ blocks' ∧ KeepsLive pre u.state.mem s'.mem ∧
      ∀ b ∈ blocks, b.hole = false → b.payload ≠ p → b ∈ pre := by
  obtain ⟨s', blocks', pre, hfree, hinv, hlive, hlast, hkeep, hpre, hs, he⟩ :=
    h.heap.release h.liveBlocks h.last hp
  refine ⟨s', blocks', pre, hfree, ⟨hinv, hlive.live_iff, hlive.nodup, hlast, ?_⟩, hkeep,
    fun b hb hl hne => (hpre b hb hl hne).1⟩
  show s'.endAddress = s'.start + heapInitSize
  rw [hs, he]
  exact h.length

/-- A call keeps the invariant and whatever stays live. -/
theorem call (h : u.Inv blocks) (hcall : Call u u') :
    (∃ blocks', u'.Inv blocks') ∧ Unchanged u u' := by
  cases hcall with
  | @alloc s' p granted size hwild halloc =>
      obtain ⟨s₁, p₁, blocks', halloc₁, hinv, hkeep⟩ := h.alloc granted hwild
      obtain ⟨rfl, rfl⟩ : s' = s₁ ∧ p = p₁ := by
        rw [halloc] at halloc₁
        simpa using halloc₁
      exact ⟨⟨blocks', hinv⟩, h.unchanged hkeep fun b hb _ _ => hb⟩
  | @free s' p hp hfree =>
      obtain ⟨s₁, blocks', pre, hfree₁, hinv, hkeep, hpre⟩ := h.free hp
      obtain rfl : s' = s₁ := by
        rw [hfree] at hfree₁
        simpa using hfree₁
      refine ⟨⟨blocks', hinv⟩, h.unchanged hkeep fun b hb hl hin => hpre b hb hl ?_⟩
      exact (h.nodup.mem_erase_iff.mp hin).1

theorem step (h : u.Inv blocks) (hstep : Step u u') : ∃ blocks', u'.Inv blocks' := by
  cases hstep with
  | call hcall => exact (h.call hcall).1
  | write m hm =>
      refine ⟨blocks, h.heap.of_payload fun x _ hx => hm x fun p hp => ?_, h.live_iff, h.nodup,
        h.last, h.length⟩
      obtain ⟨b, hb, hl, rfl⟩ := (h.live_iff p).mp hp
      have := hx b hb hl
      rw [h.getAllocSize_eq hb]
      show x < b.addr + 8 ∨ b.addr + 8 + b.size ≤ x
      omega

/-- What the invariant gives a client: the headers and footers tile the heap,
the bins hold the holes, the payloads are disjoint and apart from all headers
and footers, and both calls return. -/
theorem safe (h : u.Inv blocks) : Safe u where
  exists_blocks := by
    obtain ⟨sz, hbin⟩ := h.heap.binned
    refine ⟨blocks, h.heap.tiled.tiles, h.heap.tiled.represents, fun i hi => ?_, h.live_iff,
      fun p hp b hb => ?_⟩
    · obtain ⟨xs, hxs, hmem⟩ := hbin.bin i hi
      refine ⟨xs, hxs.list.chain, hxs.nodup, fun a => (hmem a).trans ?_⟩
      constructor
      · rintro ⟨b, ⟨hb, hh⟩, hba⟩
        exact ⟨b, hb, hh, hba⟩
      · rintro ⟨b, hb, hh, hba⟩
        exact ⟨b, ⟨hb, hh⟩, hba⟩
    · obtain ⟨c, hc, hl, rfl⟩ := (h.live_iff p).mp hp
      have hfoot : getFoot u.state.mem b.addr = b.addr + 16 + b.size := by
        unfold getFoot
        rw [(h.heap.tiled.represents b hb).size]
      rw [h.getAllocSize_eq hc, hfoot]
      show (c.addr + 8 + c.size ≤ b.addr ∨ b.addr + 8 ≤ c.addr + 8) ∧
        (c.addr + 8 + c.size ≤ b.addr + 16 + b.size ∨ b.addr + 16 + b.size + 4 ≤ c.addr + 8)
      by_cases hcb : c = b
      · subst hcb
        omega
      · have := h.heap.tiled.tiles.separate hc hb hcb
        rw [c.next_eq, b.next_eq] at this
        omega
  disjoint := by
    refine h.nodup.imp_of_mem fun {p q} hp hq hne => ?_
    obtain ⟨b, hb, -, rfl⟩ := (h.live_iff p).mp hp
    obtain ⟨c, hc, -, rfl⟩ := (h.live_iff q).mp hq
    rw [h.getAllocSize_eq hb, h.getAllocSize_eq hc]
    have := h.heap.tiled.tiles.separate hb hc fun heq => hne (congrArg Block.payload heq)
    rw [b.next_eq, c.next_eq] at this
    show b.addr + 8 + b.size ≤ c.addr + 8 ∨ c.addr + 8 + c.size ≤ b.addr + 8
    omega
  alloc_returns granted size hwild := by
    obtain ⟨s', p, -, halloc, -⟩ := h.alloc granted hwild
    exact ⟨(s', p), halloc⟩
  free_returns p hp := by
    obtain ⟨s', -, -, hfree, -⟩ := h.free hp
    exact ⟨s', hfree⟩

end InUse.Inv

/-- A fresh heap has no live block. -/
theorem inv_createHeap (m : ByteMemory) (hstart : 0 < start)
    (hend : start + heapInitSize < 2 ^ 32) :
    ∃ s, createHeap m (fun _ => 0) start = .ok s ∧ InUse.Inv ⟨s, []⟩ [firstBlock start] := by
  obtain ⟨s, hcreate, hinv, hs, he⟩ := createHeap_spec m start hstart hend
  refine ⟨s, hcreate, hinv, fun p => iff_of_false List.not_mem_nil ?_, List.nodup_nil,
    ⟨firstBlock start, rfl, rfl, ?_⟩, ?_⟩
  · rintro ⟨b, hb, hl, -⟩
    rw [List.mem_singleton.mp hb] at hl
    cases hl
  · show minWilderness ≤ heapInitSize - sizeofNode - sizeofFooter
    decide
  · show s.endAddress = s.start + heapInitSize
    rw [hs, he]

/-- **Live blocks never interfere**, whatever the clients of a fresh heap do:
every state of a run is safe, and no call touches a block that is live before
and after. -/
theorem heap_safe (m : ByteMemory) (hstart : 0 < start) (hend : start + heapInitSize < 2 ^ 32) :
    ∃ s, createHeap m (fun _ => 0) start = .ok s ∧
      ∀ u, Relation.ReflTransGen Step ⟨s, []⟩ u → Safe u ∧ ∀ u', Call u u' → Unchanged u u' := by
  obtain ⟨s, hcreate, hinv⟩ := inv_createHeap m hstart hend
  refine ⟨s, hcreate, fun u hrun => ?_⟩
  obtain ⟨blocks, h⟩ := Runs.invariant (I := fun u => ∃ blocks, u.Inv blocks)
    (fun _ _ ⟨_, h⟩ hstep => h.step hstep) hrun ⟨_, hinv⟩
  exact ⟨h.safe, fun u' hcall => (h.call hcall).2⟩

/-- The heap at 64 KiB, in memory that is all zero. -/
theorem heap_safe_at_64KiB :
    ∃ s, createHeap ⟨fun _ => 0⟩ (fun _ => 0) 0x10000 = .ok s ∧
      ∀ u, Relation.ReflTransGen Step ⟨s, []⟩ u → Safe u ∧ ∀ u', Call u u' → Unchanged u u' :=
  heap_safe ⟨fun _ => 0⟩ (by decide) (by decide)

end CourseOs.Heap
