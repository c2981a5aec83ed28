import CourseOs.Allocator.HeapGrowth
import Mathlib.Data.List.Chain

/-!
# Coalescing

`Apart blocks` says that no two neighbours are both holes.  `heap_free` of an
inner block merges it with the holes beside it, so it keeps the blocks apart
(`apart_freed`).  The block at `heap->start` it only puts in its bin, whatever
lies behind, and of the last block it takes the word behind the heap for the
header of a further one; `SeesHoles` says, on the state before the call, that
neither matters.

An allocation keeps the blocks apart as well: what is split off lies behind a
block in use, and before one, since the hole it is part of had none beside it
(`apart_placed`).

`InUse.Tight` is the run invariant.  Where it holds and no pointer is live,
the heap is one hole again (`InUse.Tight.firstBlock`), for holes alone are
apart only where there is one.

`Coalesced` is a statement about memory: some blocks that tile the heap are
apart.  Headers determine the blocks, so it does not matter which
(`HeapInv.coalesced_iff`).
-/

namespace CourseOs.Heap

open ByteMemory LinkedList

variable {m : ByteMemory} {s s' : HeapState} {u u' : InUse} {live : List ℕ}
  {blocks pre post l l' : List Block} {b c prev next head found : Block} {start stop size p : ℕ}
  {granted : Bool}

/-! ### Blocks without adjacent holes

This part is about lists of blocks only.  A request replaces a hole by a block
in use and at most one hole behind it; a free replaces a block in use by a
hole.  The first never brings two holes together, and the second does so only
where the neighbours are not merged. -/

/-- No two neighbours are both holes.  This is said of the list of blocks,
where neighbours stand next to each other. -/
def Apart (blocks : List Block) : Prop :=
  blocks.IsChain fun b c => ¬(b.hole = true ∧ c.hole = true)

theorem Apart.left (h : Apart (pre ++ b :: post)) : Apart (pre ++ [b]) :=
  (List.isChain_split.mp h).1

theorem Apart.right (h : Apart (pre ++ b :: post)) : Apart (b :: post) :=
  (List.isChain_split.mp h).2

/-- The block in the middle may become a block in use, or change otherwise. -/
theorem Apart.replace (h : Apart (pre ++ b :: post)) (hc : c.hole = true → b.hole = true) :
    Apart (pre ++ c :: post) := by
  obtain ⟨hpre, hpost, hmid⟩ := List.isChain_append.mp h
  refine List.isChain_append.mpr ⟨hpre, ?_, ?_⟩
  · rw [List.isChain_cons] at hpost ⊢
    exact ⟨fun d hd hcd => hpost.1 d hd ⟨hc hcd.1, hcd.2⟩, hpost.2⟩
  · intro d hd e he hde
    obtain rfl : c = e := by simpa using he
    exact hmid d hd b rfl ⟨hde.1, hc hde.2⟩

/-- A block may follow a block in use. -/
theorem Apart.concat (h : Apart (pre ++ [b])) (hb : b.hole = false) : Apart (pre ++ [b, c]) := by
  refine List.isChain_split.mpr ⟨h, List.isChain_pair.mpr fun hbc => ?_⟩
  exact ne_of_hole hb hbc.1 rfl

/-- A block may precede a block in use. -/
theorem Apart.cons (h : Apart (b :: post)) (hb : b.hole = false) : Apart (c :: b :: post) := by
  refine List.isChain_cons_cons.mpr ⟨fun hcb => ?_, h⟩
  exact ne_of_hole hb hcb.2 rfl

/-- **Taking a hole into use**: what is split off borders on no hole. -/
theorem apart_placed (h : Apart (pre ++ found :: post)) (hhole : found.hole = true) :
    Apart (placed pre found post size) := by
  let taken : Block := ⟨found.addr, kept found size, false⟩
  have htaken : Apart (pre ++ taken :: post) := h.replace nofun
  unfold placed rest
  by_cases hcut : overhead + minAllocSz < found.size - size
  · let left : Block := ⟨found.addr + overhead + size, found.size - size - overhead, true⟩
    have hleft : Apart ([] ++ left :: post) := Apart.replace (b := found) h.right fun _ => hhole
    have hsplit : Apart (pre ++ taken :: left :: post) := by
      refine List.isChain_split.mpr ⟨htaken.left, ?_⟩
      exact List.isChain_cons_cons.mpr ⟨(nomatch ·.1), hleft⟩
    rw [if_pos hcut]
    simpa using hsplit
  · rw [if_neg hcut]
    simpa using htaken

/-- **Freeing an inner block**: its neighbours, if holes, become part of it.
What is left at either side is a block in use, or nothing. -/
theorem apart_freed (h : Apart (pre ++ [prev] ++ head :: post)) :
    Apart (freed pre prev head post) := by
  have h' : Apart (pre ++ prev :: head :: post) := by simpa using h
  have hpost : Apart post := (List.isChain_cons.mp h.right).2
  have hleft : ∀ c : Block, c.hole = true →
      Apart ((mergePrev pre prev head).1 ++ [c]) := by
    intro c hc
    cases hprev : prev.hole with
    | false =>
        rw [mergePrev_of_live hprev]
        simpa using h'.left.concat (c := c) hprev
    | true =>
        rw [mergePrev_of_hole hprev]
        exact h'.left.replace fun _ => hprev
  have hright : ∀ cur c : Block, c.hole = true → Apart (c :: (mergeNext cur post).2) := by
    intro cur c hc
    cases post with
    | nil => exact List.isChain_singleton c
    | cons next post =>
        cases hnext : next.hole with
        | false =>
            rw [mergeNext_of_live hnext]
            exact hpost.cons hnext
        | true =>
            rw [mergeNext_of_hole hnext]
            have hpost' : Apart ([] ++ next :: post) := hpost
            exact hpost'.replace fun _ => hnext
  exact List.isChain_split.mpr ⟨hleft _ rfl, hright _ _ rfl⟩

/-- Holes alone are apart only where there is at most one. -/
theorem Apart.length_le (h : Apart blocks) (hholes : ∀ b ∈ blocks, b.hole = true) :
    blocks.length ≤ 1 := by
  match blocks with
  | [] => exact Nat.zero_le 1
  | [_] => exact le_rfl
  | b :: c :: _ =>
      exact absurd ⟨hholes b (by simp), hholes c (by simp)⟩ (List.isChain_cons_cons.mp h).1

/-! ### Heaps without adjacent holes

`Coalesced` speaks about memory: there are blocks that tile the heap, as their
headers say, and no two neighbours are holes.  The blocks are determined by
the headers, so that it does not matter which witness is taken
(`coalesced_iff`); without this the property could not be refuted of a heap
one knows the blocks of. -/

/-- The blocks tile the heap and no two adjacent ones are holes. -/
def Coalesced (s : HeapState) : Prop :=
  ∃ blocks, Tiles s.start blocks s.endAddress ∧ (∀ b ∈ blocks, Represents s.mem b) ∧ Apart blocks

theorem HeapInv.coalesced (h : HeapInv s blocks) (ha : Apart blocks) : Coalesced s :=
  ⟨blocks, h.tiled.tiles, h.tiled.represents, ha⟩

/-- Headers determine the blocks. -/
theorem Tiles.unique (h : Tiles start l stop) (h' : Tiles start l' stop)
    (hr : ∀ b ∈ l, Represents m b) (hr' : ∀ b ∈ l', Represents m b) : l' = l := by
  obtain ⟨r, rfl, htail⟩ := h.prefix_of_le h' hr hr' le_rfl
  cases r with
  | nil => exact List.append_nil l
  | cons c r =>
      have := (htail.bounds List.mem_cons_self)
      rw [c.next_eq] at this
      omega

theorem HeapInv.coalesced_iff (h : HeapInv s blocks) : Coalesced s ↔ Apart blocks := by
  refine ⟨fun hc => ?_, h.coalesced⟩
  obtain ⟨blocks', htiles, hrep, ha⟩ := hc
  rwa [h.tiled.tiles.unique htiles h.tiled.represents hrep] at ha

/-! ### What `heap_free` sees

The two cases in which `heap_free` does not see what is beside its block: the
first block is not merged at all, and of the last one the word behind the heap
is read.  In either case what comes out is described exactly, and the
condition is the one under which it is coalesced. -/

/-- Where the block behind the one at `p` would start. -/
def behind (s : HeapState) (p : ℕ) : ℕ := getFoot s.mem (sub32 p offset) + sizeofFooter

/-- The first block has no hole behind it, and behind the heap nothing looks
like a hole when the last block is looked at. -/
structure SeesHoles (s : HeapState) (p : ℕ) : Prop where
  first : sub32 p offset = s.start → behind s p ≠ s.endAddress → node s.mem (behind s p) .hole = 0
  last : sub32 p offset ≠ s.start → behind s p = s.endAddress →
    node s.mem (behind s p) .hole = 0

/-- The call looks at the block behind, and there is one, or it does not look.
Otherwise it reads the word at the end of the heap. -/
def LooksInside (s : HeapState) (p : ℕ) : Prop :=
  sub32 p offset = s.start ∨ behind s p ≠ s.endAddress

theorem behind_eq (h : WellTiled s.mem start stop blocks) (hb : b ∈ blocks) :
    behind s b.payload = b.next := by
  unfold behind
  rw [sub32_payload h hb, h.getFoot_next hb]

theorem next_eq_end_iff (h : HeapInv s (pre ++ b :: post)) : b.next = s.endAddress ↔ post = [] := by
  obtain ⟨_, -, -, htail⟩ := tiles_append.mp h.tiled.tiles
  cases post with
  | nil => exact iff_of_true htail rfl
  | cons c post =>
      refine iff_of_false (fun heq => ?_) (List.cons_ne_nil c post)
      have hadj : c.addr = b.next := htail.1
      have := (htail.bounds (b := c) List.mem_cons_self).2
      rw [c.next_eq] at this
      omega

/-- The first block is the one at `start`. -/
theorem addr_eq_start_iff (h : HeapInv s (pre ++ b :: post)) : b.addr = s.start ↔ pre = [] := by
  obtain ⟨_, hpre, rfl, -⟩ := tiles_append.mp h.tiled.tiles
  cases pre with
  | nil => exact iff_of_true hpre.symm rfl
  | cons c pre =>
      refine iff_of_false (fun heq => ?_) (List.cons_ne_nil c pre)
      have hc : c.addr = s.start := hpre.1
      have := (hpre.bounds (b := c) List.mem_cons_self).2
      rw [c.next_eq] at this
      omega

/-- **Freeing the first block** leaves adjacent holes exactly when a hole
follows, because the block is merged with nothing. -/
theorem heapFree_first_coalesced (h : HeapInv s (head :: post)) (hlive : head.hole = false)
    (ha : Apart (head :: post)) :
    ∃ s', heapFree s head.payload = .ok s' ∧ HeapInv s' ({ head with hole := true } :: post) ∧
      s'.start = s.start ∧ s'.endAddress = s.endAddress ∧
      (Apart ({ head with hole := true } :: post) ↔ SeesHoles s head.payload) := by
  obtain ⟨s', hfree, hinv, -, hs, he⟩ := heapFree_first h hlive
  have hsub : sub32 head.payload offset = s.start := by
    rw [sub32_payload h.tiled (by simp)]
    exact h.tiled.tiles.1
  have hbehind := behind_eq h.tiled (b := head) (by simp)
  have h' : HeapInv s ([] ++ head :: post) := h
  have hend := next_eq_end_iff h'
  refine ⟨s', hfree, hinv, hs, he, ?_⟩
  cases post with
  | nil =>
      refine iff_of_true (List.isChain_singleton _) ⟨fun _ hne => absurd ?_ hne, absurd hsub⟩
      exact hbehind.trans (hend.mpr rfl)
  | cons next post =>
      have hnext : node s.mem next.addr .hole = 0 ↔ next.hole = false :=
        (h.tiled.represents next (by simp)).node_hole_eq_zero
      have hadj : head.next = next.addr := Tiles.adjacent h'.tiled.tiles
      have hne : behind s head.payload ≠ s.endAddress := by
        rw [hbehind]
        exact mt hend.mp (List.cons_ne_nil next post)
      have htail : Apart (next :: post) := (List.isChain_cons.mp ha).2
      constructor
      · intro ha'
        refine ⟨fun _ _ => ?_, absurd hsub⟩
        rw [hbehind, hadj, hnext]
        exact Bool.eq_false_iff.mpr fun hh => (List.isChain_cons_cons.mp ha').1 ⟨rfl, hh⟩
      · intro hsees
        have hword := hsees.first hsub hne
        rw [hbehind, hadj, hnext] at hword
        exact htail.cons hword

/-- **Freeing any other block** leaves none either: the block merges with the
holes on both sides, if it looks at them. -/
theorem heapFree_inner_coalesced (h : HeapInv s (pre ++ [prev] ++ head :: post))
    (hlive : head.hole = false) (ha : Apart (pre ++ [prev] ++ head :: post))
    (hsees : SeesHoles s head.payload) :
    ∃ s', heapFree s head.payload = .ok s' ∧ HeapInv s' (freed pre prev head post) ∧
      s'.start = s.start ∧ s'.endAddress = s.endAddress ∧ Apart (freed pre prev head post) := by
  have hfirst : sub32 head.payload offset ≠ s.start := by
    rw [sub32_payload h.tiled (by simp)]
    exact mt (addr_eq_start_iff h).mp (by simp)
  have hbehind := behind_eq h.tiled (b := head) (by simp)
  have hend := next_eq_end_iff h
  obtain ⟨s', hfree, hinv, -, hs, he⟩ := heapFree_inner h hlive fun hpost => by
    have hnext := hend.mpr hpost
    rw [← hnext, ← hbehind]
    exact hsees.last hfirst (hbehind.trans hnext)
  exact ⟨s', hfree, hinv, hs, he, apart_freed ha⟩

/-! ### Runs

A run keeps the heap tiled up to its end only if no request moves it, so
requests have to be quiet; frees have to see the holes beside them.  Once
nothing is live all blocks are holes, and a coalesced list of holes has one
member (`firstBlock`). -/

/-- A request that triggers neither `expand` nor `contract`, a free, or
clients writing into the blocks they hold. -/
inductive QuietStep : InUse → InUse → Prop
  | alloc {u : InUse} {s' : HeapState} {p : ℕ} (granted : Bool) (size : ℕ)
      (hquiet : Quiet true u.state size) (h : heapAlloc granted u.state size = .ok (s', p)) :
      QuietStep u ⟨s', if p = 0 then u.live else p :: u.live⟩
  | free {u : InUse} {s' : HeapState} {p : ℕ} (hp : p ∈ u.live) (hsees : SeesHoles u.state p)
      (h : heapFree u.state p = .ok s') : QuietStep u ⟨s', u.live.erase p⟩
  | freeNull {u : InUse} {s' : HeapState} (h : heapFree u.state 0 = .ok s') :
      QuietStep u ⟨s', u.live⟩
  | write {u : InUse} (m : ByteMemory)
      (h : ∀ x, (∀ p ∈ u.live, x < p ∨ p + getAllocSize u.state.mem p ≤ x) →
        m x = u.state.mem x) : QuietStep u ⟨u.state.withMem m, u.live⟩

/-- The run invariant: a well-formed heap whose blocks in use are those that
are held, without adjacent holes. -/
structure InUse.Tight (start : ℕ) (u : InUse) (blocks : List Block) : Prop where
  heap : HeapInv u.state blocks
  live : LiveBlocks u.live blocks
  apart : Apart blocks
  start_eq : u.state.start = start
  endAddress_eq : u.state.endAddress = start + heapInitSize

/-- **A quiet request** hands out the block placed, or nothing.  It does not
come to `expand`, so that the end of the heap and what `vm2_allocate_page` has
play no part. -/
theorem heapAlloc_quiet (h : HeapInv s blocks) (granted : Bool) (hquiet : Quiet true s size) :
    (heapAlloc granted s size = .ok (s, 0) ∧
        searchBins s size binCount (getBinIndex size) = .ok none) ∨
      ∃ pre found post s', blocks = pre ++ found :: post ∧ found.hole = true ∧
        searchBins s size binCount (getBinIndex size) =
          .ok (some (found.addr, getBinIndex found.size)) ∧
        heapAlloc granted s size = .ok (s', found.payload) ∧
        HeapInv s' (placed pre found post size) ∧
        s'.start = s.start ∧ s'.endAddress = s.endAddress := by
  rcases placeBlock_spec h size with ⟨hnone, hsearch⟩ |
    ⟨pre, found, post, s₁, rfl, hhole, -, hsearch, hplace, hinv, -, hs, he⟩
  · exact Or.inl ⟨heapAlloc_none granted hnone, hsearch⟩
  · obtain ⟨init₁, last₁, hblocks, hafter⟩ := wildernessAfter_eq h hinv
    obtain ⟨hmin, hmax⟩ := hquiet _ _ hsearch
    rw [← hafter] at hmin hmax
    have halloc := heapAlloc_placed granted hplace (hblocks ▸ hinv)
    rw [if_neg (not_lt.mpr (hmin rfl)), if_neg (not_lt.mpr hmax)] at halloc
    let taken : Block := ⟨found.addr, kept found size, false⟩
    have htaken : taken ∈ placed pre found post size := by simp [placed, taken]
    exact Or.inr ⟨pre, found, post, _, rfl, hhole, hsearch, halloc,
      hinv.handOut (b := taken) htaken rfl, hs, he⟩

namespace InUse.Tight

theorem coalesced (h : u.Tight start blocks) : Coalesced u.state := h.heap.coalesced h.apart

/-- **With nothing live, the heap is one hole.**  Two blocks without a live
one would be two adjacent holes. -/
theorem firstBlock (h : u.Tight start blocks) (hlive : u.live = []) :
    HeapInv u.state [firstBlock start] := by
  have hholes : ∀ b ∈ blocks, b.hole = true := by
    intro b hb
    by_contra hno
    have hmem : b.payload ∈ u.live :=
      (h.live.live_iff _).mpr ⟨b, hb, Bool.eq_false_iff.mpr hno, rfl⟩
    rw [hlive] at hmem
    cases hmem
  have hlen := h.apart.length_le hholes
  have htiles := h.heap.tiled.tiles
  rw [h.start_eq, h.endAddress_eq] at htiles
  match blocks with
  | [] =>
      have hempty : start = start + 0x10000 := htiles
      omega
  | [b] =>
      obtain ⟨haddr, hnext⟩ := htiles
      have hsize : b.addr + 20 + b.size = start + 65536 := hnext
      have hb : b = Heap.firstBlock start := by
        cases b with
        | mk addr size hole =>
            obtain rfl : addr = start := haddr
            obtain rfl : hole = true := hholes _ List.mem_cons_self
            have : size = 65516 := by
              dsimp only at hsize
              omega
            rw [this]
            rfl
      exact hb ▸ h.heap
  | b :: c :: rest => simp at hlen

/-- What a free does to the invariant. -/
theorem heapFree (h : u.Tight start blocks) (hp : p ∈ u.live) (hsees : SeesHoles u.state p) :
    ∃ s' blocks', heapFree u.state p = .ok s' ∧ Tight start ⟨s', u.live.erase p⟩ blocks' := by
  obtain ⟨head, hhead, hlive, rfl⟩ := (h.live.live_iff p).mp hp
  obtain ⟨pre, post, rfl⟩ := List.append_of_mem hhead
  have htiles := h.heap.tiled.tiles
  rcases List.eq_nil_or_concat' pre with rfl | ⟨pre, prev, rfl⟩
  · obtain ⟨s', hfree, hinv, hs, he, hiff⟩ := heapFree_first_coalesced h.heap hlive h.apart
    refine ⟨s', _, hfree, hinv, h.live.free htiles fun b hb => ?_, hiff.mpr hsees,
      hs.trans h.start_eq, he.trans h.endAddress_eq⟩
    rw [List.mem_cons, List.nil_append]
    exact or_iff_right (ne_of_hole hb rfl)
  · obtain ⟨s', hfree, hinv, hs, he, ha⟩ := heapFree_inner_coalesced h.heap hlive h.apart hsees
    exact ⟨s', _, hfree, hinv, h.live.free htiles fun b hb => mem_freed hb, ha,
      hs.trans h.start_eq, he.trans h.endAddress_eq⟩

/-- As long as `heap_free` stays inside the heap, what it sees decides whether
the heap is coalesced afterwards. -/
theorem heapFree_coalesced_iff (h : u.Tight start blocks) (hp : p ∈ u.live)
    (hin : LooksInside u.state p) :
    ∃ s', Heap.heapFree u.state p = .ok s' ∧ (Coalesced s' ↔ SeesHoles u.state p) := by
  obtain ⟨head, hhead, hlive, rfl⟩ := (h.live.live_iff p).mp hp
  obtain ⟨pre, post, rfl⟩ := List.append_of_mem hhead
  rcases List.eq_nil_or_concat' pre with rfl | ⟨pre, prev, rfl⟩
  · obtain ⟨s', hfree, hinv, -, -, hiff⟩ := heapFree_first_coalesced h.heap hlive h.apart
    exact ⟨s', hfree, hinv.coalesced_iff.trans hiff⟩
  · have hfirst : sub32 head.payload offset ≠ u.state.start := by
      rw [sub32_payload h.heap.tiled hhead]
      exact mt (addr_eq_start_iff h.heap).mp (by simp)
    have hsees : SeesHoles u.state head.payload :=
      ⟨fun heq => absurd heq hfirst, fun _ heq => absurd heq (hin.resolve_left hfirst)⟩
    obtain ⟨s', hfree, hinv, -, -, ha⟩ := heapFree_inner_coalesced h.heap hlive h.apart hsees
    exact ⟨s', hfree, iff_of_true (hinv.coalesced ha) hsees⟩

/-- **Every step** keeps the invariant: an allocation takes one hole and
leaves at most one, behind the block in use, and a free is the one that has to
merge. -/
theorem step (h : u.Tight start blocks) (hstep : QuietStep u u') :
    ∃ blocks', u'.Tight start blocks' := by
  cases hstep with
  | @alloc s' p granted size hquiet halloc =>
      rcases heapAlloc_quiet h.heap granted hquiet with ⟨hnone, -⟩ |
        ⟨pre, found, post, s₁, rfl, hhole, -, hsome, hinv, hs, he⟩
      · obtain ⟨rfl, rfl⟩ : s' = u.state ∧ p = 0 := by
          rw [halloc] at hnone
          simpa using hnone
        exact ⟨blocks, h⟩
      · obtain ⟨rfl, rfl⟩ : s' = s₁ ∧ p = found.payload := by
          rw [halloc] at hsome
          simpa using hsome
        have hlive : LiveBlocks _ (placed pre found post size) :=
          h.live.alloc h.heap.tiled.tiles hhole
        rw [if_neg payload_ne_zero]
        exact ⟨_, hinv, hlive, apart_placed h.apart hhole, hs.trans h.start_eq,
          he.trans h.endAddress_eq⟩
  | @free s' p hp hsees hfree =>
      obtain ⟨s₁, blocks', hfree₁, h'⟩ := h.heapFree hp hsees
      obtain rfl : s' = s₁ := by
        rw [hfree] at hfree₁
        simpa using hfree₁
      exact ⟨blocks', h'⟩
  | @freeNull s' hfree =>
      obtain rfl : u.state = s' := by
        unfold Heap.heapFree at hfree
        simpa using hfree
      exact ⟨blocks, h⟩
  | write m hm =>
      refine ⟨blocks, h.heap.of_payload fun x _ hx => hm x fun p hp => ?_, h.live, h.apart,
        h.start_eq, h.endAddress_eq⟩
      obtain ⟨b, hb, hl, rfl⟩ := (h.live.live_iff p).mp hp
      have := hx b hb hl
      rw [h.heap.tiled.getAllocSize_eq hb]
      show x < b.addr + 8 ∨ b.addr + 8 + b.size ≤ x
      omega

end InUse.Tight

/-- The fresh heap is one hole, so no two of its holes are next to each other,
and there is nothing behind its end. -/
theorem tight_createHeap (m : ByteMemory) (hstart : 0 < start)
    (hend : start + heapInitSize < 2 ^ 32) :
    ∃ s, createHeap m (fun _ => 0) start = .ok s ∧
      InUse.Tight start ⟨s, []⟩ [firstBlock start] := by
  obtain ⟨s, hcreate, hinv, hs, he⟩ := createHeap_spec m start hstart hend
  refine ⟨s, hcreate, hinv, LiveBlocks.nil fun b hb => ?_, List.isChain_singleton _, hs, he⟩
  rw [List.mem_singleton.mp hb]
  rfl

/-- **The heap is fully coalesced** after every step of every run from a fresh
heap in which each `heap_free` sees the holes beside its block, and one hole
again once nothing is live.  All calls of such a run return.  A further
`heap_free` that looks at no memory behind the heap leaves it coalesced if and
only if it sees the holes beside its block. -/
theorem heap_coalesced (m : ByteMemory) (hstart : 0 < start)
    (hend : start + heapInitSize < 2 ^ 32) :
    ∃ s, createHeap m (fun _ => 0) start = .ok s ∧
      ∀ u, Relation.ReflTransGen QuietStep ⟨s, []⟩ u →
        Coalesced u.state ∧ (u.live = [] → HeapInv u.state [firstBlock start]) ∧
        (∀ granted size, Quiet true u.state size → ∃ r, heapAlloc granted u.state size = .ok r) ∧
        ∀ p ∈ u.live,
          (SeesHoles u.state p → ∃ s', heapFree u.state p = .ok s' ∧ Coalesced s') ∧
          (LooksInside u.state p →
            ∃ s', heapFree u.state p = .ok s' ∧ (Coalesced s' ↔ SeesHoles u.state p)) := by
  obtain ⟨s, hcreate, hinit⟩ := tight_createHeap m hstart hend
  refine ⟨s, hcreate, fun u hrun => ?_⟩
  obtain ⟨blocks, h⟩ := Runs.invariant (I := fun u => ∃ blocks, u.Tight start blocks)
    (fun _ _ ⟨_, h⟩ hstep => h.step hstep) hrun ⟨_, hinit⟩
  refine ⟨h.coalesced, h.firstBlock, fun granted size hquiet => ?_, fun p hp => ⟨?_, ?_⟩⟩
  · rcases heapAlloc_quiet h.heap granted hquiet with ⟨hnone, -⟩ |
      ⟨_, _, _, s', -, -, -, hsome, -⟩
    · exact ⟨_, hnone⟩
    · exact ⟨_, hsome⟩
  · intro hsees
    obtain ⟨s', blocks', hfree, h'⟩ := h.heapFree hp hsees
    exact ⟨s', hfree, h'.coalesced⟩
  · exact h.heapFree_coalesced_iff hp

/-- The heap at 64 KiB, in memory that is all zero.  The run may be any of
quiet requests and of frees that see the holes around them; the last clause is
about the next free, whether it does or not. -/
theorem heap_coalesced_at_64KiB :
    ∃ s, createHeap ⟨fun _ => 0⟩ (fun _ => 0) 0x10000 = .ok s ∧
      ∀ u, Relation.ReflTransGen QuietStep ⟨s, []⟩ u →
        Coalesced u.state ∧ (u.live = [] → HeapInv u.state [firstBlock 0x10000]) ∧
        (∀ granted size, Quiet true u.state size → ∃ r, heapAlloc granted u.state size = .ok r) ∧
        ∀ p ∈ u.live,
          (SeesHoles u.state p → ∃ s', heapFree u.state p = .ok s' ∧ Coalesced s') ∧
          (LooksInside u.state p →
            ∃ s', heapFree u.state p = .ok s' ∧ (Coalesced s' ↔ SeesHoles u.state p)) :=
  heap_coalesced ⟨fun _ => 0⟩ (by decide) (by decide)

/-- Of the heap at 64 KiB, a first block of 16 bytes is handed out and freed:
two holes are left where there was one. -/
theorem first_block_stays :
    ∃ s s' p s'', createHeap ⟨fun _ => 0⟩ (fun _ => 0) 0x10000 = .ok s ∧ Quiet true s 16 ∧
      heapAlloc true s 16 = .ok (s', p) ∧ heapFree s' p = .ok s'' ∧
      ¬Coalesced s'' ∧ ¬HeapInv s'' [firstBlock 0x10000] := by
  obtain ⟨s, hcreate, h⟩ :=
    tight_createHeap ⟨fun _ => 0⟩ (by decide : 0 < 0x10000) (by decide)
  have hfit : 16 ≤ (firstBlock 0x10000).size := by decide
  obtain ⟨index, hsearch⟩ := searchBins_fresh h.heap hfit
  have hquiet : Quiet true s 16 := quiet_fresh h.heap (by decide)
  rcases heapAlloc_quiet h.heap true hquiet with ⟨-, hnone⟩ |
    ⟨pre, found, post, s', hblocks, -, -, halloc, hinv, -⟩
  · rw [hsearch] at hnone
    cases hnone
  · obtain ⟨rfl, rfl, rfl⟩ := singleton_eq_append hblocks
    let taken : Block := ⟨0x10000, 16, false⟩
    let left : Block := ⟨0x10024, 65480, true⟩
    have hinv' : HeapInv s' [taken, left] := hinv
    obtain ⟨s'', hfree, hinv'', -⟩ := heapFree_first hinv' rfl
    have hnot : ¬Coalesced s'' := fun hc =>
      (List.isChain_cons_cons.mp (hinv''.coalesced_iff.mp hc)).1 ⟨rfl, rfl⟩
    refine ⟨s, s', _, s'', hcreate, hquiet, halloc, hfree, hnot, fun hone => hnot ?_⟩
    exact hone.coalesced (List.isChain_singleton _)

end CourseOs.Heap
