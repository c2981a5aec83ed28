import CourseOs.Allocator.HeapRun

/-!
# Growing and shrinking the heap

`expand` and `contract` move `heap->end` by a page but write no footer and
make no block, so the blocks no longer reach the end of the heap.
`TiledToEnd` is what later calls rely on: the blocks tile the heap up to
`heap->end`, and `get_wilderness` returns the last of them.

`Quiet granted s size` says, on the state before the call, that the call ends
neither with an `expand` that finds a page nor with a `contract`.  A call
keeps `TiledToEnd` exactly when it is quiet (`heapAlloc_growth`), so all
states of a run of quiet calls are well formed (`heap_growth`).

To say this before the call one has to know what the wilderness will be after
the block has been placed.  `wildernessAfter` computes it: the wilderness
itself may be the block found, and then it is what is left of it, or it is as
it was.

The other direction needs that no list of blocks whatever tiles the heap to
its new end.  Headers determine the blocks (`Tiles.prefix_of_le`), so such a
list would have to go on where the old one ends, in a page of zeros, or to end
inside the old last block.
-/

namespace CourseOs.Heap

open ByteMemory LinkedList

variable {m : ByteMemory} {s s' : HeapState} {blocks l l' init pre post : List Block}
  {b c last found : Block} {a z z' size : ℕ} {granted : Bool}

/-- The blocks tile the heap up to its end, and the wilderness is the last
one. -/
def TiledToEnd (s : HeapState) : Prop :=
  ∃ init last, Tiles s.start (init ++ [last]) s.endAddress ∧
    (∀ b ∈ init ++ [last], Represents s.mem b) ∧ getWilderness s = last.addr

theorem HeapInv.tiledToEnd (h : HeapInv s (init ++ [last])) : TiledToEnd s :=
  ⟨init, last, h.tiled.tiles, h.tiled.represents, getWilderness_eq h⟩

/-- Headers determine the blocks: of two tilings from one address, the shorter
is the beginning of the longer. -/
theorem Tiles.prefix_of_le : ∀ {l l' : List Block} {a : ℕ}, Tiles a l z → Tiles a l' z' →
    (∀ b ∈ l, Represents m b) → (∀ b ∈ l', Represents m b) → z ≤ z' →
    ∃ r, l' = l ++ r ∧ Tiles z r z'
  | [], l', a, h, h', _, _, _ => ⟨l', rfl, h ▸ h'⟩
  | b :: l, [], a, ⟨hb, ht⟩, h', _, _, hle => by
      have := ht.le
      have h0 : a = z' := h'
      rw [b.next_eq] at this
      omega
  | b :: l, c :: l', a, ⟨hb, ht⟩, ⟨hc, ht'⟩, hr, hr', hle => by
      have hrb := hr b List.mem_cons_self
      have hrc := hr' c List.mem_cons_self
      have haddr : b.addr = c.addr := hb.trans hc.symm
      have hsize : b.size = c.size := by rw [← hrb.size, ← hrc.size, haddr]
      have hhole : b.hole = c.hole := by
        have hword : (if b.hole then 1 else 0) = if c.hole then 1 else 0 := by
          rw [← hrb.hole, ← hrc.hole, haddr]
        cases hbh : b.hole <;> cases hch : c.hole <;> simp [hbh, hch] at hword ⊢
      obtain rfl : b = c := by
        cases b
        cases c
        simp_all
      obtain ⟨r, rfl, hrest⟩ := ht.prefix_of_le ht' (fun d hd => hr d (List.mem_cons_of_mem _ hd))
        (fun d hd => hr' d (List.mem_cons_of_mem _ hd)) hle
      exact ⟨r, rfl, hrest⟩

/-- An expanded heap is not tiled up to its end: the new page holds no footer.
The last word of the heap is zero there, and would have to be the address of
the last block. -/
theorem not_tiledToEnd_of_zero (htiles : Tiles s.start blocks z)
    (hrep : ∀ b ∈ blocks, Represents s.mem b) (hpos : 0 < s.start)
    (hlt : z < s.endAddress) (hzero : ∀ x, z ≤ x → x < z + pageSize → s.mem x = 0) :
    ¬TiledToEnd s := by
  rintro ⟨init, last, htiles', hrep', -⟩
  obtain ⟨r, hr, htail⟩ := htiles.prefix_of_le htiles' hrep hrep' hlt.le
  cases r with
  | nil =>
      have : z = s.endAddress := htail
      omega
  | cons c r =>
      have hc := hrep' c (by rw [hr]; simp)
      have haddr : c.addr = z := htail.1
      have hsize : c.size = 0 := by
        rw [← hc.size, haddr]
        refine readWord_eq_zero fun x hx hx' => hzero x ?_ ?_
        · replace hx : z + 4 ≤ x := hx
          omega
        · replace hx' : x < z + 4 + 4 := hx'
          unfold pageSize
          omega
      have hfoot := hc.foot
      rw [hsize, haddr, readWord_eq_zero fun x hx hx' => hzero x ?_ ?_] at hfoot
      · have := htiles.le
        omega
      · unfold sizeofNode at hx
        omega
      · unfold sizeofNode at hx'
        unfold pageSize
        omega

/-- A contracted heap is not tiled up to its end: the end lies inside the
wilderness. -/
theorem not_tiledToEnd_of_inside (htiles : Tiles s.start (init ++ [last]) z)
    (hrep : ∀ b ∈ init ++ [last], Represents s.mem b) (hlt : s.endAddress < z)
    (hin : last.addr < s.endAddress) : ¬TiledToEnd s := by
  rintro ⟨init', last', htiles', hrep', -⟩
  obtain ⟨r, hr, htail⟩ := htiles'.prefix_of_le htiles hrep' hrep hlt.le
  have hmem : last ∈ r := by
    rcases List.eq_nil_or_concat' r with rfl | ⟨r, d, rfl⟩
    · have : s.endAddress = z := htail
      omega
    · rw [← List.append_assoc] at hr
      have heq := (List.append_inj' hr rfl).2
      rw [List.mem_append]
      exact Or.inr (heq ▸ List.mem_singleton_self last)
  have := (htail.bounds hmem).1
  omega

/-! ### What a call does to the wilderness

After a request has been placed `heap_alloc` looks at the last block, and
expands the heap, contracts it or leaves it.  Its size then is a matter of the
blocks before the call and of the hole found (`wildernessAfter`), so that it
can be said beforehand which of the three happens. -/

/-- The size of the last block once a request has been placed in `found`. -/
def wildernessAfter (s : HeapState) (found size : ℕ) : ℕ :=
  if found = getWilderness s then
    if overhead + minAllocSz < node s.mem found .size - size then
      node s.mem found .size - size - overhead
    else node s.mem found .size
  else node s.mem (getWilderness s) .size

/-- The call neither expands the heap by a page nor contracts it.  A request
that finds no hole is quiet, and so is one whose page is refused. -/
def Quiet (granted : Bool) (s : HeapState) (size : ℕ) : Prop :=
  ∀ found index, searchBins s size binCount (getBinIndex size) = .ok (some (found, index)) →
    (granted = true → minWilderness ≤ wildernessAfter s found size) ∧
      wildernessAfter s found size ≤ maxWilderness

/-- `wildernessAfter`, which is read off the state before the request, is the
size of the last block after placement. -/
theorem wildernessAfter_eq {s₁ : HeapState} (h : HeapInv s (pre ++ found :: post))
    (h₁ : HeapInv s₁ (placed pre found post size)) :
    ∃ init₁ last₁, placed pre found post size = init₁ ++ [last₁] ∧
      last₁.size = wildernessAfter s found.addr size := by
  have hfound := h.tiled.represents found (by simp)
  rcases List.eq_nil_or_concat' post with rfl | ⟨post, last, rfl⟩
  · -- the wilderness itself is taken
    have hw : getWilderness s = found.addr := getWilderness_eq h
    unfold wildernessAfter
    rw [if_pos hw.symm, hfound.size]
    by_cases hsplit : overhead + minAllocSz < found.size - size
    · rw [if_pos hsplit]
      refine ⟨pre ++ [⟨found.addr, kept found size, false⟩],
        ⟨found.addr + overhead + size, found.size - size - overhead, true⟩, ?_, rfl⟩
      simp [placed, rest, hsplit]
    · rw [if_neg hsplit]
      refine ⟨pre, ⟨found.addr, kept found size, false⟩, ?_, if_neg hsplit⟩
      simp [placed, rest, hsplit]
  · have h' : HeapInv s ((pre ++ found :: post) ++ [last]) := by simpa using h
    have hw : getWilderness s = last.addr := getWilderness_eq h'
    have hne : found.addr ≠ last.addr := by
      intro heq
      have hsep := (h'.tiled.tiles.around).1 found (by simp)
      rw [found.next_eq] at hsep
      omega
    unfold wildernessAfter
    rw [hw, if_neg hne, (h'.tiled.represents last (by simp)).size]
    exact ⟨pre ++ ⟨found.addr, kept found size, false⟩ :: rest found size ++ post, last,
      by simp [placed], rfl⟩

/-- Zeroing the page behind the heap touches no block. -/
theorem represents_expand (h : HeapInv s blocks) (hb : b ∈ blocks) :
    Represents (fill s.mem s.endAddress pageSize 0) b := by
  have hbounds := (h.tiled.tiles.bounds hb).2
  exact (h.tiled.represents b hb).of_agree fun x _ hx' _ => fill_apply_of_notMem (by omega)

/-- Handing out a block in use leaves all blocks represented. -/
theorem represents_handOut {t : HeapState} (htiles : Tiles a blocks z)
    (hrep : ∀ b ∈ blocks, Represents t.mem b) (hc : c ∈ blocks) :
    ∀ b ∈ blocks, Represents (handOut t c.addr).1.mem b := by
  intro b hb
  have hnext := b.next_eq
  refine (hrep b hb).of_agree fun x hx hx' hout => ?_
  have hsep : x < c.addr + 8 ∨ c.addr + 16 ≤ x := by
    by_cases hbc : b = c
    · subst hbc
      omega
    · have := htiles.separate hb hc hbc
      rw [c.next_eq] at this
      omega
  show writeWord (writeWord t.mem (c.addr + 12) 0) (c.addr + 8) 0 x = _
  rw [writeWord_apply_of_notMem (by omega), writeWord_apply_of_notMem (by omega)]

@[simp] theorem contract_mem (s : HeapState) : (contract s).mem = s.mem := by
  unfold contract
  rfl

/-- Growing a heap that already ends at the top of the address space. -/
theorem wraps_to_zero {e : ℕ} (hpage : e % pageSize = 0) (hstop : e < 2 ^ 32)
    (hwrap : ¬e + pageSize < 2 ^ 32) : (e + pageSize) % 2 ^ 32 = 0 := by
  unfold pageSize at *
  omega

/-- After `expand` the blocks do not reach the end any more: the page behind
the old end is zero, and a block cannot start there.  A page that ends at the
top of the address space leaves the end at 0, before the start. -/
theorem not_tiledToEnd_expand (h : HeapInv s blocks) (hc : c ∈ blocks)
    (hpage : s.endAddress % pageSize = 0) :
    ¬TiledToEnd (handOut (expand true s).1 c.addr).1 := by
  have hstart : (handOut (expand true s).1 c.addr).1.start = s.start := by
    unfold handOut expand
    rfl
  have hend : (handOut (expand true s).1 c.addr).1.endAddress =
      (s.endAddress + pageSize) % 2 ^ 32 := by
    unfold handOut expand
    rfl
  have hstop := h.tiled.bounded
  have hpos := h.tiled.pos
  have hsize : pageSize = 4096 := rfl
  by_cases hwrap : s.endAddress + pageSize < 2 ^ 32
  · have hrep := represents_handOut (t := (expand true s).1) h.tiled.tiles
      (fun b hb => represents_expand h hb) hc
    have hnext := (h.tiled.tiles.bounds hc).2
    rw [c.next_eq] at hnext
    refine not_tiledToEnd_of_zero (z := s.endAddress) (by rw [hstart]; exact h.tiled.tiles)
      hrep (by rw [hstart]; exact hpos) ?_ fun x hx hx' => ?_
    · rw [hend, Nat.mod_eq_of_lt hwrap]
      omega
    · show writeWord (writeWord (fill s.mem s.endAddress pageSize 0) (c.addr + 12) 0)
        (c.addr + 8) 0 x = 0
      rw [writeWord_apply_of_notMem (by omega), writeWord_apply_of_notMem (by omega),
        fill_apply_of_mem hx hx']
  · -- the page ends at the top of the address space, and `end` becomes 0
    rintro ⟨init, last, htiles, -⟩
    have hle := htiles.le
    rw [hstart, hend, wraps_to_zero hpage hstop hwrap] at hle
    omega

/-- After `contract` the end lies inside the wilderness, which is larger than
a page. -/
theorem not_tiledToEnd_contract (h : HeapInv s (init ++ [last])) (hc : c ∈ init ++ [last])
    (hbig : maxWilderness < last.size) : ¬TiledToEnd (handOut (contract s) c.addr).1 := by
  have hstart : (handOut (contract s) c.addr).1.start = s.start := by
    unfold handOut contract
    rfl
  have hlast : last.next = s.endAddress := by
    obtain ⟨mid, -, rfl, hl⟩ := tiles_append.mp h.tiled.tiles
    exact hl
  rw [last.next_eq] at hlast
  have hstop := h.tiled.bounded
  have hpos : 0 < last.addr := h.tiled.separate.pos last (by simp)
  have hsize : pageSize = 4096 := rfl
  have hmax : maxWilderness = 0x1000000 := rfl
  have hsub : (handOut (contract s) c.addr).1.endAddress = s.endAddress - pageSize := by
    rw [← sub32_of_le (b := pageSize) (by omega) hstop]
    unfold handOut contract
    rfl
  have hrep := represents_handOut (t := contract s) h.tiled.tiles
    (by rw [contract_mem]; exact h.tiled.represents) hc
  refine not_tiledToEnd_of_inside (s := (handOut (contract s) c.addr).1)
    (by rw [hstart]; exact h.tiled.tiles) hrep ?_ ?_
  · rw [hsub]
    omega
  · rw [hsub]
    omega

/-- Once a request is placed, the size of the last block decides the rest: a
page is asked for, the heap is contracted, or the block is handed out. -/
theorem heapAlloc_placed {s₁ : HeapState} (granted : Bool)
    (hplace : placeBlock s size = .ok (some (s₁, found.addr)))
    (h₁ : HeapInv s₁ (init ++ [last])) :
    heapAlloc granted s size =
      (if last.size < minWilderness then
        (if granted then .ok (handOut (expand true s₁).1 found.addr) else .ok (s₁, 0))
      else if maxWilderness < last.size then .ok (handOut (contract s₁) found.addr)
      else .ok (handOut s₁ found.addr)) := by
  have hpos : 0 < last.addr := h₁.tiled.separate.pos last (by simp)
  have hlast := h₁.tiled.represents last (by simp)
  unfold heapAlloc
  rw [hplace, Exec.ok_bind]
  dsimp only
  rw [getWilderness_eq h₁, hlast.size, if_neg (Nat.pos_iff_ne_zero.mp hpos)]
  cases granted <;> rfl

/-- **A call keeps the heap tiled exactly when it is quiet.**  The heap ends
at a page boundary, as `init_heap` sets it up. -/
theorem heapAlloc_growth (h : HeapInv s blocks)
    (hpage : s.endAddress % pageSize = 0) (granted : Bool) (size : ℕ) :
    ∃ s' p, heapAlloc granted s size = .ok (s', p) ∧
      (Quiet granted s size → (∃ blocks', HeapInv s' blocks') ∧ s'.start = s.start ∧
        s'.endAddress = s.endAddress) ∧
      (¬Quiet granted s size → ¬TiledToEnd s') := by
  rcases placeBlock_spec h size with ⟨hnone, hsearch⟩ |
    ⟨pre, found, post, s₁, rfl, hhole, -, hsearch, hplace, hinv, -, hstart, hend⟩
  · refine ⟨s, 0, heapAlloc_none granted hnone, fun _ => ⟨⟨blocks, h⟩, rfl, rfl⟩, fun hnq => ?_⟩
    have hq : Quiet granted s size := by
      intro found index hsome
      rw [hsearch] at hsome
      cases hsome
    exact absurd hq hnq
  · obtain ⟨init₁, last₁, hblocks, hafter⟩ := wildernessAfter_eq h hinv
    let taken : Block := ⟨found.addr, kept found size, false⟩
    have htaken : taken ∈ init₁ ++ [last₁] := by
      rw [← hblocks]
      simp [placed, taken]
    rw [hblocks] at hinv
    have hquiet : Quiet granted s size ↔
        (granted = true → minWilderness ≤ last₁.size) ∧ last₁.size ≤ maxWilderness := by
      unfold Quiet
      rw [hsearch, hafter]
      constructor
      · intro hq
        exact hq _ _ rfl
      · rintro hq found' index ⟨⟩
        exact hq
    have hinv' : HeapInv (handOut s₁ found.addr).1 (init₁ ++ [last₁]) :=
      hinv.handOut (b := taken) htaken rfl
    have halloc := heapAlloc_placed granted hplace hinv
    by_cases hmin : last₁.size < minWilderness
    · rw [if_pos hmin] at halloc
      cases granted with
      | false =>
          -- no page was found: the block placed stays behind
          refine ⟨s₁, 0, halloc, fun _ => ⟨⟨_, hinv⟩, hstart, hend⟩, fun hnq => ?_⟩
          refine absurd (hquiet.mpr ⟨fun h => absurd h Bool.false_ne_true, ?_⟩) hnq
          unfold minWilderness at hmin
          unfold maxWilderness
          omega
      | true =>
          refine ⟨_, _, halloc, fun hq => ?_, fun _ =>
            not_tiledToEnd_expand (c := taken) hinv htaken ?_⟩
          · have := (hquiet.mp hq).1 rfl
            omega
          · rw [hend]
            exact hpage
    · rw [if_neg hmin] at halloc
      by_cases hmax : maxWilderness < last₁.size
      · rw [if_pos hmax] at halloc
        refine ⟨_, _, halloc, fun hq => ?_, fun _ =>
          not_tiledToEnd_contract (c := taken) hinv htaken hmax⟩
        have := (hquiet.mp hq).2
        omega
      · rw [if_neg hmax] at halloc
        refine ⟨_, _, halloc, fun _ => ⟨⟨_, hinv'⟩, hstart, hend⟩, fun hnq => ?_⟩
        refine absurd (hquiet.mpr ⟨fun _ => ?_, ?_⟩) hnq <;> omega

/-- One call of `heap_alloc` that is quiet, for any size and whatever
`vm2_allocate_page` answers.  The steps of a run are such calls. -/
def QuietAlloc (s s' : HeapState) : Prop :=
  ∃ granted size p, Quiet granted s size ∧ heapAlloc granted s size = .ok (s', p)

/-- **The heap after growth.**  From any well-formed heap, a call leaves the
heap tiled up to its end if and only if it is quiet; and in every run of quiet
calls every state is tiled up to its end. -/
theorem heap_growth (h : HeapInv s blocks) (hne : s.start < s.endAddress)
    (hpage : s.endAddress % pageSize = 0) :
    (∀ granted size, ∃ s' p, heapAlloc granted s size = .ok (s', p) ∧
      (TiledToEnd s' ↔ Quiet granted s size)) ∧
    ∀ s', Relation.ReflTransGen QuietAlloc s s' → TiledToEnd s' := by
  have htiled : ∀ t : HeapState, (∃ blocks, HeapInv t blocks) → t.start < t.endAddress →
      TiledToEnd t := by
    rintro t ⟨blocks, ht⟩ hlt
    obtain ⟨init, last, rfl⟩ := ht.exists_last hlt
    exact ht.tiledToEnd
  constructor
  · intro granted size
    obtain ⟨s', p, halloc, hquiet, hloud⟩ := heapAlloc_growth h hpage granted size
    refine ⟨s', p, halloc, fun ht => ?_, fun hq => ?_⟩
    · by_contra hnq
      exact hloud hnq ht
    · obtain ⟨hinv, hs, he⟩ := hquiet hq
      exact htiled s' hinv (by rw [hs, he]; exact hne)
  · intro s' hrun
    have hinv := Runs.invariant (I := fun t => (∃ blocks, HeapInv t blocks) ∧ t.start = s.start ∧
        t.endAddress = s.endAddress) (fun t t' ht hstep => ?_) hrun ⟨⟨blocks, h⟩, rfl, rfl⟩
    · exact htiled s' hinv.1 (by rw [hinv.2.1, hinv.2.2]; exact hne)
    · obtain ⟨⟨blocks', ht⟩, hs, he⟩ := ht
      obtain ⟨granted, size, p, hq, halloc⟩ := hstep
      obtain ⟨t₁, p₁, halloc₁, hquiet, -⟩ :=
        heapAlloc_growth ht (by rw [he]; exact hpage) granted size
      obtain ⟨rfl, -⟩ : t' = t₁ ∧ p = p₁ := by
        rw [halloc] at halloc₁
        simpa using halloc₁
      obtain ⟨hinv, hs', he'⟩ := hquiet hq
      exact ⟨hinv, hs'.trans hs, he'.trans he⟩

/-- The heap at 64 KiB, in memory that is all zero.  The first request of any
size leaves blocks up to the end exactly if it is quiet, and so does every run
of quiet requests. -/
theorem heap_growth_at_64KiB :
    ∃ s, createHeap ⟨fun _ => 0⟩ (fun _ => 0) 0x10000 = .ok s ∧
      (∀ granted size, ∃ s' p, heapAlloc granted s size = .ok (s', p) ∧
        (TiledToEnd s' ↔ Quiet granted s size)) ∧
      ∀ s', Relation.ReflTransGen QuietAlloc s s' → TiledToEnd s' := by
  obtain ⟨s, hcreate, hinv, hs, he⟩ :=
    createHeap_spec ⟨fun _ => 0⟩ 0x10000 (by decide) (by decide)
  refine ⟨s, hcreate, heap_growth hinv ?_ ?_⟩
  · rw [hs, he]
    decide
  · rw [he]
    decide

/-- A first request that fits is served from the one block of the fresh heap. -/
theorem searchBins_fresh {start : ℕ} (h : HeapInv s [firstBlock start])
    (hfit : size ≤ (firstBlock start).size) :
    ∃ index, searchBins s size binCount (getBinIndex size) = .ok (some (start, index)) := by
  have hfirst : firstBlock start ∈ holes [firstBlock start] := ⟨List.mem_cons_self, rfl⟩
  obtain ⟨sz, hbin⟩ := h.binned
  have hlt := getBinIndex_lt size
  rcases searchBins_spec hbin h.tiled.separate_holes
      (fun b hb => (h.tiled.represents b hb.1).size) size binCount (getBinIndex size) hlt
      (Nat.le_add_left _ _) with ⟨-, hsmall⟩ | ⟨b, hb, -, -, hsome⟩
  · have htop : getBinIndex (firstBlock start).size = 8 := by
      show getBinIndex 65516 = 8
      decide
    exact absurd (hsmall _ hfirst (htop ▸ Nat.le_of_lt_succ hlt)) (not_lt.mpr hfit)
  · obtain rfl := List.mem_singleton.mp hb.1
    exact ⟨_, hsome⟩

theorem wildernessAfter_fresh {start : ℕ} (h : HeapInv s [firstBlock start])
    (hcut : overhead + minAllocSz < 65516 - size) :
    wildernessAfter s start size = 65516 - size - overhead := by
  have h' : HeapInv s ([] ++ [firstBlock start]) := h
  have hw : getWilderness s = start := getWilderness_eq h'
  have hsize : node s.mem start .size = 65516 :=
    (h.tiled.represents (firstBlock start) List.mem_cons_self).size
  unfold wildernessAfter
  rw [hw, if_pos rfl, hsize, if_pos hcut]

/-- A first request that leaves enough of the fresh heap is quiet. -/
theorem quiet_fresh {start : ℕ} (h : HeapInv s [firstBlock start])
    (hmin : minWilderness + 20 + size ≤ 65516) : Quiet true s size := by
  have hfit : size ≤ (firstBlock start).size := by
    show size ≤ 65516
    omega
  obtain ⟨index, hsearch⟩ := searchBins_fresh h hfit
  rintro found index' hsome
  obtain ⟨rfl, -⟩ : start = found ∧ index = index' := by
    rw [hsearch] at hsome
    simpa using hsome
  have hmin' : 0x2000 + 20 + size ≤ 65516 := hmin
  rw [wildernessAfter_fresh h (show 20 + 4 < 65516 - size by omega)]
  show (true = true → 0x2000 ≤ 65516 - size - 20) ∧ 65516 - size - 20 ≤ 0x1000000
  omega

/-- A first request of 56 KiB from the fresh heap leaves less than
`MIN_WILDERNESS`, and the page `expand` then maps belongs to no block. -/
theorem expand_leaves_gap :
    ∃ s s' p, createHeap ⟨fun _ => 0⟩ (fun _ => 0) 0x10000 = .ok s ∧ TiledToEnd s ∧
      heapAlloc true s 0xE000 = .ok (s', p) ∧ ¬TiledToEnd s' := by
  obtain ⟨s, hcreate, hinv, hs, he⟩ :=
    createHeap_spec ⟨fun _ => 0⟩ 0x10000 (by decide) (by decide)
  have hinv' : HeapInv s ([] ++ [firstBlock 0x10000]) := hinv
  have htiled := hinv'.tiledToEnd
  obtain ⟨s', p, halloc, -, hloud⟩ :=
    heapAlloc_growth hinv (by rw [he]; decide) true 0xE000
  refine ⟨s, s', p, hcreate, htiled, halloc, hloud fun hq => ?_⟩
  obtain ⟨index, hsome⟩ := searchBins_fresh hinv (by decide : 0xE000 ≤ (firstBlock 0x10000).size)
  have hmin := (hq _ _ hsome).1 rfl
  rw [wildernessAfter_fresh hinv (by decide)] at hmin
  exact absurd hmin (by decide)

end CourseOs.Heap
