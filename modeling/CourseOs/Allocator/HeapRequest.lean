import CourseOs.Allocator.HeapCoalesce

/-!
# Which hole serves a request

`heap_alloc` looks through the bins from the one of the request on, and in
each bin at the holes in order of size.  Together this is a search for the
best fit among all holes of the heap (`BestFit`): a smaller hole that fits is
in the same bin, and comes first there, or in an earlier one, which the search
has been through.  `heapAlloc_best_fit` has it for the requests that leave the
end of the heap alone: which hole serves the request, what is split off it,
and that `NULL` means that no hole is large enough.

A request can fail in two places.  When no hole fits nothing has been done
yet.  When the wilderness is then too small and no page is found, the block
has already been split, marked and unlinked, and stays so (`NeedsPage`).  So a
request that is refused leaves the heap as it was exactly if it did not ask
for a page, or was granted it (`refused_unaffected`).

`vm2_allocate_page` answers `NULL` only where the page to be mapped lies in a
section.  That the physical memory is used up does not come to an answer: it
stops the kernel.

`heapAlloc_outcome` has all the ways a request can end, for either answer;
what is said of refused requests (`heapAlloc_refused`) and of the block a
request gets (`heapAlloc_room`) is read off that lemma.
-/

namespace CourseOs.Heap

open ByteMemory LinkedList

variable {s s' : HeapState} {blocks pre post : List Block} {found b : Block} {size : ℕ}

/-- A smallest hole among those the request fits in.  There may be several of
the same size. -/
structure BestFit (blocks : List Block) (size : ℕ) (found : Block) : Prop where
  mem : found ∈ holes blocks
  fits : size ≤ found.size
  least : ∀ b ∈ holes blocks, size ≤ b.size → found.size ≤ b.size

/-! ### The search through all bins

The search starts at the bin of the size requested.  Holes in earlier bins are
smaller than the request, and so none is overlooked; with what is known of one
bin, the search is complete and returns a best fit. -/

theorem HeapInv.search (h : HeapInv s blocks) (size : ℕ) :
    (searchBins s size binCount (getBinIndex size) = .ok none ∧
        ∀ b ∈ holes blocks, b.size < size) ∨
      ∃ b, BestFit blocks size b ∧ searchBins s size binCount (getBinIndex size) =
        .ok (some (b.addr, getBinIndex b.size)) := by
  obtain ⟨sz, hbin⟩ := h.binned
  have hsizes : ∀ b ∈ holes blocks, node s.mem b.addr .size = b.size := fun b hb =>
    (h.tiled.represents b hb.1).size
  rcases searchBins_spec hbin h.tiled.separate_holes hsizes size binCount (getBinIndex size)
      (getBinIndex_lt size) (Nat.le_add_left _ _) with
    ⟨hnone, hsmall⟩ | ⟨b, hb, hfit, hleast, hsome⟩
  · refine Or.inl ⟨hnone, fun b hb => ?_⟩
    -- a hole in an earlier bin is too small to begin with
    by_contra hlarge
    exact hlarge (hsmall b hb (getBinIndex_mono (not_lt.mp hlarge)))
  · have hbest : BestFit blocks size b :=
      ⟨hb, hfit, fun c hc hcfit => hleast c hc (getBinIndex_mono hcfit) hcfit⟩
    exact Or.inr ⟨b, hbest, hsome⟩

/-- What the search returns is a best fit.  Bins are ordered by size, and each
is sorted. -/
theorem HeapInv.bestFit (h : HeapInv s blocks) (hfound : found ∈ holes blocks) {index : ℕ}
    (hsome : searchBins s size binCount (getBinIndex size) = .ok (some (found.addr, index))) :
    BestFit blocks size found := by
  rcases h.search size with ⟨hnone, -⟩ | ⟨b, hbest, hsome'⟩
  · rw [hnone] at hsome
    cases hsome
  · have haddr : b.addr = found.addr := by
      rw [hsome'] at hsome
      simp only [Except.ok.injEq, Option.some.injEq, Prod.mk.injEq] at hsome
      exact hsome.1
    exact h.tiled.separate_holes.addr_inj hbest.mem hfound haddr ▸ hbest

theorem HeapInv.lt_of_search (h : HeapInv s blocks)
    (hnone : searchBins s size binCount (getBinIndex size) = .ok none) :
    ∀ b ∈ holes blocks, b.size < size := by
  rcases h.search size with ⟨-, hsmall⟩ | ⟨b, -, hsome⟩
  · exact hsmall
  · rw [hnone] at hsome
    cases hsome

/-! ### Requests that leave the end of the heap alone

As long as the wilderness is within bounds, placement is all there is to a
request.  The statement about these requests is the one a client would expect
of a best-fit allocator. -/

/-- Once the request is placed the wilderness is within bounds: neither
`expand` nor `contract` is called. -/
def Steady (s : HeapState) (size : ℕ) : Prop :=
  ∀ s₁ found, placeBlock s size = .ok (some (s₁, found)) →
    minWilderness ≤ node s₁.mem (getWilderness s₁) .size ∧
      node s₁.mem (getWilderness s₁) .size ≤ maxWilderness

theorem steady_iff (h : HeapInv s blocks) : Steady s size ↔ Quiet true s size := by
  rcases placeBlock_spec h size with ⟨hplace, hsearch⟩ |
    ⟨pre, found, post, s₁, rfl, -, -, hsearch, hplace, hinv, -⟩
  · unfold Steady Quiet
    rw [hplace, hsearch]
    exact iff_of_true (fun _ _ h => by cases h) fun _ _ h => by cases h
  · obtain ⟨init₁, last₁, hblocks, hafter⟩ := wildernessAfter_eq h hinv
    rw [hblocks] at hinv
    have hwild : node s₁.mem (getWilderness s₁) .size = wildernessAfter s found.addr size := by
      rw [getWilderness_eq hinv, (hinv.tiled.represents last₁ (by simp)).size, hafter]
    unfold Steady Quiet
    rw [hplace, hsearch]
    constructor
    · rintro hsteady _ _ ⟨⟩
      exact hwild ▸ ⟨fun _ => (hsteady s₁ _ rfl).1, (hsteady s₁ _ rfl).2⟩
    · rintro hquiet _ _ ⟨⟩
      exact hwild ▸ ⟨(hquiet _ _ rfl).1 rfl, (hquiet _ _ rfl).2⟩

/-- **`heap_alloc` is a complete best-fit search.**  It returns `NULL` if and
only if no hole is large enough, and then changes nothing; otherwise a
smallest hole that is serves the request.  What is left of that hole becomes a
hole of its own if it is larger than the overhead and the least allocation,
and else stays in the block. -/
theorem heapAlloc_best_fit (h : HeapInv s blocks) (granted : Bool) (size : ℕ)
    (hsteady : Steady s size) :
    ∃ s' p, heapAlloc granted s size = .ok (s', p) ∧
      (p = 0 ↔ ∀ b ∈ blocks, b.hole = true → b.size < size) ∧
      (p = 0 → s' = s) ∧
      (p ≠ 0 → ∃ pre found post, blocks = pre ++ found :: post ∧ BestFit blocks size found ∧
        p = found.payload ∧
        (overhead + minAllocSz < found.size - size →
          HeapInv s' (pre ++ ⟨found.addr, size, false⟩ ::
            ⟨found.addr + overhead + size, found.size - size - overhead, true⟩ :: post)) ∧
        (found.size - size ≤ overhead + minAllocSz →
          HeapInv s' (pre ++ ⟨found.addr, found.size, false⟩ :: post))) := by
  rcases heapAlloc_quiet h granted ((steady_iff h).mp hsteady) with ⟨halloc, hnone⟩ |
    ⟨pre, found, post, s', rfl, hhole, hsome, halloc, hinv, -, -⟩
  · have hsmall := h.lt_of_search hnone
    refine ⟨s, 0, halloc, iff_of_true rfl fun b hb hh => hsmall b ⟨hb, hh⟩, fun _ => rfl, ?_⟩
    exact fun hne => absurd rfl hne
  · have hbest := h.bestFit ⟨by simp, hhole⟩ hsome
    refine ⟨s', found.payload, halloc, iff_of_false payload_ne_zero fun hsmall => ?_,
      fun heq => absurd heq payload_ne_zero,
      fun _ => ⟨pre, found, post, rfl, hbest, rfl, fun hcut => ?_, fun hwhole => ?_⟩⟩
    · exact absurd hbest.fits (not_le.mpr (hsmall found (by simp) hhole))
    · have hkept : kept found size = size := if_pos hcut
      have hrest : rest found size = [_] := if_pos hcut
      rw [placed, hkept, hrest] at hinv
      simpa using hinv
    · have hkept : kept found size = found.size := if_neg (not_lt.mpr hwhole)
      have hrest : rest found size = [] := if_neg (not_lt.mpr hwhole)
      rw [placed, hkept, hrest] at hinv
      simpa using hinv

/-- The first request of 16 bytes from the heap at 64 KiB, with its one hole:
the hole fits and is split. -/
theorem heapAlloc_best_fit_at_64KiB :
    ∃ s, createHeap ⟨fun _ => 0⟩ (fun _ => 0) 0x10000 = .ok s ∧
      ∃ s' p, heapAlloc true s 16 = .ok (s', p) ∧
        (p = 0 ↔ ∀ b ∈ [firstBlock 0x10000], b.hole = true → b.size < 16) ∧
        (p = 0 → s' = s) ∧
        (p ≠ 0 → ∃ pre found post, [firstBlock 0x10000] = pre ++ found :: post ∧
          BestFit [firstBlock 0x10000] 16 found ∧ p = found.payload ∧
          (overhead + minAllocSz < found.size - 16 →
            HeapInv s' (pre ++ ⟨found.addr, 16, false⟩ ::
              ⟨found.addr + overhead + 16, found.size - 16 - overhead, true⟩ :: post)) ∧
          (found.size - 16 ≤ overhead + minAllocSz →
            HeapInv s' (pre ++ ⟨found.addr, found.size, false⟩ :: post))) := by
  obtain ⟨s, hcreate, hinv, -⟩ := createHeap_spec ⟨fun _ => 0⟩ 0x10000 (by decide) (by decide)
  exact ⟨s, hcreate,
    heapAlloc_best_fit hinv true 16 ((steady_iff hinv).mpr (quiet_fresh hinv (by decide)))⟩

/-! ### Refused requests

There are two ways to be refused.  Where no hole fits nothing has been touched
yet; where no page is found for a wilderness that has become too small, the
block has been placed already, and the source does not put it back. -/

/-- The range of the heap, its blocks and the contents of its bins are as
before.  What is written in the payload of a hole does not count. -/
structure Unaffected (s s' : HeapState) (blocks : List Block) : Prop where
  start_eq : s'.start = s.start
  endAddress_eq : s'.endAddress = s.endAddress
  represents : ∀ b ∈ blocks, Represents s'.mem b
  bins : ∀ i < binCount, ∀ xs, Chain (node s.mem · .next) (s.bins i) xs →
    Chain (node s'.mem · .next) (s'.bins i) xs

theorem HeapInv.unaffected (h : HeapInv s blocks) : Unaffected s s blocks where
  start_eq := rfl
  endAddress_eq := rfl
  represents := h.tiled.represents
  bins _ _ _ hxs := hxs

/-- The hole found for the request leaves less than `MIN_WILDERNESS` in the
last block, so that a page is asked for.  This can be said before the call. -/
def NeedsPage (s : HeapState) (size : ℕ) : Prop :=
  ∃ found index, searchBins s size binCount (getBinIndex size) = .ok (some (found, index)) ∧
    wildernessAfter s found size < minWilderness

/-- Once a block is placed, the hole it was taken from is no hole any more:
its header says so. -/
theorem not_unaffected_of_placed (hhole : found.hole = true)
    (h' : HeapInv s' (placed pre found post size)) :
    ¬Unaffected s s' (pre ++ found :: post) := by
  intro hsame
  let taken : Block := ⟨found.addr, kept found size, false⟩
  have hnow : node s'.mem found.addr .hole = 0 :=
    (h'.tiled.represents taken (by simp [placed, taken])).hole
  have hstill := (hsame.represents found (by simp)).hole
  rw [hnow, hhole] at hstill
  cases hstill

/-- What a request comes to: there is no hole for it; or the block is placed,
and then lost where a page is asked for and refused, and handed out otherwise. -/
theorem heapAlloc_outcome (h : HeapInv s blocks) (granted : Bool) (size : ℕ) :
    (heapAlloc granted s size = .ok (s, 0) ∧
        searchBins s size binCount (getBinIndex size) = .ok none) ∨
      ∃ pre found post s₁ index, blocks = pre ++ found :: post ∧ found.hole = true ∧
        size ≤ found.size ∧
        searchBins s size binCount (getBinIndex size) = .ok (some (found.addr, index)) ∧
        HeapInv s₁ (placed pre found post size) ∧
        (NeedsPage s size → granted = false → heapAlloc granted s size = .ok (s₁, 0)) ∧
        ((NeedsPage s size → granted = true) →
          ∃ s', heapAlloc granted s size = .ok (s', found.payload) ∧
            ∀ b ∈ placed pre found post size, Represents s'.mem b) := by
  rcases placeBlock_spec h size with ⟨hplace, hsearch⟩ |
    ⟨pre, found, post, s₁, rfl, hhole, hfits, hsearch, hplace, hinv, -⟩
  · exact .inl ⟨heapAlloc_none granted hplace, hsearch⟩
  · obtain ⟨init₁, last₁, hblocks, hafter⟩ := wildernessAfter_eq h hinv
    have halloc := heapAlloc_placed granted hplace (hblocks ▸ hinv)
    have hneeds : NeedsPage s size ↔ last₁.size < minWilderness := by
      unfold NeedsPage
      rw [hsearch, hafter]
      constructor
      · rintro ⟨_, _, ⟨⟩, hlt⟩
        exact hlt
      · exact fun hlt => ⟨_, _, rfl, hlt⟩
    have hout : ∀ t : HeapState, (∀ b ∈ placed pre found post size, Represents t.mem b) →
        ∀ b ∈ placed pre found post size, Represents (handOut t found.addr).1.mem b :=
      fun t hrep => represents_handOut (c := ⟨found.addr, kept found size, false⟩)
        hinv.tiled.tiles hrep (by simp [placed])
    refine .inr ⟨pre, found, post, s₁, _, rfl, hhole, hfits, hsearch, hinv, ?_, fun hgranted => ?_⟩
    · rintro hneed rfl
      rw [halloc, if_pos (hneeds.mp hneed)]
      rfl
    · by_cases hlt : last₁.size < minWilderness
      · obtain rfl := hgranted (hneeds.mpr hlt)
        rw [if_pos hlt] at halloc
        exact ⟨_, halloc, hout (expand true s₁).1 fun b hb => represents_expand hinv hb⟩
      · rw [if_neg hlt] at halloc
        by_cases hmax : maxWilderness < last₁.size
        · rw [if_pos hmax] at halloc
          exact ⟨_, halloc, hout (contract s₁) (by rw [contract_mem]; exact hinv.tiled.represents)⟩
        · rw [if_neg hmax] at halloc
          exact ⟨_, halloc, hout s₁ hinv.tiled.represents⟩

/-- A request changes nothing when it is refused, unless it was a page that
was refused: then the hole found is lost. -/
theorem heapAlloc_refused (h : HeapInv s blocks) (granted : Bool) (size : ℕ) :
    ∃ s' p, heapAlloc granted s size = .ok (s', p) ∧
      ((NeedsPage s size → granted = true) → p = 0 → s' = s) ∧
      (NeedsPage s size → granted = false → p = 0 ∧ ¬Unaffected s s' blocks) := by
  rcases heapAlloc_outcome h granted size with ⟨halloc, hsearch⟩ |
    ⟨pre, found, post, s₁, index, rfl, hhole, -, -, hinv, hlost, hserved⟩
  · refine ⟨s, 0, halloc, fun _ _ => rfl, ?_⟩
    rintro ⟨_, _, hsome, -⟩
    rw [hsearch] at hsome
    cases hsome
  · by_cases hcond : NeedsPage s size → granted = true
    · obtain ⟨s', halloc, -⟩ := hserved hcond
      refine ⟨s', found.payload, halloc, fun _ heq => absurd heq payload_ne_zero, fun hneed => ?_⟩
      rw [hcond hneed]
      exact nofun
    · obtain ⟨hneed, hrefused⟩ := Classical.not_imp.mp hcond
      have halloc := hlost hneed (Bool.eq_false_iff.mpr hrefused)
      exact ⟨s₁, 0, halloc, fun hyes => absurd hyes hcond,
        fun _ _ => ⟨rfl, not_unaffected_of_placed hhole hinv⟩⟩

/-- A request is refused where no hole is large enough, or where a page is
needed and none is found. -/
def Refused (granted : Bool) (s : HeapState) (size : ℕ) : Prop :=
  searchBins s size binCount (getBinIndex size) = .ok none ∨ NeedsPage s size ∧ granted = false

/-- A request that is not refused is served by a block with room for it. -/
theorem heapAlloc_room (h : HeapInv s blocks) (granted : Bool) (size : ℕ) :
    ∃ s' p, heapAlloc granted s size = .ok (s', p) ∧ (p = 0 ↔ Refused granted s size) ∧
      (p ≠ 0 → ∃ b, p = b.payload ∧ b.next < 2 ^ 32 ∧ size ≤ b.size ∧ Represents s'.mem b) := by
  rcases heapAlloc_outcome h granted size with ⟨halloc, hsearch⟩ |
    ⟨pre, found, post, s₁, index, rfl, hhole, hfits, hsearch, hinv, hlost, hserved⟩
  · exact ⟨s, 0, halloc, iff_of_true rfl (.inl hsearch), fun hne => absurd rfl hne⟩
  · have hnone : ¬searchBins s size binCount (getBinIndex size) = .ok none := by
      rw [hsearch]
      nofun
    by_cases hcond : NeedsPage s size → granted = true
    · obtain ⟨s', halloc, hrep⟩ := hserved hcond
      refine ⟨s', found.payload, halloc, iff_of_false payload_ne_zero ?_, fun _ => ?_⟩
      · rintro (hempty | ⟨hneed, hrefused⟩)
        · exact hnone hempty
        · cases (hcond hneed).symm.trans hrefused
      · let taken : Block := ⟨found.addr, kept found size, false⟩
        have htaken : taken ∈ placed pre found post size := by simp [placed, taken]
        exact ⟨taken, rfl, (hinv.tiled.tiles.bounds htaken).2.trans_lt hinv.tiled.bounded,
          le_kept hfits, hrep taken htaken⟩
    · obtain ⟨hneed, hrefused⟩ := Classical.not_imp.mp hcond
      exact ⟨s₁, 0, hlost hneed (Bool.eq_false_iff.mpr hrefused),
        iff_of_true rfl (.inr ⟨hneed, Bool.eq_false_iff.mpr hrefused⟩), fun hne => absurd rfl hne⟩

/-- **A refused request has no effect** if and only if no page was asked for,
or the page was granted.  In the other case it is refused, and the hole found
is in use and held by nobody. -/
theorem refused_unaffected (h : HeapInv s blocks) (granted : Bool) (size : ℕ) :
    ∃ s' p, heapAlloc granted s size = .ok (s', p) ∧
      ((p = 0 → Unaffected s s' blocks) ↔ (NeedsPage s size → granted = true)) := by
  obtain ⟨s', p, halloc, hgood, hbad⟩ := heapAlloc_refused h granted size
  refine ⟨s', p, halloc, fun hsame hneed => ?_, fun hcond hp => ?_⟩
  · by_contra hno
    obtain ⟨hp, hnot⟩ := hbad hneed (Bool.eq_false_iff.mpr hno)
    exact hnot (hsame hp)
  · rw [hgood hcond hp]
    exact h.unaffected

/-- The heap at 64 KiB and a request that fits in no hole, which is refused
without a page being asked for. -/
theorem refused_unaffected_at_64KiB :
    ∃ s, createHeap ⟨fun _ => 0⟩ (fun _ => 0) 0x10000 = .ok s ∧
      ∃ s' p, heapAlloc false s 0x20000 = .ok (s', p) ∧
        ((p = 0 → Unaffected s s' [firstBlock 0x10000]) ↔
          (NeedsPage s 0x20000 → false = true)) := by
  obtain ⟨s, hcreate, hinv, -⟩ := createHeap_spec ⟨fun _ => 0⟩ 0x10000 (by decide) (by decide)
  exact ⟨s, hcreate, refused_unaffected hinv false 0x20000⟩

/-- A first request of 56 KiB, when `vm2_allocate_page` grants no page because
the heap has come to a section, returns `NULL`, and the hole it would have
been served from is gone. -/
theorem refused_block_lost :
    ∃ s s', createHeap ⟨fun _ => 0⟩ (fun _ => 0) 0x10000 = .ok s ∧
      HeapInv s [firstBlock 0x10000] ∧ heapAlloc false s 0xE000 = .ok (s', 0) ∧
      ¬Unaffected s s' [firstBlock 0x10000] := by
  obtain ⟨s, hcreate, hinv, -⟩ := createHeap_spec ⟨fun _ => 0⟩ 0x10000 (by decide) (by decide)
  obtain ⟨index, hsome⟩ := searchBins_fresh hinv (by decide : 0xE000 ≤ (firstBlock 0x10000).size)
  have hneed : NeedsPage s 0xE000 := by
    refine ⟨_, index, hsome, ?_⟩
    rw [wildernessAfter_fresh hinv (by decide)]
    decide
  obtain ⟨s', p, halloc, -, hbad⟩ := heapAlloc_refused hinv false 0xE000
  obtain ⟨rfl, hnot⟩ := hbad hneed rfl
  exact ⟨s, s', hcreate, hinv, halloc, hnot⟩

end CourseOs.Heap
