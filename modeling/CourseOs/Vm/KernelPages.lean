import CourseOs.Vm.HeapMmio
import CourseOs.Vm.Translation

/-!
# The pages of the heap

`Regions` says of which kind the entries of the kernel's table are.  This is
what they lead to: which byte of memory the kernel finds at an address
(`place`), and what becomes of the bytes.

* `NewPage` — what a page mapped for the kernel is: zero, its own, and found
  where it was asked for, with no other translation changed and no byte of the
  other pages;
* `HeapPages` — the heap's pages are handed out, each of them mapped once;
* `HeapPages.place_injective` — two addresses of the heap are never the same
  byte;
* `HeapPages.of_outsidePages` — a byte written to one of the pages changes
  nothing of what is mapped, since no table and no record has a byte in a
  page.

The same is needed for requests for peripherals: they turn entries into
sections, which leads to no page, and leave the words for the heap's pages
alone (`HeapPages.peripheral`).
-/

namespace CourseOs.KernelSpace

open ByteMemory Pmm

variable {L : Layout} {κ κ' κ₁ : ℕ → SliceKind} {p p' s₁ : PmmState} {s s' : KernelSpace}
  {m : ByteMemory} {a i n v l2 page : ℕ} {perms : PagePermission} {created created' : Option ℕ}
  {executable : Bool} {pages : ℕ → ℕ}

/-- The kernel's table is the only one looked at here. -/
abbrev kernelTable : Set L1Table := {L1Table.kernel}

/-- Where in memory the byte at `v` is found; nowhere if the hardware would
fault. -/
def place (s : KernelSpace) (v : ℕ) : Option ℕ :=
  (walk s.pmm.mem kernelL1PageTable v).map phys2virt

/-- The permissions of the heap's pages: the kernel reads and writes, and
nobody executes. -/
abbrev heapPermission : PagePermission := ⟨.kernelRW, false⟩

/-! ### A new page

The manager clears a page before it hands it out, and what `vm2_allocate_page`
writes after that is in tables.  So the page is still zero when the first
address leads to it. -/

/-- The page that the coarse case maps is zero: the manager clears it, and
what is written behind that is an entry of a table. -/
theorem mapPage_zero (h : PmmInv L p κ) {l1Entry l2 virtual : ℕ} {remap : Bool}
    (hslot : L1Slot L κ l1Entry) (hcoarse : entryType (readWord p.mem l1Entry) = 1)
    (hheld : (⟨.slot .l2, l2Table (readWord p.mem l1Entry)⟩ : Object) ∈ held L κ)
    (hl2 : l2 = 0 ∨ l2 = l2Table (readWord p.mem l1Entry))
    (hok : mapPage p l1Entry l2 virtual remap perms created = .ok (p', page, created')) {x : ℕ}
    (hx : page ≤ x) (hx' : x < page + pageSize) : p'.mem x = 0 := by
  obtain ⟨s₁, halloc, rfl, -, -⟩ := mapPage_ok h hslot hcoarse hl2 hok
  obtain ⟨κ', hh⟩ := h.hand_slot halloc
  have hb := entryAt_bounds (l2Table (readWord p.mem l1Entry)) virtual
  have hapart := hh.inv.held_disjoint (hh.subset hheld) hh.mem fun heq => by cases heq
  have hsize : (ObjectKind.slot .l2).size = SlotKind.l2.size := rfl
  have hsize' : (ObjectKind.slot .page).size = pageSize := rfl
  refine (writeWord_apply_of_notMem ?_).trans (hh.zero x hx hx')
  unfold Object.Disjoint RangesDisjoint at hapart
  dsimp only at hapart
  omega

/-- The page that `vm2_allocate_page` maps is zero, whether it takes an L2
table as well or not. -/
theorem vm2AllocatePage_zero (h : PmmInv L p κ) {l1pt virtual : ℕ} {remap : Bool}
    (hslot : L1Slot L κ (entryAt l1pt (l1ptIndex virtual)))
    (hheld : entryType (readWord p.mem (entryAt l1pt (l1ptIndex virtual))) = 1 →
      (⟨.slot .l2, l2Table (readWord p.mem (entryAt l1pt (l1ptIndex virtual)))⟩ : Object) ∈
        held L κ)
    (hok : vm2AllocatePage p l1pt virtual remap perms created = .ok (p', page, created'))
    (hne : page ≠ 0) {x : ℕ} (hx : page ≤ x) (hx' : x < page + pageSize) : p'.mem x = 0 := by
  unfold vm2AllocatePage at hok
  dsimp only at hok
  split at hok
  · rename_i hempty
    obtain ⟨⟨s₁, l2⟩, halloc, hok⟩ := Exec.bind_eq_ok.mp hok
    obtain ⟨κ₁, hh⟩ := h.hand_slot halloc
    have hready : TableReady L p κ (entryAt l1pt (l1ptIndex virtual)) _ κ₁ l2 := .taken hempty hh
    obtain ⟨hcoarse, htable⟩ := hready.entry
    have hmem := hready.mem hheld
    rw [← htable] at hmem
    exact mapPage_zero (hready.inv h hslot) (hslot.mono hready.subset) hcoarse hmem
      (.inr htable.symm) hok hx hx'
  · rename_i hcoarse
    exact mapPage_zero h hslot hcoarse (hheld hcoarse) (.inl rfl) hok hx hx'
  · cases hok
    exact absurd rfl hne

/-- A page has been mapped for the kernel at `v`: it is zero, was not out
before, and is found at `v`, where nothing was. -/
structure NewPage (L : Layout) (κ : ℕ → SliceKind) (p : PmmState) (v : ℕ) (executable : Bool)
    (κ' : ℕ → SliceKind) (p' : PmmState) (page : ℕ) : Prop where
  added : PageAdded L κ p v κ' p' page
  tables : TablesInv L κ' kernelTable p'
  rewritten : Rewritten kernelTable p.mem p'.mem L1Table.kernel (pageNumber v)
  word : L1Table.kernel.pageWord p'.mem (pageNumber v) =
    smallpageEntry ⟨.kernelRW, executable⟩ (l2ptBaseAddress (virt2phys page))
  fresh : (⟨.slot .page, page⟩ : Object) ∉ held L κ
  mem : (⟨.slot .page, page⟩ : Object) ∈ held L κ'
  subset : held L κ ⊆ held L κ'
  zero : ∀ x, page ≤ x → x < page + pageSize → p'.mem x = 0
  kept : ∀ q, (⟨.slot .page, q⟩ : Object) ∈ held L κ → ∀ x, q ≤ x → x < q + pageSize →
    p'.mem x = p.mem x

/-- **What mapping a kernel page adds**, if the entry for it does not map a
section.  If it does, the call returns null and changes nothing. -/
theorem allocateKernelPage_new (h : KernelTables L κ p) (htables : TablesInv L κ kernelTable p)
    (hv : v < 2 ^ 32) (hok : allocateKernelPage p v executable = .ok (p', page)) :
    (2 ≤ entryType (kernelEntry p.mem (l1ptIndex v)) ∧ p' = p ∧ page = 0) ∨
      ∃ κ', NewPage L κ p v executable κ' p' page := by
  have hindex := l1ptIndex_lt hv
  have hslot := h.slot hindex
  have hcoarse := h.coarse _ hindex
  unfold allocateKernelPage at hok
  obtain ⟨⟨p₁, page₁, created⟩, halloc, hok⟩ := Exec.bind_eq_ok.mp hok
  cases hok
  rcases vm2AllocatePage_spec h.inv hslot hcoarse halloc with
    ⟨htype, hs, hpage, -⟩ | ⟨s₁, κ₁, l2, κ', hready, hmapped, hzero, -⟩
  · exact .inl ⟨htype, hs, hpage⟩
  · have hadded := PageAdded.of_mapped h hindex hready hmapped (hzero rfl)
    obtain ⟨htables', hrewritten, hword⟩ :=
      htables.map (Set.mem_singleton L1Table.kernel) hindex hready hmapped
    have hl2 := hready.mem hcoarse
    refine .inr ⟨κ', hadded, htables', hrewritten, hword,
      fun hmem => hmapped.fresh (hready.subset hmem), hmapped.mem,
      hready.subset.trans hmapped.subset,
      fun x hx hx' => vm2AllocatePage_zero h.inv hslot hcoarse halloc hadded.page_ne_zero hx hx',
      fun q hq x hx hx' => ?_⟩
    -- neither the L1 entry nor the L2 entry that is written lies in a page
    have howned : Owned L κ x := owned_of_mem hq hx hx'
    have hb := h.inv.held_bounds hq
    have hentry := h.entry_lt hindex
    have hbounds := entryAt_bounds l2 v
    have hinv₁ := hready.inv h.inv hslot
    have hapart := hinv₁.held_disjoint (hready.subset hq) hl2 fun heq => by cases heq
    have hsize : (ObjectKind.slot .l2).size = SlotKind.l2.size := rfl
    have hsize' : (ObjectKind.slot .page).size = pageSize := rfl
    unfold Object.Disjoint RangesDisjoint at hapart
    dsimp only at hapart hb
    rw [hmapped.owned x (howned.mono hready.subset) (by omega)]
    exact hready.owned howned (.inr (by omega))

/-! ### The heap

The pages of the heap are handed out to it and to nobody else.  Two addresses
in different pages are different bytes for this reason, and two in one page
because the walk keeps the offset. -/

/-- The page is one of the heap's: it begins between the base and the end. -/
def InHeap (s : KernelSpace) (n : ℕ) : Prop :=
  kernelHeapBase ≤ n * pageSize ∧ n * pageSize < s.heapEnd

/-- The pages that the heap is made of: page `n` of the heap is `pages n`,
each handed out by the manager and no two the same. -/
structure HeapPages (L : Layout) (κ : ℕ → SliceKind) (s : KernelSpace) (pages : ℕ → ℕ) : Prop where
  regions : Regions L κ s
  tables : TablesInv L κ kernelTable s.pmm
  word : ∀ n, InHeap s n → L1Table.kernel.pageWord s.pmm.mem n =
    smallpageEntry heapPermission (l2ptBaseAddress (virt2phys (pages n)))
  mem : ∀ n, InHeap s n → (⟨.slot .page, pages n⟩ : Object) ∈ held L κ
  injective : ∀ n n', InHeap s n → InHeap s n' → pages n = pages n' → n = n'
  /-- The part of the last MiB that neither the heap nor the vectors have. -/
  vacant : ∀ n, s.heapEnd ≤ n * pageSize → kernelMmioBase ≤ n * pageSize →
    n * pageSize < highVectorLocation → L1Table.kernel.pageWord s.pmm.mem n = 0

theorem inHeap_iff (haligned : s.heapEnd % pageSize = 0) (v : ℕ) :
    InHeap s (pageNumber v) ↔ kernelHeapBase ≤ v ∧ v < s.heapEnd := by
  unfold InHeap pageNumber kernelHeapBase pageSize at *
  omega

/-- The word of a page leads to the page: to the byte at the same offset in
it.  The page was handed out as an address of the kernel's, which the entry
stores as a physical one. -/
theorem place_of_word (hinv : PmmInv L s.pmm κ) (hn : pageNumber v = n)
    (hword : L1Table.kernel.pageWord s.pmm.mem n =
      smallpageEntry perms (l2ptBaseAddress (virt2phys page)))
    (hmem : (⟨.slot .page, page⟩ : Object) ∈ held L κ) :
    place s v = some (page + v % pageSize) := by
  have halign : page % 4096 = 0 := hinv.held_aligned hmem
  have hlt := hinv.held_lt hmem
  have hsize : (ObjectKind.slot .page).size = pageSize := rfl
  dsimp only at hlt
  subst hn
  have hcoarse := L1Table.coarse_of_pageWord (t := L1Table.kernel) (m := s.pmm.mem)
    (n := pageNumber v) (by rw [hword]; exact smallpageEntry_ne_zero _ _)
  have hno : entryType (L1Table.kernel.entry s.pmm.mem (l1ptIndex v)) ≠ 2 := by
    rw [l1ptIndex_eq, hcoarse]
    decide
  have htype : 2 ≤ entryType (smallpageEntry perms (l2ptBaseAddress (virt2phys page))) := by
    obtain ⟨f, hf, -, heq⟩ := smallpageEntry_eq perms (l2ptBaseAddress (virt2phys page))
    unfold entryType
    omega
  have hwalk : walk s.pmm.mem kernelL1PageTable v = some (virt2phys page + v % 2 ^ 12) := by
    refine (walk_of_pageWord hno).trans ?_
    rw [hword, smallpage, if_pos htype, smallpageAddress_smallpageEntry halign (by omega),
      Option.map_some]
  have hback : phys2virt (virt2phys page + v % 2 ^ 12) = page + v % pageSize := by
    unfold phys2virt virt2phys sub32 kernelVirtualOffset
    unfold pageSize at *
    omega
  unfold place
  rw [hwalk, Option.map_some, hback]

namespace HeapPages

theorem inHeap (h : HeapPages L κ s pages) (hv : kernelHeapBase ≤ v) (hv' : v < s.heapEnd) :
    InHeap s (pageNumber v) :=
  (inHeap_iff h.regions.heapEnd_aligned v).mpr ⟨hv, hv'⟩

theorem place_eq (h : HeapPages L κ s pages) (hv : kernelHeapBase ≤ v) (hv' : v < s.heapEnd) :
    place s v = some (pages (pageNumber v) + v % pageSize) :=
  place_of_word h.regions.tables.inv rfl (h.word _ (h.inHeap hv hv')) (h.mem _ (h.inHeap hv hv'))

/-- **Two addresses of the heap** are never the same byte. -/
theorem place_injective (h : HeapPages L κ s pages) {w : ℕ} (hv : kernelHeapBase ≤ v)
    (hv' : v < s.heapEnd) (hw : kernelHeapBase ≤ w) (hw' : w < s.heapEnd)
    (heq : place s v = place s w) : v = w := by
  rw [h.place_eq hv hv', h.place_eq hw hw', Option.some_inj] at heq
  have hinv := h.regions.tables.inv
  have halign : pages (pageNumber v) % pageSize = 0 := hinv.held_aligned (h.mem _ (h.inHeap hv hv'))
  have halign' : pages (pageNumber w) % pageSize = 0 :=
    hinv.held_aligned (h.mem _ (h.inHeap hw hw'))
  have hpages : pages (pageNumber v) = pages (pageNumber w) := by
    unfold pageSize at *
    omega
  have hnumber := h.injective _ _ (h.inHeap hv hv') (h.inHeap hw hw') hpages
  unfold pageNumber pageSize at *
  omega

/-- **The heap's next page.**  It was free, and so it is none of those the
heap has, and only its own entry is another. -/
theorem grow (h : HeapPages L κ s pages) (hnew : NewPage L κ s.pmm s.heapEnd false κ' p page)
    (hlt : s.heapEnd < highVectorLocation) :
    HeapPages L κ' { s with pmm := p, heapEnd := s.heapEnd + pageSize }
      (Function.update pages (pageNumber s.heapEnd) page) := by
  have haligned := h.regions.heapEnd_aligned
  have hge := h.regions.heapEnd_ge
  have hinHeap : ∀ n, InHeap { s with pmm := p, heapEnd := s.heapEnd + pageSize } n →
      n = pageNumber s.heapEnd ∨ n ≠ pageNumber s.heapEnd ∧ InHeap s n := by
    intro n hn
    unfold InHeap pageNumber kernelHeapBase pageSize at *
    dsimp only at hn
    omega
  have hpage : ∀ n, InHeap s n → pages n ≠ page :=
    fun n hn heq => hnew.fresh (heq ▸ h.mem n hn)
  -- a page other than the new one is mapped as before
  have hword : ∀ n, n * pageSize < highVectorLocation → n ≠ pageNumber s.heapEnd →
      L1Table.kernel.pageWord p.mem n = L1Table.kernel.pageWord s.pmm.mem n := by
    intro n hn hne
    have hlt' : n < 256 * L1Table.kernel.entries := by
      unfold highVectorLocation pageSize at *
      show n < 256 * 0x1000
      omega
    exact hnew.rewritten.words _ rfl n hlt' fun heq => hne (Prod.mk.inj heq).2
  refine ⟨h.regions.grow hnew.added hlt, hnew.tables, fun n hn => ?_, fun n hn => ?_,
    fun n n' hn hn' heq => ?_, fun n hge' hmmio hn => ?_⟩
  · rcases hinHeap n hn with rfl | ⟨hne, hn⟩
    · rw [Function.update_self]
      exact hnew.word
    · rw [Function.update_of_ne hne, ← h.word n hn]
      exact hword n (hn.2.trans hlt) hne
  · rcases hinHeap n hn with rfl | ⟨hne, hn⟩
    · rw [Function.update_self]
      exact hnew.mem
    · rw [Function.update_of_ne hne]
      exact hnew.subset (h.mem n hn)
  · rcases hinHeap n hn with rfl | ⟨hne, hn⟩
    · rcases hinHeap n' hn' with rfl | ⟨hne', hn'⟩
      · rfl
      · rw [Function.update_self, Function.update_of_ne hne'] at heq
        exact absurd heq.symm (hpage n' hn')
    · rcases hinHeap n' hn' with rfl | ⟨hne', hn'⟩
      · rw [Function.update_self, Function.update_of_ne hne] at heq
        exact absurd heq (hpage n hn)
      · rw [Function.update_of_ne hne, Function.update_of_ne hne'] at heq
        exact h.injective n n' hn hn' heq
  · have hge' : s.heapEnd + pageSize ≤ n * pageSize := hge'
    have hpos : 0 < pageSize := by decide
    refine (hword n hn fun heq => ?_).trans (h.vacant n (by omega) hmmio hn)
    rw [heq] at hge'
    unfold pageNumber pageSize at *
    omega

end HeapPages

/-! ### Bytes in pages

Stores go to pages, and the tables are not in pages.  What has been said of
tables and records is therefore not affected by whatever the kernel stores in
its heap. -/

/-- The byte is in no page that is handed out.  Those of the tables and of the
records are not. -/
def OutsidePages (L : Layout) (κ : ℕ → SliceKind) (x : ℕ) : Prop :=
  ∀ q, (⟨.slot .page, q⟩ : Object) ∈ held L κ → x < q ∨ q + pageSize ≤ x

theorem TableByte.outsidePages (hinv : PmmInv L p κ) {x : ℕ} (hx : TableByte L κ x) :
    OutsidePages L κ x := by
  intro q hq
  have hsize : (ObjectKind.slot .page).size = pageSize := rfl
  rcases hx with hout | ⟨o, ho, hkind, hle, hlt⟩
  · have hb := hinv.held_bounds hq
    dsimp only at hb
    omega
  · have hapart := hinv.held_disjoint ho hq fun heq => hkind (by rw [heq])
    unfold Object.Disjoint RangesDisjoint at hapart
    dsimp only at hapart
    omega

theorem record_outsidePages (hinv : PmmInv L p κ) (hi : i < L.slices) {x : ℕ}
    (hx : L.record i ≤ x) (hx' : x < L.record i + 16) : OutsidePages L κ x := by
  intro q hq
  by_contra hin
  have howned := hinv.owned_outside (owned_of_mem hq (x := x) (by dsimp only; omega)
    (show x < q + pageSize by omega)) hi
  omega

/-- What is in pages does not matter to the regions: the tables and the
records lie outside all pages. -/
theorem Regions.of_outsidePages (h : Regions L κ s)
    (hm : ∀ x, OutsidePages L κ x → m x = s.pmm.mem x) :
    Regions L κ { s with pmm := s.pmm.withMem m } := by
  have hinv := h.tables.inv
  have hentry : ∀ i < 0x1000, kernelEntry m i = kernelEntry s.pmm.mem i := by
    intro i hi
    have hlt := h.tables.entry_lt hi
    exact readWord_congr fun x hx hx' => hm x (TableByte.outsidePages hinv (.inl (.inl (by omega))))
  have hl2 : ∀ i < 0x1000, entryType (kernelEntry s.pmm.mem i) = 1 → ∀ j < 256,
      l2Entry m (l2Table (kernelEntry s.pmm.mem i)) j =
        l2Entry s.pmm.mem (l2Table (kernelEntry s.pmm.mem i)) j := by
    intro i hi htype j hj
    exact readWord_congr fun x hx hx' =>
      hm x (TableByte.outsidePages hinv (l2Entry_tableByte (h.tables.coarse i hi htype) hj hx hx'))
  have hheap := h.heapEnd_le
  have htop := h.top_le
  unfold highVectorLocation at hheap
  refine ⟨⟨hinv.of_outside fun i hi x hx hx' => hm x (record_outsidePages hinv hi hx hx'),
    h.tables.below, fun i hi htype => ?_⟩, h.heapEnd_aligned, h.heapEnd_ge, h.heapEnd_le,
    h.top_aligned, h.top_ge, h.top_le, fun i hi => ?_, fun i hi => ?_, ?_, fun i hge hlt => ?_,
    fun hlt htype j hj hge => ?_⟩
  · have htype' : entryType (kernelEntry m i) = 1 := htype
    show (⟨.slot .l2, l2Table (kernelEntry m i)⟩ : Object) ∈ held L κ
    rw [hentry i hi] at htype' ⊢
    exact h.tables.coarse i hi htype'
  · have hlt : i < 0x1000 := by
      have hi : i * mebibyte < s.heapEnd := hi.2
      unfold mebibyte at hi
      omega
    exact (congrArg entryType (hentry i hlt)).trans (h.heap i hi)
  · have hlt : i < 0x1000 := by
      have hi : i * mebibyte < kernelMmioBase := hi.2
      unfold mebibyte kernelMmioBase at hi
      omega
    exact (congrArg entryType (hentry i hlt)).trans (h.mmio i hi)
  · show entryType (kernelEntry m 0xFFF) = 1 ∧ l2Entry m (l2Table (kernelEntry m 0xFFF)) 0xF0 ≠ 0
    rw [hentry 0xFFF (by decide), hl2 0xFFF (by decide) h.vectors.1 0xF0 (by decide)]
    exact h.vectors
  · have hlt' : i < 0x1000 := by
      have hi := hlt.trans_le h.top_le
      unfold mebibyte kernelMmioBase at hi
      omega
    exact (hentry i hlt').trans (h.between i hge hlt)
  · have hindex := l1ptIndex_lt h.heapEnd_lt
    have htype' : entryType (kernelEntry m (l1ptIndex s.heapEnd)) = 1 := htype
    show l2Entry m (l2Table (kernelEntry m (l1ptIndex s.heapEnd))) j = 0
    rw [hentry _ hindex] at htype' ⊢
    rw [hl2 _ hindex htype' j hj]
    exact h.rest hlt htype' j hj hge

/-- **The heap's pages written to**: nothing is mapped otherwise. -/
theorem HeapPages.of_outsidePages (h : HeapPages L κ s pages)
    (hm : ∀ x, OutsidePages L κ x → m x = s.pmm.mem x) :
    HeapPages L κ { s with pmm := s.pmm.withMem m } pages ∧
      ∀ i < 0x1000, kernelEntry m i = kernelEntry s.pmm.mem i := by
  have hregions := h.regions.of_outsidePages hm
  have hmem : ∀ x, TableByte L κ x → (s.pmm.withMem m).mem x = s.pmm.mem x :=
    fun x hx => hm x (TableByte.outsidePages h.regions.tables.inv hx)
  obtain ⟨htables, hentries, hwords⟩ :=
    h.tables.congr hregions.tables.inv (fun o ho _ => ho) hmem
  have hword : ∀ n, n * pageSize < highVectorLocation →
      L1Table.kernel.pageWord m n = L1Table.kernel.pageWord s.pmm.mem n := by
    intro n hn
    refine hwords L1Table.kernel rfl n ?_
    unfold highVectorLocation pageSize at *
    show n < 256 * 0x1000
    omega
  exact ⟨⟨hregions, htables,
    fun n hn => (hword n (hn.2.trans_le h.regions.heapEnd_le)).trans (h.word n hn), h.mem,
    h.injective, fun n hge hmmio hn => (hword n hn).trans (h.vacant n hge hmmio hn)⟩,
    fun i hi => hentries L1Table.kernel rfl i hi⟩

/-! ### Peripherals

Sections are written where nothing was mapped.  The L2 tables of the heap are
reached through other entries, so that the heap is not affected either. -/

/-- Entries turn into sections, or stay.  The coarse ones that are left lead
where they led. -/
theorem TablesInv.of_sections {T : Set L1Table} (h : TablesInv L κ T p) (hinv : PmmInv L p' κ)
    (hentry : ∀ t ∈ T, ∀ i < t.entries, t.entry p'.mem i = t.entry p.mem i ∨
      (entryType (t.entry p'.mem i) = 2 ∧ supersection (t.entry p'.mem i) = 0)) :
    TablesInv L κ T p' := by
  have hcoarse : ∀ t ∈ T, ∀ i < t.entries, entryType (t.entry p'.mem i) = 1 →
      t.entry p'.mem i = t.entry p.mem i := by
    intro t ht i hi htype
    refine (hentry t ht i hi).resolve_right fun hsection => ?_
    rw [htype] at hsection
    exact absurd hsection.1 (by decide)
  refine ⟨hinv, h.place, h.apart, fun t ht i hi => ?_, fun t ht i hi htype => ?_,
    fun t ht i hi t' ht' i' hi' htype htype' heq => ?_⟩
  · rcases hentry t ht i hi with heq | hsection
    · rw [heq]
      exact h.plain t ht i hi
    · exact .inr hsection
  · have hsame := hcoarse t ht i hi htype
    rw [hsame] at htype ⊢
    exact h.coarse t ht i hi htype
  · have hsame := hcoarse t ht i hi htype
    have hsame' := hcoarse t' ht' i' hi' htype'
    rw [hsame] at htype heq
    rw [hsame'] at htype' heq
    exact h.distinct t ht i hi t' ht' i' hi' htype htype' heq

theorem supersection_sectionEntry (b : ℕ) : supersection (sectionEntry b) = 0 := by
  unfold supersection sectionEntry
  omega

/-- **What a request for a peripheral maps**: MiB `k` of it, counted from the
new `mmio_current_top`, to MiB `k` from `physical`. -/
theorem mapPeripheral_section (hle : s.mmioCurrentTop ≤ kernelMmioBase)
    (hfits : n * mebibyte ≤ s.mmioCurrentTop) (physical : ℕ) {k : ℕ} (hk : k < n) :
    kernelEntry (mapPeripheral s physical n).1.pmm.mem
        ((s.mmioCurrentTop - n * mebibyte) / mebibyte + k) =
      sectionEntry (l1ptBaseAddress (physical + k * mebibyte)) := by
  have htop : s.mmioCurrentTop < 2 ^ 32 := lt_of_le_of_lt hle (by decide)
  have hsize : n * mebibyte % 2 ^ 32 = n * mebibyte := Nat.mod_eq_of_lt (by omega)
  have hfirst : sub32 s.mmioCurrentTop (n * mebibyte % 2 ^ 32) =
      s.mmioCurrentTop - n * mebibyte := by
    rw [hsize]
    exact sub32_of_le hfits htop
  have hround : ∀ k < n, roundIndex (s.mmioCurrentTop - n * mebibyte) k =
      (s.mmioCurrentTop - n * mebibyte) / mebibyte + k := by
    intro k hk
    have hkn : (k + 1) * mebibyte ≤ n * mebibyte := Nat.mul_le_mul_right _ hk
    rw [Nat.succ_mul] at hkn
    unfold roundIndex l1ptIndex
    rw [Nat.mod_eq_of_lt (by omega)]
    unfold mebibyte
    omega
  have hloop : (mapPeripheral s physical n).1.pmm.mem =
      (mapPeripheralLoop n (s.mmioCurrentTop - n * mebibyte) physical s.pmm.mem).1 := by
    rw [← hfirst]
    rfl
  have hbound : s.mmioCurrentTop - n * mebibyte < 2 ^ 32 := by omega
  rw [hloop]
  rcases mapPeripheralLoop_entry hbound with ⟨hno, -⟩ | ⟨k', hk', heq, hentry⟩
  · exact absurd (hround k hk) (hno k hk)
  · rw [hround k' hk'] at heq
    rw [hentry, Nat.add_left_cancel heq]

/-- A request changes no word for a page outside the MiB it maps, since it
writes to no L2 table. -/
theorem PeripheralMapped.pageWord (hm : PeripheralMapped s n s') (h : KernelTables L κ s.pmm)
    {k : ℕ} (hk : k / 256 < 0x1000) (hapart : k / 256 * mebibyte < s'.mmioCurrentTop ∨
      s.mmioCurrentTop ≤ k / 256 * mebibyte) :
    L1Table.kernel.pageWord s'.pmm.mem k = L1Table.kernel.pageWord s.pmm.mem k := by
  have hentry : L1Table.kernel.entry s'.pmm.mem (k / 256) =
      L1Table.kernel.entry s.pmm.mem (k / 256) := hm.kept _ hk hapart
  unfold L1Table.pageWord
  rw [hentry]
  split
  · rename_i htype
    have hheld := h.coarse _ hk htype
    have hbounds := h.inv.held_bounds hheld
    have hbase := h.below
    refine readWord_congr fun x hx _ => hm.outside x (.inr ?_)
    unfold entryAt at hx
    dsimp only at hbounds
    change l2Table (kernelEntry s.pmm.mem (k / 256)) + _ ≤ x at hx
    omega
  · rfl

/-- A request that fits leaves the heap's pages alone; the entries it writes
serve no page of the heap. -/
theorem HeapPages.peripheral (h : HeapPages L κ s pages) (hno : ¬Meets s n) (physical : ℕ) :
    HeapPages L κ (mapPeripheral s physical n).1 pages := by
  have hfits : n * mebibyte ≤ s.mmioCurrentTop := by
    have := h.regions.heapEnd_ge
    unfold Meets mebibyte at *
    omega
  have hm : PeripheralMapped s n (mapPeripheral s physical n).1 :=
    mapPeripheral_mapped h.regions.top_le h.regions.top_aligned hfits
  have hregions := h.regions.peripheral hno physical
  have hsection := fun k (hk : k < n) =>
    mapPeripheral_section h.regions.top_le hfits physical hk
  have htop := hm.top_eq
  generalize (mapPeripheral s physical n).1 = s' at *
  have hinHeap : ∀ n', InHeap s' n' → InHeap s n' := by
    intro n' hn'
    unfold InHeap at *
    rwa [hm.heapEnd_eq] at hn'
  refine ⟨hregions, TablesInv.of_sections h.tables hregions.tables.inv ?_, fun n' hn' => ?_,
    fun n' hn' => h.mem n' (hinHeap n' hn'),
    fun n₁ n₂ hn₁ hn₂ => h.injective n₁ n₂ (hinHeap n₁ hn₁) (hinHeap n₂ hn₂),
    fun k hge hmmio hk => ?_⟩
  · rintro t rfl i hi
    by_cases hin : s'.mmioCurrentTop ≤ i * mebibyte ∧ i * mebibyte < s.mmioCurrentTop
    · have haligned := hregions.top_aligned
      have hat : (s.mmioCurrentTop - n * mebibyte) / mebibyte +
          (i - s'.mmioCurrentTop / mebibyte) = i := by
        rw [← htop, Nat.add_sub_cancel]
        unfold mebibyte at *
        omega
      have hk : i - s'.mmioCurrentTop / mebibyte < n := by
        unfold mebibyte at *
        omega
      have hentry := hsection _ hk
      rw [hat] at hentry
      change L1Table.kernel.entry s'.pmm.mem i = _ at hentry
      rw [hentry]
      exact .inr ⟨entryType_sectionEntry _, supersection_sectionEntry _⟩
    · exact .inl (hm.kept i hi (by omega))
  · have hold := hinHeap n' hn'
    have hend := h.regions.heapEnd_le
    have hi : n' / 256 < 0x1000 := by
      have hlt := hold.2
      unfold highVectorLocation pageSize at *
      omega
    have hbelow : n' / 256 * mebibyte < s'.mmioCurrentTop ∨
        s.mmioCurrentTop ≤ n' / 256 * mebibyte := by
      have hlt := hold.2
      unfold Meets at hno
      unfold mebibyte pageSize at *
      omega
    exact (hm.pageWord h.regions.tables hi hbelow).trans (h.word n' hold)
  · have hle := h.regions.top_le
    rw [hm.heapEnd_eq] at hge
    refine (hm.pageWord h.regions.tables ?_ (.inr ?_)).trans (h.vacant k hge hmmio hk)
    · unfold highVectorLocation pageSize at *
      omega
    · unfold kernelMmioBase mebibyte pageSize at *
      omega

end CourseOs.KernelSpace
