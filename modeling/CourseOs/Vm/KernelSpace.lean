import CourseOs.Allocator.Heap
import CourseOs.Vm.PageTables

/-!
# The kernel's half of the address space

The kernel's L1 table maps three regions above `KERNEL_VIRTUAL_OFFSET`:
physical memory, the heap from `KERNEL_HEAP_BASE` up, and peripherals from
`KERNEL_MMIO_BASE` down.  The vector page at `HIGH_VECTOR_LOCATION` is the
only other page mapped.

`KernelSpace` is what the functions that change these mappings share: the
physical memory manager, whose memory holds the tables, the field `end` of the
heap (`heap_end` while the heap is being set up) and the static variable
`mmio_current_top`.  What is stored in the pages that are mapped, the heap's
blocks and the vectors, is not part of it.

* `expand`, `mapPeripheral` — the two requests;
* `start` — the part of the boot sequence up to `init_heap`, after which
  requests are made;
* `KernelTables` — the invariant of the page tables;
* `allocateKernelPage_spec` — what mapping a kernel page changes.

Five modules build on this one.  `HeapMmio` has the regions and the two
requests, `KernelStart` the boot sequence and the runs after it.
`KernelPages` follows the entries to the pages of the heap and the bytes in
them, `KernelMemory` puts that together to an address space with loads and
stores, and `KernelBoot` has the results about its runs.
-/

namespace CourseOs

open ByteMemory Pmm

/-- The state behind the kernel's mappings.  The tables are in the memory of
`pmm`. -/
structure KernelSpace where
  pmm : PmmState
  heapEnd : ℕ
  mmioCurrentTop : ℕ

namespace KernelSpace

/-! ### The functions

The calls that change the kernel's mappings, as functions of one state.  The
static variable of `vm2_map_peripheral` and the end of the heap are part of
this state. -/

/-- `vm2_allocate_page`, as the kernel calls it for itself: with `KernelRW`,
without `remap`, and with `NULL` for `created_l2pt`. -/
def allocateKernelPage (s : PmmState) (virtual : ℕ) (executable : Bool) :
    Exec (PmmState × ℕ) := do
  let (s, page, _) ← vm2AllocatePage s kernelL1PageTable virtual false ⟨.kernelRW, executable⟩ none
  .ok (s, page)

/-- `vm2_map_peripheral` on the static variable. -/
def mapPeripheral (s : KernelSpace) (physical nMebibytes : ℕ) : KernelSpace × ℕ :=
  let (m, top) := vm2MapPeripheral s.pmm.mem s.mmioCurrentTop physical nMebibytes
  ({ s with pmm := s.pmm.withMem m, mmioCurrentTop := top }, top)

/-- `expand`.  A page is asked for at the end of the heap; the end moves only
where there was one, and the answer says whether it did. -/
def expand (s : KernelSpace) : Exec (KernelSpace × ℕ) := do
  let (pmm, page) ← allocateKernelPage s.pmm s.heapEnd false
  if page = 0 then .ok ({ s with pmm := pmm }, 0)
  else .ok ({ s with pmm := pmm, heapEnd := (s.heapEnd + pageSize) % 2 ^ 32 }, 1)

/-- `init_vector_table`: one executable page at the high vectors, whose
address is not looked at. -/
def initVectorTable (s : KernelSpace) : Exec KernelSpace := do
  let (pmm, _) ← allocateKernelPage s.pmm highVectorLocation true
  .ok { s with pmm := pmm }

/-- The loop of `init_heap`, page by page.  A page that is refused is
reported, and stops the kernel. -/
def initHeapLoop (limit : ℕ) : ℕ → KernelSpace → Exec KernelSpace
  | 0, _ => .error .diverged
  | fuel + 1, s =>
      if s.heapEnd < limit then do
        let (pmm, page) ← allocateKernelPage s.pmm s.heapEnd false
        if page = 0 then .error (.fatal "Allocation of the kernel heap went wrong!")
        else initHeapLoop limit fuel { s with pmm := pmm, heapEnd := s.heapEnd + pageSize }
      else .ok s

/-- `sizeof(heap_t)`. -/
abbrev sizeofHeap : ℕ := 4 * (2 + Heap.binCount)

/-- `sizeof(bin_t)`. -/
abbrev sizeofBin : ℕ := 4

/-- `ALIGN`, for a power of two: the next multiple at or above the address. -/
def align (address n : ℕ) : ℕ := (address + n - 1) / n * n

/-- `heap_start` in `init_heap`: the first page boundary behind the record and
its bins. -/
def heapStart : ℕ := align (kernelHeapBase + sizeofHeap + Heap.binCount * sizeofBin) pageSize

/-- `init_heap`, with the end that `create_heap` gives the heap. -/
def initHeap (s : KernelSpace) : Exec KernelSpace := do
  let (pmm, ret) ← allocateKernelPage s.pmm kernelHeapBase false
  if ret = 0 then .error (.fatal "Couldn't allocate page for the kernel heap")
  else do
    let s ← initHeapLoop (heapStart + Heap.heapInitSize) (2 ^ 32 / pageSize)
      { s with pmm := pmm, heapEnd := heapStart }
    .ok { s with heapEnd := heapStart + Heap.heapInitSize }

/-- The requests for peripherals, each a physical address and a number of MiB,
in order. -/
def mapPeripherals (requests : List (ℕ × ℕ)) (s : KernelSpace) : KernelSpace :=
  requests.foldl (fun s request => (mapPeripheral s request.1 request.2).1) s

/-- `start`, up to `init_heap`: `peripherals` are the requests of the chipset,
`mem` is the memory at entry, and `kernelPmmBase` the end of the kernel's
image. -/
def start (hw : HardwareInfo) (peripherals : List (ℕ × ℕ)) (kernelPmmBase detectedSize : ℕ)
    (mem : ByteMemory) : Exec KernelSpace := do
  let s := mapPeripherals peripherals
    ⟨⟨mem, ⟨0, 0, 0, 0, 0, 0⟩⟩, kernelHeapBase, kernelMmioBase⟩
  let pmm ← vm2Start hw kernelPmmBase detectedSize s.pmm.mem
  let s ← initVectorTable { s with pmm := pmm }
  initHeap s

/-! ### The kernel's L1 table

The table is at a fixed place below the managed range, where the manager never
writes.  A coarse entry in it leads to an L2 table that has been handed out,
which is why writing one entry cannot disturb what is behind another. -/

variable {L : Layout} {s s' : PmmState} {κ κ' : ℕ → SliceKind} {m : ByteMemory}
  {i j n v page : ℕ} {executable : Bool}

/-- Entry `i` of the kernel's L1 table, as the hardware would read it. -/
def kernelEntry (m : ByteMemory) (i : ℕ) : ℕ := readWord m (entryAt kernelL1PageTable i)

/-- Writing one entry leaves the others alone. -/
theorem kernelEntry_writeWord {entry : ℕ} (hlt : entry < 2 ^ 32) :
    kernelEntry (writeWord m (entryAt kernelL1PageTable i) entry) j =
      if j = i then entry else kernelEntry m j := by
  unfold kernelEntry
  rw [readWord_writeWord (by unfold entryAt; omega)]
  by_cases hji : j = i
  · rw [if_pos (by rw [hji]), if_pos hji, Nat.mod_eq_of_lt hlt]
  · rw [if_neg (by unfold entryAt; omega), if_neg hji]

/-- The invariant of the kernel's tables: the L1 table lies below the managed
range, and its coarse entries lead to L2 tables that are handed out. -/
structure KernelTables (L : Layout) (κ : ℕ → SliceKind) (s : PmmState) : Prop where
  inv : PmmInv L s κ
  below : kernelL1PageTable + 4 * 0x1000 ≤ L.start
  coarse : ∀ i < 0x1000, entryType (kernelEntry s.mem i) = 1 →
    (⟨.slot .l2, l2Table (kernelEntry s.mem i)⟩ : Object) ∈ held L κ

namespace KernelTables

theorem slot (h : KernelTables L κ s) (hi : i < 0x1000) :
    L1Slot L κ (entryAt kernelL1PageTable i) := by
  have hbelow := h.below
  exact .inl (.inl (by unfold entryAt; omega))

/-- A byte of the table is no byte of the managed range. -/
theorem entry_lt (h : KernelTables L κ s) (hi : i < 0x1000) :
    entryAt kernelL1PageTable i + 4 ≤ L.start := by
  have hbelow := h.below
  unfold entryAt
  omega

theorem entry_owned (h : KernelTables L κ s) (hi : i < 0x1000) {x : ℕ}
    (hx : x < entryAt kernelL1PageTable i + 4) : Owned L κ x :=
  .inl (.inl (lt_of_lt_of_le hx (h.entry_lt hi)))

/-- Entries may change to anything that is not coarse, because nothing is then
behind them. -/
theorem write (h : KernelTables L κ s)
    (hout : ∀ x, kernelL1PageTable + 4 * 0x1000 ≤ x → m x = s.mem x)
    (hentry : ∀ i < 0x1000, kernelEntry m i = kernelEntry s.mem i ∨
      entryType (kernelEntry m i) ≠ 1) : KernelTables L κ (s.withMem m) where
  inv := by
    refine h.inv.of_outside fun i hi x hx _ => hout x ?_
    have hr := L.record_bounds i
    have hbelow := h.below
    unfold Layout.addr at hr
    omega
  below := h.below
  coarse i hi htype := by
    rcases hentry i hi with heq | hne
    · rw [PmmState.withMem_mem, heq] at htype ⊢
      exact h.coarse i hi htype
    · exact absurd htype hne

end KernelTables

/-! ### Mapping a kernel page

What was said of `vm2_allocate_page` in general, for this table and these
permissions.  Of the L1 table at most one entry changes. -/

/-- A kernel page has been mapped at `v`.  Of the L1 table only the entry for
`v` has changed, and it only if it was empty; of the L2 tables only the entry
for `v`, which was empty. -/
structure PageAdded (L : Layout) (κ : ℕ → SliceKind) (s : PmmState) (v : ℕ) (κ' : ℕ → SliceKind)
    (s' : PmmState) (page : ℕ) : Prop where
  tables : KernelTables L κ' s'
  fixed : SameFixed L κ κ'
  page_ne_zero : page ≠ 0
  entry : entryType (kernelEntry s'.mem (l1ptIndex v)) = 1
  other : ∀ i < 0x1000, kernelEntry s'.mem i = kernelEntry s.mem i ∨
    (i = l1ptIndex v ∧ entryType (kernelEntry s.mem i) = 0)
  mapped : l2Entry s'.mem (l2Table (kernelEntry s'.mem (l1ptIndex v))) (l2ptIndex v) ≠ 0
  kept : ∀ q, (⟨.slot .l2, q⟩ : Object) ∈ held L κ → ∀ j < 256,
    (l2Entry s'.mem q j = l2Entry s.mem q j ∨
      (l2Entry s.mem q j = 0 ∧ q = l2Table (kernelEntry s'.mem (l1ptIndex v)) ∧ j = l2ptIndex v))
  empty : entryType (kernelEntry s.mem (l1ptIndex v)) = 0 → ∀ j < 256, j ≠ l2ptIndex v →
    l2Entry s'.mem (l2Table (kernelEntry s'.mem (l1ptIndex v))) j = 0
  unmapped : entryType (kernelEntry s.mem (l1ptIndex v)) = 1 →
    l2Entry s.mem (l2Table (kernelEntry s.mem (l1ptIndex v))) (l2ptIndex v) = 0
  spare : ∀ n, Spare L κ (n + 2) → Spare L κ' n

/-- A page mapped through a table that was there or was just made: the entry
of its MiB is coarse, its own entry is not empty, and of the others none has
changed. -/
theorem PageAdded.of_mapped (h : KernelTables L κ s) (hv : l1ptIndex v < 0x1000) {s₁ : PmmState}
    {κ₁ : ℕ → SliceKind} {l2 : ℕ} {perms : PagePermission}
    (hready : TableReady L s κ (entryAt kernelL1PageTable (l1ptIndex v)) s₁ κ₁ l2)
    (hm : PageMapped L s₁ κ₁ l2 v perms s' κ' page)
    (hzero : readWord s₁.mem (entryAt l2 (l2ptIndex v)) = 0) :
    PageAdded L κ s v κ' s' page := by
  have hslot := h.slot hv
  have hinv₁ := hready.inv h.inv hslot
  have hl2 : (⟨.slot .l2, l2⟩ : Object) ∈ held L κ₁ := hready.mem (h.coarse _ hv)
  have hb := entryAt_bounds l2 v
  have hl2' := hinv₁.held_bounds hl2
  dsimp only [ObjectKind.size] at hl2'
  -- the page is mapped in the managed range, so the L1 table is as when the L2 table was ready
  have hentry : ∀ i < 0x1000, kernelEntry s'.mem i = kernelEntry s₁.mem i := by
    intro i hi
    refine hm.readWord_eq (fun x _ hx => (h.entry_owned hi hx).mono hready.subset) (.inl ?_)
    have := h.entry_lt hi
    omega
  have hother : ∀ i < 0x1000, i ≠ l1ptIndex v → kernelEntry s₁.mem i = kernelEntry s.mem i := by
    intro i hi hne
    refine readWord_congr fun x hx hx' => hready.owned (h.entry_owned hi hx') ?_
    unfold entryAt at *
    omega
  obtain ⟨hcoarse, htable⟩ := hready.entry
  have htable' : l2Table (kernelEntry s'.mem (l1ptIndex v)) = l2 := by
    rw [hentry _ hv]
    exact htable
  refine ⟨⟨hm.inv, h.below, fun i hi htype => ?_⟩, hready.fixed.trans hm.fixed, fun h0 => ?_, ?_,
    fun i hi => ?_, ?_, fun q hq j hj => ?_, fun h0 j hj hjv => ?_, fun htype => ?_,
    fun n hspare => ?_⟩
  · by_cases hiv : i = l1ptIndex v
    · subst hiv
      rw [htable']
      exact hm.subset hl2
    · rw [hentry i hi, hother i hi hiv] at htype ⊢
      exact hm.subset (hready.subset (h.coarse i hi htype))
  · have hheld : (⟨.slot .page, page⟩ : Object) ∈ held L κ' := by
      rw [hm.held_eq]
      exact Set.mem_insert _ _
    have hbounds := hm.inv.held_bounds hheld
    have hbelow := h.below
    dsimp only at hbounds
    omega
  · rw [hentry _ hv]
    exact hcoarse
  · by_cases hiv : i = l1ptIndex v
    · subst hiv
      cases hready with
      | found => exact .inl (hentry _ hv)
      | taken hempty => exact .inr ⟨rfl, hempty⟩
    · exact .inl ((hentry i hi).trans (hother i hi hiv))
  · rw [htable']
    exact fun h0 => smallpageEntry_ne_zero _ _ (hm.entry.symm.trans h0)
  · rw [htable']
    have hkept := hready.kept h.inv hslot hq hj
    by_cases htarget : q = l2 ∧ j = l2ptIndex v
    · refine .inr ⟨?_, htarget⟩
      rw [← hkept, htarget.1, htarget.2]
      exact hzero
    · refine .inl ((hm.l2Entry_eq hinv₁ (hready.subset hq) hl2 hj ?_).trans hkept)
      exact htarget
  · have hzeroed : l2Entry s₁.mem l2 j = 0 := by
      refine readWord_eq_zero fun x hx hx' => hready.zero hslot h0 ?_ ?_
      · unfold entryAt at hx
        omega
      · have hsize : SlotKind.l2.size = 1024 := rfl
        unfold entryAt at hx'
        omega
    rw [htable']
    exact (hm.l2Entry_eq hinv₁ hl2 hl2 hj fun htarget => hjv htarget.2).trans hzeroed
  · cases hready with
    | found => exact hzero
    | taken hempty =>
        rw [show kernelEntry s.mem (l1ptIndex v) = readWord s.mem _ from rfl, hempty] at htype
        cases htype
  · exact hm.spare (hready.spare hspare)

/-- No page is mapped where the entry maps a section. -/
theorem PageAdded.entryType_lt (h : PageAdded L κ s v κ' s' page) (hv : l1ptIndex v < 0x1000) :
    entryType (kernelEntry s.mem (l1ptIndex v)) < 2 := by
  rcases h.other _ hv with heq | ⟨-, h0⟩
  · rw [← heq, h.entry]
    decide
  · rw [h0]
    decide

/-- **What mapping a kernel page changes**, when it returns: nothing if the
entry for `v` maps a section, and otherwise what `PageAdded` says. -/
theorem allocateKernelPage_spec (h : KernelTables L κ s) (hv : v < 2 ^ 32)
    (hok : allocateKernelPage s v executable = .ok (s', page)) :
    (2 ≤ entryType (kernelEntry s.mem (l1ptIndex v)) ∧ s' = s ∧ page = 0) ∨
      ∃ κ', PageAdded L κ s v κ' s' page := by
  have hindex := l1ptIndex_lt hv
  unfold allocateKernelPage at hok
  obtain ⟨⟨s₁, page₁, created⟩, halloc, hok⟩ := Exec.bind_eq_ok.mp hok
  cases hok
  rcases vm2AllocatePage_spec h.inv (h.slot hindex) (h.coarse _ hindex) halloc with
    ⟨htype, hs, hpage, -⟩ | ⟨s₁, κ₁, l2, κ', hready, hmapped, hzero, -⟩
  · exact .inl ⟨htype, hs, hpage⟩
  · exact .inr ⟨κ', PageAdded.of_mapped h hindex hready hmapped (hzero rfl)⟩

/-- Mapping a kernel page returns when there is memory and nothing is mapped
at `v`.  Two slices are enough, one for the table and one for the page. -/
theorem allocateKernelPage_returns (h : KernelTables L κ s) (hv : v < 2 ^ 32)
    (hspare : Spare L κ 2) (hzero : entryType (kernelEntry s.mem (l1ptIndex v)) = 1 →
      l2Entry s.mem (l2Table (kernelEntry s.mem (l1ptIndex v))) (l2ptIndex v) = 0) :
    ∃ s' page, allocateKernelPage s v executable = .ok (s', page) := by
  have hindex := l1ptIndex_lt hv
  obtain ⟨⟨s', page, created⟩, hok⟩ : ∃ r, vm2AllocatePage s kernelL1PageTable v false
      ⟨.kernelRW, executable⟩ none = .ok r :=
    vm2AllocatePage_returns h.inv hspare (h.slot hindex) (h.coarse _ hindex) hzero
  unfold allocateKernelPage
  rw [hok, Exec.ok_bind]
  exact ⟨s', page, rfl⟩

end KernelSpace

end CourseOs
