import CourseOs.Vm.HeapMmio
import CourseOs.Vm.PmmTwinInit

/-!
# From the boot sequence on

`start` maps the chipset's peripherals while the kernel's table is still the
one `startup.s` has made (`BootTable`), maps physical memory, sets up the
physical memory manager, maps the page of the vectors and then the first pages
of the heap.  `start_regions` says that this establishes `Regions`, and
`start_returns` that it returns when there is memory for all of it.

Requests are then made in any order.  `heap_mmio_apart` is about every such
run: `expand` respects the other regions in all of them, and the next request
for a peripheral does exactly when it does not meet the heap.

Each part of the boot sequence has its own description of what there is so
far: `Early` while the only regions are peripherals, `Managed` once
`vm2_start` has returned, `Prepared` when the vectors and the heap are to be
set up.  The memory that `start` finds is any that meets `Bootable`, and
`startupMemory` is one.
-/

namespace CourseOs.KernelSpace

open ByteMemory Pmm

variable {L : Layout} {κ κ' : ℕ → SliceKind} {m m' mem : ByteMemory} {s s' s₀ : KernelSpace}
  {hw : HardwareInfo} {i n N r fuel limit kernelPmmBase detectedSize : ℕ}
  {requests : List (ℕ × ℕ)}

/-! ### Before there is a manager

Up to `vm2_start` there are no lists and no L2 tables.  Only the kernel's
table is written, and of the rest of memory it is enough to know that it stays
as it is. -/

/-- The table of `startup.s`: the first MiB of physical memory, at 0 and at
`KERNEL_VIRTUAL_OFFSET`. -/
def BootTable (m : ByteMemory) : Prop :=
  ∀ i < 0x1000, kernelEntry m i = if i = 0 ∨ i = 0x800 then sectionEntry 0 else 0

/-- The requests, taken together, fit above `KERNEL_HEAP_BASE`. -/
def Fit (requests : List (ℕ × ℕ)) (s : KernelSpace) : Prop :=
  kernelHeapBase + (requests.map Prod.snd).sum * mebibyte ≤ s.mmioCurrentTop

/-- The state while the only regions are peripherals, before there is a
manager.  Memory is as the assembly left it, except for the kernel's L1 table. -/
structure Early (mem : ByteMemory) (s : KernelSpace) : Prop where
  heapEnd_eq : s.heapEnd = kernelHeapBase
  top_aligned : s.mmioCurrentTop % mebibyte = 0
  top_ge : kernelHeapBase ≤ s.mmioCurrentTop
  top_le : s.mmioCurrentTop ≤ kernelMmioBase
  outside : ∀ x, (x < kernelL1PageTable ∨ kernelL1PageTable + 4 * 0x1000 ≤ x) →
    s.pmm.mem x = mem x
  mmio : ∀ i, MmioEntry s i → entryType (kernelEntry s.pmm.mem i) = 2
  kept : ∀ i < 0x1000, ¬MmioEntry s i → kernelEntry s.pmm.mem i = kernelEntry mem i

theorem Early.peripheral (h : Early mem s) (hm : PeripheralMapped s n s')
    (hge : kernelHeapBase ≤ s'.mmioCurrentTop) : Early mem s' := by
  have htop := hm.top_eq
  have hle := h.top_le
  refine ⟨hm.heapEnd_eq.trans h.heapEnd_eq, ?_, hge, by omega,
    fun x hx => (hm.outside x hx).trans (h.outside x hx), fun i hi => ?_, fun i hi hno => ?_⟩
  · have haligned := h.top_aligned
    unfold mebibyte at *
    omega
  · by_cases hold : s.mmioCurrentTop ≤ i * mebibyte
    · have hlt : i < 0x1000 := by
        have hi := hi.2
        unfold kernelMmioBase mebibyte at hi
        omega
      rw [hm.kept i hlt (.inr hold)]
      exact h.mmio i ⟨hold, hi.2⟩
    · exact hm.written i hi.1 (not_le.mp hold)
  · unfold MmioEntry at hno
    rw [hm.kept i hi (by omega)]
    refine h.kept i hi fun hold => hno ⟨?_, hold.2⟩
    have := hold.1
    omega

/-- The chipset's requests, made one after the other. -/
theorem Early.peripherals (h : Early mem s) (hfit : Fit requests s) :
    Early mem (mapPeripherals requests s) ∧ (mapPeripherals requests s).mmioCurrentTop +
      (requests.map Prod.snd).sum * mebibyte = s.mmioCurrentTop := by
  induction requests generalizing s with
  | nil => exact ⟨h, Nat.add_zero _⟩
  | cons request requests ih =>
      unfold Fit at hfit
      rw [List.map_cons, List.sum_cons, Nat.add_mul] at hfit ⊢
      have hm : PeripheralMapped s request.2 (mapPeripheral s request.1 request.2).1 :=
        mapPeripheral_mapped h.top_le h.top_aligned (by omega)
      show Early mem
          (KernelSpace.mapPeripherals requests (mapPeripheral s request.1 request.2).1) ∧
        (KernelSpace.mapPeripherals requests
          (mapPeripheral s request.1 request.2).1).mmioCurrentTop + _ = _
      generalize (mapPeripheral s request.1 request.2).1 = s₁ at hm ⊢
      have htop := hm.top_eq
      rw [← htop, Nat.add_comm (request.2 * mebibyte), ← Nat.add_assoc] at hfit
      have hfit' : Fit requests s₁ := Nat.le_of_add_le_add_right hfit
      obtain ⟨hearly, hsum⟩ := ih (h.peripheral hm (le_trans (Nat.le_add_right _ _) hfit')) hfit'
      refine ⟨hearly, ?_⟩
      rw [Nat.add_comm (request.2 * mebibyte), ← Nat.add_assoc, hsum, htop]

/-- The static variables and the table before the first request. -/
theorem early_boot (mem : ByteMemory) :
    Early mem ⟨⟨mem, ⟨0, 0, 0, 0, 0, 0⟩⟩, kernelHeapBase, kernelMmioBase⟩ where
  heapEnd_eq := rfl
  top_aligned := (by decide : kernelMmioBase % mebibyte = 0)
  top_ge := (by decide : kernelHeapBase ≤ kernelMmioBase)
  top_le := le_refl _
  outside _ _ := rfl
  mmio _ hi := absurd (hi.1.trans_lt hi.2) (lt_irrefl _)
  kept _ _ _ := rfl

/-! ### `vm2_start`

Physical memory is mapped first and the manager set up in it then.  `pmm_init`
writes inside its range only, so that the table is as it was left. -/

/-- Physical memory is mapped below the heap, by sections, and the other
entries stay. -/
theorem mapRamLoop_spec (hle : kernelVirtualOffset + i + n * mebibyte ≤ kernelHeapBase) :
    ∃ m', mapRamLoop n i m = .ok m' ∧
      (∀ x, (x < kernelL1PageTable ∨ kernelL1PageTable + 4 * 0x1000 ≤ x) → m' x = m x) ∧
      ∀ j, kernelEntry m' j = kernelEntry m j ∨
        (j * mebibyte < kernelHeapBase ∧ entryType (kernelEntry m' j) = 2) := by
  induction n generalizing i m with
  | zero => exact ⟨m, rfl, fun _ _ => rfl, fun _ => .inl rfl⟩
  | succ n ih =>
      rw [Nat.succ_mul] at hle
      have hindex : l1ptIndex (kernelVirtualOffset + i) * mebibyte < kernelHeapBase ∧
          l1ptIndex (kernelVirtualOffset + i) < 0x1000 := by
        unfold l1ptIndex kernelHeapBase mebibyte at *
        omega
      obtain ⟨m', hok, hout, hentry⟩ := @ih (writeWord m
        (entryAt kernelL1PageTable (l1ptIndex (kernelVirtualOffset + i)))
        (sectionEntry (l1ptBaseAddress i))) (i + mebibyte) (by omega)
      unfold mapRamLoop vm2L1MapPhysicalToVirtual
      dsimp only
      rw [if_neg (by simp), Exec.ok_bind]
      refine ⟨m', hok, fun x hx => (hout x hx).trans (writeWord_apply_of_notMem ?_), fun j => ?_⟩
      · unfold entryAt
        omega
      · rcases hentry j with heq | hsection
        · rw [heq, kernelEntry_writeWord (sectionEntry_lt _)]
          by_cases hj : j = l1ptIndex (kernelVirtualOffset + i)
          · rw [if_pos hj]
            exact .inr ⟨hj ▸ hindex.1, entryType_sectionEntry _⟩
          · rw [if_neg hj]
            exact .inl rfl
        · exact .inr hsection

/-- `pmm_init` writes into the range it manages, and nowhere else. -/
theorem pmmInit_outside (hR : ManagedRange hw kernelPmmBase N r) (hN : 0 < N) {p : PmmState}
    (hinit : pmmInit hw m kernelPmmBase (kernelPmmBase + sliceSize * N) = .ok p) {x : ℕ}
    (hx : x < kernelPmmBase) : p.mem x = m x := by
  obtain ⟨s₂, b, B, -, hinv, hall⟩ := pmmInit_twin hR.sliceRange hN hR.supplied
  obtain ⟨s₁, hinit₁, htwin⟩ := hall m
  rw [hinit] at hinit₁
  cases hinit₁
  refine htwin.outside x fun i hi => .inl (lt_of_lt_of_le hx ?_)
  have hb := Layout.record_bounds ⟨kernelPmmBase, N, B⟩ i
  exact le_trans (Nat.le_add_right _ _) hb.1

/-- What is set up when `vm2_start` returns: the manager, with all slices in
its lists, and physical memory mapped.  Nothing is handed out yet. -/
structure Managed (hw : HardwareInfo) (r : ℕ) (L : Layout) (κ : ℕ → SliceKind) (m : ByteMemory)
    (p : PmmState) : Prop where
  inv : PmmInv L p κ
  nothing : held L κ = ∅
  entry : ∀ i < 0x1000, kernelEntry p.mem i = kernelEntry m i ∨
    (i * mebibyte < kernelHeapBase ∧ entryType (kernelEntry p.mem i) ≠ 1)
  /-- In a single bucket, what is not reserved is usable, but for the first slice. -/
  usable : L.slices < sliceinfoPerSlice → r ≤ L.slices → r - 1 ≤ (usableSlices L κ).card

/-- `vm2_start` returns, and the manager it leaves has nothing handed out.
The sections of physical memory are written before the manager is initialised,
and lie below all that it manages. -/
theorem vm2Start_spec (hR : ManagedRange hw kernelPmmBase N r) (hN : 0 < N)
    (hsize : kernelVirtualOffset + detectedSize = kernelPmmBase + sliceSize * N)
    (hbase : kernelL1PageTable + 4 * 0x1000 ≤ kernelPmmBase)
    (hzero : ∀ x, kernelPmmBase ≤ x → x < kernelPmmBase + sliceSize * N → m x = 0) :
    ∃ p L κ, vm2Start hw kernelPmmBase detectedSize m = .ok p ∧ L.start = kernelPmmBase ∧
      L.slices = N ∧ Managed hw r L κ m p := by
  obtain ⟨m', hram, hout, hentry⟩ := mapRamLoop_spec (n := 1024) (i := 0)
    (m := writeWord m (entryAt kernelL1PageTable 0) 0) (by decide)
  have hout' : ∀ x, kernelPmmBase ≤ x → m' x = m x := by
    intro x hx
    refine (hout x (.inr (hbase.trans hx))).trans (writeWord_apply_of_notMem ?_)
    unfold entryAt
    omega
  have hzero' : ∀ x, kernelPmmBase ≤ x → x < kernelPmmBase + sliceSize * N → m' x = 0 :=
    fun x hx hx' => (hout' x hx).trans (hzero x hx hx')
  obtain ⟨p, b, B, hinit, hinv⟩ := pmmInit_spec hR hN hzero'
  have hacc := Accounted.of_init hR hinv
  refine ⟨p, _, _, ?_, rfl, rfl, hacc.inv, ?_, fun i hi => ?_,
    fun hN512 hr => usableSlices_init hR hinv hN512 hr⟩
  · unfold vm2Start
    dsimp only
    rw [hram, Exec.ok_bind, hsize, Nat.mod_eq_of_lt hR.bounded]
    exact hinit
  · ext o
    rw [← hacc.mem_iff]
    exact iff_of_false List.not_mem_nil (Set.notMem_empty o)
  · have hsame : kernelEntry p.mem i = kernelEntry m' i := by
      refine readWord_congr fun x hx hx' => pmmInit_outside hR hN hinit ?_
      unfold entryAt at hx'
      omega
    rw [hsame]
    rcases hentry i with heq | ⟨hlt, htype⟩
    · rw [heq, kernelEntry_writeWord (by decide)]
      by_cases h0 : i = 0
      · rw [if_pos h0]
        exact .inr ⟨by rw [h0]; decide, by decide⟩
      · rw [if_neg h0]
        exact .inl rfl
    · exact .inr ⟨hlt, by rw [htype]; decide⟩

/-! ### The vectors and the heap

The page of the vectors comes first, and lies above everything else.  It
completes the invariant of the regions, with a heap that is still empty, and
the loop of `init_heap` then keeps it. -/

/-- The state when the vectors and the heap are to be set up: sections for
peripherals and for physical memory, and nothing else. -/
structure Prepared (L : Layout) (κ : ℕ → SliceKind) (s : KernelSpace) : Prop where
  tables : KernelTables L κ s.pmm
  heapEnd_eq : s.heapEnd = kernelHeapBase
  top_aligned : s.mmioCurrentTop % mebibyte = 0
  top_ge : kernelHeapBase ≤ s.mmioCurrentTop
  top_le : s.mmioCurrentTop ≤ kernelMmioBase
  mmio : ∀ i, MmioEntry s i → entryType (kernelEntry s.pmm.mem i) = 2
  empty : ∀ i < 0x1000, kernelHeapBase ≤ i * mebibyte → ¬MmioEntry s i →
    kernelEntry s.pmm.mem i = 0

/-- What was true before physical memory was mapped and the manager
initialised is true after it, of all entries above physical memory. -/
theorem Early.prepared (h : Early mem s) (htable : BootTable mem) {p : PmmState}
    (hbase : kernelL1PageTable + 4 * 0x1000 ≤ L.start) (hm : Managed hw r L κ s.pmm.mem p) :
    Prepared L κ { s with pmm := p } := by
  -- above physical memory there are only the sections of peripherals
  have hkept : ∀ i < 0x1000, kernelHeapBase ≤ i * mebibyte →
      kernelEntry p.mem i = kernelEntry s.pmm.mem i :=
    fun i hi hge => (hm.entry i hi).resolve_right fun hlt => absurd hge (not_le.mpr hlt.1)
  have htype : ∀ i < 0x1000, entryType (kernelEntry s.pmm.mem i) ≠ 1 := by
    intro i hi
    by_cases hmmio : MmioEntry s i
    · rw [h.mmio i hmmio]
      decide
    · rw [h.kept i hi hmmio, htable i hi]
      split <;> decide
  refine ⟨⟨hm.inv, hbase, fun i hi hcoarse => ?_⟩, h.heapEnd_eq, h.top_aligned, h.top_ge, h.top_le,
    fun i hi => ?_, fun i hi hge hno => ?_⟩
  · rcases hm.entry i hi with heq | hne
    · exact absurd (heq ▸ hcoarse) (htype i hi)
    · exact absurd hcoarse hne.2
  · have hge := h.top_ge.trans hi.1
    have hlt : i < 0x1000 := by
      have hi := hi.2
      unfold kernelMmioBase mebibyte at hi
      omega
    exact (congrArg entryType (hkept i hlt hge)).trans (h.mmio i hi)
  · refine (hkept i hi hge).trans ((h.kept i hi hno).trans ((htable i hi).trans (if_neg ?_)))
    unfold kernelHeapBase mebibyte at hge
    omega

namespace Prepared

theorem last (h : Prepared L κ s) : kernelEntry s.pmm.mem (l1ptIndex highVectorLocation) = 0 := by
  refine h.empty _ (by decide) (by decide) fun hmmio => absurd hmmio.2 ?_
  decide

/-- The page of the vectors completes the invariant: the heap is still empty,
and what it says of the heap's last entry is about an entry that is empty or a
peripheral's. -/
theorem regions (h : Prepared L κ s) {p : PmmState} {page : ℕ}
    (hp : PageAdded L κ s.pmm highVectorLocation κ' p page) :
    Regions L κ' { s with pmm := p } := by
  have hother : ∀ i < 0x1000, i * mebibyte < kernelMmioBase →
      kernelEntry p.mem i = kernelEntry s.pmm.mem i := by
    intro i hi hlt
    refine (hp.other i hi).resolve_right fun ⟨heq, _⟩ => ?_
    rw [heq] at hlt
    exact absurd hlt (by decide)
  have hi_of_lt : ∀ i, i * mebibyte < kernelMmioBase → i < 0x1000 := by
    intro i hi
    unfold kernelMmioBase mebibyte at hi
    omega
  have hbetween : ∀ i, kernelHeapBase ≤ i * mebibyte → i * mebibyte < s.mmioCurrentTop →
      kernelEntry p.mem i = 0 := by
    intro i hge hlt
    have hlt' := lt_of_lt_of_le hlt h.top_le
    rw [hother i (hi_of_lt i hlt') hlt']
    exact h.empty i (hi_of_lt i hlt') hge fun hmmio => absurd hmmio.1 (not_le.mpr hlt)
  have hmmio : ∀ i, MmioEntry s i → entryType (kernelEntry p.mem i) = 2 := by
    intro i hi
    rw [hother i (hi_of_lt i hi.2) hi.2]
    exact h.mmio i hi
  have hend := h.heapEnd_eq
  refine ⟨hp.tables, ?_, hend.ge, ?_, h.top_aligned, h.top_ge, h.top_le, fun i hi => ?_, hmmio,
    ⟨hp.entry, hp.mapped⟩, fun i hge hlt => hbetween i (hend ▸ hge) hlt, fun _ htype => ?_⟩
  · rw [hend]
    decide
  · rw [hend]
    decide
  · exact absurd (hi.1.trans_lt (lt_of_lt_of_eq hi.2 hend)) (lt_irrefl _)
  · exfalso
    dsimp only at htype
    rw [hend] at htype
    by_cases htop : s.mmioCurrentTop ≤ kernelHeapBase
    · rw [hmmio _ ⟨htop.trans (by decide), by decide⟩] at htype
      cases htype
    · rw [hbetween _ (by decide) (lt_of_le_of_lt (by decide) (not_le.mp htop))] at htype
      cases htype

end Prepared

theorem initVectorTable_spec (h : Prepared L κ s) (hok : initVectorTable s = .ok s') :
    ∃ κ', Regions L κ' s' ∧ s'.heapEnd = kernelHeapBase ∧ s'.mmioCurrentTop = s.mmioCurrentTop ∧
      ∀ n, Spare L κ (n + 2) → Spare L κ' n := by
  unfold initVectorTable at hok
  obtain ⟨⟨p, page⟩, halloc, hok⟩ := Exec.bind_eq_ok.mp hok
  cases hok
  rcases allocateKernelPage_spec h.tables (by decide) halloc with ⟨htype, -⟩ | ⟨κ', hp⟩
  · rw [h.last] at htype
    exact absurd htype (by decide)
  · exact ⟨κ', h.regions hp, h.heapEnd_eq, rfl, hp.spare⟩

theorem initVectorTable_returns (h : Prepared L κ s) (hspare : Spare L κ 2) :
    ∃ s', initVectorTable s = .ok s' := by
  obtain ⟨p, page, halloc⟩ := allocateKernelPage_returns (v := highVectorLocation) h.tables
    (by decide) hspare fun htype => by rw [h.last] at htype; cases htype
  unfold initVectorTable
  rw [halloc, Exec.ok_bind]
  exact ⟨_, rfl⟩

/-- Below the peripherals there is an entry for the next page of the heap,
which is empty or coarse, and never a section. -/
theorem Regions.nextPage (h : Regions L κ s) (hspare : Spare L κ 2)
    (hlt : s.heapEnd < s.mmioCurrentTop) :
    ∃ p page κ', allocateKernelPage s.pmm s.heapEnd false = .ok (p, page) ∧
      PageAdded L κ s.pmm s.heapEnd κ' p page := by
  have hle := h.top_le
  have htype : entryType (kernelEntry s.pmm.mem (l1ptIndex s.heapEnd)) < 2 := by
    have hge := h.heapEnd_ge
    by_cases hin : l1ptIndex s.heapEnd * mebibyte < s.heapEnd
    · have hbase : kernelHeapBase ≤ l1ptIndex s.heapEnd * mebibyte := by
        unfold l1ptIndex kernelHeapBase mebibyte at *
        omega
      rw [h.heap _ ⟨hbase, hin⟩]
      decide
    · have hmul : l1ptIndex s.heapEnd * mebibyte ≤ s.heapEnd := Nat.div_mul_le_self _ (2 ^ 20)
      rw [h.between _ (not_lt.mp hin) (lt_of_le_of_lt hmul hlt)]
      decide
  obtain ⟨p, page, halloc⟩ := allocateKernelPage_returns h.tables h.heapEnd_lt hspare fun hcoarse =>
    h.rest (lt_of_lt_of_le hlt hle) hcoarse _ (l2ptIndex_lt _) (le_refl _)
  rcases allocateKernelPage_spec h.tables h.heapEnd_lt halloc with ⟨hge, -⟩ | ⟨κ', hp⟩
  · exact absurd htype (not_lt.mpr hge)
  · exact ⟨p, page, κ', halloc, hp⟩

/-- The heap grows page by page up to `limit`. -/
theorem initHeapLoop_spec (h : Regions L κ s) (haligned : limit % pageSize = 0)
    (hlimit : limit ≤ highVectorLocation) (hle : s.heapEnd ≤ limit)
    (hok : initHeapLoop limit fuel s = .ok s') : ∃ κ', Regions L κ' s' ∧ s'.heapEnd = limit := by
  induction fuel generalizing s κ with
  | zero => cases hok
  | succ fuel ih =>
      unfold initHeapLoop at hok
      by_cases hlt : s.heapEnd < limit
      · rw [if_pos hlt] at hok
        obtain ⟨⟨p, page⟩, halloc, hok⟩ := Exec.bind_eq_ok.mp hok
        rcases allocateKernelPage_spec h.tables h.heapEnd_lt halloc with ⟨-, -, rfl⟩ | ⟨κ', hp⟩
        · cases hok
        · dsimp only at hok
          rw [if_neg hp.page_ne_zero] at hok
          refine ih (h.grow hp (lt_of_lt_of_le hlt hlimit)) ?_ hok
          have := h.heapEnd_aligned
          dsimp only
          unfold pageSize at *
          omega
      · rw [if_neg hlt] at hok
        cases hok
        exact ⟨κ, h, le_antisymm hle (not_lt.mp hlt)⟩

/-- The loop of `init_heap` returns where there are two slices for each page
that is left; the induction is on these pages. -/
theorem initHeapLoop_returns (h : Regions L κ s) (hspare : Spare L κ (2 * n))
    (hlimit : s.heapEnd + n * pageSize = limit) (hle : limit ≤ s.mmioCurrentTop) (hn : n < fuel) :
    ∃ s', initHeapLoop limit fuel s = .ok s' ∧ s'.mmioCurrentTop = s.mmioCurrentTop := by
  induction n generalizing s κ fuel with
  | zero =>
      obtain ⟨fuel, rfl⟩ := Nat.exists_eq_succ_of_ne_zero hn.ne'
      unfold initHeapLoop
      rw [if_neg (by omega)]
      exact ⟨s, rfl, rfl⟩
  | succ n ih =>
      obtain ⟨fuel, rfl⟩ := Nat.exists_eq_succ_of_ne_zero (Nat.ne_zero_of_lt hn)
      rw [Nat.succ_mul] at hlimit
      have hlt : s.heapEnd < limit := by
        unfold pageSize at hlimit
        omega
      obtain ⟨p, page, κ', halloc, hp⟩ := h.nextPage (hspare.mono (by omega))
        (lt_of_lt_of_le hlt hle)
      unfold initHeapLoop
      rw [if_pos hlt, halloc, Exec.ok_bind]
      dsimp only
      rw [if_neg hp.page_ne_zero]
      refine ih (h.grow hp (h.heapEnd_lt_vectors hp)) (hp.spare _ hspare) ?_ hle
        (Nat.lt_of_succ_lt_succ hn)
      dsimp only
      omega

theorem heapStart_eq : heapStart = kernelHeapBase + pageSize := by decide

theorem initHeap_spec (h : Regions L κ s) (hempty : s.heapEnd = kernelHeapBase)
    (hok : initHeap s = .ok s') :
    ∃ κ', Regions L κ' s' ∧ s'.heapEnd = heapStart + Heap.heapInitSize := by
  unfold initHeap at hok
  obtain ⟨⟨p, ret⟩, halloc, hok⟩ := Exec.bind_eq_ok.mp hok
  rw [← hempty] at halloc
  rcases allocateKernelPage_spec h.tables h.heapEnd_lt halloc with ⟨-, -, rfl⟩ | ⟨κ', hp⟩
  · cases hok
  · dsimp only at hok
    rw [if_neg hp.page_ne_zero] at hok
    obtain ⟨s₁, hloop, hok⟩ := Exec.bind_eq_ok.mp hok
    have hgrown := h.grow hp (by rw [hempty]; decide)
    rw [hempty, ← heapStart_eq] at hgrown
    have haligned : (heapStart + Heap.heapInitSize) % pageSize = 0 := by decide
    have hlimit : heapStart + Heap.heapInitSize ≤ highVectorLocation := by decide
    obtain ⟨κ'', hregions, hend⟩ := initHeapLoop_spec hgrown haligned hlimit
      (Nat.le_add_right _ _) hloop
    cases hok
    rw [← hend]
    exact ⟨κ'', hregions, rfl⟩

/-- Seventeen pages and the L2 tables for them are enough for the heap: one
for `heap_t` and its bins, and sixteen for the blocks. -/
theorem initHeap_returns (h : Regions L κ s) (hempty : s.heapEnd = kernelHeapBase)
    (hspare : Spare L κ 34) (htop : heapStart + Heap.heapInitSize ≤ s.mmioCurrentTop) :
    ∃ s', initHeap s = .ok s' ∧ s'.heapEnd = heapStart + Heap.heapInitSize ∧
      s'.mmioCurrentTop = s.mmioCurrentTop := by
  obtain ⟨p, ret, κ', halloc, hp⟩ := h.nextPage (hspare.mono (by decide))
    (lt_of_lt_of_le (by rw [hempty]; decide) htop)
  have hgrown := h.grow hp (h.heapEnd_lt_vectors hp)
  rw [hempty] at halloc hgrown
  rw [← heapStart_eq] at hgrown
  have hlimit : heapStart + 16 * pageSize = heapStart + Heap.heapInitSize := rfl
  obtain ⟨s', hloop, htop'⟩ := initHeapLoop_returns hgrown (hp.spare 32 hspare) hlimit htop
    (by decide : 16 < 2 ^ 32 / pageSize)
  unfold initHeap
  rw [halloc, Exec.ok_bind]
  dsimp only
  rw [if_neg hp.page_ne_zero]
  rw [hloop, Exec.ok_bind]
  exact ⟨_, rfl, rfl, htop'⟩

/-- What the boot sequence finds: the table of `startup.s`, a range for the
manager above it whose memory is zero, and requests of the chipset that fit. -/
structure Bootable (hw : HardwareInfo) (requests : List (ℕ × ℕ)) (kernelPmmBase N r : ℕ)
    (mem : ByteMemory) : Prop where
  table : BootTable mem
  range : ManagedRange hw kernelPmmBase N r
  pos : 0 < N
  base : kernelL1PageTable + 4 * 0x1000 ≤ kernelPmmBase
  zero : ∀ x, kernelPmmBase ≤ x → x < kernelPmmBase + sliceSize * N → mem x = 0
  fit : kernelHeapBase + (requests.map Prod.snd).sum * mebibyte ≤ kernelMmioBase

/-- What `start` has done when it comes to the vectors.  Nothing is handed out
yet, and the peripherals have taken as much space as was asked for. -/
theorem start_prepared (h : Bootable hw requests kernelPmmBase N r mem)
    (hsize : kernelVirtualOffset + detectedSize = kernelPmmBase + sliceSize * N) :
    ∃ s L κ, start hw requests kernelPmmBase detectedSize mem =
        (initVectorTable s >>= fun s => initHeap s) ∧ Prepared L κ s ∧ held L κ = ∅ ∧
      L.slices = N ∧ (N < sliceinfoPerSlice → r ≤ N → r - 1 ≤ (usableSlices L κ).card) ∧
      s.mmioCurrentTop + (requests.map Prod.snd).sum * mebibyte = kernelMmioBase := by
  obtain ⟨hearly, htop⟩ := (early_boot mem).peripherals h.fit
  obtain ⟨p, L, κ, hstart, hL, hN, hm⟩ := vm2Start_spec h.range h.pos hsize h.base
    fun x hx hx' => (hearly.outside x (.inr (h.base.trans hx))).trans (h.zero x hx hx')
  refine ⟨_, L, κ, ?_, hearly.prepared h.table (hL ▸ h.base) hm, hm.nothing, hN, ?_, htop⟩
  · unfold start
    dsimp only
    rw [hstart, Exec.ok_bind]
  · rw [← hN]
    exact hm.usable

/-- **The boot sequence establishes the invariant**, if it returns, and the
heap is not empty then. -/
theorem start_regions (h : Bootable hw requests kernelPmmBase N r mem)
    (hsize : kernelVirtualOffset + detectedSize = kernelPmmBase + sliceSize * N)
    (hok : start hw requests kernelPmmBase detectedSize mem = .ok s) :
    ∃ L κ, Regions L κ s ∧ kernelHeapBase < s.heapEnd := by
  obtain ⟨s₀, L, κ, hstart, hprep, -⟩ := start_prepared h hsize
  rw [hstart] at hok
  obtain ⟨s₁, hvectors, hheap⟩ := Exec.bind_eq_ok.mp hok
  obtain ⟨κ₁, hregions, hempty, -⟩ := initVectorTable_spec hprep hvectors
  obtain ⟨κ₂, hregions', hend⟩ := initHeap_spec hregions hempty hheap
  refine ⟨L, κ₂, hregions', ?_⟩
  rw [hend]
  decide

/-- The boot sequence returns when there is memory for all it maps: the page
of the vectors, the seventeen pages of the heap, and the L2 tables for them. -/
theorem start_returns (h : Bootable hw requests kernelPmmBase N r mem)
    (hsize : kernelVirtualOffset + detectedSize = kernelPmmBase + sliceSize * N)
    (hN : N < sliceinfoPerSlice) (hr : r ≤ N) (henough : 37 ≤ r)
    (hfit : heapStart + Heap.heapInitSize + (requests.map Prod.snd).sum * mebibyte ≤
      kernelMmioBase) :
    ∃ s, start hw requests kernelPmmBase detectedSize mem = .ok s ∧
      s.heapEnd = heapStart + Heap.heapInitSize ∧
      s.mmioCurrentTop + (requests.map Prod.snd).sum * mebibyte = kernelMmioBase := by
  obtain ⟨s₀, L, κ, hstart, hprep, hnothing, -, husable, htop⟩ := start_prepared h hsize
  have hspare : Spare L κ 36 :=
    .of_nothing hnothing (le_trans (Nat.le_sub_one_of_lt henough) (husable hN hr))
  obtain ⟨s₁, hvectors⟩ := initVectorTable_returns hprep (hspare.mono (by decide))
  obtain ⟨κ₁, hregions, hempty, htop₁, hspare₁⟩ := initVectorTable_spec hprep hvectors
  rw [← htop₁] at htop
  obtain ⟨s₂, hheap, hend, htop₂⟩ := initHeap_returns hregions hempty (hspare₁ 34 hspare)
    (Nat.le_of_add_le_add_right (htop.symm ▸ hfit))
  refine ⟨s₂, ?_, hend, htop₂ ▸ htop⟩
  rw [hstart, hvectors]
  exact hheap

/-! ### Requests in any order

From here on requests for the heap and for peripherals may come in any order.
The invariant is that of the regions together with a heap that is not empty;
the latter is what makes a request that meets the heap do damage. -/

/-- One request: the heap asks for a page, or a peripheral is mapped that does
not meet the heap. -/
inductive Request : KernelSpace → KernelSpace → Prop
  | expand {s s' : KernelSpace} {r : ℕ} (h : expand s = .ok (s', r)) : Request s s'
  | mapPeripheral {s : KernelSpace} (physical n : ℕ) (h : ¬Meets s n) :
      Request s (mapPeripheral s physical n).1

theorem Regions.request (h : Regions L κ s) (hpos : kernelHeapBase < s.heapEnd)
    (hstep : Request s s') : ∃ κ', Regions L κ' s' ∧ kernelHeapBase < s'.heapEnd := by
  cases hstep with
  | expand hok =>
      rcases expand_spec h hok with ⟨-, rfl, -⟩ | ⟨-, κ', hregions, hend, -⟩
      · exact ⟨κ, h, hpos⟩
      · exact ⟨κ', hregions, by rw [hend]; exact lt_of_lt_of_le hpos (Nat.le_add_right _ _)⟩
  | mapPeripheral physical n hno => exact ⟨κ, h.peripheral hno physical, hpos⟩

/-- **The heap and the peripherals.**  In every run after the boot sequence
whose requests for peripherals do not meet the heap, `expand` respects the
other regions, and where the heap has come to the peripherals it returns that
it is refused, with nothing changed.  The next request for a peripheral
respects the others exactly when it does not meet the heap. -/
theorem heap_mmio_apart (h : Bootable hw requests kernelPmmBase N r mem)
    (hsize : kernelVirtualOffset + detectedSize = kernelPmmBase + sliceSize * N)
    (hstart : start hw requests kernelPmmBase detectedSize mem = .ok s₀)
    (hrun : Relation.ReflTransGen Request s₀ s) :
    (∀ s' r, expand s = .ok (s', r) → ExpandRespects s s' r) ∧
      (MmioEntry s (l1ptIndex s.heapEnd) → expand s = .ok (s, 0)) ∧
      ∀ physical n, PeripheralRespects s n (mapPeripheral s physical n).1 ↔ ¬Meets s n := by
  obtain ⟨L, κ₀, hregions₀, hpos₀⟩ := start_regions h hsize hstart
  obtain ⟨κ, hregions, hpos⟩ : ∃ κ, Regions L κ s ∧ kernelHeapBase < s.heapEnd := by
    refine Runs.invariant (I := fun s => ∃ κ, Regions L κ s ∧ kernelHeapBase < s.heapEnd)
      ?_ hrun ⟨κ₀, hregions₀, hpos₀⟩
    rintro s s' ⟨κ, hregions, hpos⟩ hstep
    exact hregions.request hpos hstep
  exact ⟨fun s' r => expand_respects hregions, hregions.expand_refused,
    fun physical n => mapPeripheral_respects_iff hregions hpos physical⟩

/-! ### A board

Numbers for a concrete board, on which the boot sequence returns and leaves a
heap of seventeen pages. -/

/-- The memory `startup.s` leaves when it was zero before. -/
def startupMemory : ByteMemory :=
  writeWord (writeWord ⟨fun _ => 0⟩ (entryAt kernelL1PageTable 0) (sectionEntry 0))
    (entryAt kernelL1PageTable 0x800) (sectionEntry 0)

theorem bootTable_startupMemory : BootTable startupMemory := by
  intro i _
  have hzero : kernelEntry ⟨fun _ => 0⟩ i = 0 := readWord_eq_zero fun _ _ _ => rfl
  unfold startupMemory
  rw [kernelEntry_writeWord (sectionEntry_lt _), kernelEntry_writeWord (sectionEntry_lt _), hzero]
  by_cases h800 : i = 0x800
  · rw [if_pos h800, if_pos (.inr h800)]
  · by_cases h0 : i = 0
    · rw [if_neg h800, if_pos h0, if_pos (.inl h0)]
    · rw [if_neg h800, if_neg h0, if_neg (not_or.mpr ⟨h0, h800⟩)]

/-- 512 KiB of memory above a kernel of 2 MiB, on the board the kernel runs
on. -/
theorem bootable_board :
    Bootable ⟨0x3F000000, 0x1500000⟩ [(0x40000000, 4), (0x3F000000, 16)] 0x80200000 64 64
      startupMemory where
  table := bootTable_startupMemory
  range := ⟨by decide, by decide, by decide, by decide, by decide⟩
  pos := by decide
  base := by decide
  zero x hx _ := by
    have hlt : entryAt kernelL1PageTable 0x800 + 4 ≤ 0x80200000 := by decide
    have hlt' : entryAt kernelL1PageTable 0 + 4 ≤ 0x80200000 := by decide
    exact (writeWord_apply_of_notMem (.inr (hlt.trans hx))).trans
      (writeWord_apply_of_notMem (.inr (hlt'.trans hx)))
  fit := by decide

theorem start_board :
    ∃ s, start ⟨0x3F000000, 0x1500000⟩ [(0x40000000, 4), (0x3F000000, 16)] 0x80200000 0x280000
        startupMemory = .ok s ∧
      s.heapEnd = 0xC0011000 ∧ s.mmioCurrentTop = 0xFEB00000 := by
  have hsize : kernelVirtualOffset + 0x280000 = 0x80200000 + sliceSize * 64 := by decide
  obtain ⟨s, hok, hend, htop⟩ := start_returns bootable_board hsize (by decide) (by decide)
    (by decide) (by decide)
  exact ⟨s, hok, hend, Nat.add_right_cancel (htop.trans
    (by decide : kernelMmioBase = 0xFEB00000 + 20 * mebibyte))⟩

theorem heap_mmio_apart_board :
    ∃ s, start ⟨0x3F000000, 0x1500000⟩ [(0x40000000, 4), (0x3F000000, 16)] 0x80200000 0x280000
        startupMemory = .ok s ∧
      (∀ s' r, expand s = .ok (s', r) → ExpandRespects s s' r) ∧
      (MmioEntry s (l1ptIndex s.heapEnd) → expand s = .ok (s, 0)) ∧
      ∀ physical n, PeripheralRespects s n (mapPeripheral s physical n).1 ↔ ¬Meets s n := by
  obtain ⟨s, hok, -⟩ := start_board
  exact ⟨s, hok, heap_mmio_apart bootable_board (by decide) hok Relation.ReflTransGen.refl⟩

/-- A peripheral of 1003 MiB is mapped over the first MiB of the heap, whose
entry was coarse and is a section then. -/
theorem peripheral_over_heap :
    ∃ s, start ⟨0x3F000000, 0x1500000⟩ [(0x40000000, 4), (0x3F000000, 16)] 0x80200000 0x280000
        startupMemory = .ok s ∧
      HeapEntry s 0xC00 ∧ entryType (kernelEntry s.pmm.mem 0xC00) = 1 ∧
      entryType (kernelEntry (mapPeripheral s 0x3F000000 0x3EB).1.pmm.mem 0xC00) = 2 ∧
      ¬PeripheralRespects s 0x3EB (mapPeripheral s 0x3F000000 0x3EB).1 := by
  obtain ⟨s, hok, hend, htop⟩ := start_board
  obtain ⟨L, κ, hregions, hpos⟩ := start_regions bootable_board (by decide) hok
  have hheap : HeapEntry s 0xC00 := ⟨by decide, by rw [hend]; decide⟩
  refine ⟨s, hok, hheap, hregions.heap _ hheap, ?_, ?_⟩
  · rcases mapPeripheral_entry 0x3EB 0x3F000000 hregions.top_lt hregions.top_aligned
      (by decide : 0xC00 < 0x1000) with ⟨hno, -⟩ | ⟨-, htype⟩
    · refine absurd ⟨0x3EB, by decide, le_refl _, ?_⟩ hno
      rw [htop]
      decide
    · exact htype
  · rw [mapPeripheral_respects_iff hregions hpos, not_not]
    refine ⟨by decide, ?_⟩
    rw [htop, hend]
    decide

end CourseOs.KernelSpace
