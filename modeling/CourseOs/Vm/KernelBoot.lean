import CourseOs.Vm.KernelMemory

/-!
# The kernel's address space, from the boot sequence on

`start_maps` says what the boot sequence leaves: all of physical memory, the
peripherals of the chipset, and seventeen pages of zeros for the heap.  With
`kernel_step` every run from there on is one in the address space.

* `kernel_space_is_flat` — loads, stores, translations and requests in any
  order return what they return in the address space, and nothing but an
  expansion can stop the run;
* `heap_bytes_apart` — in every state the addresses of the heap are different
  bytes, none of them in a table or in a record of the physical memory
  manager.

The first is a simulation (`Calls.simulated`), with `Maps` for the relation
and `KernelMap` for the abstract state, and it is what makes the heap flat
memory: a byte that has been stored is loaded again, whatever has been mapped
in between, and a byte that has not been stored is zero.  A call that does not
return ends the run, and `kernel_outcome` says which ones these are.

The second is about the tables themselves, and follows from the same relation:
an address of the heap walks to a byte in a page that is handed out, each to
another one.

The boot sequence is any that finds what `Bootable` asks for: a table as
`startup.s` leaves it, an aligned range of zero memory for the manager, and
requests of the chipset that fit above the heap.  That the board's own
requests are such is `bootable_board`.
-/

namespace CourseOs.KernelSpace

open ByteMemory Pmm

variable {L : Layout} {κ κ' : ℕ → SliceKind} {p : PmmState} {s s' s₀ : KernelSpace}
  {map : KernelMap} {m m' mem : ByteMemory} {hw : HardwareInfo}
  {i n N r fuel limit kernelPmmBase detectedSize : ℕ} {requests : List (ℕ × ℕ)} {pages : ℕ → ℕ}

/-! ### The peripherals of the chipset

Requests of the chipset come before there is a manager or a heap, and are what
the region of the peripherals starts with. -/

/-- The peripherals, mapped one after the other. -/
def KernelMap.mapPeripherals (requests : List (ℕ × ℕ)) (map : KernelMap) : KernelMap :=
  requests.foldl (fun map request => map.mapPeripheral request.1 request.2) map

/-- The address space before the first request. -/
def KernelMap.empty : KernelMap := ⟨kernelHeapBase, kernelMmioBase, fun _ => 0, fun _ => 0⟩

/-- The address space after the boot sequence: the peripherals of the chipset,
and a heap of seventeen pages of zeros. -/
def KernelMap.boot (requests : List (ℕ × ℕ)) : KernelMap :=
  { KernelMap.mapPeripherals requests .empty with heapEnd := heapStart + Heap.heapInitSize }

theorem KernelMap.mapPeripherals_cons (map : KernelMap) (request : ℕ × ℕ) :
    map.mapPeripherals (request :: requests) =
      (map.mapPeripheral request.1 request.2).mapPeripherals requests := by
  unfold KernelMap.mapPeripherals
  rw [List.foldl_cons]

theorem KernelMap.mapPeripherals_heapEnd (map : KernelMap) :
    (map.mapPeripherals requests).heapEnd = map.heapEnd := by
  induction requests generalizing map with
  | nil => rfl
  | cons request requests ih => rw [mapPeripherals_cons, ih, mapPeripheral_heapEnd]

theorem KernelMap.mapPeripherals_heap (map : KernelMap) :
    (map.mapPeripherals requests).heap = map.heap := by
  induction requests generalizing map with
  | nil => rfl
  | cons request requests ih => rw [mapPeripherals_cons, ih, mapPeripheral_heap]

theorem Early.devices (h : Early mem s) (hd : Devices s map) (hfit : Fit requests s) :
    Devices (mapPeripherals requests s) (map.mapPeripherals requests) := by
  induction requests generalizing s map with
  | nil => exact hd
  | cons request requests ih =>
      unfold Fit at hfit
      rw [List.map_cons, List.sum_cons, Nat.add_mul] at hfit
      have hfits : request.2 * mebibyte ≤ s.mmioCurrentTop := by omega
      have hm : PeripheralMapped s request.2 (mapPeripheral s request.1 request.2).1 :=
        mapPeripheral_mapped h.top_le h.top_aligned hfits
      have hd' := hd.mapPeripheral h.top_le h.top_aligned hfits request.1
      rw [KernelMap.mapPeripherals_cons]
      show Devices (mapPeripherals requests (mapPeripheral s request.1 request.2).1) _
      generalize (mapPeripheral s request.1 request.2).1 = s₁ at hm hd' ⊢
      have htop := hm.top_eq
      rw [← htop, Nat.add_comm (request.2 * mebibyte), ← Nat.add_assoc] at hfit
      have hfit' : Fit requests s₁ := Nat.le_of_add_le_add_right hfit
      exact ih (h.peripheral hm (le_trans (Nat.le_add_right _ _) hfit')) hd' hfit'

theorem devices_boot (mem : ByteMemory) :
    Devices ⟨⟨mem, ⟨0, 0, 0, 0, 0, 0⟩⟩, kernelHeapBase, kernelMmioBase⟩ .empty where
  top := rfl
  device _ hi := absurd (hi.1.trans_lt hi.2) (lt_irrefl _)
  aligned _ := rfl
  lt _ := Nat.two_pow_pos 32

/-! ### `vm2_start`

Entry by entry, what the loop over physical memory writes.  The sections of
the peripherals lie above the range of the loop and stay. -/

/-- The rounds of the loop over physical memory, MiB by MiB: the entries above
`KERNEL_VIRTUAL_OFFSET` become sections of the same MiB less the offset. -/
theorem mapRamLoop_entry (haligned : i % mebibyte = 0)
    (hle : kernelVirtualOffset + i + n * mebibyte ≤ kernelHeapBase)
    (hok : mapRamLoop n i m = .ok m') (j : ℕ) :
    kernelEntry m' j =
      if kernelVirtualOffset + i ≤ j * mebibyte ∧
          j * mebibyte < kernelVirtualOffset + i + n * mebibyte then
        sectionEntry (l1ptBaseAddress (j * mebibyte - kernelVirtualOffset))
      else kernelEntry m j := by
  induction n generalizing i m with
  | zero =>
      cases hok
      rw [if_neg (by omega)]
  | succ n ih =>
      rw [Nat.succ_mul] at hle
      unfold mapRamLoop vm2L1MapPhysicalToVirtual at hok
      dsimp only at hok
      rw [if_neg (by simp), Exec.ok_bind] at hok
      have hnext : (i + mebibyte) % mebibyte = 0 := by rw [Nat.add_mod_right, haligned]
      rw [ih hnext (by omega) hok, kernelEntry_writeWord (sectionEntry_lt _), Nat.succ_mul]
      by_cases hj : j = l1ptIndex (kernelVirtualOffset + i)
      · have hat : j * mebibyte = kernelVirtualOffset + i := by
          unfold l1ptIndex kernelVirtualOffset mebibyte at *
          omega
        have hpos : 0 < mebibyte := by decide
        rw [hat, if_neg (by omega), if_pos hj, if_pos (by omega), Nat.add_sub_cancel_left]
      · have hne : j * mebibyte ≠ kernelVirtualOffset + i := by
          intro heq
          rw [← heq] at hj
          exact hj (Nat.mul_div_cancel j (by decide : 0 < 2 ^ 20)).symm
        rw [if_neg hj]
        have hiff : (kernelVirtualOffset + (i + mebibyte) ≤ j * mebibyte ∧
            j * mebibyte < kernelVirtualOffset + (i + mebibyte) + n * mebibyte) ↔
            (kernelVirtualOffset + i ≤ j * mebibyte ∧
              j * mebibyte < kernelVirtualOffset + i + (n * mebibyte + mebibyte)) := by
          unfold kernelVirtualOffset mebibyte at *
          omega
        simp only [hiff]

/-- `vm2_start` maps all of physical memory, and of the rest clears the first
entry, where `startup.s` has mapped the kernel a second time. -/
theorem vm2Start_entry (hR : ManagedRange hw kernelPmmBase N r) (hN : 0 < N)
    (hsize : kernelVirtualOffset + detectedSize = kernelPmmBase + sliceSize * N)
    (hbase : kernelL1PageTable + 4 * 0x1000 ≤ kernelPmmBase)
    (hok : vm2Start hw kernelPmmBase detectedSize m = .ok p) :
    RamMapped p.mem ∧ ∀ i < 0x1000, ¬RamEntry i →
      kernelEntry p.mem i = if i = 0 then 0 else kernelEntry m i := by
  unfold vm2Start at hok
  dsimp only at hok
  obtain ⟨m', hram, hinit⟩ := Exec.bind_eq_ok.mp hok
  rw [hsize, Nat.mod_eq_of_lt hR.bounded] at hinit
  have hsame : ∀ i < 0x1000, kernelEntry p.mem i = kernelEntry m' i := by
    intro i hi
    refine readWord_congr fun x hx hx' => pmmInit_outside hR hN hinit ?_
    unfold entryAt at hx'
    omega
  have hentry := fun j => mapRamLoop_entry (by decide) (by decide) hram j
  have hiff : ∀ j, (kernelVirtualOffset + 0 ≤ j * mebibyte ∧
      j * mebibyte < kernelVirtualOffset + 0 + 1024 * mebibyte) ↔ RamEntry j := fun _ => Iff.rfl
  refine ⟨fun i hi => ?_, fun i hi hno => ?_⟩
  · rw [hsame i (index_of_ram hi), hentry i, if_pos ((hiff i).mpr hi)]
  · rw [hsame i hi, hentry i, if_neg fun h => hno ((hiff i).mp h),
      kernelEntry_writeWord (by decide)]

/-! ### The heap

The loop of `init_heap` as a run of `expand` on the address space: every page
comes in zeroed, at the end of the heap. -/

/-- What there is before the heap: the vectors are still to be mapped, and
physical memory and the peripherals are in their places. -/
structure Ready (L : Layout) (κ : ℕ → SliceKind) (s : KernelSpace) (map : KernelMap) : Prop where
  prepared : Prepared L κ s
  tables : TablesInv L κ kernelTable s.pmm
  ram : RamMapped s.pmm.mem
  devices : Devices s map
  heapEnd_eq : map.heapEnd = s.heapEnd
  heap : ∀ v, map.heap v = 0

/-- An address space without a heap: the page of the vectors was mapped into
the last MiB, which had no table before, and the end of the heap is its base. -/
theorem Ready.vectors (h : Ready L κ s map) (hok : initVectorTable s = .ok s') :
    s'.heapEnd = kernelHeapBase ∧ ∃ κ', Maps L κ' (fun _ => 0) s' map := by
  unfold initVectorTable at hok
  obtain ⟨⟨p, page⟩, halloc, hok⟩ := Exec.bind_eq_ok.mp hok
  cases hok
  have hend := h.prepared.heapEnd_eq
  rcases allocateKernelPage_new h.prepared.tables h.tables (by decide) halloc with
    ⟨htype, -⟩ | ⟨κ', hnew⟩
  · rw [h.prepared.last] at htype
    exact absurd htype (by decide)
  · have hentry : ∀ i < 0x1000, entryType (kernelEntry s.pmm.mem i) = 2 →
        kernelEntry p.mem i = kernelEntry s.pmm.mem i := by
      intro i hi htype
      refine (hnew.added.other i hi).resolve_right fun ⟨_, h0⟩ => ?_
      rw [htype] at h0
      exact absurd h0 (by decide)
    have hnone : ∀ n, ¬InHeap { s with pmm := p } n := by
      rintro n ⟨hge, hlt⟩
      rw [hend] at hlt
      omega
    refine ⟨hend, κ', ⟨h.prepared.regions hnew.added, hnew.tables,
      fun n hn => absurd hn (hnone n), fun n hn => absurd hn (hnone n),
      fun n _ hn => absurd hn (hnone n), fun n _ hmmio hn => ?_⟩, h.ram.congr hentry,
      h.devices.congr rfl rfl rfl hentry, h.heapEnd_eq, fun v hv hv' => ?_, fun v _ => h.heap v⟩
    · -- the last MiB had no table before the vectors were mapped
      have hlast : n / 256 = l1ptIndex highVectorLocation := by
        unfold l1ptIndex highVectorLocation kernelMmioBase pageSize at *
        omega
      have hlt : n < 256 * L1Table.kernel.entries := by
        unfold highVectorLocation pageSize at *
        show n < 256 * 0x1000
        omega
      have hne : (L1Table.kernel, n) ≠ (L1Table.kernel, pageNumber highVectorLocation) := by
        rintro heq
        rw [(Prod.mk.inj heq).2] at hn
        exact absurd hn (by decide)
      refine (hnew.rewritten.words _ rfl n hlt hne).trans ?_
      refine L1Table.pageWord_of_not_coarse ?_
      rw [hlast]
      show entryType (kernelEntry s.pmm.mem (l1ptIndex highVectorLocation)) ≠ 1
      rw [h.prepared.last]
      decide
    · rw [hend] at hv'
      exact absurd hv (by omega)

/-- The heap grows page by page up to `limit`, and each page is zero when it
comes to it. -/
theorem Maps.initHeapLoop (h : Maps L κ pages s map) (haligned : limit % pageSize = 0)
    (hlimit : limit ≤ highVectorLocation) (hle : s.heapEnd ≤ limit)
    (hok : initHeapLoop limit fuel s = .ok s') :
    s'.heapEnd = limit ∧ ∃ κ' pages', Maps L κ' pages' s' { map with heapEnd := limit } := by
  induction fuel generalizing s κ pages map with
  | zero => cases hok
  | succ fuel ih =>
      have hregions := h.backed.regions
      unfold KernelSpace.initHeapLoop at hok
      by_cases hlt : s.heapEnd < limit
      · rw [if_pos hlt] at hok
        obtain ⟨⟨p, page⟩, halloc, hok⟩ := Exec.bind_eq_ok.mp hok
        rcases allocateKernelPage_new hregions.tables h.backed.tables hregions.heapEnd_lt
          halloc with ⟨-, -, rfl⟩ | ⟨κ', hnew⟩
        · cases hok
        · dsimp only at hok
          rw [if_neg hnew.added.page_ne_zero] at hok
          have hnext : s.heapEnd + pageSize ≤ limit := by
            have := hregions.heapEnd_aligned
            unfold pageSize at *
            omega
          obtain ⟨hend, κ₁, pages₁, h₁⟩ := ih (h.grow hnew (lt_of_lt_of_le hlt hlimit)) hnext hok
          exact ⟨hend, κ₁, pages₁, h₁⟩
      · rw [if_neg hlt] at hok
        have hs : s' = s := (Except.ok.inj hok).symm
        have heq : s.heapEnd = limit := le_antisymm hle (not_lt.mp hlt)
        rw [hs, ← heq, ← h.heapEnd_eq]
        exact ⟨rfl, κ, pages, h⟩

theorem Maps.initHeap (h : Maps L κ pages s map) (hempty : s.heapEnd = kernelHeapBase)
    (hok : initHeap s = .ok s') :
    ∃ κ' pages', Maps L κ' pages' s' { map with heapEnd := heapStart + Heap.heapInitSize } := by
  have hregions := h.backed.regions
  unfold KernelSpace.initHeap at hok
  obtain ⟨⟨p, ret⟩, halloc, hok⟩ := Exec.bind_eq_ok.mp hok
  rw [← hempty] at halloc
  rcases allocateKernelPage_new hregions.tables h.backed.tables hregions.heapEnd_lt halloc with
    ⟨-, -, rfl⟩ | ⟨κ', hnew⟩
  · cases hok
  · dsimp only at hok
    rw [if_neg hnew.added.page_ne_zero] at hok
    obtain ⟨s₁, hloop, hok⟩ := Exec.bind_eq_ok.mp hok
    have hgrown := h.grow hnew (by rw [hempty]; decide)
    rw [hempty, ← heapStart_eq] at hgrown
    have haligned : (heapStart + Heap.heapInitSize) % pageSize = 0 := by decide
    have hlimit : heapStart + Heap.heapInitSize ≤ highVectorLocation := by decide
    obtain ⟨hend, κ'', pages'', h''⟩ := hgrown.initHeapLoop haligned hlimit
      (Nat.le_add_right _ _) hloop
    cases hok
    rw [← hend] at h'' ⊢
    exact ⟨κ'', pages'', h''⟩

/-! ### The boot sequence

The parts of `start` in their order.  What is assumed is what the assembly
leaves, and that the call returns; that it does so with enough memory has been
shown before. -/

/-- **What the boot sequence leaves**, if it returns: tables that hold the
address space after the boot sequence. -/
theorem start_maps (h : Bootable hw requests kernelPmmBase N r mem)
    (hsize : kernelVirtualOffset + detectedSize = kernelPmmBase + sliceSize * N)
    (hok : start hw requests kernelPmmBase detectedSize mem = .ok s) :
    ∃ L κ pages, Maps L κ pages s (.boot requests) := by
  obtain ⟨hearly, htop⟩ := (early_boot mem).peripherals h.fit
  have hdevices := (early_boot mem).devices (devices_boot mem) h.fit
  obtain ⟨p, L, κ, hstart, hL, hN, hm⟩ := vm2Start_spec h.range h.pos hsize h.base
    fun x hx hx' => (hearly.outside x (.inr (h.base.trans hx))).trans (h.zero x hx hx')
  obtain ⟨hram, hentry⟩ := vm2Start_entry h.range h.pos hsize h.base hstart
  have hprepared := hearly.prepared h.table (hL ▸ h.base) hm
  unfold start at hok
  dsimp only at hok
  rw [hstart, Exec.ok_bind] at hok
  generalize mapPeripherals requests _ = s₁ at *
  obtain ⟨s₂, hvectors, hheap⟩ := Exec.bind_eq_ok.mp hok
  have hkept : ∀ i, MmioEntry s₁ i → kernelEntry p.mem i = kernelEntry s₁.pmm.mem i := by
    intro i hi
    have hge := hearly.top_ge.trans hi.1
    rw [hentry i (index_of_mmio hi) fun hram => absurd hram.2 (not_lt.mpr hge), if_neg]
    rintro rfl
    exact absurd hge (by decide)
  -- nothing is coarse yet
  have hcases : ∀ i < 0x1000,
      kernelEntry p.mem i = 0 ∨ ∃ b, kernelEntry p.mem i = sectionEntry b := by
    intro i hi
    by_cases hram' : RamEntry i
    · exact .inr ⟨_, hram i hram'⟩
    · by_cases hmmio : MmioEntry s₁ i
      · exact .inr ⟨_, (hkept i hmmio).trans (hdevices.device i hmmio)⟩
      · left
        rw [hentry i hi hram', hearly.kept i hi hmmio, h.table i hi]
        by_cases h0 : i = 0
        · rw [if_pos h0]
        · have h800 : i ≠ 0x800 := fun heq => hram' (by rw [heq]; exact ⟨by decide, by decide⟩)
          rw [if_neg h0, if_neg (not_or.mpr ⟨h0, h800⟩)]
  have hnocoarse : ∀ i < 0x1000, entryType (kernelEntry p.mem i) ≠ 1 := by
    intro i hi
    rcases hcases i hi with h0 | ⟨b, hb⟩
    · rw [h0]
      decide
    · rw [hb, entryType_sectionEntry]
      decide
  have hready : Ready L κ { s₁ with pmm := p } (KernelMap.mapPeripherals requests .empty) := by
    refine ⟨hprepared, ⟨hm.inv, ?_, ?_, ?_, ?_, ?_⟩, hram, ⟨hdevices.top, fun i hi => ?_,
      hdevices.aligned, hdevices.lt⟩, ?_, fun v => ?_⟩
    · rintro t rfl
      have hbelow := hprepared.tables.below
      unfold RangesDisjoint
      exact .inl (.inl hbelow)
    · rintro t rfl t' rfl hne
      exact absurd rfl hne
    · rintro t rfl i hi
      show entryType (kernelEntry p.mem i) < 2 ∨
        entryType (kernelEntry p.mem i) = 2 ∧ supersection (kernelEntry p.mem i) = 0
      rcases hcases i hi with h0 | ⟨b, hb⟩
      · rw [h0]
        exact .inl (by decide)
      · rw [hb]
        exact .inr ⟨entryType_sectionEntry b, supersection_sectionEntry b⟩
    · rintro t rfl i hi htype
      exact absurd htype (hnocoarse i hi)
    · rintro t rfl i hi t' rfl i' hi' htype
      exact absurd htype (hnocoarse i hi)
    · rw [hkept i hi]
      exact hdevices.device i hi
    · rw [KernelMap.mapPeripherals_heapEnd]
      exact hearly.heapEnd_eq.symm
    · rw [KernelMap.mapPeripherals_heap]
      rfl
  obtain ⟨hempty, κ₁, hmaps⟩ := hready.vectors hvectors
  obtain ⟨κ₂, pages, hmaps'⟩ := hmaps.initHeap hempty hheap
  exact ⟨L, κ₂, pages, hmaps'⟩

/-! ### Runs

From the boot sequence on all calls are made in one address space.  A run that
stops does so at the first expansion that finds no memory, or comes to the
vectors, and not for any other reason. -/

/-- **The kernel's address space.**  After the boot sequence every run of
loads and stores in the heap, of translations, and of requests for pages and
peripherals that do not meet the heap returns what it returns in the address
space: the heap is flat memory whose pages are zero when they come to it,
whatever is mapped in between, and physical memory and the peripherals stay
where they were mapped.

Only an expansion can stop the run before its end, and only where there is no
memory left for the page that the heap asks for, or where the heap has filled
everything up to the vectors. -/
theorem kernel_space_is_flat (h : Bootable hw requests kernelPmmBase N r mem)
    (hsize : kernelVirtualOffset + detectedSize = kernelPmmBase + sliceSize * N)
    (hstart : start hw requests kernelPmmBase detectedSize mem = .ok s₀) {calls : List KernelCall}
    (hcalls : Calls.Each KernelCall.run KernelCall.Allowed calls s₀) :
    (Calls.Each KernelCall.run (fun c s => ¬c.Starves s) calls s₀ ∧
      ∃ s, Calls.run KernelCall.run calls s₀ =
        .ok (s, (Calls.reference KernelCall.reference calls (.boot requests)).2)) ∨
    (¬Calls.Each KernelCall.run (fun c s => ¬c.Starves s) calls s₀ ∧
      ∃ t, Calls.run KernelCall.run calls s₀ = .error t ∧ Halted t) := by
  obtain ⟨L, κ, pages, hmaps⟩ := start_maps h hsize hstart
  have hstep : ∀ (c : KernelCall) s map s' out, (∃ κ pages, Maps L κ pages s map) → c.Allowed s →
      c.run s = .ok (s', out) →
        out = (c.reference map).2 ∧ ∃ κ pages, Maps L κ pages s' (c.reference map).1 :=
    fun _ _ _ _ _ => kernel_step
  -- a call that returns does not starve, and one that does not is halted
  have hstop : ∀ (c : KernelCall) s map, (∃ κ pages, Maps L κ pages s map) → c.Allowed s →
      (∃ s' out map', c.run s = .ok (s', out) ∧ (∃ κ pages, Maps L κ pages s' map') ∧
        (True ↔ True ∧ ¬c.Starves s)) ∨ ∃ t, c.run s = .error t ∧ Halted t ∧ ¬¬c.Starves s := by
    intro c s map hR hA
    have hout := kernel_outcome hR hA
    cases hrun : c.run s with
    | ok r =>
        exact .inl ⟨r.1, r.2, _, rfl, (hstep c s map _ _ hR hA hrun).2,
          iff_of_true trivial ⟨trivial, hout.of_ok hrun⟩⟩
    | error t => exact .inr ⟨t, rfl, hout.of_error hrun⟩
  rcases Calls.tracked_or_stopped (G := fun _ => True) hstop ⟨κ, pages, hmaps⟩ hcalls with
    ⟨s, outs, -, hrun, -, hiff⟩ | ⟨t, hrun, ht, hno⟩
  · obtain ⟨rfl, -⟩ := Calls.simulated hstep ⟨κ, pages, hmaps⟩ hcalls hrun
    exact .inl ⟨(hiff.mp trivial).2, s, hrun⟩
  · exact .inr ⟨hno, t, hrun, ht⟩

/-- A byte written to the heap, and read back, after the boot sequence of the
board. -/
theorem kernel_space_is_flat_board :
    ∃ s₀ s outs, start ⟨0x3F000000, 0x1500000⟩ [(0x40000000, 4), (0x3F000000, 16)] 0x80200000
        0x280000 startupMemory = .ok s₀ ∧
      Calls.Each KernelCall.run (fun c s => ¬c.Starves s)
        [.store 0xC0001000 7, .load 0xC0001000] s₀ ∧
      Calls.run KernelCall.run [.store 0xC0001000 7, .load 0xC0001000] s₀ = .ok (s, outs) ∧
      outs = [.stored, .byte 7] := by
  obtain ⟨s₀, hstart, hend, -⟩ := start_board
  have hsize : kernelVirtualOffset + 0x280000 = 0x80200000 + sliceSize * 64 := by decide
  obtain ⟨L, κ, pages, hmaps⟩ := start_maps bootable_board hsize hstart
  have hlt : 0xC0001000 < s₀.heapEnd := by
    rw [hend]
    decide
  obtain ⟨s₁, hrun₁, h₁⟩ := hmaps.store (v := 0xC0001000) (by decide) (.inl hlt) 7
  have hlt₁ : 0xC0001000 < s₁.heapEnd := by
    rw [← h₁.heapEnd_eq]
    decide
  have hrun₂ := h₁.load (v := 0xC0001000) (by decide) (.inl hlt₁)
  have hnil : Calls.run KernelCall.run [] s₁ = .ok (s₁, []) := rfl
  have hrun := Calls.run_cons hrun₁ (Calls.run_cons hrun₂ hnil)
  have hcalls : Calls.Each KernelCall.run KernelCall.Allowed
      [.store 0xC0001000 7, .load 0xC0001000] s₀ := by
    refine ⟨⟨by decide, .inl hlt⟩, fun s' out hs' => ⟨?_, fun _ _ _ => trivial⟩⟩
    cases hrun₁.symm.trans hs'
    exact ⟨by decide, .inl hlt₁⟩
  rcases kernel_space_is_flat bootable_board hsize hstart hcalls with
    ⟨hfed, s₂, hflat⟩ | ⟨-, t, hstop, -⟩
  · exact ⟨s₀, s₂, _, hstart, hfed, hflat, rfl⟩
  · cases hrun.symm.trans hstop

/-- The addresses of the heap are different bytes, in pages, and neither in a
table nor in a record. -/
structure HeapApart (L : Layout) (κ : ℕ → SliceKind) (s : KernelSpace) : Prop where
  mapped : ∀ v, kernelHeapBase ≤ v → v < s.heapEnd → ∃ a, place s v = some a ∧
    ¬TableByte L κ a ∧ ∀ i < L.slices, a < L.record i ∨ L.record i + 16 ≤ a
  different : ∀ v w, kernelHeapBase ≤ v → v < s.heapEnd → kernelHeapBase ≤ w → w < s.heapEnd →
    place s v = place s w → v = w

/-- **The bytes of the heap**, in every state of every run: mapped, each to
another byte of physical memory, and apart from the tables and the manager's
records. -/
theorem heap_bytes_apart (h : Bootable hw requests kernelPmmBase N r mem)
    (hsize : kernelVirtualOffset + detectedSize = kernelPmmBase + sliceSize * N)
    (hstart : start hw requests kernelPmmBase detectedSize mem = .ok s₀) {calls : List KernelCall}
    (hcalls : Calls.Each KernelCall.run KernelCall.Allowed calls s₀) :
    ∃ L, Calls.States KernelCall.run
      (fun s => ∃ κ, PmmInv L s.pmm κ ∧ HeapApart L κ s) calls s₀ := by
  obtain ⟨L, κ, pages, hmaps⟩ := start_maps h hsize hstart
  refine ⟨L, Calls.states_of_invariant (I := fun s => ∃ map κ pages, Maps L κ pages s map)
    (fun c s s' out ⟨map, hR⟩ hA hrun => ⟨_, (kernel_step hR hA hrun).2⟩) ?_
    ⟨_, κ, pages, hmaps⟩ hcalls⟩
  rintro s ⟨map, κ, pages, hmaps⟩
  have hinv := hmaps.backed.regions.tables.inv
  refine ⟨κ, hinv, ⟨fun v hv hv' => ⟨_, hmaps.backed.place_eq hv hv', ?_, fun i hi => ?_⟩,
    fun v w hv hv' hw hw' => hmaps.backed.place_injective hv hv' hw hw'⟩⟩
  · have hmem := hmaps.backed.mem _ (hmaps.backed.inHeap hv hv')
    have hmod : v % pageSize < pageSize := Nat.mod_lt _ (by decide)
    intro htable
    have hout := TableByte.outsidePages hinv htable _ hmem
    omega
  · have hmem := hmaps.backed.mem _ (hmaps.backed.inHeap hv hv')
    have hmod : v % pageSize < pageSize := Nat.mod_lt _ (by decide)
    exact hinv.owned_outside (owned_of_mem hmem (Nat.le_add_right _ _)
      (Nat.add_lt_add_left hmod _)) hi

/-- Every state while a byte is written, after the boot sequence of the board. -/
theorem heap_bytes_apart_board :
    ∃ s₀ L, start ⟨0x3F000000, 0x1500000⟩ [(0x40000000, 4), (0x3F000000, 16)] 0x80200000
        0x280000 startupMemory = .ok s₀ ∧
      Calls.States KernelCall.run (fun s => ∃ κ, PmmInv L s.pmm κ ∧ HeapApart L κ s)
        [.store 0xC0001000 7] s₀ := by
  obtain ⟨s₀, hstart, hend, -⟩ := start_board
  have hlt : 0xC0001000 < s₀.heapEnd := by
    rw [hend]
    decide
  have hcalls : Calls.Each KernelCall.run KernelCall.Allowed [.store 0xC0001000 7] s₀ :=
    ⟨⟨by decide, .inl hlt⟩, fun _ _ _ => trivial⟩
  obtain ⟨L, hstates⟩ := heap_bytes_apart bootable_board (by decide) hstart hcalls
  exact ⟨s₀, L, hstart, hstates⟩

end CourseOs.KernelSpace
