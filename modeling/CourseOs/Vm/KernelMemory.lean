import CourseOs.Lib.Calls
import CourseOs.Vm.Exhaustion
import CourseOs.Vm.KernelPages
import CourseOs.Vm.KernelStart

/-!
# What the kernel finds in its address space

The functions of `vm2.c` write words into tables.  For the kernel the outcome
is an address space, `KernelMap`: physical memory from `KERNEL_VIRTUAL_OFFSET`
on, the heap, whose bytes are as they were last written and zero before, then
nothing, and then the peripherals.

`Maps` relates the two, and `kernel_step` says that the kernel's calls, and
its loads and stores in the heap, keep them related (`Maps.load`,
`Maps.store`, `Maps.expand`, `Maps.mapPeripheral`).  The boot sequence is in
`KernelBoot`.

A load is a walk through the tables and a read of the byte they lead to, so it
depends on the L1 table, on an L2 table and on a page; in the address space it
is a lookup.  What makes the two agree is that the three do not overlap:
`Maps` has the regions of the table, the pages of the heap, and the bytes in
them.

All calls but `expand` return.  `Starves` is the condition on which `expand`
does not: the page it asks for is not in the way of a peripheral, and there is
no memory for it, or the heap has come to the page of the vectors
(`kernel_outcome`).
-/

namespace CourseOs.KernelSpace

open ByteMemory Pmm

/-- What the kernel does in its address space: it loads and stores bytes, has
addresses translated, asks for a page for the heap, and has peripherals
mapped. -/
inductive KernelCall
  | load (v : ℕ)
  | store (v : ℕ) (b : UInt8)
  | translate (v : ℕ)
  | expand
  | mapPeripheral (physical nMebibytes : ℕ)

/-- What it sees.  `fault` is an access where nothing is mapped, which the
processor reports. -/
inductive KernelOutput
  | fault
  | byte (b : UInt8)
  | stored
  | address (physical : Option ℕ)
  | returned (r : ℕ)

namespace KernelCall

/-- The call, in the tables.  Loads and stores go where the walk leads, and
the other calls are those of `KernelSpace`. -/
def run : KernelCall → KernelSpace → Exec (KernelSpace × KernelOutput)
  | load v, s =>
      match place s v with
      | none => .ok (s, .fault)
      | some a => .ok (s, .byte (s.pmm.mem a))
  | store v b, s =>
      match place s v with
      | none => .ok (s, .fault)
      | some a => .ok ({ s with pmm := s.pmm.withMem (writeByte s.pmm.mem a b) }, .stored)
  | translate v, s => .ok (s, .address (walk s.pmm.mem kernelL1PageTable v))
  | expand, s => do
      let (s, r) ← KernelSpace.expand s
      .ok (s, .returned r)
  | mapPeripheral physical n, s =>
      let (s, top) := KernelSpace.mapPeripheral s physical n
      .ok (s, .returned top)

/-- What is promised: loads and stores are in the heap, or between it and the
peripherals, the addresses that are translated are of physical memory or of
peripherals, and no peripheral meets the heap. -/
def Allowed : KernelCall → KernelSpace → Prop
  | load v, s => kernelHeapBase ≤ v ∧ (v < s.heapEnd ∨ v < s.mmioCurrentTop)
  | store v _, s => kernelHeapBase ≤ v ∧ (v < s.heapEnd ∨ v < s.mmioCurrentTop)
  | translate v, s => kernelVirtualOffset ≤ v ∧ v < kernelHeapBase ∨
      s.mmioCurrentTop ≤ v ∧ v < kernelMmioBase
  | expand, _ => True
  | mapPeripheral _ n, s => ¬Meets s n

instance (s : KernelSpace) : ∀ c : KernelCall, Decidable (c.Allowed s)
  | load _ => inferInstanceAs (Decidable (_ ∧ (_ ∨ _)))
  | store _ _ => inferInstanceAs (Decidable (_ ∧ (_ ∨ _)))
  | translate _ => inferInstanceAs (Decidable (_ ∧ _ ∨ _ ∧ _))
  | expand => inferInstanceAs (Decidable True)
  | mapPeripheral _ _ => inferInstanceAs (Decidable ¬(_ ∧ _))

end KernelCall

/-- What `expand` asks `vm2_allocate_page` for. -/
def nextPage (s : KernelSpace) : Demand :=
  .page kernelL1PageTable s.heapEnd false ⟨.kernelRW, false⟩ none

/-- The call stops the kernel.  No call but `expand` does, and that one
neither where it is refused because of a peripheral, nor as long as there is
memory, unless the heap has come to the vectors. -/
def KernelCall.Starves : KernelCall → KernelSpace → Prop
  | expand, s => ¬(nextPage s).Tested s.pmm ∧
      ((nextPage s).Exhausted s.pmm ∨ s.heapEnd = highVectorLocation)
  | _, _ => False

/-! ### The address space

What the kernel may believe about its addresses.  Heap and peripherals are
given by their two ends and by what is behind each address; there are no
tables, and the only way to fail is an access where nothing is mapped. -/

/-- The heap's bytes, and for every MiB the physical address of the peripheral
mapped there, with the two ends.  This is all the kernel sees. -/
structure KernelMap where
  heapEnd : ℕ
  mmioCurrentTop : ℕ
  heap : ℕ → UInt8
  device : ℕ → ℕ

namespace KernelMap

/-- A peripheral is mapped below the others: the top moves down, and the
sections it passes lead to the peripheral one by one. -/
def mapPeripheral (map : KernelMap) (physical n : ℕ) : KernelMap :=
  let top := map.mmioCurrentTop - n * mebibyte
  { map with
    mmioCurrentTop := top
    device := fun i =>
      if top ≤ i * mebibyte ∧ i * mebibyte < map.mmioCurrentTop then
        (physical / mebibyte + (i - top / mebibyte)) % 0x1000 * mebibyte
      else map.device i }

/-- The heap is the same behind it. -/
theorem mapPeripheral_eq (map : KernelMap) (physical n : ℕ) : ∃ device,
    map.mapPeripheral physical n =
      ⟨map.heapEnd, map.mmioCurrentTop - n * mebibyte, map.heap, device⟩ := ⟨_, rfl⟩

-- by the equation: that the two records have the same heap is costly to find by reduction
@[simp] theorem mapPeripheral_heapEnd (map : KernelMap) (physical n : ℕ) :
    (map.mapPeripheral physical n).heapEnd = map.heapEnd := by
  obtain ⟨device, h⟩ := map.mapPeripheral_eq physical n
  rw [h]

@[simp] theorem mapPeripheral_heap (map : KernelMap) (physical n : ℕ) :
    (map.mapPeripheral physical n).heap = map.heap := by
  obtain ⟨device, h⟩ := map.mapPeripheral_eq physical n
  rw [h]

/-- Where an address of physical memory or of a peripheral is translated to. -/
def translate (map : KernelMap) (v : ℕ) : ℕ :=
  if v < kernelHeapBase then v - kernelVirtualOffset
  else map.device (v / mebibyte) + v % mebibyte

/-- The peripherals are in the way of the heap. -/
def full (map : KernelMap) : Prop := map.mmioCurrentTop ≤ map.heapEnd ∧ map.heapEnd < kernelMmioBase

instance (map : KernelMap) : Decidable map.full := inferInstanceAs (Decidable (_ ∧ _))

end KernelMap

/-- The call, in the address space.  There is nothing of tables and pages
here: the heap is a function from addresses to bytes, up to its end. -/
def KernelCall.reference : KernelCall → KernelMap → KernelMap × KernelOutput
  | load v, map => (map, if v < map.heapEnd then .byte (map.heap v) else .fault)
  | store v b, map =>
      if v < map.heapEnd then ({ map with heap := Function.update map.heap v b }, .stored)
      else (map, .fault)
  | translate v, map => (map, .address (some (map.translate v)))
  | expand, map =>
      if map.full then (map, .returned 0)
      else ({ map with heapEnd := map.heapEnd + pageSize }, .returned 1)
  | mapPeripheral physical n, map =>
      (map.mapPeripheral physical n, .returned (map.mmioCurrentTop - n * mebibyte))

/-! ### The relation

Tables and address space agree on every address the kernel may use.  A store
must then be seen at its address and nowhere else, which takes that different
heap addresses are different bytes; a mapping must be seen where it was made,
which takes that the tables themselves are in no page. -/

section Step

variable {L : Layout} {κ κ' : ℕ → SliceKind} {p : PmmState} {s s' : KernelSpace} {map : KernelMap}
  {m : ByteMemory} {i n v a page : ℕ} {pages : ℕ → ℕ} {b : UInt8} {c : KernelCall}
  {out : KernelOutput}

/-- The sections of the peripherals: which physical MiB is behind each of
their entries. -/
structure Devices (s : KernelSpace) (map : KernelMap) : Prop where
  top : map.mmioCurrentTop = s.mmioCurrentTop
  device : ∀ i, MmioEntry s i → kernelEntry s.pmm.mem i =
    sectionEntry (l1ptBaseAddress (map.device i))
  aligned : ∀ i, map.device i % mebibyte = 0
  lt : ∀ i, map.device i < 2 ^ 32

/-- The sections of physical memory, each of which leads to the address less
the kernel's offset. -/
def RamMapped (m : ByteMemory) : Prop :=
  ∀ i, RamEntry i → kernelEntry m i =
    sectionEntry (l1ptBaseAddress (i * mebibyte - kernelVirtualOffset))

/-- The tables hold the address space: the regions are where it says, the
heap's pages have its bytes, and the sections lead to its peripherals and to
physical memory. -/
structure Maps (L : Layout) (κ : ℕ → SliceKind) (pages : ℕ → ℕ) (s : KernelSpace)
    (map : KernelMap) : Prop where
  backed : HeapPages L κ s pages
  ram : RamMapped s.pmm.mem
  devices : Devices s map
  heapEnd_eq : map.heapEnd = s.heapEnd
  heap : ∀ v, kernelHeapBase ≤ v → v < s.heapEnd →
    s.pmm.mem (pages (pageNumber v) + v % pageSize) = map.heap v
  rest : ∀ v, s.heapEnd ≤ v → map.heap v = 0

theorem index_of_ram (hi : RamEntry i) : i < 0x1000 := by
  have hlt := hi.2
  unfold kernelHeapBase mebibyte at hlt
  omega

theorem index_of_mmio (hi : MmioEntry s i) : i < 0x1000 := by
  have hlt := hi.2
  unfold kernelMmioBase mebibyte at hlt
  omega

/-- Sections stay as long as their entries do. -/
theorem RamMapped.congr (h : RamMapped s.pmm.mem)
    (hentry : ∀ i < 0x1000, entryType (kernelEntry s.pmm.mem i) = 2 →
      kernelEntry m i = kernelEntry s.pmm.mem i) : RamMapped m := by
  intro i hi
  have hram := h i hi
  rw [hentry i (index_of_ram hi) (by rw [hram, entryType_sectionEntry]), hram]

theorem Devices.congr (h : Devices s map) {map' : KernelMap}
    (htop : s'.mmioCurrentTop = s.mmioCurrentTop)
    (htop' : map'.mmioCurrentTop = map.mmioCurrentTop) (hdevice : map'.device = map.device)
    (hentry : ∀ i < 0x1000, entryType (kernelEntry s.pmm.mem i) = 2 →
      kernelEntry s'.pmm.mem i = kernelEntry s.pmm.mem i) : Devices s' map' := by
  refine ⟨htop'.trans (h.top.trans htop.symm), fun i hi => ?_, fun i => ?_, fun i => ?_⟩
  · have hi' : MmioEntry s i := by
      unfold MmioEntry at *
      rwa [htop] at hi
    have hsection := h.device i hi'
    rw [hdevice, hentry i (index_of_mmio hi') (by rw [hsection, entryType_sectionEntry]), hsection]
  · rw [hdevice]
    exact h.aligned i
  · rw [hdevice]
    exact h.lt i

/-- **One more peripheral**, below the others, which stay where they were
mapped.  Its sections lead to it one after the other. -/
theorem Devices.mapPeripheral (h : Devices s map) (hle : s.mmioCurrentTop ≤ kernelMmioBase)
    (haligned : s.mmioCurrentTop % mebibyte = 0) (hfits : n * mebibyte ≤ s.mmioCurrentTop)
    (physical : ℕ) :
    Devices (KernelSpace.mapPeripheral s physical n).1 (map.mapPeripheral physical n) := by
  have hm : PeripheralMapped s n (KernelSpace.mapPeripheral s physical n).1 :=
    mapPeripheral_mapped hle haligned hfits
  have hsection := fun k (hk : k < n) => mapPeripheral_section hle hfits physical hk
  have htop := hm.top_eq
  generalize (KernelSpace.mapPeripheral s physical n).1 = s' at *
  have hnew : map.mmioCurrentTop - n * mebibyte = s'.mmioCurrentTop := by
    rw [h.top]
    omega
  refine ⟨hnew, fun i hi => ?_, fun i => ?_, fun i => ?_⟩
  · show _ = sectionEntry (l1ptBaseAddress (if _ then _ else _))
    rw [hnew, h.top]
    by_cases hin : i * mebibyte < s.mmioCurrentTop
    · have hat : (s.mmioCurrentTop - n * mebibyte) / mebibyte +
          (i - s'.mmioCurrentTop / mebibyte) = i := by
        have hle := hi.1
        rw [← htop, Nat.add_sub_cancel]
        unfold mebibyte at *
        omega
      have hk : i - s'.mmioCurrentTop / mebibyte < n := by
        unfold mebibyte at *
        omega
      have hentry := hsection _ hk
      rw [hat] at hentry
      rw [if_pos ⟨hi.1, hin⟩, hentry]
      unfold sectionEntry l1ptBaseAddress l1ptIndex mebibyte
      omega
    · rw [if_neg fun h => hin h.2, hm.kept i (index_of_mmio hi) (.inr (not_lt.mp hin))]
      exact h.device i ⟨not_lt.mp hin, hi.2⟩
  · show (if _ then _ else _) % mebibyte = 0
    split
    · exact Nat.mul_mod_left _ _
    · exact h.aligned i
  · show (if _ then _ else _) < 2 ^ 32
    split
    · exact lt_of_lt_of_eq (Nat.mul_lt_mul_of_pos_right (Nat.mod_lt _ (by decide)) (by decide))
        (by decide : 0x1000 * mebibyte = 2 ^ 32)
    · exact h.lt i

namespace Maps

/-- The translation of what is not the heap: physical memory at its offset,
and the peripherals where they were mapped, both by sections. -/
theorem translate (h : Maps L κ pages s map) (hv : kernelVirtualOffset ≤ v ∧ v < kernelHeapBase ∨
    s.mmioCurrentTop ≤ v ∧ v < kernelMmioBase) :
    walk s.pmm.mem kernelL1PageTable v = some (map.translate v) := by
  have hindex : l1ptIndex v = v / mebibyte := rfl
  have htop := h.backed.regions.top_aligned
  have hge := h.backed.regions.top_ge
  unfold KernelMap.translate
  rcases hv with ⟨hge, hlt⟩ | ⟨hle, hlt⟩
  · have hram : RamEntry (l1ptIndex v) := by
      unfold RamEntry l1ptIndex kernelVirtualOffset kernelHeapBase mebibyte at *
      omega
    have hsame : l1ptIndex v * mebibyte - kernelVirtualOffset + v % mebibyte =
        v - kernelVirtualOffset := by
      unfold l1ptIndex kernelVirtualOffset mebibyte at *
      omega
    rw [if_pos hlt, walk_section ?_ ?_ (h.ram _ hram), hsame]
    · unfold l1ptIndex kernelVirtualOffset mebibyte at *
      omega
    · unfold l1ptIndex kernelVirtualOffset kernelHeapBase mebibyte at *
      omega
  · have hmmio : MmioEntry s (l1ptIndex v) := by
      unfold MmioEntry l1ptIndex kernelMmioBase mebibyte at *
      omega
    rw [if_neg (by omega), walk_section (h.devices.aligned _) (h.devices.lt _)
      (h.devices.device _ hmmio)]
    rfl

/-- Between the heap and the peripherals there is nothing: the entries are
empty, and what is left of the heap's last one as well. -/
theorem place_none (h : Maps L κ pages s map) (hge : s.heapEnd ≤ v) (hlt : v < s.mmioCurrentTop) :
    place s v = none := by
  have hregions := h.backed.regions
  have hbase := hregions.heapEnd_ge
  have hle := hregions.top_le
  have hnone : walk s.pmm.mem kernelL1PageTable v = none := by
    unfold walk
    by_cases hi : s.heapEnd ≤ l1ptIndex v * mebibyte
    · have hzero := hregions.between (l1ptIndex v) hi (by
        unfold l1ptIndex mebibyte at *
        omega)
      unfold kernelEntry at hzero
      rw [hzero]
      rfl
    · have hindex : l1ptIndex v = l1ptIndex s.heapEnd := by
        unfold l1ptIndex mebibyte at *
        omega
      have hcoarse : entryType (kernelEntry s.pmm.mem (l1ptIndex s.heapEnd)) = 1 := by
        rw [← hindex]
        refine hregions.heap _ ⟨?_, not_le.mp hi⟩
        unfold l1ptIndex kernelHeapBase mebibyte at *
        omega
      have hword := hregions.rest (by omega) hcoarse (l2ptIndex v) (l2ptIndex_lt v) (by
        unfold l1ptIndex at hindex
        unfold l2ptIndex
        omega)
      rw [← hindex] at hcoarse hword
      unfold kernelEntry at hcoarse hword
      unfold l2Entry at hword
      unfold walkEntry
      rw [hcoarse, hword]
      rfl
  unfold place
  rw [hnone, Option.map_none]

theorem load (h : Maps L κ pages s map) (hv : kernelHeapBase ≤ v)
    (hv' : v < s.heapEnd ∨ v < s.mmioCurrentTop) :
    (KernelCall.load v).run s = .ok (s, ((KernelCall.load v).reference map).2) := by
  have hend := h.heapEnd_eq
  unfold KernelCall.run KernelCall.reference
  dsimp only
  by_cases hlt : v < s.heapEnd
  · rw [h.backed.place_eq hv hlt, if_pos (by omega)]
    dsimp only
    rw [h.heap v hv hlt]
  · rw [h.place_none (not_lt.mp hlt) (hv'.resolve_left hlt), if_neg (by omega)]

/-- **A store** changes the byte stored to, and no other.  That no two
addresses lead to one byte is where the flat address space comes from. -/
theorem store (h : Maps L κ pages s map) (hv : kernelHeapBase ≤ v)
    (hv' : v < s.heapEnd ∨ v < s.mmioCurrentTop) (b : UInt8) :
    ∃ s', (KernelCall.store v b).run s = .ok (s', ((KernelCall.store v b).reference map).2) ∧
      Maps L κ pages s' ((KernelCall.store v b).reference map).1 := by
  have hend := h.heapEnd_eq
  unfold KernelCall.run KernelCall.reference
  dsimp only
  by_cases hlt : v < s.heapEnd
  · have hplace := h.backed.place_eq hv hlt
    have hpage := h.backed.mem _ (h.backed.inHeap hv hlt)
    rw [hplace, if_pos (by omega)]
    refine ⟨_, rfl, ?_⟩
    have hother : ∀ x, OutsidePages L κ x → writeByte s.pmm.mem
        (pages (pageNumber v) + v % pageSize) b x = s.pmm.mem x := by
      intro x hx
      have hout := hx _ hpage
      have hmod : v % pageSize < pageSize := Nat.mod_lt _ (by decide)
      exact writeByte_apply_of_ne (by omega)
    obtain ⟨hpages, hentries⟩ := h.backed.of_outsidePages hother
    refine ⟨hpages, h.ram.congr fun i hi _ => hentries i hi,
      h.devices.congr rfl rfl rfl fun i hi _ => hentries i hi, hend, fun w hw hw' => ?_,
      fun w hw => ?_⟩
    · dsimp only
      by_cases heq : w = v
      · subst heq
        rw [Function.update_self]
        exact if_pos rfl
      · rw [Function.update_of_ne heq, ← h.heap w hw hw']
        refine writeByte_apply_of_ne fun hsame => heq ?_
        refine h.backed.place_injective hw hw' hv hlt ?_
        rw [h.backed.place_eq hw hw', hplace, hsame]
    · have hw : s.heapEnd ≤ w := hw
      exact (Function.update_of_ne (by omega) _ _).trans (h.rest w hw)
  · rw [h.place_none (not_lt.mp hlt) (hv'.resolve_left hlt), if_neg (by omega)]
    exact ⟨s, rfl, h⟩

/-- **The heap's next page** is zero, and the bytes before it are as they
were. -/
theorem grow (h : Maps L κ pages s map) (hnew : NewPage L κ s.pmm s.heapEnd false κ' p page)
    (hlt : s.heapEnd < highVectorLocation) :
    Maps L κ' (Function.update pages (pageNumber s.heapEnd) page)
      { s with pmm := p, heapEnd := s.heapEnd + pageSize }
      { map with heapEnd := map.heapEnd + pageSize } := by
  have haligned := h.backed.regions.heapEnd_aligned
  have hge := h.backed.regions.heapEnd_ge
  have hentry : ∀ i < 0x1000, entryType (kernelEntry s.pmm.mem i) = 2 →
      kernelEntry p.mem i = kernelEntry s.pmm.mem i := by
    intro i hi htype
    refine (hnew.added.other i hi).resolve_right fun ⟨_, h0⟩ => ?_
    rw [htype] at h0
    exact absurd h0 (by decide)
  refine ⟨h.backed.grow hnew hlt, h.ram.congr hentry, h.devices.congr rfl rfl rfl hentry, ?_,
    fun v hv hv' => ?_, fun v hv => h.rest v ?_⟩
  · show map.heapEnd + pageSize = s.heapEnd + pageSize
    rw [h.heapEnd_eq]
  · have hv' : v < s.heapEnd + pageSize := hv'
    have hmod : v % pageSize < pageSize := Nat.mod_lt _ (by decide)
    by_cases hold : v < s.heapEnd
    · have hne : pageNumber v ≠ pageNumber s.heapEnd := by
        unfold pageNumber pageSize at *
        omega
      have hmem := h.backed.mem _ (h.backed.inHeap hv hold)
      rw [Function.update_of_ne hne, hnew.kept _ hmem _ (by omega) (by omega)]
      exact h.heap v hv hold
    · have heq : pageNumber v = pageNumber s.heapEnd := by
        unfold pageNumber pageSize at *
        omega
      rw [heq, Function.update_self, hnew.zero _ (by omega) (by omega)]
      exact (h.rest v (not_lt.mp hold)).symm
  · have hv : s.heapEnd + pageSize ≤ v := hv
    omega

/-- The peripherals are in the way exactly where the entry maps a section.
That is the one case in which a page is refused and the call returns. -/
theorem full_iff (h : Maps L κ pages s map) :
    map.full ↔ 2 ≤ entryType (kernelEntry s.pmm.mem (l1ptIndex s.heapEnd)) := by
  have hregions := h.backed.regions
  have htop := hregions.top_aligned
  have hge := hregions.heapEnd_ge
  have hle := hregions.heapEnd_le
  have htop_le := hregions.top_le
  unfold KernelMap.full
  rw [h.devices.top, h.heapEnd_eq]
  constructor
  · rintro ⟨hfull, hlt⟩
    rw [hregions.mmio (l1ptIndex s.heapEnd) ⟨by unfold l1ptIndex mebibyte at *; omega, by
      unfold l1ptIndex kernelMmioBase mebibyte at *; omega⟩]
  · intro htype
    by_contra hno
    have hlt : entryType (kernelEntry s.pmm.mem (l1ptIndex s.heapEnd)) < 2 := by
      by_cases hmmio : kernelMmioBase ≤ s.heapEnd
      · have hlast : l1ptIndex s.heapEnd = 0xFFF := by
          unfold l1ptIndex kernelMmioBase highVectorLocation at *
          omega
        rw [hlast, hregions.vectors.1]
        decide
      · by_cases hi : l1ptIndex s.heapEnd * mebibyte < s.heapEnd
        · rw [hregions.heap _ ⟨by unfold l1ptIndex kernelHeapBase mebibyte at *; omega, hi⟩]
          decide
        · rw [hregions.between _ (not_lt.mp hi) (by unfold l1ptIndex mebibyte at *; omega)]
          decide
    omega

/-- An expansion that returns is the one of the flat memory: a page more, or
the answer 0 where the peripherals are in the way. -/
theorem expand (h : Maps L κ pages s map) (hrun : KernelCall.expand.run s = .ok (s', out)) :
    out = (KernelCall.expand.reference map).2 ∧
      ∃ κ' pages', Maps L κ' pages' s' (KernelCall.expand.reference map).1 := by
  have hregions := h.backed.regions
  obtain ⟨⟨s₁, r⟩, hexpand, hout⟩ := Exec.bind_eq_ok.mp hrun
  cases hout
  unfold KernelSpace.expand at hexpand
  obtain ⟨⟨p, page⟩, halloc, hexpand⟩ := Exec.bind_eq_ok.mp hexpand
  dsimp only at hexpand
  rw [KernelCall.reference]
  rcases allocateKernelPage_new hregions.tables h.backed.tables hregions.heapEnd_lt halloc with
    ⟨htype, rfl, rfl⟩ | ⟨κ', hnew⟩
  · rw [if_pos rfl] at hexpand
    cases hexpand
    rw [if_pos (h.full_iff.mpr htype)]
    exact ⟨rfl, κ, pages, h⟩
  · have hlt := hregions.heapEnd_lt_vectors hnew.added
    have hnext : (s.heapEnd + pageSize) % 2 ^ 32 = s.heapEnd + pageSize := by
      refine Nat.mod_eq_of_lt ?_
      unfold highVectorLocation pageSize at *
      omega
    have hroom : ¬map.full :=
      fun hfull => absurd (h.full_iff.mp hfull) (by
        have := hnew.added.entryType_lt (l1ptIndex_lt hregions.heapEnd_lt)
        omega)
    rw [if_neg hnew.added.page_ne_zero, hnext] at hexpand
    cases hexpand
    rw [if_neg hroom]
    exact ⟨rfl, κ', _, h.grow hnew hlt⟩

/-- The heap's next page is mapped already only where it is the vectors'. -/
theorem occupied_iff (h : Maps L κ pages s map) :
    (nextPage s).Occupied s.pmm ↔ s.heapEnd = highVectorLocation := by
  have hregions := h.backed.regions
  constructor
  · rintro ⟨-, hcoarse, hword⟩
    by_contra hne
    have hlt := lt_of_le_of_ne hregions.heapEnd_le hne
    refine hword ?_
    by_cases hmmio : s.heapEnd < kernelMmioBase
    · exact hregions.rest hmmio hcoarse _ (l2ptIndex_lt _) le_rfl
    · have haligned := hregions.heapEnd_aligned
      have hpage : pageNumber s.heapEnd * pageSize = s.heapEnd := by
        unfold pageNumber pageSize at *
        omega
      have hvacant := h.backed.vacant (pageNumber s.heapEnd) hpage.ge
        (by rw [hpage]; exact not_lt.mp hmmio) (by rwa [hpage])
      rwa [L1Table.kernel.pageWord_of_coarse (by rw [← l1ptIndex_eq]; exact hcoarse),
        ← l1ptIndex_eq, ← l2ptIndex_eq] at hvacant
  · intro heq
    unfold nextPage Demand.Occupied
    rw [heq]
    exact ⟨rfl, hregions.vectors⟩

/-- An expansion that does not return has run out of memory, or into the
vectors. -/
theorem expand_outcome (h : Maps L κ pages s map) :
    Outcome Halted (¬KernelCall.expand.Starves s) (KernelCall.expand.run s) := by
  have htables := h.backed.regions.tables
  have hindex := l1ptIndex_lt h.backed.regions.heapEnd_lt
  have halloc : Outcome Halted ((nextPage s).Tested s.pmm ∨ ¬(nextPage s).Exhausted s.pmm ∧
      ¬(nextPage s).Occupied s.pmm) (vm2AllocatePage s.pmm kernelL1PageTable s.heapEnd false
        ⟨.kernelRW, false⟩ none) :=
    vm2AllocatePage_outcome htables.inv (htables.slot hindex) (htables.coarse _ hindex)
  rw [h.occupied_iff, ← not_or] at halloc
  have hexpand : Outcome Halted ((nextPage s).Tested s.pmm ∨
      ¬((nextPage s).Exhausted s.pmm ∨ s.heapEnd = highVectorLocation)) (KernelSpace.expand s) := by
    unfold KernelSpace.expand allocateKernelPage
    refine (halloc.bind_ok (fun _ _ => ⟨_, rfl⟩)).bind_ok fun r _ => ?_
    dsimp only
    split
    · exact ⟨_, rfl⟩
    · exact ⟨_, rfl⟩
  have hrun : Outcome Halted ((nextPage s).Tested s.pmm ∨
      ¬((nextPage s).Exhausted s.pmm ∨ s.heapEnd = highVectorLocation))
      (KernelCall.expand.run s) := hexpand.bind_ok fun _ _ => ⟨_, rfl⟩
  refine hrun.congr ?_
  unfold KernelCall.Starves
  rw [not_and_or, not_not]

/-- A peripheral that fits is mapped, and the answer is the address of the
flat memory's.  Neither the heap nor physical memory notices. -/
theorem mapPeripheral (h : Maps L κ pages s map) (hno : ¬Meets s n) (physical : ℕ) :
    ∃ s', (KernelCall.mapPeripheral physical n).run s =
        .ok (s', ((KernelCall.mapPeripheral physical n).reference map).2) ∧
      Maps L κ pages s' ((KernelCall.mapPeripheral physical n).reference map).1 := by
  have hregions := h.backed.regions
  have hge := hregions.heapEnd_ge
  have hfits : n = 0 ∨ s.heapEnd + n * mebibyte ≤ s.mmioCurrentTop := by
    unfold Meets at hno
    omega
  have hfits' : n * mebibyte ≤ s.mmioCurrentTop := by
    unfold mebibyte at *
    omega
  have hm : PeripheralMapped s n (KernelSpace.mapPeripheral s physical n).1 :=
    mapPeripheral_mapped hregions.top_le hregions.top_aligned hfits'
  have htop := hm.top_eq
  have hnext : ((KernelCall.mapPeripheral physical n).reference map).1 =
      map.mapPeripheral physical n := rfl
  rw [hnext]
  refine ⟨(KernelSpace.mapPeripheral s physical n).1, ?_, h.backed.peripheral hno physical,
    fun i hi => ?_, h.devices.mapPeripheral hregions.top_le hregions.top_aligned
      hfits' physical, (map.mapPeripheral_heapEnd physical n).trans h.heapEnd_eq,
    fun v hv hv' => ?_, fun v hv => ?_⟩
  · have hret : (KernelSpace.mapPeripheral s physical n).2 =
        (KernelSpace.mapPeripheral s physical n).1.mmioCurrentTop := rfl
    unfold KernelCall.run KernelCall.reference
    dsimp only
    rw [hret, h.devices.top, ← htop, Nat.add_sub_cancel]
  · have hbelow := hi.2.trans_le (hregions.peripheral hno physical).top_ge
    exact (hm.kept i (index_of_ram hi) (.inl hbelow)).trans (h.ram i hi)
  · have hv' : v < s.heapEnd := hv'
    have hb := hregions.tables.inv.held_bounds (h.backed.mem _ (h.backed.inHeap hv hv'))
    have hbelow := hregions.tables.below
    dsimp only at hb
    rw [map.mapPeripheral_heap physical n]
    exact (hm.outside _ (.inr (by omega))).trans (h.heap v hv hv')
  · rw [map.mapPeripheral_heap physical n]
    exact h.rest v hv

end Maps

/-- **A call keeps the tables and the address space together**, and returns
the same.  One lemma for each call. -/
theorem kernel_step (h : ∃ κ pages, Maps L κ pages s map) (hc : c.Allowed s)
    (hrun : c.run s = .ok (s', out)) :
    out = (c.reference map).2 ∧ ∃ κ pages, Maps L κ pages s' (c.reference map).1 := by
  obtain ⟨κ, pages, h⟩ := h
  cases c with
  | load v =>
      rw [h.load hc.1 hc.2] at hrun
      cases hrun
      exact ⟨rfl, κ, pages, h⟩
  | store v b =>
      obtain ⟨s₁, hrun₁, h₁⟩ := h.store hc.1 hc.2 b
      cases hrun₁.symm.trans hrun
      exact ⟨rfl, κ, pages, h₁⟩
  | translate v =>
      have hwalk := h.translate hc
      cases hrun
      rw [hwalk]
      exact ⟨rfl, κ, pages, h⟩
  | expand => exact h.expand hrun
  | mapPeripheral physical n =>
      obtain ⟨s₁, hrun₁, h₁⟩ := h.mapPeripheral hc physical
      cases hrun₁.symm.trans hrun
      exact ⟨rfl, κ, pages, h₁⟩

/-- **A call returns** unless it starves. -/
theorem kernel_outcome (h : ∃ κ pages, Maps L κ pages s map) (hc : c.Allowed s) :
    Outcome Halted (¬c.Starves s) (c.run s) := by
  obtain ⟨κ, pages, h⟩ := h
  cases c with
  | load v =>
      rw [h.load hc.1 hc.2]
      exact .returns not_false
  | store v b =>
      obtain ⟨s', hrun, -⟩ := h.store hc.1 hc.2 b
      rw [hrun]
      exact .returns not_false
  | translate v => exact .returns not_false
  | expand => exact h.expand_outcome
  | mapPeripheral physical n => exact .returns not_false

end Step

end CourseOs.KernelSpace
