import CourseOs.Vm.Pmm

/-!
# Page tables

`vm2.c`.  An L1 table has a word for every MiB of virtual addresses.  A word
of type 1 leads to an L2 table, which has a word for every page of that MiB; a
word of type 2 or 3 maps the MiB as a section.  Tables and pages come from the
physical memory manager and are reached through the kernel's mapping of
physical memory at `KERNEL_VIRTUAL_OFFSET`, so that tables are read and
written at the addresses `PHYS2VIRT` gives.

The entries are words here; `entryType`, `coarseBaseAddress` and
`smallpageBaseAddress` are the bit-fields that are read, and `coarseEntry`,
`sectionEntry` and `smallpageEntry` the entries that are assigned, all their
other fields being zero.

`mapPage` is the case of `vm2_allocate_page` for a coarse entry, which the
case for an empty entry falls through to.  A parameter `created : Option ℕ` is
the pointer `created_l2pt`: `none` for `NULL`, and otherwise the pointer it
points to.  The case for an empty entry stores the table there, and the coarse
case, which follows in the same call, stores `NULL`.

The kernel's own L1 table is `kernell1PageTable`.
`vm2_l1_map_physical_to_virtual` writes to it whatever table it is given, and
`vm2_map_peripheral` maps its sections there without a look at what the
entries hold.

Caches and the TLB are not modelled, and the flushes are left out.
-/

namespace CourseOs.Pmm

open ByteMemory

/-- `Mebibyte`. -/
abbrev mebibyte : ℕ := 0x100000

/-- `VirtualL1PagetableLocation`, the value of `kernell1PageTable`. -/
abbrev kernelL1PageTable : ℕ := kernelVirtualOffset + 0x4000

/-- `HIGH_VECTOR_LOCATION`. -/
abbrev highVectorLocation : ℕ := 0xFFFF0000

/-- `KERNEL_MMIO_BASE`. -/
abbrev kernelMmioBase : ℕ := 0xFFF00000

/-- `KERNEL_HEAP_BASE`. -/
abbrev kernelHeapBase : ℕ := 0xC0000000

/-- `PHYS2VIRT`: physical memory is mapped from the kernel's offset on. -/
def phys2virt (address : ℕ) : ℕ := (address + kernelVirtualOffset) % 2 ^ 32

/-- `VIRT2PHYS`, in 32 bits, for addresses in that part. -/
def virt2phys (address : ℕ) : ℕ := sub32 address kernelVirtualOffset

/-! ### Indices and entries

Addresses are cut into the index of the MiB, that of the page, and the place
in the page.  The fields of entries are given by their shifts, and permissions
by the codes of the hardware. -/

/-- `l1pt_index`: the topmost twelve bits, a section each. -/
def l1ptIndex (address : ℕ) : ℕ := address / 2 ^ 20

/-- `l2pt_index`: the eight bits below them, a page each. -/
def l2ptIndex (address : ℕ) : ℕ := address / 2 ^ 12 % 2 ^ 8

/-- `l1pt_base_address`: of a physical address, what a section entry stores. -/
def l1ptBaseAddress (address : ℕ) : ℕ := l1ptIndex address

/-- `l2pt_base_address`: of a physical address, what a small page entry
stores. -/
def l2ptBaseAddress (address : ℕ) : ℕ := address / 2 ^ 12

/-- `&pt->entries[i]`, for tables of either level. -/
def entryAt (pt i : ℕ) : ℕ := pt + 4 * i

/-- `enum Access`: who may read a page, and who may write to it. -/
inductive Access
  | kernelRO
  | kernelRW
  | userRO
  | userRW
  deriving DecidableEq, Repr

/-- `struct PagePermission`, what a caller asks for. -/
structure PagePermission where
  access : Access
  executable : Bool
  deriving DecidableEq, Repr

/-- The field `accessPerms` of an entry: whether user mode gets at the page at
all. -/
def Access.accessPerms : Access → ℕ
  | kernelRO => 0b01
  | kernelRW => 0b01
  | userRO => 0b10
  | userRW => 0b11

/-- The field `accessExtended` of an entry, which makes a kernel page one that
is only read. -/
def Access.accessExtended : Access → ℕ
  | kernelRO => 1
  | kernelRW => 0
  | userRO => 0
  | userRW => 0

/-- The field `global` of an entry: whether the page is the same in all
address spaces. -/
def Access.global : Access → Bool
  | kernelRO => true
  | kernelRW => true
  | userRO => false
  | userRW => false

/-- The bit-field `type` of an entry of either level. -/
def entryType (entry : ℕ) : ℕ := entry % 4

/-- The bit-field `coarse.base_address`, in units of an L2 table. -/
def coarseBaseAddress (entry : ℕ) : ℕ := entry / 2 ^ 10 % 2 ^ 22

/-- The bit-field `smallpage.base_address`, in units of a page. -/
def smallpageBaseAddress (entry : ℕ) : ℕ := entry / 2 ^ 12 % 2 ^ 20

/-- A coarse entry with this `base_address`, and 0 in its other fields. -/
def coarseEntry (baseAddress : ℕ) : ℕ := 1 + 2 ^ 10 * (baseAddress % 2 ^ 22)

/-- A section with `accessPermissions` 1 and this `base_address`. -/
def sectionEntry (baseAddress : ℕ) : ℕ := 2 + 2 ^ 10 * 1 + 2 ^ 20 * (baseAddress % 2 ^ 12)

/-- A small page with these permissions and this `base_address`. -/
def smallpageEntry (perms : PagePermission) (baseAddress : ℕ) : ℕ :=
  (2 + if perms.executable then 0 else 1) + 2 ^ 4 * perms.access.accessPerms +
    2 ^ 9 * perms.access.accessExtended + (2 ^ 11 * if perms.access.global then 0 else 1) +
    2 ^ 12 * (baseAddress % 2 ^ 20)

/-- The L2 table a coarse entry leads to, as an address of the kernel's. -/
def l2Table (entry : ℕ) : ℕ := phys2virt (coarseBaseAddress entry * 2 ^ 10)

/-- The page a small page entry leads to, as a physical address. -/
def smallpageAddress (entry : ℕ) : ℕ := smallpageBaseAddress entry * 2 ^ 12

/-- `find_l2pt`: the table a coarse entry leads to.  Any other entry stops the
kernel. -/
def findL2pt (l1Entry : ℕ) : Exec ℕ :=
  if entryType l1Entry = 1 then .ok (l2Table l1Entry)
  else .error (.fatal "Can't get L2 address from non-coarse L1 Entry")

/-! ### Mapping and unmapping

The calls for single pages.  Both start from the L1 entry: an allocation makes
it coarse if it is empty, and a free expects it to be coarse. -/

/-- The case of `vm2_allocate_page` for a coarse entry; `l2` is 0 when the
entry was coarse before, and then the table is found through the entry. -/
def mapPage (s : PmmState) (l1Entry l2 virtual : ℕ) (remap : Bool) (perms : PagePermission)
    (created : Option ℕ) : Exec (PmmState × ℕ × Option ℕ) := do
  let (s, page) ← pmmAllocatePage s
  let l2 ← (if l2 = 0 then findL2pt (readWord s.mem l1Entry) else .ok l2)
  let l2Entry := entryAt l2 (l2ptIndex virtual)
  if readWord s.mem l2Entry ≠ 0 ∧ remap = false then
    .error (.fatal "Overwriting entry in l2pt : 0x%x")
  else
    let entry := smallpageEntry perms (l2ptBaseAddress (virt2phys page))
    -- the table that the other case has just reported is forgotten here
    let created := created.map fun c => if c ≠ 0 then 0 else c
    .ok (s.withMem (writeWord s.mem l2Entry entry), page, created)

/-- `vm2_allocate_page`; the page is 0 for `NULL`. -/
def vm2AllocatePage (s : PmmState) (l1pt virtual : ℕ) (remap : Bool) (perms : PagePermission)
    (created : Option ℕ) : Exec (PmmState × ℕ × Option ℕ) :=
  let l1Entry := entryAt l1pt (l1ptIndex virtual)
  match entryType (readWord s.mem l1Entry) with
  | 0 => do
      let (s, l2) ← pmmAllocateL2Pagetable s
      let entry := coarseEntry (virt2phys l2 / 2 ^ 10)
      mapPage (s.withMem (writeWord s.mem l1Entry entry)) l1Entry l2 virtual remap perms
        (created.map fun _ => l2)
  | 1 => mapPage s l1Entry 0 virtual remap perms created
  | _ => .ok (s, 0, created)

/-- `vm2_free_page`.  The L1 entry has to be coarse; that the entry of the L2
table is there is not asked. -/
def vm2FreePage (s : PmmState) (l1pt virtual : ℕ) : Exec PmmState :=
  let l1Entry := readWord s.mem (entryAt l1pt (l1ptIndex virtual))
  if entryType l1Entry = 1 then do
    let l2 ← findL2pt l1Entry
    let l2Entry := entryAt l2 (l2ptIndex virtual)
    let s ← pmmFreePage s (virt2phys (smallpageAddress (readWord s.mem l2Entry)))
    .ok (s.withMem (writeWord s.mem l2Entry 0))
  else .ok s

/-! ### Sections

The calls for whole MiB, which are made while the kernel starts and for its
peripherals. -/

/-- `vm2_l1_map_physical_to_virtual`: the slot of `pt` is looked at, and the
slot of the kernel's table is written. -/
def vm2L1MapPhysicalToVirtual (m : ByteMemory) (pt entry virtual : ℕ) (remap : Bool) :
    Exec (ByteMemory × Bool) :=
  let mapped := readWord m (entryAt pt (l1ptIndex virtual)) ≠ 0
  if mapped ∧ remap = false then .error (.fatal "Request for already mapped address denied")
  else
    .ok (writeWord m (entryAt kernelL1PageTable (l1ptIndex virtual)) entry, decide mapped)

/-- The loop of `vm2_map_peripheral`, with `n` rounds to go.  Each writes the
section of one MiB and goes a MiB up, without a look at what the entry holds. -/
def mapPeripheralLoop : ℕ → ℕ → ℕ → ByteMemory → ByteMemory × ℕ
  | 0, mmioCurrentTop, _, m => (m, mmioCurrentTop)
  | n + 1, mmioCurrentTop, physical, m =>
      let entry := sectionEntry (l1ptBaseAddress physical)
      mapPeripheralLoop n ((mmioCurrentTop + mebibyte) % 2 ^ 32) ((physical + mebibyte) % 2 ^ 32)
        (writeWord m (entryAt kernelL1PageTable (l1ptIndex mmioCurrentTop)) entry)

/-- `vm2_map_peripheral`.  The static `mmio_current_top` is passed in, and
returned: its new value is also the value the function returns. -/
def vm2MapPeripheral (m : ByteMemory) (mmioCurrentTop physical nMebibytes : ℕ) :
    ByteMemory × ℕ :=
  let size := nMebibytes * mebibyte % 2 ^ 32
  let (m, top) := mapPeripheralLoop nMebibytes (sub32 mmioCurrentTop size) physical m
  (m, sub32 top size)

/-- The loop of `vm2_start` over physical memory, with `n` MiB to go from `i`
on. -/
def mapRamLoop : ℕ → ℕ → ByteMemory → Exec ByteMemory
  | 0, _, m => .ok m
  | n + 1, i, m => do
      let (m, _) ← vm2L1MapPhysicalToVirtual m kernelL1PageTable (sectionEntry (l1ptBaseAddress i))
        (kernelVirtualOffset + i) true
      mapRamLoop n (i + mebibyte) m

/-- `vm2_start` on a board with 1 GiB of memory, of which `detectedSize` bytes
are managed from `kernelPmmBase` on. -/
def vm2Start (hw : HardwareInfo) (kernelPmmBase detectedSize : ℕ) (m : ByteMemory) :
    Exec PmmState := do
  let m := writeWord m (entryAt kernelL1PageTable 0) 0
  let m ← mapRamLoop 1024 0 m
  pmmInit hw m kernelPmmBase ((kernelVirtualOffset + detectedSize) % 2 ^ 32)

end CourseOs.Pmm
