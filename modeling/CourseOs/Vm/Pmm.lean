import CourseOs.Lib.ByteMemory
import CourseOs.Machine

/-!
# The physical memory manager

`pmm.c`.  The managed range is cut into slices of 8 KiB.  Every slice is
described by a 16-byte record, and the records live in slices of the managed
range themselves: 512 of them fill a `BucketInfo` slice.  A record sits on one
of four doubly linked lists whose heads are fields of the global manager.

The lists are addressed in the source by a pointer to the head field (`struct
MemorySliceInfo ** head`); `PmmList` names the four fields such a pointer can
point to.  The first word of a record holds the bit-fields `type`, `filled`
and `reserved`, and is read and written as a word.

L2 tables and pages are handed out of a slice in the same way, up to the
number of objects in a slice.  `SlotKind` carries what differs, and
`pmmAllocateSlot` / `pmmFreeSlot` are the common bodies of
`pmm_allocate_l2_pagetable` / `pmm_allocate_page` and of their `free`
counterparts.

Which slice a record describes is written in the record; which record
describes a slice is computed from the slice's address, in
`pmm_get_sliceinfo_for_slice`.  That computation expects the records of a
bucket in the slice right before it.  `pmm_init` puts them in the unused slice
it comes to last, which is that one unless it is reserved.
-/

namespace CourseOs.Pmm

open ByteMemory

/-- `enum MemoryType`: what a slice is used for.  Whether it is used at all is
not said by it. -/
inductive MemoryType
  | l1PageTable
  | l2PageTable
  | page
  | bucketInfo
  deriving DecidableEq, Repr

/-- The value of the two-bit `type` field.  The type of a slice that is not in
use is what its record held before. -/
def MemoryType.code : MemoryType → ℕ
  | l1PageTable => 0
  | l2PageTable => 1
  | page => 2
  | bucketInfo => 3

/-- `sizeof(union MemorySlice)`. -/
abbrev sliceSize : ℕ := 8192

/-- `sizeof(struct MemorySliceInfo)`. -/
abbrev sliceInfoSize : ℕ := 16

/-- `SLICEINFO_PER_SLICE`. -/
abbrev sliceinfoPerSlice : ℕ := 512

/-- `KERNEL_VIRTUAL_OFFSET`. -/
abbrev kernelVirtualOffset : ℕ := 0x80000000

/-- The part of `HardwareInfo` that says where the peripherals are.  It is a
parameter, so that any board is covered. -/
structure HardwareInfo where
  peripheralBaseAddress : ℕ
  peripheralRegionSize : ℕ
  deriving DecidableEq, Repr

/-- `address_in_reserved_region`: the peripherals' range, with the sum of its
base and size taken modulo `2 ^ 32`. -/
def addressInReservedRegion (hw : HardwareInfo) (address : ℕ) : Bool :=
  decide (hw.peripheralBaseAddress ≤ sub32 address kernelVirtualOffset) &&
    decide (sub32 address kernelVirtualOffset <
      (hw.peripheralBaseAddress + hw.peripheralRegionSize) % 2 ^ 32)

/-! ### Slice records

A record describes a slice: where it is, what it is used for, which of its
objects are out, and whether it is reserved.  The last three share a word, of
which eleven bits are used. -/

/-- The four words of a `struct MemorySliceInfo`.  The first one holds the
bit-fields. -/
inductive Field
  | entry
  | next
  | prev
  | slice
  deriving DecidableEq

/-- Where the word lies in the record, which has 16 bytes. -/
def Field.offset : Field → ℕ
  | entry => 0
  | next => 4
  | prev => 8
  | slice => 12

/-- Read one word of the record at `r`, the one that holds the field. -/
def info (m : ByteMemory) (r : ℕ) (f : Field) : ℕ := readWord m (r + f.offset)

/-- Write one word of the record at `r`. -/
def setInfo (m : ByteMemory) (r : ℕ) (f : Field) (v : ℕ) : ByteMemory :=
  writeWord m (r + f.offset) v

/-- The bit-field `type`: bits 0 and 1 of the first word. -/
def infoType (m : ByteMemory) (r : ℕ) : ℕ := info m r .entry % 4

/-- The bit-field `filled`: bits 2 to 9 of the first word. -/
def infoFilled (m : ByteMemory) (r : ℕ) : BitVec 8 := BitVec.ofNat 8 (info m r .entry / 4)

/-- The bit-field `reserved`: bit 10 of the first word. -/
def infoReserved (m : ByteMemory) (r : ℕ) : ℕ := info m r .entry / 1024 % 2

/-- Assign the bit-field `type`, the lowest two bits of the word. -/
def setType (m : ByteMemory) (r : ℕ) (t : MemoryType) : ByteMemory :=
  setInfo m r .entry (info m r .entry / 4 * 4 + t.code)

/-- Assign the bit-field `filled`, the eight bits above them. -/
def setFilled (m : ByteMemory) (r : ℕ) (filled : BitVec 8) : ByteMemory :=
  setInfo m r .entry
    (info m r .entry % 4 + 4 * filled.toNat + info m r .entry / 1024 * 1024)

/-- Assign 1 to the bit-field `reserved`, the bit above those. -/
def setReserved (m : ByteMemory) (r : ℕ) : ByteMemory :=
  setInfo m r .entry (info m r .entry % 1024 + 1024 + info m r .entry / 2048 * 2048)

/-! ### The manager and its lists

The four lists share their records: a record is on exactly one of them, and
moving it is how a slice changes its use.  The list operations know nothing of
slices and trust that the record is where the caller says. -/

/-- The head fields of `struct PhysicalMemoryManager`, each the head of a list
of records. -/
inductive PmmList
  | unused
  | allocated
  | l2ptPartialFree
  | pagePartialFree
  deriving DecidableEq, Repr

/-- `struct PhysicalMemoryManager`: the heads of the four lists, and the range
that is managed. -/
structure PhysicalMemoryManager where
  unused : ℕ
  allocated : ℕ
  l2ptPartialFree : ℕ
  pagePartialFree : ℕ
  start : ℕ
  endAddress : ℕ
  deriving DecidableEq

/-- Memory and the global `physicalMemoryManager`. -/
structure PmmState where
  mem : ByteMemory
  manager : PhysicalMemoryManager

namespace PmmState

/-- `*head` for a pointer to one of the head fields; a list that is empty has
the head 0. -/
def head (s : PmmState) : PmmList → ℕ
  | .unused => s.manager.unused
  | .allocated => s.manager.allocated
  | .l2ptPartialFree => s.manager.l2ptPartialFree
  | .pagePartialFree => s.manager.pagePartialFree

/-- `*head = p`: the routines on lists are given a pointer to the manager's
field. -/
def setHead (s : PmmState) (l : PmmList) (p : ℕ) : PmmState :=
  match l with
  | .unused => { s with manager := { s.manager with unused := p } }
  | .allocated => { s with manager := { s.manager with allocated := p } }
  | .l2ptPartialFree => { s with manager := { s.manager with l2ptPartialFree := p } }
  | .pagePartialFree => { s with manager := { s.manager with pagePartialFree := p } }

/-- Replace the memory. -/
def withMem (s : PmmState) (m : ByteMemory) : PmmState := { s with mem := m }

@[simp] theorem withMem_mem (s : PmmState) (m : ByteMemory) : (s.withMem m).mem = m := rfl

@[simp] theorem withMem_manager (s : PmmState) (m : ByteMemory) :
    (s.withMem m).manager = s.manager := rfl

@[simp] theorem head_withMem (s : PmmState) (m : ByteMemory) (l : PmmList) :
    (s.withMem m).head l = s.head l := by
  cases l <;> rfl

@[simp] theorem setHead_mem (s : PmmState) (l : PmmList) (p : ℕ) :
    (s.setHead l p).mem = s.mem := by
  cases l <;> rfl

@[simp] theorem setHead_start (s : PmmState) (l : PmmList) (p : ℕ) :
    (s.setHead l p).manager.start = s.manager.start := by
  cases l <;> rfl

@[simp] theorem setHead_endAddress (s : PmmState) (l : PmmList) (p : ℕ) :
    (s.setHead l p).manager.endAddress = s.manager.endAddress := by
  cases l <;> rfl

theorem head_setHead (s : PmmState) (l l' : PmmList) (p : ℕ) :
    (s.setHead l p).head l' = if l' = l then p else s.head l' := by
  cases l <;> cases l' <;> rfl

end PmmState

/-- `push_to_ll`.  The `prev` word of the entry itself is not written. -/
def pushToLl (s : PmmState) (head : PmmList) (entry : ℕ) : PmmState :=
  let m := if s.head head ≠ 0 then setInfo s.mem (s.head head) .prev entry else s.mem
  (s.withMem (setInfo m entry .next (s.head head))).setHead head entry

/-- `pop_from_ll`: the head is dereferenced without a test for null. -/
def popFromLl (s : PmmState) (head : PmmList) : Exec (PmmState × ℕ) :=
  let top := s.head head
  if top = 0 then .error .nullDereference
  else
    let rest := info s.mem top .next
    let m := if rest ≠ 0 then setInfo s.mem rest .prev 0 else s.mem
    .ok ((s.withMem (setInfo (setInfo m top .next 0) top .prev 0)).setHead head rest, top)

/-- `entry->next->prev = entry->prev`, if there is a next entry. -/
def unlinkPrev (m : ByteMemory) (entry : ℕ) : ByteMemory :=
  if info m entry .next ≠ 0 then setInfo m (info m entry .next) .prev (info m entry .prev) else m

/-- `entry->prev->next = entry->next`, if there is a previous entry; otherwise
`*head = entry->next`. -/
def unlinkNext (s : PmmState) (head : PmmList) (entry : ℕ) : PmmState :=
  if info s.mem entry .prev ≠ 0 then
    s.withMem (setInfo s.mem (info s.mem entry .prev) .next (info s.mem entry .next))
  else s.setHead head (info s.mem entry .next)

/-- `remove_element_ll`, from the list that `head` is the head of. -/
def removeElementLl (s : PmmState) (head : PmmList) (entry : ℕ) : PmmState :=
  let s := unlinkNext (s.withMem (unlinkPrev s.mem entry)) head entry
  s.withMem (setInfo (setInfo s.mem entry .next 0) entry .prev 0)

/-- `first_free`: the index of the lowest clear bit, by counting the leading
zeros of that bit alone. -/
def firstFree (filled : BitVec 8) : ℕ :=
  let free : BitVec 16 := ~~~filled.setWidth 16
  32 - ((free &&& -free).setWidth 32).clz.toNat - 1

/-! ### Initialisation

`pmm_init` takes the slices in their order.  The records of the first bucket
lie in the first slice, and whenever a bucket is full one more slice is taken
for the next one. -/

/-- `pmm_new_sliceinfo_slice`: the first unused slice is taken for records. -/
def pmmNewSliceinfoSlice (s : PmmState) : Exec (PmmState × ℕ) := do
  let (s, sliceinfo) ← popFromLl s .unused
  let m := setFilled (setType s.mem sliceinfo .bucketInfo) sliceinfo 0
  .ok (pushToLl (s.withMem m) .allocated sliceinfo, sliceinfo)

/-- What `pmm_init` does with one slice `i` once its record is known: point
the record at the slice and put it on a list. -/
def indexSlice (hw : HardwareInfo) (s : PmmState) (sliceinfo i : ℕ) : PmmState :=
  let m := setInfo s.mem sliceinfo .slice i
  if addressInReservedRegion hw i then
    pushToLl (s.withMem (setReserved m sliceinfo)) .allocated sliceinfo
  else pushToLl (s.withMem m) .unused sliceinfo

/-- The loop of `pmm_init`, for at most `fuel` slices.  When a bucket of
records is full, an unused slice is taken for the next one. -/
def pmmInitLoop (hw : HardwareInfo) : ℕ → ℕ → ℕ → ℕ → PmmState → Exec PmmState
  | 0, _, _, _, _ => .error .diverged
  | fuel + 1, i, infoindex, currentslice, s =>
      if i < s.manager.endAddress then
        let s := indexSlice hw s (currentslice + sliceInfoSize * infoindex) i
        let i := (i + sliceSize) % 2 ^ 32
        if sliceinfoPerSlice ≤ infoindex + 1 then do
          let (s, bucket) ← pmmNewSliceinfoSlice s
          pmmInitLoop hw fuel i 0 (info s.mem bucket .slice) s
        else pmmInitLoop hw fuel i (infoindex + 1) currentslice s
      else .ok s

/-- The first record of `pmm_init`, which describes the slice it lies in, and
the manager that knows only this record. -/
def pmmFirst (mem : ByteMemory) (start endAddress : ℕ) : PmmState where
  mem :=
    let m := setType (setInfo (setInfo mem start .next 0) start .prev 0) start .bucketInfo
    setFilled (setInfo m start .slice start) start 1
  manager := {
    start := start
    endAddress := endAddress
    l2ptPartialFree := 0
    pagePartialFree := 0
    allocated := start
    unused := 0 }

/-- `pmm_init`.  A loop over more slices than the address space holds has
wrapped around and does not end. -/
def pmmInit (hw : HardwareInfo) (mem : ByteMemory) (start endAddress : ℕ) : Exec PmmState :=
  pmmInitLoop hw (2 ^ 32 / sliceSize) ((start + sliceSize) % 2 ^ 32) 1 start
    (pmmFirst mem start endAddress)

/-! ### Looking a slice up

The lookup computes where a record should be and does not search for it.  It
expects the records of a bucket in the last slice of the bucket before, which
is where `pmm_init` puts them as long as that slice is not reserved. -/

/-- The outcome of `pmm_get_sliceinfo_for_slice`: the `SLICE_INFO_ERRNO` and,
on success, the record. -/
inductive SliceInfoLookup
  | success (sliceinfo : ℕ)
  | reservedMmioMemory
  deriving DecidableEq

/-- `pmm_get_sliceinfo_for_slice`.  The records of 512 slices stand together:
in the slice before these, or, of the first bucket, in its own first slice. -/
def pmmGetSliceinfoForSlice (s : PmmState) (slice : ℕ) : SliceInfoLookup :=
  let bucketsize := sliceinfoPerSlice * sliceSize
  let bucketindex := sub32 slice s.manager.start / bucketsize
  let correction := if bucketindex = 0 then 0 else 1
  let bucketinfo :=
    sub32 ((s.manager.start + bucketindex * bucketsize) % 2 ^ 32) (correction * sliceSize)
  let firstAddressInBucket := (bucketinfo + correction * sliceSize) % 2 ^ 32
  let index := sub32 slice firstAddressInBucket / sliceSize
  let sliceinfo := (bucketinfo + sliceInfoSize * index) % 2 ^ 32
  if infoReserved s.mem sliceinfo = 1 then .reservedMmioMemory else .success sliceinfo

/-- The message of the three `FATAL` calls in the `free` functions. -/
def invalidSliceMessage : String := "Attempted to free invalid slice"

/-! ### L1 page tables

An L1 table fills a slice.  This allocation is the only one that looks whether
there is an unused slice. -/

/-- `pmm_free_l1_pagetable`.  The null pointer is ignored; an address whose
record says reserved stops the kernel. -/
def pmmFreeL1Pagetable (s : PmmState) (pt : ℕ) : Exec PmmState :=
  if pt = 0 then .ok s
  else
    match pmmGetSliceinfoForSlice s pt with
    | .reservedMmioMemory => .error (.fatal invalidSliceMessage)
    | .success sliceinfo =>
        let s := pushToLl (removeElementLl s .allocated sliceinfo) .unused sliceinfo
        .ok (s.withMem (setInfo s.mem sliceinfo .prev 0))

/-- `pmm_allocate_l1_pagetable`; 0 is `NULL`, which is returned when no slice
is unused. -/
def pmmAllocateL1Pagetable (s : PmmState) : Exec (PmmState × ℕ) :=
  if s.head .unused = 0 then .ok (s, 0)
  else do
    let (s, sliceinfo) ← popFromLl s .unused
    let s := pushToLl (s.withMem (setType s.mem sliceinfo .l1PageTable)) .allocated sliceinfo
    let pt := info s.mem sliceinfo .slice
    .ok (s.withMem (fill s.mem pt sliceSize 0), pt)

/-! ### L2 page tables and pages

Both kinds of object share slices with others of their kind, and their
routines in the source are the same but for constants.  They are one
definition here, with the constants for parameters, and the four routines are
instances of it. -/

/-- The objects that share a slice.  An L1 table fills a slice of its own. -/
inductive SlotKind
  | l2
  | page
  deriving DecidableEq, Repr

namespace SlotKind

/-- The list of slices with some but not all objects handed out. -/
def partialFree : SlotKind → PmmList
  | l2 => .l2ptPartialFree
  | page => .pagePartialFree

/-- The type written to the record of a slice opened for these objects. -/
def memoryType : SlotKind → MemoryType
  | l2 => .l2PageTable
  | page => .page

/-- `L2TABLES_PER_SLICE` and `PAGES_PER_SLICE`. -/
def perSlice : SlotKind → ℕ
  | l2 => 8
  | page => 2

/-- `sizeof(struct L2PageTable)` and `sizeof(struct Page)`. -/
def size : SlotKind → ℕ
  | l2 => 1024
  | page => 4096

/-- The value of `filled` in a slice with no free object. -/
def full : SlotKind → BitVec 8
  | l2 => 0xff#8
  | page => 0b11#8

end SlotKind

/-- The common body of `pmm_allocate_l2_pagetable` and `pmm_allocate_page`:
the lowest object of the first slice on the partially free list, or else the
first object of an unused slice.  There is no test whether there is one. -/
def pmmAllocateSlot (k : SlotKind) (s : PmmState) : Exec (PmmState × ℕ) :=
  if s.head k.partialFree ≠ 0 then do
    let sliceinfo := s.head k.partialFree
    let index := firstFree (infoFilled s.mem sliceinfo)
    let object := info s.mem sliceinfo .slice + k.size * index
    let filled := infoFilled s.mem sliceinfo ||| (1#8 <<< index)
    let s := s.withMem (setFilled s.mem sliceinfo filled)
    let s ←
      if infoFilled s.mem sliceinfo = k.full then do
        let (s, _) ← popFromLl s k.partialFree
        .ok (pushToLl s .allocated sliceinfo)
      else .ok s
    .ok (s.withMem (fill s.mem object k.size 0), object)
  else do
    let (s, sliceinfo) ← popFromLl s .unused
    let m := setFilled (setType s.mem sliceinfo k.memoryType) sliceinfo 1
    let s := pushToLl (s.withMem m) k.partialFree sliceinfo
    let object := info s.mem sliceinfo .slice
    .ok (s.withMem (fill s.mem object k.size 0), object)

/-- The common body of `pmm_free_l2_pagetable` and `pmm_free_page`: the bit of
the object is cleared, and the slice moves to the list that its mask now
names. -/
def pmmFreeSlot (k : SlotKind) (s : PmmState) (object : ℕ) : Exec PmmState :=
  match pmmGetSliceinfoForSlice s object with
  | .reservedMmioMemory => .error (.fatal invalidSliceMessage)
  | .success sliceinfo =>
      let s :=
        if infoFilled s.mem sliceinfo = k.full then removeElementLl s .allocated sliceinfo
        else removeElementLl s k.partialFree sliceinfo
      let indexInSlice := sub32 object (info s.mem sliceinfo .slice) / k.size
      let filled := infoFilled s.mem sliceinfo &&& ~~~(1#8 <<< indexInSlice)
      let s := s.withMem (setFilled s.mem sliceinfo filled)
      if infoFilled s.mem sliceinfo = 0 then .ok (pushToLl s .unused sliceinfo)
      else .ok (pushToLl s k.partialFree sliceinfo)

/-- `pmm_allocate_l2_pagetable`, one of the users of a slice that is given out
in parts. -/
def pmmAllocateL2Pagetable : PmmState → Exec (PmmState × ℕ) := pmmAllocateSlot .l2

/-- `pmm_allocate_page`, the other one. -/
def pmmAllocatePage : PmmState → Exec (PmmState × ℕ) := pmmAllocateSlot .page

/-- `pmm_free_l2_pagetable`: the part is marked free, and the slice with it
where it was the last. -/
def pmmFreeL2Pagetable : PmmState → ℕ → Exec PmmState := pmmFreeSlot .l2

/-- `pmm_free_page`, in the same way. -/
def pmmFreePage : PmmState → ℕ → Exec PmmState := pmmFreeSlot .page

end CourseOs.Pmm
