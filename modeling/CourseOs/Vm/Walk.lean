import CourseOs.Vm.Vm2

/-!
# The walk through the tables

What the hardware makes of the entries that `vm2.c` writes.  An entry of an L1
table is coarse, or a section, or it is invalid; a coarse entry leads to an L2
table, whose entries are small pages or invalid.  Supersections and large
pages, which `vm2.c` never writes, count as invalid here.

`walk` gives the physical address, or nothing where the hardware would fault.
It is no function of the kernel: it says what the tables are for, and the
results about `vm2.c` are stated with it.
-/

namespace CourseOs.Pmm

open ByteMemory

variable {m m' : ByteMemory} {l1pt v w entry p : ℕ}

/-- The bit-field `section.supersection`. -/
def supersection (entry : ℕ) : ℕ := entry / 2 ^ 18 % 2

/-- The bit-field `section.base_address`. -/
def sectionBaseAddress (entry : ℕ) : ℕ := entry / 2 ^ 20

/-- The page that an entry of an L2 table leads to, as a physical address. -/
def smallpage (entry : ℕ) : Option ℕ :=
  if 2 ≤ entryType entry then some (smallpageAddress entry) else none

/-- The page in which `v` lies, as a physical address, if the L1 entry for `v`
is `entry`. -/
def walkEntry (m : ByteMemory) (entry v : ℕ) : Option ℕ :=
  match entryType entry with
  | 1 => smallpage (readWord m (entryAt (l2Table entry) (l2ptIndex v)))
  | 2 =>
      if supersection entry = 0 then some (sectionBaseAddress entry * 2 ^ 20 + l2ptIndex v * 2 ^ 12)
      else none
  | _ => none

/-- The physical address that `v` translates to in the table at `l1pt`, by the
page or the section it is in. -/
def walk (m : ByteMemory) (l1pt v : ℕ) : Option ℕ :=
  (walkEntry m (readWord m (entryAt l1pt (l1ptIndex v))) v).map (· + v % 2 ^ 12)

/-- The place of an address in its MiB, by its page and the place in the page. -/
theorem l2ptIndex_add (v : ℕ) : l2ptIndex v * 2 ^ 12 + v % 2 ^ 12 = v % mebibyte := by
  have hmod : v / 2 ^ 12 % 2 ^ 8 * 2 ^ 12 + v % 2 ^ 12 = v % 0x100000 := by omega
  exact hmod

/-- A section translates the address `v` of its MiB to the same place in the
MiB at `p`. -/
theorem walk_section (hp : p % mebibyte = 0) (hlt : p < 2 ^ 32)
    (hentry : readWord m (entryAt l1pt (l1ptIndex v)) = sectionEntry (l1ptBaseAddress p)) :
    walk m l1pt v = some (p + v % mebibyte) := by
  have htype : entryType (sectionEntry (l1ptBaseAddress p)) = 2 := by
    unfold entryType sectionEntry
    omega
  have hsuper : supersection (sectionEntry (l1ptBaseAddress p)) = 0 := by
    unfold supersection sectionEntry
    omega
  have hbase : sectionBaseAddress (sectionEntry (l1ptBaseAddress p)) * 2 ^ 20 = p := by
    unfold sectionBaseAddress sectionEntry l1ptBaseAddress l1ptIndex
    unfold mebibyte at hp
    omega
  unfold walk walkEntry
  rw [hentry]
  simp only [htype, if_pos hsuper, Option.map_some]
  rw [hbase, Nat.add_assoc, l2ptIndex_add]

end CourseOs.Pmm
