import CourseOs.Vm.PmmRun
import CourseOs.Vm.Vm2

/-!
# Which table a section is mapped in

`vm2_l1_map_physical_to_virtual` decides by the table it is given whether a
slot is occupied, and then writes the kernel's table.  A caller cannot tell as
long as it gives the kernel's table, as `vm2_start` does.

* `L1Tables` — the L1 tables there are, the kernel's among them, no two of
  which overlap;
* `SectionCall` — a call, with an address within the table it gives;
* `ActsOnGiven` — every call of a sequence acts on the table it gives, and the
  tables hold what was mapped in them;
* `WritesOwn` — every call gives the kernel's table, or finds its entry in
  both tables already;
* `actsOnGiven_iff` — the one says the same as the other.

What the tables should hold is said by the calls alone: `lastMapped` is the
entry that the last call for a slot has asked for.  A call that gives another
table and finds its entry in both already writes what is there, so nobody can
tell; that is the only way in which such a call acts on the table it gives.
-/

namespace CourseOs.Pmm

open ByteMemory

/-- An L1 table, by its address and the number of its entries: 0x1000 in the
kernel's, and 0x800 in a process's. -/
structure L1Table where
  base : ℕ
  entries : ℕ
  deriving DecidableEq, Repr

/-- `kernell1PageTable`, with an entry for every section of the address space. -/
def L1Table.kernel : L1Table := ⟨kernelL1PageTable, 0x1000⟩

/-- `entries[i]`. -/
def L1Table.entry (t : L1Table) (m : ByteMemory) (i : ℕ) : ℕ := readWord m (entryAt t.base i)

/-- The L1 tables there are, the kernel's among them.  No two of them overlap. -/
structure L1Tables where
  carrier : Set L1Table
  kernel_mem : L1Table.kernel ∈ carrier
  apart : ∀ t ∈ carrier, ∀ t' ∈ carrier, t ≠ t' →
    RangesDisjoint t.base (4 * t.entries) t'.base (4 * t'.entries)

/-- A call to `vm2_l1_map_physical_to_virtual`, on a table there is and for an
address that the table has an entry for. -/
structure SectionCall (T : L1Tables) where
  table : L1Table
  entry : ℕ
  virtual : ℕ
  remap : Bool
  table_mem : table ∈ T.carrier
  entry_lt : entry < 2 ^ 32
  virtual_lt : virtual < 2 ^ 32
  index_lt : l1ptIndex virtual < table.entries

variable {T : L1Tables} {c : SectionCall T} {calls earlier : List (SectionCall T)} {t : L1Table}
  {m m₁ m₂ : ByteMemory} {i : ℕ} {mapped : Bool}

namespace SectionCall

/-- The index of the slot, which the virtual address names. -/
def index (c : SectionCall T) : ℕ := l1ptIndex c.virtual

/-- What the call does, and whether it mapped anything. -/
def run (c : SectionCall T) (m : ByteMemory) : Exec (ByteMemory × Bool) :=
  vm2L1MapPhysicalToVirtual m c.table.base c.entry c.virtual c.remap

/-- The call may replace what is in the slot, or the slot is empty. -/
def Admissible (c : SectionCall T) (m : ByteMemory) : Prop :=
  c.remap = true ∨ c.table.entry m c.index = 0

/-- The call is for entry `i` of the table `t`. -/
def At (c : SectionCall T) (t : L1Table) (i : ℕ) : Prop := c.table = t ∧ c.index = i

instance : Decidable (c.At t i) := inferInstanceAs (Decidable (_ ∧ _))

/-- The call gives the kernel's table, or both its table and the kernel's have
the entry it maps. -/
def OwnSlot (c : SectionCall T) (m : ByteMemory) : Prop :=
  c.table = L1Table.kernel ∨
    (L1Table.kernel.entry m c.index = c.entry ∧ c.table.entry m c.index = c.entry)

end SectionCall

/-- The memory after some calls, all of them admissible.  A new call is at the
end of the list. -/
inductive SectionCalls (m : ByteMemory) : List (SectionCall T) → ByteMemory → Prop
  | nil : SectionCalls m [] m
  | snoc {calls : List (SectionCall T)} {c : SectionCall T} {m₁ m₂ : ByteMemory} {mapped : Bool}
      (hcalls : SectionCalls m calls m₁) (hadm : c.Admissible m₁)
      (hrun : c.run m₁ = .ok (m₂, mapped)) : SectionCalls m (calls ++ [c]) m₂

/-- The entry that the last of the calls for entry `i` of `t` has mapped, if
there was one. -/
def lastMapped (calls : List (SectionCall T)) (t : L1Table) (i : ℕ) : Option ℕ :=
  calls.foldl (fun last c => if c.At t i then some c.entry else last) none

/-- Every table holds what was last mapped in it, and what it held before
elsewhere. -/
def TablesHold (m : ByteMemory) (calls : List (SectionCall T)) (m' : ByteMemory) : Prop :=
  ∀ t ∈ T.carrier, ∀ i < t.entries, t.entry m' i = (lastMapped calls t i).getD (t.entry m i)

/-- The call left all tables but its own alone, and it told whether the slot
was occupied. -/
structure Confined (c : SectionCall T) (m₁ m₂ : ByteMemory) (mapped : Bool) : Prop where
  others : ∀ t ∈ T.carrier, t ≠ c.table → ∀ i < t.entries, t.entry m₂ i = t.entry m₁ i
  told : mapped = true ↔ c.table.entry m₁ c.index ≠ 0

/-- Every call of the sequence, in the state the calls before it have left,
returns and acts on the table it gives. -/
def ActsOnGiven (m : ByteMemory) (calls : List (SectionCall T)) : Prop :=
  ∀ earlier c, earlier ++ [c] <+: calls → ∀ m₁, SectionCalls m earlier m₁ → c.Admissible m₁ →
    ∃ m₂ mapped, c.run m₁ = .ok (m₂, mapped) ∧ TablesHold m (earlier ++ [c]) m₂ ∧
      Confined c m₁ m₂ mapped

/-- Every call of the sequence, in the state the calls before it have left,
writes what its own slot holds afterwards. -/
def WritesOwn (m : ByteMemory) (calls : List (SectionCall T)) : Prop :=
  ∀ earlier c, earlier ++ [c] <+: calls → ∀ m₁, SectionCalls m earlier m₁ → c.Admissible m₁ →
    c.OwnSlot m₁

/-! ### One call

A call looks at the slot of the table it is given and writes the slot of the
kernel's.  If the two are one slot nobody can tell. -/

theorem lastMapped_snoc (calls : List (SectionCall T)) (c : SectionCall T) :
    lastMapped (calls ++ [c]) t i = if c.At t i then some c.entry else lastMapped calls t i := by
  unfold lastMapped
  rw [List.foldl_concat]

/-- A call writes the kernel's slot, whichever table it gives. -/
theorem SectionCall.run_eq (c : SectionCall T) (hadm : c.Admissible m₁) :
    c.run m₁ = .ok (writeWord m₁ (entryAt kernelL1PageTable c.index) c.entry,
      decide (c.table.entry m₁ c.index ≠ 0)) := by
  unfold SectionCall.run vm2L1MapPhysicalToVirtual
  dsimp only
  rw [if_neg]
  · rfl
  · rintro ⟨hne, hremap⟩
    rcases hadm with htrue | hzero
    · rw [hremap] at htrue
      cases htrue
    · exact hne hzero

/-- Of all tables the write changes the kernel's. -/
theorem entry_write (ht : t ∈ T.carrier) (hi : i < t.entries) (hindex : c.index < 0x1000) :
    t.entry (writeWord m₁ (entryAt kernelL1PageTable c.index) c.entry) i =
      if t = L1Table.kernel ∧ i = c.index then c.entry else t.entry m₁ i := by
  unfold L1Table.entry
  by_cases hkernel : t = L1Table.kernel
  · subst hkernel
    rw [show L1Table.kernel.base = kernelL1PageTable from rfl,
      readWord_writeWord (by unfold entryAt; omega), Nat.mod_eq_of_lt c.entry_lt]
    by_cases hii : i = c.index
    · rw [if_pos (by rw [hii]), if_pos ⟨rfl, hii⟩]
    · rw [if_neg (by unfold entryAt; omega), if_neg fun h => hii h.2]
  · have hapart := T.apart t ht _ T.kernel_mem hkernel
    rw [if_neg fun h => hkernel h.1]
    refine readWord_writeWord_of_disjoint ?_
    unfold RangesDisjoint L1Table.kernel at hapart
    dsimp only at hapart
    unfold entryAt
    omega

theorem SectionCall.index_lt' (c : SectionCall T) : c.index < 0x1000 := by
  have hlt := c.virtual_lt
  unfold SectionCall.index l1ptIndex
  omega

/-- A call that writes what its own slot holds afterwards has mapped its entry
there, and nothing elsewhere. -/
theorem SectionCall.OwnSlot.entry_eq (hown : c.OwnSlot m₁) (ht : t ∈ T.carrier)
    (hi : i < t.entries) :
    t.entry (writeWord m₁ (entryAt kernelL1PageTable c.index) c.entry) i =
      if c.At t i then c.entry else t.entry m₁ i := by
  rw [entry_write ht hi c.index_lt']
  rcases hown with hkernel | ⟨hk, hc⟩
  · by_cases hat : c.At t i
    · rw [if_pos hat, if_pos ⟨hat.1.symm.trans hkernel, hat.2.symm⟩]
    · rw [if_neg hat, if_neg fun h => hat ⟨hkernel.trans h.1.symm, h.2.symm⟩]
  · -- the entry is there in both tables, so nothing changes at all
    have hkept : (if t = L1Table.kernel ∧ i = c.index then c.entry else t.entry m₁ i) =
        t.entry m₁ i := by
      split
      · rename_i h
        rw [h.1, h.2, hk]
      · rfl
    rw [hkept]
    by_cases hat : c.At t i
    · rw [if_pos hat, ← hat.1, ← hat.2, hc]
    · rw [if_neg hat]

/-! ### A sequence of calls

What the tables should hold after some calls is what was last mapped in each
of their slots.  The sequence is right exactly if each of its calls is, in the
memory the calls before it have left. -/

theorem TablesHold.snoc (hold : TablesHold m calls m₁) (hown : c.OwnSlot m₁) :
    TablesHold m (calls ++ [c]) (writeWord m₁ (entryAt kernelL1PageTable c.index) c.entry) := by
  intro t ht i hi
  rw [hown.entry_eq ht hi, lastMapped_snoc]
  by_cases hat : c.At t i
  · rw [if_pos hat, if_pos hat, Option.getD_some]
  · rw [if_neg hat, if_neg hat]
    exact hold t ht i hi

/-- After calls that each write what their own slots hold, the tables hold
what was mapped. -/
theorem WritesOwn.tablesHold (hown : WritesOwn m calls) (hcalls : SectionCalls m earlier m₁)
    (hearlier : earlier <+: calls) : TablesHold m earlier m₁ := by
  induction hcalls with
  | nil => exact fun t _ i _ => rfl
  | @snoc earlier c m₁ m₂ mapped hcalls hadm hrun ih =>
      have hbefore := ih ((List.prefix_append earlier [c]).trans hearlier)
      rw [c.run_eq hadm] at hrun
      cases hrun
      exact hbefore.snoc (hown earlier c hearlier m₁ hcalls hadm)

/-- A call that acts on the table it gives writes what its own slot holds
afterwards. -/
theorem SectionCall.ownSlot_of_confined (hadm : c.Admissible m₁)
    (hrun : c.run m₁ = .ok (m₂, mapped)) (hold : TablesHold m (calls ++ [c]) m₂)
    (hconfined : Confined c m₁ m₂ mapped) : c.OwnSlot m₁ := by
  rw [c.run_eq hadm] at hrun
  cases hrun
  by_cases hkernel : c.table = L1Table.kernel
  · exact .inl hkernel
  · refine .inr ⟨?_, ?_⟩
    · have hkept := hconfined.others _ T.kernel_mem (Ne.symm hkernel) c.index c.index_lt'
      rw [entry_write T.kernel_mem c.index_lt' c.index_lt', if_pos ⟨rfl, rfl⟩] at hkept
      exact hkept.symm
    · have hheld := hold c.table c.table_mem c.index c.index_lt
      rw [entry_write (i := c.index) c.table_mem c.index_lt c.index_lt',
        if_neg fun h => hkernel h.1, lastMapped_snoc, if_pos ⟨rfl, rfl⟩, Option.getD_some] at hheld
      exact hheld

theorem WritesOwn.actsOnGiven (hown : WritesOwn m calls) : ActsOnGiven m calls := by
  intro earlier c hearlier m₁ hcalls hadm
  have hslot := hown earlier c hearlier m₁ hcalls hadm
  have hbefore := hown.tablesHold hcalls ((List.prefix_append earlier [c]).trans hearlier)
  refine ⟨_, _, c.run_eq hadm, hbefore.snoc hslot, fun t ht hne i hi => ?_, decide_eq_true_iff⟩
  rw [hslot.entry_eq ht hi, if_neg fun h => hne h.1.symm]

theorem ActsOnGiven.writesOwn (hacts : ActsOnGiven m calls) : WritesOwn m calls := by
  intro earlier c hearlier m₁ hcalls hadm
  obtain ⟨m₂, mapped, hrun, hold, hconfined⟩ := hacts earlier c hearlier m₁ hcalls hadm
  exact SectionCall.ownSlot_of_confined hadm hrun hold hconfined

/-- **Sections are mapped in the table that is given** exactly as long as
every call gives the kernel's table, or finds its entry in both tables
already. -/
theorem actsOnGiven_iff (T : L1Tables) (m : ByteMemory) (calls : List (SectionCall T)) :
    ActsOnGiven m calls ↔ WritesOwn m calls :=
  ⟨ActsOnGiven.writesOwn, WritesOwn.actsOnGiven⟩

/-- Calls that all give the kernel's table act on it. -/
theorem actsOnGiven_of_kernel (m : ByteMemory) (hkernel : ∀ c ∈ calls, c.table = L1Table.kernel) :
    ActsOnGiven m calls :=
  WritesOwn.actsOnGiven fun _ c hearlier _ _ _ =>
    .inl (hkernel c (hearlier.subset (List.mem_append_right _ List.mem_cons_self)))

/-- The kernel's table, and a table of a process at 2 GiB and 4 MiB. -/
def twoTables : L1Tables where
  carrier := {L1Table.kernel, ⟨0x80400000, 0x800⟩}
  kernel_mem := Set.mem_insert _ _
  apart t ht t' ht' hne := by
    rcases ht with rfl | rfl
    · rcases ht' with rfl | rfl
      · exact absurd rfl hne
      · exact .inl (by decide)
    · rcases ht' with rfl | rfl
      · exact .inr (by decide)
      · exact absurd rfl hne

/-- A section mapped in the table of the process, at its first MiB. -/
def processCall : SectionCall twoTables where
  table := ⟨0x80400000, 0x800⟩
  entry := sectionEntry 0x100
  virtual := 0
  remap := true
  table_mem := Set.mem_insert_of_mem _ rfl
  entry_lt := by decide
  virtual_lt := by decide
  index_lt := by decide

/-- The section goes to the kernel's table. -/
theorem section_in_other_table : ¬ActsOnGiven ⟨fun _ => 0⟩ [processCall] := by
  intro hacts
  rcases hacts.writesOwn [] processCall List.prefix_rfl _ .nil (.inl rfl) with hkernel | ⟨hentry, -⟩
  · exact absurd hkernel (by decide)
  · exact absurd hentry (by decide)

end CourseOs.Pmm
