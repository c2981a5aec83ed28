import CourseOs.Lib.Outcome
import CourseOs.Vm.PageTables
import CourseOs.Vm.PmmContents

/-!
# When memory runs out

A `Demand` is one of the calls that take memory: an allocation of one of the
three kinds of object, or a page to be mapped.  It is `Exhausted` when a slot
it needs is not there.  For a page to be mapped under an empty L1 entry two
slots are needed, and the second may be missing only once the first is taken.

`pmm_allocate_l1_pagetable` looks at the list of unused slices before it takes
from it, and its two siblings do not.  `vm2_allocate_page` looks at nothing,
so that it returns `NULL` only for an L1 entry that maps a section.
`reported_iff` says that these are the demands whose failure is reported.

The other half is when the calls do return.  `vm2AllocatePage_outcome` has it
for a page to be mapped: at a section, or exactly if memory is not exhausted
and no page is in the way.  A call that does not return is `Halted`: it has
come to the null head of a list, or to the assertion that keeps it from
overwriting an entry.
-/

namespace CourseOs.Pmm

open ByteMemory Relation

variable {L : Layout} {s s' : PmmState} {κ : ℕ → SliceKind} {hw : HardwareInfo} {u : InUse}
  {p : ℕ} {t : SlotKind} {l l' : PmmList} {created : Option ℕ}

/-- A call that takes memory: an object of the manager, or a page with its
mapping. -/
inductive Demand
  | object (kind : ObjectKind)
  | page (l1pt virtual : ℕ) (remap : Bool) (perms : PagePermission) (created : Option ℕ)

namespace Demand

/-- No suitable slot is left.  A page may need two: one for itself, and one
for the L2 table above it. -/
def Exhausted (s : PmmState) : Demand → Prop
  | .object kind => ¬Available kind s
  | .page l1pt virtual _ _ _ =>
      ¬Available (.slot .page) s ∨
        (entryType (readWord s.mem (entryAt l1pt (l1ptIndex virtual))) = 0 ∧
          ∀ s₁ l2, pmmAllocateL2Pagetable s = .ok (s₁, l2) → ¬Available (.slot .page) s₁)

/-- The call returns `NULL` and nothing has changed.  This is what the header
promises of a demand that cannot be met. -/
def Reported (s : PmmState) : Demand → Prop
  | .object kind => allocate kind s = .ok (s, 0)
  | .page l1pt virtual remap perms created =>
      vm2AllocatePage s l1pt virtual remap perms created = .ok (s, 0, created)

/-- A page is mapped where one is asked for, and is not to be replaced.  This
is an error of the caller, and stops the kernel too. -/
def Occupied (s : PmmState) : Demand → Prop
  | .object _ => False
  | .page l1pt virtual remap _ _ =>
      remap = false ∧ entryType (readWord s.mem (entryAt l1pt (l1ptIndex virtual))) = 1 ∧
        readWord s.mem (entryAt (l2Table (readWord s.mem (entryAt l1pt (l1ptIndex virtual))))
          (l2ptIndex virtual)) ≠ 0

/-- The call is for an L1 table, or for a page in a section.  These are the
calls that look before they take. -/
def Tested (s : PmmState) : Demand → Prop
  | .object kind => kind = .l1
  | .page l1pt virtual _ _ _ =>
      2 ≤ entryType (readWord s.mem (entryAt l1pt (l1ptIndex virtual)))

end Demand

/-! ### Heads

What an allocation leaves of the lists it takes from, which is all that a
second allocation in the same call can see of the first. -/

theorem popFromLl_head (h : popFromLl s l = .ok (s', p)) (hne : l' ≠ l) :
    s'.head l' = s.head l' := by
  by_cases h0 : s.head l = 0
  · rw [popFromLl, if_pos h0] at h
    cases h
  · rw [popFromLl_eq h0] at h
    cases h
    rw [PmmState.head_setHead, if_neg hne, PmmState.head_withMem]

/-- Taking out of a slice in use changes the list of these slices and
`allocated`. -/
theorem pmmAllocateSlot_head (h : pmmAllocateSlot t s = .ok (s', p))
    (hnonempty : s.head t.partialFree ≠ 0) (hne : l ≠ t.partialFree) (hne' : l ≠ .allocated) :
    s'.head l = s.head l := by
  unfold pmmAllocateSlot at h
  rw [if_pos hnonempty] at h
  dsimp only at h
  split at h
  · -- the last object of the slice: it moves to `allocated`
    obtain ⟨⟨s₁, x⟩, hpop, h⟩ := Exec.bind_eq_ok.mp h
    cases h
    rw [PmmState.head_withMem, pushToLl_head, if_neg hne', popFromLl_head hpop hne,
      PmmState.head_withMem]
  · cases h
    rw [PmmState.head_withMem, PmmState.head_withMem]

/-- A page that is there once an L2 table is taken was there before. -/
theorem available_page_of_l2 (h : pmmAllocateL2Pagetable s = .ok (s', p))
    (hav : Available (.slot .page) s') : Available (.slot .page) s := by
  by_cases hnonempty : s.head SlotKind.l2.partialFree ≠ 0
  · have hhead : ∀ l, l ≠ .l2ptPartialFree → l ≠ .allocated → s'.head l = s.head l :=
      fun l => pmmAllocateSlot_head h hnonempty
    rcases hav with hunused | ⟨t, heq, hpage⟩
    · exact .inl (hhead .unused (by decide) (by decide) ▸ hunused)
    · cases heq
      exact .inr ⟨.page, rfl, hhead .pagePartialFree (by decide) (by decide) ▸ hpage⟩
  · rcases available_of_slot_ok h with hunused | ⟨t, heq, hl2⟩
    · exact .inl hunused
    · cases heq
      exact absurd hl2 hnonempty

/-! ### What the calls do

A call whose demand cannot be met either looks at the list first and reports
it, or takes the head of an empty list.  A page mapped under an empty L1 entry
is the mixed case: the L2 table may still be had, and is then taken, before
the page is missed. -/

/-- An allocation without a slot is reported for an L1 table, and for nothing
else. -/
theorem allocate_reported_iff {kind : ObjectKind} (h : ¬Available kind s) :
    allocate kind s = .ok (s, 0) ↔ kind = .l1 := by
  rw [allocate_unavailable h]
  cases kind with
  | l1 => exact iff_of_true rfl rfl
  | slot t => exact iff_of_false (fun heq => by cases heq) fun heq => by cases heq

/-- Without a page the coarse case does not return. -/
theorem mapPage_unavailable {l1Entry l2 virtual : ℕ} {remap : Bool} {perms : PagePermission}
    (h : ¬Available (.slot .page) s) :
    mapPage s l1Entry l2 virtual remap perms created = .error .nullDereference := by
  have halloc : pmmAllocatePage s = .error .nullDereference := allocate_unavailable h
  rw [mapPage, halloc]
  rfl

/-- Without a page, or without one besides the L2 table, no page is mapped,
whatever the call returns or stops with. -/
theorem vm2AllocatePage_unavailable {l1pt virtual : ℕ} {remap : Bool} {perms : PagePermission}
    (h : Demand.Exhausted s (.page l1pt virtual remap perms created))
    (htype : entryType (readWord s.mem (entryAt l1pt (l1ptIndex virtual))) < 2)
    (r : PmmState × ℕ × Option ℕ) :
    vm2AllocatePage s l1pt virtual remap perms created ≠ .ok r := by
  intro hok
  unfold vm2AllocatePage at hok
  dsimp only at hok
  split at hok
  · obtain ⟨⟨s₁, l2⟩, halloc, hok⟩ := Exec.bind_eq_ok.mp hok
    have hno : ¬Available (.slot .page) s₁ := by
      rcases h with hnone | ⟨-, hnone⟩
      · exact fun hav => hnone (available_page_of_l2 halloc hav)
      · exact hnone s₁ l2 halloc
    rw [mapPage_unavailable fun hav => hno (available_withMem.mp hav)] at hok
    cases hok
  · rename_i hcoarse
    have hno : ¬Available (.slot .page) s := by
      rcases h with hnone | ⟨hempty, -⟩
      · exact hnone
      · rw [hcoarse] at hempty
        cases hempty
    rw [mapPage_unavailable hno] at hok
    cases hok
  · rename_i hno₀ hno₁
    have : entryType (readWord s.mem (entryAt l1pt (l1ptIndex virtual))) = 0 ∨
        entryType (readWord s.mem (entryAt l1pt (l1ptIndex virtual))) = 1 := by
      omega
    rcases this with h0 | h1
    · exact hno₀ h0
    · exact hno₁ h1

/-- **Exhaustion is reported** for L1 tables and for pages in sections, and
for nothing else: every other call reaches the null pointer at the head of a
list. -/
theorem reported_iff (s : PmmState) (d : Demand) (h : d.Exhausted s) :
    d.Reported s ↔ d.Tested s := by
  cases d with
  | object kind => exact allocate_reported_iff h
  | page l1pt virtual remap perms created =>
      refine ⟨fun hok => ?_, vm2AllocatePage_section⟩
      by_contra htype
      exact vm2AllocatePage_unavailable h (Nat.lt_of_not_le htype) _ hok

/-! ### When the calls return

The other direction: with the slots there, and no page in the way, the call
returns.  `Outcome` says both at once, and names the two ways in which
`vm2_allocate_page` can stop. -/

/-- How `vm2_allocate_page` stops: at the null head of a list, or before it
overwrites an entry. -/
def Halted (t : Trap) : Prop :=
  t = .nullDereference ∨ t = .fatal "Overwriting entry in l2pt : 0x%x"

/-- A slot is handed out if there is one. -/
theorem pmmAllocateSlot_outcome (h : PmmInv L s κ) (t : SlotKind) :
    Outcome Halted (Available (.slot t) s) (pmmAllocateSlot t s) := by
  by_cases hav : Available (.slot t) s
  · obtain ⟨s', p, κ', halloc, -⟩ := h.hand hav
    rw [allocate_slot] at halloc
    rw [halloc]
    exact .returns hav
  · rw [← allocate_slot, allocate_unavailable hav]
    exact .stops (.inl rfl) hav

/-- The coarse case returns if there is a page, and none in its way; otherwise
it halts. -/
theorem mapPage_outcome (h : PmmInv L s κ) {l1Entry l2 virtual : ℕ} {remap : Bool}
    {perms : PagePermission} (hslot : L1Slot L κ l1Entry)
    (hcoarse : entryType (readWord s.mem l1Entry) = 1)
    (hheld : (⟨.slot .l2, l2Table (readWord s.mem l1Entry)⟩ : Object) ∈ held L κ)
    (hl2 : l2 = 0 ∨ l2 = l2Table (readWord s.mem l1Entry)) :
    Outcome Halted (Available (.slot .page) s ∧ ¬(remap = false ∧
      readWord s.mem (entryAt (l2Table (readWord s.mem l1Entry)) (l2ptIndex virtual)) ≠ 0))
      (mapPage s l1Entry l2 virtual remap perms created) := by
  by_cases hav : Available (.slot .page) s
  · obtain ⟨r, hmap⟩ := mapPage_eq h hslot hcoarse hheld hl2 hav
    rw [hmap]
    split
    · rename_i hin
      exact .stops (.inr rfl) fun hfree => hfree.2 hin.symm
    · rename_i hfree
      exact .returns ⟨hav, fun hin => hfree hin.symm⟩
  · rw [mapPage_unavailable hav]
    exact .stops (.inl rfl) fun hfree => hav hfree.1

/-- **`vm2_allocate_page` returns** at a section, and otherwise exactly if
memory is not exhausted and nothing is in the way. -/
theorem vm2AllocatePage_outcome (h : PmmInv L s κ) {l1pt virtual : ℕ} {remap : Bool}
    {perms : PagePermission} (hslot : L1Slot L κ (entryAt l1pt (l1ptIndex virtual)))
    (hheld : entryType (readWord s.mem (entryAt l1pt (l1ptIndex virtual))) = 1 →
      (⟨.slot .l2, l2Table (readWord s.mem (entryAt l1pt (l1ptIndex virtual)))⟩ : Object) ∈
        held L κ) :
    Outcome Halted ((Demand.page l1pt virtual remap perms created).Tested s ∨
      ¬(Demand.page l1pt virtual remap perms created).Exhausted s ∧
        ¬(Demand.page l1pt virtual remap perms created).Occupied s)
      (vm2AllocatePage s l1pt virtual remap perms created) := by
  unfold vm2AllocatePage Demand.Tested Demand.Exhausted Demand.Occupied
  dsimp only
  generalize hl1 : entryAt l1pt (l1ptIndex virtual) = l1Entry at *
  split
  · rename_i hempty
    -- the table that is taken is empty, so that only memory can be missing
    refine ((pmmAllocateSlot_outcome h .l2).bind (q := ∃ s₁ l2,
      pmmAllocateL2Pagetable s = .ok (s₁, l2) ∧ Available (.slot .page) s₁)
      fun out halloc => ?_).congr ?_
    · obtain ⟨s₁, l2⟩ := out
      obtain ⟨κ₁, hh⟩ := h.hand_slot halloc
      have hready : TableReady L s κ l1Entry _ κ₁ l2 := .taken hempty hh
      obtain ⟨hcoarse, htable⟩ := hready.entry
      have hmem := hready.mem hheld
      have hb := entryAt_bounds l2 virtual
      rw [← htable] at hmem
      refine (mapPage_outcome (hready.inv h hslot) (hslot.mono hready.subset) hcoarse hmem
        (.inr htable.symm)).congr ⟨fun hpage => ⟨s₁, l2, halloc, available_withMem.mp hpage.1⟩, ?_⟩
      rintro ⟨s₂, l2', halloc', hpage⟩
      cases halloc.symm.trans halloc'
      refine ⟨available_withMem.mpr hpage, fun hin => hin.2 ?_⟩
      rw [htable]
      exact readWord_eq_zero fun x hx hx' =>
        hready.zero hslot hempty (le_trans hb.1 hx) (lt_of_lt_of_le hx' hb.2)
    · rw [hempty]
      constructor
      · rintro ⟨-, s₁, l2, halloc, hpage⟩
        exact .inr ⟨not_or.mpr ⟨not_not.mpr (available_page_of_l2 halloc hpage),
          fun hno => hno.2 s₁ l2 halloc hpage⟩, fun hin => absurd hin.2.1 (by decide)⟩
      · rintro (htype | ⟨hav, -⟩)
        · exact absurd htype (by decide)
        · obtain ⟨-, hboth⟩ := not_or.mp hav
          obtain ⟨s₁, l2, halloc, hpage⟩ : ∃ s₁ l2,
              pmmAllocateL2Pagetable s = .ok (s₁, l2) ∧ Available (.slot .page) s₁ := by
            by_contra hno
            exact hboth ⟨rfl, fun s₁ l2 halloc hpage => hno ⟨s₁, l2, halloc, hpage⟩⟩
          exact ⟨available_of_slot_ok halloc, s₁, l2, halloc, hpage⟩
  · rename_i hcoarse
    refine (mapPage_outcome h hslot hcoarse (hheld hcoarse) (.inl rfl)).congr ?_
    rw [hcoarse]
    constructor
    · rintro ⟨hpage, hfree⟩
      exact .inr ⟨not_or.mpr ⟨not_not.mpr hpage, fun hin => absurd hin.1 (by decide)⟩,
        fun hin => hfree ⟨hin.1, hin.2.2⟩⟩
    · rintro (htype | ⟨hav, hfree⟩)
      · exact absurd htype (by decide)
      · exact ⟨not_not.mp (not_or.mp hav).1, fun hin => hfree ⟨hin.1, rfl, hin.2⟩⟩
  · rename_i hno₀ hno₁
    refine .returns (.inl ?_)
    by_contra hlt
    have htype : entryType (readWord s.mem l1Entry) = 0 ∨
        entryType (readWord s.mem l1Entry) = 1 := by
      omega
    exact htype.elim hno₀ hno₁

/-! ### A board that runs out

The smallest board on which it happens.  One slice has the records and the
other is given to an L1 table, so that the next page is one too many. -/

/-- What is there comes from a slice without a table or records of its own. -/
theorem PmmTables.home_of_available (h : PmmTables L s κ) {kind : ObjectKind}
    (hav : Available kind s) : ∃ k < L.slices, (κ k).home ≠ .allocated := by
  rcases hav with hne | ⟨t, -, hne⟩
  · obtain ⟨k, hk, hhome⟩ := (h.head_ne_zero_iff (by decide)).mp hne
    exact ⟨k, hk, by rw [hhome]; decide⟩
  · have hl : t.partialFree ≠ .allocated := by cases t <;> decide
    obtain ⟨k, hk, hhome⟩ := (h.head_ne_zero_iff hl).mp hne
    exact ⟨k, hk, by rw [hhome]; exact hl⟩

/-- An L1 table in the only slice of two that has no records: nothing is left,
neither for tables nor for pages. -/
theorem exhausted_two_slices :
    ∃ s u, pmmInit ⟨0x3f000000, 21 * 0x100000⟩ ⟨fun _ => 0⟩ 0x80200000
        (0x80200000 + sliceSize * 2) = .ok s ∧
      ReflTransGen ServedStep ⟨s, []⟩ u ∧ ∀ kind, ¬Available kind u.state := by
  have hR : ManagedRange ⟨0x3f000000, 21 * 0x100000⟩ 0x80200000 2 2 :=
    ⟨by decide, by decide, by decide, by decide, by decide⟩
  have hzero : ∀ x, 0x80200000 ≤ x → x < 0x80200000 + sliceSize * 2 →
      (⟨fun _ => 0⟩ : ByteMemory) x = 0 := fun _ _ _ => rfl
  obtain ⟨s, b, B, hinit, hinv⟩ := pmmInit_spec hR (by decide) hzero
  have hacc := Accounted.of_init hR hinv
  -- slice 1 is unused: the records are in slice 0
  have hone : initKind (marked ⟨0x3f000000, 21 * 0x100000⟩ 0x80200000) B b 1 = .unused := by
    refine initKind_eq_unused.mpr ⟨by rw [hR.marked_eq (by decide)]; decide, fun b' hb' => ?_⟩
    have hb : sliceinfoPerSlice * b ≤ 2 := hinv.le_slices
    have hlt := hinv.bucket_below b' hb'
    unfold sliceinfoPerSlice at hb hlt
    have h0 : b' = 0 := by omega
    rw [h0] at hlt ⊢
    omega
  have hunused : s.head .unused ≠ 0 := hacc.inv.unused_ne_zero_iff.mpr ⟨1, Nat.one_lt_two, hone⟩
  have hl1 : Available .l1 s := .inl hunused
  obtain ⟨s', p, κ', halloc, hhanded⟩ := hacc.inv.hand hl1
  have hp : p ≠ 0 := by
    obtain ⟨k, hk, ho⟩ := hhanded.mem
    exact hhanded.inv.addr_ne_zero hk ho
  refine ⟨s, ⟨s', [⟨.l1, p⟩]⟩, hinit, .single (.allocate .l1 halloc hp), fun kind hav => ?_⟩
  obtain ⟨k, hk, hhome⟩ := hhanded.inv.home_of_available hav
  have hzero := hhanded.inv.bucketSlice_zero_kind hk
  obtain ⟨i, hi, ho⟩ := hhanded.mem
  have hi1 : i = 1 := by
    have hi0 : i ≠ 0 := by
      rintro rfl
      rw [hzero] at ho
      exact ho
    change i < 2 at hi
    omega
  have hk1 : k = 1 := by
    have hk0 : k ≠ 0 := by
      rintro rfl
      rw [hzero] at hhome
      exact hhome rfl
    change k < 2 at hk
    omega
  rw [hi1] at ho
  rw [hk1] at hhome
  cases hkind : κ' 1 with
  | l1 =>
      rw [hkind] at hhome
      exact hhome rfl
  | slots t filled =>
      rw [hkind] at ho
      obtain ⟨j, -, heq⟩ := ho
      cases heq
  | unused | bucketInfo | reserved =>
      rw [hkind] at ho
      exact ho

theorem reported_iff_two_slices :
    ∃ s : PmmState, (Demand.object .l1).Exhausted s ∧
      ((Demand.object .l1).Reported s ↔ (Demand.object .l1).Tested s) := by
  obtain ⟨-, u, -, -, hno⟩ := exhausted_two_slices
  exact ⟨u.state, hno .l1, reported_iff u.state (.object .l1) (hno .l1)⟩

/-- The page that is asked for next stops the kernel: the head of the list of
unused slices is null, and is read. -/
theorem page_not_reported :
    ∃ s u, pmmInit ⟨0x3f000000, 21 * 0x100000⟩ ⟨fun _ => 0⟩ 0x80200000
        (0x80200000 + sliceSize * 2) = .ok s ∧
      ReflTransGen ServedStep ⟨s, []⟩ u ∧ (Demand.object (.slot .page)).Exhausted u.state ∧
      ¬(Demand.object (.slot .page)).Reported u.state ∧
      pmmAllocatePage u.state = .error .nullDereference := by
  obtain ⟨s, u, hinit, hrun, hno⟩ := exhausted_two_slices
  have htrap : pmmAllocatePage u.state = .error .nullDereference :=
    allocate_unavailable (hno (.slot .page))
  refine ⟨s, u, hinit, hrun, hno _, fun hok => ?_, htrap⟩
  cases htrap.symm.trans hok

end CourseOs.Pmm
