import CourseOs.Vm.Vas

/-!
# What mapping a user's page may change

An address space has a table for the lower half of the addresses, and
`vm2_allocate_page` takes its index from all twelve upper bits of the address.
For an address in the upper half the entry lies in the slice after the table,
whatever this slice is used for.

`Vases.Step` is what happens to the address spaces and the other clients of
the manager, as long as pages are asked for within the tables, or are refused
(`WithinTable`).  In every run of such steps a further call of the kind is
`VasConfined`: the bytes that change are the address space's own, or those of
the manager's records (`user_mappings_confined`).

The proof has two parts.  The functions change certain bytes, read off their
definitions (`pmmAllocateSlot_frame`, `mapPage_frame`,
`vm2AllocatePage_frame`).  And in the states of a run these bytes are in no
object of another address space and of no other client, because what is out is
out to one of them only (`VasesInv.rest_ne`).

Other clients are part of the runs: they take objects, give them back, and
write to their own.
-/

namespace CourseOs.Pmm

open ByteMemory Relation

variable {hw : HardwareInfo} {L : Layout} {κ κ' κ₁ : ℕ → SliceKind} {s s' s₁ : PmmState}
  {l2s : List ℕ} {w w' : Vases} {vas vas' : Vas2} {before after : List Vas2}
  {others : List Object} {address page l2 p a x start N r : ℕ} {executable : Bool}
  {t : SlotKind} {m mem : ByteMemory} {perms : PagePermission} {created created' : Option ℕ}

/-- The address is in the lower half; or what lies where the entry for it
would be is a section, and the page is refused. -/
def WithinTable (s : PmmState) (vas : Vas2) (address : ℕ) : Prop :=
  address < 2 ^ 31 ∨ 2 ≤ entryType (readWord s.mem (entryAt vas.l1PageTable (l1ptIndex address)))

/-- One call, or a write by someone to their own memory.  Only an address
space whose pages are all there is freed. -/
inductive Vases.Step : Vases → Vases → Prop
  | create {s s' : PmmState} {vases : List Vas2} {others : List Object}
      {asids asids' : Asid.AsidState} {vas : Vas2}
      (h : createVas asids s = .ok (asids', s', vas)) (hne : vas.l1PageTable ≠ 0) :
      Step ⟨s, vases, others⟩ ⟨s', vas :: vases, others⟩
  | allocate {s s' : PmmState} {before after : List Vas2} {others : List Object}
      {vas vas' : Vas2} {address : ℕ} {executable : Bool} (haddr : WithinTable s vas address)
      (h : allocatePage s vas address executable = .ok (s', vas')) :
      Step ⟨s, before ++ vas :: after, others⟩ ⟨s', before ++ vas' :: after, others⟩
  | free {s s' : PmmState} {before after : List Vas2} {others : List Object} {vas : Vas2}
      (hpages : 0 ∉ vas.pages) (h : freeVas s vas = .ok s') :
      Step ⟨s, before ++ vas :: after, others⟩ ⟨s', before ++ after, others⟩
  | other {s s' : PmmState} {vases : List Vas2} {others others' : List Object}
      (h : ServedStep ⟨s, others⟩ ⟨s', others'⟩) : Step ⟨s, vases, others⟩ ⟨s', vases, others'⟩
  | write {s : PmmState} {vases : List Vas2} {others : List Object} {m : ByteMemory}
      (h : ∀ a, (∀ vas ∈ vases, ∀ page ∈ vas.pages, page ≠ 0 → a < page ∨ page + pageSize ≤ a) →
        m a = s.mem a) :
      Step ⟨s, vases, others⟩ ⟨s.withMem m, vases, others⟩

/-- The byte is in the L1 table, or in an L2 table that this leads to. -/
def Vas2.TableByte (vas : Vas2) (m : ByteMemory) (a : ℕ) : Prop :=
  (vas.l1PageTable ≤ a ∧ a < vas.l1PageTable + 4 * 0x800) ∨
    ∃ i < 0x800, entryType (vas.table.entry m i) = 1 ∧
      l2Table (vas.table.entry m i) ≤ a ∧ a < l2Table (vas.table.entry m i) + SlotKind.l2.size

/-- What a call for `vas`, one of `before ++ vas :: after`, may change: its
tables, its new page, the manager's records, and its lists.  What the others
have stays. -/
structure VasConfined (s : PmmState) (before : List Vas2) (vas : Vas2) (after : List Vas2)
    (others : List Object) (s' : PmmState) (vas' : Vas2) : Prop where
  vas_eq : vas' = { vas with l2tables := vas'.l2tables, pages := vas'.pages }
  mem : ∀ a, s'.mem a ≠ s.mem a → vas'.TableByte s'.mem a ∨
    (∃ page, vas'.pages = vas.pages ++ [page] ∧ page ≤ a ∧ a < page + pageSize) ∨
    ∃ record, IsRecord s record ∧ record ≤ a ∧ a < record + sliceInfoSize
  objects : ∀ o ∈ Vases.objects ⟨s, before ++ after, others⟩, ∀ a, o.addr ≤ a →
    a < o.addr + o.kind.size → s'.mem a = s.mem a
  tables : ∀ other ∈ before ++ after, ∀ n < 256 * 0x800,
    other.table.entry s'.mem (n / 256) = other.table.entry s.mem (n / 256) ∧
      other.table.pageWord s'.mem n = other.table.pageWord s.mem n

/-! ### The bytes that change

What mapping a page writes, byte by byte: the L1 entry, a word of an L2 table,
the new objects and the records.  Nothing here assumes that the L1 entry is
one of the table. -/

/-- Handing out a table or a page changes it and the records. -/
theorem pmmAllocateSlot_frame (h : PmmInv L s κ) (hok : pmmAllocateSlot t s = .ok (s', p))
    (hx : x < p ∨ p + t.size ≤ x) (hrecord : ∀ i < L.slices, x < L.record i ∨ L.record i + 16 ≤ x) :
    s'.mem x = s.mem x := by
  obtain ⟨s₁, p₁, κ', halloc, -, -, -, -, hzeroed⟩ := h.allocate _ (available_of_slot_ok hok)
  rw [allocate_slot, hok] at halloc
  cases halloc
  exact hzeroed.outside x hx hrecord

theorem mapPage_frame (h : PmmInv L s κ) {l1Entry virtual : ℕ} {remap : Bool}
    (hslot : L1Slot L κ l1Entry) (hcoarse : entryType (readWord s.mem l1Entry) = 1)
    (hl2 : l2 = 0 ∨ l2 = l2Table (readWord s.mem l1Entry))
    (hok : mapPage s l1Entry l2 virtual remap perms created = .ok (s', page, created'))
    (htable : x < l2Table (readWord s.mem l1Entry) ∨
      l2Table (readWord s.mem l1Entry) + SlotKind.l2.size ≤ x)
    (hpage : x < page ∨ page + SlotKind.page.size ≤ x)
    (hrecord : ∀ i < L.slices, x < L.record i ∨ L.record i + 16 ≤ x) : s'.mem x = s.mem x := by
  obtain ⟨s₁, halloc, rfl, -, -⟩ := mapPage_ok h hslot hcoarse hl2 hok
  have hb := entryAt_bounds (l2Table (readWord s.mem l1Entry)) virtual
  have hout : s₁.mem x = s.mem x := pmmAllocateSlot_frame h halloc hpage hrecord
  rw [← hout]
  exact writeWord_apply_of_notMem (by omega)

/-- `vm2_allocate_page` changes the L1 entry, the L2 table this then leads to,
the page, and the records. -/
theorem vm2AllocatePage_frame (h : PmmInv L s κ) {l1pt virtual : ℕ} {remap : Bool}
    (hslot : L1Slot L κ (entryAt l1pt (l1ptIndex virtual)))
    (hheld : entryType (readWord s.mem (entryAt l1pt (l1ptIndex virtual))) = 1 →
      (⟨.slot .l2, l2Table (readWord s.mem (entryAt l1pt (l1ptIndex virtual)))⟩ : Object) ∈
        held L κ)
    (hok : vm2AllocatePage s l1pt virtual remap perms created = .ok (s', page, created'))
    (hentry : x < entryAt l1pt (l1ptIndex virtual) ∨ entryAt l1pt (l1ptIndex virtual) + 4 ≤ x)
    (htable : entryType (readWord s'.mem (entryAt l1pt (l1ptIndex virtual))) = 1 →
      x < l2Table (readWord s'.mem (entryAt l1pt (l1ptIndex virtual))) ∨
        l2Table (readWord s'.mem (entryAt l1pt (l1ptIndex virtual))) + SlotKind.l2.size ≤ x)
    (hpage : x < page ∨ page + SlotKind.page.size ≤ x)
    (hrecord : ∀ i < L.slices, x < L.record i ∨ L.record i + 16 ≤ x) : s'.mem x = s.mem x := by
  unfold vm2AllocatePage at hok
  dsimp only at hok
  generalize entryAt l1pt (l1ptIndex virtual) = l1Entry at *
  split at hok
  · rename_i hempty
    obtain ⟨⟨s₁, l2⟩, halloc, hok⟩ := Exec.bind_eq_ok.mp hok
    obtain ⟨κ₁, hh⟩ := h.hand_slot halloc
    have hready : TableReady L s κ l1Entry _ κ₁ l2 := .taken hempty hh
    have hinv := hready.inv h hslot
    obtain ⟨hcoarse, hl2⟩ := hready.entry
    have hmem := hready.mem hheld
    rw [← hl2] at hmem
    obtain ⟨κ', hm, -⟩ := mapPage_spec hinv (hslot.mono hready.subset) hcoarse hmem
      (.inr hl2.symm) hok
    rw [hl2] at hm hmem
    obtain ⟨hcoarse', hl2'⟩ := hready.entry_mapped h hslot hmem hm
    have hout := htable hcoarse'
    rw [hl2'] at hout
    rw [mapPage_frame hinv (hslot.mono hready.subset) hcoarse (.inr hl2.symm) hok
      (by rwa [hl2]) hpage hrecord]
    exact (writeWord_apply_of_notMem hentry).trans (pmmAllocateSlot_frame h halloc hout hrecord)
  · rename_i hcoarse
    obtain ⟨κ', hm, -⟩ := mapPage_spec h hslot hcoarse (hheld hcoarse) (.inl rfl) hok
    obtain ⟨hcoarse', hl2'⟩ :=
      (TableReady.found hcoarse).entry_mapped h hslot (hheld hcoarse) hm
    have hout := htable hcoarse'
    rw [hl2'] at hout
    exact mapPage_frame h hslot hcoarse (.inl rfl) hok hout hpage hrecord
  · cases hok
    rfl

/-! ### Runs

Address spaces, and other clients beside them.  As long as the entries of all
calls are within the tables, what one address space has is not written by
calls for another. -/

namespace VasesInv

/-- A page that is refused changes nothing but the list of pages, which gets a
null pointer. -/
theorem refused
    (hhigh : 2 ≤ entryType (readWord s.mem (entryAt vas.l1PageTable (l1ptIndex address))))
    (hunlisted : vas.l2tables = []) (hok : allocatePage s vas address executable = .ok (s', vas')) :
    s' = s ∧ vas' = { vas with pages := vas.pages ++ [0] } := by
  obtain ⟨page, created, halloc, rfl⟩ := allocatePage_eq_ok.mp hok
  cases halloc.symm.trans (vm2AllocatePage_section hhigh)
  rw [hunlisted]
  exact ⟨rfl, rfl⟩

/-- A page that is refused is none: the null pointer is put on the list of
pages, and it stands for no object. -/
theorem append_zero (h : VasesInv hw L κ l2s ⟨s, before ++ vas :: after, others⟩) :
    VasesInv hw L κ l2s
      ⟨s, before ++ { vas with pages := vas.pages ++ [0] } :: after, others⟩ := by
  have hobjects : Vases.objects ⟨s, before ++ { vas with pages := vas.pages ++ [0] } :: after,
      others⟩ = Vases.objects ⟨s, before ++ vas :: after, others⟩ := by
    simp [Vases.objects, Vas2.objects]
  have hmem : ∀ vas' ∈ before ++ { vas with pages := vas.pages ++ [0] } :: after,
      ∃ vas₀ ∈ before ++ vas :: after, vas'.table = vas₀.table ∧ vas'.l2tables = vas₀.l2tables := by
    intro vas' hvas'
    rcases List.mem_append.mp hvas' with hold | hold
    · exact ⟨vas', List.mem_append_left _ hold, rfl, rfl⟩
    · rcases List.mem_cons.mp hold with rfl | hold
      · exact ⟨vas, by simp, rfl, rfl⟩
      · exact ⟨vas', List.mem_append_right _ (List.mem_cons_of_mem _ hold), rfl, rfl⟩
  refine ⟨?_, ?_, fun vas' hvas' => ?_, fun vas' hvas' => ?_⟩
  · rw [hobjects]
    exact h.acc
  · rw [Vases.tables_eq s s]
    have htables := h.tables
    rw [Vases.tables_eq s s] at htables
    exact htables
  · obtain ⟨vas₀, hvas₀, heq, -⟩ := hmem vas' hvas'
    rw [heq]
    exact h.entries vas₀ hvas₀
  · obtain ⟨vas₀, hvas₀, -, heq⟩ := hmem vas' hvas'
    rw [heq]
    exact h.unlisted vas₀ hvas₀

/-- The objects of an address space are among those that are out. -/
theorem mem_outstanding (l2s : List ℕ) (hvas : vas ∈ w.vases) {o : Object} (ho : o ∈ vas.objects) :
    o ∈ l2s.map (⟨.slot .l2, ·⟩) ++ w.objects :=
  List.mem_append_right _ (List.mem_append_left _ (List.mem_flatMap.mpr ⟨vas, hvas, ho⟩))

theorem l1_mem_objects (vas : Vas2) : (⟨.l1, vas.l1PageTable⟩ : Object) ∈ vas.objects :=
  List.mem_append_right _ List.mem_cons_self

/-- As long as the address spaces and their L1 tables stay, other objects may
come, go and be written to. -/
theorem of_acc (h : VasesInv hw L κ l2s w) (hvases : w'.vases = w.vases)
    (hacc : Accounted hw L ⟨w'.pmm, l2s.map (⟨.slot .l2, ·⟩) ++ w'.objects⟩ κ')
    (hmem : ∀ vas ∈ w.vases, ∀ a, vas.l1PageTable ≤ a → a < vas.l1PageTable + sliceSize →
      w'.pmm.mem a = w.pmm.mem a) : VasesInv hw L κ' l2s w' := by
  have hentry : ∀ vas ∈ w.vases, ∀ i < 0x800,
      vas.table.entry w'.pmm.mem i = vas.table.entry w.pmm.mem i := by
    intro vas hvas i hi
    refine readWord_congr fun x hx hx' => hmem vas hvas x ?_ ?_
    · unfold entryAt at hx
      exact le_trans (Nat.le_add_right _ _) hx
    · unfold entryAt Vas2.table at hx'
      unfold sliceSize
      dsimp only at hx'
      omega
  have hentries : ∀ vas ∈ w'.vases, ∀ i < 0x800,
      entryType (vas.table.entry w'.pmm.mem i) = 0 ∨
        (entryType (vas.table.entry w'.pmm.mem i) = 1 ∧
          l2Table (vas.table.entry w'.pmm.mem i) ∈ l2s) := by
    intro vas hvas i hi
    rw [hvases] at hvas
    rw [hentry vas hvas i hi]
    exact h.entries vas hvas i hi
  refine ⟨hacc, ⟨hacc.inv, ?_, ?_, ?_, ?_, ?_⟩, hentries, fun vas hvas => ?_⟩
  · rintro t ⟨vas, hvas, rfl⟩
    exact .inr ⟨(hacc.mem_iff _).mp (mem_outstanding l2s hvas (l1_mem_objects vas)), rfl⟩
  · rintro t ⟨vas, hvas, rfl⟩ t' ⟨vas', hvas', rfl⟩ hne
    rw [hvases] at hvas hvas'
    exact h.tables.apart _ ⟨vas, hvas, rfl⟩ _ ⟨vas', hvas', rfl⟩ hne
  · rintro t ⟨vas, hvas, rfl⟩ i hi
    rcases hentries vas hvas i hi with h0 | ⟨h1, -⟩
    · exact .inl (by omega)
    · exact .inl (by omega)
  · rintro t ⟨vas, hvas, rfl⟩ i hi htype
    rcases hentries vas hvas i hi with h0 | ⟨-, hin⟩
    · exact absurd (h0.symm.trans htype) (by decide)
    · exact (hacc.mem_iff _).mp (List.mem_append_left _ (List.mem_map_of_mem hin))
  · rintro t ⟨vas, hvas, rfl⟩ i hi t' ⟨vas', hvas', rfl⟩ i' hi'
    rw [hvases] at hvas hvas'
    rw [hentry vas hvas i hi, hentry vas' hvas' i' hi']
    exact h.tables.distinct _ ⟨vas, hvas, rfl⟩ i hi _ ⟨vas', hvas', rfl⟩ i' hi'
  · rw [hvases] at hvas
    exact h.unlisted vas hvas

/-- The L1 table of an address space shares no byte with what else is out. -/
theorem l1_apart (h : VasesInv hw L κ l2s w) (hvas : vas ∈ w.vases) {o : Object}
    (ho : o ∈ l2s.map (⟨.slot .l2, ·⟩) ++ w.objects) (hne : o ≠ ⟨.l1, vas.l1PageTable⟩)
    (ha : vas.l1PageTable ≤ a) (ha' : a < vas.l1PageTable + sliceSize) :
    a < o.addr ∨ o.addr + o.kind.size ≤ a := by
  have hd := h.acc.inv.held_disjoint ((h.acc.mem_iff _).mp ho)
    ((h.acc.mem_iff _).mp (mem_outstanding l2s hvas (l1_mem_objects vas))) hne
  have hsize : ObjectKind.l1.size = sliceSize := rfl
  unfold Object.Disjoint RangesDisjoint at hd
  dsimp only at hd
  omega

/-- What is out to other clients is no L1 table of an address space. -/
theorem others_ne (h : VasesInv hw L κ l2s w) (hvas : vas ∈ w.vases) {o : Object}
    (ho : o ∈ w.others) : o ≠ ⟨.l1, vas.l1PageTable⟩ := by
  rintro rfl
  have hnodup := (List.nodup_append.mp (List.nodup_append.mp h.acc.nodup).2.1).2.2
  exact hnodup _ (List.mem_flatMap.mpr ⟨vas, hvas, l1_mem_objects vas⟩) _ ho rfl

/-- Another client asks for an object, gives one back, or writes to its own.
None of these is an object of an address space, so that the entries stay. -/
theorem other {others' : List Object} {vases : List Vas2}
    (h : VasesInv hw L κ l2s ⟨s, vases, others⟩)
    (hstep : ServedStep ⟨s, others⟩ ⟨s', others'⟩) :
    ∃ κ', VasesInv hw L κ' l2s ⟨s', vases, others'⟩ := by
  cases hstep with
  | allocate kind halloc hp =>
      obtain ⟨s₁, p₁, κ', halloc₁, hh⟩ := h.tables.inv.hand (available_of_ok halloc hp)
      cases halloc.symm.trans halloc₁
      have hacc := h.acc.insert hh.inv hh.fixed hh.fresh hh.held_eq
      refine ⟨κ', h.of_acc rfl (hacc.perm ?_) fun vas hvas a ha ha' => hh.owned a ?_⟩
      · dsimp only [Vases.objects]
        rw [← List.append_assoc, ← List.append_assoc]
        exact List.perm_middle.symm
      · exact owned_of_mem ((h.acc.mem_iff _).mp (mem_outstanding l2s hvas (l1_mem_objects vas)))
          ha ha'
  | free o ho hfree =>
      have hout : o ∈ l2s.map (⟨.slot .l2, ·⟩) ++ Vases.objects ⟨s, vases, others⟩ :=
        List.mem_append_right _ (List.mem_append_right _ ho)
      obtain ⟨s₁, κ', hfree₁, hinv, hfixed, hheld, hframe⟩ :=
        h.tables.inv.free ((h.acc.mem_iff _).mp hout)
      cases hfree.symm.trans hfree₁
      have hacc := h.acc.erase hinv hfixed hheld
      have hnodup := List.nodup_append.mp h.acc.nodup
      have htable : o ∉ l2s.map (⟨.slot .l2, ·⟩) := fun hin =>
        hnodup.2.2 o hin o (List.mem_append_right _ ho) rfl
      have hvases : o ∉ vases.flatMap Vas2.objects := fun hin =>
        (List.nodup_append.mp hnodup.2.1).2.2 o hin o ho rfl
      refine ⟨κ', h.of_acc rfl ?_ fun vas hvas a ha ha' => hframe a fun i hi => ?_⟩
      · dsimp only [Vases.objects] at hacc ⊢
        rw [List.erase_append_right _ htable, List.erase_append_right _ hvases] at hacc
        exact hacc
      · exact h.tables.inv.owned_outside (owned_of_mem
          ((h.acc.mem_iff _).mp (mem_outstanding l2s hvas (l1_mem_objects vas))) ha ha') hi
  | write m hm =>
      have hacc := h.acc.write (m := m) fun x hx => hm x fun o ho =>
        hx o (List.mem_append_right _ (List.mem_append_right _ ho))
      refine ⟨κ, h.of_acc rfl hacc fun vas hvas a ha ha' => hm a fun o ho => ?_⟩
      exact h.l1_apart hvas (List.mem_append_right _ (List.mem_append_right _ ho))
        (h.others_ne hvas ho) ha ha'

theorem page_mem_objects (hpage : page ∈ vas.pages) (hne : page ≠ 0) :
    (⟨.slot .page, page⟩ : Object) ∈ vas.objects :=
  List.mem_append_left _ (List.mem_map_of_mem (List.mem_filter.mpr ⟨hpage, by simpa using hne⟩))

/-- A program writes to its pages. -/
theorem write (h : VasesInv hw L κ l2s w)
    (hm : ∀ a, (∀ vas ∈ w.vases, ∀ page ∈ vas.pages, page ≠ 0 → a < page ∨ page + pageSize ≤ a) →
      m a = w.pmm.mem a) : VasesInv hw L κ l2s ⟨w.pmm.withMem m, w.vases, w.others⟩ := by
  have hacc := h.acc.write (m := m) fun x hx => hm x fun vas hvas page hpage hne =>
    hx _ (mem_outstanding l2s hvas (page_mem_objects hpage hne))
  refine h.of_acc rfl hacc fun vas hvas a ha ha' => hm a fun vas' hvas' page hpage hne => ?_
  exact h.l1_apart hvas (mem_outstanding l2s hvas' (page_mem_objects hpage hne))
    (fun heq => by cases heq) ha ha'

/-- **The invariant** is kept by every step. -/
theorem step (h : VasesInv hw L κ l2s w) (hstep : w.Step w') :
    ∃ κ' l2s', VasesInv hw L κ' l2s' w' := by
  cases hstep with
  | create hcreate hne =>
      obtain ⟨κ', h', -⟩ := h.create hcreate hne
      exact ⟨κ', l2s, h'⟩
  | @allocate s s' before after others vas vas' address executable haddr hok =>
      have hvas : vas ∈ before ++ vas :: after := by simp
      by_cases hlow : address < 2 ^ 31
      · obtain ⟨κ', l2s', page, h', -⟩ := h.allocate hlow hok
        exact ⟨κ', l2s', h'⟩
      · obtain ⟨rfl, rfl⟩ := refused (haddr.resolve_left hlow) (h.unlisted vas hvas) hok
        exact ⟨κ, l2s, h.append_zero⟩
  | free hpages hfree =>
      obtain ⟨s', κ', hfree', h', -⟩ := h.free hpages
      cases hfree.symm.trans hfree'
      exact ⟨κ', l2s, h'⟩
  | other hother =>
      obtain ⟨κ', h'⟩ := h.other hother
      exact ⟨κ', l2s, h'⟩
  | write hm => exact ⟨κ, l2s, h.write hm⟩

/-- What one address space has and what the others have are different objects. -/
theorem rest_ne (h : VasesInv hw L κ l2s ⟨s, before ++ vas :: after, others⟩) {o o' : Object}
    (ho : o ∈ Vases.objects ⟨s, before ++ after, others⟩) (ho' : o' ∈ vas.objects) : o ≠ o' := by
  have hnodup := (List.nodup_append.mp h.acc.nodup).2.1
  have hsplit := (Vases.objects_perm s s).nodup hnodup
  exact ((List.nodup_append.mp hsplit).2.2 o' ho' o ho).symm

/-- **A call within the table is confined.**  Besides records and the new page
it writes to tables of this address space only, and what other spaces and
clients have stays as it was. -/
theorem confined (h : VasesInv hw L κ l2s ⟨s, before ++ vas :: after, others⟩)
    (haddr : WithinTable s vas address)
    (hok : allocatePage s vas address executable = .ok (s', vas')) :
    VasConfined s before vas after others s' vas' := by
  have hvas : vas ∈ before ++ vas :: after := by simp
  by_cases hlow : address < 2 ^ 31
  · have hi := l1ptIndex_user hlow
    have hslot : L1Slot L κ (entryAt vas.l1PageTable (l1ptIndex address)) :=
      h.tables.slot (table_mem hvas) hi
    have hcoarse := h.tables.coarse vas.table (table_mem hvas) _ hi
    obtain ⟨s₁, κ₁, l2, κ', page, hready, hm, rfl⟩ := h.mapped hvas hlow hok
    have hl2 := hready.mem hcoarse
    refine ⟨rfl, fun a ha => ?_, fun o ho a ha ha' => ?_, fun other hother n hn => ?_⟩
    · by_contra hout
      obtain ⟨page', created, halloc, heq⟩ := allocatePage_eq_ok.mp hok
      obtain rfl : page = page' := by simpa using congrArg Vas2.pages heq
      refine ha (vm2AllocatePage_frame h.tables.inv hslot hcoarse halloc ?_ (fun htype => ?_) ?_
        fun i hi => ?_)
      · by_contra hin
        refine hout (.inl (.inl ?_))
        unfold entryAt at hin
        dsimp only
        omega
      · by_contra hin
        obtain ⟨hle, hlt⟩ := not_or.mp hin
        exact hout (.inl (.inr ⟨_, hi, htype, not_lt.mp hle, not_le.mp hlt⟩))
      · by_contra hin
        obtain ⟨hle, hlt⟩ := not_or.mp hin
        exact hout (.inr (.inl ⟨page, rfl, not_lt.mp hle, not_le.mp hlt⟩))
      · by_contra hin
        obtain ⟨hle, hlt⟩ := not_or.mp hin
        exact hout (.inr (.inr ⟨_, h.tables.inv.isRecord hi, not_lt.mp hle, not_le.mp hlt⟩))
    · have hin : o ∈ Vases.objects ⟨s, before ++ vas :: after, others⟩ :=
        (Vases.objects_perm s s).mem_iff.mpr (List.mem_append_right _ ho)
      have hheld := (h.acc.mem_iff o).mp (List.mem_append_right _ hin)
      have howned := owned_of_mem hheld ha ha'
      -- it is not the L1 table, and not the L2 table
      have hl1 := h.acc.inv.held_disjoint hheld ((h.acc.mem_iff _).mp
        (mem_outstanding l2s hvas (l1_mem_objects vas))) (h.rest_ne ho (l1_mem_objects vas))
      obtain ⟨l2s', hacc, hmem, -⟩ := hready.accounted hslot h.acc fun htype =>
        (h.entries vas hvas _ hi).elim (fun h0 => absurd (h0.symm.trans htype) (by decide))
          And.right
      have hne : o ≠ ⟨.slot .l2, l2⟩ :=
        ((List.nodup_append.mp hacc.nodup).2.2 _ (List.mem_map_of_mem hmem) o hin).symm
      have hapart := (hready.inv h.tables.inv hslot).held_disjoint (hready.subset hheld) hl2 hne
      have hsize : ObjectKind.l1.size = 4 * 0x800 := rfl
      have hb := entryAt_bounds l2 address
      have hsize' : (ObjectKind.slot .l2).size = SlotKind.l2.size := rfl
      unfold Object.Disjoint RangesDisjoint at hl1 hapart
      dsimp only at hl1 hapart
      rw [hm.owned a (howned.mono hready.subset) (by omega)]
      exact hready.owned howned (by unfold entryAt; omega)
    · have ht : other.table ∈ Vases.tables ⟨s, before ++ vas :: after, others⟩ := by
        rw [Vases.tables_eq s s]
        exact Set.mem_insert_of_mem _ ⟨other, hother, rfl⟩
      have hne : other.table ≠ vas.table := by
        intro heq
        have hl1 : other.l1PageTable = vas.l1PageTable := congrArg L1Table.base heq
        refine h.rest_ne (o := ⟨.l1, other.l1PageTable⟩) ?_ (l1_mem_objects vas) (by rw [hl1])
        exact List.mem_append_left _ (List.mem_flatMap.mpr ⟨other, hother, l1_mem_objects other⟩)
      obtain ⟨-, hrew, -⟩ := h.tables.map (table_mem hvas) hi hready hm
      have hi' : n / 256 < 0x800 := Nat.div_lt_of_lt_mul hn
      refine ⟨(hrew.l1 other.table ht _ hi').resolve_right fun hc => hne hc.1,
        hrew.words other.table ht n hn fun heq => hne (Prod.mk.inj heq).1⟩
  · obtain ⟨rfl, rfl⟩ := refused (haddr.resolve_left hlow) (h.unlisted vas hvas) hok
    exact ⟨rfl, fun a ha => absurd rfl ha, fun _ _ _ _ _ => rfl, fun _ _ _ _ => ⟨rfl, rfl⟩⟩

end VasesInv

/-- Without slices there is never an address space, since making one takes an
L1 table. -/
theorem vases_of_empty (hrun : ReflTransGen Vases.Step ⟨s, [], []⟩ w)
    (hno : ∀ kind, ¬Available kind s) : w = ⟨s, [], []⟩ := by
  refine Runs.invariant (I := fun w => w = ⟨s, [], []⟩) ?_ hrun rfl
  rintro w w' rfl hstep
  generalize hw : (⟨s, [], []⟩ : Vases) = w at hstep
  cases hstep with
  | create hcreate hne =>
      cases hw
      obtain ⟨-, p, halloc, rfl⟩ := createVas_eq_ok.mp hcreate
      replace halloc : Pmm.allocate .l1 s = .ok (_, p) := halloc
      exact absurd (available_of_ok halloc hne) (hno .l1)
  | allocate =>
      have hnil := congrArg Vases.vases hw
      simp at hnil
  | free =>
      have hnil := congrArg Vases.vases hw
      simp at hnil
  | other hother =>
      cases hw
      cases servedRun_of_empty (.single hother) hno rfl
      rfl
  | write hm =>
      cases hw
      rw [mem_eq_of_nil (u := ⟨s, []⟩) rfl fun x _ => hm x fun _ hvas => nomatch hvas]
      rfl

/-- **User mappings stay inside** what the address space has, in every run in
which pages are asked for within the tables or are refused. -/
theorem user_mappings_confined (hR : ManagedRange hw start N r)
    (hmem : ∀ x, start ≤ x → x < start + sliceSize * N → mem x = 0) :
    ∃ s, pmmInit hw mem start (start + sliceSize * N) = .ok s ∧
      ∀ w, ReflTransGen Vases.Step ⟨s, [], []⟩ w →
        ∀ before vas after, w.vases = before ++ vas :: after →
          ∀ address executable s' vas', WithinTable w.pmm vas address →
            allocatePage w.pmm vas address executable = .ok (s', vas') →
              VasConfined w.pmm before vas after w.others s' vas' := by
  rcases Nat.eq_zero_or_pos N with rfl | hN
  · refine ⟨_, pmmInit_empty hw hR.sliceRange mem, fun w hrun before vas after hvases => ?_⟩
    obtain rfl := vases_of_empty hrun (not_available_first mem _ _)
    simp at hvases
  · obtain ⟨s, b, B, hinit, hinv⟩ := pmmInit_spec hR hN hmem
    refine ⟨s, hinit, fun w hrun before vas after hvases address executable s' vas' haddr hok => ?_⟩
    obtain ⟨κ, l2s, h⟩ : ∃ κ l2s, VasesInv hw ⟨start, N, B⟩ κ l2s w := by
      refine Runs.invariant (I := fun w => ∃ κ l2s, VasesInv hw ⟨start, N, B⟩ κ l2s w) ?_ hrun
        ⟨_, _, .of_accounted (Accounted.of_init hR hinv)⟩
      rintro w w' ⟨κ, l2s, h⟩ hstep
      exact h.step hstep
    obtain ⟨pmm, vases, others⟩ := w
    obtain rfl : vases = before ++ vas :: after := hvases
    exact h.confined haddr hok

/-- Six slices, none of them reserved, and any run of address spaces and other
clients. -/
theorem user_mappings_confined_six_slices :
    ∃ s, pmmInit ⟨0x3f000000, 21 * 0x100000⟩ ⟨fun _ => 0⟩ 0x80200000
        (0x80200000 + sliceSize * 6) = .ok s ∧
      ∀ w, ReflTransGen Vases.Step ⟨s, [], []⟩ w →
        ∀ before vas after, w.vases = before ++ vas :: after →
          ∀ address executable s' vas', WithinTable w.pmm vas address →
            allocatePage w.pmm vas address executable = .ok (s', vas') →
              VasConfined w.pmm before vas after w.others s' vas' :=
  user_mappings_confined (r := 6) ⟨by decide, by decide, by decide, by decide, by decide⟩
    fun _ _ _ => rfl

/-- Two address spaces, with their tables in neighbouring slices: the entry
for the first address of the upper half is entry 0 of the other's table. -/
theorem user_mapping_strays :
    ∃ s w before vas after s' vas', pmmInit ⟨0x3f000000, 21 * 0x100000⟩ ⟨fun _ => 0⟩ 0x80200000
        (0x80200000 + sliceSize * 6) = .ok s ∧
      ReflTransGen Vases.Step ⟨s, [], []⟩ w ∧ w.vases = before ++ vas :: after ∧
      readWord w.pmm.mem (entryAt vas.l1PageTable (l1ptIndex 0x80000000)) = 0 ∧
      allocatePage w.pmm vas 0x80000000 false = .ok (s', vas') ∧
      ¬VasConfined w.pmm before vas after w.others s' vas' := by
  have hrun : (do
      let s ← pmmInit ⟨0x3f000000, 21 * 0x100000⟩ ⟨fun _ => 0⟩ 0x80200000
        (0x80200000 + sliceSize * 6)
      let (asids, s₁, other) ← createVas .initial s
      let (_, s₂, vas) ← createVas asids s₁
      let (s', _) ← allocatePage s₂ vas 0x80000000 false
      .ok (decide (other.l1PageTable ≠ 0 ∧ vas.l1PageTable ≠ 0 ∧
        readWord s₂.mem (entryAt vas.l1PageTable (l1ptIndex 0x80000000)) = 0 ∧
        other.table.entry s₂.mem 0 = 0 ∧ other.table.entry s'.mem 0 ≠ 0))) =
      (.ok true : Exec Bool) := by
    decide +kernel
  obtain ⟨s, hinit, hrun⟩ := Exec.bind_eq_ok.mp hrun
  obtain ⟨⟨asids, s₁, other⟩, hother, hrun⟩ := Exec.bind_eq_ok.mp hrun
  obtain ⟨⟨asids', s₂, vas⟩, hvas, hrun⟩ := Exec.bind_eq_ok.mp hrun
  obtain ⟨⟨s', vas'⟩, hok, hrun⟩ := Exec.bind_eq_ok.mp hrun
  obtain ⟨hne, hne', hempty, hzero, hwritten⟩ := of_decide_eq_true (Except.ok.inj hrun)
  have hstep : ReflTransGen Vases.Step ⟨s, [], []⟩ ⟨s₂, [vas, other], []⟩ :=
    .tail (.single (.create hother hne)) (.create hvas hne')
  refine ⟨s, _, [], vas, [other], s', vas', hinit, hstep, rfl, hempty, hok, fun hconfined => ?_⟩
  have hsame := (hconfined.tables other (by simp) 0 (by decide)).1
  exact hwritten (hsame.trans hzero)

end CourseOs.Pmm
