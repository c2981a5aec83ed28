import CourseOs.Vm.Exhaustion
import CourseOs.Vm.Translation
import Mathlib.Data.Finset.Option

/-!
# Page tables as a map

`AddressSpaces` is the manager, the L1 tables there are, and a ledger of the
pages: what `vm2_allocate_page` has returned for each page of each table,
until `vm2_free_page` frees it.  A `Call` takes a further L1 table, maps or
frees a page, or is a client that writes to pages that are out.

`SpacesInv` ties the ledger to memory: the word for a page is a small page
entry for what is entered, and what is out of the manager is what is entered
and what was lost.  A page is lost when `vm2_allocate_page` is called with
`remap` for a page that is mapped, for the entry is overwritten and the page
that was there is not given back.

* `tables_implement` — without `remap` the tables implement the ledger;
* `pagesKept_iff` — as many pages are out as are mapped in a run where no
  mapping is replaced, and in no other.

The ledger is the abstract state, a partial map from pages to physical pages.
That the tables implement it is a statement about the walk of the hardware, in
both directions: a page that is entered translates to what is entered, one
that is not does not translate, and no two pages have the same entry.  Mapping
and freeing a page change it in one place, and return whenever there is memory
and nothing is in the way.

The runs start from the tables that `pmm_init` finds: outside the managed
range, with entries that are empty or sections (`SectionTables`).  Sections
are left alone by both functions.
-/

namespace CourseOs.Pmm

open ByteMemory Ledger Relation

variable {L : Layout} {s s' : PmmState} {κ κ' : ℕ → SliceKind} {T : Set L1Table} {t t' : L1Table}
  {m : ByteMemory} {i n v p page w : ℕ} {perms : PagePermission} {lost : Finset ℕ}
  {hw : HardwareInfo} {start N r : ℕ} {created : Option ℕ} {remap : Bool}

/-- The pages that are out, by the records of their slices. -/
def outstandingPages (s : PmmState) : Set ℕ :=
  {a | ∃ x j, IsRecord s x ∧ infoType s.mem x = MemoryType.page.code ∧
    (infoFilled s.mem x).getLsbD j = true ∧ a = info s.mem x .slice + SlotKind.page.size * j}

/-- The tables map page `n` to a page: its entry in the second table is a
small page. -/
def Mapped (m : ByteMemory) (t : L1Table) (n : ℕ) : Prop := smallpage (t.pageWord m n) ≠ none

/-- The manager, the L1 tables, and the pages that were returned and are not
freed yet.  The last is a ledger, which the code does not keep. -/
structure AddressSpaces where
  pmm : PmmState
  tables : Set L1Table
  pages : L1Table × ℕ → Option ℕ

/-- What is done to them: a table more, a page mapped or freed in one, or a
client writing to its pages. -/
inductive Call
  | newTable
  | allocate (t : L1Table) (virtual : ℕ) (remap : Bool) (perms : PagePermission)
      (created : Option ℕ)
  | free (t : L1Table) (virtual : ℕ)
  | write (m : ByteMemory)

/-- The call replaces a mapping: it was told it may, and there is one. -/
def Call.Replaces (x : AddressSpaces) : Call → Prop
  | .allocate t virtual remap _ _ => remap = true ∧ Mapped x.pmm.mem t (pageNumber virtual)
  | _ => False

/-- The call is not to replace any mapping. -/
def Call.Fresh : Call → Prop
  | .allocate _ _ remap _ _ => remap = false
  | _ => True

/-- One call that returns.  Addresses are in the range of the table, only
pages that are mapped are freed, and only pages that are out are written to. -/
inductive AddressSpaces.Step : AddressSpaces → Call → AddressSpaces → Prop
  | newTable {x : AddressSpaces} {s' : PmmState} {p : ℕ}
      (h : pmmAllocateL1Pagetable x.pmm = .ok (s', p)) (hp : p ≠ 0) :
      Step x .newTable ⟨s', insert ⟨p, 0x800⟩ x.tables, x.pages⟩
  | allocate {x : AddressSpaces} {s' : PmmState} {t : L1Table} {virtual page : ℕ} {remap : Bool}
      {perms : PagePermission} {created created' : Option ℕ}
      (ht : t ∈ x.tables) (hv : l1ptIndex virtual < t.entries)
      (h : vm2AllocatePage x.pmm t.base virtual remap perms created = .ok (s', page, created')) :
      Step x (.allocate t virtual remap perms created) ⟨s', x.tables,
        if page = 0 then x.pages else Function.update x.pages (t, pageNumber virtual) (some page)⟩
  | free {x : AddressSpaces} {s' : PmmState} {t : L1Table} {virtual : ℕ}
      (ht : t ∈ x.tables) (hv : l1ptIndex virtual < t.entries)
      (hmapped : Mapped x.pmm.mem t (pageNumber virtual))
      (h : vm2FreePage x.pmm t.base virtual = .ok s') :
      Step x (.free t virtual)
        ⟨s', x.tables, Function.update x.pages (t, pageNumber virtual) none⟩
  | write {x : AddressSpaces} {m : ByteMemory}
      (h : ∀ a, (∀ p ∈ outstandingPages x.pmm, a < p ∨ p + pageSize ≤ a) → m a = x.pmm.mem a) :
      Step x (.write m) ⟨x.pmm.withMem m, x.tables, x.pages⟩

/-- L1 tables outside the managed range whose entries are empty or sections,
as the kernel's own is when the manager has been initialised. -/
structure SectionTables (start N : ℕ) (T : Set L1Table) (s : PmmState) : Prop where
  outside : ∀ t ∈ T, RangesDisjoint t.base (4 * t.entries) start (sliceSize * N)
  apart : ∀ t ∈ T, ∀ t' ∈ T, t ≠ t' →
    RangesDisjoint t.base (4 * t.entries) t'.base (4 * t'.entries)
  plain : ∀ t ∈ T, ∀ i < t.entries, entryType (t.entry s.mem i) = 0 ∨
    (entryType (t.entry s.mem i) = 2 ∧ supersection (t.entry s.mem i) = 0)

/-- The pages of the tables that are mapped, each with the table it is mapped
in. -/
def AddressSpaces.mappedPages (x : AddressSpaces) : Set (L1Table × ℕ) :=
  {k | k.1 ∈ x.tables ∧ k.2 < 256 * k.1.entries ∧ Mapped x.pmm.mem k.1 k.2}

/-! ### The invariant

Two correspondences: between the ledger and the words of the tables, and
between the pages out and those entered.  The second allows for pages that are
out and not entered, which are lost; without `remap` there are none. -/

/-- The word for a page is what the ledger says. -/
def Entered (w : ℕ) : Option ℕ → Prop
  | none => w = 0
  | some page => ∃ perms, w = smallpageEntry perms (l2ptBaseAddress (virt2phys page))

/-- The tables hold what is entered in the ledger, and the pages out are those
entered and those lost. -/
structure SpacesInv (L : Layout) (κ : ℕ → SliceKind) (lost : Finset ℕ) (x : AddressSpaces) :
    Prop where
  tables : TablesInv L κ x.tables x.pmm
  entered : ∀ t ∈ x.tables, ∀ n < 256 * t.entries,
    Entered (t.pageWord x.pmm.mem n) (x.pages (t, n))
  domain : ∀ t n p, x.pages (t, n) = some p → t ∈ x.tables ∧ n < 256 * t.entries
  simple : Simple x.pages
  held_iff : ∀ p, (⟨.slot .page, p⟩ : Object) ∈ held L κ ↔ p ∈ values x.pages ∨ p ∈ lost
  lost_apart : ∀ p ∈ lost, p ∉ values x.pages

/-- The pages that are out, as the records say, are the ones held by the
invariant's account. -/
theorem PmmTables.mem_outstandingPages (h : PmmTables L s κ) (hpos : 0 < L.slices) :
    p ∈ outstandingPages s ↔ (⟨.slot .page, p⟩ : Object) ∈ held L κ := by
  constructor
  · rintro ⟨x, j, hx, htype, hbit, rfl⟩
    obtain ⟨k, hk, rfl⟩ := h.record_of_isRecord hpos hx
    have hne : infoFilled s.mem (L.record k) ≠ 0 := by
      intro h0
      rw [h0] at hbit
      simp at hbit
    rw [h.slice_eq k hk]
    exact ⟨k, hk, mem_objects_slot.mpr
      ⟨_, (h.slots_iff (t := .page) hk).mpr ⟨htype, rfl, hne⟩, hbit⟩⟩
  · rintro ⟨k, hk, hmem⟩
    cases hkind : κ k with
    | slots t filled =>
        rw [hkind] at hmem
        obtain ⟨j, hbit, heq⟩ := hmem
        obtain ⟨hkinds, rfl⟩ := Object.mk.inj heq
        obtain rfl := ObjectKind.slot.inj hkinds
        obtain ⟨htype, hfilled, -⟩ := (h.slots_iff hk).mp hkind
        refine ⟨L.record k, j, h.isRecord hk, htype, ?_, by rw [h.slice_eq k hk]⟩
        rw [hfilled]
        exact hbit
    | unused | l1 | bucketInfo | reserved =>
        rw [hkind] at hmem
        cases hmem

theorem entryType_smallpageEntry (perms : PagePermission) (b : ℕ) :
    2 ≤ entryType (smallpageEntry perms b) := by
  obtain ⟨f, hf, -, heq⟩ := smallpageEntry_eq perms b
  unfold entryType
  omega

theorem Entered.smallpage_eq {o : Option ℕ} (h : Entered w o)
    (ho : ∀ p, o = some p → p % 4096 = 0 ∧ p < 2 ^ 32) :
    smallpage w = o.map virt2phys := by
  cases o with
  | none =>
      obtain rfl : w = 0 := h
      rfl
  | some p =>
      obtain ⟨perms, rfl⟩ := h
      obtain ⟨halign, hlt⟩ := ho p rfl
      rw [smallpage, if_pos (entryType_smallpageEntry _ _),
        smallpageAddress_smallpageEntry halign hlt]
      rfl

/-- An L2 table that is taken for a page changes nothing about the pages out. -/
theorem TableReady.page_mem_iff {s₁ : PmmState} {κ₁ : ℕ → SliceKind} {l1Entry l2 : ℕ}
    (h : TableReady L s κ l1Entry s₁ κ₁ l2) :
    (⟨.slot .page, p⟩ : Object) ∈ held L κ₁ ↔ (⟨.slot .page, p⟩ : Object) ∈ held L κ := by
  cases h with
  | found => exact Iff.rfl
  | taken _ hh =>
      rw [hh.held_eq, Set.mem_insert_iff]
      exact or_iff_right fun heq => by cases heq

namespace SpacesInv

variable {x y : AddressSpaces} {c : Call}

theorem page_mem (h : SpacesInv L κ lost x) (hp : x.pages (t, n) = some p) :
    (⟨.slot .page, p⟩ : Object) ∈ held L κ :=
  (h.held_iff p).mpr (.inl (mem_values hp))

theorem page_bounds (h : SpacesInv L κ lost x) (hp : x.pages (t, n) = some p) :
    p % 4096 = 0 ∧ p < 2 ^ 32 := by
  have hmem := h.page_mem hp
  have hlt := h.tables.inv.held_lt hmem
  dsimp only at hlt
  exact ⟨h.tables.inv.held_aligned hmem, by omega⟩

/-- The tables map a page to what is entered for it. -/
theorem smallpage_eq (h : SpacesInv L κ lost x) (ht : t ∈ x.tables) (hn : n < 256 * t.entries) :
    smallpage (t.pageWord x.pmm.mem n) = (x.pages (t, n)).map virt2phys :=
  (h.entered t ht n hn).smallpage_eq fun _ hp => h.page_bounds hp

theorem mapped_iff (h : SpacesInv L κ lost x) (ht : t ∈ x.tables) (hn : n < 256 * t.entries) :
    Mapped x.pmm.mem t n ↔ x.pages (t, n) ≠ none := by
  unfold Mapped
  rw [h.smallpage_eq ht hn, Ne, Option.map_eq_none_iff]

/-- One L1 table more, an empty one. -/
theorem newTable (h : SpacesInv L κ lost x) (hh : Handed L x.pmm κ .l1 s' κ' p) :
    SpacesInv L κ' lost ⟨s', insert ⟨p, 0x800⟩ x.tables, x.pages⟩ := by
  obtain ⟨htables, hnew, hzero, -, hwords⟩ := h.tables.insert hh
  refine ⟨htables, ?_, fun t n q hq => ?_, h.simple, fun q => ?_, h.lost_apart⟩
  · rintro t (rfl | ht) n hn
    · have hnone : x.pages (⟨p, 0x800⟩, n) = none := by
        refine Option.eq_none_iff_forall_ne_some.mpr fun q hq => ?_
        exact hnew (h.domain _ n q hq).1
      rw [hnone]
      refine L1Table.pageWord_of_not_coarse ?_
      rw [hzero (n / 256) (Nat.div_lt_of_lt_mul hn)]
      decide
    · dsimp only
      rw [hwords t ht n hn]
      exact h.entered t ht n hn
  · obtain ⟨ht, hn⟩ := h.domain t n q hq
    exact ⟨Set.mem_insert_of_mem _ ht, hn⟩
  · rw [hh.held_eq, Set.mem_insert_iff, ← h.held_iff]
    exact or_iff_right fun heq => by cases heq

/-- Entering or striking a page of a table adds no other table to the ledger. -/
theorem domain_update (h : SpacesInv L κ lost x) (ht : t ∈ x.tables) (hv : l1ptIndex v < t.entries)
    {page : Option ℕ} {t' : L1Table} {n q : ℕ}
    (hq : Function.update x.pages (t, pageNumber v) page (t', n) = some q) :
    t' ∈ x.tables ∧ n < 256 * t'.entries := by
  by_cases hself : (t', n) = (t, pageNumber v)
  · cases hself
    exact ⟨ht, pageNumber_lt hv⟩
  · rw [Function.update_of_ne hself] at hq
    exact h.domain t' n q hq

/-- A page is mapped; one that was there is lost.  The ledger has the new one
in its place. -/
theorem allocate (h : SpacesInv L κ lost x) (ht : t ∈ x.tables) (hv : l1ptIndex v < t.entries)
    {s₁ : PmmState} {κ₁ : ℕ → SliceKind} {l2 : ℕ}
    (hready : TableReady L x.pmm κ (entryAt t.base (l1ptIndex v)) s₁ κ₁ l2)
    (hm : PageMapped L s₁ κ₁ l2 v perms s' κ' page) :
    SpacesInv L κ' (lost ∪ (x.pages (t, pageNumber v)).toFinset)
      ⟨s', x.tables, Function.update x.pages (t, pageNumber v) (some page)⟩ := by
  obtain ⟨htables, hrew, hword⟩ := h.tables.map ht hv hready hm
  have hfresh : page ∉ values x.pages ∧ page ∉ lost := by
    rw [← not_or, ← h.held_iff]
    exact fun hmem => hm.fresh (hready.subset hmem)
  refine ⟨htables, fun t' ht' n hn => ?_, fun t' n q hq => ?_, h.simple.enter hfresh.1,
    fun q => ?_, fun q hq => ?_⟩
  · by_cases hself : (t', n) = (t, pageNumber v)
    · cases hself
      dsimp only
      rw [Function.update_self]
      exact ⟨perms, hword⟩
    · dsimp only
      rw [Function.update_of_ne hself, hrew.words t' ht' n hn hself]
      exact h.entered t' ht' n hn
  · exact h.domain_update ht hv hq
  · rw [hm.held_eq, Set.mem_insert_iff, hready.page_mem_iff, h.held_iff, Finset.mem_union,
      Option.mem_toFinset, Object.mk.injEq]
    cases hold : x.pages (t, pageNumber v) with
    | none =>
        dsimp only
        rw [values_enter hold, Set.mem_insert_iff]
        grind
    | some old =>
        have hmem := mem_values hold
        dsimp only
        rw [h.simple.values_replace hold, Set.mem_insert_iff, Set.mem_sdiff,
          Set.mem_singleton_iff, Option.mem_some_iff]
        grind
  · rw [Finset.mem_union, Option.mem_toFinset] at hq
    dsimp only
    cases hold : x.pages (t, pageNumber v) with
    | none =>
        rw [hold] at hq
        rw [values_enter hold, Set.mem_insert_iff]
        rcases hq with hq | hq
        · rintro (rfl | hmem)
          · exact hfresh.2 hq
          · exact h.lost_apart q hq hmem
        · cases hq
    | some old =>
        rw [hold, Option.mem_some_iff] at hq
        rw [h.simple.values_replace hold, Set.mem_insert_iff, Set.mem_sdiff,
          Set.mem_singleton_iff]
        rcases hq with hq | rfl
        · rintro (rfl | hmem)
          · exact hfresh.2 hq
          · exact h.lost_apart q hq hmem.1
        · rintro (rfl | hmem)
          · exact hfresh.1 (mem_values hold)
          · exact hmem.2 rfl

/-- A page that is entered is freed, and struck.  The entry of the L1 table
stays coarse. -/
theorem free (h : SpacesInv L κ lost x) (ht : t ∈ x.tables) (hv : l1ptIndex v < t.entries)
    (hp : x.pages (t, pageNumber v) = some p) :
    ∃ s' κ', vm2FreePage x.pmm t.base v = .ok s' ∧
      SpacesInv L κ' lost ⟨s', x.tables, Function.update x.pages (t, pageNumber v) none⟩ ∧
      Rewritten x.tables x.pmm.mem s'.mem t (pageNumber v) ∧
      entryType (t.entry s'.mem (l1ptIndex v)) = 1 := by
  have hentered := h.entered t ht _ (pageNumber_lt hv)
  rw [hp] at hentered
  obtain ⟨perms, hword⟩ := hentered
  obtain ⟨s', κ', hfree, htables, hrew, hzero, -, hheld, hcoarse⟩ :=
    vm2FreePage_spec h.tables ht hv hword (h.page_mem hp)
  refine ⟨s', κ', hfree, ⟨htables, fun t' ht' n hn => ?_, fun t' n q hq => ?_, h.simple.strike,
    fun q => ?_, fun q hq => ?_⟩, hrew, hcoarse⟩
  · by_cases hself : (t', n) = (t, pageNumber v)
    · cases hself
      dsimp only
      rw [Function.update_self]
      exact hzero
    · dsimp only
      rw [Function.update_of_ne hself, hrew.words t' ht' n hn hself]
      exact h.entered t' ht' n hn
  · exact h.domain_update ht hv hq
  · have hlost : p ∉ lost := fun hl => h.lost_apart p hl (mem_values hp)
    dsimp only
    rw [hheld, Set.mem_sdiff, Set.mem_singleton_iff, h.held_iff, h.simple.values_strike hp,
      Set.mem_sdiff, Set.mem_singleton_iff, Object.mk.injEq]
    grind
  · dsimp only
    rw [h.simple.values_strike hp]
    exact fun hmem => h.lost_apart q hq hmem.1

/-- A client writes to pages that are out: no table has changed, and neither
has a record. -/
theorem write (h : SpacesInv L κ lost x) (hpos : 0 < L.slices)
    (hm : ∀ a, (∀ p ∈ outstandingPages x.pmm, a < p ∨ p + pageSize ≤ a) → m a = x.pmm.mem a) :
    SpacesInv L κ lost ⟨x.pmm.withMem m, x.tables, x.pages⟩ := by
  have hinv : PmmInv L (x.pmm.withMem m) κ := by
    refine h.tables.inv.of_outside fun i hi a ha ha' => hm a fun p hp => ?_
    by_contra hin
    rw [h.tables.inv.mem_outstandingPages hpos] at hp
    have hout := h.tables.inv.owned_outside (x := a) (owned_of_mem hp (by dsimp only; omega) (by
      show a < p + 4096
      unfold pageSize at hin
      omega)) hi
    omega
  have hmem : ∀ a, TableByte L κ a → m a = x.pmm.mem a := by
    intro a ha
    refine hm a fun p hp => ?_
    rw [h.tables.inv.mem_outstandingPages hpos] at hp
    have hb := h.tables.inv.held_bounds hp
    have hsize : (ObjectKind.slot .page).size = pageSize := rfl
    dsimp only at hb
    rcases ha with hout | ⟨o, ho, hkind, hle, hlt⟩
    · omega
    · have hd := h.tables.inv.held_disjoint ho hp fun heq => hkind (by rw [heq])
      unfold Object.Disjoint RangesDisjoint at hd
      dsimp only at hd
      omega
  obtain ⟨htables, -, hwords⟩ := h.tables.congr hinv (fun o ho _ => ho) hmem
  refine ⟨htables, fun t ht n hn => ?_, h.domain, h.simple, h.held_iff, h.lost_apart⟩
  show Entered (t.pageWord (x.pmm.withMem m).mem n) _
  rw [hwords t ht n hn]
  exact h.entered t ht n hn

/-- The L1 entry for a page that is mapped is coarse. -/
theorem coarse_of_entered (h : SpacesInv L κ lost x) (ht : t ∈ x.tables)
    (hv : l1ptIndex v < t.entries) (hp : x.pages (t, pageNumber v) = some p) :
    entryType (t.entry x.pmm.mem (l1ptIndex v)) = 1 := by
  have hentered := h.entered t ht _ (pageNumber_lt hv)
  rw [hp] at hentered
  obtain ⟨perms, hword⟩ := hentered
  rw [l1ptIndex_eq]
  refine t.coarse_of_pageWord ?_
  rw [hword]
  exact smallpageEntry_ne_zero _ _

/-- Outside sections the walk goes by the ledger: the page that is entered,
and no address where none is. -/
theorem walk_eq (h : SpacesInv L κ lost x) (ht : t ∈ x.tables) (hv : l1ptIndex v < t.entries)
    (hno : entryType (t.entry x.pmm.mem (l1ptIndex v)) ≠ 2) :
    walk x.pmm.mem t.base v =
      (x.pages (t, pageNumber v)).map fun p => virt2phys p + v % 2 ^ 12 := by
  rw [walk_of_pageWord hno, h.smallpage_eq ht (pageNumber_lt hv), Option.map_map]
  rfl

/-- Nothing is mapped in a section by `vm2_allocate_page`. -/
theorem not_mapped_of_section (htype : 2 ≤ entryType (t.entry x.pmm.mem (l1ptIndex v))) :
    ¬Mapped x.pmm.mem t (pageNumber v) := by
  unfold Mapped
  rw [t.pageWord_of_not_coarse (by rw [← l1ptIndex_eq]; omega)]
  exact not_not.mpr rfl

/-- Without `remap` nothing is mapped at the address when the call returns,
since it looks at the word. -/
theorem unmapped_of_ready (h : SpacesInv L κ lost x) (ht : t ∈ x.tables)
    (hv : l1ptIndex v < t.entries) {s₁ : PmmState} {κ₁ : ℕ → SliceKind} {l2 : ℕ}
    (hready : TableReady L x.pmm κ (entryAt t.base (l1ptIndex v)) s₁ κ₁ l2)
    (hzero : readWord s₁.mem (entryAt l2 (l2ptIndex v)) = 0) :
    x.pages (t, pageNumber v) = none := by
  have hword : t.pageWord x.pmm.mem (pageNumber v) = 0 := by
    cases hready with
    | found hcoarse =>
        rw [t.pageWord_of_coarse (by rw [← l1ptIndex_eq]; exact hcoarse), ← l1ptIndex_eq,
          ← l2ptIndex_eq]
        exact hzero
    | taken hempty _ =>
        refine L1Table.pageWord_of_not_coarse ?_
        rw [← l1ptIndex_eq]
        change entryType (readWord x.pmm.mem (entryAt t.base (l1ptIndex v))) ≠ 1
        rw [hempty]
        decide
  by_contra hne
  refine (h.mapped_iff ht (pageNumber_lt hv)).mpr hne ?_
  rw [hword]
  rfl

/-- **One call** keeps the invariant, and loses a page where it replaces a
mapping.  The number of pages lost is that of the mappings replaced. -/
theorem step (h : SpacesInv L κ lost x) (hpos : 0 < L.slices) (hstep : x.Step c y) :
    ∃ κ' lost', SpacesInv L κ' lost' y ∧ (c.Replaces x → lost'.card = lost.card + 1) ∧
      (¬c.Replaces x → lost'.card = lost.card) := by
  cases hstep with
  | newTable halloc hp =>
      have hav : Available .l1 x.pmm := available_of_ok halloc hp
      obtain ⟨s', p, κ', halloc', hh⟩ := h.tables.inv.hand hav
      cases halloc.symm.trans halloc'
      exact ⟨κ', lost, h.newTable hh, False.elim, fun _ => rfl⟩
  | @allocate s' t virtual page remap perms created created' ht hv halloc =>
      rcases vm2AllocatePage_spec h.tables.inv (h.tables.slot ht hv) (h.tables.coarse t ht _ hv)
        halloc with ⟨htype, rfl, rfl, -⟩ | ⟨s₁, κ₁, l2, κ', hready, hm, hzero, -⟩
      · rw [if_pos rfl]
        exact ⟨κ, lost, h, fun hrep => absurd hrep.2 (not_mapped_of_section htype), fun _ => rfl⟩
      · have hpage : page ≠ 0 := by
          obtain ⟨k, hk, hobj⟩ := hm.mem
          exact hm.inv.addr_ne_zero hk hobj
        rw [if_neg hpage]
        refine ⟨κ', _, h.allocate ht hv hready hm, fun hrep => ?_, fun hno => ?_⟩
        · obtain ⟨old, hold⟩ := Option.ne_none_iff_exists'.mp
            ((h.mapped_iff ht (pageNumber_lt hv)).mp hrep.2)
          rw [hold, Option.toFinset_some, Finset.card_union_of_disjoint ?_, Finset.card_singleton]
          exact Finset.disjoint_singleton_right.mpr fun hl =>
            h.lost_apart old hl (mem_values hold)
        · have hnone : x.pages (t, pageNumber virtual) = none := by
            cases hremap : remap with
            | false => exact h.unmapped_of_ready ht hv hready (hzero hremap)
            | true =>
                by_contra hne
                exact hno ⟨hremap, (h.mapped_iff ht (pageNumber_lt hv)).mpr hne⟩
          rw [hnone, Option.toFinset_none, Finset.union_empty]
  | free ht hv hmapped hfree =>
      obtain ⟨p, hp⟩ := Option.ne_none_iff_exists'.mp
        ((h.mapped_iff ht (pageNumber_lt hv)).mp hmapped)
      obtain ⟨s', κ', hfree', hinv, -⟩ := h.free ht hv hp
      cases hfree.symm.trans hfree'
      exact ⟨κ', lost, hinv, False.elim, fun _ => rfl⟩
  | write hm => exact ⟨κ, lost, h.write hpos hm, False.elim, fun _ => rfl⟩

/-- The pages out are those entered and those lost. -/
theorem outstandingPages_eq (h : SpacesInv L κ lost x) (hpos : 0 < L.slices) :
    outstandingPages x.pmm = values x.pages ∪ lost := by
  ext p
  rw [h.tables.inv.mem_outstandingPages hpos, h.held_iff]
  rfl

/-- The pages of the tables that are mapped are those with an entry in the
ledger. -/
theorem mappedPages_eq (h : SpacesInv L κ lost x) : x.mappedPages = keys x.pages := by
  ext ⟨t, n⟩
  constructor
  · rintro ⟨ht, hn, hmapped⟩
    exact (h.mapped_iff ht hn).mp hmapped
  · intro hk
    obtain ⟨p, hp⟩ := Option.ne_none_iff_exists'.mp hk
    obtain ⟨ht, hn⟩ := h.domain t n p hp
    exact ⟨ht, hn, (h.mapped_iff ht hn).mpr hk⟩

/-- More pages are out than mapped, by those lost.  So the two numbers agree
exactly if none was lost. -/
theorem ncard_outstandingPages (h : SpacesInv L κ lost x) (hpos : 0 < L.slices) :
    (outstandingPages x.pmm).ncard = x.mappedPages.ncard + lost.card := by
  have hfinite : (values x.pages).Finite := by
    refine (Set.finite_lt_nat (2 ^ 32)).subset ?_
    rintro p ⟨⟨t, n⟩, hp⟩
    exact (h.page_bounds hp).2
  have hdisjoint : Disjoint (values x.pages) (lost : Set ℕ) :=
    Set.disjoint_left.mpr fun p hp hl => h.lost_apart p hl hp
  rw [h.outstandingPages_eq hpos, Set.ncard_union_eq hdisjoint hfinite lost.finite_toSet,
    Set.ncard_coe_finset, h.simple.ncard_values, h.mappedPages_eq]

end SpacesInv

namespace AddressSpaces

variable {x₀ x y : AddressSpaces}

/-- A run with `n` calls that replaced a mapping, which are those with `remap`
at an address that has a page. -/
inductive Run (x₀ : AddressSpaces) : ℕ → AddressSpaces → Prop
  | refl : Run x₀ 0 x₀
  | fresh {n : ℕ} {x y : AddressSpaces} {c : Call} (hrun : Run x₀ n x) (hstep : x.Step c y)
      (hno : ¬c.Replaces x) : Run x₀ n y
  | replaced {n : ℕ} {x y : AddressSpaces} {c : Call} (hrun : Run x₀ n x) (hstep : x.Step c y)
      (hrep : c.Replaces x) : Run x₀ (n + 1) y

/-- The run keeps the invariant; every mapping replaced is a page lost. -/
theorem Run.inv (hpos : 0 < L.slices) (hrun : Run x₀ n x) (h : SpacesInv L κ ∅ x₀) :
    ∃ κ' lost, SpacesInv L κ' lost x ∧ lost.card = n := by
  induction hrun with
  | refl => exact ⟨κ, ∅, h, rfl⟩
  | fresh _ hstep hno ih =>
      obtain ⟨κ₁, lost₁, h₁, hcard⟩ := ih
      obtain ⟨κ₂, lost₂, h₂, -, hsame⟩ := h₁.step hpos hstep
      exact ⟨κ₂, lost₂, h₂, (hsame hno).trans hcard⟩
  | replaced _ hstep hrep ih =>
      obtain ⟨κ₁, lost₁, h₁, hcard⟩ := ih
      obtain ⟨κ₂, lost₂, h₂, hmore, -⟩ := h₁.step hpos hstep
      exact ⟨κ₂, lost₂, h₂, (hmore hrep).trans (by rw [hcard])⟩

/-- As many pages are out as are mapped, so that none was lost. -/
def PagesKept (x : AddressSpaces) : Prop :=
  (outstandingPages x.pmm).ncard = x.mappedPages.ncard

end AddressSpaces

namespace SpacesInv

variable {x : AddressSpaces}

/-- A section is mapped whatever the ledger says. -/
theorem lt_of_walk (h : SpacesInv L κ lost x) (ht : t ∈ x.tables) (hv : l1ptIndex v < t.entries)
    (hwalk : walk x.pmm.mem t.base v = none) :
    entryType (t.entry x.pmm.mem (l1ptIndex v)) < 2 := by
  rcases h.tables.plain t ht _ hv with hlt | ⟨htype, hsuper⟩
  · exact hlt
  · unfold walk at hwalk
    change (walkEntry x.pmm.mem (t.entry x.pmm.mem (l1ptIndex v)) v).map _ = none at hwalk
    rw [walkEntry, htype] at hwalk
    simp only [if_pos hsuper, Option.map_some, reduceCtorEq] at hwalk

/-- `vm2_allocate_page` returns when memory is not exhausted and nothing is in
the way. -/
theorem allocate_returns (h : SpacesInv L κ lost x) (ht : t ∈ x.tables)
    (hv : l1ptIndex v < t.entries)
    (hav : ¬(Demand.page t.base v remap perms created).Exhausted x.pmm)
    (hnone : remap = false → x.pages (t, pageNumber v) = none) :
    ∃ s' page created', vm2AllocatePage x.pmm t.base v remap perms created =
      .ok (s', page, created') := by
  obtain ⟨hpage, hboth⟩ := not_or.mp hav
  obtain ⟨⟨s', page, created'⟩, hok⟩ : ∃ r, vm2AllocatePage x.pmm t.base v remap perms created =
      .ok r := by
    refine vm2AllocatePage_total h.tables.inv (h.tables.slot ht hv) (h.tables.coarse t ht _ hv)
      (not_not.mp hpage) (fun hempty => ?_) fun hremap hcoarse => ?_
    · by_contra hno
      exact hboth ⟨hempty, fun s₁ l2 halloc hav => hno ⟨s₁, l2, halloc, hav⟩⟩
    · have hentered := h.entered t ht _ (pageNumber_lt hv)
      rw [hnone hremap, t.pageWord_of_coarse (by rw [← l1ptIndex_eq]; exact hcoarse),
        ← l1ptIndex_eq, ← l2ptIndex_eq] at hentered
      exact hentered
  exact ⟨s', page, created', hok⟩

/-- A page has been mapped outside sections: which one, and how. -/
theorem mapped_of_ok (h : SpacesInv L κ lost x) (ht : t ∈ x.tables) (hv : l1ptIndex v < t.entries)
    (htype : entryType (t.entry x.pmm.mem (l1ptIndex v)) < 2) {created' : Option ℕ}
    (hok : vm2AllocatePage x.pmm t.base v remap perms created = .ok (s', page, created')) :
    ∃ s₁ κ₁ l2 κ', TableReady L x.pmm κ (entryAt t.base (l1ptIndex v)) s₁ κ₁ l2 ∧
      PageMapped L s₁ κ₁ l2 v perms s' κ' page ∧ page ≠ 0 ∧
      (remap = false → readWord s₁.mem (entryAt l2 (l2ptIndex v)) = 0) := by
  rcases vm2AllocatePage_spec h.tables.inv (h.tables.slot ht hv) (h.tables.coarse t ht _ hv)
    hok with ⟨hsection, -⟩ | ⟨s₁, κ₁, l2, κ', hready, hm, hzero, -⟩
  · exact absurd htype (not_lt.mpr hsection)
  · obtain ⟨k, hk, hobj⟩ := hm.mem
    exact ⟨s₁, κ₁, l2, κ', hready, hm, hm.inv.addr_ne_zero hk hobj, hzero⟩

end SpacesInv

/-! ### The tables implement the ledger

The calls, seen by their effect on translations and on the pages out.  A page
mapped is a new one, and a page freed is given back; all other addresses of
all tables translate as before. -/

/-- The addresses of one page translate as `o` says, and all others as before,
in this table and in all others. -/
structure Translates (x : AddressSpaces) (s' : PmmState) (t : L1Table) (v : ℕ) (o : Option ℕ) :
    Prop where
  self : ∀ w, pageNumber w = pageNumber v →
    walk s'.mem t.base w = o.map fun p => virt2phys p + w % 2 ^ 12
  others : ∀ t' ∈ x.tables, ∀ w, l1ptIndex w < t'.entries →
    (t', pageNumber w) ≠ (t, pageNumber v) → walk s'.mem t'.base w = walk x.pmm.mem t'.base w

/-- The tables implement the ledger, which gives every page that is mapped a
page of its own among those that are out; mapping and freeing a page change
the ledger in one place. -/
structure Implements (x : AddressSpaces) : Prop where
  simple : Simple x.pages
  values_eq : values x.pages = outstandingPages x.pmm
  keys_eq : keys x.pages = x.mappedPages
  walk_eq : ∀ t ∈ x.tables, ∀ v, l1ptIndex v < t.entries → ∀ p,
    x.pages (t, pageNumber v) = some p → walk x.pmm.mem t.base v = some (virt2phys p + v % 2 ^ 12)
  /-- Unless memory is exhausted, an unmapped page is mapped to the page returned. -/
  allocate : ∀ t ∈ x.tables, ∀ v, l1ptIndex v < t.entries → walk x.pmm.mem t.base v = none →
    ∀ perms created, ¬(Demand.page t.base v false perms created).Exhausted x.pmm →
      ∃ s' page created',
        vm2AllocatePage x.pmm t.base v false perms created = .ok (s', page, created') ∧
          page ≠ 0 ∧ Translates x s' t v (some page) ∧ page ∉ outstandingPages x.pmm ∧
          outstandingPages s' = insert page (outstandingPages x.pmm)
  /-- A page that is mapped is freed: the one that was returned for it. -/
  free : ∀ t ∈ x.tables, ∀ v, l1ptIndex v < t.entries → ∀ p,
    x.pages (t, pageNumber v) = some p →
      ∃ s', vm2FreePage x.pmm t.base v = .ok s' ∧ Translates x s' t v none ∧
        outstandingPages s' = outstandingPages x.pmm \ {p}

namespace SpacesInv

variable {x : AddressSpaces}

/-- What an operation on one page does to the walk, when the L1 entry for it
is coarse. -/
theorem translates (hrew : Rewritten x.tables x.pmm.mem s'.mem t (pageNumber v))
    {f : L1Table × ℕ → Option ℕ} (h' : SpacesInv L κ' lost ⟨s', x.tables, f⟩) (ht : t ∈ x.tables)
    (hv : l1ptIndex v < t.entries) (hcoarse : entryType (t.entry s'.mem (l1ptIndex v)) = 1) :
    Translates x s' t v (f (t, pageNumber v)) where
  self w hw := by
    have hindex : l1ptIndex w = l1ptIndex v := by rw [l1ptIndex_eq, hw, ← l1ptIndex_eq]
    have hwalk := h'.walk_eq ht (v := w) (hindex ▸ hv) (by
      rw [hindex]
      dsimp only
      rw [hcoarse]
      decide)
    rw [hw] at hwalk
    exact hwalk
  others t' ht' w hw hne := hrew.walk_eq ht' hw hne

/-- **The tables implement the ledger** while no page is lost.  Walks are
look-ups, an allocation is an entry under a new key, and a free strikes one
out. -/
theorem implements (h : SpacesInv L κ ∅ x) (hpos : 0 < L.slices) : Implements x where
  simple := h.simple
  values_eq := by
    rw [h.outstandingPages_eq hpos, Finset.coe_empty, Set.union_empty]
  keys_eq := h.mappedPages_eq.symm
  walk_eq t ht v hv p hp := by
    have hcoarse := h.coarse_of_entered ht hv hp
    rw [h.walk_eq ht hv (by rw [hcoarse]; decide), hp]
    rfl
  allocate t ht v hv hwalk perms created hav := by
    have htype := h.lt_of_walk ht hv hwalk
    have hnone : x.pages (t, pageNumber v) = none := by
      rw [h.walk_eq ht hv (by omega)] at hwalk
      exact Option.map_eq_none_iff.mp hwalk
    obtain ⟨s', page, created', hok⟩ := h.allocate_returns ht hv hav fun _ => hnone
    obtain ⟨s₁, κ₁, l2, κ', hready, hm, hpage, -⟩ := h.mapped_of_ok ht hv htype hok
    obtain ⟨-, hrew, -⟩ := h.tables.map ht hv hready hm
    have h' := h.allocate ht hv hready hm
    have hcoarse := h'.coarse_of_entered ht hv (Function.update_self ..)
    have htranslates := translates hrew h' ht hv hcoarse
    rw [Function.update_self] at htranslates
    refine ⟨s', page, created', hok, hpage, htranslates, ?_, ?_⟩
    · rw [h.tables.inv.mem_outstandingPages hpos]
      exact fun hmem => hm.fresh (hready.subset hmem)
    · ext p
      rw [hm.inv.mem_outstandingPages hpos, hm.held_eq, Set.mem_insert_iff, Set.mem_insert_iff,
        hready.page_mem_iff, h.tables.inv.mem_outstandingPages hpos, Object.mk.injEq]
      exact or_congr (and_iff_right rfl) Iff.rfl
  free t ht v hv p hp := by
    obtain ⟨s', κ', hfree, h', hrew, hcoarse⟩ := h.free ht hv hp
    have htranslates := translates hrew h' ht hv hcoarse
    rw [Function.update_self] at htranslates
    refine ⟨s', hfree, htranslates, ?_⟩
    rw [h.outstandingPages_eq hpos, h'.outstandingPages_eq hpos, Finset.coe_empty, Set.union_empty,
      Set.union_empty]
    exact h.simple.values_strike hp

end SpacesInv

/-! ### From `pmm_init` on

A manager that has just been set up has nothing out, and the tables there are
have no coarse entries yet.  The invariant holds of this state with an empty
ledger. -/

/-- Nothing is mapped in tables of sections, and nothing is out. -/
theorem SectionTables.inv (h : SectionTables L.start L.slices T s) (hinv : PmmInv L s κ)
    (hnone : ∀ o, o ∉ held L κ) : SpacesInv L κ ∅ ⟨s, T, fun _ => none⟩ := by
  have hno : ∀ t ∈ T, ∀ i < t.entries, entryType (t.entry s.mem i) ≠ 1 := by
    intro t ht i hi
    rcases h.plain t ht i hi with h0 | ⟨h2, -⟩
    · rw [h0]
      decide
    · rw [h2]
      decide
  refine ⟨⟨hinv, fun t ht => .inl (h.outside t ht), h.apart, fun t ht i hi => ?_,
    fun t ht i hi htype => absurd htype (hno t ht i hi),
    fun t ht i hi t' ht' i' hi' htype => absurd htype (hno t ht i hi)⟩, fun t ht n hn => ?_,
    (fun t n p hp => nomatch hp), simple_none, fun p => ?_,
    fun p hp => absurd hp (Finset.notMem_empty p)⟩
  · exact (h.plain t ht i hi).imp (fun h0 => by rw [h0]; decide) id
  · exact L1Table.pageWord_of_not_coarse (hno t ht _ (by omega))
  · refine iff_of_false (hnone _) ?_
    rintro (hp | hp)
    · rw [values_none] at hp
      exact hp
    · exact Finset.notMem_empty p hp

/-- `pmm_init` leaves the manager ready for page tables, with an empty ledger. -/
theorem pmmInit_spaces (hR : ManagedRange hw start N r) (hN : 0 < N)
    (hmem : ∀ x, start ≤ x → x < start + sliceSize * N → m x = 0) :
    ∃ s L κ, pmmInit hw m start (start + sliceSize * N) = .ok s ∧ L.start = start ∧ L.slices = N ∧
      (N < sliceinfoPerSlice → r ≤ N → Spare L κ (r - 1)) ∧
      ∀ T, SectionTables start N T s → SpacesInv L κ ∅ ⟨s, T, fun _ => none⟩ := by
  obtain ⟨s, b, B, hinit, hinv⟩ := pmmInit_spec hR hN hmem
  have hacc := Accounted.of_init hR hinv
  have hnone : ∀ o, o ∉ held ⟨start, N, B⟩ (initKind (marked hw start) B b) :=
    fun o ho => List.not_mem_nil ((hacc.mem_iff o).mpr ho)
  exact ⟨s, ⟨start, N, B⟩, _, hinit, rfl, rfl,
    fun hN' hr => .of_nothing (Set.eq_empty_of_forall_notMem hnone)
      (usableSlices_init hR hinv hN' hr),
    fun T hT => SectionTables.inv hT hacc.inv hnone⟩

/-- **Remapping loses no page** in a run where no mapping is replaced, and in
no other: the page replaced is not freed, and nothing leads to it any more. -/
theorem pagesKept_iff (hR : ManagedRange hw start N r) (hN : 0 < N)
    (hmem : ∀ x, start ≤ x → x < start + sliceSize * N → m x = 0) :
    ∃ s, pmmInit hw m start (start + sliceSize * N) = .ok s ∧
      ∀ T, SectionTables start N T s → ∀ n x,
        AddressSpaces.Run ⟨s, T, fun _ => none⟩ n x → (x.PagesKept ↔ n = 0) := by
  obtain ⟨s, L, κ, hinit, -, hslices, -, hstart⟩ := pmmInit_spaces hR hN hmem
  refine ⟨s, hinit, fun T hT n x hrun => ?_⟩
  obtain ⟨κ', lost, h, hcard⟩ := hrun.inv (hslices ▸ hN) (hstart T hT)
  unfold AddressSpaces.PagesKept
  rw [h.ncard_outstandingPages (hslices ▸ hN), hcard]
  omega

/-- Without `remap` no mapping is replaced. -/
theorem AddressSpaces.run_of_fresh {x₀ x : AddressSpaces}
    (hrun : ReflTransGen (fun x y => ∃ c : Call, c.Fresh ∧ x.Step c y) x₀ x) : Run x₀ 0 x := by
  induction hrun with
  | refl => exact .refl
  | tail _ hstep ih =>
      obtain ⟨c, hfresh, hstep⟩ := hstep
      refine .fresh ih hstep ?_
      cases c with
      | allocate t virtual remap perms created =>
          rintro ⟨hremap, -⟩
          cases hfresh.symm.trans hremap
      | newTable | free | write => exact id

/-- **The page tables implement a map.**  In every run without `remap` from
`pmm_init` on, the tables translate as the ledger says and pages out
correspond to pages mapped; from any state of the run, mapping a page and
freeing it return, and change this one translation and no other. -/
theorem tables_implement (hR : ManagedRange hw start N r) (hN : 0 < N)
    (hmem : ∀ x, start ≤ x → x < start + sliceSize * N → m x = 0) :
    ∃ s, pmmInit hw m start (start + sliceSize * N) = .ok s ∧
      ∀ T, SectionTables start N T s → ∀ x,
        ReflTransGen (fun x y => ∃ c : Call, c.Fresh ∧ x.Step c y) ⟨s, T, fun _ => none⟩ x →
          Implements x := by
  obtain ⟨s, L, κ, hinit, -, hslices, -, hstart⟩ := pmmInit_spaces hR hN hmem
  refine ⟨s, hinit, fun T hT x hrun => ?_⟩
  obtain ⟨κ', lost, h, hcard⟩ :=
    (AddressSpaces.run_of_fresh hrun).inv (hslices ▸ hN) (hstart T hT)
  rw [Finset.card_eq_zero.mp hcard] at h
  exact h.implements (hslices ▸ hN)

/-- Four slices from the bottom of the kernel's half, the last two reserved. -/
theorem tables_implement_four_slices :
    ∃ s, pmmInit ⟨0x4000, 0x4000⟩ ⟨fun _ => 0⟩ 0x80000000 (0x80000000 + sliceSize * 4) = .ok s ∧
      ∀ T, SectionTables 0x80000000 4 T s → ∀ x,
        ReflTransGen (fun x y => ∃ c : Call, c.Fresh ∧ x.Step c y) ⟨s, T, fun _ => none⟩ x →
          Implements x :=
  tables_implement (r := 2) ⟨by decide, by decide, by decide, by decide, by decide⟩ (by decide)
    fun _ _ _ => rfl

theorem pagesKept_iff_four_slices :
    ∃ s, pmmInit ⟨0x4000, 0x4000⟩ ⟨fun _ => 0⟩ 0x80000000 (0x80000000 + sliceSize * 4) = .ok s ∧
      ∀ T, SectionTables 0x80000000 4 T s → ∀ n x,
        AddressSpaces.Run ⟨s, T, fun _ => none⟩ n x → (x.PagesKept ↔ n = 0) :=
  pagesKept_iff (r := 2) ⟨by decide, by decide, by decide, by decide, by decide⟩ (by decide)
    fun _ _ _ => rfl

/-! ### A page that is lost

With `remap` the old page is overwritten in the table and not freed.  It is
still out, and no address leads to it. -/

/-- Two more objects: memory is not exhausted for a page. -/
theorem Spare.not_exhausted (h : Spare L κ 2) (hinv : PmmInv L s κ) {l1pt : ℕ} :
    ¬(Demand.page l1pt v remap perms created).Exhausted s := by
  rintro (hno | ⟨-, hno⟩)
  · exact hno (h.available hinv _)
  · obtain ⟨s₁, l2, κ₁, halloc, hh⟩ := hinv.hand (h.available hinv (.slot .l2))
    rw [allocate_slot] at halloc
    exact hno s₁ l2 halloc ((h.handed hh).available hh.inv _)

/-- With memory to spare a page can be mapped, also in place of another.  Two
slices are enough for it. -/
theorem SpacesInv.step_allocate {x : AddressSpaces} (h : SpacesInv L κ lost x)
    (hspare : Spare L κ (n + 2)) (ht : t ∈ x.tables) (hv : l1ptIndex v < t.entries)
    (htype : entryType (t.entry x.pmm.mem (l1ptIndex v)) < 2)
    (remap : Bool) (perms : PagePermission) (created : Option ℕ)
    (hnone : remap = false → x.pages (t, pageNumber v) = none) :
    ∃ y κ' lost' p, x.Step (.allocate t v remap perms created) y ∧ SpacesInv L κ' lost' y ∧
      Spare L κ' n ∧ y.tables = x.tables ∧
      y.pages = Function.update x.pages (t, pageNumber v) (some p) := by
  have hav : ¬(Demand.page t.base v remap perms created).Exhausted x.pmm :=
    (hspare.mono (Nat.le_add_left 2 n)).not_exhausted h.tables.inv
  obtain ⟨s', page, created', hok⟩ := h.allocate_returns ht hv hav hnone
  obtain ⟨s₁, κ₁, l2, κ', hready, hm, hpage, -⟩ := h.mapped_of_ok ht hv htype hok
  have hstep := AddressSpaces.Step.allocate ht hv hok
  rw [if_neg hpage] at hstep
  exact ⟨_, κ', _, page, hstep, h.allocate ht hv hready hm, hm.spare (hready.spare hspare), rfl,
    rfl⟩

/-- Six slices, an L1 table in one of them, and a page mapped at address 0:
the run from which the failing ones go on. -/
theorem one_page :
    ∃ s L κ κ' x lost t p, pmmInit ⟨0x3f000000, 21 * 0x100000⟩ ⟨fun _ => 0⟩ 0x80200000
        (0x80200000 + sliceSize * 6) = .ok s ∧ L.start = 0x80200000 ∧ 0 < L.slices ∧
      SpacesInv L κ ∅ ⟨s, ∅, fun _ => none⟩ ∧ AddressSpaces.Run ⟨s, ∅, fun _ => none⟩ 0 x ∧
      SpacesInv L κ' lost x ∧ Spare L κ' 2 ∧ t ∈ x.tables ∧ t.entries = 0x800 ∧
      x.pages = Function.update (fun _ => none) (t, pageNumber 0) (some p) := by
  have hR : ManagedRange ⟨0x3f000000, 21 * 0x100000⟩ 0x80200000 6 6 :=
    ⟨by decide, by decide, by decide, by decide, by decide⟩
  have hempty : ∀ s, SectionTables 0x80200000 6 ∅ s := fun s =>
    ⟨fun t ht => ht.elim, fun t ht => ht.elim, fun t ht => ht.elim⟩
  obtain ⟨s, L, κ, hinit, hbase, hslices, hspare, hstart⟩ :=
    pmmInit_spaces (m := ⟨fun _ => 0⟩) hR (by decide) fun _ _ _ => rfl
  have h₀ := hstart ∅ (hempty s)
  have hspare₀ : Spare L κ 5 := hspare (by decide) (le_refl 6)
  obtain ⟨s₁, a, κ₁, halloc, hh⟩ := h₀.tables.inv.hand (hspare₀.available h₀.tables.inv .l1)
  have ha : a ≠ 0 := by
    obtain ⟨k, hk, hobj⟩ := hh.mem
    exact hh.inv.addr_ne_zero hk hobj
  have hstep₁ := AddressSpaces.Step.newTable (x := ⟨s, ∅, fun _ => none⟩) halloc ha
  obtain ⟨-, -, hzero, -⟩ := h₀.tables.insert hh
  have ht : (⟨a, 0x800⟩ : L1Table) ∈ insert (⟨a, 0x800⟩ : L1Table) ∅ := Set.mem_insert _ _
  have hv : l1ptIndex 0 < (⟨a, 0x800⟩ : L1Table).entries := by
    show l1ptIndex 0 < 0x800
    decide
  have htype : entryType (L1Table.entry ⟨a, 0x800⟩ s₁.mem (l1ptIndex 0)) < 2 := by
    rw [hzero (l1ptIndex 0) hv]
    decide
  obtain ⟨x, κ', lost, p, hstep₂, h₂, hspare₂, htables, hpages⟩ :=
    (h₀.newTable hh).step_allocate (hspare₀.handed hh) ht hv htype false ⟨.userRW, false⟩ none
      fun _ => rfl
  have hrun : AddressSpaces.Run ⟨s, ∅, fun _ => none⟩ 0 x :=
    .fresh (.fresh .refl hstep₁ id) hstep₂ fun hrep => nomatch hrep.1
  exact ⟨s, L, κ, κ', x, lost, ⟨a, 0x800⟩, p, hinit, hbase, hslices ▸ (by decide : 0 < 6), h₀,
    hrun, h₂, hspare₂, htables ▸ ht, rfl, hpages⟩

/-- A further page is mapped at address 0, in place of the first, which is
still handed out. -/
theorem remap_loses_page :
    ∃ s x, pmmInit ⟨0x3f000000, 21 * 0x100000⟩ ⟨fun _ => 0⟩ 0x80200000
        (0x80200000 + sliceSize * 6) = .ok s ∧
      AddressSpaces.Run ⟨s, ∅, fun _ => none⟩ 1 x ∧ ¬x.PagesKept := by
  obtain ⟨s, L, κ, κ', x, lost, t, p, hinit, -, hpos, h₀, hrun, h, hspare, ht, hentries, hpages⟩ :=
    one_page
  have hv : l1ptIndex 0 < t.entries := hentries ▸ (by decide : l1ptIndex 0 < 0x800)
  have hp : x.pages (t, pageNumber 0) = some p := by
    rw [hpages, Function.update_self]
  have hmapped : Mapped x.pmm.mem t (pageNumber 0) :=
    (h.mapped_iff ht (pageNumber_lt hv)).mpr (by rw [hp]; exact Option.some_ne_none p)
  have htype : entryType (t.entry x.pmm.mem (l1ptIndex 0)) < 2 := by
    rw [h.coarse_of_entered ht hv hp]
    decide
  obtain ⟨y, κ'', lost', p', hstep, -⟩ :=
    h.step_allocate hspare ht hv htype true ⟨.userRW, false⟩ none fun hremap => nomatch hremap
  have hrun' : AddressSpaces.Run ⟨s, ∅, fun _ => none⟩ 1 y := .replaced hrun hstep ⟨rfl, hmapped⟩
  refine ⟨s, y, hinit, hrun', fun hkept => ?_⟩
  obtain ⟨κ₁, lost₁, h₁, hcard⟩ := hrun'.inv hpos h₀
  have hout := h₁.ncard_outstandingPages hpos
  rw [hcard] at hout
  exact absurd (hkept.symm.trans hout) (by omega)

end CourseOs.Pmm
