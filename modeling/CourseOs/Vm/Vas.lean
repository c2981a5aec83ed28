import CourseOs.Vm.Asid
import CourseOs.Vm.PmmConserve
import CourseOs.Vm.Translation

/-!
# Address spaces and what they hold

`create_vas`, `allocate_page` and `free_vas` of `vm/vas2.c`.  An address space
keeps two lists of what it got from the physical memory manager, the pages and
the L2 tables, and `free_vas` gives back what is on them.  `vm2_allocate_page`
is to report the table it takes through `created_l2pt`, but sets the pointer
to `NULL` before it returns, so no table ever comes onto its list.

`Vases` is the manager with the address spaces there are, and the other
clients' objects; `VasesInv` is the invariant of its runs.  A list of L2
tables in it has those that were taken for address spaces, and nothing is ever
taken off it: freeing an address space gives back its pages and its L1 table
(`VasesInv.free`).

`vas_teardown_iff` is about the life of one address space: it is made, pages
are mapped in it, and it is freed.  As much is free afterwards as before
exactly when no page was mapped, because the first page takes an L2 table with
it.  With enough unused slices, two for the address space and two for each
page, all the calls return.

The lists themselves are lists of their elements here: `vpa_push` appends one,
and `vpa_free` calls its function on each, in order.
-/

namespace CourseOs.Pmm

open ByteMemory Relation

/-- `struct vas2`.  The two lists are what `free_vas` gives back. -/
structure Vas2 where
  tlbDescriptor : Asid.ASIDDescriptor
  l1PageTable : ℕ
  l2tables : List ℕ
  pages : List ℕ
  deriving DecidableEq, Repr

/-- `create_vas`: an identifier, an L1 table, and two empty lists. -/
def createVas (asids : Asid.AsidState) (s : PmmState) :
    Exec (Asid.AsidState × PmmState × Vas2) := do
  let (asids, tlbDescriptor) := Asid.asidRequestDescriptor asids
  let (s, l1PageTable) ← pmmAllocateL1Pagetable s
  .ok (asids, s, { tlbDescriptor, l1PageTable, l2tables := [], pages := [] })

/-- `free_vas`: the L2 tables on its list, the pages on its list, and the L1
table at the end. -/
def freeVas (s : PmmState) (vas : Vas2) : Exec PmmState := do
  let s ← vas.l2tables.foldlM pmmFreeL2Pagetable s
  let s ← vas.pages.foldlM pmmFreePage s
  pmmFreeL1Pagetable s vas.l1PageTable

/-- `allocate_page`.  The page is put on the list whatever it is, and an L2
table only where `*created_l2pt` says that one was made. -/
def allocatePage (s : PmmState) (vas : Vas2) (address : ℕ) (executable : Bool) :
    Exec (PmmState × Vas2) := do
  let perms : PagePermission := { executable, access := .userRW }
  let (s, page, created) ← vm2AllocatePage s vas.l1PageTable address false perms (some 0)
  let l2pt := created.getD 0
  let l2tables := if l2pt ≠ 0 then vas.l2tables ++ [l2pt] else vas.l2tables
  .ok (s, { vas with l2tables, pages := vas.pages ++ [page] })

/-- Calls to `allocate_page`, one after the other. -/
def allocatePages (s : PmmState) (vas : Vas2) (requests : List (ℕ × Bool)) :
    Exec (PmmState × Vas2) :=
  requests.foldlM (fun x request => allocatePage x.1 x.2 request.1 request.2) (s, vas)

/-! ### The address spaces there are

The manager's account with its objects sorted by who has them: the address
spaces, other clients, and L2 tables that were taken for address spaces and
stand on nobody's list. -/

/-- The L1 table, with an entry for each MiB of the lower half of the address
space. -/
def Vas2.table (vas : Vas2) : L1Table := ⟨vas.l1PageTable, 0x800⟩

/-- What `free_vas` gives back if the list of L2 tables is empty and no page
was refused: the L1 table and the pages. -/
def Vas2.objects (vas : Vas2) : List Object :=
  (vas.pages.filter (· ≠ 0)).map (⟨.slot .page, ·⟩) ++ [⟨.l1, vas.l1PageTable⟩]

/-- The manager, the address spaces, and what is out to other clients. -/
structure Vases where
  pmm : PmmState
  vases : List Vas2
  others : List Object

/-- What is out, except L2 tables of address spaces. -/
def Vases.objects (w : Vases) : List Object := w.vases.flatMap Vas2.objects ++ w.others

/-- The L1 tables of the address spaces, with the entries of each. -/
def Vases.tables (w : Vases) : Set L1Table := {t | ∃ vas ∈ w.vases, vas.table = t}

/-- What is out is what the address spaces and the other clients have, and the
L2 tables `l2s` that were taken for address spaces. -/
structure VasesInv (hw : HardwareInfo) (L : Layout) (κ : ℕ → SliceKind) (l2s : List ℕ)
    (w : Vases) : Prop where
  acc : Accounted hw L ⟨w.pmm, l2s.map (⟨.slot .l2, ·⟩) ++ w.objects⟩ κ
  tables : TablesInv L κ w.tables w.pmm
  /-- Empty, or coarse. -/
  entries : ∀ vas ∈ w.vases, ∀ i < 0x800, entryType (vas.table.entry w.pmm.mem i) = 0 ∨
    (entryType (vas.table.entry w.pmm.mem i) = 1 ∧ l2Table (vas.table.entry w.pmm.mem i) ∈ l2s)
  unlisted : ∀ vas ∈ w.vases, vas.l2tables = []

variable {hw : HardwareInfo} {L : Layout} {κ κ' κ₁ : ℕ → SliceKind} {s s' s₁ : PmmState}
  {l2s : List ℕ} {w : Vases} {vas vas' : Vas2} {before after : List Vas2} {others : List Object}
  {address page l2 p start N r : ℕ} {executable : Bool} {asids asids' : Asid.AsidState}
  {m mem : ByteMemory} {u : InUse}

/-! ### Creating an address space

A new L1 table, empty, and two empty lists. -/

theorem createVas_eq_ok : createVas asids s = .ok (asids', s', vas) ↔
    asids' = (Asid.asidRequestDescriptor asids).1 ∧
      ∃ p, pmmAllocateL1Pagetable s = .ok (s', p) ∧
        vas = ⟨(Asid.asidRequestDescriptor asids).2, p, [], []⟩ := by
  unfold createVas
  rw [Exec.bind_eq_ok]
  constructor
  · rintro ⟨⟨s₁, p⟩, halloc, ⟨⟩⟩
    exact ⟨rfl, p, halloc, rfl⟩
  · rintro ⟨rfl, p, halloc, rfl⟩
    exact ⟨_, halloc, rfl⟩

/-- The objects of one address space, and the others. -/
theorem Vases.objects_perm (s s' : PmmState) :
    (Vases.objects ⟨s, before ++ vas :: after, others⟩).Perm
      (vas.objects ++ Vases.objects ⟨s', before ++ after, others⟩) := by
  simp only [Vases.objects, List.flatMap_append, List.flatMap_cons, List.append_assoc]
  exact List.perm_append_comm_assoc _ _ _

/-- The table of one address space, and the others. -/
theorem Vases.tables_eq (s s' : PmmState) :
    Vases.tables ⟨s, before ++ vas :: after, others⟩ =
      insert vas.table (Vases.tables ⟨s', before ++ after, others⟩) := by
  ext t
  simp only [Vases.tables, List.mem_append, List.mem_cons, or_and_right, exists_or,
    exists_eq_left, Set.mem_insert_iff, Set.mem_ofPred_eq]
  rw [or_left_comm, eq_comm]

/-- **A new address space** holds an empty L1 table, which no other has. -/
theorem VasesInv.create (h : VasesInv hw L κ l2s ⟨s, before, others⟩)
    (hok : createVas asids s = .ok (asids', s', vas)) (hne : vas.l1PageTable ≠ 0) :
    ∃ κ', VasesInv hw L κ' l2s ⟨s', vas :: before, others⟩ ∧ SameFixed L κ κ' := by
  obtain ⟨-, p, halloc, rfl⟩ := createVas_eq_ok.mp hok
  replace halloc : Pmm.allocate .l1 s = .ok (s', p) := halloc
  obtain ⟨s₁, p₁, κ', halloc₁, hh⟩ := h.tables.inv.hand (available_of_ok halloc hne)
  cases halloc.symm.trans halloc₁
  obtain ⟨htables, -, hzero, hsame, -⟩ := h.tables.insert hh
  refine ⟨κ', ⟨?_, ?_, ?_, ?_⟩, hh.fixed⟩
  · have hacc := h.acc.insert hh.inv hh.fixed hh.fresh hh.held_eq
    exact hacc.perm List.perm_middle.symm
  · show TablesInv L κ' (Vases.tables ⟨s', [] ++ _ :: before, others⟩) s'
    rw [Vases.tables_eq s' s]
    exact htables
  · intro vas hvas i hi
    rcases List.mem_cons.mp hvas with rfl | hvas
    · refine .inl ?_
      show entryType (L1Table.entry ⟨p, 0x800⟩ s'.mem i) = 0
      rw [hzero i hi]
      rfl
    · dsimp only
      rw [hsame vas.table ⟨vas, hvas, rfl⟩ i hi]
      exact h.entries vas hvas i hi
  · intro vas hvas
    rcases List.mem_cons.mp hvas with rfl | hvas
    · rfl
    · exact h.unlisted vas hvas

/-! ### Mapping a page

The page is put on the list of the space.  If an L2 table was taken,
`created_l2pt` should have said so, but is null by the time the call returns. -/

theorem l1ptIndex_user (haddr : address < 2 ^ 31) : l1ptIndex address < 0x800 := by
  unfold l1ptIndex
  omega

/-- The list of L2 tables stays as it is, whatever `vm2_allocate_page` took,
for it reports `NULL`. -/
theorem allocatePage_eq_ok : allocatePage s vas address executable = .ok (s', vas') ↔
    ∃ page created, vm2AllocatePage s vas.l1PageTable address false
        { executable, access := .userRW } (some 0) = .ok (s', page, created) ∧
      vas' = { vas with
        l2tables := if created.getD 0 ≠ 0 then vas.l2tables ++ [created.getD 0] else vas.l2tables
        pages := vas.pages ++ [page] } := by
  unfold allocatePage
  rw [Exec.bind_eq_ok]
  constructor
  · rintro ⟨⟨s₁, page, created⟩, halloc, ⟨⟩⟩
    exact ⟨page, created, halloc, rfl⟩
  · rintro ⟨page, created, halloc, rfl⟩
    exact ⟨_, halloc, rfl⟩

/-- The L2 tables that were taken, once the table for an address is there: one
more of them, or the same. -/
theorem TableReady.accounted {l1Entry : ℕ} {os : List Object}
    (h : TableReady L s κ l1Entry s₁ κ₁ l2) (hslot : L1Slot L κ l1Entry)
    (hacc : Accounted hw L ⟨s, l2s.map (⟨.slot .l2, ·⟩) ++ os⟩ κ)
    (hfound : entryType (readWord s.mem l1Entry) = 1 → l2Table (readWord s.mem l1Entry) ∈ l2s) :
    ∃ l2s', Accounted hw L ⟨s₁, l2s'.map (⟨.slot .l2, ·⟩) ++ os⟩ κ₁ ∧ l2 ∈ l2s' ∧ l2s ⊆ l2s' := by
  have hinv := h.inv hacc.inv hslot
  cases h with
  | found hcoarse => exact ⟨l2s, hacc, hfound hcoarse, List.Subset.refl _⟩
  | taken _ hh =>
      exact ⟨l2 :: l2s, hacc.insert hinv hh.fixed hh.fresh hh.held_eq, List.mem_cons_self,
        List.subset_cons_self _ _⟩

/-- One object more, when an address space has one more page. -/
theorem Vases.objects_mapped (s s' : PmmState) (hpage : page ≠ 0) :
    (Vases.objects ⟨s', before ++ { vas with pages := vas.pages ++ [page] } :: after, others⟩).Perm
      (⟨.slot .page, page⟩ :: Vases.objects ⟨s, before ++ vas :: after, others⟩) := by
  have hvas : (Vas2.objects { vas with pages := vas.pages ++ [page] }).Perm
      (⟨.slot .page, page⟩ :: vas.objects) := by
    simp only [Vas2.objects, List.filter_append, List.map_append, List.append_assoc]
    rw [List.filter_cons_of_pos (by simpa using hpage)]
    exact List.perm_middle
  refine (Vases.objects_perm s' s).trans ((hvas.append_right _).trans ?_)
  exact (Vases.objects_perm s s).symm.cons _

/-- The L1 entry for the address leads to the L2 table in which the page was
mapped. -/
theorem TableReady.entry_mapped {l1Entry : ℕ} {perms : PagePermission}
    (hready : TableReady L s κ l1Entry s₁ κ₁ l2) (hinv : PmmInv L s κ) (hslot : L1Slot L κ l1Entry)
    (hl2 : (⟨.slot .l2, l2⟩ : Object) ∈ held L κ₁)
    (hm : PageMapped L s₁ κ₁ l2 address perms s' κ' page) :
    entryType (readWord s'.mem l1Entry) = 1 ∧ l2Table (readWord s'.mem l1Entry) = l2 := by
  have hslot₁ := hslot.mono hready.subset
  have hapart := (hready.inv hinv hslot).slot_apart hslot₁ hl2
  have hb := entryAt_bounds l2 address
  have hsame := hm.readWord_eq (fun x => hslot₁.owned) (by unfold RangesDisjoint at *; omega)
  rw [hsame]
  exact hready.entry

namespace VasesInv

theorem table_mem (hvas : vas ∈ w.vases) : vas.table ∈ w.tables := ⟨vas, hvas, rfl⟩

/-- What `allocate_page` does for a user's address, if it returns: the page is
put on the list of the space, and no table on the other one. -/
theorem mapped (h : VasesInv hw L κ l2s w) (hvas : vas ∈ w.vases) (haddr : address < 2 ^ 31)
    (hok : allocatePage w.pmm vas address executable = .ok (s', vas')) :
    ∃ s₁ κ₁ l2 κ' page,
      TableReady L w.pmm κ (entryAt vas.l1PageTable (l1ptIndex address)) s₁ κ₁ l2 ∧
        PageMapped L s₁ κ₁ l2 address { executable, access := .userRW } s' κ' page ∧
        vas' = { vas with pages := vas.pages ++ [page] } := by
  obtain ⟨page, created, halloc, rfl⟩ := allocatePage_eq_ok.mp hok
  have hi := l1ptIndex_user haddr
  have hslot : L1Slot L κ (entryAt vas.l1PageTable (l1ptIndex address)) :=
    h.tables.slot (table_mem hvas) hi
  rcases vm2AllocatePage_spec h.tables.inv hslot
    (h.tables.coarse vas.table (table_mem hvas) _ hi) halloc with hsection | hmapped
  · -- no entry of the table is a section
    have htype : 2 ≤ entryType (vas.table.entry w.pmm.mem (l1ptIndex address)) := hsection.1
    rcases h.entries vas hvas _ hi with h0 | ⟨h1, -⟩
    · omega
    · omega
  · obtain ⟨s₁, κ₁, l2, κ', hready, hm, -, rfl⟩ := hmapped
    refine ⟨s₁, κ₁, l2, κ', page, hready, hm, ?_⟩
    rw [h.unlisted vas hvas]
    rfl

/-- **A page more** for an address space, and an L2 table for it, which is on
no list. -/
theorem allocate (h : VasesInv hw L κ l2s ⟨s, before ++ vas :: after, others⟩)
    (haddr : address < 2 ^ 31) (hok : allocatePage s vas address executable = .ok (s', vas')) :
    ∃ κ' l2s' page, VasesInv hw L κ' l2s' ⟨s', before ++ vas' :: after, others⟩ ∧
      SameFixed L κ κ' ∧ l2s' ≠ [] ∧ page ≠ 0 ∧
      vas' = { vas with pages := vas.pages ++ [page] } := by
  have hvas : vas ∈ before ++ vas :: after := by simp
  obtain ⟨s₁, κ₁, l2, κ', page, hready, hm, rfl⟩ := h.mapped hvas haddr hok
  have hi := l1ptIndex_user haddr
  have hslot : L1Slot L κ (entryAt vas.l1PageTable (l1ptIndex address)) :=
    h.tables.slot (table_mem hvas) hi
  have hl2 := hready.mem (h.tables.coarse vas.table (table_mem hvas) _ hi)
  obtain ⟨l2s', hacc, hmem, hsub⟩ := hready.accounted hslot h.acc fun htype =>
    (h.entries vas hvas _ hi).elim (fun h0 => absurd (h0.symm.trans htype) (by decide)) And.right
  have hpage : page ≠ 0 := by
    obtain ⟨k, hk, hobj⟩ := hm.mem
    exact hm.inv.addr_ne_zero hk hobj
  have htables : Vases.tables ⟨s', before ++ { vas with pages := vas.pages ++ [page] } :: after,
      others⟩ = Vases.tables ⟨s, before ++ vas :: after, others⟩ := by
    rw [Vases.tables_eq s' s, Vases.tables_eq s s]
    rfl
  obtain ⟨htables', hrew, -⟩ := h.tables.map (table_mem hvas) hi hready hm
  obtain ⟨hcoarse, htable⟩ := hready.entry_mapped h.tables.inv hslot hl2 hm
  refine ⟨κ', l2s', page, ⟨?_, by rw [htables]; exact htables', fun vas' hvas' i hi => ?_,
    fun vas' hvas' => ?_⟩, hready.fixed.trans hm.fixed, List.ne_nil_of_mem hmem, hpage, rfl⟩
  · have hacc' := hacc.insert hm.inv hm.fixed hm.fresh hm.held_eq
    refine hacc'.perm (List.perm_middle.symm.trans ?_)
    exact (Vases.objects_mapped s s' hpage).symm.append_left _
  · -- an entry is as it was, or is the one for the address
    have ht : vas'.table ∈ Vases.tables ⟨s, before ++ vas :: after, others⟩ :=
      htables ▸ table_mem hvas'
    obtain ⟨vas₀, hvas₀, heq⟩ := ht
    rw [← heq]
    rcases hrew.l1 vas₀.table (table_mem hvas₀) i hi with hsame | ⟨hself, rfl, -, -⟩
    · rw [hsame]
      exact (h.entries vas₀ hvas₀ i hi).imp_right fun hc => ⟨hc.1, hsub hc.2⟩
    · rw [hself, ← l1ptIndex_eq]
      exact .inr ⟨hcoarse, htable ▸ hmem⟩
  · rcases List.mem_append.mp hvas' with hold | hold
    · exact h.unlisted vas' (List.mem_append_left _ hold)
    · rcases List.mem_cons.mp hold with rfl | hold
      · exact h.unlisted vas hvas
      · exact h.unlisted vas' (List.mem_append_right _ (List.mem_cons_of_mem _ hold))

end VasesInv

/-! ### Freeing an address space

What is on the lists is given back, and the L1 table.  L2 tables stay out, and
nothing leads to them any more. -/

/-- Without L2 tables on the list, and if no page was refused, `free_vas`
frees the objects. -/
theorem freeVas_eq (hl2 : vas.l2tables = []) (hpages : 0 ∉ vas.pages) (s : PmmState) :
    freeVas s vas = freeAll vas.objects s := by
  have hall : vas.pages.filter (· ≠ 0) = vas.pages := by
    refine List.filter_eq_self.mpr fun p hp => decide_eq_true ?_
    rintro rfl
    exact hpages hp
  unfold freeVas Vas2.objects
  rw [hl2, hall, freeAll_append, freeAll_slots]
  show (vas.pages.foldlM pmmFreePage s >>= fun s => pmmFreeL1Pagetable s vas.l1PageTable) = _
  congr 1
  funext s
  show _ = free .l1 s vas.l1PageTable >>= fun s => .ok s
  exact (bind_pure _).symm

/-- Objects are given back that are none of the tables, one after the other,
and the entries of the tables stay. -/
theorem TablesInv.freeAll {T : Set L1Table} {os rest : List Object} (h : TablesInv L κ T s)
    (hacc : Accounted hw L ⟨s, os ++ rest⟩ κ) (hl1 : ∀ t ∈ T, (⟨.l1, t.base⟩ : Object) ∉ os)
    (hl2 : ∀ q, (⟨.slot .l2, q⟩ : Object) ∉ os) :
    ∃ s' κ', Pmm.freeAll os s = .ok s' ∧ Accounted hw L ⟨s', rest⟩ κ' ∧ SameFixed L κ κ' ∧
      TablesInv L κ' T s' ∧ ∀ t ∈ T, ∀ i < t.entries, t.entry s'.mem i = t.entry s.mem i := by
  induction os generalizing s κ with
  | nil => exact ⟨s, κ, rfl, hacc, .refl L κ, h, fun _ _ _ _ => rfl⟩
  | cons o os ih =>
      obtain ⟨s₁, κ₁, hfree, hinv, hfixed, hheld, hmem⟩ :=
        h.inv.free ((hacc.mem_iff o).mp List.mem_cons_self)
      have hacc₁ := hacc.erase hinv hfixed hheld
      rw [List.cons_append, List.erase_cons_head] at hacc₁
      obtain ⟨h₁, hentry₁⟩ := h.freed (fun t ht heq => hl1 t ht (heq ▸ List.mem_cons_self))
        (fun t _ i _ _ heq => hl2 (l2Table (t.entry s.mem i)) (by
          rw [heq]
          exact List.mem_cons_self)) hinv hheld hmem
      obtain ⟨s', κ', hall, hacc', hfixed', h', hentry'⟩ := ih h₁ hacc₁
        (fun t ht ho => hl1 t ht (List.mem_cons_of_mem o ho))
        fun q ho => hl2 q (List.mem_cons_of_mem o ho)
      refine ⟨s', κ', ?_, hacc', hfixed.trans hfixed', h', fun t ht i hi => ?_⟩
      · show (Pmm.free o.kind s o.addr >>= Pmm.freeAll os) = _
        rw [hfree, Exec.ok_bind]
        exact hall
      · rw [hentry' t ht i hi, hentry₁ t ht i hi]

/-- **An address space less**: its pages and its L1 table are given back, and
its L2 tables are not. -/
theorem VasesInv.free (h : VasesInv hw L κ l2s ⟨s, before ++ vas :: after, others⟩)
    (hpages : 0 ∉ vas.pages) :
    ∃ s' κ', freeVas s vas = .ok s' ∧ VasesInv hw L κ' l2s ⟨s', before ++ after, others⟩ ∧
      SameFixed L κ κ' := by
  have hvas : vas ∈ before ++ vas :: after := by simp
  have hsub : before ++ after ⊆ before ++ vas :: after := by simp
  have hacc : Accounted hw L ⟨s, vas.objects ++ (l2s.map (⟨.slot .l2, ·⟩) ++
      Vases.objects ⟨s, before ++ after, others⟩)⟩ κ :=
    h.acc.perm (((Vases.objects_perm s s).append_left _).trans (List.perm_append_comm_assoc _ _ _))
  have htables : Vases.tables ⟨s, before ++ after, others⟩ ⊆
      Vases.tables ⟨s, before ++ vas :: after, others⟩ := by
    rw [Vases.tables_eq s s]
    exact Set.subset_insert _ _
  -- no two address spaces have one L1 table
  have hl1 : ∀ t ∈ Vases.tables ⟨s, before ++ after, others⟩,
      (⟨.l1, t.base⟩ : Object) ∉ vas.objects := by
    rintro t ⟨vas', hvas', rfl⟩ hmem
    have hdisjoint := (List.nodup_append.mp hacc.nodup).2.2
    refine hdisjoint _ hmem _ (List.mem_append_right _ (List.mem_append_left _ ?_)) rfl
    exact List.mem_flatMap.mpr ⟨vas', hvas', List.mem_append_right _ List.mem_cons_self⟩
  have hl2 : ∀ q, (⟨.slot .l2, q⟩ : Object) ∉ vas.objects := by
    intro q hmem
    simp [Vas2.objects] at hmem
  obtain ⟨s', κ', hfree, hacc', hfixed, htables', hentry⟩ :=
    (h.tables.subset htables).freeAll hacc hl1 hl2
  refine ⟨s', κ', ?_, ⟨hacc', htables', fun vas' hvas' i hi => ?_, fun vas' hvas' => ?_⟩, hfixed⟩
  · rw [freeVas_eq (h.unlisted vas hvas) hpages]
    exact hfree
  · dsimp only
    rw [hentry vas'.table ⟨vas', hvas', rfl⟩ i hi]
    exact h.entries vas' (hsub hvas') i hi
  · exact h.unlisted vas' (hsub hvas')

/-! ### The life of an address space

One address space from beginning to end, on a manager with other clients.  The
free sets before and after differ by the L2 tables taken, and there is one as
soon as a page has been mapped. -/

theorem VasesInv.of_accounted (h : Accounted hw L u κ) :
    VasesInv hw L κ [] ⟨u.state, [], u.outstanding⟩ where
  acc := h
  tables := by
    have hnone : ∀ t, t ∉ Vases.tables ⟨u.state, [], u.outstanding⟩ := by
      rintro t ⟨vas, hvas, -⟩
      exact List.not_mem_nil hvas
    exact ⟨h.inv, fun t ht => absurd ht (hnone t), fun t ht => absurd ht (hnone t),
      fun t ht => absurd ht (hnone t), fun t ht => absurd ht (hnone t),
      fun t ht => absurd ht (hnone t)⟩
  entries vas hvas := absurd hvas List.not_mem_nil
  unlisted vas hvas := absurd hvas List.not_mem_nil

/-- The only address space, as one among others. -/
theorem VasesInv.split (h : VasesInv hw L κ l2s ⟨s, [vas], others⟩) :
    VasesInv hw L κ l2s ⟨s, [] ++ vas :: [], others⟩ := h

/-- Pages are mapped in the only address space, one after the other: with the
first one an L2 table is taken. -/
theorem VasesInv.allocatePages {requests : List (ℕ × Bool)}
    (h : VasesInv hw L κ l2s ⟨s, [vas], others⟩) (hpages : 0 ∉ vas.pages)
    (haddr : ∀ request ∈ requests, request.1 < 2 ^ 31)
    (hok : Pmm.allocatePages s vas requests = .ok (s', vas')) :
    ∃ κ' l2s', VasesInv hw L κ' l2s' ⟨s', [vas'], others⟩ ∧ SameFixed L κ κ' ∧ 0 ∉ vas'.pages ∧
      (l2s' = [] ↔ l2s = [] ∧ requests = []) := by
  induction requests generalizing s vas κ l2s with
  | nil =>
      cases hok
      exact ⟨κ, l2s, h, .refl L κ, hpages, (and_iff_left rfl).symm⟩
  | cons request requests ih =>
      obtain ⟨⟨s₁, vas₁⟩, hstep, hrest⟩ := Exec.bind_eq_ok.mp hok
      obtain ⟨κ₁, l2s₁, page, h₁, hfixed₁, hl2s₁, hpage, rfl⟩ :=
        h.split.allocate (haddr request List.mem_cons_self) hstep
      obtain ⟨κ', l2s', h', hfixed', hpages', hl2s'⟩ := ih h₁ (by simpa [hpage.symm] using hpages)
        (fun request hmem => haddr request (List.mem_cons_of_mem _ hmem)) hrest
      refine ⟨κ', l2s', h', hfixed₁.trans hfixed', hpages', ?_⟩
      rw [hl2s']
      exact iff_of_false (fun hnil => hl2s₁ hnil.1) fun hnil => List.cons_ne_nil _ _ hnil.2

/-- An object more takes up one unused slice at most: the other slices that
were unused have no object in them. -/
theorem PmmInv.ncard_unusedSlices (h : PmmInv L s κ) (h' : PmmInv L s' κ')
    (hfixed : SameFixed L κ κ') {o : Object} (hheld : held L κ' = insert o (held L κ)) :
    (unusedSlices s).ncard ≤ (unusedSlices s').ncard + 1 := by
  obtain ⟨k₀, hk₀, hmem₀⟩ : o ∈ held L κ' := by
    rw [hheld]
    exact Set.mem_insert _ _
  have hsub : unusedSlices s ⊆ insert (L.addr k₀) (unusedSlices s') := by
    intro a ha
    obtain ⟨k, hk, hkind, rfl⟩ := h.mem_unusedSlices.mp ha
    by_cases hself : k = k₀
    · exact .inl (by rw [hself])
    · refine .inr (h'.mem_unusedSlices.mpr ⟨k, hk, ?_, rfl⟩)
      refine h'.unused_of_objects (Finset.mem_filter.mpr ⟨Finset.mem_range.mpr hk, ?_, ?_⟩) ?_
      · rw [Ne, (hfixed k hk).1, hkind]
        exact SliceKind.noConfusion
      · rw [Ne, (hfixed k hk).2, hkind]
        exact SliceKind.noConfusion
      · intro o' ho'
        have hb := h'.bounds_of_mem hk ho'
        have hpos := o'.kind.size_pos
        have hin : o' ∈ insert o (held L κ) := hheld ▸ ⟨k, hk, ho'⟩
        rcases hin with rfl | hin
        · have hb₀ := h'.bounds_of_mem hk₀ hmem₀
          have := addr_disjoint (L := L) hself
          omega
        · have hobj := h.mem_objects_of_held hin hb.1 (by omega)
          rw [hkind] at hobj
          exact hobj
  have hfinite : (unusedSlices s').Finite := by
    refine ((Finset.range L.slices).finite_toSet.image L.addr).subset fun a ha => ?_
    obtain ⟨k, hk, -, rfl⟩ := h'.mem_unusedSlices.mp ha
    exact ⟨k, Finset.mem_coe.mpr (Finset.mem_range.mpr hk), rfl⟩
  exact (Set.ncard_le_ncard hsub (hfinite.insert _)).trans (Set.ncard_insert_le _ _)

theorem PmmInv.available_of_ncard (h : PmmInv L s κ) (hn : 0 < (unusedSlices s).ncard)
    (kind : ObjectKind) : Available kind s := by
  obtain ⟨a, ha⟩ := Set.nonempty_of_ncard_ne_zero hn.ne'
  obtain ⟨k, hk, hkind, -⟩ := h.mem_unusedSlices.mp ha
  exact .inl (h.unused_ne_zero_iff.mpr ⟨k, hk, hkind⟩)

theorem TableReady.ncard_unusedSlices {l1Entry : ℕ} (h : TableReady L s κ l1Entry s₁ κ₁ l2)
    (hinv : PmmInv L s κ) (hslot : L1Slot L κ l1Entry) :
    (unusedSlices s).ncard ≤ (unusedSlices s₁).ncard + 1 := by
  have hinv₁ := h.inv hinv hslot
  cases h with
  | found => exact Nat.le_succ _
  | taken _ hh => exact hinv.ncard_unusedSlices hinv₁ hh.fixed hh.held_eq

/-- With two unused slices left, a page that is not mapped yet can be mapped. -/
theorem VasesInv.allocatePage_returns (h : VasesInv hw L κ l2s w) (hvas : vas ∈ w.vases)
    (haddr : address < 2 ^ 31) (hunused : 2 ≤ (unusedSlices w.pmm).ncard)
    (hword : vas.table.pageWord w.pmm.mem (pageNumber address) = 0) (executable : Bool) :
    ∃ r, allocatePage w.pmm vas address executable = .ok r := by
  have hinv := h.tables.inv
  have hi := l1ptIndex_user haddr
  have hslot : L1Slot L κ (entryAt vas.l1PageTable (l1ptIndex address)) :=
    h.tables.slot (table_mem hvas) hi
  have htotal : ∃ r, vm2AllocatePage w.pmm vas.l1PageTable address false
      { executable, access := .userRW } (some 0) = .ok r := by
    refine vm2AllocatePage_total hinv hslot (h.tables.coarse vas.table (table_mem hvas) _ hi)
      (hinv.available_of_ncard (by omega) _) (fun _ => ?_) fun _ hcoarse => ?_
    · obtain ⟨s₁, l2, κ₁, halloc, hh⟩ := hinv.hand (hinv.available_of_ncard (by omega) (.slot .l2))
      have hle := hinv.ncard_unusedSlices hh.inv hh.fixed hh.held_eq
      rw [allocate_slot] at halloc
      exact ⟨s₁, l2, halloc, hh.inv.available_of_ncard (by omega) _⟩
    · rw [l1ptIndex_eq] at hcoarse ⊢
      rw [vas.table.pageWord_of_coarse hcoarse] at hword
      rw [l2ptIndex_eq]
      exact hword
  obtain ⟨⟨s', page, created⟩, hok⟩ := htotal
  exact ⟨_, allocatePage_eq_ok.mpr ⟨page, created, hok, rfl⟩⟩

/-- Mapping a page takes up two unused slices at most, and no other page is
mapped. -/
theorem VasesInv.allocate_frame (h : VasesInv hw L κ l2s w) (hvas : vas ∈ w.vases)
    (haddr : address < 2 ^ 31)
    (hok : allocatePage w.pmm vas address executable = .ok (s', vas')) :
    (unusedSlices w.pmm).ncard ≤ (unusedSlices s').ncard + 2 ∧
      ∀ n < 256 * 0x800, n ≠ pageNumber address →
        vas'.table.pageWord s'.mem n = vas.table.pageWord w.pmm.mem n := by
  obtain ⟨s₁, κ₁, l2, κ', page, hready, hm, rfl⟩ := h.mapped hvas haddr hok
  have hi := l1ptIndex_user haddr
  have hslot : L1Slot L κ (entryAt vas.l1PageTable (l1ptIndex address)) :=
    h.tables.slot (table_mem hvas) hi
  have hle := hready.ncard_unusedSlices h.tables.inv hslot
  have hle' := (hready.inv h.tables.inv hslot).ncard_unusedSlices hm.inv hm.fixed hm.held_eq
  obtain ⟨-, hrew, -⟩ := h.tables.map (table_mem hvas) hi hready hm
  exact ⟨by omega, fun n hn hne =>
    hrew.words vas.table (table_mem hvas) n hn fun heq => hne (Prod.mk.inj heq).2⟩

/-- With two unused slices for each page, pages that are not mapped yet can be
mapped, unless they are to be mapped twice. -/
theorem VasesInv.allocatePages_returns {requests : List (ℕ × Bool)}
    (h : VasesInv hw L κ l2s ⟨s, [vas], others⟩)
    (haddr : ∀ request ∈ requests, request.1 < 2 ^ 31)
    (hdistinct : (requests.map fun request => pageNumber request.1).Nodup)
    (hunused : 2 * requests.length ≤ (unusedSlices s).ncard)
    (hword : ∀ request ∈ requests, vas.table.pageWord s.mem (pageNumber request.1) = 0) :
    ∃ r, Pmm.allocatePages s vas requests = .ok r := by
  induction requests generalizing s vas κ l2s with
  | nil => exact ⟨_, rfl⟩
  | cons request requests ih =>
      obtain ⟨hnew, hdistinct⟩ := List.nodup_cons.mp hdistinct
      have haddr₁ := haddr request List.mem_cons_self
      rw [List.length_cons] at hunused
      obtain ⟨⟨s₁, vas₁⟩, hstep⟩ := h.allocatePage_returns List.mem_cons_self haddr₁
        (show 2 ≤ (unusedSlices s).ncard by omega) (hword request List.mem_cons_self) request.2
      obtain ⟨hle, hwords⟩ := h.allocate_frame List.mem_cons_self haddr₁ hstep
      obtain ⟨κ₁, l2s₁, -, h₁, -⟩ := h.split.allocate haddr₁ hstep
      dsimp only at hle
      obtain ⟨r, hrest⟩ := ih h₁ (fun q hq => haddr q (List.mem_cons_of_mem _ hq)) hdistinct
        (by omega) fun q hq => by
          have hq' := haddr q (List.mem_cons_of_mem _ hq)
          have hne : pageNumber q.1 ≠ pageNumber request.1 := fun heq =>
            hnew (List.mem_map.mpr ⟨q, hq, heq⟩)
          rw [hwords _ (by unfold pageNumber pageSize; omega) hne]
          exact hword q (List.mem_cons_of_mem _ hq)
      refine ⟨r, ?_⟩
      show (allocatePage s vas request.1 request.2 >>= fun x =>
        Pmm.allocatePages x.1 x.2 requests) = _
      rw [hstep, Exec.ok_bind]
      exact hrest

/-- An address space is made, used and freed: as much is free as before if
nothing was mapped, and less otherwise. -/
theorem Accounted.vas_life {requests : List (ℕ × Bool)} {s₂ : PmmState} (h : Accounted hw L u κ)
    (hcreate : createVas asids u.state = .ok (asids', s₁, vas)) (hne : vas.l1PageTable ≠ 0)
    (haddr : ∀ request ∈ requests, request.1 < 2 ^ 31)
    (hok : allocatePages s₁ vas requests = .ok (s₂, vas')) :
    ∃ s', freeVas s₂ vas' = .ok s' ∧ (SameFree u.state s' ↔ requests = []) := by
  obtain ⟨κ₁, h₁, hfixed₁⟩ := (VasesInv.of_accounted h).create hcreate hne
  have hpages : 0 ∉ vas.pages := by
    obtain ⟨-, p, -, rfl⟩ := createVas_eq_ok.mp hcreate
    exact List.not_mem_nil
  obtain ⟨κ₂, l2s, h₂, hfixed₂, hpages₂, hl2s⟩ := h₁.allocatePages hpages haddr hok
  obtain ⟨s', κ', hfree, h', hfixed'⟩ := h₂.split.free hpages₂
  have hsub : ∀ o ∈ u.outstanding, o ∈ l2s.map (⟨.slot .l2, ·⟩) ++ u.outstanding :=
    fun o ho => List.mem_append_right _ ho
  refine ⟨s', hfree, ?_⟩
  rw [h.sameFree_iff h'.acc (hfixed₁.trans (hfixed₂.trans hfixed')) hsub]
  trans l2s = []
  · constructor
    · intro hback
      -- an L2 table that is still out was not out before
      refine List.eq_nil_iff_forall_not_mem.mpr fun q hq => ?_
      have hmem : (⟨.slot .l2, q⟩ : Object) ∈ l2s.map (⟨.slot .l2, ·⟩) := List.mem_map_of_mem hq
      exact (List.nodup_append.mp h'.acc.nodup).2.2 _ hmem _
        (hback _ (List.mem_append_left _ hmem)) rfl
    · rintro rfl o ho
      exact ho
  · rw [hl2s]
    exact and_iff_right rfl

/-- With enough memory an address space can be made, and pages mapped in it:
two slices for each page, and one for the L1 table. -/
theorem Accounted.vas_returns {requests : List (ℕ × Bool)} (h : Accounted hw L u κ)
    (asids : Asid.AsidState) (haddr : ∀ request ∈ requests, request.1 < 2 ^ 31)
    (hdistinct : (requests.map fun request => pageNumber request.1).Nodup)
    (hunused : 2 * requests.length + 1 ≤ (unusedSlices u.state).ncard) :
    ∃ asids' s₁ vas s₂ vas', createVas asids u.state = .ok (asids', s₁, vas) ∧
      vas.l1PageTable ≠ 0 ∧ allocatePages s₁ vas requests = .ok (s₂, vas') := by
  obtain ⟨s₁, p, κ₁, halloc, hh⟩ := h.inv.hand (h.inv.available_of_ncard (by omega) .l1)
  have hcreate : createVas asids u.state = .ok ((Asid.asidRequestDescriptor asids).1, s₁,
      ⟨(Asid.asidRequestDescriptor asids).2, p, [], []⟩) :=
    createVas_eq_ok.mpr ⟨rfl, p, halloc, rfl⟩
  have hne : p ≠ 0 := by
    obtain ⟨k, hk, hobj⟩ := hh.mem
    exact hh.inv.addr_ne_zero hk hobj
  obtain ⟨κ', h₁, -⟩ := (VasesInv.of_accounted h).create hcreate hne
  have hle := h.inv.ncard_unusedSlices hh.inv hh.fixed hh.held_eq
  obtain ⟨-, -, hzero, -⟩ := (VasesInv.of_accounted h).tables.insert hh
  obtain ⟨⟨s₂, vas'⟩, hok⟩ := h₁.allocatePages_returns haddr hdistinct (by omega) fun q hq => by
    have hq' := haddr q hq
    refine L1Table.pageWord_of_not_coarse ?_
    show entryType (L1Table.entry ⟨p, 0x800⟩ s₁.mem _) ≠ 1
    rw [hzero _ (by unfold pageNumber pageSize; omega)]
    decide
  exact ⟨_, s₁, _, s₂, vas', hcreate, hne, hok⟩

/-- Without a list of unused slices there are none. -/
theorem unusedSlices_eq_empty (h : s.head .unused = 0) : unusedSlices s = ∅ := by
  refine Set.eq_empty_of_forall_notMem ?_
  rintro a ⟨x, ⟨xs, hchain, hmem⟩, -⟩
  rw [hchain.eq_nil_iff.mp h] at hmem
  exact List.not_mem_nil hmem

/-- **An address space gives back what it got** exactly when no page was
mapped in it: the L2 tables stay out.  (With enough unused slices the calls
return, for pages that differ.) -/
theorem vas_teardown_iff (hR : ManagedRange hw start N r)
    (hmem : ∀ x, start ≤ x → x < start + sliceSize * N → mem x = 0) :
    ∃ s, pmmInit hw mem start (start + sliceSize * N) = .ok s ∧
      ∀ u, ReflTransGen ServedStep ⟨s, []⟩ u → ∀ asids, ∀ requests : List (ℕ × Bool),
        (∀ request ∈ requests, request.1 < 2 ^ 31) →
        (requests.map fun request => pageNumber request.1).Nodup →
          (2 * requests.length + 1 ≤ (unusedSlices u.state).ncard →
            ∃ asids' s₁ vas s₂ vas', createVas asids u.state = .ok (asids', s₁, vas) ∧
              vas.l1PageTable ≠ 0 ∧ allocatePages s₁ vas requests = .ok (s₂, vas')) ∧
          ∀ asids' s₁ vas s₂ vas', createVas asids u.state = .ok (asids', s₁, vas) →
            vas.l1PageTable ≠ 0 → allocatePages s₁ vas requests = .ok (s₂, vas') →
              ∃ s', freeVas s₂ vas' = .ok s' ∧ (SameFree u.state s' ↔ requests = []) := by
  rcases Nat.eq_zero_or_pos N with rfl | hN
  · refine ⟨_, pmmInit_empty hw hR.sliceRange mem, fun u hu asids requests haddr hdistinct => ?_⟩
    obtain rfl := servedRun_of_empty hu (not_available_first mem _ _) rfl
    constructor
    · intro hle
      rw [unusedSlices_eq_empty rfl, Set.ncard_empty] at hle
      omega
    · intro asids' s₁ vas s₂ vas' hcreate hne
      obtain ⟨-, p, halloc, rfl⟩ := createVas_eq_ok.mp hcreate
      cases halloc
      exact absurd rfl hne
  · obtain ⟨s, b, B, hinit, hinv⟩ := pmmInit_spec hR hN hmem
    refine ⟨s, hinit, fun u hu asids requests haddr hdistinct => ?_⟩
    obtain ⟨κ, hacc, -⟩ := (Accounted.of_init hR hinv).servedRun hu
    exact ⟨hacc.vas_returns asids haddr hdistinct, fun asids' s₁ vas s₂ vas' hcreate hne hok =>
      hacc.vas_life hcreate hne haddr hok⟩

/-- Six slices, none of them reserved, after any run of the other clients. -/
theorem vas_teardown_iff_six_slices :
    ∃ s, pmmInit ⟨0x3f000000, 21 * 0x100000⟩ ⟨fun _ => 0⟩ 0x80200000
        (0x80200000 + sliceSize * 6) = .ok s ∧
      ∀ u, ReflTransGen ServedStep ⟨s, []⟩ u → ∀ asids, ∀ requests : List (ℕ × Bool),
        (∀ request ∈ requests, request.1 < 2 ^ 31) →
        (requests.map fun request => pageNumber request.1).Nodup →
          (2 * requests.length + 1 ≤ (unusedSlices u.state).ncard →
            ∃ asids' s₁ vas s₂ vas', createVas asids u.state = .ok (asids', s₁, vas) ∧
              vas.l1PageTable ≠ 0 ∧ allocatePages s₁ vas requests = .ok (s₂, vas')) ∧
          ∀ asids' s₁ vas s₂ vas', createVas asids u.state = .ok (asids', s₁, vas) →
            vas.l1PageTable ≠ 0 → allocatePages s₁ vas requests = .ok (s₂, vas') →
              ∃ s', freeVas s₂ vas' = .ok s' ∧ (SameFree u.state s' ↔ requests = []) :=
  vas_teardown_iff (r := 6) ⟨by decide, by decide, by decide, by decide, by decide⟩
    fun _ _ _ => rfl

/-- One page, mapped at address 0: its L2 table stays out when the address
space is freed. -/
theorem free_vas_leaks :
    ∃ s asids' s₁ vas s₂ vas' s', pmmInit ⟨0x3f000000, 21 * 0x100000⟩ ⟨fun _ => 0⟩ 0x80200000
        (0x80200000 + sliceSize * 6) = .ok s ∧
      createVas .initial s = .ok (asids', s₁, vas) ∧ vas.l1PageTable ≠ 0 ∧
      allocatePages s₁ vas [(0, false)] = .ok (s₂, vas') ∧ freeVas s₂ vas' = .ok s' ∧
      ¬SameFree s s' := by
  have hR : ManagedRange ⟨0x3f000000, 21 * 0x100000⟩ 0x80200000 6 6 :=
    ⟨by decide, by decide, by decide, by decide, by decide⟩
  have hrun : (do
      let s ← pmmInit ⟨0x3f000000, 21 * 0x100000⟩ ⟨fun _ => 0⟩ 0x80200000
        (0x80200000 + sliceSize * 6)
      let (_, s, vas) ← createVas .initial s
      let (s, _) ← allocatePages s vas [(0, false)]
      .ok (decide (vas.l1PageTable ≠ 0))) = (.ok true : Exec Bool) := by
    decide +kernel
  obtain ⟨s, hinit, hrun⟩ := Exec.bind_eq_ok.mp hrun
  obtain ⟨⟨asids', s₁, vas⟩, hcreate, hrun⟩ := Exec.bind_eq_ok.mp hrun
  obtain ⟨⟨s₂, vas'⟩, hok, hrun⟩ := Exec.bind_eq_ok.mp hrun
  have hne : vas.l1PageTable ≠ 0 := of_decide_eq_true (Except.ok.inj hrun)
  have hzero : ∀ x, 0x80200000 ≤ x → x < 0x80200000 + sliceSize * 6 →
      (⟨fun _ => 0⟩ : ByteMemory) x = 0 := fun _ _ _ => rfl
  obtain ⟨s₀, b, B, hinit₀, hinv⟩ := pmmInit_spec hR (by decide) hzero
  cases hinit.symm.trans hinit₀
  obtain ⟨s', hfree, hiff⟩ := (Accounted.of_init hR hinv).vas_life hcreate hne (by simp) hok
  exact ⟨s, asids', s₁, vas, s₂, vas', s', hinit, hcreate, hne, hok, hfree,
    fun hsame => List.cons_ne_nil _ _ (hiff.mp hsame)⟩

end CourseOs.Pmm
