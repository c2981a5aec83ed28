import CourseOs.Vm.PmmRun
import CourseOs.Vm.Vm2
import Mathlib.Data.Set.Card
import Mathlib.Order.Interval.Finset.Nat

/-!
# What mapping a page does

A byte is `Owned` when the physical memory manager will not touch it: it lies
outside the managed range, or in an object that has been handed out.  The
manager's functions keep owned bytes (`PmmInv.hand`), and writes to owned
bytes keep the manager's invariant (`PmmInv.write`).

`vm2_allocate_page` works on an L1 entry outside the managed range, or in an
L1 table (`L1Slot`); a coarse entry leads to an L2 table that is held.
`PageMapped` says what a mapped page changes, whether or not an L2 table was
taken for it, and `mapPage_spec` and `vm2AllocatePage_spec` say that this is
what the function does.

The function has two parts, and so have the lemmas.  First an L2 table is
there, or is taken (`TableReady`); then a page is taken and entered in it.
Between the two the L1 entry leads to an empty table.

`Spare L κ n` says that `n` more objects can be handed out, of whatever kind:
no more slices than objects are in use, so while there are fewer objects than
usable slices one is unused (`Spare.available`).  It is a simple bound, and
the functions return under it; the exact condition is in
`CourseOs.Vm.Exhaustion`.
-/

namespace CourseOs.Pmm

open ByteMemory

variable {L : Layout} {s s' : PmmState} {κ κ' : ℕ → SliceKind} {a b n p v : ℕ} {o : Object}
  {t : SlotKind} {perms : PagePermission} {created created' : Option ℕ}

/-! ### Entries and addresses

Entries are packed from addresses and permissions and unpacked again.  A
coarse entry and a small page entry lead back to what they were made for, and
neither is ever zero, the empty entry. -/

theorem phys2virt_virt2phys (ha : a < 2 ^ 32) : phys2virt (virt2phys a) = a := by
  unfold phys2virt virt2phys sub32 kernelVirtualOffset
  omega

/-- The two conversions differ by twice the offset, which is the size of the
address space. -/
theorem virt2phys_eq_phys2virt (ha : a < 2 ^ 32) : virt2phys a = phys2virt a := by
  unfold phys2virt virt2phys sub32 kernelVirtualOffset
  omega

@[simp] theorem entryType_coarseEntry (b : ℕ) : entryType (coarseEntry b) = 1 := by
  unfold entryType coarseEntry
  omega

@[simp] theorem entryType_sectionEntry (b : ℕ) : entryType (sectionEntry b) = 2 := by
  unfold entryType sectionEntry
  omega

theorem coarseEntry_lt (b : ℕ) : coarseEntry b < 2 ^ 32 := by
  unfold coarseEntry
  omega

theorem sectionEntry_lt (b : ℕ) : sectionEntry b < 2 ^ 32 := by
  unfold sectionEntry
  omega

/-- A coarse entry made for an L2 table leads back to it. -/
theorem l2Table_coarseEntry (ha : a % 1024 = 0) (hlt : a < 2 ^ 32) :
    l2Table (coarseEntry (virt2phys a / 2 ^ 10)) = a := by
  unfold l2Table phys2virt coarseBaseAddress coarseEntry virt2phys sub32 kernelVirtualOffset
  omega

theorem Access.accessPerms_lt (access : Access) : access.accessPerms < 4 := by
  cases access <;> decide

theorem Access.accessExtended_lt (access : Access) : access.accessExtended < 2 := by
  cases access <;> decide

/-- The fields below `base_address` fill 12 bits, the lowest two of them not
zero. -/
theorem smallpageEntry_eq (perms : PagePermission) (b : ℕ) :
    ∃ f, 2 ≤ f % 4 ∧ f < 2 ^ 12 ∧ smallpageEntry perms b = f + 2 ^ 12 * (b % 2 ^ 20) := by
  have hp := perms.access.accessPerms_lt
  have he := perms.access.accessExtended_lt
  refine ⟨_, ?_, ?_, rfl⟩
  · split <;> omega
  · split <;> split <;> omega

theorem smallpageEntry_lt (perms : PagePermission) (b : ℕ) : smallpageEntry perms b < 2 ^ 32 := by
  obtain ⟨f, -, hf, heq⟩ := smallpageEntry_eq perms b
  omega

theorem smallpageEntry_ne_zero (perms : PagePermission) (b : ℕ) : smallpageEntry perms b ≠ 0 := by
  obtain ⟨f, hf, -, heq⟩ := smallpageEntry_eq perms b
  omega

/-- A small page entry made for a page leads back to it. -/
theorem smallpageAddress_smallpageEntry (hp : p % 4096 = 0) (hlt : p < 2 ^ 32) :
    smallpageAddress (smallpageEntry perms (l2ptBaseAddress (virt2phys p))) = virt2phys p := by
  obtain ⟨f, -, hf, heq⟩ := smallpageEntry_eq perms (l2ptBaseAddress (virt2phys p))
  rw [heq]
  unfold smallpageAddress smallpageBaseAddress l2ptBaseAddress virt2phys sub32 kernelVirtualOffset
  omega

theorem l2ptIndex_lt (v : ℕ) : l2ptIndex v < 256 := Nat.mod_lt _ (by decide)

theorem l1ptIndex_lt (hv : v < 2 ^ 32) : l1ptIndex v < 4096 := by
  unfold l1ptIndex
  omega

/-! ### Bytes the manager leaves alone

Tables live in memory that the manager has handed out, and are written by
others.  `Owned` is the set of bytes for which this is safe in both
directions: the manager does not write there, and does not mind what is
written. -/

/-- The byte is outside the managed range or in an object handed out. -/
def Owned (L : Layout) (κ : ℕ → SliceKind) (x : ℕ) : Prop :=
  (x < L.start ∨ L.start + sliceSize * L.slices ≤ x) ∨
    ∃ o ∈ held L κ, o.addr ≤ x ∧ x < o.addr + o.kind.size

theorem Owned.mono (hsub : held L κ ⊆ held L κ') {x : ℕ} (hx : Owned L κ x) : Owned L κ' x := by
  rcases hx with hx | ⟨o, ho, hx⟩
  · exact .inl hx
  · exact .inr ⟨o, hsub ho, hx⟩

theorem owned_of_mem (ho : o ∈ held L κ) {x : ℕ} (hx : o.addr ≤ x)
    (hx' : x < o.addr + o.kind.size) : Owned L κ x :=
  .inr ⟨o, ho, hx, hx'⟩

namespace PmmInv

/-- What is handed out lies in the managed range. -/
theorem held_bounds (h : PmmInv L s κ) (ho : o ∈ held L κ) :
    L.start ≤ o.addr ∧ o.addr + o.kind.size ≤ L.start + sliceSize * L.slices := by
  obtain ⟨k, hk, hmem⟩ := ho
  have hb := h.bounds_of_mem hk hmem
  unfold Layout.addr sliceSize at *
  omega

theorem held_lt (h : PmmInv L s κ) (ho : o ∈ held L κ) : o.addr + o.kind.size < 2 ^ 32 :=
  (h.held_bounds ho).2.trans_lt h.layout.bounded

/-- No record has an owned byte. -/
theorem owned_outside (h : PmmInv L s κ) {x : ℕ} (hx : Owned L κ x) {i : ℕ} (hi : i < L.slices) :
    x < L.record i ∨ L.record i + 16 ≤ x := by
  rcases hx with hx | ⟨o, ⟨k, hk, hmem⟩, hx, hx'⟩
  · have hr := L.record_bounds i
    have hlt := h.layout.bucketSlice_lt i hi
    unfold Layout.addr sliceSize at *
    omega
  · have hne : κ k ≠ .bucketInfo := fun heq => by rw [heq] at hmem; exact hmem
    have hb := h.bounds_of_mem hk hmem
    have := L.record_outside (h.bucketSlice_ne hi hne)
    omega

/-- An object that was not handed out has no owned byte. -/
theorem owned_apart (h' : PmmInv L s' κ') (hsub : held L κ ⊆ held L κ') (ho : o ∈ held L κ')
    (hno : o ∉ held L κ) {x : ℕ} (hx : Owned L κ x) : x < o.addr ∨ o.addr + o.kind.size ≤ x := by
  rcases hx with hx | ⟨o', ho', hx, hx'⟩
  · have hb := h'.held_bounds ho
    omega
  · have hne : o ≠ o' := fun heq => hno (heq ▸ ho')
    have hd := h'.held_disjoint ho (hsub ho') hne
    unfold Object.Disjoint RangesDisjoint at hd
    omega

/-- A write to an owned word keeps the invariant. -/
theorem write (h : PmmInv L s κ) (ha : ∀ x, a ≤ x → x < a + 4 → Owned L κ x) :
    PmmInv L (s.withMem (writeWord s.mem a v)) κ := by
  refine h.of_outside fun i hi x hx hx' => writeWord_apply_of_notMem ?_
  by_contra hin
  have := h.owned_outside (ha x (by omega) (by omega)) hi
  omega

end PmmInv

/-- One object is handed out: it is zero, it was not out before, and owned
bytes are as they were. -/
structure Handed (L : Layout) (s : PmmState) (κ : ℕ → SliceKind) (kind : ObjectKind)
    (s' : PmmState) (κ' : ℕ → SliceKind) (p : ℕ) : Prop where
  inv : PmmInv L s' κ'
  fixed : SameFixed L κ κ'
  fresh : (⟨kind, p⟩ : Object) ∉ held L κ
  held_eq : held L κ' = insert ⟨kind, p⟩ (held L κ)
  zero : ∀ x, p ≤ x → x < p + kind.size → s'.mem x = 0
  owned : ∀ x, Owned L κ x → s'.mem x = s.mem x

namespace Handed

variable {kind : ObjectKind}

theorem mem (h : Handed L s κ kind s' κ' p) : (⟨kind, p⟩ : Object) ∈ held L κ' := by
  rw [h.held_eq]
  exact Set.mem_insert _ _

theorem subset (h : Handed L s κ kind s' κ' p) : held L κ ⊆ held L κ' := by
  rw [h.held_eq]
  exact Set.subset_insert _ _

/-- Owned bytes and the new object do not meet. -/
theorem apart (h : Handed L s κ kind s' κ' p) {x : ℕ} (hx : Owned L κ x) :
    x < p ∨ p + kind.size ≤ x :=
  h.inv.owned_apart h.subset h.mem h.fresh hx

theorem aligned (h : Handed L s κ kind s' κ' p) : p % kind.size = 0 := h.inv.held_aligned h.mem

theorem lt (h : Handed L s κ kind s' κ' p) : p + kind.size < 2 ^ 32 := h.inv.held_lt h.mem

theorem readWord_eq (h : Handed L s κ kind s' κ' p) (ha : ∀ x, a ≤ x → x < a + 4 → Owned L κ x) :
    readWord s'.mem a = readWord s.mem a :=
  readWord_congr fun x hx hx' => h.owned x (ha x hx hx')

end Handed

/-- **What an allocation hands out.** -/
theorem PmmInv.hand (h : PmmInv L s κ) {kind : ObjectKind} (hav : Available kind s) :
    ∃ s' p κ', Pmm.allocate kind s = .ok (s', p) ∧ Handed L s κ kind s' κ' p := by
  obtain ⟨s', p, κ', halloc, hinv, hfixed, hnew, hheld, hzero⟩ := h.allocate kind hav
  have hsub : held L κ ⊆ held L κ' := by
    rw [hheld]
    exact Set.subset_insert _ _
  have hmem : (⟨kind, p⟩ : Object) ∈ held L κ' := by
    rw [hheld]
    exact Set.mem_insert _ _
  refine ⟨s', p, κ', halloc, hinv, hfixed, hnew, hheld, hzero.zero, fun x hx => ?_⟩
  exact hzero.outside x (hinv.owned_apart hsub hmem hnew hx) fun i hi => h.owned_outside hx hi

theorem available_withMem {kind : ObjectKind} {m : ByteMemory} :
    Available kind (s.withMem m) ↔ Available kind s := by
  unfold Available
  simp only [PmmState.head_withMem]

theorem PmmInv.hand_slot (h : PmmInv L s κ) (hok : pmmAllocateSlot t s = .ok (s', p)) :
    ∃ κ', Handed L s κ (.slot t) s' κ' p := by
  obtain ⟨s₁, p₁, κ', halloc, hhanded⟩ := h.hand (available_of_slot_ok hok)
  rw [allocate_slot, hok] at halloc
  cases halloc
  exact ⟨κ', hhanded⟩

/-! ### Enough memory

An allocation needs a slice that serves its kind and is not full, or an unused
one.  Counting usable slices against objects gives a bound under which there
is always one; it is generous, as it gives each object a slice of its own. -/

/-- The slices that serve objects, at one time or another. -/
def usableSlices (L : Layout) (κ : ℕ → SliceKind) : Finset ℕ :=
  (Finset.range L.slices).filter fun k => κ k ≠ .reserved ∧ κ k ≠ .bucketInfo

/-- There are slices for `n` more objects, even if each should need one of its
own. -/
structure Spare (L : Layout) (κ : ℕ → SliceKind) (n : ℕ) : Prop where
  finite : (held L κ).Finite
  le : (held L κ).ncard + n ≤ (usableSlices L κ).card

/-- The slices that serve objects in a small range: all that are not reserved,
but for the first one, which has the records. -/
theorem usableSlices_init {hw : HardwareInfo} {start N r : ℕ}
    (hR : ManagedRange hw start N r) {B : ℕ → ℕ}
    (hinv : InitInv start N (marked hw start) N b B s)
    (hN : N < sliceinfoPerSlice) (hr : r ≤ N) :
    r - 1 ≤ (usableSlices ⟨start, N, B⟩ (initKind (marked hw start) B b)).card := by
  have hb : b = 0 := by
    have := hinv.le_slices
    unfold sliceinfoPerSlice at *
    omega
  have hB : B 0 = 0 := hinv.inv.bucket_first
  have hsub : Finset.Ico 1 r ⊆
      usableSlices ⟨start, N, B⟩ (initKind (marked hw start) B b) := by
    intro k hk
    obtain ⟨hk1, hkr⟩ := Finset.mem_Ico.mp hk
    have hkN : k < N := lt_of_lt_of_le hkr hr
    have hunused : initKind (marked hw start) B b k = .unused := by
      refine initKind_eq_unused.mpr ⟨?_, fun b' hb' heq => ?_⟩
      · rw [hR.marked_eq hkN]
        exact decide_eq_false (by omega)
      · rw [hb, Nat.le_zero] at hb'
        rw [hb', hB] at heq
        omega
    refine Finset.mem_filter.mpr ⟨Finset.mem_range.mpr hkN, ?_⟩
    rw [hunused]
    exact ⟨SliceKind.noConfusion, SliceKind.noConfusion⟩
  have hcard := Finset.card_le_card hsub
  rw [Nat.card_Ico] at hcard
  exact hcard

theorem SameFixed.usableSlices_eq (h : SameFixed L κ κ') :
    usableSlices L κ' = usableSlices L κ := by
  ext k
  unfold usableSlices
  rw [Finset.mem_filter, Finset.mem_filter, Finset.mem_range]
  refine and_congr_right fun hk => ?_
  rw [Ne, (h k hk).1, Ne, (h k hk).2]

/-- A usable slice out of which nothing is handed out is unused. -/
theorem PmmInv.unused_of_objects (h : PmmInv L s κ) {k : ℕ} (hk : k ∈ usableSlices L κ)
    (hnone : ∀ o, o ∉ objects L k (κ k)) : κ k = .unused := by
  obtain ⟨hlt, hres, hbucket⟩ := Finset.mem_filter.mp hk
  cases hkind : κ k with
  | unused => rfl
  | l1 =>
      rw [hkind] at hnone
      exact absurd rfl (hnone _)
  | slots t filled =>
      obtain ⟨j, hj⟩ := (valid_iff.mp (h.valid k (Finset.mem_range.mp hlt) t filled hkind)).1
      rw [hkind] at hnone
      exact absurd ⟨j, hj, rfl⟩ (hnone _)
  | bucketInfo => exact absurd hkind hbucket
  | reserved => exact absurd hkind hres

namespace Spare

theorem of_nothing (hnothing : held L κ = ∅) (hle : n ≤ (usableSlices L κ).card) :
    Spare L κ n := by
  constructor
  · rw [hnothing]
    exact Set.finite_empty
  · rw [hnothing, Set.ncard_empty, Nat.zero_add]
    exact hle

theorem mono (h : Spare L κ n) {m : ℕ} (hm : m ≤ n) : Spare L κ m :=
  ⟨h.finite, by have := h.le; omega⟩

/-- More usable slices than objects: one is unused.  Otherwise every usable
slice would have an object of its own. -/
theorem available (h : Spare L κ (n + 1)) (hinv : PmmInv L s κ) (kind : ObjectKind) :
    Available kind s := by
  refine .inl (hinv.unused_ne_zero_iff.mpr ?_)
  by_contra hno
  -- otherwise every usable slice has an object of its own
  have hobject : ∀ k ∈ usableSlices L κ, ∃ o, o ∈ objects L k (κ k) := by
    intro k hk
    by_contra hnone
    push Not at hnone
    exact hno ⟨k, Finset.mem_range.mp (Finset.mem_filter.mp hk).1, hinv.unused_of_objects hk hnone⟩
  have : Nonempty Object := ⟨⟨kind, 0⟩⟩
  choose! f hf using hobject
  have hlt : ∀ k ∈ usableSlices L κ, k < L.slices :=
    fun k hk => Finset.mem_range.mp (Finset.mem_filter.mp hk).1
  have hinj : Set.InjOn f (usableSlices L κ) := by
    intro k hk k' hk' heq
    by_contra hne
    have hb := hinv.bounds_of_mem (hlt k hk) (hf k hk)
    have hb' := hinv.bounds_of_mem (hlt k' hk') (hf k' hk')
    have hpos := (f k).kind.size_pos
    rw [heq] at hb hpos
    have := addr_disjoint (L := L) hne
    omega
  have hheld : ∀ k ∈ (usableSlices L κ : Set ℕ), f k ∈ held L κ :=
    fun k hk => ⟨k, hlt k hk, hf k hk⟩
  have hcard := Set.ncard_le_ncard_of_injOn f hheld hinj h.finite
  rw [Set.ncard_coe_finset] at hcard
  have := h.le
  omega

/-- Handing out an object uses up one. -/
theorem insert (h : Spare L κ (n + 1)) (hfresh : o ∉ held L κ)
    (hheld : held L κ' = Insert.insert o (held L κ)) (hfixed : SameFixed L κ κ') :
    Spare L κ' n := by
  constructor
  · rw [hheld]
    exact h.finite.insert _
  · rw [hheld, Set.ncard_insert_of_notMem hfresh h.finite, hfixed.usableSlices_eq]
    have := h.le
    omega

theorem handed (h : Spare L κ (n + 1)) {kind : ObjectKind} (hh : Handed L s κ kind s' κ' p) :
    Spare L κ' n :=
  h.insert hh.fresh hh.held_eq hh.fixed

end Spare

/-! ### Mapping a page

`vm2_allocate_page` in two parts: the L2 table for the address is found or
taken (`TableReady`), and a page is mapped in it (`PageMapped`).  Both are
stated for whatever L1 slot the word of the entry lies in, so that they serve
the kernel's table and those of address spaces alike. -/

/-- The word at `a` is no part of the managed range, or part of an L1 table.
In either case no L2 table and no page has a byte in common with it. -/
def L1Slot (L : Layout) (κ : ℕ → SliceKind) (a : ℕ) : Prop :=
  RangesDisjoint a 4 L.start (sliceSize * L.slices) ∨
    ∃ p, (⟨.l1, p⟩ : Object) ∈ held L κ ∧ p ≤ a ∧ a + 4 ≤ p + sliceSize

theorem L1Slot.owned (h : L1Slot L κ a) {x : ℕ} (hx : a ≤ x) (hx' : x < a + 4) : Owned L κ x := by
  rcases h with hd | ⟨p, hp, hle, hge⟩
  · unfold RangesDisjoint at hd
    exact .inl (by omega)
  · exact owned_of_mem hp (le_trans hle hx) (lt_of_lt_of_le hx' hge)

theorem L1Slot.mono (hsub : held L κ ⊆ held L κ') (h : L1Slot L κ a) : L1Slot L κ' a := by
  rcases h with hd | ⟨p, hp, hb⟩
  · exact .inl hd
  · exact .inr ⟨p, hsub hp, hb⟩

/-- No L2 table and no page shares a byte with the slot. -/
theorem PmmInv.slot_apart (h : PmmInv L s κ) (ha : L1Slot L κ a)
    (ho : (⟨.slot t, p⟩ : Object) ∈ held L κ) : RangesDisjoint a 4 p t.size := by
  rcases ha with hd | ⟨q, hq, hle, hge⟩
  · have hb := h.held_bounds ho
    dsimp only [ObjectKind.size] at hb
    unfold RangesDisjoint at *
    omega
  · have hd := h.held_disjoint hq ho (fun heq => by cases heq)
    unfold Object.Disjoint RangesDisjoint ObjectKind.size at *
    dsimp only at hd
    omega

/-- Entry `j` of the L2 table at `q`. -/
def l2Entry (m : ByteMemory) (q j : ℕ) : ℕ := readWord m (entryAt q j)

theorem l2Entry_owned {q j : ℕ} (hq : (⟨.slot .l2, q⟩ : Object) ∈ held L κ) (hj : j < 256) {x : ℕ}
    (hx : entryAt q j ≤ x) (hx' : x < entryAt q j + 4) : Owned L κ x := by
  unfold entryAt at hx hx'
  refine owned_of_mem hq (by dsimp only; omega) ?_
  show x < q + 1024
  omega

/-- The entry of an L2 table for an address lies in the table. -/
theorem entryAt_bounds (l2 v : ℕ) :
    l2 ≤ entryAt l2 (l2ptIndex v) ∧ entryAt l2 (l2ptIndex v) + 4 ≤ l2 + SlotKind.l2.size := by
  have := l2ptIndex_lt v
  have hsize : SlotKind.l2.size = 1024 := rfl
  unfold entryAt
  omega

/-- A page is mapped in the L2 table `l2`: one object more is held, one word
of the table leads to it, and other owned bytes are as before. -/
structure PageMapped (L : Layout) (s : PmmState) (κ : ℕ → SliceKind) (l2 virtual : ℕ)
    (perms : PagePermission) (s' : PmmState) (κ' : ℕ → SliceKind) (page : ℕ) : Prop where
  inv : PmmInv L s' κ'
  fixed : SameFixed L κ κ'
  fresh : (⟨.slot .page, page⟩ : Object) ∉ held L κ
  held_eq : held L κ' = insert ⟨.slot .page, page⟩ (held L κ)
  entry : readWord s'.mem (entryAt l2 (l2ptIndex virtual)) =
    smallpageEntry perms (l2ptBaseAddress (virt2phys page))
  owned : ∀ x, Owned L κ x →
    (x < entryAt l2 (l2ptIndex virtual) ∨ entryAt l2 (l2ptIndex virtual) + 4 ≤ x) →
      s'.mem x = s.mem x

theorem PageMapped.mem {l2 page : ℕ} (h : PageMapped L s κ l2 v perms s' κ' page) :
    (⟨.slot .page, page⟩ : Object) ∈ held L κ' := by
  rw [h.held_eq]
  exact Set.mem_insert _ _

theorem PageMapped.subset {l2 page : ℕ} (h : PageMapped L s κ l2 v perms s' κ' page) :
    held L κ ⊆ held L κ' := by
  rw [h.held_eq]
  exact Set.subset_insert _ _

theorem PageMapped.readWord_eq {l2 page : ℕ} (h : PageMapped L s κ l2 v perms s' κ' page)
    (ha : ∀ x, a ≤ x → x < a + 4 → Owned L κ x)
    (hne : RangesDisjoint a 4 (entryAt l2 (l2ptIndex v)) 4) :
    readWord s'.mem a = readWord s.mem a := by
  unfold RangesDisjoint at hne
  exact readWord_congr fun x hx hx' => h.owned x (ha x hx hx') (by omega)

/-- A page mapped changes one entry of the tables there are, which was empty
or may be replaced. -/
theorem PageMapped.l2Entry_eq {l2 page q j : ℕ} (h : PageMapped L s κ l2 v perms s' κ' page)
    (hinv : PmmInv L s κ) (hq : (⟨.slot .l2, q⟩ : Object) ∈ held L κ)
    (hl2 : (⟨.slot .l2, l2⟩ : Object) ∈ held L κ) (hj : j < 256)
    (hne : ¬(q = l2 ∧ j = l2ptIndex v)) : l2Entry s'.mem q j = l2Entry s.mem q j := by
  refine h.readWord_eq (fun x => l2Entry_owned hq hj) ?_
  by_cases hql : q = l2
  · have hjv : j ≠ l2ptIndex v := fun heq => hne ⟨hql, heq⟩
    unfold RangesDisjoint entryAt
    omega
  · have hd := hinv.held_disjoint hq hl2 fun heq => hql (Object.mk.inj heq).2
    have hsize : (ObjectKind.slot .l2).size = 1024 := rfl
    have hv := l2ptIndex_lt v
    unfold Object.Disjoint RangesDisjoint at hd
    unfold RangesDisjoint entryAt
    dsimp only at hd
    omega

theorem PageMapped.spare {l2 page : ℕ} (h : PageMapped L s κ l2 v perms s' κ' page)
    (hspare : Spare L κ (n + 1)) : Spare L κ' n :=
  hspare.insert h.fresh h.held_eq h.fixed

/-- The coarse case of `vm2_allocate_page`, when it returns: a page is taken,
and an entry is written. -/
theorem mapPage_ok (h : PmmInv L s κ) {l1Entry l2 virtual page : ℕ} {remap : Bool}
    (hslot : L1Slot L κ l1Entry)
    (hcoarse : entryType (readWord s.mem l1Entry) = 1)
    (hl2 : l2 = 0 ∨ l2 = l2Table (readWord s.mem l1Entry))
    (hok : mapPage s l1Entry l2 virtual remap perms created = .ok (s', page, created')) :
    ∃ s₁, pmmAllocatePage s = .ok (s₁, page) ∧
      s' = s₁.withMem (writeWord s₁.mem
        (entryAt (l2Table (readWord s.mem l1Entry)) (l2ptIndex virtual))
        (smallpageEntry perms (l2ptBaseAddress (virt2phys page)))) ∧
      (remap = false → readWord s₁.mem
        (entryAt (l2Table (readWord s.mem l1Entry)) (l2ptIndex virtual)) = 0) ∧
      created' = created.map fun _ => 0 := by
  unfold mapPage at hok
  obtain ⟨⟨s₁, p⟩, halloc, hok⟩ := Exec.bind_eq_ok.mp hok
  obtain ⟨κ', hh⟩ := h.hand_slot halloc
  obtain ⟨q, hq, hok⟩ := Exec.bind_eq_ok.mp hok
  obtain rfl : l2Table (readWord s.mem l1Entry) = q := by
    have hentry := hh.readWord_eq (a := l1Entry) fun x => hslot.owned
    by_cases h0 : l2 = 0
    · rw [if_pos h0, hentry, findL2pt, if_pos hcoarse] at hq
      exact Except.ok.inj hq
    · rw [if_neg h0] at hq
      exact (hl2.resolve_left h0).symm.trans (Except.ok.inj hq)
  dsimp only at hok
  split at hok
  · cases hok
  · rename_i hzero
    cases hok
    refine ⟨s₁, halloc, rfl, fun hremap => ?_, ?_⟩
    · by_contra hne
      exact hzero ⟨hne, hremap⟩
    · cases created with
      | none => rfl
      | some c =>
          by_cases h0 : c = 0
          · simp [h0]
          · simp [h0]

/-- What the coarse case of `vm2_allocate_page` does, when it returns: a page
is mapped in the table that the entry leads to, and `*created_l2pt` is null. -/
theorem mapPage_spec (h : PmmInv L s κ) {l1Entry l2 virtual page : ℕ} {remap : Bool}
    (hslot : L1Slot L κ l1Entry)
    (hcoarse : entryType (readWord s.mem l1Entry) = 1)
    (hheld : (⟨.slot .l2, l2Table (readWord s.mem l1Entry)⟩ : Object) ∈ held L κ)
    (hl2 : l2 = 0 ∨ l2 = l2Table (readWord s.mem l1Entry))
    (hok : mapPage s l1Entry l2 virtual remap perms created = .ok (s', page, created')) :
    ∃ κ', PageMapped L s κ (l2Table (readWord s.mem l1Entry)) virtual perms s' κ' page ∧
      (remap = false →
        readWord s.mem (entryAt (l2Table (readWord s.mem l1Entry)) (l2ptIndex virtual)) = 0) ∧
      created' = created.map fun _ => 0 := by
  obtain ⟨s₁, halloc, rfl, hzero, hcreated⟩ := mapPage_ok h hslot hcoarse hl2 hok
  obtain ⟨κ', hh⟩ := h.hand_slot halloc
  have hb := entryAt_bounds (l2Table (readWord s.mem l1Entry)) virtual
  have hword : ∀ x, entryAt (l2Table (readWord s.mem l1Entry)) (l2ptIndex virtual) ≤ x →
      x < entryAt (l2Table (readWord s.mem l1Entry)) (l2ptIndex virtual) + 4 → Owned L κ x :=
    fun x hx hx' => owned_of_mem hheld (le_trans hb.1 hx) (lt_of_lt_of_le hx' hb.2)
  refine ⟨κ', ⟨hh.inv.write fun x hx hx' => (hword x hx hx').mono hh.subset, hh.fixed, hh.fresh,
    hh.held_eq, ?_, fun x hx hx' => ?_⟩, fun hremap => ?_, hcreated⟩
  · exact (readWord_writeWord_self _ _ _).trans (Nat.mod_eq_of_lt (smallpageEntry_lt _ _))
  · exact (writeWord_apply_of_notMem hx').trans (hh.owned x hx)
  · rw [← hh.readWord_eq hword]
    exact hzero hremap

/-- With a page to map, only the word that is found in the L2 table decides
whether the call returns. -/
theorem mapPage_eq (h : PmmInv L s κ) {l1Entry l2 virtual : ℕ} {remap : Bool}
    (hslot : L1Slot L κ l1Entry)
    (hcoarse : entryType (readWord s.mem l1Entry) = 1)
    (hheld : (⟨.slot .l2, l2Table (readWord s.mem l1Entry)⟩ : Object) ∈ held L κ)
    (hl2 : l2 = 0 ∨ l2 = l2Table (readWord s.mem l1Entry))
    (hav : Available (.slot .page) s) :
    ∃ r, mapPage s l1Entry l2 virtual remap perms created =
      if readWord s.mem (entryAt (l2Table (readWord s.mem l1Entry)) (l2ptIndex virtual)) ≠ 0 ∧
          remap = false then
        .error (.fatal "Overwriting entry in l2pt : 0x%x")
      else .ok r := by
  obtain ⟨s₁, page, κ', halloc, hh⟩ := h.hand hav
  rw [allocate_slot] at halloc
  have hb := entryAt_bounds (l2Table (readWord s.mem l1Entry)) virtual
  have hentry := hh.readWord_eq (a := l1Entry) fun x => hslot.owned
  have hword := hh.readWord_eq (a := entryAt (l2Table (readWord s.mem l1Entry)) (l2ptIndex virtual))
    fun x hx hx' => owned_of_mem hheld (le_trans hb.1 hx) (lt_of_lt_of_le hx' hb.2)
  have hfind : (if l2 = 0 then findL2pt (readWord s₁.mem l1Entry) else .ok l2) =
      .ok (l2Table (readWord s.mem l1Entry)) := by
    by_cases h0 : l2 = 0
    · rw [if_pos h0, hentry, findL2pt, if_pos hcoarse]
    · rw [if_neg h0, hl2.resolve_left h0]
  unfold mapPage pmmAllocatePage
  rw [halloc, Exec.ok_bind]
  dsimp only
  rw [hfind, Exec.ok_bind, hword]
  exact ⟨_, rfl⟩

/-- With a page to map, and no page mapped yet or one that may be replaced,
the coarse case returns. -/
theorem mapPage_returns (h : PmmInv L s κ) {l1Entry l2 virtual : ℕ} {remap : Bool}
    (hslot : L1Slot L κ l1Entry)
    (hcoarse : entryType (readWord s.mem l1Entry) = 1)
    (hheld : (⟨.slot .l2, l2Table (readWord s.mem l1Entry)⟩ : Object) ∈ held L κ)
    (hl2 : l2 = 0 ∨ l2 = l2Table (readWord s.mem l1Entry))
    (hav : Available (.slot .page) s)
    (hzero : remap = false →
      readWord s.mem (entryAt (l2Table (readWord s.mem l1Entry)) (l2ptIndex virtual)) = 0) :
    ∃ r, mapPage s l1Entry l2 virtual remap perms created = .ok r := by
  obtain ⟨r, hmap⟩ := mapPage_eq h hslot hcoarse hheld hl2 hav
  exact ⟨r, hmap.trans (if_neg fun hin => hin.1 (hzero hin.2))⟩

/-- The L2 table for an address is there, or is taken: what
`vm2_allocate_page` has done when it comes to the coarse case. -/
inductive TableReady (L : Layout) (s : PmmState) (κ : ℕ → SliceKind) (l1Entry : ℕ) :
    PmmState → (ℕ → SliceKind) → ℕ → Prop
  | found (hcoarse : entryType (readWord s.mem l1Entry) = 1) :
      TableReady L s κ l1Entry s κ (l2Table (readWord s.mem l1Entry))
  | taken {s₁ : PmmState} {κ₁ : ℕ → SliceKind} {l2 : ℕ}
      (hempty : entryType (readWord s.mem l1Entry) = 0)
      (hh : Handed L s κ (.slot .l2) s₁ κ₁ l2) :
      TableReady L s κ l1Entry
        (s₁.withMem (writeWord s₁.mem l1Entry (coarseEntry (virt2phys l2 / 2 ^ 10)))) κ₁ l2

namespace TableReady

variable {s₁ : PmmState} {κ₁ : ℕ → SliceKind} {l1Entry l2 : ℕ}

theorem subset (h : TableReady L s κ l1Entry s₁ κ₁ l2) : held L κ ⊆ held L κ₁ := by
  cases h with
  | found => exact subset_rfl
  | taken _ hh => exact hh.subset

theorem fixed (h : TableReady L s κ l1Entry s₁ κ₁ l2) : SameFixed L κ κ₁ := by
  cases h with
  | found => exact SameFixed.refl L κ
  | taken _ hh => exact hh.fixed

theorem inv (h : TableReady L s κ l1Entry s₁ κ₁ l2) (hinv : PmmInv L s κ)
    (hslot : L1Slot L κ l1Entry) : PmmInv L s₁ κ₁ := by
  cases h with
  | found => exact hinv
  | taken _ hh => exact hh.inv.write fun x hx hx' => (hslot.owned hx hx').mono hh.subset

/-- The L1 entry now leads to the table. -/
theorem entry (h : TableReady L s κ l1Entry s₁ κ₁ l2) :
    entryType (readWord s₁.mem l1Entry) = 1 ∧ l2Table (readWord s₁.mem l1Entry) = l2 := by
  cases h with
  | found hcoarse => exact ⟨hcoarse, rfl⟩
  | taken _ hh =>
      have hlt := hh.lt
      rw [PmmState.withMem_mem, readWord_writeWord_self, Nat.mod_eq_of_lt (coarseEntry_lt _)]
      exact ⟨entryType_coarseEntry _, l2Table_coarseEntry hh.aligned (by omega)⟩

theorem spare (h : TableReady L s κ l1Entry s₁ κ₁ l2) (hspare : Spare L κ (n + 1)) :
    Spare L κ₁ n := by
  cases h with
  | found => exact hspare.mono (Nat.le_succ n)
  | taken _ hh => exact hspare.handed hh

/-- The table is held, whether the entry named it already or the call has just
taken it from the L2 slices. -/
theorem mem (h : TableReady L s κ l1Entry s₁ κ₁ l2)
    (hheld : entryType (readWord s.mem l1Entry) = 1 →
      (⟨.slot .l2, l2Table (readWord s.mem l1Entry)⟩ : Object) ∈ held L κ) :
    (⟨.slot .l2, l2⟩ : Object) ∈ held L κ₁ := by
  cases h with
  | found hcoarse => exact hheld hcoarse
  | taken _ hh => exact hh.mem

/-- Only the L1 entry and what nobody owns has changed. -/
theorem owned (h : TableReady L s κ l1Entry s₁ κ₁ l2) {x : ℕ} (hx : Owned L κ x)
    (hne : x < l1Entry ∨ l1Entry + 4 ≤ x) : s₁.mem x = s.mem x := by
  cases h with
  | found => rfl
  | taken _ hh => exact (writeWord_apply_of_notMem hne).trans (hh.owned x hx)

/-- A new table is empty. -/
theorem zero (h : TableReady L s κ l1Entry s₁ κ₁ l2) (hslot : L1Slot L κ l1Entry)
    (hempty : entryType (readWord s.mem l1Entry) = 0) {x : ℕ} (hx : l2 ≤ x)
    (hx' : x < l2 + SlotKind.l2.size) : s₁.mem x = 0 := by
  cases h with
  | found hcoarse => rw [hempty] at hcoarse; cases hcoarse
  | taken _ hh =>
      refine (writeWord_apply_of_notMem ?_).trans (hh.zero x hx hx')
      by_contra hin
      have := hh.apart (hslot.owned (by omega : l1Entry ≤ x) (by omega))
      have hsize : (ObjectKind.slot .l2).size = SlotKind.l2.size := rfl
      omega

/-- The entries of the tables there are stay. -/
theorem kept (h : TableReady L s κ l1Entry s₁ κ₁ l2) (hinv : PmmInv L s κ)
    (hslot : L1Slot L κ l1Entry) {q j : ℕ} (hq : (⟨.slot .l2, q⟩ : Object) ∈ held L κ)
    (hj : j < 256) : l2Entry s₁.mem q j = l2Entry s.mem q j := by
  refine readWord_congr fun x hx hx' => h.owned (l2Entry_owned hq hj hx hx') ?_
  have hapart := hinv.slot_apart hslot hq
  have hsize : SlotKind.l2.size = 1024 := rfl
  unfold entryAt at hx hx'
  unfold RangesDisjoint at hapart
  omega

end TableReady

/-- **What `vm2_allocate_page` does, when it returns.**  An L1 entry that maps
a section is left alone and no page is taken.  Otherwise a page is mapped in
an L2 table, one taken for it if the entry was empty; what was mapped before
is replaced only with `remap`. -/
theorem vm2AllocatePage_spec (h : PmmInv L s κ) {l1pt virtual page : ℕ} {remap : Bool}
    (hslot : L1Slot L κ (entryAt l1pt (l1ptIndex virtual)))
    (hheld : entryType (readWord s.mem (entryAt l1pt (l1ptIndex virtual))) = 1 →
      (⟨.slot .l2, l2Table (readWord s.mem (entryAt l1pt (l1ptIndex virtual)))⟩ : Object) ∈
        held L κ)
    (hok : vm2AllocatePage s l1pt virtual remap perms created = .ok (s', page, created')) :
    (2 ≤ entryType (readWord s.mem (entryAt l1pt (l1ptIndex virtual))) ∧
        s' = s ∧ page = 0 ∧ created' = created) ∨
      ∃ s₁ κ₁ l2 κ', TableReady L s κ (entryAt l1pt (l1ptIndex virtual)) s₁ κ₁ l2 ∧
        PageMapped L s₁ κ₁ l2 virtual perms s' κ' page ∧
        (remap = false → readWord s₁.mem (entryAt l2 (l2ptIndex virtual)) = 0) ∧
        created' = created.map fun _ => 0 := by
  unfold vm2AllocatePage at hok
  dsimp only at hok
  generalize hl1 : entryAt l1pt (l1ptIndex virtual) = l1Entry at *
  -- once the table is there, the coarse case does the rest
  have hmap : ∀ s₁ κ₁ l2 l2' created₁, TableReady L s κ l1Entry s₁ κ₁ l2 → (l2' = 0 ∨ l2' = l2) →
      mapPage s₁ l1Entry l2' virtual remap perms created₁ = .ok (s', page, created') →
      ∃ κ', PageMapped L s₁ κ₁ l2 virtual perms s' κ' page ∧
        (remap = false → readWord s₁.mem (entryAt l2 (l2ptIndex virtual)) = 0) ∧
        created' = created₁.map fun _ => 0 := by
    intro s₁ κ₁ l2 l2' created₁ hready hl2' hmapped
    obtain ⟨hcoarse, htable⟩ := hready.entry
    have hmem := hready.mem hheld
    rw [← htable] at hmem hl2' ⊢
    exact mapPage_spec (hready.inv h hslot) (hslot.mono hready.subset) hcoarse hmem hl2' hmapped
  split at hok
  · rename_i hempty
    obtain ⟨⟨s₁, l2⟩, halloc, hok⟩ := Exec.bind_eq_ok.mp hok
    obtain ⟨κ₁, hh⟩ := h.hand_slot halloc
    have hready : TableReady L s κ l1Entry _ κ₁ l2 := .taken hempty hh
    obtain ⟨κ', hmapped, hzero, hcreated⟩ := hmap _ _ _ _ _ hready (.inr rfl) hok
    refine .inr ⟨_, _, _, κ', hready, hmapped, hzero, hcreated.trans ?_⟩
    rw [Option.map_map]
    rfl
  · rename_i hcoarse
    obtain ⟨κ', hmapped, hzero, hcreated⟩ := hmap _ _ _ _ _ (.found hcoarse) (.inl rfl) hok
    exact .inr ⟨_, _, _, κ', .found hcoarse, hmapped, hzero, hcreated⟩
  · rename_i hno₀ hno₁
    cases hok
    refine .inl ⟨?_, rfl, rfl, rfl⟩
    by_contra hlt
    have : entryType (readWord s.mem l1Entry) = 0 ∨ entryType (readWord s.mem l1Entry) = 1 := by
      omega
    rcases this with h0 | h1
    · exact hno₀ h0
    · exact hno₁ h1

/-- An L1 entry that maps a section is left alone, whatever memory there is. -/
theorem vm2AllocatePage_section {l1pt virtual : ℕ} {remap : Bool}
    (htype : 2 ≤ entryType (readWord s.mem (entryAt l1pt (l1ptIndex virtual)))) :
    vm2AllocatePage s l1pt virtual remap perms created = .ok (s, 0, created) := by
  unfold vm2AllocatePage
  dsimp only
  split
  · rename_i hempty
    omega
  · rename_i hcoarse
    omega
  · rfl

/-- **`vm2_allocate_page` returns** when there is a page, also once an L2
table is taken for it if one is needed, and nothing is mapped at the address
or may be replaced. -/
theorem vm2AllocatePage_total (h : PmmInv L s κ) {l1pt virtual : ℕ} {remap : Bool}
    (hslot : L1Slot L κ (entryAt l1pt (l1ptIndex virtual)))
    (hheld : entryType (readWord s.mem (entryAt l1pt (l1ptIndex virtual))) = 1 →
      (⟨.slot .l2, l2Table (readWord s.mem (entryAt l1pt (l1ptIndex virtual)))⟩ : Object) ∈
        held L κ)
    (hpage : Available (.slot .page) s)
    (hboth : entryType (readWord s.mem (entryAt l1pt (l1ptIndex virtual))) = 0 →
      ∃ s₁ l2, pmmAllocateL2Pagetable s = .ok (s₁, l2) ∧ Available (.slot .page) s₁)
    (hzero : remap = false → entryType (readWord s.mem (entryAt l1pt (l1ptIndex virtual))) = 1 →
      readWord s.mem (entryAt (l2Table (readWord s.mem (entryAt l1pt (l1ptIndex virtual))))
        (l2ptIndex virtual)) = 0) :
    ∃ r, vm2AllocatePage s l1pt virtual remap perms created = .ok r := by
  unfold vm2AllocatePage
  dsimp only
  generalize hl1 : entryAt l1pt (l1ptIndex virtual) = l1Entry at *
  split
  · rename_i hempty
    obtain ⟨s₁, l2, halloc, hav⟩ := hboth hempty
    obtain ⟨κ₁, hh⟩ := h.hand_slot halloc
    rw [halloc, Exec.ok_bind]
    have hready : TableReady L s κ l1Entry _ κ₁ l2 := .taken hempty hh
    have hinv := hready.inv h hslot
    obtain ⟨hcoarse, htable⟩ := hready.entry
    have hmem := hready.mem hheld
    have hb := entryAt_bounds l2 virtual
    rw [← htable] at hmem
    refine mapPage_returns hinv (hslot.mono hready.subset) hcoarse hmem (.inr htable.symm)
      (available_withMem.mpr hav) fun _ => ?_
    rw [htable]
    exact readWord_eq_zero fun x hx hx' =>
      hready.zero hslot hempty (le_trans hb.1 hx) (lt_of_lt_of_le hx' hb.2)
  · rename_i hcoarse
    exact mapPage_returns h hslot hcoarse (hheld hcoarse) (.inl rfl) hpage
      fun hremap => hzero hremap hcoarse
  · exact ⟨_, rfl⟩

/-- It returns when there is memory for a table and a page and nothing is
mapped at the address. -/
theorem vm2AllocatePage_returns (h : PmmInv L s κ) {l1pt virtual : ℕ} (hspare : Spare L κ 2)
    (hslot : L1Slot L κ (entryAt l1pt (l1ptIndex virtual)))
    (hheld : entryType (readWord s.mem (entryAt l1pt (l1ptIndex virtual))) = 1 →
      (⟨.slot .l2, l2Table (readWord s.mem (entryAt l1pt (l1ptIndex virtual)))⟩ : Object) ∈
        held L κ)
    (hzero : entryType (readWord s.mem (entryAt l1pt (l1ptIndex virtual))) = 1 →
      readWord s.mem (entryAt (l2Table (readWord s.mem (entryAt l1pt (l1ptIndex virtual))))
        (l2ptIndex virtual)) = 0) :
    ∃ r, vm2AllocatePage s l1pt virtual false perms created = .ok r := by
  refine vm2AllocatePage_total h hslot hheld (hspare.available h _) (fun _ => ?_) fun _ => hzero
  obtain ⟨s₁, l2, κ₁, halloc, hh⟩ := h.hand (hspare.available h (.slot .l2))
  rw [allocate_slot] at halloc
  exact ⟨s₁, l2, halloc, (hspare.handed hh).available hh.inv _⟩

end CourseOs.Pmm
