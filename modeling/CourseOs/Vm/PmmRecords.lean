import CourseOs.Vm.PmmRun

/-!
# The lists and the lookup

What the invariant of a run says of memory, in the terms of the source:
`RecordLists` is the representation of the slices by the four lists, with the
fields of the records and the objects that are out, and `Describes` is the
record of the slice an address lies in.

`pmm_recordLists` has the lists of every reachable state: every slice has a
record on exactly one list, unused, partially free or allocated as its mask
and type say, and the mask has the objects that are out.
`lookup_finds_record` has it that for every address in a slice that is not
reserved the lookup arrives at the one record that describes it.

A record at address 0 would be the null pointer.  A range that starts at 0 is
left out where it matters, with a hypothesis on `start`.
-/

namespace CourseOs.Pmm

open ByteMemory LinkedList Relation

variable {L : Layout} {s : PmmState} {κ : ℕ → SliceKind} {hw : HardwareInfo} {u : InUse}
  {start N n r k j : ℕ} {mem : ByteMemory} {t t' : SlotKind} {filled : BitVec 8}
  {lists : PmmList → List ℕ}

/-- The lists of the manager, for the slices `0, …, n - 1` from `start`:
`record k` is the record of slice `k`, and `lists l` are the slices whose
records are on list `l`. -/
structure RecordLists (start n : ℕ) (u : InUse) (record : ℕ → ℕ)
    (lists : PmmList → List ℕ) : Prop where
  slice_eq : ∀ k < n, info u.state.mem (record k) .slice = start + sliceSize * k
  one_list : ∀ k < n, ∃! l, k ∈ lists l
  lt : ∀ l, ∀ k ∈ lists l, k < n
  nodup : ∀ l, (lists l).Nodup
  /-- The list ends in null, and its head has a null `prev`. -/
  dlist : ∀ l, DList (info u.state.mem · .next) (info u.state.mem · .prev) (u.state.head l)
    ((lists l).map record)
  partial_iff : ∀ t : SlotKind, ∀ k < n, k ∈ lists t.partialFree ↔
    infoType u.state.mem (record k) = t.memoryType.code ∧
      infoFilled u.state.mem (record k) ≠ 0 ∧ infoFilled u.state.mem (record k) ≠ t.full
  filled_iff : ∀ t : SlotKind, ∀ k < n, infoType u.state.mem (record k) = t.memoryType.code → ∀ j,
    (infoFilled u.state.mem (record k)).getLsbD j = true ↔
      j < t.perSlice ∧ (⟨.slot t, start + sliceSize * k + t.size * j⟩ : Object) ∈ u.outstanding
  allocated_iff : ∀ k < n, k ∈ lists .allocated ↔
    (⟨.l1, start + sliceSize * k⟩ : Object) ∈ u.outstanding ∨
      infoType u.state.mem (record k) = MemoryType.bucketInfo.code ∨
      infoReserved u.state.mem (record k) = 1 ∨
      ∃ t : SlotKind, infoType u.state.mem (record k) = t.memoryType.code ∧
        infoFilled u.state.mem (record k) = t.full

/-- `r` is a record that `pmm_init` made: the first, or one on a list. -/
def IsRecord (s : PmmState) (r : ℕ) : Prop :=
  r = s.manager.start ∨ ∃ l xs, Chain (info s.mem · .next) (s.head l) xs ∧ r ∈ xs

/-- `r` is the record of a slice that contains the address `a`. -/
def Describes (s : PmmState) (r a : ℕ) : Prop :=
  IsRecord s r ∧ info s.mem r .slice ≤ a ∧ a < info s.mem r .slice + sliceSize

/-! ### Records and kinds

The kinds are ghosts; here they are replaced by what is in the records.  Type
and mask determine the kind of every slice that can hand anything out, and the
list that the record is on says the rest. -/

theorem SlotKind.code_inj (h : t.memoryType.code = t'.memoryType.code) : t = t' := by
  cases t <;> cases t' <;> first | rfl | cases h

theorem SlotKind.code_ne (t : SlotKind) : t.memoryType.code ≠ MemoryType.bucketInfo.code := by
  cases t <;> exact Nat.ne_of_beq_eq_false rfl

theorem SlotKind.full_ne_zero (t : SlotKind) : t.full ≠ 0 := by
  cases t <;> decide

/-- The objects of a slice lie in no other. -/
theorem PmmInv.mem_objects_of_held (h : PmmInv L s κ) {o : Object} (ho : o ∈ held L κ)
    (hk : L.addr k ≤ o.addr) (hk' : o.addr < L.addr k + sliceSize) : o ∈ objects L k (κ k) := by
  obtain ⟨i, hi, hmem⟩ := ho
  have hb := h.bounds_of_mem hi hmem
  have hpos := o.kind.size_pos
  have hik : i = k := by
    by_contra hik
    have := addr_disjoint (L := L) hik
    omega
  exact hik ▸ hmem

namespace PmmTables

/-- Type and mask say which slices serve objects. -/
theorem slots_iff (h : PmmTables L s κ) (hk : k < L.slices) :
    κ k = .slots t filled ↔ infoType s.mem (L.record k) = t.memoryType.code ∧
      infoFilled s.mem (L.record k) = filled ∧ filled ≠ 0 := by
  constructor
  · intro hkind
    exact ⟨h.type_slots k hk t filled hkind, h.filled_eq hk hkind,
      (h.valid k hk t filled hkind).1⟩
  · rintro ⟨htype, rfl, hne⟩
    have hkind : κ k ≠ .bucketInfo := by
      rw [Ne, ← h.type_eq k hk, htype]
      exact t.code_ne
    rw [h.mask_eq k hk hkind] at hne ⊢
    cases hkappa : κ k with
    | slots t' filled' =>
        obtain rfl := SlotKind.code_inj ((h.type_slots k hk t' filled' hkappa).symm.trans htype)
        rfl
    | unused | l1 | bucketInfo | reserved =>
        rw [hkappa] at hne
        exact absurd rfl hne

end PmmTables

/-- No object lies at address 0: that is in a slice with records. -/
theorem PmmTables.addr_ne_zero (h : PmmTables L s κ) (hk : k < L.slices) {o : Object}
    (ho : o ∈ objects L k (κ k)) : o.addr ≠ 0 := by
  have hb := h.bounds_of_mem hk ho
  have hk0 : k ≠ 0 := by
    rintro rfl
    rw [h.bucketSlice_zero_kind hk] at ho
    exact ho
  unfold Layout.addr sliceSize at hb
  omega

/-- An object of a kind is out of a slice when the kind of the slice says so. -/
theorem mem_objects_slot :
    (⟨.slot t, L.addr k + t.size * j⟩ : Object) ∈ objects L k (κ k) ↔
      ∃ filled, κ k = .slots t filled ∧ filled.getLsbD j = true := by
  constructor
  · intro hmem
    cases hkappa : κ k with
    | slots t' filled =>
        rw [hkappa] at hmem
        obtain ⟨i, hi, heq⟩ := hmem
        obtain ⟨hkind, haddr⟩ := Object.mk.inj heq
        obtain rfl := ObjectKind.slot.inj hkind
        have hmul := Nat.add_left_cancel haddr
        obtain rfl : j = i := Nat.eq_of_mul_eq_mul_left t.size_pos hmul
        exact ⟨filled, rfl, hi⟩
    | l1 =>
        rw [hkappa] at hmem
        cases hmem
    | unused | bucketInfo | reserved =>
        rw [hkappa] at hmem
        cases hmem
  · rintro ⟨filled, hkind, hbit⟩
    rw [hkind]
    exact ⟨j, hbit, rfl⟩

theorem addr_inj {k' : ℕ} (h : L.addr k = L.addr k') : k = k' := by
  unfold Layout.addr sliceSize at h
  omega

theorem slot_inj {k' j j' : ℕ} (hj : j < t.perSlice) (hj' : j' < t.perSlice)
    (h : L.addr k + t.size * j = L.addr k' + t.size * j') : k = k' ∧ j = j' := by
  have hb := Layout.slot_bounds (L := L) (k := k) hj
  have hb' := Layout.slot_bounds (L := L) (k := k') hj'
  have hpos := t.size_pos
  have hk : k = k' := by
    by_contra hne
    have := addr_disjoint (L := L) hne
    omega
  rw [hk] at h
  exact ⟨hk, Nat.eq_of_mul_eq_mul_left hpos (Nat.add_left_cancel h)⟩

theorem mem_objects_l1 :
    (⟨.l1, L.addr k⟩ : Object) ∈ objects L k (κ k) ↔ κ k = .l1 := by
  constructor
  · intro hmem
    cases hkappa : κ k with
    | l1 => rfl
    | slots t filled =>
        rw [hkappa] at hmem
        obtain ⟨i, -, heq⟩ := hmem
        cases heq
    | unused | bucketInfo | reserved =>
        rw [hkappa] at hmem
        cases hmem
  · intro hkind
    rw [hkind]
    rfl

namespace Accounted

theorem mem_slot_iff (h : Accounted hw L u κ) (hk : k < L.slices) (hj : j < t.perSlice) :
    (⟨.slot t, L.addr k + t.size * j⟩ : Object) ∈ u.outstanding ↔
      ∃ filled, κ k = .slots t filled ∧ filled.getLsbD j = true := by
  rw [h.mem_iff, ← mem_objects_slot]
  have hb := Layout.slot_bounds (L := L) (k := k) hj
  have hpos := t.size_pos
  exact ⟨fun ho => PmmInv.mem_objects_of_held h.inv ho hb.1
    (show L.addr k + t.size * j < _ by omega), fun ho => ⟨k, hk, ho⟩⟩

theorem mem_l1_iff (h : Accounted hw L u κ) (hk : k < L.slices) :
    (⟨.l1, L.addr k⟩ : Object) ∈ u.outstanding ↔ κ k = .l1 := by
  rw [h.mem_iff, ← mem_objects_l1 (L := L)]
  exact ⟨fun ho => PmmInv.mem_objects_of_held h.inv ho (le_refl _)
    (show L.addr k < _ from Nat.lt_add_of_pos_right (by decide)), fun ho => ⟨k, hk, ho⟩⟩

theorem addr_ne_zero (h : Accounted hw L u κ) {o : Object} (ho : o ∈ u.outstanding) :
    o.addr ≠ 0 := by
  obtain ⟨k, hk, hmem⟩ := (h.mem_iff o).mp ho
  exact h.inv.addr_ne_zero hk hmem

/-- The list `allocated`, in the terms of the records: L1 tables, slices of
records, reserved slices, and slices all of whose objects are out. -/
theorem home_allocated_iff (h : Accounted hw L u κ) (hk : k < L.slices) :
    (κ k).home = .allocated ↔ (⟨.l1, L.addr k⟩ : Object) ∈ u.outstanding ∨
      infoType u.state.mem (L.record k) = MemoryType.bucketInfo.code ∨
      infoReserved u.state.mem (L.record k) = 1 ∨
      ∃ t : SlotKind, infoType u.state.mem (L.record k) = t.memoryType.code ∧
        infoFilled u.state.mem (L.record k) = t.full := by
  rw [h.mem_l1_iff hk, h.inv.type_eq k hk, h.inv.reserved_eq k hk]
  have hfull : (∃ t : SlotKind, infoType u.state.mem (L.record k) = t.memoryType.code ∧
      infoFilled u.state.mem (L.record k) = t.full) ↔ ∃ t, κ k = .slots t t.full :=
    exists_congr fun t => by
      rw [h.inv.slots_iff hk]
      exact and_congr_right fun _ => (and_iff_left t.full_ne_zero).symm
  rw [hfull]
  cases hkappa : κ k with
  | slots t filled =>
      simp only [SliceKind.home]
      constructor
      · intro hhome
        by_cases hf : filled = t.full
        · exact .inr (.inr (.inr ⟨t, by rw [hf]⟩))
        · rw [if_neg hf] at hhome
          cases t <;> cases hhome
      · rintro (hl1 | hb | hres | ⟨t', heq⟩)
        · cases hl1
        · cases hb
        · cases hres
        · cases heq
          exact if_pos rfl
  | unused => simp [SliceKind.home]
  | l1 => simp [SliceKind.home]
  | bucketInfo => simp [SliceKind.home]
  | reserved => simp [SliceKind.home]

/-- The partially free lists, in the terms of the records. -/
theorem home_partial_iff (h : Accounted hw L u κ) (hk : k < L.slices) :
    (κ k).home = t.partialFree ↔ infoType u.state.mem (L.record k) = t.memoryType.code ∧
      infoFilled u.state.mem (L.record k) ≠ 0 ∧ infoFilled u.state.mem (L.record k) ≠ t.full := by
  constructor
  · intro hhome
    obtain ⟨filled, hkind, hne⟩ := SliceKind.eq_slots_of_home hhome
    obtain ⟨htype, hfilled, h0⟩ := (h.inv.slots_iff hk).mp hkind
    rw [hfilled]
    exact ⟨htype, h0, hne⟩
  · rintro ⟨htype, h0, hne⟩
    rw [(h.inv.slots_iff hk).mpr ⟨htype, rfl, h0⟩]
    exact if_neg hne

/-- **The lists** of a reachable state, read off the kinds of the slices: the
kind says which list a record is on, and which of its bits are set. -/
theorem recordLists (h : Accounted hw L u κ) (hstart : L.start ≠ 0) :
    ∃ lists, RecordLists L.start L.slices u L.record lists := by
  obtain ⟨lists, hl⟩ := h.inv.lists
  have hne : ∀ k, L.record k ≠ 0 := by
    intro k h0
    have hr := L.record_bounds k
    unfold Layout.addr at hr
    omega
  have hmem : ∀ l, ∀ k < L.slices, k ∈ lists l ↔ (κ k).home = l := fun l k hk =>
    (hl.mem_iff l k hk).trans (and_iff_left (hne k))
  refine ⟨lists, h.inv.slice_eq, fun k hk => ?_, hl.linked.lt, hl.linked.nodup, hl.linked.dlist,
    fun t k hk => (hmem _ k hk).trans (h.home_partial_iff hk), fun t k hk htype j => ?_,
    fun k hk => (hmem _ k hk).trans (h.home_allocated_iff hk)⟩
  · exact ⟨(κ k).home, (hmem _ k hk).mpr rfl, fun l hkl => ((hmem l k hk).mp hkl).symm⟩
  · constructor
    · intro hbit
      have h0 : infoFilled u.state.mem (L.record k) ≠ 0 := by
        intro h0
        rw [h0] at hbit
        exact Bool.false_ne_true (BitVec.getLsbD_zero.symm.trans hbit)
      have hkind := (h.inv.slots_iff hk).mpr ⟨htype, rfl, h0⟩
      have hj := (h.inv.valid k hk t _ hkind).lt hbit
      exact ⟨hj, (h.mem_slot_iff hk hj).mpr ⟨_, hkind, hbit⟩⟩
    · rintro ⟨hj, ho⟩
      obtain ⟨filled, hkind, hbit⟩ := (h.mem_slot_iff hk hj).mp ho
      rw [h.inv.filled_eq hk hkind]
      exact hbit

end Accounted

/-- The lists of a manager without slices: it knows the first record, which
describes the slice it would lie in. -/
theorem recordLists_first (mem : ByteMemory) (hstart : start ≠ 0) (hlt : start < 2 ^ 32) :
    RecordLists start 1 ⟨pmmFirst mem start (start + sliceSize * 0), []⟩ (fun _ => start)
      (fun l => if l = .allocated then [0] else []) := by
  obtain ⟨hnext, hprev, hslice, -, htype, -⟩ :=
    pmmFirst_record mem start (start + sliceSize * 0)
  have honly : ∀ k < 1, k = 0 := fun k hk => Nat.lt_one_iff.mp hk
  have hnot : ∀ t : SlotKind, ¬infoType (pmmFirst mem start (start + sliceSize * 0)).mem start =
      t.memoryType.code := fun t heq => t.code_ne (heq.symm.trans htype)
  have hmem : ∀ l k, k ∈ (if l = PmmList.allocated then [0] else []) ↔
      l = .allocated ∧ k = 0 := by
    intro l k
    by_cases hl : l = .allocated
    · rw [if_pos hl, List.mem_singleton]
      exact (and_iff_right hl).symm
    · rw [if_neg hl]
      exact iff_of_false List.not_mem_nil fun h => hl h.1
  refine ⟨fun k hk => ?_, fun k hk => ?_, fun l k hk => ?_, fun l => ?_, fun l => ?_,
    fun t k hk => ?_, fun t k hk heq => absurd heq (hnot t), fun k hk => ?_⟩
  · rw [honly k hk]
    exact hslice.trans (Nat.mod_eq_of_lt hlt)
  · refine ⟨.allocated, (hmem _ k).mpr ⟨rfl, honly k hk⟩, fun l hkl => ((hmem l k).mp hkl).1⟩
  · rw [((hmem l k).mp hk).2]
    exact Nat.zero_lt_one
  · split
    · exact List.nodup_singleton 0
    · exact List.nodup_nil
  · cases l with
    | allocated => exact ⟨⟨rfl, hstart, hnext⟩, hprev, trivial⟩
    | unused => exact ⟨rfl, trivial⟩
    | l2ptPartialFree => exact ⟨rfl, trivial⟩
    | pagePartialFree => exact ⟨rfl, trivial⟩
  · refine iff_of_false (fun hkl => ?_) fun h => hnot t h.1
    have hl := ((hmem _ k).mp hkl).1
    cases t <;> cases hl
  · exact iff_of_true ((hmem _ k).mpr ⟨rfl, honly k hk⟩) (.inr (.inl htype))

/-- **The lists of every reachable state.**  (The record of a slice at address
0 would be the null pointer.  Of an empty range `pmm_init` still makes the
first record.) -/
theorem pmm_recordLists (hR : ManagedRange hw start N r) (hstart : start ≠ 0)
    (hmem : ∀ x, start ≤ x → x < start + sliceSize * N → mem x = 0) :
    ∃ s record, pmmInit hw mem start (start + sliceSize * N) = .ok s ∧
      ∀ u, ReflTransGen Step ⟨s, []⟩ u → ∃ lists, RecordLists start (max N 1) u record lists := by
  rcases Nat.eq_zero_or_pos N with rfl | hN
  · refine ⟨_, fun _ => start, pmmInit_empty hw hR.sliceRange mem,
      fun u hrun => ⟨fun l => if l = .allocated then [0] else [], ?_⟩⟩
    rw [run_of_empty hrun rfl rfl]
    exact recordLists_first mem hstart ((Nat.le_add_right _ _).trans_lt hR.first_lt)
  · obtain ⟨s, B, hinit, hrun⟩ := pmmInit_accounted hR hN hmem
    refine ⟨s, Layout.record ⟨start, N, B⟩, hinit, fun u hu => ?_⟩
    obtain ⟨κ, hacc⟩ := hrun u hu
    rw [max_eq_left (show 1 ≤ N from hN)]
    exact hacc.recordLists hstart

/-- Four slices from the bottom of the kernel's half, the last two reserved. -/
theorem pmm_recordLists_four_slices :
    ∃ s record, pmmInit ⟨0x4000, 0x4000⟩ ⟨fun _ => 0⟩ 0x80000000
        (0x80000000 + sliceSize * 4) = .ok s ∧
      ∀ u, ReflTransGen Step ⟨s, []⟩ u →
        ∃ lists, RecordLists 0x80000000 (max 4 1) u record lists :=
  pmm_recordLists (r := 2) ⟨by decide, by decide, by decide, by decide, by decide⟩ (by decide)
    fun _ _ _ => rfl

/-! ### The lookup

An address lies in one slice, and this slice has one record.  The lookup gives
that record, for every byte of every slice that is not reserved. -/

theorem PmmTables.record_zero (h : PmmTables L s κ) : L.record 0 = s.manager.start := by
  rw [h.start_eq]
  unfold Layout.record Layout.addr
  rw [show (0 : ℕ) / sliceinfoPerSlice = 0 from rfl, h.bucket_first]
  rfl

/-- A record of the manager is that of a slice. -/
theorem PmmTables.record_of_isRecord (h : PmmTables L s κ) (hpos : 0 < L.slices) {x : ℕ}
    (hx : IsRecord s x) : ∃ k < L.slices, x = L.record k := by
  obtain ⟨lists, hl⟩ := h.lists
  rcases hx with rfl | ⟨l, xs, hchain, hmem⟩
  · exact ⟨0, hpos, h.record_zero.symm⟩
  · rw [Chain.unique hchain (hl.linked.dlist l).chain] at hmem
    obtain ⟨k, hk, rfl⟩ := List.mem_map.mp hmem
    exact ⟨k, hl.linked.lt l k hk, rfl⟩

theorem PmmTables.isRecord (h : PmmTables L s κ) (hk : k < L.slices) :
    IsRecord s (L.record k) := by
  obtain ⟨lists, hl⟩ := h.lists
  by_cases h0 : L.record k = 0
  · obtain rfl := h.eq_zero_of_record hk h0
    exact .inl h.record_zero
  · exact .inr ⟨(κ k).home, _, (hl.linked.dlist _).chain,
      List.mem_map_of_mem ((hl.mem_iff _ k hk).mpr ⟨rfl, h0⟩)⟩

/-- The record that describes an address is that of the slice the address lies
in. -/
theorem PmmTables.record_of_describes (h : PmmTables L s κ) (hpos : 0 < L.slices) {x a : ℕ}
    (hx : Describes s x a) : ∃ k < L.slices, x = L.record k ∧ L.addr k ≤ a ∧
      a < L.addr k + sliceSize := by
  obtain ⟨hrec, hle, hlt⟩ := hx
  obtain ⟨k, hk, rfl⟩ := h.record_of_isRecord hpos hrec
  rw [h.slice_eq k hk] at hle hlt
  exact ⟨k, hk, rfl, hle, hlt⟩

theorem PmmTables.describes (h : PmmTables L s κ) (hk : k < L.slices) {a : ℕ}
    (hle : L.addr k ≤ a) (hlt : a < L.addr k + sliceSize) : Describes s (L.record k) a :=
  ⟨h.isRecord hk, by rwa [h.slice_eq k hk], by rwa [h.slice_eq k hk]⟩

/-- **The lookup finds the record** of every address in a slice that is not
reserved, and no other record describes the address. -/
theorem lookup_finds_record (hR : ManagedRange hw start N r)
    (hmem : ∀ x, start ≤ x → x < start + sliceSize * N → mem x = 0) :
    ∃ s, pmmInit hw mem start (start + sliceSize * N) = .ok s ∧
      ∀ k < N, addressInReservedRegion hw (start + sliceSize * k) = false →
        ∀ a, start + sliceSize * k ≤ a → a < start + sliceSize * k + sliceSize →
          ∃ x, pmmGetSliceinfoForSlice s a = .success x ∧ Describes s x a ∧
            ∀ y, Describes s y a → y = x := by
  rcases Nat.eq_zero_or_pos N with rfl | hN
  · exact ⟨_, pmmInit_empty hw hR.sliceRange mem, fun k hk => absurd hk (Nat.not_lt_zero k)⟩
  obtain ⟨s, b, B, hinit, hinv⟩ := pmmInit_spec hR hN hmem
  have h := hinv.pmmInv hR
  refine ⟨s, hinit, fun k hk hfree a hle hlt => ?_⟩
  have hkind : initKind (marked hw start) B b k ≠ .reserved := by
    rw [Ne, initKind_reserved, hR.marked_eq hk, ← hR.reserved k hk, hfree]
    exact Bool.false_ne_true
  refine ⟨_, h.lookup hk hkind hle hlt, h.describes hk hle hlt, fun y hy => ?_⟩
  obtain ⟨i, hi, rfl, hle', hlt'⟩ := h.record_of_describes hN hy
  obtain rfl : i = k := by
    by_contra hik
    have := addr_disjoint (L := ⟨start, N, B⟩) hik
    unfold Layout.addr at *
    dsimp only at *
    omega
  rfl

/-- Four slices from the bottom of the kernel's half, the last two reserved.
Every byte of the first two has one record. -/
theorem lookup_finds_record_four_slices :
    ∃ s, pmmInit ⟨0x4000, 0x4000⟩ ⟨fun _ => 0⟩ 0x80000000 (0x80000000 + sliceSize * 4) = .ok s ∧
      ∀ k < 4, addressInReservedRegion ⟨0x4000, 0x4000⟩ (0x80000000 + sliceSize * k) = false →
        ∀ a, 0x80000000 + sliceSize * k ≤ a → a < 0x80000000 + sliceSize * k + sliceSize →
          ∃ x, pmmGetSliceinfoForSlice s a = .success x ∧ Describes s x a ∧
            ∀ y, Describes s y a → y = x :=
  lookup_finds_record (r := 2) ⟨by decide, by decide, by decide, by decide, by decide⟩
    fun _ _ _ => rfl

end CourseOs.Pmm
