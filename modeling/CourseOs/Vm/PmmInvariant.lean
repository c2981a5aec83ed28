import CourseOs.Vm.PmmLists
import Mathlib.Tactic.Ring

/-!
# What every slice is used for

The abstract view of the manager: slice `k` of a `Layout` has a `SliceKind`,
and `PmmInv L s κ` says that the records and lists in memory represent the
kinds `κ`.  Three parts carry the arguments.

* **The layout.**  The record of slice `k` lies in the bucket slice
  `L.bucketSlice (k / 512)`.  For a slice that is not reserved this is the
  slice before the bucket (`PmmInv.bucket_before`), which is where
  `pmm_get_sliceinfo_for_slice` looks: `PmmInv.lookup`.
* **The lists.**  A record is on the list `SliceKind.home` names, and on no
  other: the free functions choose the list to unlink from by the mask
  `filled`, and `home` is that choice.
* **The masks.**  In a slice that serves L2 tables or pages the set bits of
  `filled` are the objects handed out (`Held`).
-/

namespace CourseOs.Pmm

open ByteMemory LinkedList

/-! ### The mask of a slice

`filled` has a bit for each object of the slice that is out.  The allocation
takes the lowest bit that is clear, and finds one as long as the mask is not
full; a free clears one, and tells by the result whether the slice is unused
again. -/

/-- `filled` in a slice that has handed out at least one object, and none past
the last. -/
def SlotKind.Valid (t : SlotKind) (filled : BitVec 8) : Prop :=
  filled ≠ 0 ∧ filled &&& ~~~t.full = 0

theorem firstFree_spec (t : SlotKind) {filled : BitVec 8} (hv : t.Valid filled)
    (hne : filled ≠ t.full) :
    firstFree filled < t.perSlice ∧ filled.getLsbD (firstFree filled) = false := by
  have hl2 : ∀ f : BitVec 8, f ≠ 0xff#8 →
      firstFree f < 8 ∧ f.getLsbD (firstFree f) = false := by decide +kernel
  have hpage : ∀ f : BitVec 8, f &&& ~~~0b11#8 = 0 → f ≠ 0b11#8 →
      firstFree f < 2 ∧ f.getLsbD (firstFree f) = false := by decide +kernel
  cases t with
  | l2 => exact hl2 filled hne
  | page => exact hpage filled hv.2 hne

theorem SlotKind.perSlice_le (t : SlotKind) : t.perSlice ≤ 8 := by
  cases t <;> decide

theorem SlotKind.size_mul_perSlice (t : SlotKind) : t.size * t.perSlice = sliceSize := by
  cases t <;> rfl

theorem SlotKind.size_pos (t : SlotKind) : 0 < t.size := by
  cases t <;> decide

/-- The mask with one more object, at position `j` of the slice. -/
def withSlot (filled : BitVec 8) (j : ℕ) : BitVec 8 := filled ||| (1#8 <<< j)

/-- The mask with one object less, the one at position `j`. -/
def withoutSlot (filled : BitVec 8) (j : ℕ) : BitVec 8 := filled &&& ~~~(1#8 <<< j)

theorem getLsbD_withSlot {filled : BitVec 8} {i j : ℕ} (hj : j < 8) :
    (withSlot filled j).getLsbD i = (filled.getLsbD i || decide (i = j)) := by
  unfold withSlot
  rw [BitVec.getLsbD_or, BitVec.getLsbD_shiftLeft]
  by_cases hij : i = j
  · subst hij
    simp [hj]
  · simp only [hij, decide_false, Bool.or_false, BitVec.getLsbD_one]
    by_cases hlt : i < j
    · simp [hlt]
    · have : i - j ≠ 0 := by omega
      simp [this]

theorem getLsbD_withoutSlot {filled : BitVec 8} {i j : ℕ} :
    (withoutSlot filled j).getLsbD i = (filled.getLsbD i && !decide (i = j)) := by
  unfold withoutSlot
  rw [BitVec.getLsbD_and, BitVec.getLsbD_not, BitVec.getLsbD_shiftLeft]
  by_cases hi : i < 8
  · by_cases hij : i = j
    · subst hij
      simp [hi]
    · simp only [hi, hij, decide_true, decide_false, Bool.true_and, BitVec.getLsbD_one]
      by_cases hlt : i < j
      · simp [hlt]
      · have : i - j ≠ 0 := by omega
        simp [this]
  · simp [BitVec.getLsbD_of_ge filled i (by omega)]

/-- A valid mask has no bit at or past the number of objects. -/
theorem SlotKind.Valid.lt {t : SlotKind} {filled : BitVec 8} {j : ℕ} (hv : t.Valid filled)
    (h : filled.getLsbD j = true) : j < t.perSlice := by
  have hj : j < 8 := by
    by_contra hge
    rw [BitVec.getLsbD_of_ge filled j (by omega)] at h
    exact Bool.false_ne_true h
  have hbit : (filled &&& ~~~t.full).getLsbD j = false := by rw [hv.2]; simp
  have hfull : t.full.getLsbD j = true := by simpa [h, hj] using hbit
  have hpage : ∀ j < 8, (0b11#8).getLsbD j = true → j < 2 := by decide
  cases t with
  | l2 => exact hj
  | page => exact hpage j hj hfull

/-- Every object of a full slice has its bit set. -/
theorem SlotKind.getLsbD_full {t : SlotKind} {j : ℕ} (hj : j < t.perSlice) :
    t.full.getLsbD j = true := by
  have hset : ∀ t : SlotKind, ∀ j < t.perSlice, t.full.getLsbD j = true := by
    intro t
    cases t <;> decide
  exact hset t j hj

theorem valid_iff {t : SlotKind} {filled : BitVec 8} :
    t.Valid filled ↔ (∃ j, filled.getLsbD j = true) ∧
      ∀ j, filled.getLsbD j = true → j < t.perSlice := by
  constructor
  · intro hv
    refine ⟨?_, fun j => hv.lt⟩
    by_contra hnone
    push Not at hnone
    exact hv.1 (BitVec.eq_of_getLsbD_eq fun i _ => by simpa using hnone i)
  · rintro ⟨⟨j, hj⟩, hlt⟩
    refine ⟨?_, BitVec.eq_of_getLsbD_eq fun i hi => ?_⟩
    · rintro rfl
      simp at hj
    · by_cases hb : filled.getLsbD i = true
      · simp [SlotKind.getLsbD_full (hlt i hb)]
      · simp [hb]

theorem valid_withSlot {t : SlotKind} {filled : BitVec 8} {j : ℕ} (hj : j < t.perSlice)
    (hv : filled = 0 ∨ t.Valid filled) : t.Valid (withSlot filled j) := by
  have hj8 : j < 8 := by
    have := t.perSlice_le
    omega
  refine valid_iff.mpr ⟨⟨j, by simp [getLsbD_withSlot hj8]⟩, fun i hi => ?_⟩
  rw [getLsbD_withSlot hj8, Bool.or_eq_true, decide_eq_true_eq] at hi
  rcases hi with hi | rfl
  · rcases hv with rfl | hv
    · simp at hi
    · exact hv.lt hi
  · exact hj

theorem valid_withoutSlot {t : SlotKind} {filled : BitVec 8} {j : ℕ} (hv : t.Valid filled) :
    withoutSlot filled j = 0 ∨ t.Valid (withoutSlot filled j) := by
  by_cases h0 : withoutSlot filled j = 0
  · exact Or.inl h0
  · refine Or.inr (valid_iff.mpr ⟨?_, fun i hi => ?_⟩)
    · by_contra hnone
      push Not at hnone
      exact h0 (BitVec.eq_of_getLsbD_eq fun i _ => by simpa using hnone i)
    · rw [getLsbD_withoutSlot, Bool.and_eq_true] at hi
      exact hv.lt hi.1

/-- A mask that lost an object is not full. -/
theorem withoutSlot_ne_full {t : SlotKind} {filled : BitVec 8} {j : ℕ} (hj : j < t.perSlice) :
    withoutSlot filled j ≠ t.full := by
  intro hfull
  have hclear : (withoutSlot filled j).getLsbD j = false := by
    rw [getLsbD_withoutSlot]
    simp
  rw [hfull, SlotKind.getLsbD_full hj] at hclear
  cases hclear

/-! ### Slices and their records

Where records lie, as a function of the slice.  Records of different slices do
not overlap, and no other slice contains a byte of a record. -/

/-- Where the managed slices and their records lie: the range, and for each
bucket the slice with its records. -/
structure Layout where
  start : ℕ
  slices : ℕ
  /-- The slice that holds the records of a bucket. -/
  bucketSlice : ℕ → ℕ

namespace Layout

/-- The first byte of slice `k`. -/
def addr (L : Layout) (k : ℕ) : ℕ := L.start + sliceSize * k

/-- The address of the record of slice `k`, in the slice of records of its
bucket. -/
def record (L : Layout) (k : ℕ) : ℕ :=
  L.addr (L.bucketSlice (k / sliceinfoPerSlice)) + sliceInfoSize * (k % sliceinfoPerSlice)

/-- The range is slice-aligned, lies in the address space, and different
buckets keep their records in different slices of it. -/
structure WellFormed (L : Layout) : Prop where
  aligned : L.start % sliceSize = 0
  bounded : L.start + sliceSize * L.slices < 2 ^ 32
  bucketSlice_lt : ∀ k < L.slices, L.bucketSlice (k / sliceinfoPerSlice) < L.slices
  bucketSlice_inj : ∀ k < L.slices, ∀ k' < L.slices,
    L.bucketSlice (k / sliceinfoPerSlice) = L.bucketSlice (k' / sliceinfoPerSlice) →
      k / sliceinfoPerSlice = k' / sliceinfoPerSlice

variable {L : Layout} {k i : ℕ}

theorem record_bounds (L : Layout) (k : ℕ) :
    L.addr (L.bucketSlice (k / sliceinfoPerSlice)) ≤ L.record k ∧
      L.record k + 16 ≤ L.addr (L.bucketSlice (k / sliceinfoPerSlice)) + sliceSize := by
  unfold record sliceInfoSize sliceSize sliceinfoPerSlice
  omega

theorem WellFormed.addr_lt (h : L.WellFormed) (hk : k < L.slices) :
    L.addr k + sliceSize < 2 ^ 32 := by
  have hb := h.bounded
  unfold addr sliceSize at *
  omega

theorem WellFormed.recordsApart (h : L.WellFormed) : RecordsApart L.record L.slices where
  disjoint i hi j hj hij := by
    by_cases hb : i / sliceinfoPerSlice = j / sliceinfoPerSlice
    · unfold record
      rw [hb]
      unfold sliceInfoSize sliceinfoPerSlice at *
      omega
    · have hne : L.bucketSlice (i / sliceinfoPerSlice) ≠ L.bucketSlice (j / sliceinfoPerSlice) :=
        fun heq => hb (h.bucketSlice_inj i hi j hj heq)
      have hi' := L.record_bounds i
      have hj' := L.record_bounds j
      unfold addr sliceSize at hi' hj'
      omega
  bounded i hi := by
    have hlt := h.addr_lt (h.bucketSlice_lt i hi)
    have hr := L.record_bounds i
    omega

/-- A slice other than a bucket slice contains no byte of a record. -/
theorem record_outside (h : k ≠ L.bucketSlice (i / sliceinfoPerSlice)) :
    L.record i + 16 ≤ L.addr k ∨ L.addr k + sliceSize ≤ L.record i := by
  have hr := L.record_bounds i
  unfold addr sliceSize at *
  omega

end Layout

/-! ### Kinds

The kind of a slice determines its list, its type and its mask, so that the
state of the manager is a function from slices to kinds and an order for each
list.  Every operation changes the kind of one slice (`PmmTables.update`). -/

/-- What a slice is used for.  This is all that the clients of the manager
depend on. -/
inductive SliceKind
  | unused
  | l1
  /-- L2 tables or pages, with the mask of those handed out. -/
  | slots (t : SlotKind) (filled : BitVec 8)
  | bucketInfo
  | reserved
  deriving DecidableEq

/-- The list that holds the record of a slice of this kind.  A slice whose
objects are all out is on the list of the allocated ones. -/
def SliceKind.home : SliceKind → PmmList
  | unused => .unused
  | l1 => .allocated
  | slots t filled => if filled = t.full then .allocated else t.partialFree
  | bucketInfo => .allocated
  | reserved => .allocated

/-- The bits of `filled` in the record of a slice of this kind. -/
def SliceKind.mask : SliceKind → BitVec 8
  | slots _ filled => filled
  | _ => 0

/-- The kinds a slice can change between after `pmm_init`.  Reserved slices
and slices of records stay what they are. -/
def SliceKind.Usable : SliceKind → Prop
  | unused => True
  | l1 => True
  | slots t filled => t.Valid filled
  | bucketInfo => False
  | reserved => False

/-- The kinds a slice can be given once it has been found not to be reserved. -/
def SliceKind.Assignable : SliceKind → Prop
  | unused => True
  | l1 => True
  | slots t filled => t.Valid filled
  | bucketInfo => True
  | reserved => False

theorem SliceKind.Usable.assignable {kind : SliceKind} (h : kind.Usable) : kind.Assignable := by
  cases kind with
  | bucketInfo => trivial
  | unused | l1 | slots | reserved => exact h

/-- The lists hold exactly the records of the slices whose kind says so.  (The
record at address 0, if there is one, is the null pointer and on no list.) -/
structure OnHomeLists (L : Layout) (s : PmmState) (κ : ℕ → SliceKind)
    (lists : PmmList → List ℕ) : Prop where
  linked : Linked L.record L.slices s lists
  mem_iff : ∀ l, ∀ k < L.slices, k ∈ lists l ↔ (κ k).home = l ∧ L.record k ≠ 0

/-- The records and lists in memory represent the kinds `κ`: each record has
the address of its slice, the type and the mask of its kind, and is on the
list of its kind. -/
structure PmmTables (L : Layout) (s : PmmState) (κ : ℕ → SliceKind) : Prop where
  layout : L.WellFormed
  start_eq : s.manager.start = L.start
  lists : ∃ lists, OnHomeLists L s κ lists
  slice_eq : ∀ k < L.slices, info s.mem (L.record k) .slice = L.addr k
  mask_eq : ∀ k < L.slices, κ k ≠ .bucketInfo → infoFilled s.mem (L.record k) = (κ k).mask
  reserved_eq : ∀ k < L.slices, infoReserved s.mem (L.record k) = if κ k = .reserved then 1 else 0
  type_eq : ∀ k < L.slices,
    (infoType s.mem (L.record k) = MemoryType.bucketInfo.code ↔ κ k = .bucketInfo)
  type_slots : ∀ k < L.slices, ∀ t filled, κ k = .slots t filled →
    infoType s.mem (L.record k) = t.memoryType.code
  valid : ∀ k < L.slices, ∀ t filled, κ k = .slots t filled → t.Valid filled
  bucketSlice_kind : ∀ k < L.slices, κ (L.bucketSlice (k / sliceinfoPerSlice)) = .bucketInfo
  bucket_first : L.bucketSlice 0 = 0

/-- Also, the records of slices that are not reserved lie where they are
looked up.  This is what the free functions need, and allocations do not. -/
structure PmmInv (L : Layout) (s : PmmState) (κ : ℕ → SliceKind) : Prop
    extends PmmTables L s κ where
  bucket_before : ∀ k < L.slices, sliceinfoPerSlice ≤ k → κ k ≠ .reserved →
    L.bucketSlice (k / sliceinfoPerSlice) + 1 = sliceinfoPerSlice * (k / sliceinfoPerSlice)

/-- The words and bytes that neither the records of other slices nor the rest
of memory lose when the record of `k` is rewritten: the links of all records
may change, and the first word of that one. -/
structure RecordFrame (L : Layout) (k : ℕ) (m m' : ByteMemory) : Prop where
  entry : ∀ i < L.slices, i ≠ k → info m' (L.record i) .entry = info m (L.record i) .entry
  slice : ∀ i < L.slices, info m' (L.record i) .slice = info m (L.record i) .slice
  reserved : infoReserved m' (L.record k) = infoReserved m (L.record k)
  outside : ∀ x, (∀ i < L.slices, x < L.record i ∨ L.record i + 16 ≤ x) → m' x = m x

variable {L : Layout} {s s' : PmmState} {κ : ℕ → SliceKind} {k : ℕ} {m m' m'' : ByteMemory}
  {t : SlotKind} {lists : PmmList → List ℕ}

namespace RecordFrame

theorem trans (h : RecordFrame L k m m') (h' : RecordFrame L k m' m'') :
    RecordFrame L k m m'' where
  entry i hi hne := (h'.entry i hi hne).trans (h.entry i hi hne)
  slice i hi := (h'.slice i hi).trans (h.slice i hi)
  reserved := h'.reserved.trans h.reserved
  outside x hx := (h'.outside x hx).trans (h.outside x hx)

theorem of_links (hk : k < L.slices) (h : LinksFrame L.record L.slices m m') :
    RecordFrame L k m m' where
  entry i hi _ := h.entry i hi
  slice := h.slice
  reserved := h.reserved hk
  outside := h.outside

theorem of_entry (hL : L.WellFormed) (hk : k < L.slices) (h : EntryFrame (L.record k) m m')
    (hres : infoReserved m' (L.record k) = infoReserved m (L.record k)) :
    RecordFrame L k m m' where
  entry i hi hne := h.other _ _ (hL.recordsApart.apart hk hi)
    (Or.inl fun heq => hne ((hL.recordsApart.inj hi hk).mp heq))
  slice i hi := h.other _ _ (hL.recordsApart.apart hk hi) (Or.inr (by decide))
  reserved := hres
  outside x hx := h.outside x (hx k hk)

theorem setFilled (hL : L.WellFormed) (hk : k < L.slices) (b : BitVec 8) :
    RecordFrame L k m (setFilled m (L.record k) b) :=
  of_entry hL hk (entryFrame_setFilled m _ b) (infoReserved_setFilled_self m _ b)

theorem setType (hL : L.WellFormed) (hk : k < L.slices) (ty : MemoryType) :
    RecordFrame L k m (setType m (L.record k) ty) :=
  of_entry hL hk (entryFrame_setType m _ ty) (infoReserved_setType_self m _ ty)

end RecordFrame

/-- Rewriting the first word of one record keeps the lists. -/
theorem OnHomeLists.of_entryFrame (h : OnHomeLists L s κ lists) (hk : k < L.slices)
    (hf : EntryFrame (L.record k) s.mem m) : OnHomeLists L (s.withMem m) κ lists where
  linked := h.linked.of_info_eq (fun l => PmmState.head_withMem s m l)
    (fun i hi => hf.other _ _ (h.linked.apart.apart hk hi) (Or.inr (by decide)))
    (fun i hi => hf.other _ _ (h.linked.apart.apart hk hi) (Or.inr (by decide)))
  mem_iff := h.mem_iff

namespace PmmTables

theorem recordsApart (h : PmmTables L s κ) : RecordsApart L.record L.slices :=
  h.layout.recordsApart

theorem filled_eq (h : PmmTables L s κ) (hk : k < L.slices) {filled : BitVec 8}
    (hkind : κ k = .slots t filled) : infoFilled s.mem (L.record k) = filled := by
  rw [h.mask_eq k hk (by rw [hkind]; exact SliceKind.noConfusion), hkind]
  rfl

theorem bucketSlice_ne (h : PmmTables L s κ) {i : ℕ} (hi : i < L.slices)
    (hk : κ k ≠ .bucketInfo) : k ≠ L.bucketSlice (i / sliceinfoPerSlice) := by
  rintro rfl
  exact hk (h.bucketSlice_kind i hi)

/-- **One slice changes its kind.**  The caller supplies the new lists; the
record of the slice may have been rewritten, everything else is framed.  Every
operation of the manager is such a change. -/
theorem update {kind : SliceKind} (h : PmmTables L s κ) (hk : k < L.slices)
    (hold : (κ k).Usable) (hnew : kind.Assignable)
    (hframe : RecordFrame L k s.mem s'.mem)
    (hstart : s'.manager.start = s.manager.start)
    (hlists : ∃ lists, OnHomeLists L s' (Function.update κ k kind) lists)
    (hmask : kind ≠ .bucketInfo → infoFilled s'.mem (L.record k) = kind.mask)
    (htype : infoType s'.mem (L.record k) = MemoryType.bucketInfo.code ↔ kind = .bucketInfo)
    (hslots : ∀ t filled, kind = .slots t filled →
      infoType s'.mem (L.record k) = t.memoryType.code) :
    PmmTables L s' (Function.update κ k kind) where
  layout := h.layout
  start_eq := hstart.trans h.start_eq
  lists := hlists
  slice_eq i hi := (hframe.slice i hi).trans (h.slice_eq i hi)
  mask_eq i hi hne := by
    by_cases hik : i = k
    · subst hik
      rw [Function.update_self] at hne ⊢
      exact hmask hne
    · rw [Function.update_of_ne hik] at hne ⊢
      have := h.mask_eq i hi hne
      unfold infoFilled at this ⊢
      rw [hframe.entry i hi hik, this]
  reserved_eq i hi := by
    by_cases hik : i = k
    · subst hik
      have hres := h.reserved_eq i hi
      rw [if_neg fun heq => by rw [heq] at hold; exact hold] at hres
      rw [hframe.reserved, hres, Function.update_self,
        if_neg fun heq => by rw [heq] at hnew; exact hnew]
    · rw [Function.update_of_ne hik]
      have := h.reserved_eq i hi
      unfold infoReserved at this ⊢
      rw [hframe.entry i hi hik, this]
  type_eq i hi := by
    by_cases hik : i = k
    · subst hik
      rw [Function.update_self]
      exact htype
    · rw [Function.update_of_ne hik, ← h.type_eq i hi]
      unfold infoType
      rw [hframe.entry i hi hik]
  type_slots i hi t filled heq := by
    by_cases hik : i = k
    · subst hik
      rw [Function.update_self] at heq
      exact hslots t filled heq
    · rw [Function.update_of_ne hik] at heq
      rw [← h.type_slots i hi t filled heq]
      unfold infoType
      rw [hframe.entry i hi hik]
  valid i hi t filled heq := by
    by_cases hik : i = k
    · subst hik
      rw [Function.update_self] at heq
      rw [heq] at hnew
      exact hnew
    · rw [Function.update_of_ne hik] at heq
      exact h.valid i hi t filled heq
  bucketSlice_kind i hi := by
    have hb := h.bucketSlice_kind i hi
    have hne : L.bucketSlice (i / sliceinfoPerSlice) ≠ k := by
      rintro rfl
      rw [hb] at hold
      exact hold
    rw [Function.update_of_ne hne, hb]
  bucket_first := h.bucket_first

/-- The invariant only depends on what the records say, and not on any other
byte of the memory. -/
theorem of_info_eq (h : PmmTables L s κ)
    (hinfo : ∀ i < L.slices, ∀ f, info m (L.record i) f = info s.mem (L.record i) f) :
    PmmTables L (s.withMem m) κ := by
  obtain ⟨lists, hl⟩ := h.lists
  exact {
    layout := h.layout
    start_eq := h.start_eq
    lists := ⟨lists, hl.linked.of_info_eq (PmmState.head_withMem s m)
      (fun i hi => hinfo i hi _) (fun i hi => hinfo i hi _), hl.mem_iff⟩
    slice_eq := fun i hi => (hinfo i hi _).trans (h.slice_eq i hi)
    mask_eq := fun i hi hne => by
      rw [← h.mask_eq i hi hne]
      show BitVec.ofNat 8 _ = BitVec.ofNat 8 _
      rw [PmmState.withMem_mem, hinfo i hi]
    reserved_eq := fun i hi => by
      rw [← h.reserved_eq i hi]
      show _ / 1024 % 2 = _ / 1024 % 2
      rw [PmmState.withMem_mem, hinfo i hi]
    type_eq := fun i hi => by
      rw [← h.type_eq i hi]
      show _ % 4 = _ ↔ _ % 4 = _
      rw [PmmState.withMem_mem, hinfo i hi]
    type_slots := fun i hi t filled heq => by
      rw [← h.type_slots i hi t filled heq]
      show _ % 4 = _ % 4
      rw [PmmState.withMem_mem, hinfo i hi]
    valid := h.valid
    bucketSlice_kind := h.bucketSlice_kind
    bucket_first := h.bucket_first }

/-- Memory outside the records may change freely. -/
theorem of_outside (h : PmmTables L s κ)
    (hm : ∀ i < L.slices, ∀ x, L.record i ≤ x → x < L.record i + 16 → m x = s.mem x) :
    PmmTables L (s.withMem m) κ := by
  refine h.of_info_eq fun i hi f => ?_
  have hf := f.offset_le
  exact readWord_congr fun x hx hx' => hm i hi x (by omega) (by omega)

/-- A slice that is no bucket slice may be overwritten. -/
theorem of_slice (h : PmmTables L s κ) (hk : κ k ≠ .bucketInfo)
    (hm : ∀ x, (x < L.addr k ∨ L.addr k + sliceSize ≤ x) → m x = s.mem x) :
    PmmTables L (s.withMem m) κ := by
  refine h.of_outside fun i hi x hx hx' => hm x ?_
  have := L.record_outside (h.bucketSlice_ne hi hk)
  omega

end PmmTables

theorem PmmInv.of_outside (h : PmmInv L s κ)
    (hm : ∀ i < L.slices, ∀ x, L.record i ≤ x → x < L.record i + 16 → m x = s.mem x) :
    PmmInv L (s.withMem m) κ :=
  ⟨h.toPmmTables.of_outside hm, h.bucket_before⟩

/-! ### Lookup

The lookup computes an address from an address.  That there is a record, and
the right one, holds for slices whose bucket has its records in place, and
this is part of `PmmInv`. -/

/-- The record `pmm_get_sliceinfo_for_slice` arrives at. -/
def sliceinfoFor (s : PmmState) (slice : ℕ) : ℕ :=
  let bucketsize := sliceinfoPerSlice * sliceSize
  let bucketindex := sub32 slice s.manager.start / bucketsize
  let correction := if bucketindex = 0 then 0 else 1
  let bucketinfo :=
    sub32 ((s.manager.start + bucketindex * bucketsize) % 2 ^ 32) (correction * sliceSize)
  let firstAddressInBucket := (bucketinfo + correction * sliceSize) % 2 ^ 32
  (bucketinfo + sliceInfoSize * (sub32 slice firstAddressInBucket / sliceSize)) % 2 ^ 32

theorem pmmGetSliceinfoForSlice_eq (s : PmmState) (slice : ℕ) :
    pmmGetSliceinfoForSlice s slice =
      if infoReserved s.mem (sliceinfoFor s slice) = 1 then .reservedMmioMemory
      else .success (sliceinfoFor s slice) :=
  rfl

/-- **Where the lookup arrives**: at the record of the slice's place in a
bucket whose records are in the slice before it, or in slice 0. -/
theorem sliceinfoFor_eq (hL : L.WellFormed) (hstart : s.manager.start = L.start)
    (hk : k < L.slices) {p : ℕ} (hp : L.addr k ≤ p) (hp' : p < L.addr k + sliceSize) :
    sliceinfoFor s p = L.addr (sliceinfoPerSlice * (k / sliceinfoPerSlice) - 1) +
      sliceInfoSize * (k % sliceinfoPerSlice) := by
  have hlt := hL.addr_lt hk
  have hb := hL.bounded
  have hoff : sub32 p s.manager.start = p - L.start := by
    rw [hstart]
    exact sub32_of_le (by unfold Layout.addr at hp; omega) (by omega)
  have hindex : (p - L.start) / (sliceinfoPerSlice * sliceSize) = k / sliceinfoPerSlice := by
    unfold Layout.addr sliceSize sliceinfoPerSlice at *
    omega
  suffices hsuff : ∀ b c : ℕ, b = k / sliceinfoPerSlice → c = (if b = 0 then 0 else 1) →
      (sub32 ((s.manager.start + b * (sliceinfoPerSlice * sliceSize)) % 2 ^ 32) (c * sliceSize) +
        sliceInfoSize * (sub32 p ((sub32 ((s.manager.start + b * (sliceinfoPerSlice * sliceSize))
          % 2 ^ 32) (c * sliceSize) + c * sliceSize) % 2 ^ 32) / sliceSize)) % 2 ^ 32
        = L.addr (sliceinfoPerSlice * b - 1) + sliceInfoSize * (k % sliceinfoPerSlice) by
    unfold sliceinfoFor
    simp only [hoff, hindex]
    exact hsuff _ _ rfl rfl
  intro b c hbk hc
  rw [hstart]
  have hbound : L.start + b * (sliceinfoPerSlice * sliceSize) ≤ p := by
    unfold Layout.addr sliceSize sliceinfoPerSlice at *
    omega
  rw [Nat.mod_eq_of_lt (by omega : L.start + b * (sliceinfoPerSlice * sliceSize) < 2 ^ 32)]
  have hc_le : c * sliceSize ≤ L.start + b * (sliceinfoPerSlice * sliceSize) := by
    unfold sliceSize sliceinfoPerSlice
    split at hc <;> omega
  rw [sub32_of_le hc_le (by omega), Nat.sub_add_cancel hc_le,
    Nat.mod_eq_of_lt (by omega : L.start + b * (sliceinfoPerSlice * sliceSize) < 2 ^ 32),
    sub32_of_le hbound (by omega)]
  have hbefore : L.start + b * (sliceinfoPerSlice * sliceSize) - c * sliceSize =
      L.addr (sliceinfoPerSlice * b - 1) := by
    unfold Layout.addr sliceSize sliceinfoPerSlice
    split at hc <;> omega
  have hidx : (p - (L.start + b * (sliceinfoPerSlice * sliceSize))) / sliceSize =
      k % sliceinfoPerSlice := by
    unfold Layout.addr sliceSize sliceinfoPerSlice at *
    omega
  rw [hidx, hbefore]
  refine Nat.mod_eq_of_lt ?_
  unfold Layout.addr sliceSize sliceinfoPerSlice sliceInfoSize at *
  omega

namespace PmmTables

/-- The lookup arrives at the record of the slice when the bucket's records
are in the slice before it. -/
theorem sliceinfoFor_eq_record (h : PmmTables L s κ) (hk : k < L.slices)
    (hbefore : sliceinfoPerSlice ≤ k →
      L.bucketSlice (k / sliceinfoPerSlice) + 1 = sliceinfoPerSlice * (k / sliceinfoPerSlice))
    {p : ℕ} (hp : L.addr k ≤ p) (hp' : p < L.addr k + sliceSize) :
    sliceinfoFor s p = L.record k := by
  rw [sliceinfoFor_eq h.layout h.start_eq hk hp hp']
  have hslice : sliceinfoPerSlice * (k / sliceinfoPerSlice) - 1 =
      L.bucketSlice (k / sliceinfoPerSlice) := by
    rcases Nat.lt_or_ge k sliceinfoPerSlice with hlt | hge
    · rw [Nat.div_eq_of_lt hlt, Nat.mul_zero, Nat.zero_sub, h.bucket_first]
    · rw [← hbefore hge, Nat.add_sub_cancel]
  rw [hslice]
  rfl

end PmmTables

/-- A record that is found and not marked is what the lookup gives. -/
theorem PmmTables.lookup (h : PmmTables L s κ) (hk : k < L.slices) (hres : κ k ≠ .reserved) {p : ℕ}
    (hfound : sliceinfoFor s p = L.record k) :
    pmmGetSliceinfoForSlice s p = .success (L.record k) := by
  have hreserved := h.reserved_eq k hk
  rw [if_neg hres] at hreserved
  rw [pmmGetSliceinfoForSlice_eq, hfound, hreserved]
  rfl

/-- **The record is where the lookup computes it to be**, for every address in
a slice that is not reserved. -/
theorem PmmInv.found (h : PmmInv L s κ) (hk : k < L.slices) (hres : κ k ≠ .reserved) {p : ℕ}
    (hp : L.addr k ≤ p) (hp' : p < L.addr k + sliceSize) : sliceinfoFor s p = L.record k :=
  h.sliceinfoFor_eq_record hk (fun h512 => h.bucket_before k hk h512 hres) hp hp'

theorem PmmInv.lookup (h : PmmInv L s κ) (hk : k < L.slices) (hres : κ k ≠ .reserved) {p : ℕ}
    (hp : L.addr k ≤ p) (hp' : p < L.addr k + sliceSize) :
    pmmGetSliceinfoForSlice s p = .success (L.record k) :=
  h.toPmmTables.lookup hk hres (h.found hk hres hp hp')

end CourseOs.Pmm
