import CourseOs.Vm.PmmOps
import Mathlib.Data.Finset.Card
import Mathlib.Data.Finset.Range

/-!
# What `pmm_init` sets up

After `n` slices the loop of `pmm_init` has built the records and lists for a
managed range of `n` slices: `InitInv` is `PmmTables` for that shorter range,
together with where the next record will be written and the fact that nothing
but records has been written yet.

When the last record of a bucket has been written, the records of the next
bucket get a slice of their own, the one pushed last on the list of unused
slices.  That is the last slice of the bucket unless this one is reserved.
The list must not be empty: `exists_initKind_unused` counts (`Supplied`), and
otherwise `pmm_init` dereferences null.

* `initKind` — the kinds `pmm_init` leaves;
* `PmmTables.index` — one slice gets its record;
* `InitInv.newBucket` — a bucket gets its slice;
* `pmmInit_outcome` — what `pmm_init` does, whatever is reserved;
* `pmmInit_spec` — with a reserved suffix it returns, and `PmmInv` holds.

The managed memory is zero before: `pmm_init` does not write every word of a
record, and later operations read words it has not written.  What it does over
memory that is not zero is in `CourseOs.Vm.PmmTwinInit`.
-/

namespace CourseOs.Pmm

open ByteMemory LinkedList

variable {s s' : PmmState} {κ : ℕ → SliceKind} {lists : PmmList → List ℕ} {hw : HardwareInfo}
  {start n k N r b : ℕ} {B B' : ℕ → ℕ} {R : ℕ → Bool}

/-! ### Layouts that agree

The layout says for every bucket which slice has its records, also for buckets
that have none yet.  These lemmas let the choice be made when the bucket is
opened. -/

/-- The lists do not depend on records they do not reach. -/
theorem Linked.extend {record record' : ℕ → ℕ} {n' : ℕ} (h : Linked record n s lists)
    (hr : RecordsApart record' n') (hle : n ≤ n') (heq : ∀ i < n, record' i = record i) :
    Linked record' n' s lists where
  apart := hr
  lt l k hk := lt_of_lt_of_le (h.lt l k hk) hle
  nodup := h.nodup
  disjoint := h.disjoint
  dlist l := by
    have hmap : (lists l).map record' = (lists l).map record :=
      List.map_congr_left fun i hi => heq i (h.lt l i hi)
    rw [hmap]
    exact h.dlist l

/-- A new choice of bucket slice for buckets without records changes nothing,
since a record is found through the choice for its own bucket. -/
theorem PmmTables.congr_buckets (h : PmmTables ⟨start, n, B⟩ s κ)
    (hB : ∀ i < n, B' (i / sliceinfoPerSlice) = B (i / sliceinfoPerSlice)) (h0 : B' 0 = 0) :
    PmmTables ⟨start, n, B'⟩ s κ := by
  have hrec : ∀ i < n, Layout.record ⟨start, n, B'⟩ i = Layout.record ⟨start, n, B⟩ i := by
    intro i hi
    show Layout.addr ⟨start, n, B'⟩ (B' (i / sliceinfoPerSlice)) + _ = _
    rw [hB i hi]
    rfl
  have hlayout : Layout.WellFormed ⟨start, n, B'⟩ :=
    { aligned := h.layout.aligned
      bounded := h.layout.bounded
      bucketSlice_lt := fun i hi => by
        show B' _ < n
        rw [hB i hi]
        exact h.layout.bucketSlice_lt i hi
      bucketSlice_inj := fun i hi j hj heq => by
        replace heq : B' (i / sliceinfoPerSlice) = B' (j / sliceinfoPerSlice) := heq
        rw [hB i hi, hB j hj] at heq
        exact h.layout.bucketSlice_inj i hi j hj heq }
  obtain ⟨lists, hl⟩ := h.lists
  exact {
    layout := hlayout
    start_eq := h.start_eq
    lists := ⟨lists, hl.linked.extend hlayout.recordsApart (le_refl n) hrec,
      fun l i hi => by rw [hrec i hi]; exact hl.mem_iff l i hi⟩
    slice_eq := fun i hi => by rw [hrec i hi]; exact h.slice_eq i hi
    mask_eq := fun i hi hne => by rw [hrec i hi]; exact h.mask_eq i hi hne
    reserved_eq := fun i hi => by rw [hrec i hi]; exact h.reserved_eq i hi
    type_eq := fun i hi => by rw [hrec i hi]; exact h.type_eq i hi
    type_slots := fun i hi t f heq => by rw [hrec i hi]; exact h.type_slots i hi t f heq
    valid := h.valid
    bucketSlice_kind := fun i hi => by
      show κ (B' _) = _
      rw [hB i hi]
      exact h.bucketSlice_kind i hi
    bucket_first := h0 }

/-! ### One slice gets its record

The main step of the induction: after `indexSlice` the tables represent the
kinds of one slice more.  The record is in memory that was zero, so that its
mask and its bits are known. -/

/-- The memory `indexSlice` leaves before it pushes the record. -/
def indexedMem (m : ByteMemory) (reserved : Bool) (sliceinfo i : ℕ) : ByteMemory :=
  if reserved then setReserved (setInfo m sliceinfo .slice i) sliceinfo
  else setInfo m sliceinfo .slice i

/-- The kind `pmm_init` gives a slice at first. -/
def firstKind (reserved : Bool) : SliceKind := if reserved then .reserved else .unused

theorem indexSlice_eq (hw : HardwareInfo) (s : PmmState) (sliceinfo i : ℕ) :
    indexSlice hw s sliceinfo i =
      pushToLl (s.withMem (indexedMem s.mem (addressInReservedRegion hw i) sliceinfo i))
        (firstKind (addressInReservedRegion hw i)).home sliceinfo := by
  unfold indexSlice indexedMem firstKind
  cases addressInReservedRegion hw i <;> rfl

theorem indexedMem_other {m : ByteMemory} {reserved : Bool} {q q' i : ℕ} {f : Field}
    (h : Apart q q') (hne : q' ≠ q ∨ f = .next ∨ f = .prev) :
    info (indexedMem m reserved q i) q' f = info m q' f := by
  have hslice : info (setInfo m q .slice i) q' f = info m q' f := by
    rw [info_setInfo h, if_neg]
    rintro ⟨rfl, rfl⟩
    simp at hne
  unfold indexedMem
  cases reserved with
  | false => exact hslice
  | true =>
      refine Eq.trans ?_ hslice
      refine (entryFrame_setInfo _ q _).other q' f h ?_
      rcases hne with hne | rfl | rfl
      · exact Or.inl hne
      · exact Or.inr (by decide)
      · exact Or.inr (by decide)

theorem indexedMem_slice (m : ByteMemory) (reserved : Bool) {q i : ℕ} (hi : i < 2 ^ 32) :
    info (indexedMem m reserved q i) q .slice = i := by
  have hslice : info (setInfo m q .slice i) q .slice = i := by
    rw [info_setInfo (Or.inl rfl), if_pos ⟨rfl, rfl⟩, Nat.mod_eq_of_lt hi]
  unfold indexedMem
  cases reserved with
  | false => exact hslice
  | true =>
      exact ((entryFrame_setInfo _ q _).other q .slice (Or.inl rfl) (Or.inr (by decide))).trans
        hslice

theorem indexedMem_reserved {m : ByteMemory} {q i : ℕ} (reserved : Bool) :
    infoReserved (indexedMem m reserved q i) q = if reserved then 1 else infoReserved m q := by
  unfold indexedMem
  cases reserved with
  | false =>
      show info (setInfo m q .slice i) q .entry / 1024 % 2 = info m q .entry / 1024 % 2
      rw [info_setInfo (Or.inl rfl), if_neg (by simp)]
  | true => exact infoReserved_setReserved_self _ q

theorem indexedMem_type {m : ByteMemory} {q i : ℕ} (reserved : Bool)
    (h0 : info m q .entry = 0) : infoType (indexedMem m reserved q i) q = 0 := by
  have hslice : infoType (setInfo m q .slice i) q = 0 := by
    unfold infoType
    rw [info_setInfo (Or.inl rfl), if_neg (by simp), h0]
  unfold indexedMem
  cases reserved with
  | false => exact hslice
  | true => exact (infoType_setReserved_self _ q).trans hslice

theorem indexedMem_filled {m : ByteMemory} {q i : ℕ} (reserved : Bool)
    (h0 : info m q .entry = 0) : infoFilled (indexedMem m reserved q i) q = 0 := by
  have hslice : infoFilled (setInfo m q .slice i) q = 0 := by
    unfold infoFilled
    rw [info_setInfo (Or.inl rfl), if_neg (by simp), h0]
    rfl
  unfold indexedMem
  cases reserved with
  | false => exact hslice
  | true => exact (infoFilled_setReserved_self _ q).trans hslice

theorem indexedMem_outside {m : ByteMemory} {reserved : Bool} {q i x : ℕ}
    (h : x < q ∨ q + 16 ≤ x) : indexedMem m reserved q i x = m x := by
  unfold indexedMem
  cases reserved with
  | false => exact setInfo_apply_of_notMem h
  | true =>
      exact ((entryFrame_setInfo _ q _).outside x h).trans (setInfo_apply_of_notMem h)

/-- **One slice gets its record.**  The managed range grows by slice `n`,
whose record lies in zeroed memory. -/
theorem PmmTables.index (h : PmmTables ⟨start, n, B⟩ s κ) (hn : 1 ≤ n)
    (hL : Layout.WellFormed ⟨start, n + 1, B⟩)
    (hzero : ∀ f, info s.mem (Layout.record ⟨start, n, B⟩ n) f = 0)
    (hkind : κ n = firstKind (addressInReservedRegion hw (start + sliceSize * n)))
    (hbucket : κ (B (n / sliceinfoPerSlice)) = .bucketInfo) :
    PmmTables ⟨start, n + 1, B⟩
        (indexSlice hw s (Layout.record ⟨start, n, B⟩ n) (start + sliceSize * n)) κ ∧
      ∀ x, (∀ i < n + 1, x < Layout.record ⟨start, n, B⟩ i ∨
          Layout.record ⟨start, n, B⟩ i + 16 ≤ x) →
        (indexSlice hw s (Layout.record ⟨start, n, B⟩ n) (start + sliceSize * n)).mem x =
          s.mem x := by
  rw [indexSlice_eq]
  generalize hres : addressInReservedRegion hw (start + sliceSize * n) = reserved at hkind ⊢
  have hr : RecordsApart (Layout.record ⟨start, n, B⟩) (n + 1) := hL.recordsApart
  generalize hrec : Layout.record ⟨start, n, B⟩ = record at hzero hr ⊢
  have hrec' : Layout.record ⟨start, n + 1, B⟩ = record := hrec
  have haddr : start + sliceSize * n < 2 ^ 32 := by
    have := hL.addr_lt (Nat.lt_succ_self n)
    unfold Layout.addr at this
    dsimp only at this
    omega
  obtain ⟨lists, hl⟩ := h.lists
  -- the lists with the record filled in but not yet pushed
  have hlinked : Linked record (n + 1)
      (s.withMem (indexedMem s.mem reserved (record n) (start + sliceSize * n))) lists := by
    have hext : Linked record (n + 1) s lists :=
      (hrec ▸ hl.linked).extend hr (Nat.le_succ n) fun _ _ => rfl
    exact hext.of_info_eq (PmmState.head_withMem s _)
      (fun i hi => indexedMem_other (hr.apart (Nat.lt_succ_self n) hi) (Or.inr (Or.inl rfl)))
      (fun i hi => indexedMem_other (hr.apart (Nat.lt_succ_self n) hi) (Or.inr (Or.inr rfl)))
  have hnew : ∀ l, n ∉ lists l := fun l hmem => lt_irrefl n (hl.linked.lt l n hmem)
  have hrec0 : record n ≠ 0 := by
    intro h0
    have hne := hr.disjoint n (Nat.lt_succ_self n) 0 (by omega) (by omega)
    have hfirst : record 0 = start := by
      have hB0 : B 0 = 0 := h.bucket_first
      rw [← hrec]
      show start + sliceSize * B 0 + _ = start
      rw [hB0]
      rfl
    have hge : start ≤ record n := by
      rw [← hrec]
      exact Nat.le_trans (Nat.le_add_right start _) (Nat.le_add_right _ _)
    omega
  have hprev : info (indexedMem s.mem reserved (record n) (start + sliceSize * n)) (record n)
      .prev = 0 := by
    rw [indexedMem_other (Or.inl rfl) (Or.inr (Or.inr rfl)), hzero]
  have hpush : Linked record (n + 1) (pushToLl _ (firstKind reserved).home (record n)) _ :=
    hlinked.push (Nat.lt_succ_self n) hnew hrec0 hprev
  have hframe := hlinked.push_frame (l := (firstKind reserved).home) (Nat.lt_succ_self n)
  have hne : ∀ i < n, record i ≠ record n := fun i hi heq => by
    have := (hr.inj (Nat.lt_succ_of_lt hi) (Nat.lt_succ_self n)).mp heq
    omega
  have hother : ∀ i < n, ∀ f, info (indexedMem s.mem reserved (record n) (start + sliceSize * n))
      (record i) f = info s.mem (record i) f := fun i hi f =>
    indexedMem_other (hr.apart (Nat.lt_succ_self n) (Nat.lt_succ_of_lt hi)) (Or.inl (hne i hi))
  refine ⟨?_, fun x hx => ?_⟩
  · constructor
    · exact hL
    · exact (pushToLl_start _ _ _).trans h.start_eq
    · refine ⟨Function.update lists (firstKind reserved).home
        (n :: lists (firstKind reserved).home), by rw [hrec']; exact hpush, fun l i hi => ?_⟩
      rw [hrec']
      rcases Nat.lt_succ_iff_lt_or_eq.mp hi with hi | rfl
      · have hin : i ≠ n := by omega
        have hmem : i ∈ lists l ↔ (κ i).home = l ∧ record i ≠ 0 := by
          rw [← hrec]
          exact hl.mem_iff l i hi
        rw [← hmem]
        by_cases hlk : l = (firstKind reserved).home
        · subst hlk
          simp [hin]
        · rw [Function.update_of_ne hlk]
      · by_cases hlk : l = (firstKind reserved).home
        · subst hlk
          simp [hkind, hrec0]
        · rw [Function.update_of_ne hlk, hkind]
          exact ⟨fun hmem => absurd hmem (hnew l), fun heq => absurd heq.1.symm hlk⟩
    · intro i hi
      rw [hrec', hframe.slice i hi]
      rcases Nat.lt_succ_iff_lt_or_eq.mp hi with hi | rfl
      · rw [PmmState.withMem_mem, hother i hi, ← hrec]
        exact h.slice_eq i hi
      · exact indexedMem_slice s.mem reserved haddr
    · intro i hi hne
      rw [hrec', hframe.filled hi]
      rcases Nat.lt_succ_iff_lt_or_eq.mp hi with hi | rfl
      · rw [← h.mask_eq i hi hne, hrec]
        unfold infoFilled
        rw [PmmState.withMem_mem, hother i hi]
      · rw [PmmState.withMem_mem, indexedMem_filled reserved (hzero _), hkind]
        cases reserved <;> rfl
    · intro i hi
      rw [hrec', hframe.reserved hi]
      rcases Nat.lt_succ_iff_lt_or_eq.mp hi with hi | rfl
      · rw [← h.reserved_eq i hi, hrec]
        unfold infoReserved
        rw [PmmState.withMem_mem, hother i hi]
      · have hentry : infoReserved s.mem (record i) = 0 := by
          unfold infoReserved
          rw [hzero]
        rw [PmmState.withMem_mem, indexedMem_reserved, hentry, hkind]
        cases reserved <;> simp [firstKind]
    · intro i hi
      rw [hrec', hframe.type hi]
      rcases Nat.lt_succ_iff_lt_or_eq.mp hi with hi | rfl
      · rw [← h.type_eq i hi, hrec]
        unfold infoType
        rw [PmmState.withMem_mem, hother i hi]
      · rw [PmmState.withMem_mem, indexedMem_type reserved (hzero _), hkind]
        cases reserved <;> simp [firstKind, MemoryType.code]
    · intro i hi t f heq
      rw [hrec', hframe.type hi]
      rcases Nat.lt_succ_iff_lt_or_eq.mp hi with hi | rfl
      · rw [← h.type_slots i hi t f heq, hrec]
        unfold infoType
        rw [PmmState.withMem_mem, hother i hi]
      · rw [hkind] at heq
        cases reserved <;> cases heq
    · intro i hi t f heq
      rcases Nat.lt_succ_iff_lt_or_eq.mp hi with hi | rfl
      · exact h.valid i hi t f heq
      · rw [hkind] at heq
        cases reserved <;> cases heq
    · intro i hi
      rcases Nat.lt_succ_iff_lt_or_eq.mp hi with hi | rfl
      · exact h.bucketSlice_kind i hi
      · exact hbucket
    · exact h.bucket_first
  · rw [hframe.outside x hx]
    exact indexedMem_outside (hx n (Nat.lt_succ_self n))

/-! ### Buckets

A record that fills its bucket is followed by `pmm_new_sliceinfo_slice`, which
takes the head of the unused list.  That is the slice indexed last, unless it
is reserved; and there is one at all as long as not too many are reserved. -/

/-- The kinds once buckets `0, …, b` have their slices: the slices in `R` are
reserved, and the others are unused until a bucket takes them. -/
def initKind (R : ℕ → Bool) (B : ℕ → ℕ) (b k : ℕ) : SliceKind :=
  if R k then .reserved else if ∃ b' < b + 1, B b' = k then .bucketInfo else .unused

/-- The slices that are unused so far: those not reserved that have not become
the slice of records of a bucket. -/
theorem initKind_eq_unused :
    initKind R B b k = .unused ↔ R k = false ∧ ∀ b' ≤ b, B b' ≠ k := by
  unfold initKind
  cases hr : R k with
  | true =>
      rw [if_pos rfl]
      constructor
      · intro h
        cases h
      · intro h
        exact absurd h.1 (by decide)
  | false =>
      rw [if_neg Bool.false_ne_true]
      by_cases hb : ∃ b' < b + 1, B b' = k
      · rw [if_pos hb]
        obtain ⟨b', hlt, heq⟩ := hb
        constructor
        · intro h
          cases h
        · intro h
          exact absurd heq (h.2 b' (Nat.le_of_lt_succ hlt))
      · rw [if_neg hb]
        constructor
        · intro _
          exact ⟨rfl, fun b' hle heq => hb ⟨b', Nat.lt_succ_of_le hle, heq⟩⟩
        · intro _
          rfl

theorem initKind_bucket (hb : k ≤ b) (hr : R (B k) = false) :
    initKind R B b (B k) = .bucketInfo := by
  unfold initKind
  rw [hr, if_neg Bool.false_ne_true, if_pos ⟨k, Nat.lt_succ_of_le hb, rfl⟩]

theorem initKind_reserved : initKind R B b k = .reserved ↔ R k = true := by
  unfold initKind
  cases R k with
  | true => exact iff_of_true (if_pos rfl) rfl
  | false =>
      rw [if_neg Bool.false_ne_true]
      refine iff_of_false ?_ Bool.false_ne_true
      split <;> exact SliceKind.noConfusion

/-- Giving bucket `b + 1` the unused slice `k`: the kinds are then those of
the new choice of slices. -/
theorem initKind_update (hk : initKind R B b k = .unused) :
    Function.update (initKind R B b) k .bucketInfo =
      initKind R (Function.update B (b + 1) k) (b + 1) := by
  obtain ⟨hkr, hfree⟩ := initKind_eq_unused.mp hk
  funext j
  by_cases hj : j = k
  · subst hj
    rw [Function.update_self]
    have := initKind_bucket (R := R) (B := Function.update B (b + 1) j) (le_refl (b + 1))
      (by simpa using hkr)
    rw [Function.update_self] at this
    exact this.symm
  · rw [Function.update_of_ne hj]
    unfold initKind
    have hiff : (∃ b' < b + 1 + 1, Function.update B (b + 1) k b' = j) ↔
        ∃ b' < b + 1, B b' = j := by
      constructor
      · rintro ⟨b', hlt, heq⟩
        by_cases hb' : b' = b + 1
        · subst hb'
          exact absurd (by simpa using heq) (Ne.symm hj)
        · rw [Function.update_of_ne hb'] at heq
          exact ⟨b', by omega, heq⟩
      · rintro ⟨b', hlt, heq⟩
        exact ⟨b', by omega, by rw [Function.update_of_ne (by omega), heq]⟩
    simp only [hiff]

/-- Slices that are not reserved suffice for the buckets: whenever a bucket is
full there are more of them than buckets so far. -/
def Supplied (R : ℕ → Bool) (N : ℕ) : Prop :=
  ∀ b, sliceinfoPerSlice * (b + 1) ≤ N →
    b + 1 < ((Finset.range (sliceinfoPerSlice * (b + 1))).filter fun k => R k = false).card

/-- **A slice is unused at a bucket switch.** -/
theorem exists_initKind_unused (hsup : Supplied R N) (hn : n = sliceinfoPerSlice * (b + 1))
    (hnN : n ≤ N) : ∃ k < n, initKind R B b k = .unused := by
  subst hn
  have hcard : ((Finset.range (b + 1)).image B).card <
      ((Finset.range (sliceinfoPerSlice * (b + 1))).filter fun k => R k = false).card := by
    refine lt_of_le_of_lt Finset.card_image_le ?_
    rw [Finset.card_range]
    exact hsup b hnN
  obtain ⟨k, hk, hfree⟩ := Finset.exists_mem_notMem_of_card_lt_card hcard
  rw [Finset.mem_filter, Finset.mem_range] at hk
  refine ⟨k, hk.1, initKind_eq_unused.mpr ⟨hk.2, fun b' hb' heq => hfree ?_⟩⟩
  exact Finset.mem_image.mpr ⟨b', Finset.mem_range.mpr (Nat.lt_succ_of_le hb'), heq⟩

/-- A range of `N` slices from the slice-aligned address `start`.  The loop
counter starts at `start + sliceSize`, which must not wrap around: this only
says something about an empty range. -/
structure SliceRange (start N : ℕ) : Prop where
  aligned : start % sliceSize = 0
  first_lt : start + sliceSize < 2 ^ 32
  bounded : start + sliceSize * N < 2 ^ 32

/-- The slices `pmm_init` marks as reserved: not the first, whose record it
makes without asking. -/
def marked (hw : HardwareInfo) (start k : ℕ) : Bool :=
  decide (k ≠ 0) && addressInReservedRegion hw (start + sliceSize * k)

theorem marked_of_pos (hk : 1 ≤ k) :
    marked hw start k = addressInReservedRegion hw (start + sliceSize * k) := by
  unfold marked
  rw [decide_eq_true (Nat.one_le_iff_ne_zero.mp hk), Bool.true_and]

/-- A range `pmm_init` can manage: `N` slices from the slice-aligned address
`start`, of which those from slice `r` on are reserved, at most half of all.
The loop counter starts at `start + sliceSize`, which must not wrap around:
this only says something about an empty range. -/
structure ManagedRange (hw : HardwareInfo) (start N r : ℕ) : Prop where
  aligned : start % sliceSize = 0
  first_lt : start + sliceSize < 2 ^ 32
  bounded : start + sliceSize * N < 2 ^ 32
  reserved : ∀ k < N, addressInReservedRegion hw (start + sliceSize * k) = decide (r ≤ k)
  half : 2 * (N - r) ≤ N

namespace ManagedRange

theorem sliceRange (hR : ManagedRange hw start N r) : SliceRange start N :=
  ⟨hR.aligned, hR.first_lt, hR.bounded⟩

theorem marked_eq (hR : ManagedRange hw start N r) (hk : k < N) :
    marked hw start k = decide (r ≤ k) := by
  have hhalf := hR.half
  unfold marked
  rw [hR.reserved k hk]
  by_cases hk0 : k = 0
  · subst hk0
    rw [decide_eq_false (by omega : ¬r ≤ 0)]
    rfl
  · rw [decide_eq_true hk0, Bool.true_and]

/-- At most half reserved, there are slices for all buckets. -/
theorem supplied (hR : ManagedRange hw start N r) : Supplied (marked hw start) N := by
  intro b hb
  have hhalf := hR.half
  have hsub : Finset.range (min (sliceinfoPerSlice * (b + 1)) r) ⊆
      (Finset.range (sliceinfoPerSlice * (b + 1))).filter fun k => marked hw start k = false := by
    intro k hk
    rw [Finset.mem_range, lt_min_iff] at hk
    rw [Finset.mem_filter, Finset.mem_range, hR.marked_eq (hk.1.trans_le hb)]
    exact ⟨hk.1, decide_eq_false (not_le.mpr hk.2)⟩
  refine lt_of_lt_of_le ?_ (Finset.card_le_card hsub)
  rw [Finset.card_range]
  unfold sliceinfoPerSlice at *
  omega

end ManagedRange

/-- What holds after `n` of the `N` slices have their records, and buckets `0,
…, b` their slices, when the slices in `R` are reserved. -/
structure InitInv (start N : ℕ) (R : ℕ → Bool) (n b : ℕ) (B : ℕ → ℕ) (s : PmmState) : Prop where
  inv : PmmTables ⟨start, n, B⟩ s (initKind R B b)
  pos : 1 ≤ n
  slices_le : n ≤ sliceinfoPerSlice * (b + 1)
  le_slices : sliceinfoPerSlice * b ≤ n
  bucket_below : ∀ b' ≤ b, B b' < max 1 (sliceinfoPerSlice * b')
  bucket_usable : ∀ b' ≤ b, R (B b') = false
  bucket_inj : ∀ b' ≤ b, ∀ b'' ≤ b, B b' = B b'' → b' = b''
  bucket_before : ∀ b' ≤ b, b' ≠ 0 → R (sliceinfoPerSlice * b' - 1) = false →
    B b' + 1 = sliceinfoPerSlice * b'
  /-- Nothing but records has been written. -/
  zero : ∀ x, start ≤ x → x < start + sliceSize * N →
    (∀ i < n, x < Layout.record ⟨start, n, B⟩ i ∨ Layout.record ⟨start, n, B⟩ i + 16 ≤ x) →
    s.mem x = 0
  endAddress_eq : s.manager.endAddress = start + sliceSize * N

/-- One round of the loop of `pmm_init`, with its record where `Layout` has
it.  The two cases are a bucket that is full then, and one that is not. -/
theorem pmmInitLoop_index {fuel : ℕ} (hS : SliceRange start N) (hn : n < N)
    (hend : s.manager.endAddress = start + sliceSize * N) (hb : n / sliceinfoPerSlice = b) :
    pmmInitLoop hw (fuel + 1) (start + sliceSize * n) (n % sliceinfoPerSlice)
        (start + sliceSize * B b) s =
      if sliceinfoPerSlice ≤ n % sliceinfoPerSlice + 1 then do
        let (s, bucket) ← pmmNewSliceinfoSlice
          (indexSlice hw s (Layout.record ⟨start, n, B⟩ n) (start + sliceSize * n))
        pmmInitLoop hw fuel (start + sliceSize * (n + 1)) 0 (info s.mem bucket .slice) s
      else
        pmmInitLoop hw fuel (start + sliceSize * (n + 1)) (n % sliceinfoPerSlice + 1)
          (start + sliceSize * B b)
          (indexSlice hw s (Layout.record ⟨start, n, B⟩ n) (start + sliceSize * n)) := by
  have hlt : sliceSize * n < sliceSize * N := by
    unfold sliceSize
    omega
  have hnext : (start + sliceSize * n + sliceSize) % 2 ^ 32 = start + sliceSize * (n + 1) := by
    have hbounded := hS.bounded
    have : sliceSize * (n + 1) ≤ sliceSize * N := Nat.mul_le_mul_left sliceSize hn
    rw [Nat.mul_succ] at this ⊢
    rw [← Nat.add_assoc]
    exact Nat.mod_eq_of_lt (by omega)
  have hrecord : start + sliceSize * B b + sliceInfoSize * (n % sliceinfoPerSlice) =
      Layout.record ⟨start, n, B⟩ n := by
    show _ = start + sliceSize * B (n / sliceinfoPerSlice) + _
    rw [hb]
  rw [pmmInitLoop, if_pos (by rw [hend]; omega), hnext, hrecord]

/-- Without an unused slice `pmm_new_sliceinfo_slice` dereferences null. -/
theorem pmmNewSliceinfoSlice_none (hhead : s.head .unused = 0) :
    pmmNewSliceinfoSlice s = .error .nullDereference := by
  unfold pmmNewSliceinfoSlice popFromLl
  rw [hhead]
  rfl

namespace InitInv

theorem bucket_lt (h : InitInv start N R n b B s) {b' : ℕ} (hb : b' ≤ b) : B b' < n := by
  have hpos := h.pos
  have hle := h.le_slices
  have hbelow := h.bucket_below b' hb
  have hmono : sliceinfoPerSlice * b' ≤ sliceinfoPerSlice * b := Nat.mul_le_mul_left _ hb
  omega

theorem div_le (h : InitInv start N R n b B s) {i : ℕ} (hi : i < n) :
    i / sliceinfoPerSlice ≤ b := by
  have := h.slices_le
  unfold sliceinfoPerSlice at *
  omega

/-- **`pmm_new_sliceinfo_slice`** gives the next bucket a slice: the one
pushed last, unless that slice is reserved. -/
theorem newBucket (h : InitInv start N R n b B s) (hn : n = sliceinfoPerSlice * (b + 1))
    (hex : ∃ k < n, initKind R B b k = .unused)
    (hlast : R (n - 1) = false → s.head .unused = Layout.record ⟨start, n, B⟩ (n - 1)) :
    ∃ s' k, pmmNewSliceinfoSlice s = .ok (s', Layout.record ⟨start, n, B⟩ k) ∧
      info s'.mem (Layout.record ⟨start, n, B⟩ k) .slice = start + sliceSize * k ∧
      InitInv start N R n (b + 1) (Function.update B (b + 1) k) s' := by
  have hinv := h.inv
  have hL := hinv.layout
  obtain ⟨lists, hl⟩ := hinv.lists
  have hne : s.head .unused ≠ 0 :=
    hinv.unused_ne_zero_iff.mpr hex
  obtain ⟨k, hk, hhome, hhead⟩ := hl.head hne
  have hkn : k < n := hk
  have hkind := SliceKind.eq_unused_of_home hhome
  obtain ⟨hkr, hfree⟩ := initKind_eq_unused.mp hkind
  obtain ⟨s₁, hpop, hlinked, hprev, hframe, hstart, hend⟩ := hl.pop hk hne hhead
  have hentry := (entryFrame_setType s₁.mem (Layout.record ⟨start, n, B⟩ k) .bucketInfo).trans
    (entryFrame_setFilled _ _ 0)
  have hframe₁ := (RecordFrame.of_links hk hframe).trans
    ((RecordFrame.setType hL hk .bucketInfo).trans (RecordFrame.setFilled hL hk 0))
  obtain ⟨hinv', hframe', -⟩ := hinv.relink .bucketInfo hl hk (by rw [hkind]; trivial) trivial
    (hlinked.of_entryFrame hk hentry)
    (by rw [← hprev]; exact hentry.other _ _ (Or.inl rfl) (Or.inr (by decide)))
    hframe₁ hstart (fun hne => absurd rfl hne)
    (by
      rw [PmmState.withMem_mem, infoType_setFilled_self, infoType_setType_self]
      exact iff_of_true rfl rfl)
    (by rintro t f ⟨⟩)
  have hB : ∀ i < n, Function.update B (b + 1) k (i / sliceinfoPerSlice) =
      B (i / sliceinfoPerSlice) := by
    intro i hi
    have := h.div_le hi
    exact Function.update_of_ne (by omega) _ _
  have hB' : ∀ b' ≤ b, Function.update B (b + 1) k b' = B b' := fun b' hb' =>
    Function.update_of_ne (by omega) _ _
  have hslice := hinv'.slice_eq k hk
  rw [initKind_update hkind] at hinv'
  have hcases : ∀ b' ≤ b + 1, b' ≤ b ∨ b' = b + 1 := fun b' hb' => by omega
  refine ⟨_, k, ?_, hslice, ?_⟩
  · unfold pmmNewSliceinfoSlice
    rw [hpop]
    rfl
  · refine ⟨hinv'.congr_buckets hB ?_, h.pos, ?_, ?_, ?_, ?_, ?_, ?_, ?_, ?_⟩
    · rw [hB' 0 (Nat.zero_le b)]
      exact hinv.bucket_first
    · unfold sliceinfoPerSlice at *
      omega
    · unfold sliceinfoPerSlice at *
      omega
    · intro b' hb'
      rcases hcases b' hb' with hb' | rfl
      · rw [hB' b' hb']
        exact h.bucket_below b' hb'
      · rw [Function.update_self]
        exact lt_max_of_lt_right (hn ▸ hkn)
    · intro b' hb'
      rcases hcases b' hb' with hb' | rfl
      · rw [hB' b' hb']
        exact h.bucket_usable b' hb'
      · rw [Function.update_self]
        exact hkr
    · intro b' hb' b'' hb'' heq
      rcases hcases b' hb' with hb' | rfl <;> rcases hcases b'' hb'' with hb'' | rfl
      · rw [hB' b' hb', hB' b'' hb''] at heq
        exact h.bucket_inj b' hb' b'' hb'' heq
      · rw [hB' b' hb', Function.update_self] at heq
        exact absurd heq (hfree b' hb')
      · rw [hB' b'' hb'', Function.update_self] at heq
        exact absurd heq.symm (hfree b'' hb'')
      · rfl
    · intro b' hb' hne0 hle
      rcases hcases b' hb' with hb' | rfl
      · rw [hB' b' hb']
        exact h.bucket_before b' hb' hne0 hle
      · rw [Function.update_self]
        have hlast' := hlast (hn ▸ hle)
        rw [hhead] at hlast'
        have hpos := h.pos
        have := (hinv.recordsApart.inj hk (show n - 1 < n by omega)).mp hlast'
        omega
    · intro x hx hx' hout
      have hrec : ∀ i < n, Layout.record ⟨start, n, Function.update B (b + 1) k⟩ i =
          Layout.record ⟨start, n, B⟩ i := by
        intro i hi
        show start + sliceSize * Function.update B (b + 1) k (i / sliceinfoPerSlice) + _ = _
        rw [hB i hi]
        rfl
      have hout' : ∀ i < n, x < Layout.record ⟨start, n, B⟩ i ∨
          Layout.record ⟨start, n, B⟩ i + 16 ≤ x := fun i hi => hrec i hi ▸ hout i hi
      exact (hframe'.outside x hout').trans (h.zero x hx hx' hout')
    · rw [pushToLl_endAddress]
      exact hend.trans h.endAddress_eq

/-- The kind of the slice that gets its record next. -/
theorem initKind_next (h : InitInv start N R n b B s) : initKind R B b n = firstKind (R n) := by
  unfold firstKind
  cases hr : R n with
  | true => exact initKind_reserved.mpr hr
  | false =>
      refine initKind_eq_unused.mpr ⟨hr, fun b' hb' heq => ?_⟩
      have hlt := h.bucket_lt hb'
      omega

/-- The bucket that the next record goes to. -/
theorem div_eq (h : InitInv start N R n b B s) (hb : n < sliceinfoPerSlice * (b + 1)) :
    n / sliceinfoPerSlice = b := by
  have hle := h.le_slices
  unfold sliceinfoPerSlice at *
  omega

/-- One slice gets its record, and is put on the list that it belongs to.  The
record was zero, because the memory was and the records are apart. -/
theorem index (h : InitInv start N R n b B s) (hn : n < sliceinfoPerSlice * (b + 1))
    (hnN : n < N) (hS : SliceRange start N)
    (hR : R n = addressInReservedRegion hw (start + sliceSize * n)) :
    InitInv start N R (n + 1) b B
      (indexSlice hw s (Layout.record ⟨start, n, B⟩ n) (start + sliceSize * n)) := by
  have hpos := h.pos
  have hle := h.le_slices
  have hdiv : n / sliceinfoPerSlice = b := by
    unfold sliceinfoPerSlice at *
    omega
  have hdiv_le : ∀ i < n + 1, i / sliceinfoPerSlice ≤ b := by
    intro i hi
    rw [← hdiv]
    exact Nat.div_le_div_right (Nat.le_of_lt_succ hi)
  have hL : Layout.WellFormed ⟨start, n + 1, B⟩ :=
    { aligned := hS.aligned
      bounded := by
        show start + sliceSize * (n + 1) < 2 ^ 32
        have hend := hS.bounded
        have : sliceSize * (n + 1) ≤ sliceSize * N := Nat.mul_le_mul_left sliceSize hnN
        omega
      bucketSlice_lt := fun i hi => Nat.lt_succ_of_lt (h.bucket_lt (hdiv_le i hi))
      bucketSlice_inj := fun i hi j hj heq =>
        h.bucket_inj _ (hdiv_le i hi) _ (hdiv_le j hj) heq }
  have hzero : ∀ f, info s.mem (Layout.record ⟨start, n, B⟩ n) f = 0 := by
    intro f
    have hf := f.offset_le
    have hbounds := Layout.record_bounds ⟨start, n, B⟩ n
    have hbn : B (n / sliceinfoPerSlice) < n := hdiv ▸ h.bucket_lt (le_refl b)
    have hapart : RecordsApart (Layout.record ⟨start, n, B⟩) (n + 1) := hL.recordsApart
    unfold Layout.addr sliceSize at hbounds
    dsimp only at hbounds
    refine readWord_eq_zero fun x hx hx' => h.zero x (by omega) ?_ fun i hi => ?_
    · unfold sliceSize
      omega
    · have := hapart.disjoint i (Nat.lt_succ_of_lt hi) n (Nat.lt_succ_self n) (by omega)
      omega
  have hkind : initKind R B b n =
      firstKind (addressInReservedRegion hw (start + sliceSize * n)) := hR ▸ h.initKind_next
  obtain ⟨hinv, hframe⟩ := h.inv.index hpos hL hzero hkind
    (by rw [hdiv]; exact initKind_bucket (le_refl b) (h.bucket_usable b (le_refl b)))
  refine ⟨hinv, Nat.le_succ_of_le hpos, hn, Nat.le_succ_of_le hle,
    h.bucket_below, h.bucket_usable, h.bucket_inj, h.bucket_before, fun x hx hx' hout => ?_, ?_⟩
  · rw [hframe x hout]
    exact h.zero x hx hx' fun i hi => hout i (Nat.lt_succ_of_lt hi)
  · rw [indexSlice_eq, pushToLl_endAddress]
    exact h.endAddress_eq

/-- No unused slice is left. -/
theorem head_unused (h : InitInv start N R n b B s)
    (hno : ¬∃ k < n, initKind R B b k = .unused) : s.head .unused = 0 := by
  by_contra hne
  exact hno (h.inv.unused_ne_zero_iff.mp hne)

/-- The buckets have slices of their own, so there were enough. -/
theorem supplied (h : InitInv start N R N b B s) (hb : N < sliceinfoPerSlice * (b + 1)) :
    Supplied R N := by
  intro c hc
  have hcb : c + 1 ≤ b := by
    unfold sliceinfoPerSlice at *
    omega
  have hcard : ((Finset.range (c + 2)).image B).card = c + 2 := by
    rw [Finset.card_image_of_injOn, Finset.card_range]
    intro i hi j hj heq
    rw [Finset.coe_range, Set.mem_Iio] at hi hj
    exact h.bucket_inj i (by omega) j (by omega) heq
  refine lt_of_lt_of_le (by omega : c + 1 < c + 2) (hcard ▸ Finset.card_le_card ?_)
  intro k hk
  obtain ⟨i, hi, rfl⟩ := Finset.mem_image.mp hk
  rw [Finset.mem_range] at hi
  have hbelow := h.bucket_below i (by omega)
  rw [Finset.mem_filter, Finset.mem_range]
  refine ⟨?_, h.bucket_usable i (by omega)⟩
  unfold sliceinfoPerSlice at *
  omega

/-- The record that fills a bucket. -/
theorem full_bucket (hdiv : n / sliceinfoPerSlice = b)
    (hswitch : sliceinfoPerSlice ≤ n % sliceinfoPerSlice + 1) :
    n + 1 = sliceinfoPerSlice * (b + 1) := by
  have hmod := Nat.div_add_mod n sliceinfoPerSlice
  rw [hdiv] at hmod
  unfold sliceinfoPerSlice at *
  omega

/-- A slice that is not reserved comes to the front of the unused ones, so
that the next bucket is the last one indexed. -/
theorem head_unused_indexSlice
    (hR : R n = addressInReservedRegion hw (start + sliceSize * n)) (hr : R (n + 1 - 1) = false) :
    (indexSlice hw s (Layout.record ⟨start, n, B⟩ n) (start + sliceSize * n)).head .unused =
      Layout.record ⟨start, n + 1, B⟩ (n + 1 - 1) := by
  rw [Nat.add_sub_cancel] at hr
  rw [indexSlice_eq, pushToLl_head, ← hR, hr]
  rfl

/-- **The loop of `pmm_init`** ends with every slice recorded, or at a bucket
for which no slice is left.  The induction is on the number of slices left. -/
theorem loop (hS : SliceRange start N)
    (hR : ∀ n, 1 ≤ n → n < N → R n = addressInReservedRegion hw (start + sliceSize * n)) :
    ∀ (d fuel n b : ℕ) (B : ℕ → ℕ) (s : PmmState),
    n + d = N → d < fuel → n < sliceinfoPerSlice * (b + 1) → InitInv start N R n b B s →
    (∃ s' b' B', pmmInitLoop hw fuel (start + sliceSize * n) (n % sliceinfoPerSlice)
      (start + sliceSize * B b) s = .ok s' ∧ InitInv start N R N b' B' s' ∧
      N < sliceinfoPerSlice * (b' + 1)) ∨
    (pmmInitLoop hw fuel (start + sliceSize * n) (n % sliceinfoPerSlice)
      (start + sliceSize * B b) s = .error .nullDereference ∧ ¬Supplied R N) := by
  intro d
  induction d with
  | zero =>
      intro fuel n b B s hN hfuel hb h
      obtain ⟨fuel, rfl⟩ : ∃ f, fuel = f + 1 := ⟨fuel - 1, by omega⟩
      obtain rfl : n = N := hN
      refine .inl ⟨s, b, B, ?_, h, hb⟩
      unfold pmmInitLoop
      rw [if_neg (by rw [h.endAddress_eq]; exact lt_irrefl _)]
  | succ d ih =>
      intro fuel n b B s hN hfuel hb h
      obtain ⟨fuel, rfl⟩ : ∃ f, fuel = f + 1 := ⟨fuel - 1, by omega⟩
      have hnN : n < N := by omega
      have hdiv := h.div_eq hb
      have hindexed := h.index hb hnN hS (hR n h.pos hnN)
      rw [pmmInitLoop_index hS hnN h.endAddress_eq hdiv]
      by_cases hswitch : sliceinfoPerSlice ≤ n % sliceinfoPerSlice + 1
      · -- the bucket is full
        have hn := full_bucket hdiv hswitch
        rw [if_pos hswitch]
        by_cases hex : ∃ k < n + 1, initKind R B b k = .unused
        · obtain ⟨s', k, hnew, hslice, hinv⟩ :=
            hindexed.newBucket hn hex (head_unused_indexSlice (hR n h.pos hnN))
          have hzero : 0 = (n + 1) % sliceinfoPerSlice := by
            rw [hn, Nat.mul_mod_right]
          have hcur : start + sliceSize * k =
              start + sliceSize * Function.update B (b + 1) k (b + 1) := by
            rw [Function.update_self]
          have hrest := ih fuel (n + 1) (b + 1) _ s' (by omega) (by omega)
            (by unfold sliceinfoPerSlice at *; omega) hinv
          rw [hnew, Exec.ok_bind]
          dsimp only
          rw [hslice, hzero, hcur]
          exact hrest
        · refine .inr ⟨?_, fun hsup => hex (exists_initKind_unused hsup hn hnN)⟩
          rw [pmmNewSliceinfoSlice_none (hindexed.head_unused hex)]
          rfl
      · have hmod : (n + 1) % sliceinfoPerSlice = n % sliceinfoPerSlice + 1 := by
          unfold sliceinfoPerSlice at *
          omega
        have hrest := ih fuel (n + 1) b B _ (by omega) (by omega)
          (by unfold sliceinfoPerSlice at *; omega) hindexed
        rw [if_neg hswitch, ← hmod]
        exact hrest

end InitInv

/-! ### The first record

The first record is written before there are lists, and describes the slice in
which it lies.  The loop goes on from there with slice 1. -/

/-- What the first record says, and that nothing else was written.  Its flag
is not written either, and is what memory held. -/
theorem pmmFirst_record (mem : ByteMemory) (start endAddress : ℕ) :
    info (pmmFirst mem start endAddress).mem start .next = 0 ∧
      info (pmmFirst mem start endAddress).mem start .prev = 0 ∧
      info (pmmFirst mem start endAddress).mem start .slice = start % 2 ^ 32 ∧
      infoReserved (pmmFirst mem start endAddress).mem start = infoReserved mem start ∧
      infoType (pmmFirst mem start endAddress).mem start = MemoryType.bucketInfo.code ∧
      ∀ x, (x < start ∨ start + 16 ≤ x) → (pmmFirst mem start endAddress).mem x = mem x := by
  let m₁ := setInfo (setInfo mem start .next 0) start .prev 0
  let m₂ := setInfo (setType m₁ start .bucketInfo) start .slice start
  have htype := entryFrame_setType m₁ start .bucketInfo
  have hfilled := entryFrame_setFilled m₂ start 1
  have hself : Apart start start := Or.inl rfl
  have hmem : (pmmFirst mem start endAddress).mem = setFilled m₂ start 1 := rfl
  rw [hmem]
  have hentry : ∀ (m : ByteMemory) (f : Field) (v : ℕ), f ≠ .entry →
      infoReserved (setInfo m start f v) start = infoReserved m start := by
    intro m f v hf
    unfold infoReserved
    rw [info_setInfo hself, if_neg fun h => hf h.2.symm]
  refine ⟨?_, ?_, ?_, ?_, ?_, fun x hx => ?_⟩
  · rw [hfilled.other _ _ hself (Or.inr (by decide)), info_setInfo hself, if_neg (by simp),
      htype.other _ _ hself (Or.inr (by decide)), info_setInfo hself, if_neg (by simp),
      info_setInfo hself, if_pos ⟨rfl, rfl⟩, Nat.zero_mod]
  · rw [hfilled.other _ _ hself (Or.inr (by decide)), info_setInfo hself, if_neg (by simp),
      htype.other _ _ hself (Or.inr (by decide)), info_setInfo hself, if_pos ⟨rfl, rfl⟩,
      Nat.zero_mod]
  · rw [hfilled.other _ _ hself (Or.inr (by decide)), info_setInfo hself, if_pos ⟨rfl, rfl⟩]
  · rw [infoReserved_setFilled_self, hentry _ _ _ (by decide), infoReserved_setType_self,
      hentry _ _ _ (by decide), hentry _ _ _ (by decide)]
  · have hkeep : infoType m₂ start = infoType (setType m₁ start .bucketInfo) start := by
      unfold infoType
      rw [info_setInfo hself, if_neg (by simp)]
    rw [infoType_setFilled_self, hkeep, infoType_setType_self]
  · rw [hfilled.outside x hx, setInfo_apply_of_notMem hx, htype.outside x hx,
      setInfo_apply_of_notMem hx, setInfo_apply_of_notMem hx]

/-- The first record is on the list of what is allocated, unless it lies at
null, where a list ends. -/
theorem onHomeLists_first {s : PmmState} (hL : Layout.WellFormed ⟨start, 1, fun _ => 0⟩)
    (hkind : initKind R (fun _ => 0) 0 0 = .bucketInfo) (hnext : info s.mem start .next = 0)
    (hprev : info s.mem start .prev = 0)
    (hhead : ∀ l, s.head l = if l = .allocated then start else 0) :
    OnHomeLists ⟨start, 1, fun _ => 0⟩ s (initKind R (fun _ => 0) 0)
      (fun l => if l = .allocated ∧ start ≠ 0 then [0] else []) := by
  have hrec0 : Layout.record ⟨start, 1, fun _ => 0⟩ 0 = start := rfl
  refine ⟨⟨hL.recordsApart, ?_, ?_, ?_, ?_⟩, ?_⟩
  · intro l k hk
    by_cases hl : l = .allocated ∧ start ≠ 0
    · rw [if_pos hl, List.mem_singleton] at hk
      rw [hk]
      exact Nat.zero_lt_one
    · rw [if_neg hl] at hk
      cases hk
  · intro l
    by_cases hl : l = .allocated ∧ start ≠ 0
    · rw [if_pos hl]
      exact List.nodup_singleton 0
    · rw [if_neg hl]
      exact List.nodup_nil
  · intro l l' k hk hk'
    by_cases hl : l = .allocated ∧ start ≠ 0
    · by_cases hl' : l' = .allocated ∧ start ≠ 0
      · rw [hl.1, hl'.1]
      · rw [if_neg hl'] at hk'
        cases hk'
    · rw [if_neg hl] at hk
      cases hk
  · intro l
    rw [hhead l]
    by_cases hl : l = .allocated ∧ start ≠ 0
    · rw [if_pos hl, if_pos hl.1]
      exact ⟨⟨rfl, hl.2, by rw [List.map_nil]; exact hnext⟩, hprev, trivial⟩
    · rw [if_neg hl]
      refine ⟨?_, trivial⟩
      show (if l = .allocated then start else 0) = 0
      by_cases hla : l = .allocated
      · rw [if_pos hla]
        by_contra h0
        exact hl ⟨hla, h0⟩
      · rw [if_neg hla]
  · intro l k hk
    obtain rfl := Nat.lt_one_iff.mp hk
    rw [hkind, hrec0]
    by_cases hl : l = .allocated ∧ start ≠ 0
    · rw [if_pos hl]
      simp [hl.1, hl.2, SliceKind.home]
    · rw [if_neg hl]
      refine ⟨fun h => (by cases h), fun h => absurd ⟨h.1.symm, h.2⟩ hl⟩

/-- The manager after the first record knows one slice, which holds the
records of the first bucket, its own included. -/
theorem initInv_first {mem : ByteMemory} (hS : SliceRange start N) (hN : 0 < N)
    (hr : R 0 = false) (hmem : ∀ x, start ≤ x → x < start + sliceSize * N → mem x = 0) :
    InitInv start N R 1 0 (fun _ => 0) (pmmFirst mem start (start + sliceSize * N)) := by
  have hbounded := hS.bounded
  have hone : sliceSize * 1 ≤ sliceSize * N := Nat.mul_le_mul_left sliceSize hN
  have hL : Layout.WellFormed ⟨start, 1, fun _ => 0⟩ :=
    { aligned := hS.aligned
      bounded := by
        show start + sliceSize * 1 < 2 ^ 32
        omega
      bucketSlice_lt := fun _ _ => Nat.zero_lt_one
      bucketSlice_inj := fun i hi j hj _ => by
        obtain rfl : i = 0 := Nat.lt_one_iff.mp hi
        obtain rfl : j = 0 := Nat.lt_one_iff.mp hj
        rfl }
  obtain ⟨hnext, hprev, hslice, hres, htype, hout⟩ :=
    pmmFirst_record mem start (start + sliceSize * N)
  generalize hs : pmmFirst mem start (start + sliceSize * N) = s at *
  have hrec0 : Layout.record ⟨start, 1, fun _ => 0⟩ 0 = start := rfl
  have hkind : initKind R (fun _ => 0) 0 0 = .bucketInfo := initKind_bucket (le_refl 0) hr
  have honly : ∀ i < 1, i = 0 := fun i hi => Nat.lt_one_iff.mp hi
  have hzero : infoReserved mem start = 0 := by
    have hentry : info mem start .entry = 0 := by
      refine readWord_eq_zero fun x hx hx' => hmem x ?_ ?_
      · exact hx
      · replace hx' : x < start + 4 := hx'
        unfold sliceSize at *
        omega
    unfold infoReserved
    rw [hentry]
  have hhead : ∀ l, s.head l = if l = .allocated then start else 0 := by
    rw [← hs]
    intro l
    cases l <;> rfl
  have hlists := onHomeLists_first hL hkind hnext hprev hhead
  refine ⟨?_, le_refl 1, ?_, ?_, ?_, ?_, ?_, ?_, ?_, ?_⟩
  · refine ⟨hL, ?_, ⟨_, hlists⟩, ?_, ?_, ?_, ?_, ?_, ?_, ?_, rfl⟩
    · rw [← hs]
      rfl
    · intro k hk
      obtain rfl := honly k hk
      rw [hrec0, hslice, Nat.mod_eq_of_lt (by omega)]
      rfl
    · intro k hk hne
      obtain rfl := honly k hk
      exact absurd hkind hne
    · intro k hk
      obtain rfl := honly k hk
      rw [hkind, hrec0, hres, hzero]
      rfl
    · intro k hk
      obtain rfl := honly k hk
      exact iff_of_true htype hkind
    · intro k hk t f heq
      obtain rfl := honly k hk
      rw [hkind] at heq
      cases heq
    · intro k hk t f heq
      obtain rfl := honly k hk
      rw [hkind] at heq
      cases heq
    · intro k hk
      exact hkind
  · decide
  · decide
  · exact fun b' _ => Nat.zero_lt_one.trans_le (Nat.le_max_left 1 _)
  · exact fun _ _ => hr
  · intro b' hb' b'' hb'' _
    omega
  · intro b' hb' hne
    omega
  · intro x hx hx' hrec
    rw [hout x (hrec 0 Nat.zero_lt_one)]
    exact hmem x hx hx'
  · rw [← hs]
    rfl

/-- **`pmm_init`** returns with every slice of the range on its list and
nothing but records written, or runs out of slices for records. -/
theorem pmmInit_outcome {mem : ByteMemory} (hw : HardwareInfo) (hS : SliceRange start N)
    (hN : 0 < N) (hmem : ∀ x, start ≤ x → x < start + sliceSize * N → mem x = 0) :
    (∃ s b B, pmmInit hw mem start (start + sliceSize * N) = .ok s ∧
      InitInv start N (marked hw start) N b B s ∧ Supplied (marked hw start) N) ∨
    (pmmInit hw mem start (start + sliceSize * N) = .error .nullDereference ∧
      ¬Supplied (marked hw start) N) := by
  have hfirst := initInv_first (R := marked hw start) hS hN rfl hmem
  have hbounded := hS.bounded
  have hone : sliceSize * 1 ≤ sliceSize * N := Nat.mul_le_mul_left sliceSize hN
  have hfuel : N - 1 < 2 ^ 32 / sliceSize := by
    unfold sliceSize at *
    omega
  have hloop := InitInv.loop hS (fun n hn _ => marked_of_pos hn) (N - 1) (2 ^ 32 / sliceSize) 1 0
    _ _ (by omega) hfuel (by decide) hfirst
  unfold pmmInit
  rw [Nat.mod_eq_of_lt (by omega : start + sliceSize < 2 ^ 32)]
  rcases hloop with ⟨s, b, B, hok, hinv, hb⟩ | hnone
  · exact .inl ⟨s, b, B, hok, hinv, hinv.supplied hb⟩
  · exact .inr hnone

namespace InitInv

/-- With a reserved suffix, the records of slices that are not reserved lie
where they are looked up. -/
theorem pmmInv (h : InitInv start N (marked hw start) N b B s) (hR : ManagedRange hw start N r) :
    PmmInv ⟨start, N, B⟩ s (initKind (marked hw start) B b) where
  toPmmTables := h.inv
  bucket_before k hk h512 hres := by
    have hkN : k < N := hk
    rw [Ne, initKind_reserved, Bool.not_eq_true, hR.marked_eq hkN, decide_eq_false_iff_not] at hres
    have hlt : sliceinfoPerSlice * (k / sliceinfoPerSlice) - 1 < k := by
      unfold sliceinfoPerSlice at *
      omega
    refine h.bucket_before _ (h.div_le hkN) ?_ ?_
    · unfold sliceinfoPerSlice at *
      omega
    · rw [hR.marked_eq (hlt.trans hkN), decide_eq_false_iff_not]
      omega

end InitInv

/-- With a reserved suffix `pmm_init` returns: each bucket is full before the
reserved slices begin, or none is needed any more. -/
theorem pmmInit_spec {mem : ByteMemory} (hR : ManagedRange hw start N r) (hN : 0 < N)
    (hmem : ∀ x, start ≤ x → x < start + sliceSize * N → mem x = 0) :
    ∃ s b B, pmmInit hw mem start (start + sliceSize * N) = .ok s ∧
      InitInv start N (marked hw start) N b B s := by
  rcases pmmInit_outcome hw hR.sliceRange hN hmem with ⟨s, b, B, hok, hinv, -⟩ | ⟨-, hnone⟩
  · exact ⟨s, b, B, hok, hinv⟩
  · exact absurd hR.supplied hnone

end CourseOs.Pmm
