import CourseOs.Lib.Runs
import CourseOs.Vm.PmmInit

/-!
# The manager in use

Clients take L1 tables, L2 tables and pages from the manager, write into what
they hold, and give it back.  `Step` is one such action on an `InUse` state:
the manager's memory and fields, and the list of outstanding objects.  The
list records every hand-out, so an object handed out twice would be listed
twice.

The set of objects that the kinds of the slices say are handed out is `held`.
It grows by one new object with every allocation and shrinks by the object
given back with every free (`PmmTables.allocate`, `PmmTables.free`); a run
keeps it equal to the outstanding objects (`Accounted.step`).  Disjointness,
bounds and alignment are then facts about `held`.

`Accounted` is the run invariant, and `Safe` is what a client relies on.
`pmm_safe` leads from `pmm_init` to every state of every run.  `Step` asks for
objects while slices are unused; `ServedStep` also when there are none, as far
as the call returns.

The range is one that `pmm_init` can manage (`ManagedRange`): aligned, in the
address space, with the reserved slices at its end and no more than half of
all.
-/

namespace CourseOs.Pmm

open ByteMemory

/-! ### Objects

What clients hold: tables and pages, each in a slice whose kind has it in its
mask.  Objects of one slice are apart by their places in it, and objects of
different slices because slices are. -/

/-- What the manager hands out: L1 tables, and objects that share a slice. -/
inductive ObjectKind
  | l1
  | slot (t : SlotKind)
  deriving DecidableEq, Repr

/-- `sizeof` of the object. -/
def ObjectKind.size : ObjectKind → ℕ
  | l1 => sliceSize
  | slot t => t.size

/-- An object and where it lies.  Its size is that of its kind. -/
structure Object where
  kind : ObjectKind
  addr : ℕ
  deriving DecidableEq, Repr

/-- The two objects have no byte in common, whatever kinds they are. -/
def Object.Disjoint (o o' : Object) : Prop :=
  RangesDisjoint o.addr o.kind.size o'.addr o'.kind.size

/-- The allocation function for an object, by its kind. -/
def allocate : ObjectKind → PmmState → Exec (PmmState × ℕ)
  | .l1 => pmmAllocateL1Pagetable
  | .slot .l2 => pmmAllocateL2Pagetable
  | .slot .page => pmmAllocatePage

/-- The matching free function.  The source trusts its callers to take the
right one. -/
def free : ObjectKind → PmmState → ℕ → Exec PmmState
  | .l1 => pmmFreeL1Pagetable
  | .slot .l2 => pmmFreeL2Pagetable
  | .slot .page => pmmFreePage

theorem allocate_slot (t : SlotKind) : allocate (.slot t) = pmmAllocateSlot t := by
  cases t <;> rfl

theorem free_slot (t : SlotKind) : free (.slot t) = pmmFreeSlot t := by
  cases t <;> rfl

/-- The objects handed out of slice `k` when it has this kind: one for each
bit that is set. -/
def objects (L : Layout) (k : ℕ) : SliceKind → Set Object
  | .l1 => {⟨.l1, L.addr k⟩}
  | .slots t filled =>
      {o | ∃ j, filled.getLsbD j = true ∧ o = ⟨.slot t, L.addr k + t.size * j⟩}
  | _ => ∅

/-- The objects handed out of any slice, as the kinds of the slices have them. -/
def held (L : Layout) (κ : ℕ → SliceKind) : Set Object :=
  {o | ∃ k < L.slices, o ∈ objects L k (κ k)}

variable {L : Layout} {s s' : PmmState} {κ : ℕ → SliceKind} {k k' : ℕ} {t : SlotKind}
  {kind : SliceKind} {o o' : Object} {filled : BitVec 8} {j : ℕ}

theorem ObjectKind.size_pos (k : ObjectKind) : 0 < k.size := by
  cases k with
  | l1 => decide
  | slot t => exact t.size_pos

theorem mem_objects_serving : o ∈ objects L k (.serving t filled) ↔
    ∃ j, filled.getLsbD j = true ∧ o = ⟨.slot t, L.addr k + t.size * j⟩ := by
  by_cases h0 : filled = 0
  · subst h0
    rw [SliceKind.serving, if_pos rfl]
    simp [objects]
  · rw [SliceKind.serving, if_neg h0]
    rfl

/-- A slice whose mask is valid hands out objects that lie inside it. -/
theorem objects_bounds (hv : kind.Assignable) (ho : o ∈ objects L k kind) :
    L.addr k ≤ o.addr ∧ o.addr + o.kind.size ≤ L.addr k + sliceSize := by
  cases kind with
  | l1 =>
      obtain rfl : o = _ := ho
      exact ⟨le_refl _, le_refl _⟩
  | slots t filled =>
      obtain ⟨j, hj, rfl⟩ := ho
      exact Layout.slot_bounds (SlotKind.Valid.lt hv hj)
  | unused | bucketInfo | reserved => cases ho

theorem addr_disjoint (h : k ≠ k') :
    L.addr k + sliceSize ≤ L.addr k' ∨ L.addr k' + sliceSize ≤ L.addr k := by
  unfold Layout.addr sliceSize
  omega

/-- Different objects of one slice are disjoint: they are at different
positions, and each takes up no more than its size. -/
theorem objects_disjoint (ho : o ∈ objects L k kind) (ho' : o' ∈ objects L k kind)
    (hne : o ≠ o') : o.Disjoint o' := by
  cases kind with
  | l1 =>
      obtain rfl : o = ⟨.l1, L.addr k⟩ := ho
      exact absurd (Eq.symm ho') hne
  | slots t filled =>
      obtain ⟨j, -, rfl⟩ := ho
      obtain ⟨j', -, rfl⟩ := ho'
      have hjj : j ≠ j' := by
        rintro rfl
        exact hne rfl
      have hmul : ∀ a b : ℕ, a < b → t.size * a + t.size ≤ t.size * b := by
        intro a b hab
        rw [← Nat.mul_succ]
        exact Nat.mul_le_mul_left _ hab
      show L.addr k + t.size * j + t.size ≤ L.addr k + t.size * j' ∨
        L.addr k + t.size * j' + t.size ≤ L.addr k + t.size * j
      rcases Nat.lt_or_gt_of_ne hjj with h | h
      · have := hmul j j' h
        omega
      · have := hmul j' j h
        omega
  | unused | bucketInfo | reserved => cases ho

namespace PmmTables

theorem assignable (h : PmmTables L s κ) (hk : k < L.slices) (hne : κ k ≠ .reserved) :
    (κ k).Assignable := by
  cases hkind : κ k with
  | slots t filled => exact h.valid k hk t filled hkind
  | reserved => exact absurd hkind hne
  | unused | l1 | bucketInfo => trivial

/-- The slice an object is handed out of. -/
theorem bounds_of_mem (h : PmmTables L s κ) (hk : k < L.slices) (ho : o ∈ objects L k (κ k)) :
    L.addr k ≤ o.addr ∧ o.addr + o.kind.size ≤ L.addr k + sliceSize := by
  refine objects_bounds (h.assignable hk fun heq => ?_) ho
  rw [heq] at ho
  exact ho

theorem held_disjoint (h : PmmTables L s κ) (ho : o ∈ held L κ) (ho' : o' ∈ held L κ)
    (hne : o ≠ o') : o.Disjoint o' := by
  obtain ⟨k, hk, ho⟩ := ho
  obtain ⟨k', hk', ho'⟩ := ho'
  by_cases hkk : k = k'
  · subst hkk
    exact objects_disjoint ho ho' hne
  · have hb := h.bounds_of_mem hk ho
    have hb' := h.bounds_of_mem hk' ho'
    have := addr_disjoint (L := L) hkk
    unfold Object.Disjoint RangesDisjoint
    omega

theorem held_aligned (h : PmmTables L s κ) (ho : o ∈ held L κ) : o.addr % o.kind.size = 0 := by
  have hstart : ∀ d, d ∣ sliceSize → ∀ k, d ∣ L.addr k := by
    intro d hd k
    refine Nat.dvd_add (hd.trans (Nat.dvd_of_mod_eq_zero h.layout.aligned)) ?_
    exact hd.mul_right k
  obtain ⟨k, hk, ho⟩ := ho
  cases hkind : κ k with
  | l1 =>
      rw [hkind] at ho
      obtain rfl : o = _ := ho
      exact Nat.mod_eq_zero_of_dvd (hstart sliceSize (Nat.dvd_refl _) k)
  | slots t filled =>
      rw [hkind] at ho
      obtain ⟨j, -, rfl⟩ := ho
      refine Nat.mod_eq_zero_of_dvd (Nat.dvd_add (hstart t.size ?_ k) (Nat.dvd_mul_right _ j))
      exact ⟨t.perSlice, t.size_mul_perSlice.symm⟩
  | unused | bucketInfo | reserved =>
      rw [hkind] at ho
      cases ho

/-- Changing the kind of one slice changes the objects held in it and no
others. -/
theorem mem_held_update (h : PmmTables L s κ) (hk : k < L.slices) :
    o ∈ held L (Function.update κ k kind) ↔
      o ∈ objects L k kind ∨ (o ∈ held L κ ∧ o ∉ objects L k (κ k)) := by
  constructor
  · rintro ⟨i, hi, ho⟩
    by_cases hik : i = k
    · subst hik
      rw [Function.update_self] at ho
      exact Or.inl ho
    · rw [Function.update_of_ne hik] at ho
      refine Or.inr ⟨⟨i, hi, ho⟩, fun ho' => ?_⟩
      have hb := h.bounds_of_mem hi ho
      have hb' := h.bounds_of_mem hk ho'
      have hpos := o.kind.size_pos
      have := addr_disjoint (L := L) hik
      omega
  · rintro (ho | ⟨⟨i, hi, ho⟩, hno⟩)
    · exact ⟨k, hk, by rw [Function.update_self]; exact ho⟩
    · have hik : i ≠ k := by
        rintro rfl
        exact hno ho
      exact ⟨i, hi, by rw [Function.update_of_ne hik]; exact ho⟩

end PmmTables

/-! ### The operations on held objects

An operation adds an object to what is held, or takes one away, and leaves the
bytes of all others alone.  The kinds change behind this and need not be
mentioned any more. -/

/-- There is a slice to hand the object out of: one that serves its kind and
is not full, or one that is unused. -/
def Available (kind : ObjectKind) (s : PmmState) : Prop :=
  s.head .unused ≠ 0 ∨ ∃ t, kind = .slot t ∧ s.head t.partialFree ≠ 0

/-- A table or page that was handed out came from some slice. -/
theorem available_of_slot_ok {t : SlotKind} {p : ℕ} (h : pmmAllocateSlot t s = .ok (s', p)) :
    Available (.slot t) s := by
  by_cases hno : s.head t.partialFree ≠ 0
  · exact .inr ⟨t, rfl, hno⟩
  · refine .inl fun hnone => ?_
    unfold pmmAllocateSlot popFromLl at h
    rw [if_neg hno, hnone] at h
    cases h

/-- An object handed out came from some slice. -/
theorem available_of_ok {kind : ObjectKind} {p : ℕ} (h : allocate kind s = .ok (s', p))
    (hp : p ≠ 0) : Available kind s := by
  cases kind with
  | l1 =>
      refine .inl fun hne => ?_
      replace h : pmmAllocateL1Pagetable s = .ok (s', p) := h
      unfold pmmAllocateL1Pagetable at h
      rw [if_pos hne] at h
      cases h
      exact hp rfl
  | slot t =>
      rw [allocate_slot] at h
      exact available_of_slot_ok h

/-- Only slices that may be used change their kind: those with records and
those reserved keep theirs from `pmm_init` on. -/
def SameFixed (L : Layout) (κ κ' : ℕ → SliceKind) : Prop :=
  ∀ k < L.slices, (κ' k = .reserved ↔ κ k = .reserved) ∧ (κ' k = .bucketInfo ↔ κ k = .bucketInfo)

theorem SameFixed.refl (L : Layout) (κ : ℕ → SliceKind) : SameFixed L κ κ :=
  fun _ _ => ⟨Iff.rfl, Iff.rfl⟩

theorem SameFixed.trans {κ' κ'' : ℕ → SliceKind} (h : SameFixed L κ κ')
    (h' : SameFixed L κ' κ'') : SameFixed L κ κ'' :=
  fun k hk => ⟨(h' k hk).1.trans (h k hk).1, (h' k hk).2.trans (h k hk).2⟩

theorem sameFixed_update (hold : (κ k).Usable) (hnew : kind.Usable) :
    SameFixed L κ (Function.update κ k kind) := by
  intro i _
  by_cases hik : i = k
  · subst hik
    rw [Function.update_self]
    constructor
    · exact iff_of_false (fun heq => by rw [heq] at hnew; exact hnew)
        (fun heq => by rw [heq] at hold; exact hold)
    · exact iff_of_false hnew.ne_bucketInfo hold.ne_bucketInfo
  · rw [Function.update_of_ne hik]
    exact ⟨Iff.rfl, Iff.rfl⟩

namespace PmmTables

/-- **An allocation** returns, and hands out one object that was not held.
The object is zeroed, and the bytes of all other objects stay. -/
theorem allocate (h : PmmTables L s κ) (kind : ObjectKind) (hav : Available kind s) :
    ∃ s' p κ', Pmm.allocate kind s = .ok (s', p) ∧ PmmTables L s' κ' ∧ SameFixed L κ κ' ∧
      (⟨kind, p⟩ : Object) ∉ held L κ ∧ held L κ' = insert ⟨kind, p⟩ (held L κ) ∧
      ZeroedObject L s.mem s'.mem p kind.size := by
  cases kind with
  | l1 =>
      have hne : s.head .unused ≠ 0 := by
        rcases hav with hne | ⟨t, heq, -⟩
        · exact hne
        · cases heq
      obtain ⟨k, s', hk, hkind, halloc, hinv, hzero⟩ := h.allocateL1 hne
      have hold : (κ k).Usable := by rw [hkind]; trivial
      refine ⟨s', _, _, halloc, hinv, sameFixed_update hold trivial, ?_, ?_, hzero⟩
      · rintro ⟨i, hi, ho⟩
        have hb := h.bounds_of_mem hi ho
        have hik : i = k := by
          by_contra hik
          have := addr_disjoint (L := L) hik
          dsimp only [ObjectKind.size] at hb
          unfold sliceSize at *
          omega
        rw [hik, hkind] at ho
        exact ho
      · ext o
        rw [h.mem_held_update hk, hkind]
        simp [objects]
  | slot t =>
      rw [allocate_slot]
      have hne : s.head .unused ≠ 0 ∨ s.head t.partialFree ≠ 0 := by
        rcases hav with hne | ⟨t', heq, hne⟩
        · exact .inl hne
        · cases heq
          exact .inr hne
      obtain ⟨k, j, filled, s', hk, hj, hkind, hbit, halloc, hinv, hzero⟩ := h.allocateSlot t hne
      have hj8 : j < 8 := lt_of_lt_of_le hj t.perSlice_le
      have hv : filled = 0 ∨ t.Valid filled := by
        by_cases h0 : filled = 0
        · exact Or.inl h0
        · rw [SliceKind.serving, if_neg h0] at hkind
          exact Or.inr (h.valid k hk t filled hkind)
      have hv' : t.Valid (withSlot filled j) := valid_withSlot hj hv
      have hnew : (SliceKind.serving t (withSlot filled j)).Usable :=
        SliceKind.usable_serving (Or.inr hv')
      have hold : (κ k).Usable := by rw [hkind]; exact SliceKind.usable_serving hv
      have hfresh : (⟨.slot t, L.addr k + t.size * j⟩ : Object) ∉ objects L k (κ k) := by
        rw [hkind, mem_objects_serving]
        rintro ⟨i, hi, heq⟩
        have hmul : t.size * j = t.size * i := Nat.add_left_cancel (congrArg Object.addr heq)
        have hji : j = i := Nat.eq_of_mul_eq_mul_left t.size_pos hmul
        rw [← hji, hbit] at hi
        cases hi
      refine ⟨s', _, _, halloc, hinv, sameFixed_update hold hnew, ?_, ?_, hzero⟩
      · rintro ⟨i, hi, ho⟩
        have hb := h.bounds_of_mem hi ho
        have hb' := Layout.slot_bounds (L := L) (k := k) hj
        have hpos := t.size_pos
        have hik : i = k := by
          by_contra hik
          have := addr_disjoint (L := L) hik
          dsimp only [ObjectKind.size] at hb
          omega
        exact hfresh (hik ▸ ho)
      · ext o
        rw [h.mem_held_update hk, Set.mem_insert_iff]
        have hobjects : o ∈ objects L k (.serving t (withSlot filled j)) ↔
            o = ⟨.slot t, L.addr k + t.size * j⟩ ∨ o ∈ objects L k (κ k) := by
          rw [hkind, mem_objects_serving, mem_objects_serving]
          constructor
          · rintro ⟨i, hi, rfl⟩
            rw [getLsbD_withSlot hj8, Bool.or_eq_true, decide_eq_true_eq] at hi
            rcases hi with hi | rfl
            · exact Or.inr ⟨i, hi, rfl⟩
            · exact Or.inl rfl
          · rintro (rfl | ⟨i, hi, rfl⟩)
            · exact ⟨j, by simp [getLsbD_withSlot hj8], rfl⟩
            · exact ⟨i, by simp [getLsbD_withSlot hj8, hi], rfl⟩
        rw [hobjects]
        constructor
        · rintro ((rfl | ho) | ⟨ho, -⟩)
          · exact .inl rfl
          · exact .inr ⟨k, hk, ho⟩
          · exact .inr ho
        · rintro (rfl | ho)
          · exact .inl (.inl rfl)
          · by_cases hin : o ∈ objects L k (κ k)
            · exact .inl (.inr hin)
            · exact .inr ⟨ho, hin⟩

/-- **A free** of a held object whose record is found returns, and the object
is held no longer. -/
theorem free (h : PmmTables L s κ) (ho : o ∈ held L κ)
    (hfound : ∀ k < L.slices, o ∈ objects L k (κ k) → sliceinfoFor s o.addr = L.record k) :
    ∃ s' κ', Pmm.free o.kind s o.addr = .ok s' ∧ PmmTables L s' κ' ∧ SameFixed L κ κ' ∧
      held L κ' = held L κ \ {o} ∧
      ∀ x, (∀ i < L.slices, x < L.record i ∨ L.record i + 16 ≤ x) → s'.mem x = s.mem x := by
  obtain ⟨k, hk, hmem⟩ := ho
  have hfoundk := hfound k hk hmem
  cases hkind : κ k with
  | l1 =>
      rw [hkind] at hmem
      obtain rfl : o = _ := hmem
      obtain ⟨s', hfree, hinv, hframe⟩ := h.freeL1 hk hkind hfoundk
      refine ⟨s', _, hfree, hinv, sameFixed_update (by rw [hkind]; trivial) trivial, ?_,
        hframe.outside⟩
      ext o
      rw [h.mem_held_update hk, hkind]
      simp [objects]
  | slots t filled =>
      rw [hkind] at hmem
      obtain ⟨j, hbit, rfl⟩ := hmem
      have hv := h.valid k hk t filled hkind
      have hnew := SliceKind.usable_serving (valid_withoutSlot (j := j) hv)
      obtain ⟨s', hfree, hinv, hframe⟩ := h.freeSlot hk hkind hbit hfoundk
      refine ⟨s', _, by rw [free_slot]; exact hfree, hinv,
        sameFixed_update (by rw [hkind]; exact hv) hnew, ?_, hframe.outside⟩
      ext o
      rw [h.mem_held_update hk, Set.mem_sdiff, Set.mem_singleton_iff]
      have hobjects : o ∈ objects L k (.serving t (withoutSlot filled j)) ↔
          o ∈ objects L k (κ k) ∧ o ≠ ⟨.slot t, L.addr k + t.size * j⟩ := by
        rw [hkind, mem_objects_serving]
        constructor
        · rintro ⟨i, hi, rfl⟩
          rw [getLsbD_withoutSlot, Bool.and_eq_true, Bool.not_eq_true',
            decide_eq_false_iff_not] at hi
          refine ⟨⟨i, hi.1, rfl⟩, fun heq => hi.2 ?_⟩
          have hmul : t.size * i = t.size * j := Nat.add_left_cancel (congrArg Object.addr heq)
          exact Nat.eq_of_mul_eq_mul_left t.size_pos hmul
        · rintro ⟨⟨i, hi, rfl⟩, hne⟩
          refine ⟨i, ?_, rfl⟩
          have hij : i ≠ j := by
            rintro rfl
            exact hne rfl
          simp [getLsbD_withoutSlot, hi, hij]
      rw [hobjects]
      have hself : (⟨.slot t, L.addr k + t.size * j⟩ : Object) ∈ objects L k (κ k) := by
        rw [hkind]
        exact ⟨j, hbit, rfl⟩
      constructor
      · rintro (⟨ho, hne⟩ | ⟨ho, hno⟩)
        · exact ⟨⟨k, hk, ho⟩, hne⟩
        · exact ⟨ho, fun heq => hno (heq ▸ hself)⟩
      · rintro ⟨ho, hne⟩
        by_cases hin : o ∈ objects L k (κ k)
        · exact .inl ⟨hin, hne⟩
        · exact .inr ⟨ho, hin⟩
  | unused | bucketInfo | reserved =>
      rw [hkind] at hmem
      cases hmem

end PmmTables

namespace PmmInv

/-- Where records are looked up does not change with the kinds of the slices
in use. -/
theorem of_fixed (h : PmmInv L s κ) (ht : PmmTables L s' κ') (hfixed : SameFixed L κ κ') :
    PmmInv L s' κ' where
  toPmmTables := ht
  bucket_before k hk h512 hres :=
    h.bucket_before k hk h512 fun heq => hres ((hfixed k hk).1.mpr heq)

theorem allocate (h : PmmInv L s κ) (kind : ObjectKind) (hav : Available kind s) :
    ∃ s' p κ', Pmm.allocate kind s = .ok (s', p) ∧ PmmInv L s' κ' ∧ SameFixed L κ κ' ∧
      (⟨kind, p⟩ : Object) ∉ held L κ ∧ held L κ' = insert ⟨kind, p⟩ (held L κ) ∧
      ZeroedObject L s.mem s'.mem p kind.size := by
  obtain ⟨s', p, κ', halloc, ht, hfixed, hrest⟩ := h.toPmmTables.allocate kind hav
  exact ⟨s', p, κ', halloc, h.of_fixed ht hfixed, hfixed, hrest⟩

/-- The record for an object is found. -/
theorem found_of_mem (h : PmmInv L s κ) (hk : k < L.slices) (ho : o ∈ objects L k (κ k)) :
    sliceinfoFor s o.addr = L.record k := by
  have hb := h.bounds_of_mem hk ho
  have hpos := o.kind.size_pos
  exact h.found hk (fun heq => by rw [heq] at ho; exact ho) hb.1 (by omega)

theorem free (h : PmmInv L s κ) (ho : o ∈ held L κ) :
    ∃ s' κ', Pmm.free o.kind s o.addr = .ok s' ∧ PmmInv L s' κ' ∧ SameFixed L κ κ' ∧
      held L κ' = held L κ \ {o} ∧
      ∀ x, (∀ i < L.slices, x < L.record i ∨ L.record i + 16 ≤ x) → s'.mem x = s.mem x := by
  obtain ⟨s', κ', hfree, ht, hfixed, hrest⟩ :=
    h.toPmmTables.free ho fun k hk hmem => h.found_of_mem hk hmem
  exact ⟨s', κ', hfree, h.of_fixed ht hfixed, hfixed, hrest⟩

end PmmInv

/-! ### Runs

The account is the list of what has been handed out and not been given back,
as the clients would keep it.  That it has each object once, and that it is
what the kinds of the slices say, is the invariant. -/

/-- The manager and the objects that are out, one entry for each hand-out. -/
structure InUse where
  state : PmmState
  outstanding : List Object

/-- One action of a client.  Objects are asked for while unused slices remain,
and only what is outstanding is given back or written to. -/
inductive Step : InUse → InUse → Prop
  | allocate {u : InUse} {s' : PmmState} {p : ℕ} (kind : ObjectKind)
      (hne : u.state.head .unused ≠ 0) (h : Pmm.allocate kind u.state = .ok (s', p)) :
      Step u ⟨s', ⟨kind, p⟩ :: u.outstanding⟩
  | free {u : InUse} {s' : PmmState} (o : Object) (ho : o ∈ u.outstanding)
      (h : Pmm.free o.kind u.state o.addr = .ok s') : Step u ⟨s', u.outstanding.erase o⟩
  | write {u : InUse} (m : ByteMemory)
      (h : ∀ x, (∀ o ∈ u.outstanding, x < o.addr ∨ o.addr + o.kind.size ≤ x) →
        m x = u.state.mem x) :
      Step u ⟨u.state.withMem m, u.outstanding⟩

/-- One action of a client who also asks for objects when no slice is unused,
and takes null for an answer. -/
inductive ServedStep : InUse → InUse → Prop
  | allocate {u : InUse} {s' : PmmState} {p : ℕ} (kind : ObjectKind)
      (h : Pmm.allocate kind u.state = .ok (s', p)) (hp : p ≠ 0) :
      ServedStep u ⟨s', ⟨kind, p⟩ :: u.outstanding⟩
  | free {u : InUse} {s' : PmmState} (o : Object) (ho : o ∈ u.outstanding)
      (h : Pmm.free o.kind u.state o.addr = .ok s') : ServedStep u ⟨s', u.outstanding.erase o⟩
  | write {u : InUse} (m : ByteMemory)
      (h : ∀ x, (∀ o ∈ u.outstanding, x < o.addr ∨ o.addr + o.kind.size ≤ x) →
        m x = u.state.mem x) :
      ServedStep u ⟨u.state.withMem m, u.outstanding⟩

/-- The record of the slice has type `BucketInfo`. -/
def IsBucketInfoSlice (s : PmmState) (slice : ℕ) : Prop :=
  ∃ r, pmmGetSliceinfoForSlice s slice = .success r ∧
    infoType s.mem r = MemoryType.bucketInfo.code

/-- What a client relies on, for the range of `N` slices from `start`: what is
out lies apart, inside the range, aligned, and away from the peripherals and
the records. -/
structure Safe (hw : HardwareInfo) (start N : ℕ) (u : InUse) : Prop where
  disjoint : u.outstanding.Pairwise Object.Disjoint
  within : ∀ o ∈ u.outstanding,
    start ≤ o.addr ∧ o.addr + o.kind.size ≤ start + sliceSize * N
  aligned : ∀ o ∈ u.outstanding, o.addr % o.kind.size = 0
  not_reserved : ∀ o ∈ u.outstanding, ∀ k < N,
    addressInReservedRegion hw (start + sliceSize * k) = true →
      RangesDisjoint o.addr o.kind.size (start + sliceSize * k) sliceSize
  not_bucketInfo : ∀ o ∈ u.outstanding, ∀ k < N,
    IsBucketInfoSlice u.state (start + sliceSize * k) →
      RangesDisjoint o.addr o.kind.size (start + sliceSize * k) sliceSize
  /-- No request of the run stops the kernel. -/
  allocate_returns : u.state.head .unused ≠ 0 → ∀ kind,
    ∃ s' p, Pmm.allocate kind u.state = .ok (s', p)
  free_returns : ∀ o ∈ u.outstanding, ∃ s', Pmm.free o.kind u.state o.addr = .ok s'

/-- The run invariant: the slices' kinds account for exactly what is
outstanding, each object once. -/
structure Accounted (hw : HardwareInfo) (L : Layout) (u : InUse) (κ : ℕ → SliceKind) : Prop where
  inv : PmmInv L u.state κ
  mem_iff : ∀ o, o ∈ u.outstanding ↔ o ∈ held L κ
  nodup : u.outstanding.Nodup
  reserved_iff : ∀ k < L.slices,
    (κ k = .reserved ↔ addressInReservedRegion hw (L.addr k) = true)

variable {hw : HardwareInfo} {u u' : InUse} {start N r : ℕ} {mem : ByteMemory}

namespace Accounted

/-- What is out may be listed in any order. -/
theorem perm (h : Accounted hw L u κ) {os : List Object} (hp : u.outstanding.Perm os) :
    Accounted hw L ⟨u.state, os⟩ κ :=
  ⟨h.inv, fun o => hp.mem_iff.symm.trans (h.mem_iff o), hp.nodup h.nodup, h.reserved_iff⟩

/-- One more object is out, and the account has it. -/
theorem insert (h : Accounted hw L u κ) {s' : PmmState} {κ' : ℕ → SliceKind} {o : Object}
    (hinv' : PmmInv L s' κ') (hfixed : SameFixed L κ κ') (hnew : o ∉ held L κ)
    (hheld : held L κ' = Insert.insert o (held L κ)) :
    Accounted hw L ⟨s', o :: u.outstanding⟩ κ' := by
  refine ⟨hinv', fun o' => ?_, ?_, fun k hk => ?_⟩
  · rw [hheld, Set.mem_insert_iff, List.mem_cons, h.mem_iff]
  · exact List.nodup_cons.mpr ⟨fun hmem => hnew ((h.mem_iff _).mp hmem), h.nodup⟩
  · rw [(hfixed k hk).1]
    exact h.reserved_iff k hk

theorem allocate (h : Accounted hw L u κ) {kind : ObjectKind} {s' : PmmState} {p : ℕ}
    (hav : Available kind u.state) (halloc : Pmm.allocate kind u.state = .ok (s', p)) :
    ∃ κ', Accounted hw L ⟨s', ⟨kind, p⟩ :: u.outstanding⟩ κ' ∧ SameFixed L κ κ' := by
  obtain ⟨s₁, p₁, κ', halloc₁, hinv', hfixed, hnew, hheld, -⟩ := h.inv.allocate kind hav
  obtain ⟨rfl, rfl⟩ : s' = s₁ ∧ p = p₁ := by
    rw [halloc] at halloc₁
    simpa using halloc₁
  exact ⟨κ', h.insert hinv' hfixed hnew hheld, hfixed⟩

/-- One object less is out. -/
theorem erase (h : Accounted hw L u κ) {s' : PmmState} {κ' : ℕ → SliceKind} {o : Object}
    (hinv' : PmmInv L s' κ') (hfixed : SameFixed L κ κ') (hheld : held L κ' = held L κ \ {o}) :
    Accounted hw L ⟨s', u.outstanding.erase o⟩ κ' := by
  refine ⟨hinv', fun o' => ?_, h.nodup.erase o, fun k hk => ?_⟩
  · rw [hheld, Set.mem_sdiff, Set.mem_singleton_iff, h.nodup.mem_erase_iff, h.mem_iff, and_comm]
  · rw [(hfixed k hk).1]
    exact h.reserved_iff k hk

theorem free (h : Accounted hw L u κ) {s' : PmmState} {o : Object} (ho : o ∈ u.outstanding)
    (hfree : Pmm.free o.kind u.state o.addr = .ok s') :
    ∃ κ', Accounted hw L ⟨s', u.outstanding.erase o⟩ κ' ∧ SameFixed L κ κ' := by
  obtain ⟨s₁, κ', hfree₁, hinv', hfixed, hheld, -⟩ := h.inv.free ((h.mem_iff o).mp ho)
  obtain rfl : s' = s₁ := by
    rw [hfree] at hfree₁
    simpa using hfree₁
  exact ⟨κ', h.erase hinv' hfixed hheld, hfixed⟩

theorem write (h : Accounted hw L u κ) {m : ByteMemory}
    (hm : ∀ x, (∀ o ∈ u.outstanding, x < o.addr ∨ o.addr + o.kind.size ≤ x) →
      m x = u.state.mem x) : Accounted hw L ⟨u.state.withMem m, u.outstanding⟩ κ := by
  refine ⟨h.inv.of_outside fun i hi x hx hx' => hm x fun o ho => ?_, h.mem_iff, h.nodup,
    h.reserved_iff⟩
  -- no outstanding object shares a slice with a record
  obtain ⟨k, hk, hmem⟩ := (h.mem_iff o).mp ho
  have hne : κ k ≠ .bucketInfo := fun heq => by rw [heq] at hmem; exact hmem
  have hb := h.inv.bounds_of_mem hk hmem
  have := L.record_outside (h.inv.bucketSlice_ne hi hne)
  omega

/-- One action keeps the account. -/
theorem step (h : Accounted hw L u κ) (hstep : Step u u') :
    ∃ κ', Accounted hw L u' κ' ∧ SameFixed L κ κ' := by
  cases hstep with
  | allocate kind hne halloc => exact h.allocate (.inl hne) halloc
  | free o ho hfree => exact h.free ho hfree
  | write m hm => exact ⟨κ, h.write hm, SameFixed.refl L κ⟩

theorem served (h : Accounted hw L u κ) (hstep : ServedStep u u') :
    ∃ κ', Accounted hw L u' κ' ∧ SameFixed L κ κ' := by
  cases hstep with
  | allocate kind halloc hp => exact h.allocate (available_of_ok halloc hp) halloc
  | free o ho hfree => exact h.free ho hfree
  | write m hm => exact ⟨κ, h.write hm, SameFixed.refl L κ⟩

/-- A run keeps the account, and the slices that hold records or are reserved. -/
theorem servedRun (h : Accounted hw L u κ) (hrun : Relation.ReflTransGen ServedStep u u') :
    ∃ κ', Accounted hw L u' κ' ∧ SameFixed L κ κ' := by
  refine Runs.invariant (I := fun u => ∃ κ', Accounted hw L u κ' ∧ SameFixed L κ κ') ?_ hrun
    ⟨κ, h, SameFixed.refl L κ⟩
  rintro u u' ⟨κ', hacc, hsame⟩ hstep
  obtain ⟨κ'', hacc', hsame'⟩ := hacc.served hstep
  exact ⟨κ'', hacc', hsame.trans hsame'⟩

/-- An outstanding object does not meet a slice of a kind that serves no
objects. -/
theorem apart (h : Accounted hw L u κ) {o : Object} (ho : o ∈ u.outstanding) {k : ℕ}
    (hempty : ∀ o, o ∉ objects L k (κ k)) :
    RangesDisjoint o.addr o.kind.size (L.addr k) sliceSize := by
  obtain ⟨i, hi, hmem⟩ := (h.mem_iff o).mp ho
  have hb := h.inv.bounds_of_mem hi hmem
  have hik : i ≠ k := by
    rintro rfl
    exact hempty o hmem
  have := addr_disjoint (L := L) hik
  unfold RangesDisjoint
  omega

/-- What the invariant gives a client: the objects that are out are aligned,
disjoint and inside the usable slices, and the calls return. -/
theorem safe (h : Accounted hw L u κ) : Safe hw L.start L.slices u where
  disjoint := by
    refine List.Pairwise.imp_of_mem ?_ h.nodup
    intro o o' ho ho' hne
    exact h.inv.held_disjoint ((h.mem_iff o).mp ho) ((h.mem_iff o').mp ho') hne
  within o ho := by
    obtain ⟨k, hk, hmem⟩ := (h.mem_iff o).mp ho
    have hb := h.inv.bounds_of_mem hk hmem
    unfold Layout.addr sliceSize at *
    omega
  aligned o ho := h.inv.held_aligned ((h.mem_iff o).mp ho)
  not_reserved o ho k hk hres := by
    refine h.apart ho fun o' ho' => ?_
    rw [(h.reserved_iff k hk).mpr hres] at ho'
    exact ho'
  not_bucketInfo o ho k hk hbucket := by
    obtain ⟨r, hlook, htype⟩ := hbucket
    refine h.apart ho fun o' ho' => ?_
    have hnres : κ k ≠ .reserved := fun heq => by rw [heq] at ho'; exact ho'
    have hlook' := h.inv.lookup hk hnres (le_refl (L.addr k)) (by unfold sliceSize; omega)
    obtain rfl : r = L.record k := by
      rw [show L.start + sliceSize * k = L.addr k from rfl, hlook'] at hlook
      simpa using hlook.symm
    rw [(h.inv.type_eq k hk).mp htype] at ho'
    exact ho'
  allocate_returns hne kind := by
    obtain ⟨s', p, -, halloc, -⟩ := h.inv.allocate kind (.inl hne)
    exact ⟨s', p, halloc⟩
  free_returns o ho := by
    obtain ⟨s', -, hfree, -⟩ := h.inv.free ((h.mem_iff o).mp ho)
    exact ⟨s', hfree⟩

/-- `pmm_init` opens the account: nothing is outstanding. -/
theorem of_init {s : PmmState} {b : ℕ} {B : ℕ → ℕ} (hR : ManagedRange hw start N r)
    (h : InitInv start N (marked hw start) N b B s) :
    Accounted hw ⟨start, N, B⟩ ⟨s, []⟩ (initKind (marked hw start) B b) where
  inv := h.pmmInv hR
  mem_iff o := by
    refine iff_of_false List.not_mem_nil ?_
    rintro ⟨k, -, hmem⟩
    unfold initKind at hmem
    split at hmem
    · exact hmem
    · split at hmem <;> exact hmem
  nodup := List.nodup_nil
  reserved_iff k hk := by
    rw [initKind_reserved, hR.marked_eq hk,
      show Layout.addr ⟨start, N, B⟩ k = start + sliceSize * k from rfl, hR.reserved k hk]

end Accounted

/-- A client changes nothing without an object. -/
theorem mem_eq_of_nil {m : ByteMemory} (hnil : u.outstanding = [])
    (hm : ∀ x, (∀ o ∈ u.outstanding, x < o.addr ∨ o.addr + o.kind.size ≤ x) →
      m x = u.state.mem x) : m = u.state.mem := by
  ext x
  refine congrArg UInt8.toNat (hm x fun o ho => ?_)
  rw [hnil] at ho
  cases ho

/-- A manager without slices hands nothing out. -/
theorem run_of_empty (hrun : Relation.ReflTransGen Step u u') (hno : u.state.head .unused = 0)
    (hnil : u.outstanding = []) : u' = u := by
  refine Runs.invariant (I := fun u' => u' = u) ?_ hrun rfl
  rintro u₁ u₂ rfl hstep
  cases hstep with
  | allocate kind hne => exact absurd hno hne
  | free o ho =>
      rw [hnil] at ho
      cases ho
  | write m hm =>
      rw [mem_eq_of_nil hnil hm]
      rfl

theorem servedRun_of_empty (hrun : Relation.ReflTransGen ServedStep u u')
    (hno : ∀ kind, ¬Available kind u.state) (hnil : u.outstanding = []) : u' = u := by
  refine Runs.invariant (I := fun u' => u' = u) ?_ hrun rfl
  rintro u₁ u₂ rfl hstep
  cases hstep with
  | allocate kind halloc hp => exact absurd (available_of_ok halloc hp) (hno kind)
  | free o ho =>
      rw [hnil] at ho
      cases ho
  | write m hm =>
      rw [mem_eq_of_nil hnil hm]
      rfl

theorem safe_of_empty (hno : u.state.head .unused = 0) (hnil : u.outstanding = []) :
    Safe hw start 0 u := by
  have hmem : ∀ o, o ∉ u.outstanding := by
    rw [hnil]
    exact fun _ => List.not_mem_nil
  exact {
    disjoint := by rw [hnil]; exact List.Pairwise.nil
    within := fun o ho => absurd ho (hmem o)
    aligned := fun o ho => absurd ho (hmem o)
    not_reserved := fun o ho => absurd ho (hmem o)
    not_bucketInfo := fun o ho => absurd ho (hmem o)
    allocate_returns := fun hne => absurd hno hne
    free_returns := fun o ho => absurd ho (hmem o) }

/-- An empty range gets its first record and no other. -/
theorem pmmInit_empty (hw : HardwareInfo) (hS : SliceRange start 0) (mem : ByteMemory) :
    pmmInit hw mem start (start + sliceSize * 0) =
      .ok (pmmFirst mem start (start + sliceSize * 0)) := by
  have hfirst := hS.first_lt
  unfold pmmInit
  rw [Nat.mod_eq_of_lt hfirst]
  show pmmInitLoop hw (524287 + 1) _ _ _ _ = _
  unfold pmmInitLoop
  rw [if_neg]
  show ¬start + sliceSize < start + sliceSize * 0
  omega

/-- Of no slices nothing is handed out. -/
theorem not_available_first (mem : ByteMemory) (start endAddress : ℕ) (kind : ObjectKind) :
    ¬Available kind (pmmFirst mem start endAddress) := by
  rintro (hne | ⟨t, -, hne⟩)
  · exact hne rfl
  · cases t <;> exact hne rfl

/-- **The account of every run** from `pmm_init`.  By induction on the run,
with a lemma for each of its steps. -/
theorem pmmInit_accounted (hR : ManagedRange hw start N r) (hN : 0 < N)
    (hmem : ∀ x, start ≤ x → x < start + sliceSize * N → mem x = 0) :
    ∃ s B, pmmInit hw mem start (start + sliceSize * N) = .ok s ∧
      ∀ u, Relation.ReflTransGen Step ⟨s, []⟩ u → ∃ κ, Accounted hw ⟨start, N, B⟩ u κ := by
  obtain ⟨s, b, B, hinit, hinv⟩ := pmmInit_spec hR hN hmem
  refine ⟨s, B, hinit, fun u hrun => ?_⟩
  refine Runs.invariant (I := fun u => ∃ κ, Accounted hw ⟨start, N, B⟩ u κ) ?_ hrun
    ⟨_, Accounted.of_init hR hinv⟩
  rintro u u' ⟨κ, hacc⟩ hstep
  obtain ⟨κ', hacc', -⟩ := hacc.step hstep
  exact ⟨κ', hacc'⟩

/-- **No double hand-out.**  `pmm_init` returns on every range it can manage
whose memory is zero, and whatever its clients then do, outstanding objects
are disjoint, lie in the range, are aligned, and keep clear of reserved slices
and of the slices that hold the records. -/
theorem pmm_safe (hR : ManagedRange hw start N r)
    (hmem : ∀ x, start ≤ x → x < start + sliceSize * N → mem x = 0) :
    ∃ s, pmmInit hw mem start (start + sliceSize * N) = .ok s ∧
      ∀ u, Relation.ReflTransGen Step ⟨s, []⟩ u → Safe hw start N u := by
  rcases Nat.eq_zero_or_pos N with rfl | hN
  · refine ⟨_, pmmInit_empty hw hR.sliceRange mem, fun u hrun => ?_⟩
    rw [run_of_empty hrun rfl rfl]
    exact safe_of_empty rfl rfl
  · obtain ⟨s, B, hinit, hrun⟩ := pmmInit_accounted hR hN hmem
    refine ⟨s, hinit, fun u hu => ?_⟩
    obtain ⟨κ, hacc⟩ := hrun u hu
    exact hacc.safe

/-- Four slices from the bottom of the kernel's half, the last two reserved. -/
theorem pmm_safe_four_slices :
    ∃ s, pmmInit ⟨0x4000, 0x4000⟩ ⟨fun _ => 0⟩ 0x80000000 (0x80000000 + sliceSize * 4) = .ok s ∧
      ∀ u, Relation.ReflTransGen Step ⟨s, []⟩ u → Safe ⟨0x4000, 0x4000⟩ 0x80000000 4 u :=
  pmm_safe (r := 2)
    ⟨by decide, by decide, by decide, by decide, by decide⟩ fun _ _ _ => rfl

end CourseOs.Pmm
