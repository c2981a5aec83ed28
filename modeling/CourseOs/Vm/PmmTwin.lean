import CourseOs.Vm.PmmRecords

/-!
# Two managers over different leftovers

`pmm_init` does not write every word of a record: what RAM held before stays
in the `reserved` bit of a slice that is not reserved, and for a while in
`prev` and `filled`.  `Twin L κ m s₁ s₂` relates a manager that was set up
over the memory `m` to one that was set up over zeroes.  They have the same
heads and the same `next` and `slice` words; the other words agree where later
operations read them, except for the `reserved` bits, which are those of `m`.

The allocation and free functions keep the relation (`Twin.allocate`,
`Twin.free`).  Only what is looked up depends on the leftovers, so `Twin.free`
asks that the bits are clear.

The manager over zeroes is the one whose invariant is known, and everything
else is said by comparison with it: the functions on lists do the same on both
sides (`SameLinks.push`, `SameLinks.pop`, `SameLinks.remove`), and so the
kinds that hold on one side are those of the other.
-/

namespace CourseOs.Pmm

open ByteMemory LinkedList

variable {L : Layout} {s s' s₁ s₂ s₁' s₂' : PmmState} {κ κ' : ℕ → SliceKind} {k n : ℕ}
  {m m₁ m₂ : ByteMemory} {t : SlotKind} {lists : PmmList → List ℕ} {l : PmmList}
  {kind : SliceKind} {record : ℕ → ℕ} {P P' : ℕ → Prop} {f : Field} {v p : ℕ}

/-! ### The same links

The links of two managers over different memories, which need not have the
same words everywhere: a `prev` that neither side has written may differ, and
is not in `P` then. -/

/-- The managers are the same, and so are the links in the records, of the
`prev` words those in `P`.  The others may hold what was in memory before. -/
structure SameLinks (record : ℕ → ℕ) (n : ℕ) (P : ℕ → Prop) (s₁ s₂ : PmmState) : Prop where
  manager : s₁.manager = s₂.manager
  next : ∀ i < n, info s₁.mem (record i) .next = info s₂.mem (record i) .next
  slice : ∀ i < n, info s₁.mem (record i) .slice = info s₂.mem (record i) .slice
  prev : ∀ i < n, P i → info s₁.mem (record i) .prev = info s₂.mem (record i) .prev

namespace SameLinks

theorem mono (h : SameLinks record n P s₁ s₂) (hP : ∀ i < n, P' i → P i) :
    SameLinks record n P' s₁ s₂ :=
  ⟨h.manager, h.next, h.slice, fun i hi hi' => h.prev i hi (hP i hi hi')⟩

theorem head_eq (h : SameLinks record n P s₁ s₂) (l : PmmList) : s₁.head l = s₂.head l := by
  unfold PmmState.head
  rw [h.manager]

/-- The same word is written to the same record.  The two sides agree on it
then, even where they did not before. -/
theorem setInfo (h : SameLinks record n P s₁ s₂) (hr : RecordsApart record n) (hk : k < n)
    (f : Field) (v : ℕ) :
    SameLinks record n (fun i => P i ∨ i = k ∧ f = .prev)
      (s₁.withMem (setInfo s₁.mem (record k) f v))
      (s₂.withMem (setInfo s₂.mem (record k) f v)) where
  manager := h.manager
  next i hi := by
    rw [PmmState.withMem_mem, PmmState.withMem_mem, hr.info_setInfo hk hi,
      hr.info_setInfo hk hi, h.next i hi]
  slice i hi := by
    rw [PmmState.withMem_mem, PmmState.withMem_mem, hr.info_setInfo hk hi,
      hr.info_setInfo hk hi, h.slice i hi]
  prev i hi hP := by
    rw [PmmState.withMem_mem, PmmState.withMem_mem, hr.info_setInfo hk hi,
      hr.info_setInfo hk hi]
    by_cases hik : i = k ∧ Field.prev = f
    · rw [if_pos hik, if_pos hik]
    · rw [if_neg hik, if_neg hik]
      exact h.prev i hi (hP.resolve_right fun heq => hik ⟨heq.1, heq.2.symm⟩)

/-- The same word is written through the same link, unless it is null. -/
theorem setLink (h : SameLinks record n P s₁ s₂) (hr : RecordsApart record n)
    (hp : IsLink record n p) (f : Field) (v : ℕ) :
    SameLinks record n P
      (s₁.withMem (if p ≠ 0 then Pmm.setInfo s₁.mem p f v else s₁.mem))
      (s₂.withMem (if p ≠ 0 then Pmm.setInfo s₂.mem p f v else s₂.mem)) := by
  by_cases h0 : p = 0
  · rw [if_neg (not_not.mpr h0), if_neg (not_not.mpr h0)]
    exact h
  · obtain ⟨j, hj, rfl⟩ := hp.resolve_left h0
    rw [if_pos h0, if_pos h0]
    exact (h.setInfo hr hj f v).mono fun _ _ => Or.inl

theorem setHead (h : SameLinks record n P s₁ s₂) (l : PmmList) (p : ℕ) :
    SameLinks record n P (s₁.setHead l p) (s₂.setHead l p) where
  manager := by
    cases l <;> simp only [PmmState.setHead, h.manager]
  next i hi := by
    rw [PmmState.setHead_mem, PmmState.setHead_mem, h.next i hi]
  slice i hi := by
    rw [PmmState.setHead_mem, PmmState.setHead_mem, h.slice i hi]
  prev i hi hP := by
    rw [PmmState.setHead_mem, PmmState.setHead_mem, h.prev i hi hP]

/-- Each side rewrites the first word of a record. -/
theorem of_entryFrame (h : SameLinks record n P s₁ s₂) (hr : RecordsApart record n) (hk : k < n)
    (h₁ : EntryFrame (record k) s₁.mem m₁) (h₂ : EntryFrame (record k) s₂.mem m₂) :
    SameLinks record n P (s₁.withMem m₁) (s₂.withMem m₂) := by
  have hinfo : ∀ {m m' : ByteMemory}, EntryFrame (record k) m m' → ∀ i < n, ∀ f, f ≠ .entry →
      info m' (record i) f = info m (record i) f := fun hf i hi f hne =>
    hf.other _ _ (hr.apart hk hi) (Or.inr hne)
  refine ⟨h.manager, fun i hi => ?_, fun i hi => ?_, fun i hi hP => ?_⟩
  · exact (hinfo h₁ i hi _ (by decide)).trans ((h.next i hi).trans
      (hinfo h₂ i hi _ (by decide)).symm)
  · exact (hinfo h₁ i hi _ (by decide)).trans ((h.slice i hi).trans
      (hinfo h₂ i hi _ (by decide)).symm)
  · exact (hinfo h₁ i hi _ (by decide)).trans ((h.prev i hi hP).trans
      (hinfo h₂ i hi _ (by decide)).symm)

/-- `push_to_ll` on both sides. -/
theorem push (h : SameLinks record n P s₁ s₂) (hr : RecordsApart record n) (hk : k < n)
    (hhead : IsLink record n (s₂.head l)) :
    SameLinks record n P (pushToLl s₁ l (record k)) (pushToLl s₂ l (record k)) := by
  have hlink := h.setLink hr hhead .prev (record k)
  have hnext := (hlink.setInfo hr hk .next (s₂.head l)).setHead l (record k)
  unfold pushToLl
  rw [h.head_eq l]
  exact hnext.mono fun _ _ => Or.inl

/-- `pop_from_ll` on both sides, where the heads are the same.  It writes to
the head and to the next one only, by their links, and these agree. -/
theorem pop (h : SameLinks record n P s₁ s₂) (hr : RecordsApart record n) (hk : k < n)
    (h0 : record k ≠ 0) (hhead : s₂.head l = record k)
    (hnext : IsLink record n (info s₂.mem (record k) .next))
    (hpop : popFromLl s₂ l = .ok (s₂', record k)) :
    ∃ s₁', popFromLl s₁ l = .ok (s₁', record k) ∧
      SameLinks record n (fun i => P i ∨ i = k) s₁' s₂' ∧ LinksFrame record n s₁.mem s₁'.mem := by
  have hhead₁ : s₁.head l = record k := (h.head_eq l).trans hhead
  have hpop₁ : popFromLl s₁ l = .ok ((s₁.withMem (popMem s₁.mem (record k))).setHead l
      (info s₁.mem (record k) .next), record k) :=
    hhead₁ ▸ popFromLl_eq (hhead₁ ▸ h0)
  have hpop₂ : popFromLl s₂ l = .ok ((s₂.withMem (popMem s₂.mem (record k))).setHead l
      (info s₂.mem (record k) .next), record k) :=
    hhead ▸ popFromLl_eq (hhead ▸ h0)
  rw [hpop₂] at hpop
  cases hpop
  refine ⟨_, hpop₁, ?_, ?_⟩
  · have hlink := ((h.setLink hr hnext .prev 0).setInfo hr hk .next 0).setInfo hr hk .prev 0
    have hlinks : SameLinks record n (fun i => P i ∨ i = k)
        (s₁.withMem (popMem s₁.mem (record k))) (s₂.withMem (popMem s₂.mem (record k))) := by
      unfold popMem
      rw [h.next k hk]
      refine hlink.mono fun i _ hi => ?_
      rcases hi with hi | rfl
      · exact .inl (.inl hi)
      · exact .inr ⟨rfl, rfl⟩
    rw [h.next k hk]
    exact hlinks.setHead l _
  · rw [PmmState.setHead_mem]
    exact popMem_frame hr hk (h.next k hk ▸ hnext)

/-- `remove_element_ll` on both sides.  Its record is one whose `prev` the two
agree on. -/
theorem remove (h : SameLinks record n P s₁ s₂) (hl : Linked record n s₂ lists)
    (hk : k ∈ lists l) (hP : P k) :
    SameLinks record n P (removeElementLl s₁ l (record k)) (removeElementLl s₂ l (record k)) ∧
      LinksFrame record n s₁.mem (removeElementLl s₁ l (record k)).mem := by
  have hkn := hl.lt l k hk
  have hr := hl.apart
  have hnext := h.next k hkn
  have hprev := h.prev k hkn hP
  -- the record's own links outlive the write through its `next`
  have hself : ∀ f, info (unlinkPrev s₂.mem (record k)) (record k) f =
      info s₂.mem (record k) f := fun f => hl.unlinkPrev_self hk
  have h₁ : SameLinks record n P (s₁.withMem (unlinkPrev s₁.mem (record k)))
      (s₂.withMem (unlinkPrev s₂.mem (record k))) := by
    unfold unlinkPrev
    rw [hnext, hprev]
    exact h.setLink hr (hl.next_link hk) .prev _
  have hframe₁ : LinksFrame record n s₁.mem (unlinkPrev s₁.mem (record k)) := by
    unfold unlinkPrev
    rw [hnext, hprev]
    exact LinksFrame.setLink hr (hl.next_link hk) (Or.inr rfl)
  have hnext₁ := (h₁.next k hkn).trans (hself .next)
  have hprev₁ := (h₁.prev k hkn hP).trans (hself .prev)
  rw [PmmState.withMem_mem] at hnext₁ hprev₁
  have h₂ : SameLinks record n P
      (unlinkNext (s₁.withMem (unlinkPrev s₁.mem (record k))) l (record k))
      (unlinkNext (s₂.withMem (unlinkPrev s₂.mem (record k))) l (record k)) := by
    unfold unlinkNext
    rw [PmmState.withMem_mem, PmmState.withMem_mem, hprev₁, hnext₁, hself, hself]
    rcases hl.prev_link hk with h0 | ⟨j, hj, hpj⟩
    · rw [h0, if_neg (not_not.mpr rfl), if_neg (not_not.mpr rfl)]
      exact h₁.setHead l _
    · rw [hpj]
      by_cases h0 : record j = 0
      · rw [if_neg (not_not.mpr h0), if_neg (not_not.mpr h0)]
        exact h₁.setHead l _
      · rw [if_pos h0, if_pos h0]
        exact (h₁.setInfo hr hj .next _).mono fun _ _ => Or.inl
  constructor
  · exact ((h₂.setInfo hr hkn .next 0).setInfo hr hkn .prev 0).mono
      fun _ _ hi => .inl (.inl hi)
  · rw [removeElementLl_mem, unlinkNext_mem, PmmState.withMem_mem, hnext₁, hprev₁]
    exact ((hframe₁.trans (LinksFrame.setLink hr (hl.prev_link hk) (Or.inl rfl))).trans
      (LinksFrame.setInfo hr hkn (Or.inl rfl))).trans (LinksFrame.setInfo hr hkn (Or.inr rfl))

end SameLinks

/-- Both sides take the record of slice `k` off the list it heads. -/
theorem SameLinks.popHome (h : SameLinks L.record L.slices P s₁ s₂)
    (hl : OnHomeLists L s₂ κ lists) (hk : k < L.slices) (hne : s₂.head l ≠ 0)
    (hhead : s₂.head l = L.record k) :
    ∃ s₁' s₂', popFromLl s₁ l = .ok (s₁', L.record k) ∧ popFromLl s₂ l = .ok (s₂', L.record k) ∧
      SameLinks L.record L.slices (fun i => P i ∨ i = k) s₁' s₂' ∧
      LinksFrame L.record L.slices s₁.mem s₁'.mem ∧
      Linked L.record L.slices s₂'
        (Function.update lists (κ k).home ((lists (κ k).home).erase k)) := by
  obtain ⟨s₂', hpop, hlinked, -⟩ := hl.pop hk hne hhead
  have hmem : k ∈ lists l := by
    rcases hl.linked.head_cases l with ⟨h0, -⟩ | ⟨i, rest, hi, hheadi, -, hlt⟩
    · exact absurd h0 hne
    · obtain rfl : k = i := (hl.linked.apart.inj hk hlt).mp (hhead.symm.trans hheadi)
      rw [hi]
      exact List.mem_cons_self
  obtain ⟨s₁', hpop₁, hlinks, hframe⟩ := h.pop hl.linked.apart hk (hhead ▸ hne) hhead
    (hl.linked.next_link hmem) hpop
  exact ⟨s₁', s₂', hpop₁, hpop, hlinks, hframe, hlinked⟩

/-! ### Twins

Twins have the same kinds, lists and masks; they differ in the reserved bits
of slices that are not reserved.  An operation on both sides starts with a
lookup, and with its bit clear this gives the same record. -/

/-- The managers are alike: the same heads and links, the masks of the kinds,
reserved slices as `m` had them, and bits that come from `m` where the slice
is not reserved. -/
structure Twin (L : Layout) (κ : ℕ → SliceKind) (m : ByteMemory) (s₁ s₂ : PmmState) : Prop where
  links : SameLinks L.record L.slices (fun i => κ i ≠ .unused ∧ κ i ≠ .reserved) s₁ s₂
  mask : ∀ k < L.slices, ∀ t filled, κ k = .slots t filled →
    infoFilled s₁.mem (L.record k) = filled
  /-- The bit of a slice that is not reserved is what `m` had there. -/
  stray : ∀ k < L.slices, infoReserved s₁.mem (L.record k) =
    if κ k = .reserved then 1 else infoReserved m (L.record k)
  unwritten : ∀ k < L.slices, κ k = .reserved →
    Agree m s₁.mem (L.addr k) (L.addr k + sliceSize)

namespace Twin

theorem congr (h : Twin L κ m s₁ s₂) (heq : ∀ k < L.slices, κ' k = κ k) : Twin L κ' m s₁ s₂ where
  links := h.links.mono fun i hi hP => heq i hi ▸ hP
  mask k hk := by
    rw [heq k hk]
    exact h.mask k hk
  stray k hk := by
    rw [heq k hk]
    exact h.stray k hk
  unwritten k hk := by
    rw [heq k hk]
    exact h.unwritten k hk

/-- The lookup arrives at the same record. -/
theorem sliceinfoFor_eq (h : Twin L κ m s₁ s₂) (a : ℕ) : sliceinfoFor s₁ a = sliceinfoFor s₂ a := by
  unfold sliceinfoFor
  rw [h.links.manager]

/-- **One slice changes its kind** on both sides.  The mask of objects that
are out is the same in both. -/
theorem update (h : Twin L κ m s₁ s₂) (ht : PmmTables L s₂ κ) (hk : k < L.slices)
    (hold : (κ k).Usable) (hnew : kind.Assignable) (hframe : RecordFrame L k s₁.mem s₁'.mem)
    (hlinks : SameLinks L.record L.slices
      (fun i => (κ i ≠ .unused ∧ κ i ≠ .reserved) ∨ i = k) s₁' s₂')
    (hmask : ∀ t filled, kind = .slots t filled → infoFilled s₁'.mem (L.record k) = filled) :
    Twin L (Function.update κ k kind) m s₁' s₂' where
  links := by
    refine hlinks.mono fun i _ hP => ?_
    by_cases hik : i = k
    · exact .inr hik
    · rw [Function.update_of_ne hik] at hP
      exact .inl hP
  mask i hi t filled heq := by
    by_cases hik : i = k
    · subst hik
      rw [Function.update_self] at heq
      exact hmask t filled heq
    · rw [Function.update_of_ne hik] at heq
      unfold infoFilled
      rw [hframe.entry i hi hik]
      exact h.mask i hi t filled heq
  stray i hi := by
    by_cases hik : i = k
    · subst hik
      have hstray := h.stray i hi
      rw [if_neg fun heq => by rw [heq] at hold; exact hold] at hstray
      rw [hframe.reserved, hstray, Function.update_self,
        if_neg fun heq => by rw [heq] at hnew; exact hnew]
    · rw [Function.update_of_ne hik]
      unfold infoReserved
      rw [hframe.entry i hi hik]
      exact h.stray i hi
  unwritten i hi heq x hx hx' := by
    have hik : i ≠ k := by
      rintro rfl
      rw [Function.update_self] at heq
      rw [heq] at hnew
      exact hnew
    rw [Function.update_of_ne hik] at heq
    refine (hframe.outside x fun j hj => ?_).trans (h.unwritten i hi heq x hx hx')
    have := L.record_outside (ht.bucketSlice_ne hj (by rw [heq]; exact SliceKind.noConfusion))
    omega

/-- Both sides write into a slice that holds no records and is not reserved.
What they write there need not be the same. -/
theorem write (h : Twin L κ m s₁ s₂)
    (hbucket : ∀ i < L.slices, k ≠ L.bucketSlice (i / sliceinfoPerSlice)) (hres : κ k ≠ .reserved)
    (h₁ : ∀ x, (x < L.addr k ∨ L.addr k + sliceSize ≤ x) → m₁ x = s₁.mem x)
    (h₂ : ∀ x, (x < L.addr k ∨ L.addr k + sliceSize ≤ x) → m₂ x = s₂.mem x) :
    Twin L κ m (s₁.withMem m₁) (s₂.withMem m₂) := by
  have hinfo : ∀ {m m' : ByteMemory}, (∀ x, (x < L.addr k ∨ L.addr k + sliceSize ≤ x) →
      m' x = m x) → ∀ i < L.slices, ∀ f, info m' (L.record i) f = info m (L.record i) f := by
    intro m m' hm i hi f
    have hf := f.offset_le
    have hout := L.record_outside (hbucket i hi)
    exact readWord_congr fun x hx hx' => hm x (by omega)
  refine ⟨⟨h.links.manager, fun i hi => ?_, fun i hi => ?_, fun i hi hP => ?_⟩,
    fun i hi t filled heq => ?_, fun i hi => ?_, fun i hi heq x hx hx' => ?_⟩
  · exact (hinfo h₁ i hi _).trans ((h.links.next i hi).trans (hinfo h₂ i hi _).symm)
  · exact (hinfo h₁ i hi _).trans ((h.links.slice i hi).trans (hinfo h₂ i hi _).symm)
  · exact (hinfo h₁ i hi _).trans ((h.links.prev i hi hP).trans (hinfo h₂ i hi _).symm)
  · refine Eq.trans ?_ (h.mask i hi t filled heq)
    exact congrArg (fun w => BitVec.ofNat 8 (w / 4)) (hinfo h₁ i hi .entry)
  · refine Eq.trans ?_ (h.stray i hi)
    exact congrArg (fun w => w / 1024 % 2) (hinfo h₁ i hi .entry)
  · have hik : i ≠ k := by
      rintro rfl
      exact hres heq
    have := addr_disjoint (L := L) hik
    exact (h₁ x (by omega)).trans (h.unwritten i hi heq x hx hx')

/-- **From one home to the next** on both sides: the record of slice `k` has
been taken off its list and is pushed on the list of its new kind. -/
theorem relink (h : Twin L κ m s₁ s₂) (ht : PmmTables L s₂ κ) (kind : SliceKind)
    (hk : k < L.slices) (hold : (κ k).Usable) (hnew : kind.Assignable)
    (hframe : RecordFrame L k s₁.mem s₁'.mem)
    (hlinks : SameLinks L.record L.slices
      (fun i => (κ i ≠ .unused ∧ κ i ≠ .reserved) ∨ i = k) s₁' s₂')
    (hlinked : Linked L.record L.slices s₂' lists)
    (hmask : ∀ t filled, kind = .slots t filled → infoFilled s₁'.mem (L.record k) = filled) :
    Twin L (Function.update κ k kind) m (pushToLl s₁' kind.home (L.record k))
        (pushToLl s₂' kind.home (L.record k)) ∧
      info (pushToLl s₁' kind.home (L.record k)).mem (L.record k) .slice = L.addr k ∧
      info (pushToLl s₂' kind.home (L.record k)).mem (L.record k) .slice = L.addr k := by
  have hr := ht.recordsApart
  have hhead := hlinked.head_link kind.home
  have hpush := pushToLl_frame hr hk (hlinks.head_eq kind.home ▸ hhead)
  have hframe' := hframe.trans (RecordFrame.of_links hk hpush)
  have htwin := h.update ht hk hold hnew hframe' (hlinks.push hr hk hhead) fun t filled heq => by
    rw [hpush.filled hk]
    exact hmask t filled heq
  have hslice := (hframe'.slice k hk).trans ((h.links.slice k hk).trans (ht.slice_eq k hk))
  exact ⟨htwin, hslice, (htwin.links.slice k hk).symm.trans hslice⟩

/-- Both sides hand an object out of a slice, zeroed. -/
theorem fill {a z : ℕ} (h : Twin L (Function.update κ k kind) m s₁ s₂) (ht : PmmTables L s κ)
    (hold : (κ k).Usable) (hnew : kind.Usable) (ha : L.addr k ≤ a)
    (haz : a + z ≤ L.addr k + sliceSize) :
    Twin L (Function.update κ k kind) m (s₁.withMem (ByteMemory.fill s₁.mem a z 0))
      (s₂.withMem (ByteMemory.fill s₂.mem a z 0)) := by
  refine h.write (k := k) (fun i hi => ht.bucketSlice_ne hi hold.ne_bucketInfo) ?_
    (fun x hx => fill_apply_of_notMem (by omega)) fun x hx => fill_apply_of_notMem (by omega)
  rw [Function.update_self]
  rintro rfl
  exact hnew

/-! ### The functions on both sides

Each function does the same on both sides, and gives the same object. -/

/-- `pmm_allocate_l1_pagetable` on both sides gives the same table, the slice
of the head of the unused list. -/
theorem allocateL1 (h : Twin L κ m s₁ s₂) (ht : PmmTables L s₂ κ) (hne : s₂.head .unused ≠ 0) :
    ∃ k s₁' s₂', k < L.slices ∧ pmmAllocateL1Pagetable s₁ = .ok (s₁', L.addr k) ∧
      pmmAllocateL1Pagetable s₂ = .ok (s₂', L.addr k) ∧
      Twin L (Function.update κ k .l1) m s₁' s₂' := by
  obtain ⟨lists, hl⟩ := ht.lists
  obtain ⟨k, hk, hhome, hhead⟩ := hl.head hne
  have hkind : κ k = .unused := SliceKind.eq_unused_of_home hhome
  have hold : (κ k).Usable := by rw [hkind]; trivial
  obtain ⟨a₁, a₂, hpop₁, hpop₂, hlinks, hframe, hlinked⟩ := h.links.popHome hl hk hne hhead
  have hentry : ∀ m, EntryFrame (L.record k) m (setType m (L.record k) .l1PageTable) :=
    fun m => entryFrame_setType m _ _
  obtain ⟨htwin, hslice₁, hslice₂⟩ := h.relink ht .l1 hk hold trivial
    ((RecordFrame.of_links hk hframe).trans (RecordFrame.setType ht.layout hk .l1PageTable))
    (hlinks.of_entryFrame ht.recordsApart hk (hentry a₁.mem) (hentry a₂.mem))
    (hlinked.of_entryFrame hk (hentry a₂.mem)) (by rintro t filled ⟨⟩)
  refine ⟨k, _, _, hk, ?_, ?_, htwin.fill ht hold trivial (le_refl (L.addr k)) (le_refl _)⟩
  · unfold pmmAllocateL1Pagetable
    rw [if_neg (h.links.head_eq .unused ▸ hne), hpop₁, Exec.ok_bind]
    rw [show SliceKind.l1.home = .allocated from rfl] at hslice₁
    simp only [hslice₁]
    rfl
  · unfold pmmAllocateL1Pagetable
    rw [if_neg hne, hpop₂, Exec.ok_bind]
    rw [show SliceKind.l1.home = .allocated from rfl] at hslice₂
    simp only [hslice₂]
    rfl

/-- Opening an unused slice on both sides gives the same object, which is the
first of the slice. -/
theorem allocateSlot_unused (h : Twin L κ m s₁ s₂) (ht : PmmTables L s₂ κ)
    (hno : s₂.head t.partialFree = 0) (hne : s₂.head .unused ≠ 0) :
    ∃ k s₁' s₂', k < L.slices ∧ pmmAllocateSlot t s₁ = .ok (s₁', L.addr k) ∧
      pmmAllocateSlot t s₂ = .ok (s₂', L.addr k) ∧
      Twin L (Function.update κ k (.slots t 1)) m s₁' s₂' := by
  obtain ⟨lists, hl⟩ := ht.lists
  obtain ⟨k, hk, hhome, hhead⟩ := hl.head hne
  have hkind : κ k = .unused := SliceKind.eq_unused_of_home hhome
  have hold : (κ k).Usable := by rw [hkind]; trivial
  have hv : t.Valid 1 := by cases t <;> exact ⟨by decide, by decide⟩
  have hhome' : (SliceKind.slots t 1).home = t.partialFree := by cases t <;> rfl
  have hsize : t.size ≤ sliceSize := by cases t <;> decide
  obtain ⟨a₁, a₂, hpop₁, hpop₂, hlinks, hframe, hlinked⟩ := h.links.popHome hl hk hne hhead
  have hentry : ∀ m, EntryFrame (L.record k) m
      (setFilled (setType m (L.record k) t.memoryType) (L.record k) 1) := fun m =>
    (entryFrame_setType m _ _).trans (entryFrame_setFilled _ _ 1)
  obtain ⟨htwin, hslice₁, hslice₂⟩ := h.relink ht (.slots t 1) hk hold hv
    ((RecordFrame.of_links hk hframe).trans ((RecordFrame.setType ht.layout hk t.memoryType).trans
      (RecordFrame.setFilled ht.layout hk 1)))
    (hlinks.of_entryFrame ht.recordsApart hk (hentry a₁.mem) (hentry a₂.mem))
    (hlinked.of_entryFrame hk (hentry a₂.mem)) (by
      rintro t' filled ⟨rfl, rfl⟩
      exact infoFilled_setFilled_self _ _ _)
  rw [hhome'] at htwin hslice₁ hslice₂
  refine ⟨k, _, _, hk, ?_, ?_, htwin.fill (z := t.size) ht hold hv (le_refl (L.addr k))
    (by omega)⟩
  · unfold pmmAllocateSlot
    rw [h.links.head_eq, if_neg (not_not.mpr hno), hpop₁, Exec.ok_bind]
    simp only [hslice₁]
  · unfold pmmAllocateSlot
    rw [if_neg (not_not.mpr hno), hpop₂, Exec.ok_bind]
    simp only [hslice₂]

/-- Handing out an object of a slice that already serves this kind, on both
sides: the masks are the same, and so is the object. -/
theorem allocateSlot_partial (h : Twin L κ m s₁ s₂) (ht : PmmTables L s₂ κ)
    (hne : s₂.head t.partialFree ≠ 0) :
    ∃ k j filled s₁' s₂', k < L.slices ∧ j < t.perSlice ∧ κ k = .slots t filled ∧
      pmmAllocateSlot t s₁ = .ok (s₁', L.addr k + t.size * j) ∧
      pmmAllocateSlot t s₂ = .ok (s₂', L.addr k + t.size * j) ∧
      Twin L (Function.update κ k (.slots t (withSlot filled j))) m s₁' s₂' := by
  obtain ⟨lists, hl⟩ := ht.lists
  obtain ⟨k, hk, hhome, hhead⟩ := hl.head hne
  obtain ⟨filled, hkind, hnfull⟩ := SliceKind.eq_slots_of_home hhome
  have hv := ht.valid k hk t filled hkind
  have hold : (κ k).Usable := by rw [hkind]; exact hv
  have hhead₁ := (h.links.head_eq t.partialFree).trans hhead
  have hne₁ : s₁.head t.partialFree ≠ 0 := h.links.head_eq t.partialFree ▸ hne
  have hfilled₁ := h.mask k hk t filled hkind
  have hfilled₂ := ht.filled_eq hk hkind
  have hslice₂ := ht.slice_eq k hk
  have hslice₁ := (h.links.slice k hk).trans hslice₂
  obtain ⟨hj, -⟩ := firstFree_spec t hv hnfull
  generalize hjdef : firstFree filled = j at hj
  have hv' : t.Valid (withSlot filled j) := valid_withSlot hj (Or.inr hv)
  have hbounds := Layout.slot_bounds (L := L) (k := k) hj
  have hmask : filled ||| 1#8 <<< j = withSlot filled j := rfl
  have hself : ∀ m, infoFilled (setFilled m (L.record k) (withSlot filled j)) (L.record k) =
      withSlot filled j := fun m => infoFilled_setFilled_self m _ _
  have hentry : ∀ m, EntryFrame (L.record k) m (setFilled m (L.record k) (withSlot filled j)) :=
    fun m => entryFrame_setFilled m _ _
  have hmarked := RecordFrame.setFilled (m := s₁.mem) ht.layout hk (withSlot filled j)
  have hlinks := h.links.of_entryFrame ht.recordsApart hk (hentry s₁.mem) (hentry s₂.mem)
  by_cases hfull : withSlot filled j = t.full
  · -- the last free object: the record moves to the allocated list
    obtain ⟨a₁, a₂, hpop₁, hpop₂, hlinks', hframe, hlinked⟩ := hlinks.popHome
      (hl.of_entryFrame hk (hentry s₂.mem)) (l := t.partialFree) hk (by simpa using hne)
      (by simpa using hhead)
    obtain ⟨htwin, -⟩ := h.relink ht (.slots t (withSlot filled j)) hk hold hv'
      (hmarked.trans (RecordFrame.of_links hk hframe)) hlinks' hlinked (by
        rintro t' f ⟨rfl, rfl⟩
        exact (hframe.filled hk).trans (hself s₁.mem))
    refine ⟨k, j, filled, _, _, hk, hj, hkind, ?_, ?_,
      htwin.fill ht hold hv' hbounds.1 hbounds.2⟩
    · unfold pmmAllocateSlot
      rw [if_pos hne₁]
      simp only [hhead₁, hfilled₁, hslice₁, hjdef, hmask, PmmState.withMem_mem, hself, hpop₁,
        if_pos hfull, Exec.ok_bind, SliceKind.home]
    · unfold pmmAllocateSlot
      rw [if_pos hne]
      simp only [hhead, hfilled₂, hslice₂, hjdef, hmask, PmmState.withMem_mem, hself, hpop₂,
        if_pos hfull, Exec.ok_bind, SliceKind.home]
  · have hv' : (SliceKind.slots t (withSlot filled j)).Assignable := hv'
    have htwin := h.update ht hk hold hv' hmarked
      (hlinks.mono fun i _ hi => hi.elim id fun heq => by
        rw [heq, hkind]
        exact ⟨SliceKind.noConfusion, SliceKind.noConfusion⟩)
      (by
        rintro t' f ⟨rfl, rfl⟩
        exact hself s₁.mem)
    refine ⟨k, j, filled, _, _, hk, hj, hkind, ?_, ?_,
      htwin.fill ht hold hv' hbounds.1 hbounds.2⟩
    · unfold pmmAllocateSlot
      rw [if_pos hne₁]
      simp only [hhead₁, hfilled₁, hslice₁, hjdef, hmask, PmmState.withMem_mem, hself,
        if_neg hfull, Exec.ok_bind]
    · unfold pmmAllocateSlot
      rw [if_pos hne]
      simp only [hhead, hfilled₂, hslice₂, hjdef, hmask, PmmState.withMem_mem, hself,
        if_neg hfull, Exec.ok_bind]

/-- With its bit clear, the record of a slice that is not reserved is what the
lookup gives. -/
theorem lookup (h : Twin L κ m s₁ s₂) (hk : k < L.slices) (hres : κ k ≠ .reserved)
    (hclear : infoReserved m (L.record k) = 0) {a : ℕ} (hfound : sliceinfoFor s₂ a = L.record k) :
    pmmGetSliceinfoForSlice s₁ a = .success (L.record k) := by
  rw [pmmGetSliceinfoForSlice_eq, h.sliceinfoFor_eq, hfound, h.stray k hk, if_neg hres, hclear]
  rfl

/-- `remove_element_ll` on both sides, for a slice that hands objects out. -/
theorem unlink (h : Twin L κ m s₁ s₂) (ht : PmmTables L s₂ κ) (hl : OnHomeLists L s₂ κ lists)
    (hk : k < L.slices) (hold : (κ k).Usable) (hused : κ k ≠ .unused) :
    SameLinks L.record L.slices (fun i => κ i ≠ .unused ∧ κ i ≠ .reserved)
        (removeElementLl s₁ (κ k).home (L.record k)) (removeElementLl s₂ (κ k).home (L.record k)) ∧
      LinksFrame L.record L.slices s₁.mem (removeElementLl s₁ (κ k).home (L.record k)).mem ∧
      Linked L.record L.slices (removeElementLl s₂ (κ k).home (L.record k))
        (Function.update lists (κ k).home ((lists (κ k).home).erase k)) := by
  have hmem := ht.mem_home hl hk hold.ne_bucketInfo
  have hres : κ k ≠ .reserved := fun heq => by rw [heq] at hold; exact hold
  obtain ⟨hlinks, hframe⟩ := h.links.remove hl.linked hmem ⟨hused, hres⟩
  exact ⟨hlinks, hframe, (hl.linked.remove hmem).1⟩

/-- `pmm_free_l1_pagetable` on both sides.  That the record's bit was clear
before `pmm_init` is what keeps both from stopping. -/
theorem freeL1 (h : Twin L κ m s₁ s₂) (ht : PmmTables L s₂ κ) (hk : k < L.slices)
    (hkind : κ k = .l1) (hclear : infoReserved m (L.record k) = 0)
    (hfound : sliceinfoFor s₂ (L.addr k) = L.record k) :
    ∃ s₁' s₂', pmmFreeL1Pagetable s₁ (L.addr k) = .ok s₁' ∧
      pmmFreeL1Pagetable s₂ (L.addr k) = .ok s₂' ∧
      Twin L (Function.update κ k .unused) m s₁' s₂' := by
  obtain ⟨lists, hl⟩ := ht.lists
  have hold : (κ k).Usable := by rw [hkind]; trivial
  have hlook₁ := h.lookup hk (by simp [hkind]) hclear hfound
  have hlook₂ := ht.lookup hk (by simp [hkind]) hfound
  obtain ⟨hlinks, hframe, hlinked⟩ := h.unlink ht hl hk hold (by simp [hkind])
  rw [show (κ k).home = .allocated by rw [hkind]; rfl] at hlinks hframe hlinked
  have hr := ht.recordsApart
  have hhead := hlinked.head_link .unused
  have hpush := pushToLl_frame hr hk (hlinks.head_eq .unused ▸ hhead)
  have hnew : SliceKind.unused.Assignable := trivial
  have htwin := h.update ht hk hold hnew
    (RecordFrame.of_links hk ((hframe.trans hpush).trans
      (LinksFrame.setInfo (v := 0) hr hk (Or.inr rfl))))
    (((hlinks.push hr hk hhead).setInfo hr hk .prev 0).mono
      fun i _ hi => hi.imp id fun heq => ⟨heq, rfl⟩) (by rintro t filled ⟨⟩)
  have h0 : L.addr k ≠ 0 := by
    have hk0 : k ≠ 0 := by
      rintro rfl
      rw [ht.bucketSlice_zero_kind hk] at hkind
      cases hkind
    unfold Layout.addr sliceSize
    omega
  refine ⟨_, _, ?_, ?_, htwin⟩
  · unfold pmmFreeL1Pagetable
    rw [if_neg h0, hlook₁]
  · unfold pmmFreeL1Pagetable
    rw [if_neg h0, hlook₂]

/-- The free functions for L2 tables and pages on both sides.  The look-up
finds the same record, whose reserved bit is clear on both, and the masks and
lists agree from there on. -/
theorem freeSlot (h : Twin L κ m s₁ s₂) (ht : PmmTables L s₂ κ) (hk : k < L.slices)
    {filled : BitVec 8} {j : ℕ} (hkind : κ k = .slots t filled) (hbit : filled.getLsbD j = true)
    (hclear : infoReserved m (L.record k) = 0)
    (hfound : sliceinfoFor s₂ (L.addr k + t.size * j) = L.record k) :
    ∃ s₁' s₂', pmmFreeSlot t s₁ (L.addr k + t.size * j) = .ok s₁' ∧
      pmmFreeSlot t s₂ (L.addr k + t.size * j) = .ok s₂' ∧
      Twin L (Function.update κ k (.serving t (withoutSlot filled j))) m s₁' s₂' := by
  obtain ⟨lists, hl⟩ := ht.lists
  have hv := ht.valid k hk t filled hkind
  have hold : (κ k).Usable := by rw [hkind]; exact hv
  have hj := hv.lt hbit
  have hbounds := Layout.slot_bounds (L := L) (k := k) hj
  have hpos := t.size_pos
  have hlook₁ := h.lookup hk (by simp [hkind]) hclear hfound
  have hlook₂ := ht.lookup hk (by simp [hkind]) hfound
  obtain ⟨hlinks, hframe, hlinked⟩ := h.unlink ht hl hk hold (by simp [hkind])
  have hframe₂ := hl.linked.remove_frame (ht.mem_home hl hk (by simp [hkind]))
  rw [hkind] at hlinks hframe hlinked hframe₂
  have hentry : ∀ m, EntryFrame (L.record k) m
      (setFilled m (L.record k) (withoutSlot filled j)) := fun m => entryFrame_setFilled m _ _
  obtain ⟨htwin, -⟩ := h.relink ht (.serving t (withoutSlot filled j)) hk hold
    (SliceKind.usable_serving (valid_withoutSlot hv)).assignable
    ((RecordFrame.of_links hk hframe).trans (RecordFrame.setFilled ht.layout hk _))
    ((hlinks.mono fun i _ hi => hi.elim id fun heq => by
      rw [heq, hkind]
      exact ⟨SliceKind.noConfusion, SliceKind.noConfusion⟩).of_entryFrame ht.recordsApart hk
        (hentry _) (hentry _))
    (hlinked.of_entryFrame hk (hentry _)) (by
      intro t' f heq
      obtain ⟨rfl, rfl⟩ := SliceKind.eq_of_serving heq
      exact infoFilled_setFilled_self _ _ _)
  have hlt := ht.layout.addr_lt hk
  have hindex : ∀ {s : PmmState}, info s.mem (L.record k) .slice = L.addr k →
      LinksFrame L.record L.slices s.mem
        (removeElementLl s (SliceKind.slots t filled).home (L.record k)).mem →
      sub32 (L.addr k + t.size * j) (info (removeElementLl s (SliceKind.slots t filled).home
        (L.record k)).mem (L.record k) .slice) / t.size = j := by
    intro s hs hf
    rw [hf.slice k hk, hs, sub32_of_le hbounds.1 (by omega), Nat.add_sub_cancel_left,
      Nat.mul_div_cancel_left j hpos]
  have hfilled₁ := h.mask k hk t filled hkind
  have hfilled₂ := ht.filled_eq hk hkind
  have hslice₂ := ht.slice_eq k hk
  exact ⟨_, _, pmmFreeSlot_eq hlook₁ hj hfilled₁ ((hframe.filled hk).trans hfilled₁)
      (hindex ((h.links.slice k hk).trans hslice₂) hframe),
    pmmFreeSlot_eq hlook₂ hj hfilled₂ ((hframe₂.filled hk).trans hfilled₂)
      (hindex hslice₂ hframe₂), htwin⟩

end Twin

/-! ### Kinds and memory

Two runs are in step if they are in step with a common third one.  For this
the kinds must be a matter of memory, and they are. -/

namespace PmmTables

/-- The unused slices are those whose records are on the unused list. -/
theorem eq_unused_iff (h : PmmTables L s κ) (hk : k < L.slices) {xs : List ℕ}
    (hxs : Chain (info s.mem · .next) (s.head .unused) xs) :
    κ k = .unused ↔ L.record k ∈ xs := by
  obtain ⟨lists, hl⟩ := h.lists
  obtain rfl := Chain.unique hxs (hl.linked.dlist .unused).chain
  constructor
  · intro hkind
    have hmem := h.mem_home hl hk (by rw [hkind]; exact SliceKind.noConfusion)
    rw [hkind] at hmem
    exact List.mem_map_of_mem hmem
  · intro hmem
    obtain ⟨i, hi, heq⟩ := List.mem_map.mp hmem
    obtain rfl := (h.recordsApart.inj (hl.linked.lt _ i hi) hk).mp heq
    exact SliceKind.eq_unused_of_home ((hl.mem_iff _ i hk).mp hi).1

/-- **Memory determines the kinds.**  So two runs that keep a common memory
keep common kinds. -/
theorem kind_unique (h : PmmTables L s κ) (h' : PmmTables L s κ') (hk : k < L.slices) :
    κ' k = κ k := by
  have hbucket : κ k = .bucketInfo ↔ κ' k = .bucketInfo :=
    (h.type_eq k hk).symm.trans (h'.type_eq k hk)
  have hslots : ∀ t filled, κ k = .slots t filled ↔ κ' k = .slots t filled := fun t filled =>
    (h.slots_iff hk).trans (h'.slots_iff hk).symm
  have hres : κ k = .reserved ↔ κ' k = .reserved := by
    have heq := (h.reserved_eq k hk).symm.trans (h'.reserved_eq k hk)
    by_cases hr : κ k = .reserved <;> by_cases hr' : κ' k = .reserved <;> simp_all
  have hunused : κ k = .unused ↔ κ' k = .unused := by
    obtain ⟨lists, hl⟩ := h.lists
    have hchain := (hl.linked.dlist .unused).chain
    exact (h.eq_unused_iff hk hchain).trans (h'.eq_unused_iff hk hchain).symm
  cases hkind : κ k with
  | unused => exact hunused.mp hkind
  | slots t filled => exact (hslots t filled).mp hkind
  | bucketInfo => exact hbucket.mp hkind
  | reserved => exact hres.mp hkind
  | l1 =>
      cases hkind' : κ' k with
      | l1 => rfl
      | unused => exact (hunused.mpr hkind').symm.trans hkind
      | slots t filled => exact ((hslots t filled).mpr hkind').symm.trans hkind
      | bucketInfo => exact (hbucket.mpr hkind').symm.trans hkind
      | reserved => exact (hres.mpr hkind').symm.trans hkind

end PmmTables

namespace Twin

theorem available_iff (h : Twin L κ m s₁ s₂) (kind : ObjectKind) :
    Available kind s₁ ↔ Available kind s₂ := by
  unfold Available
  simp only [h.links.head_eq]

/-- **An allocation** on both sides hands out the same object, of an unused
slice or of one that is partly free. -/
theorem allocate (h : Twin L κ m s₁ s₂) (ht : PmmTables L s₂ κ) (kind : ObjectKind)
    (hav : Available kind s₂) :
    ∃ s₁' s₂' a κ', Pmm.allocate kind s₁ = .ok (s₁', a) ∧ Pmm.allocate kind s₂ = .ok (s₂', a) ∧
      PmmTables L s₂' κ' ∧ Twin L κ' m s₁' s₂' := by
  cases kind with
  | l1 =>
      have hne : s₂.head .unused ≠ 0 := by
        rcases hav with hne | ⟨t, heq, -⟩
        · exact hne
        · cases heq
      obtain ⟨k, s₁', s₂', hk, h₁, h₂, htwin⟩ := h.allocateL1 ht hne
      obtain ⟨k', s', -, -, h₂', hinv', -⟩ := ht.allocateL1 hne
      obtain ⟨rfl, ha⟩ := Prod.mk.inj (Except.ok.inj (h₂.symm.trans h₂'))
      obtain rfl := addr_inj ha
      exact ⟨_, _, _, _, h₁, h₂, hinv', htwin⟩
  | slot t =>
      rw [allocate_slot]
      by_cases hno : s₂.head t.partialFree = 0
      · have hne : s₂.head .unused ≠ 0 := by
          rcases hav with hne | ⟨t', heq, hne⟩
          · exact hne
          · cases heq
            exact absurd hno hne
        obtain ⟨k, s₁', s₂', hk, h₁, h₂, htwin⟩ := h.allocateSlot_unused ht hno hne
        obtain ⟨k', s', -, -, h₂', hinv', -⟩ := ht.allocateSlot_unused hno hne
        obtain ⟨rfl, ha⟩ := Prod.mk.inj (Except.ok.inj (h₂.symm.trans h₂'))
        obtain rfl := addr_inj ha
        exact ⟨_, _, _, _, h₁, h₂, hinv', htwin⟩
      · obtain ⟨k, j, filled, s₁', s₂', hk, hj, hkind, h₁, h₂, htwin⟩ :=
          h.allocateSlot_partial ht hno
        obtain ⟨k', j', filled', s', -, hj', hkind', -, h₂', hinv', -⟩ :=
          ht.allocateSlot_partial hno
        obtain ⟨rfl, ha⟩ := Prod.mk.inj (Except.ok.inj (h₂.symm.trans h₂'))
        obtain ⟨rfl, rfl⟩ := slot_inj hj hj' ha
        obtain ⟨-, rfl⟩ := SliceKind.slots.inj (hkind.symm.trans hkind')
        exact ⟨_, _, _, _, h₁, h₂, hinv', htwin⟩

/-- **A free** on both sides, when the record for the object is found and its
bit is clear. -/
theorem free (h : Twin L κ m s₁ s₂) (ht : PmmTables L s₂ κ) {o : Object} (ho : o ∈ held L κ)
    (hfound : ∀ k < L.slices, o ∈ objects L k (κ k) →
      sliceinfoFor s₂ o.addr = L.record k ∧ infoReserved m (L.record k) = 0) :
    ∃ s₁' s₂' κ', Pmm.free o.kind s₁ o.addr = .ok s₁' ∧ Pmm.free o.kind s₂ o.addr = .ok s₂' ∧
      PmmTables L s₂' κ' ∧ Twin L κ' m s₁' s₂' := by
  obtain ⟨k, hk, hmem⟩ := ho
  obtain ⟨hrecord, hclear⟩ := hfound k hk hmem
  cases hkind : κ k with
  | l1 =>
      rw [hkind] at hmem
      obtain rfl : o = ⟨.l1, L.addr k⟩ := hmem
      obtain ⟨s₁', s₂', h₁, h₂, htwin⟩ := h.freeL1 ht hk hkind hclear hrecord
      obtain ⟨s', h₂', hinv', -⟩ := ht.freeL1 hk hkind hrecord
      obtain rfl := Except.ok.inj (h₂.symm.trans h₂')
      exact ⟨_, _, _, h₁, h₂, hinv', htwin⟩
  | slots t filled =>
      rw [hkind] at hmem
      obtain ⟨j, hbit, rfl⟩ := hmem
      obtain ⟨s₁', s₂', h₁, h₂, htwin⟩ :=
        h.freeSlot ht hk hkind hbit hclear hrecord
      obtain ⟨s', h₂', hinv', -⟩ := ht.freeSlot hk hkind hbit hrecord
      obtain rfl := Except.ok.inj (h₂.symm.trans h₂')
      rw [free_slot]
      exact ⟨_, _, _, h₁, h₂, hinv', htwin⟩
  | unused | bucketInfo | reserved =>
      rw [hkind] at hmem
      cases hmem

end Twin

end CourseOs.Pmm
