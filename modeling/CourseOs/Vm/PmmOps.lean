import CourseOs.Vm.PmmInvariant

/-!
# What the allocation and free functions do to the kinds

One theorem per function.  Each starts from `PmmTables L s κ`, says that the
function returns, and gives the kinds of the state it returns: `κ` with the
kind of one slice replaced.  The bytes that are not part of a record or of the
object handed out stay as they are.

All of them take the record of a slice off the list its kind names, possibly
rewrite the record's first word, and push it on the list the new kind names;
`PmmTables.relink` is that step.  The free functions also need the record to
be found, which is a hypothesis here (`hfound`): whether it is depends on
where `pmm_init` put the records.

An L2 table or a page comes from one of two places.  If a slice already serves
the kind and has a free object, it comes from there (`allocateSlot_partial`);
otherwise an unused slice is opened (`allocateSlot_unused`).
`SliceKind.serving` makes one case of the two, and `allocateSlot` puts them
together.
-/

namespace CourseOs.Pmm

open ByteMemory LinkedList

variable {L : Layout} {s s' s₁ : PmmState} {κ : ℕ → SliceKind} {k : ℕ} {m m' : ByteMemory}
  {t : SlotKind} {lists : PmmList → List ℕ} {l : PmmList} {kind : SliceKind}

/-! ### Homes

A kind has a list it is at home on, and a slice that changes its kind moves
from one home to another.  The moves of all operations are instances of
`relink`, after the record has been taken off the first list by a pop or an
unlinking. -/

theorem SliceKind.eq_unused_of_home (h : kind.home = .unused) : kind = .unused := by
  cases kind with
  | unused => rfl
  | slots t filled =>
      by_cases hf : filled = t.full
      · simp [home, hf] at h
      · cases t <;> simp [home, hf, SlotKind.partialFree] at h
  | l1 => cases h
  | bucketInfo => cases h
  | reserved => cases h

theorem SliceKind.eq_slots_of_home (h : kind.home = t.partialFree) :
    ∃ filled, kind = .slots t filled ∧ filled ≠ t.full := by
  cases kind with
  | unused => cases t <;> cases h
  | slots t' filled =>
      by_cases hf : filled = t'.full
      · cases t <;> simp [home, hf, SlotKind.partialFree] at h
      · obtain rfl : t' = t := by
          cases t' <;> cases t <;> simp_all [home, SlotKind.partialFree]
        exact ⟨filled, rfl, hf⟩
  | l1 => cases t <;> cases h
  | bucketInfo => cases t <;> cases h
  | reserved => cases t <;> cases h

/-- A slice that serves objects of kind `t`, those in `filled` being handed
out.  With none handed out it is unused again. -/
def SliceKind.serving (t : SlotKind) (filled : BitVec 8) : SliceKind :=
  if filled = 0 then .unused else .slots t filled

theorem SliceKind.serving_of_valid {filled : BitVec 8} (h : t.Valid filled) :
    serving t filled = .slots t filled :=
  if_neg h.1

theorem SliceKind.mask_serving (t : SlotKind) (filled : BitVec 8) :
    (serving t filled).mask = filled := by
  unfold serving
  split
  · next h0 => exact h0.symm
  · rfl

theorem SliceKind.eq_of_serving {t' : SlotKind} {filled f : BitVec 8}
    (h : serving t filled = .slots t' f) : t = t' ∧ filled = f := by
  unfold serving at h
  split at h
  · cases h
  · cases h
    exact ⟨rfl, rfl⟩

theorem SliceKind.usable_serving {filled : BitVec 8} (h : filled = 0 ∨ t.Valid filled) :
    (serving t filled).Usable := by
  rcases h with rfl | h
  · trivial
  · rw [serving_of_valid h]
    exact h

theorem SliceKind.Usable.ne_bucketInfo (h : kind.Usable) : kind ≠ .bucketInfo := by
  rintro rfl
  exact h

namespace PmmTables

theorem bucketSlice_zero_kind (h : PmmTables L s κ) (hk : k < L.slices) : κ 0 = .bucketInfo := by
  have := h.bucketSlice_kind 0 (by omega)
  rwa [show (0 : ℕ) / sliceinfoPerSlice = 0 from rfl, h.bucket_first] at this

/-- Only the record of slice 0 can lie at address 0. -/
theorem eq_zero_of_record (h : PmmTables L s κ) (hk : k < L.slices) (h0 : L.record k = 0) :
    k = 0 := by
  have hb : L.bucketSlice (k / sliceinfoPerSlice) = L.bucketSlice (0 / sliceinfoPerSlice) := by
    rw [show (0 : ℕ) / sliceinfoPerSlice = 0 from rfl, h.bucket_first]
    unfold Layout.record Layout.addr sliceSize at h0
    omega
  have hk0 := h.layout.bucketSlice_inj k hk 0 (by omega) hb
  unfold Layout.record sliceInfoSize sliceinfoPerSlice at *
  omega

theorem record_ne_zero (h : PmmTables L s κ) (hk : k < L.slices) (hkind : κ k ≠ .bucketInfo) :
    L.record k ≠ 0 := by
  intro h0
  obtain rfl := h.eq_zero_of_record hk h0
  exact hkind (h.bucketSlice_zero_kind hk)

theorem mem_home (h : PmmTables L s κ) (hl : OnHomeLists L s κ lists) (hk : k < L.slices)
    (hkind : κ k ≠ .bucketInfo) : k ∈ lists (κ k).home :=
  (hl.mem_iff _ k hk).mpr ⟨rfl, h.record_ne_zero hk hkind⟩

/-- A list head is not null exactly when some slice has its home on the list.
The list of allocated slices is left out, because the record of slice 0 may be
the null pointer. -/
theorem head_ne_zero_iff (h : PmmTables L s κ) (hl : l ≠ .allocated) :
    s.head l ≠ 0 ↔ ∃ k < L.slices, (κ k).home = l := by
  obtain ⟨lists, hlists⟩ := h.lists
  constructor
  · intro hne
    rcases hlists.linked.head_cases l with ⟨h0, -⟩ | ⟨k, rest, hk, -, -, hlt⟩
    · exact absurd h0 hne
    · exact ⟨k, hlt, ((hlists.mem_iff l k hlt).mp (hk ▸ List.mem_cons_self)).1⟩
  · rintro ⟨k, hk, rfl⟩ h0
    have hmem := h.mem_home hlists hk fun heq => hl (by rw [heq]; rfl)
    rcases hlists.linked.head_cases (κ k).home with ⟨-, hnil⟩ | ⟨j, rest, -, hj, hj0, -⟩
    · rw [hnil] at hmem
      cases hmem
    · exact hj0 (hj ▸ h0)

theorem unused_ne_zero_iff (h : PmmTables L s κ) :
    s.head .unused ≠ 0 ↔ ∃ k < L.slices, κ k = .unused := by
  rw [h.head_ne_zero_iff (by decide)]
  constructor
  · rintro ⟨k, hk, hhome⟩
    exact ⟨k, hk, SliceKind.eq_unused_of_home hhome⟩
  · rintro ⟨k, hk, hkind⟩
    exact ⟨k, hk, by rw [hkind]; rfl⟩

end PmmTables

namespace OnHomeLists

/-- The slice whose record a head field points to. -/
theorem head (h : OnHomeLists L s κ lists) (hne : s.head l ≠ 0) :
    ∃ k < L.slices, (κ k).home = l ∧ s.head l = L.record k := by
  rcases h.linked.head_cases l with ⟨h0, -⟩ | ⟨k, rest, hk, hhead, -, hlt⟩
  · exact absurd h0 hne
  · exact ⟨k, hlt, ((h.mem_iff l k hlt).mp (hk ▸ List.mem_cons_self)).1, hhead⟩

/-- Popping the record of slice `k` from the list it heads, which is its home. -/
theorem pop (h : OnHomeLists L s κ lists) (hk : k < L.slices) (hne : s.head l ≠ 0)
    (hhead : s.head l = L.record k) :
    ∃ s₁, popFromLl s l = .ok (s₁, L.record k) ∧
      Linked L.record L.slices s₁
        (Function.update lists (κ k).home ((lists (κ k).home).erase k)) ∧
      info s₁.mem (L.record k) .prev = 0 ∧ LinksFrame L.record L.slices s.mem s₁.mem ∧
      s₁.manager.start = s.manager.start ∧
      s₁.manager.endAddress = s.manager.endAddress := by
  rcases h.linked.head_cases l with ⟨h0, -⟩ | ⟨i, rest, hi, hheadi, -, hlt⟩
  · exact absurd h0 hne
  · obtain rfl : k = i := (h.linked.apart.inj hk hlt).mp (hhead.symm.trans hheadi)
    have hhome := ((h.mem_iff l k hlt).mp (hi ▸ List.mem_cons_self)).1
    obtain ⟨s₁, hpop, hlinked, hframe, hprev, -, hstart, hend⟩ := h.linked.pop hi
    refine ⟨s₁, hpop, ?_, hprev, hframe, hstart, hend⟩
    rwa [hhome, hi, List.erase_cons_head]

end OnHomeLists

namespace PmmTables

/-- **From one home to the next.**  The record of slice `k` has been unlinked
from the list of its old kind and is pushed on the list of its new kind. -/
theorem relink (h : PmmTables L s κ) (kind : SliceKind) (hl : OnHomeLists L s κ lists)
    (hk : k < L.slices) (hold : (κ k).Usable) (hnew : kind.Assignable)
    (hlinked : Linked L.record L.slices s₁
      (Function.update lists (κ k).home ((lists (κ k).home).erase k)))
    (hprev : info s₁.mem (L.record k) .prev = 0)
    (hframe : RecordFrame L k s.mem s₁.mem)
    (hstart : s₁.manager.start = s.manager.start)
    (hmask : kind ≠ .bucketInfo → infoFilled s₁.mem (L.record k) = kind.mask)
    (htype : infoType s₁.mem (L.record k) = MemoryType.bucketInfo.code ↔ kind = .bucketInfo)
    (hslots : ∀ t filled, kind = .slots t filled →
      infoType s₁.mem (L.record k) = t.memoryType.code) :
    PmmTables L (pushToLl s₁ kind.home (L.record k)) (Function.update κ k kind) ∧
      RecordFrame L k s.mem (pushToLl s₁ kind.home (L.record k)).mem ∧
      info (pushToLl s₁ kind.home (L.record k)).mem (L.record k) .prev = 0 := by
  have hk0 := h.record_ne_zero hk hold.ne_bucketInfo
  -- `k` is on no list of `s₁`
  have hoff : ∀ l, k ∉ Function.update lists (κ k).home ((lists (κ k).home).erase k) l := by
    intro l hmem
    by_cases hlk : l = (κ k).home
    · subst hlk
      rw [Function.update_self] at hmem
      exact (List.Nodup.mem_erase_iff (hl.linked.nodup _)).mp hmem |>.1 rfl
    · rw [Function.update_of_ne hlk] at hmem
      exact hlk ((hl.mem_iff l k hk).mp hmem).1.symm
  have hpushed : Linked _ _ (pushToLl s₁ kind.home (L.record k)) _ :=
    hlinked.push hk hoff hk0 hprev
  have hback := (hpushed.dlist kind.home).back
  rw [Function.update_self] at hback
  have hframe' : RecordFrame L k s.mem (pushToLl s₁ kind.home (L.record k)).mem :=
    hframe.trans (RecordFrame.of_links hk (hlinked.push_frame hk))
  refine ⟨h.update hk hold hnew hframe' ((pushToLl_start _ _ _).trans hstart)
    ⟨_, hpushed, fun l i hi => ?_⟩ (fun hne => ?_) ?_ (fun t filled heq => ?_), hframe', hback.1⟩
  · by_cases hik : i = k
    · subst hik
      rw [Function.update_self]
      by_cases hlk : l = kind.home
      · subst hlk
        simp [hk0]
      · rw [Function.update_of_ne hlk]
        exact ⟨fun hmem => absurd hmem (hoff l), fun heq => absurd heq.1.symm hlk⟩
    · rw [Function.update_of_ne hik, ← hl.mem_iff l i hi]
      have herase : ∀ l, i ∈ Function.update lists (κ k).home ((lists (κ k).home).erase k) l ↔
          i ∈ lists l := by
        intro l
        by_cases hlk : l = (κ k).home
        · subst hlk
          rw [Function.update_self, List.mem_erase_of_ne hik]
        · rw [Function.update_of_ne hlk]
      by_cases hlk : l = kind.home
      · subst hlk
        rw [Function.update_self, List.mem_cons, herase]
        simp [hik]
      · rw [Function.update_of_ne hlk, herase]
  · rw [(hlinked.push_frame hk).filled hk]
    exact hmask hne
  · rw [(hlinked.push_frame hk).type hk]
    exact htype
  · rw [(hlinked.push_frame hk).type hk]
    exact hslots t filled heq

/-- The record of a slice that is no bucket slice stays so when its type is
kept. -/
theorem type_ne (h : PmmTables L s κ) (hk : k < L.slices) (hkind : κ k ≠ .bucketInfo)
    (heq : infoType m (L.record k) = infoType s.mem (L.record k)) :
    infoType m (L.record k) ≠ MemoryType.bucketInfo.code := by
  rw [heq, Ne, h.type_eq k hk]
  exact hkind

/-- Unlinking the record of a slice from its home.  The record keeps what it
says of the slice. -/
theorem unlink (h : PmmTables L s κ) (hl : OnHomeLists L s κ lists) (hk : k < L.slices)
    (hkind : κ k ≠ .bucketInfo) :
    Linked L.record L.slices (removeElementLl s (κ k).home (L.record k))
        (Function.update lists (κ k).home ((lists (κ k).home).erase k)) ∧
      info (removeElementLl s (κ k).home (L.record k)).mem (L.record k) .prev = 0 ∧
      LinksFrame L.record L.slices s.mem (removeElementLl s (κ k).home (L.record k)).mem := by
  have hmem := h.mem_home hl hk hkind
  have hrem := hl.linked.remove hmem
  exact ⟨hrem.1, hrem.2, hl.linked.remove_frame hmem⟩

/-- The same for a slice in use.  It gets another kind, and its record goes to
the list that the kind is at home on. -/
theorem rehome (h : PmmTables L s κ) (kind : SliceKind) (hl : OnHomeLists L s κ lists)
    (hk : k < L.slices) (hold : (κ k).Usable) (hnew : kind.Usable)
    (hlinked : Linked L.record L.slices s₁
      (Function.update lists (κ k).home ((lists (κ k).home).erase k)))
    (hprev : info s₁.mem (L.record k) .prev = 0)
    (hframe : RecordFrame L k s.mem s₁.mem)
    (hstart : s₁.manager.start = s.manager.start)
    (hmask : infoFilled s₁.mem (L.record k) = kind.mask)
    (htype : infoType s₁.mem (L.record k) ≠ MemoryType.bucketInfo.code)
    (hslots : ∀ t filled, kind = .slots t filled →
      infoType s₁.mem (L.record k) = t.memoryType.code) :
    PmmTables L (pushToLl s₁ kind.home (L.record k)) (Function.update κ k kind) ∧
      RecordFrame L k s.mem (pushToLl s₁ kind.home (L.record k)).mem ∧
      info (pushToLl s₁ kind.home (L.record k)).mem (L.record k) .prev = 0 :=
  h.relink kind hl hk hold hnew.assignable hlinked hprev hframe hstart (fun _ => hmask)
    (iff_of_false htype hnew.ne_bucketInfo) hslots

end PmmTables

/-- Rewriting the first word of one record keeps the lists. -/
theorem Linked.of_entryFrame {record : ℕ → ℕ} {n : ℕ} (h : Linked record n s lists)
    (hk : k < n) (hf : EntryFrame (record k) s.mem m) : Linked record n (s.withMem m) lists :=
  h.of_info_eq (fun l => PmmState.head_withMem s m l)
    (fun i hi => hf.other _ _ (h.apart.apart hk hi) (Or.inr (by decide)))
    (fun i hi => hf.other _ _ (h.apart.apart hk hi) (Or.inr (by decide)))

/-! ### Handing out an object

An object is zeroed before it is handed out.  It lies in a slice without
records, so that the manager does not notice. -/

/-- The bytes from `a` on, `n` of them, are zero, and otherwise only records
changed. -/
structure ZeroedObject (L : Layout) (m m' : ByteMemory) (a n : ℕ) : Prop where
  zero : ∀ x, a ≤ x → x < a + n → m' x = 0
  outside : ∀ x, (x < a ∨ a + n ≤ x) →
    (∀ i < L.slices, x < L.record i ∨ L.record i + 16 ≤ x) → m' x = m x

/-- Zeroing an object inside a slice that holds no records, which the manager
does not see. -/
theorem PmmTables.fill (h : PmmTables L s₁ κ) (hkind : κ k ≠ .bucketInfo)
    {a n : ℕ} (ha : L.addr k ≤ a) (hn : a + n ≤ L.addr k + sliceSize)
    (hframe : RecordFrame L k s.mem s₁.mem) :
    PmmTables L (s₁.withMem (ByteMemory.fill s₁.mem a n 0)) κ ∧
      ZeroedObject L s.mem (s₁.withMem (ByteMemory.fill s₁.mem a n 0)).mem a n := by
  refine ⟨h.of_slice hkind fun x hx => fill_apply_of_notMem (by omega), ?_, ?_⟩
  · intro x hx hx'
    exact fill_apply_of_mem hx hx'
  · intro x hx hrec
    exact (fill_apply_of_notMem hx).trans (hframe.outside x hrec)

/-- What the free functions do with an object once its record is known: the
record is unlinked from the list its mask names, and pushed on the list the
new mask names. -/
theorem pmmFreeSlot_eq {a r j : ℕ} {filled : BitVec 8}
    (hlook : pmmGetSliceinfoForSlice s a = .success r) (hj : j < t.perSlice)
    (hfilled : infoFilled s.mem r = filled)
    (hkept : infoFilled (removeElementLl s (SliceKind.slots t filled).home r).mem r = filled)
    (hindex : sub32 a (info (removeElementLl s (SliceKind.slots t filled).home r).mem r .slice) /
      t.size = j) :
    pmmFreeSlot t s a = .ok (pushToLl
      ((removeElementLl s (SliceKind.slots t filled).home r).withMem
        (setFilled (removeElementLl s (SliceKind.slots t filled).home r).mem r
          (withoutSlot filled j)))
      (SliceKind.serving t (withoutSlot filled j)).home r) := by
  have hhome : (if infoFilled s.mem r = t.full then removeElementLl s .allocated r
      else removeElementLl s t.partialFree r) =
      removeElementLl s (SliceKind.slots t filled).home r := by
    rw [hfilled]
    by_cases hfull : filled = t.full
    · rw [if_pos hfull, SliceKind.home, if_pos hfull]
    · rw [if_neg hfull, SliceKind.home, if_neg hfull]
  have hself := infoFilled_setFilled_self
    (removeElementLl s (SliceKind.slots t filled).home r).mem r (withoutSlot filled j)
  have hnew : (SliceKind.serving t (withoutSlot filled j)).home =
      if withoutSlot filled j = 0 then .unused else t.partialFree := by
    by_cases h0 : withoutSlot filled j = 0
    · rw [SliceKind.serving, if_pos h0, if_pos h0]
      rfl
    · rw [SliceKind.serving, if_neg h0, if_neg h0]
      exact if_neg (withoutSlot_ne_full hj)
  unfold pmmFreeSlot
  rw [hlook]
  dsimp only
  rw [hhome, hindex, hkept]
  change (if infoFilled (Pmm.setFilled _ _ (withoutSlot filled j)) _ = 0 then _ else _) = _
  rw [hself, hnew]
  by_cases h0 : withoutSlot filled j = 0
  · rw [if_pos h0, if_pos h0]
    rfl
  · rw [if_neg h0, if_neg h0]
    rfl

/-- The objects of a slice lie in it. -/
theorem Layout.slot_bounds {j : ℕ} (hj : j < t.perSlice) :
    L.addr k ≤ L.addr k + t.size * j ∧ L.addr k + t.size * j + t.size ≤ L.addr k + sliceSize := by
  have hmul := t.size_mul_perSlice
  have hle : t.size * (j + 1) ≤ t.size * t.perSlice := Nat.mul_le_mul_left _ hj
  rw [Nat.mul_succ] at hle
  omega

namespace PmmTables

/-- Writing null over a null `prev` changes nothing.  This is the last store
of `pmm_free_l1_pagetable`. -/
theorem clearPrev (h : PmmTables L s κ) (hk : k < L.slices)
    (hprev : info s.mem (L.record k) .prev = 0) :
    PmmTables L (s.withMem (setInfo s.mem (L.record k) .prev 0)) κ ∧
      RecordFrame L k s.mem (setInfo s.mem (L.record k) .prev 0) := by
  have hinfo : ∀ i < L.slices, ∀ f, info (setInfo s.mem (L.record k) .prev 0) (L.record i) f =
      info s.mem (L.record i) f := by
    intro i hi f
    rw [h.recordsApart.info_setInfo hk hi]
    by_cases heq : i = k ∧ f = .prev
    · rw [if_pos heq, heq.1, heq.2, hprev, Nat.zero_mod]
    · rw [if_neg heq]
  have hframe := RecordFrame.of_links hk
    (LinksFrame.setInfo (m := s.mem) (v := 0) h.recordsApart hk (Or.inr rfl))
  exact ⟨h.of_info_eq hinfo, hframe⟩

/-- **`pmm_allocate_l1_pagetable`** takes an unused slice, and hands it out
zeroed.  Which one depends on the order of the list, and is left open. -/
theorem allocateL1 (h : PmmTables L s κ) (hne : s.head .unused ≠ 0) :
    ∃ k s', k < L.slices ∧ κ k = .unused ∧
      pmmAllocateL1Pagetable s = .ok (s', L.addr k) ∧
      PmmTables L s' (Function.update κ k .l1) ∧
      ZeroedObject L s.mem s'.mem (L.addr k) sliceSize := by
  obtain ⟨lists, hl⟩ := h.lists
  obtain ⟨k, hk, hhome, hhead⟩ := hl.head hne
  obtain ⟨s₁, hpop, hlinked, hprev, hframe, hstart, -⟩ := hl.pop hk hne hhead
  have hkind : κ k = .unused := SliceKind.eq_unused_of_home hhome
  have hentry := entryFrame_setType s₁.mem (L.record k) .l1PageTable
  have hframe₁ := (RecordFrame.of_links hk hframe).trans
    (RecordFrame.setType h.layout hk .l1PageTable)
  have hprev₁ : info (setType s₁.mem (L.record k) .l1PageTable) (L.record k) .prev = 0 := by
    rw [hentry.other _ _ (Or.inl rfl) (Or.inr (by decide)), hprev]
  have hmask : infoFilled (setType s₁.mem (L.record k) .l1PageTable) (L.record k) = 0 := by
    rw [infoFilled_setType_self, hframe.filled hk, h.mask_eq k hk (by simp [hkind]), hkind]
    rfl
  obtain ⟨hinv, hframe₂, -⟩ := h.rehome .l1 hl hk (by rw [hkind]; trivial) trivial
    (hlinked.of_entryFrame hk hentry) hprev₁ hframe₁ hstart hmask
    (by rw [PmmState.withMem_mem, infoType_setType_self]; decide) (by rintro t f ⟨⟩)
  have hslice := hinv.slice_eq k hk
  obtain ⟨hinv', hzero⟩ := hinv.fill (by simp) (le_refl (L.addr k)) (le_refl _) hframe₂
  refine ⟨k, _, hk, hkind, ?_, hinv', hzero⟩
  unfold pmmAllocateL1Pagetable
  rw [if_neg hne, hpop, Exec.ok_bind]
  rw [show SliceKind.l1.home = .allocated from rfl] at hslice
  simp only [hslice]
  rfl

/-- **`pmm_free_l1_pagetable`** makes the slice of the table unused, if the
record is found where it is looked up. -/
theorem freeL1 (h : PmmTables L s κ) (hk : k < L.slices) (hkind : κ k = .l1)
    (hfound : sliceinfoFor s (L.addr k) = L.record k) :
    ∃ s', pmmFreeL1Pagetable s (L.addr k) = .ok s' ∧
      PmmTables L s' (Function.update κ k .unused) ∧ RecordFrame L k s.mem s'.mem := by
  obtain ⟨lists, hl⟩ := h.lists
  have hlook := h.lookup hk (by simp [hkind]) hfound
  obtain ⟨hlinked, hprev, hframe⟩ := h.unlink hl hk (by simp [hkind])
  have hmask : infoFilled (removeElementLl s (κ k).home (L.record k)).mem (L.record k) = 0 := by
    rw [hframe.filled hk, h.mask_eq k hk (by simp [hkind]), hkind]
    rfl
  obtain ⟨hinv, hframe', hprev'⟩ := h.rehome .unused hl hk (by rw [hkind]; trivial) trivial
    hlinked hprev (RecordFrame.of_links hk hframe) (removeElementLl_start _ _ _) hmask
    (h.type_ne hk (by simp [hkind]) (hframe.type hk)) (by rintro t f ⟨⟩)
  rw [hkind] at hinv hframe' hprev'
  have h0 : L.addr k ≠ 0 := by
    have := h.record_ne_zero hk (by simp [hkind])
    have hk0 : k ≠ 0 := by
      rintro rfl
      rw [h.bucketSlice_zero_kind hk] at hkind
      cases hkind
    unfold Layout.addr sliceSize
    omega
  obtain ⟨hinv'', hframe''⟩ := hinv.clearPrev hk hprev'
  refine ⟨_, ?_, hinv'', hframe'.trans hframe''⟩
  unfold pmmFreeL1Pagetable
  rw [if_neg h0, hlook]
  rfl

/-! ### L2 tables and pages

An object is handed out of a slice that serves its kind already, or of one
that is opened for it.  In the first case the slice moves when its mask
becomes full, in the second when it is opened; a free is the reverse of
either. -/

/-- Marking object `j` in the first word of the record of `k`, with the record
staying on its list. -/
theorem setSlot (h : PmmTables L s κ) (hk : k < L.slices) {filled filled' : BitVec 8}
    (hkind : κ k = .slots t filled) (hv : t.Valid filled')
    (hhome : (SliceKind.slots t filled').home = (κ k).home) :
    PmmTables L (s.withMem (Pmm.setFilled s.mem (L.record k) filled'))
      (Function.update κ k (.slots t filled')) := by
  obtain ⟨lists, hl⟩ := h.lists
  have hl' := hl.of_entryFrame hk (entryFrame_setFilled s.mem (L.record k) filled')
  have hold : (κ k).Usable := by
    rw [hkind]
    exact h.valid k hk t filled hkind
  have htype := infoType_setFilled_self s.mem (L.record k) filled'
  refine h.update hk hold hv
    (RecordFrame.setFilled h.layout hk filled') rfl ⟨lists, hl'.linked, fun l i hi => ?_⟩
    (fun _ => infoFilled_setFilled_self s.mem _ _)
    (iff_of_false (h.type_ne hk (by simp [hkind]) htype) (by simp)) ?_
  · rw [hl'.mem_iff l i hi]
    by_cases hik : i = k
    · subst hik
      rw [Function.update_self, hhome]
    · rw [Function.update_of_ne hik]
  · rintro t' f ⟨rfl, rfl⟩
    exact htype.trans (h.type_slots k hk t filled hkind)

/-- Handing out an object of a slice that already serves this kind: one whose
bit in the mask was clear. -/
theorem allocateSlot_partial (h : PmmTables L s κ) (hne : s.head t.partialFree ≠ 0) :
    ∃ k j filled s', k < L.slices ∧ j < t.perSlice ∧ κ k = .slots t filled ∧
      filled.getLsbD j = false ∧
      pmmAllocateSlot t s = .ok (s', L.addr k + t.size * j) ∧
      PmmTables L s' (Function.update κ k (.slots t (withSlot filled j))) ∧
      ZeroedObject L s.mem s'.mem (L.addr k + t.size * j) t.size := by
  obtain ⟨lists, hl⟩ := h.lists
  obtain ⟨k, hk, hhome, hhead⟩ := hl.head hne
  obtain ⟨filled, hkind, hnfull⟩ := SliceKind.eq_slots_of_home hhome
  have hv := h.valid k hk t filled hkind
  have hfilled := h.filled_eq hk hkind
  have hslice := h.slice_eq k hk
  obtain ⟨hj, hbit⟩ := firstFree_spec t hv hnfull
  generalize hjdef : firstFree filled = j at hj hbit
  have hv' : t.Valid (withSlot filled j) := valid_withSlot hj (Or.inr hv)
  have hbounds := Layout.slot_bounds (L := L) (k := k) hj
  have hmarked := RecordFrame.setFilled (m := s.mem) h.layout hk (withSlot filled j)
  have hentry := entryFrame_setFilled s.mem (L.record k) (withSlot filled j)
  have hself := infoFilled_setFilled_self s.mem (L.record k) (withSlot filled j)
  have hmask : filled ||| 1#8 <<< j = withSlot filled j := rfl
  by_cases hfull : withSlot filled j = t.full
  · -- the last free object: the record moves to the allocated list
    obtain ⟨s₁, hpop, hlinked, hprev, hframe, hstart, -⟩ :=
      (hl.of_entryFrame hk hentry).pop (l := t.partialFree) hk (by simpa using hne)
        (by simpa using hhead)
    have hframe₁ := hmarked.trans (RecordFrame.of_links hk hframe)
    have htype := (hframe.type hk).trans (infoType_setFilled_self s.mem _ _)
    obtain ⟨hinv, hframe₂, -⟩ := h.rehome (.slots t (withSlot filled j)) hl hk
      (by rw [hkind]; exact hv) hv' hlinked hprev hframe₁ hstart
      ((hframe.filled hk).trans hself) (h.type_ne hk (by simp [hkind]) htype) (by
        rintro t' f ⟨rfl, rfl⟩
        exact htype.trans (h.type_slots k hk t filled hkind))
    obtain ⟨hinv', hzero⟩ := hinv.fill (by simp) hbounds.1 hbounds.2 hframe₂
    refine ⟨k, j, filled, _, hk, hj, hkind, hbit, ?_, hinv', hzero⟩
    unfold pmmAllocateSlot
    rw [if_pos hne]
    simp only [hhead, hfilled, hslice, hjdef, hmask, PmmState.withMem_mem, hself, hpop,
      if_pos hfull, Exec.ok_bind, SliceKind.home]
  · have hinv := h.setSlot hk hkind hv' (by
      rw [hhome]
      exact if_neg hfull)
    obtain ⟨hinv', hzero⟩ := hinv.fill (by simp) hbounds.1 hbounds.2 hmarked
    refine ⟨k, j, filled, _, hk, hj, hkind, hbit, ?_, hinv', hzero⟩
    unfold pmmAllocateSlot
    rw [if_pos hne]
    simp only [hhead, hfilled, hslice, hjdef, hmask, PmmState.withMem_mem, hself,
      if_neg hfull, Exec.ok_bind]

/-- Opening an unused slice and handing out its first object, when no slice of
the kind has one left. -/
theorem allocateSlot_unused (h : PmmTables L s κ) (hno : s.head t.partialFree = 0)
    (hne : s.head .unused ≠ 0) :
    ∃ k s', k < L.slices ∧ κ k = .unused ∧
      pmmAllocateSlot t s = .ok (s', L.addr k) ∧
      PmmTables L s' (Function.update κ k (.slots t 1)) ∧
      ZeroedObject L s.mem s'.mem (L.addr k) t.size := by
  obtain ⟨lists, hl⟩ := h.lists
  obtain ⟨k, hk, hhome, hhead⟩ := hl.head hne
  obtain ⟨s₁, hpop, hlinked, hprev, hframe, hstart, -⟩ := hl.pop hk hne hhead
  have hkind : κ k = .unused := SliceKind.eq_unused_of_home hhome
  have hentry := (entryFrame_setType s₁.mem (L.record k) t.memoryType).trans
    (entryFrame_setFilled _ (L.record k) 1)
  have hframe₁ := (RecordFrame.of_links hk hframe).trans
    ((RecordFrame.setType h.layout hk t.memoryType).trans (RecordFrame.setFilled h.layout hk 1))
  have hv : t.Valid 1 := by cases t <;> exact ⟨by decide, by decide⟩
  have hhome' : (SliceKind.slots t 1).home = t.partialFree := by cases t <;> rfl
  obtain ⟨hinv, hframe₂, -⟩ := h.rehome (.slots t 1) hl hk (by rw [hkind]; trivial) hv
    (hlinked.of_entryFrame hk hentry)
    (by rw [← hprev]; exact hentry.other _ _ (Or.inl rfl) (Or.inr (by decide)))
    hframe₁ hstart (infoFilled_setFilled_self _ _ _)
    (by
      rw [PmmState.withMem_mem, infoType_setFilled_self, infoType_setType_self]
      cases t <;> decide)
    (by
      rintro t' f ⟨rfl, rfl⟩
      rw [PmmState.withMem_mem, infoType_setFilled_self, infoType_setType_self])
  have hslice := hinv.slice_eq k hk
  rw [hhome'] at hinv hframe₂ hslice
  have hsize : t.size ≤ sliceSize := by cases t <;> decide
  obtain ⟨hinv', hzero⟩ := hinv.fill (n := t.size) (by simp) (le_refl (L.addr k)) (by omega)
    hframe₂
  refine ⟨k, _, hk, hkind, ?_, hinv', hzero⟩
  unfold pmmAllocateSlot
  rw [if_neg (by simpa using hno), hpop, Exec.ok_bind]
  simp only [hslice]

/-- **`pmm_allocate_l2_pagetable` and `pmm_allocate_page`** hand out an object
that was not handed out before. -/
theorem allocateSlot (t : SlotKind) (h : PmmTables L s κ)
    (hne : s.head .unused ≠ 0 ∨ s.head t.partialFree ≠ 0) :
    ∃ k j filled s', k < L.slices ∧ j < t.perSlice ∧ κ k = .serving t filled ∧
      filled.getLsbD j = false ∧
      pmmAllocateSlot t s = .ok (s', L.addr k + t.size * j) ∧
      PmmTables L s' (Function.update κ k (.serving t (withSlot filled j))) ∧
      ZeroedObject L s.mem s'.mem (L.addr k + t.size * j) t.size := by
  by_cases hno : s.head t.partialFree = 0
  · obtain ⟨k, s', hk, hkind, halloc, hinv, hzero⟩ :=
      h.allocateSlot_unused hno (hne.resolve_right (not_not.mpr hno))
    exact ⟨k, 0, 0, s', hk, by cases t <;> decide, hkind, by simp, halloc, hinv, hzero⟩
  · obtain ⟨k, j, filled, s', hk, hj, hkind, hbit, halloc, hinv, hzero⟩ :=
      h.allocateSlot_partial hno
    have hv := h.valid k hk t filled hkind
    refine ⟨k, j, filled, s', hk, hj, ?_, hbit, halloc, ?_, hzero⟩
    · rw [hkind, SliceKind.serving_of_valid hv]
    · rwa [SliceKind.serving_of_valid (valid_withSlot hj (Or.inr hv))]

/-- **`pmm_free_l2_pagetable` and `pmm_free_page`** clear the bit of the
object, and give the slice back with the last one. -/
theorem freeSlot (h : PmmTables L s κ) (hk : k < L.slices) {filled : BitVec 8} {j : ℕ}
    (hkind : κ k = .slots t filled) (hbit : filled.getLsbD j = true)
    (hfound : sliceinfoFor s (L.addr k + t.size * j) = L.record k) :
    ∃ s', pmmFreeSlot t s (L.addr k + t.size * j) = .ok s' ∧
      PmmTables L s' (Function.update κ k (.serving t (withoutSlot filled j))) ∧
      RecordFrame L k s.mem s'.mem := by
  obtain ⟨lists, hl⟩ := h.lists
  have hv := h.valid k hk t filled hkind
  have hj := hv.lt hbit
  have hbounds := Layout.slot_bounds (L := L) (k := k) hj
  have hpos := t.size_pos
  have hlook := h.lookup hk (by simp [hkind]) hfound
  obtain ⟨hlinked, hprev, hframe⟩ := h.unlink hl hk (by simp [hkind])
  have hframe₁ := RecordFrame.of_links hk hframe
  have hfilled := h.filled_eq hk hkind
  have hindex : sub32 (L.addr k + t.size * j)
      (info (removeElementLl s (κ k).home (L.record k)).mem (L.record k) .slice) / t.size = j := by
    have hlt := h.layout.addr_lt hk
    rw [hframe.slice k hk, h.slice_eq k hk, sub32_of_le hbounds.1 (by omega),
      Nat.add_sub_cancel_left, Nat.mul_div_cancel_left j hpos]
  have hfilled₁ : infoFilled (removeElementLl s (κ k).home (L.record k)).mem (L.record k) =
      filled := (hframe.filled hk).trans hfilled
  have hentry := entryFrame_setFilled (removeElementLl s (κ k).home (L.record k)).mem (L.record k)
    (withoutSlot filled j)
  have hself := infoFilled_setFilled_self (removeElementLl s (κ k).home (L.record k)).mem
    (L.record k) (withoutSlot filled j)
  have htype := (infoType_setFilled_self _ _ (withoutSlot filled j)).trans (hframe.type hk)
  obtain ⟨hinv, hframe₂, -⟩ := h.rehome (.serving t (withoutSlot filled j)) hl hk
    (by rw [hkind]; exact hv) (SliceKind.usable_serving (valid_withoutSlot hv))
    (hlinked.of_entryFrame hk hentry)
    (by rw [← hprev]; exact hentry.other _ _ (Or.inl rfl) (Or.inr (by decide)))
    (hframe₁.trans (RecordFrame.setFilled h.layout hk (withoutSlot filled j)))
    (removeElementLl_start _ _ _) (hself.trans (SliceKind.mask_serving _ _).symm)
    (h.type_ne hk (by simp [hkind]) htype) (by
      intro t' f heq
      obtain ⟨rfl, rfl⟩ := SliceKind.eq_of_serving heq
      exact htype.trans (h.type_slots k hk t filled hkind))
  rw [hkind] at hindex hfilled₁ hinv hframe₂
  exact ⟨_, pmmFreeSlot_eq hlook hj hfilled hfilled₁ hindex, hinv, hframe₂⟩

end PmmTables

end CourseOs.Pmm
