import CourseOs.Vm.PmmTwin

/-!
# `pmm_init` over different leftovers

`pmm_init` takes the same steps whatever the managed memory held: it follows
only links it has written itself.  The loop over zeroes is known (`InitInv`);
`InitTwin` relates it to the loop over any other memory `m`, outside whose
records nothing has changed.

The result is `pmmInit_twin_outcome`: over zeroes `pmm_init` returns or
reaches the null pointer at a bucket for which no slice is left, and over any
other memory it does the same, and leaves a `Twin`.  Nothing is assumed of the
reserved region.
-/

namespace CourseOs.Pmm

open ByteMemory LinkedList

variable {s₁ s₂ : PmmState} {κ : ℕ → SliceKind} {lists : PmmList → List ℕ} {hw : HardwareInfo}
  {start n k N r b : ℕ} {B B' : ℕ → ℕ} {R : ℕ → Bool} {m : ByteMemory} {record : ℕ → ℕ}
  {P : ℕ → Prop} {l : PmmList} {L : Layout}

/-- The range of records grows by one whose `next` word is written.  Its
`prev` is not, and may be different on the two sides. -/
theorem SameLinks.setNext_new (h : SameLinks record n P s₁ s₂)
    (hr : RecordsApart record (n + 1))
    (hslice : info s₁.mem (record n) .slice = info s₂.mem (record n) .slice) (hP : ¬P n) (v : ℕ) :
    SameLinks record (n + 1) P (s₁.withMem (Pmm.setInfo s₁.mem (record n) .next v))
      (s₂.withMem (Pmm.setInfo s₂.mem (record n) .next v)) := by
  have hn := Nat.lt_succ_self n
  have hcases : ∀ i < n + 1, i ≠ n → i < n := fun i hi hne => by omega
  refine ⟨h.manager, fun i hi => ?_, fun i hi => ?_, fun i hi hPi => ?_⟩ <;>
    rw [PmmState.withMem_mem, PmmState.withMem_mem, hr.info_setInfo hn hi,
      hr.info_setInfo hn hi]
  · by_cases hin : i = n
    · rw [if_pos ⟨hin, rfl⟩, if_pos ⟨hin, rfl⟩]
    · rw [if_neg fun heq => hin heq.1, if_neg fun heq => hin heq.1]
      exact h.next i (hcases i hi hin)
  · rw [if_neg (by simp), if_neg (by simp)]
    by_cases hin : i = n
    · rw [hin, hslice]
    · exact h.slice i (hcases i hi hin)
  · have hin : i ≠ n := by
      rintro rfl
      exact hP hPi
    rw [if_neg (by simp), if_neg (by simp)]
    exact h.prev i (hcases i hi hin) hPi

/-- Pushing a record that has just been made, on both sides. -/
theorem SameLinks.push_new (h : SameLinks record n P s₁ s₂) (hr : RecordsApart record (n + 1))
    (hhead : IsLink record n (s₂.head l))
    (hslice : info s₁.mem (record n) .slice = info s₂.mem (record n) .slice) (hP : ¬P n) :
    SameLinks record (n + 1) P (pushToLl s₁ l (record n)) (pushToLl s₂ l (record n)) := by
  have hr' : RecordsApart record n :=
    ⟨fun i hi j hj => hr.disjoint i (Nat.lt_succ_of_lt hi) j (Nat.lt_succ_of_lt hj),
      fun i hi => hr.bounded i (Nat.lt_succ_of_lt hi)⟩
  have hslice' : ∀ m : ByteMemory,
      info (if s₂.head l ≠ 0 then Pmm.setInfo m (s₂.head l) .prev (record n) else m) (record n)
        .slice = info m (record n) .slice := by
    intro m
    by_cases h0 : s₂.head l = 0
    · rw [if_neg (not_not.mpr h0)]
    · obtain ⟨j, hj, heq⟩ := hhead.resolve_left h0
      rw [if_pos h0, heq, hr.info_setInfo (Nat.lt_succ_of_lt hj) (Nat.lt_succ_self n),
        if_neg (by simp)]
  have hnext := (h.setLink hr' hhead .prev (record n)).setNext_new hr
    ((hslice' s₁.mem).trans (hslice.trans (hslice' s₂.mem).symm)) hP (s₂.head l)
  unfold pushToLl
  rw [h.head_eq l]
  exact hnext.setHead l _

/-- After `n` slices: `s₁` started from the memory `m`, `s₂` from zeroes. -/
structure InitTwin (L : Layout) (κ : ℕ → SliceKind) (m : ByteMemory) (s₁ s₂ : PmmState) : Prop
    extends Twin L κ m s₁ s₂ where
  outside : ∀ x, (∀ i < L.slices, x < L.record i ∨ L.record i + 16 ≤ x) → s₁.mem x = m x

theorem initKind_ne_slots {t : SlotKind} {filled : BitVec 8} :
    initKind R B b k ≠ .slots t filled := by
  unfold initKind
  split
  · exact SliceKind.noConfusion
  · split <;> exact SliceKind.noConfusion

namespace InitTwin

/-- Nothing but records has been written, so reserved slices are as they were. -/
theorem of_outside (ht : PmmTables L s₂ κ)
    (hlinks : SameLinks L.record L.slices (fun i => κ i ≠ .unused ∧ κ i ≠ .reserved) s₁ s₂)
    (hmask : ∀ k t filled, κ k ≠ .slots t filled)
    (hstray : ∀ k < L.slices, infoReserved s₁.mem (L.record k) =
      if κ k = .reserved then 1 else infoReserved m (L.record k))
    (hout : ∀ x, (∀ i < L.slices, x < L.record i ∨ L.record i + 16 ≤ x) → s₁.mem x = m x) :
    InitTwin L κ m s₁ s₂ where
  links := hlinks
  mask k _ t filled heq := absurd heq (hmask k t filled)
  stray := hstray
  unwritten k _ hres x hx hx' := by
    refine hout x fun i hi => ?_
    have := L.record_outside (ht.bucketSlice_ne hi (by rw [hres]; exact SliceKind.noConfusion))
    omega
  outside := hout

/-- One slice gets its record on both sides, with the same slice word and the
same flag, up to what the bit was before. -/
theorem index (h : InitTwin ⟨start, n, B⟩ (initKind R B b) m s₁ s₂)
    (hinv : InitInv start N R n b B s₂)
    (hinv' : InitInv start N R (n + 1) b B
      (indexSlice hw s₂ (Layout.record ⟨start, n, B⟩ n) (start + sliceSize * n)))
    (hR : R n = addressInReservedRegion hw (start + sliceSize * n)) :
    InitTwin ⟨start, n + 1, B⟩ (initKind R B b) m
      (indexSlice hw s₁ (Layout.record ⟨start, n, B⟩ n) (start + sliceSize * n))
      (indexSlice hw s₂ (Layout.record ⟨start, n, B⟩ n) (start + sliceSize * n)) := by
  have hr : RecordsApart (Layout.record ⟨start, n, B⟩) (n + 1) := hinv'.inv.recordsApart
  have hn := Nat.lt_succ_self n
  have haddr : start + sliceSize * n < 2 ^ 32 :=
    lt_of_le_of_lt (Nat.le_add_right _ _) (hinv'.inv.layout.addr_lt hn)
  have hkind := hinv.initKind_next
  have hne : ∀ i < n, Layout.record ⟨start, n, B⟩ i ≠ Layout.record ⟨start, n, B⟩ n :=
    fun i hi heq => by
      have := (hr.inj (Nat.lt_succ_of_lt hi) hn).mp heq
      omega
  have hother : ∀ (m : ByteMemory), ∀ i < n, ∀ f,
      info (indexedMem m (R n) (Layout.record ⟨start, n, B⟩ n) (start + sliceSize * n))
        (Layout.record ⟨start, n, B⟩ i) f = info m (Layout.record ⟨start, n, B⟩ i) f :=
    fun m i hi f => indexedMem_other (hr.apart hn (Nat.lt_succ_of_lt hi)) (Or.inl (hne i hi))
  obtain ⟨lists, hl⟩ := hinv.inv.lists
  have hhead := hl.linked.head_link (firstKind (R n)).home
  have hindexed : SameLinks (Layout.record ⟨start, n, B⟩) n
      (fun i => initKind R B b i ≠ .unused ∧ initKind R B b i ≠ .reserved)
      (s₁.withMem (indexedMem s₁.mem (R n) (Layout.record ⟨start, n, B⟩ n)
        (start + sliceSize * n)))
      (s₂.withMem (indexedMem s₂.mem (R n) (Layout.record ⟨start, n, B⟩ n)
        (start + sliceSize * n))) := by
    refine ⟨h.links.manager, fun i hi => ?_, fun i hi => ?_, fun i hi hP => ?_⟩
    · exact (hother _ i hi _).trans ((h.links.next i hi).trans (hother _ i hi _).symm)
    · exact (hother _ i hi _).trans ((h.links.slice i hi).trans (hother _ i hi _).symm)
    · exact (hother _ i hi _).trans ((h.links.prev i hi hP).trans (hother _ i hi _).symm)
  rw [indexSlice_eq, ← hR] at hinv'
  rw [indexSlice_eq, indexSlice_eq, ← hR]
  have hpush := hindexed.push_new hr hhead
    ((indexedMem_slice s₁.mem (R n) haddr).trans (indexedMem_slice s₂.mem (R n) haddr).symm)
    (by
      rw [hkind]
      unfold firstKind
      cases R n <;> simp)
  have hhead₁ : IsLink (Layout.record ⟨start, n, B⟩) (n + 1)
      ((s₁.withMem (indexedMem s₁.mem (R n) (Layout.record ⟨start, n, B⟩ n)
        (start + sliceSize * n))).head (firstKind (R n)).home) := by
    rw [PmmState.head_withMem, h.links.head_eq]
    exact hhead.imp id fun ⟨j, hj, heq⟩ => ⟨j, Nat.lt_succ_of_lt hj, heq⟩
  have hframe := pushToLl_frame (l := (firstKind (R n)).home) hr hn hhead₁
  have hunwritten : ∀ f, info s₁.mem (Layout.record ⟨start, n, B⟩ n) f =
      info m (Layout.record ⟨start, n, B⟩ n) f := by
    intro f
    have hf := f.offset_le
    refine readWord_congr fun x hx hx' => h.outside x fun i hi => ?_
    have := hr.disjoint i (Nat.lt_succ_of_lt hi) n hn (Nat.ne_of_lt hi)
    show x < Layout.record ⟨start, n, B⟩ i ∨ Layout.record ⟨start, n, B⟩ i + 16 ≤ x
    omega
  refine of_outside hinv'.inv hpush (fun _ _ _ => initKind_ne_slots) (fun i hi => ?_)
    fun x hx => ?_
  · show infoReserved _ (Layout.record ⟨start, n, B⟩ i) =
      if _ then 1 else infoReserved m (Layout.record ⟨start, n, B⟩ i)
    rw [hframe.reserved hi, PmmState.withMem_mem]
    rcases Nat.lt_succ_iff_lt_or_eq.mp hi with hin | rfl
    · refine Eq.trans ?_ (h.stray i hin)
      exact congrArg (fun w => w / 1024 % 2) (hother s₁.mem i hin .entry)
    · rw [indexedMem_reserved, hkind]
      unfold infoReserved firstKind
      rw [hunwritten]
      cases R i <;> rfl
  · rw [hframe.outside x hx, PmmState.withMem_mem]
    exact (indexedMem_outside (hx n (Nat.lt_succ_self n))).trans
      (h.outside x fun i hi => hx i (Nat.lt_succ_of_lt hi))

/-- A new choice of bucket slice for buckets without records changes nothing. -/
theorem congr_buckets (h : InitTwin ⟨start, n, B⟩ κ m s₁ s₂)
    (ht : PmmTables ⟨start, n, B'⟩ s₂ κ) (hmask : ∀ k t filled, κ k ≠ .slots t filled)
    (hB : ∀ i < n, B' (i / sliceinfoPerSlice) = B (i / sliceinfoPerSlice)) :
    InitTwin ⟨start, n, B'⟩ κ m s₁ s₂ := by
  have hrec : ∀ i < n, Layout.record ⟨start, n, B'⟩ i = Layout.record ⟨start, n, B⟩ i := by
    intro i hi
    show Layout.addr ⟨start, n, B'⟩ (B' (i / sliceinfoPerSlice)) + _ = _
    rw [hB i hi]
    rfl
  refine of_outside ht ⟨h.links.manager, fun i hi => ?_, fun i hi => ?_, fun i hi hP => ?_⟩ hmask
    (fun i hi => ?_) fun x hx => h.outside x fun i hi => hrec i hi ▸ hx i hi
  · rw [hrec i hi]
    exact h.links.next i hi
  · rw [hrec i hi]
    exact h.links.slice i hi
  · rw [hrec i hi]
    exact h.links.prev i hi hP
  · rw [hrec i hi]
    exact h.stray i hi

/-- `pmm_new_sliceinfo_slice` on both sides takes the same slice, the head of
the unused list, and outside the records no byte changes. -/
theorem newSlice (h : InitTwin L κ m s₁ s₂) (ht : PmmTables L s₂ κ)
    (hne : s₂.head .unused ≠ 0) :
    ∃ k s₁' s₂', k < L.slices ∧ κ k = .unused ∧
      pmmNewSliceinfoSlice s₁ = .ok (s₁', L.record k) ∧
      pmmNewSliceinfoSlice s₂ = .ok (s₂', L.record k) ∧
      info s₁'.mem (L.record k) .slice = L.addr k ∧
      InitTwin L (Function.update κ k .bucketInfo) m s₁' s₂' := by
  obtain ⟨lists, hl⟩ := ht.lists
  obtain ⟨k, hk, hhome, hhead⟩ := hl.head hne
  have hkind : κ k = .unused := SliceKind.eq_unused_of_home hhome
  have hold : (κ k).Usable := by rw [hkind]; trivial
  obtain ⟨a₁, a₂, hpop₁, hpop₂, hlinks, hframe, hlinked⟩ := h.links.popHome hl hk hne hhead
  have hentry : ∀ m, EntryFrame (L.record k) m
      (setFilled (setType m (L.record k) .bucketInfo) (L.record k) 0) := fun m =>
    (entryFrame_setType m _ _).trans (entryFrame_setFilled _ _ 0)
  have hframe₁ := (RecordFrame.of_links hk hframe).trans
    ((RecordFrame.setType ht.layout hk .bucketInfo).trans (RecordFrame.setFilled ht.layout hk 0))
  have hlinked₁ := hlinked.of_entryFrame hk (hentry a₂.mem)
  have hlinks₁ := hlinks.of_entryFrame ht.recordsApart hk (hentry a₁.mem) (hentry a₂.mem)
  obtain ⟨htwin, hslice, -⟩ := h.relink ht .bucketInfo hk hold trivial hframe₁ hlinks₁ hlinked₁
    (by rintro t filled ⟨⟩)
  have hpush := pushToLl_frame ht.recordsApart hk
    (hlinks₁.head_eq .allocated ▸ hlinked₁.head_link .allocated)
  refine ⟨k, _, _, hk, hkind, ?_, ?_, hslice, htwin, fun x hx => ?_⟩
  · unfold pmmNewSliceinfoSlice
    rw [hpop₁]
    rfl
  · unfold pmmNewSliceinfoSlice
    rw [hpop₂]
    rfl
  · exact ((hframe₁.trans (RecordFrame.of_links hk hpush)).outside x hx).trans (h.outside x hx)

/-- A round that fills a bucket and takes a slice for the next one, over any
other memory. -/
theorem bucketRound {s' : PmmState} (fuel : ℕ)
    (h : InitTwin ⟨start, n, B⟩ (initKind R B b) m s₁ s₂) (hS : SliceRange start N)
    (hinv : InitInv start N R n b B s₂) (hnN : n < N) (hn : n + 1 = sliceinfoPerSlice * (b + 1))
    (hRn : R n = addressInReservedRegion hw (start + sliceSize * n))
    (hindexed : InitInv start N R (n + 1) b B
      (indexSlice hw s₂ (Layout.record ⟨start, n, B⟩ n) (start + sliceSize * n)))
    (hex : ∃ k < n + 1, initKind R B b k = .unused)
    (hnew : pmmNewSliceinfoSlice
        (indexSlice hw s₂ (Layout.record ⟨start, n, B⟩ n) (start + sliceSize * n)) =
      .ok (s', Layout.record ⟨start, n + 1, B⟩ k))
    (hinv' : InitInv start N R (n + 1) (b + 1) (Function.update B (b + 1) k) s') :
    ∃ a₁, InitTwin ⟨start, n + 1, Function.update B (b + 1) k⟩
        (initKind R (Function.update B (b + 1) k) (b + 1)) m a₁ s' ∧
      pmmInitLoop hw (fuel + 1) (start + sliceSize * n) (n % sliceinfoPerSlice)
          (start + sliceSize * B b) s₁ =
        pmmInitLoop hw fuel (start + sliceSize * (n + 1)) ((n + 1) % sliceinfoPerSlice)
          (start + sliceSize * Function.update B (b + 1) k (b + 1)) a₁ := by
  have hdiv : n / sliceinfoPerSlice = b := by
    unfold sliceinfoPerSlice at *
    omega
  have hswitch : sliceinfoPerSlice ≤ n % sliceinfoPerSlice + 1 := by
    unfold sliceinfoPerSlice at *
    omega
  have hzero : 0 = (n + 1) % sliceinfoPerSlice := by
    rw [hn, Nat.mul_mod_right]
  have hk : k < n + 1 := by
    have hlt := hinv'.bucket_lt (le_refl (b + 1))
    rwa [Function.update_self] at hlt
  obtain ⟨k', a₁, a₂, hk', hkind, hnew₁, hnew₂, hslice₁, htwin⟩ :=
    (h.index hinv hindexed hRn).newSlice hindexed.inv (hindexed.inv.unused_ne_zero_iff.mpr hex)
  obtain ⟨rfl, hrecord⟩ := Prod.mk.inj (Except.ok.inj (hnew.symm.trans hnew₂))
  obtain rfl := (hindexed.inv.recordsApart.inj hk hk').mp hrecord
  rw [initKind_update hkind] at htwin
  have hB : ∀ i < n + 1, Function.update B (b + 1) k (i / sliceinfoPerSlice) =
      B (i / sliceinfoPerSlice) := fun i hi => by
    have hle := hindexed.div_le hi
    exact Function.update_of_ne (by omega) _ _
  rw [show Layout.addr ⟨start, n + 1, B⟩ k = start + sliceSize * k from rfl] at hslice₁
  refine ⟨a₁, htwin.congr_buckets hinv'.inv (fun _ _ _ => initKind_ne_slots) hB, ?_⟩
  rw [pmmInitLoop_index hS hnN (h.links.manager ▸ hinv.endAddress_eq) hdiv, if_pos hswitch,
    hnew₁, Exec.ok_bind]
  dsimp only
  rw [hslice₁, hzero, Function.update_self]

/-- **The loop of `pmm_init`** over zeroes, and with it the loop over any
other memory: both end with every slice recorded, or both at a bucket for
which no slice is left.  The induction is on the number of slices left. -/
theorem loop (hS : SliceRange start N)
    (hR : ∀ n, 1 ≤ n → n < N → R n = addressInReservedRegion hw (start + sliceSize * n)) :
    ∀ (d fuel n b : ℕ) (B : ℕ → ℕ) (s₂ : PmmState),
    n + d = N → d < fuel → n < sliceinfoPerSlice * (b + 1) → InitInv start N R n b B s₂ →
    (∃ s₂' b' B', pmmInitLoop hw fuel (start + sliceSize * n) (n % sliceinfoPerSlice)
        (start + sliceSize * B b) s₂ = .ok s₂' ∧ InitInv start N R N b' B' s₂' ∧
      ∀ m s₁, InitTwin ⟨start, n, B⟩ (initKind R B b) m s₁ s₂ →
        ∃ s₁', pmmInitLoop hw fuel (start + sliceSize * n) (n % sliceinfoPerSlice)
            (start + sliceSize * B b) s₁ = .ok s₁' ∧
          InitTwin ⟨start, N, B'⟩ (initKind R B' b') m s₁' s₂') ∨
    ∀ m s₁, InitTwin ⟨start, n, B⟩ (initKind R B b) m s₁ s₂ →
      pmmInitLoop hw fuel (start + sliceSize * n) (n % sliceinfoPerSlice)
        (start + sliceSize * B b) s₁ = .error .nullDereference := by
  intro d
  induction d with
  | zero =>
      intro fuel n b B s₂ hN hfuel hb hinv
      obtain ⟨fuel, rfl⟩ : ∃ f, fuel = f + 1 := ⟨fuel - 1, by omega⟩
      obtain rfl : n = N := hN
      have hstop : ∀ s : PmmState, s.manager = s₂.manager →
          pmmInitLoop hw (fuel + 1) (start + sliceSize * n) (n % sliceinfoPerSlice)
            (start + sliceSize * B b) s = .ok s := by
        intro s hs
        rw [pmmInitLoop, if_neg]
        rw [hs, hinv.endAddress_eq]
        exact lt_irrefl _
      exact .inl ⟨s₂, b, B, hstop s₂ rfl, hinv, fun m s₁ h => ⟨s₁, hstop s₁ h.links.manager, h⟩⟩
  | succ d ih =>
      intro fuel n b B s₂ hN hfuel hb hinv
      obtain ⟨fuel, rfl⟩ : ∃ f, fuel = f + 1 := ⟨fuel - 1, by omega⟩
      have hnN : n < N := by omega
      have hdiv := hinv.div_eq hb
      have hend := hinv.endAddress_eq
      have hRn := hR n hinv.pos hnN
      have hindexed := hinv.index hb hnN hS hRn
      by_cases hswitch : sliceinfoPerSlice ≤ n % sliceinfoPerSlice + 1
      · -- the bucket is full
        have hn := InitInv.full_bucket hdiv hswitch
        by_cases hex : ∃ k < n + 1, initKind R B b k = .unused
        · obtain ⟨s', k, hnew, hslice₂, hinv'⟩ :=
            hindexed.newBucket hn hex (InitInv.head_unused_indexSlice hRn)
          rcases ih fuel (n + 1) (b + 1) _ s' (by omega) (by omega)
            (by unfold sliceinfoPerSlice at *; omega) hinv' with
            ⟨s₂', b', B', hloop, hfinal, hall⟩ | hnone
          · refine .inl ⟨s₂', b', B', ?_, hfinal, fun m s₁ h => ?_⟩
            · rw [pmmInitLoop_index hS hnN hend hdiv, if_pos hswitch, hnew, Exec.ok_bind]
              dsimp only
              rw [Function.update_self, hn, Nat.mul_mod_right] at hloop
              rw [hslice₂, hn]
              exact hloop
            · obtain ⟨a₁, htwin, heq⟩ :=
                h.bucketRound fuel hS hinv hnN hn hRn hindexed hex hnew hinv'
              rw [heq]
              exact hall m a₁ htwin
          · refine .inr fun m s₁ h => ?_
            obtain ⟨a₁, htwin, heq⟩ :=
              h.bucketRound fuel hS hinv hnN hn hRn hindexed hex hnew hinv'
            rw [heq]
            exact hnone m a₁ htwin
        · refine .inr fun m s₁ h => ?_
          have hhead := hindexed.head_unused hex
          rw [← (h.index hinv hindexed hRn).links.head_eq] at hhead
          rw [pmmInitLoop_index hS hnN (h.links.manager ▸ hend) hdiv, if_pos hswitch,
            pmmNewSliceinfoSlice_none hhead]
          rfl
      · have hmod : (n + 1) % sliceinfoPerSlice = n % sliceinfoPerSlice + 1 := by
          unfold sliceinfoPerSlice at *
          omega
        have hround : ∀ s : PmmState, s.manager = s₂.manager →
            pmmInitLoop hw (fuel + 1) (start + sliceSize * n) (n % sliceinfoPerSlice)
                (start + sliceSize * B b) s =
              pmmInitLoop hw fuel (start + sliceSize * (n + 1)) ((n + 1) % sliceinfoPerSlice)
                (start + sliceSize * B b)
                (indexSlice hw s (Layout.record ⟨start, n, B⟩ n) (start + sliceSize * n)) := by
          intro s hs
          rw [pmmInitLoop_index hS hnN (hs ▸ hend) hdiv, if_neg hswitch, ← hmod]
        rcases ih fuel (n + 1) b B _ (by omega) (by omega)
          (by unfold sliceinfoPerSlice at *; omega) hindexed with
          ⟨s₂', b', B', hloop, hfinal, hall⟩ | hnone
        · refine .inl ⟨s₂', b', B', (hround s₂ rfl).trans hloop, hfinal, fun m s₁ h => ?_⟩
          rw [hround s₁ h.links.manager]
          exact hall m _ (h.index hinv hindexed hRn)
        · refine .inr fun m s₁ h => ?_
          rw [hround s₁ h.links.manager]
          exact hnone m _ (h.index hinv hindexed hRn)

/-- The first record on both sides: over the given memory, and over zeroes.
All of it is written but the reserved bit, which stays what it was. -/
theorem first {m : ByteMemory} (hS : SliceRange start N) (hN : 0 < N) (hr : R 0 = false) :
    InitTwin ⟨start, 1, fun _ => 0⟩ (initKind R (fun _ => 0) 0) m
      (pmmFirst m start (start + sliceSize * N))
      (pmmFirst ⟨fun _ => 0⟩ start (start + sliceSize * N)) := by
  have hzero : ∀ x, start ≤ x → x < start + sliceSize * N → (⟨fun _ => 0⟩ : ByteMemory) x = 0 :=
    fun _ _ _ => rfl
  have hinv := initInv_first hS hN hr hzero
  obtain ⟨hnext₁, hprev₁, hslice₁, hres₁, -, hout₁⟩ :=
    pmmFirst_record m start (start + sliceSize * N)
  obtain ⟨hnext₂, hprev₂, hslice₂, -⟩ :=
    pmmFirst_record ⟨fun _ => 0⟩ start (start + sliceSize * N)
  have honly : ∀ i < 1, i = 0 := fun i hi => Nat.lt_one_iff.mp hi
  have hkind : initKind R (fun _ => 0) 0 0 = .bucketInfo := initKind_bucket (le_refl 0) hr
  refine of_outside hinv.inv ⟨rfl, fun i hi => ?_, fun i hi => ?_, fun i hi _ => ?_⟩
    (fun _ _ _ => initKind_ne_slots) (fun i hi => ?_) fun x hx => hout₁ x (hx 0 Nat.zero_lt_one)
  · obtain rfl := honly i hi
    exact hnext₁.trans hnext₂.symm
  · obtain rfl := honly i hi
    exact hslice₁.trans hslice₂.symm
  · obtain rfl := honly i hi
    exact hprev₁.trans hprev₂.symm
  · obtain rfl := honly i hi
    rw [hkind]
    exact hres₁

end InitTwin

/-- **`pmm_init` over any memory** goes as over zeroes, up to the bits it
leaves, or returns over no memory. -/
theorem pmmInit_twin_outcome (hw : HardwareInfo) (hS : SliceRange start N) (hN : 0 < N) :
    (∃ s₂ b B, pmmInit hw ⟨fun _ => 0⟩ start (start + sliceSize * N) = .ok s₂ ∧
      InitInv start N (marked hw start) N b B s₂ ∧
      ∀ m, ∃ s₁, pmmInit hw m start (start + sliceSize * N) = .ok s₁ ∧
        InitTwin ⟨start, N, B⟩ (initKind (marked hw start) B b) m s₁ s₂) ∨
    ∀ m, pmmInit hw m start (start + sliceSize * N) = .error .nullDereference := by
  have hbounded := hS.bounded
  have hone : sliceSize * 1 ≤ sliceSize * N := Nat.mul_le_mul_left sliceSize hN
  have hfuel : N - 1 < 2 ^ 32 / sliceSize := by
    unfold sliceSize at *
    omega
  have hzero : ∀ x, start ≤ x → x < start + sliceSize * N → (⟨fun _ => 0⟩ : ByteMemory) x = 0 :=
    fun _ _ _ => rfl
  have hmarked : ∀ n, 1 ≤ n → n < N →
      marked hw start n = addressInReservedRegion hw (start + sliceSize * n) :=
    fun n hn _ => marked_of_pos hn
  have hloop := InitTwin.loop hS hmarked (N - 1) (2 ^ 32 / sliceSize) 1 0 _ _ (by omega) hfuel
    (by decide) (initInv_first hS hN rfl hzero)
  unfold pmmInit
  rw [Nat.mod_eq_of_lt (by omega : start + sliceSize < 2 ^ 32)]
  rcases hloop with ⟨s₂, b, B, hok, hinv, hall⟩ | hnone
  · exact .inl ⟨s₂, b, B, hok, hinv, fun m => hall m _ (InitTwin.first hS hN rfl)⟩
  · exact .inr fun m => hnone m _ (InitTwin.first hS hN rfl)

/-- With slices for all buckets it returns, over any memory as over zeroes,
and with twins. -/
theorem pmmInit_twin (hS : SliceRange start N) (hN : 0 < N)
    (hsup : Supplied (marked hw start) N) :
    ∃ s₂ b B, pmmInit hw ⟨fun _ => 0⟩ start (start + sliceSize * N) = .ok s₂ ∧
      InitInv start N (marked hw start) N b B s₂ ∧
      ∀ m, ∃ s₁, pmmInit hw m start (start + sliceSize * N) = .ok s₁ ∧
        InitTwin ⟨start, N, B⟩ (initKind (marked hw start) B b) m s₁ s₂ := by
  have hzero : ∀ x, start ≤ x → x < start + sliceSize * N → (⟨fun _ => 0⟩ : ByteMemory) x = 0 :=
    fun _ _ _ => rfl
  refine (pmmInit_twin_outcome hw hS hN).resolve_right fun hnone => ?_
  rcases pmmInit_outcome hw hS hN hzero with ⟨s, -, -, hok, -⟩ | ⟨-, hno⟩
  · cases hok.symm.trans (hnone _)
  · exact hno hsup

end CourseOs.Pmm
