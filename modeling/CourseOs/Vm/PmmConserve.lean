import CourseOs.Vm.PmmRecords

/-!
# Freeing in any order

What is free is read off memory: the unused slices, and in the slices on a
partially free list the objects whose bit is clear.  The lists themselves
depend on the order of the calls.  The kinds of the slices do not: they are
fixed by what is out (`kinds_eq`), for every slice that serves an object has
one out, and the bits that are set are the objects out.  So two states of a
run with the same objects out have the same free sets (`SameFree`), whatever
happened between them.

`pmm_conserves` is the result about runs: after any allocations, frees and
writes, freeing what is out besides in any order returns and restores the free
sets.  It goes the other way round as well: a state in which more is out has
less free (`not_sameFree`), so the free sets tell whether anything is still
out.
-/

namespace CourseOs.Pmm

open ByteMemory LinkedList Relation

variable {L : Layout} {s s' : PmmState} {κ κ' : ℕ → SliceKind} {hw : HardwareInfo}
  {u u' : InUse} {start N r k j : ℕ} {mem : ByteMemory} {t : SlotKind} {os : List Object}

/-- `x` is a record on the list `l`, which is followed from its head. -/
def OnList (s : PmmState) (l : PmmList) (x : ℕ) : Prop :=
  ∃ xs, Chain (info s.mem · .next) (s.head l) xs ∧ x ∈ xs

/-- The unused slices: the addresses in the records of that list. -/
def unusedSlices (s : PmmState) : Set ℕ := {a | ∃ x, OnList s .unused x ∧ info s.mem x .slice = a}

/-- The free objects in slices of which some are handed out. -/
def freeSlots (s : PmmState) (t : SlotKind) : Set ℕ :=
  {a | ∃ x j, OnList s t.partialFree x ∧ j < t.perSlice ∧
    (infoFilled s.mem x).getLsbD j = false ∧ a = info s.mem x .slice + t.size * j}

/-- The same slices are unused, and the same objects free.  The order of the
lists is not compared. -/
structure SameFree (s s' : PmmState) : Prop where
  unused : unusedSlices s' = unusedSlices s
  slots : ∀ t, freeSlots s' t = freeSlots s t

/-- Free the objects in this order, up to the first free that stops. -/
def freeAll : List Object → PmmState → Exec PmmState
  | [], s => .ok s
  | o :: os, s => do
      let s ← free o.kind s o.addr
      freeAll os s

theorem freeAll_append (os os' : List Object) (s : PmmState) :
    freeAll (os ++ os') s = freeAll os s >>= freeAll os' := by
  induction os generalizing s with
  | nil => rfl
  | cons o os ih =>
      show (free o.kind s o.addr >>= freeAll (os ++ os')) =
        (free o.kind s o.addr >>= freeAll os) >>= freeAll os'
      rw [funext ih, bind_assoc]

theorem freeAll_slots (t : SlotKind) (as : List ℕ) (s : PmmState) :
    freeAll (as.map (⟨.slot t, ·⟩)) s = as.foldlM (pmmFreeSlot t) s := by
  induction as generalizing s with
  | nil => rfl
  | cons a as ih =>
      show (free (.slot t) s a >>= freeAll (as.map (⟨.slot t, ·⟩))) = _
      rw [free_slot, funext ih]
      rfl

theorem SameFree.symm (h : SameFree s s') : SameFree s' s :=
  ⟨h.unused.symm, fun t => (h.slots t).symm⟩

theorem SameFree.trans {s'' : PmmState} (h : SameFree s s') (h' : SameFree s' s'') :
    SameFree s s'' := ⟨h'.unused.trans h.unused, fun t => (h'.slots t).trans (h.slots t)⟩

/-! ### What is free, by kind

The sets that a reader of memory would call free, computed from the kinds of
the slices.  The order of the lists drops out here. -/

namespace PmmTables

/-- The records on a list, except perhaps one at address 0. -/
theorem onList_iff (h : PmmTables L s κ) {l : PmmList} {x : ℕ} :
    OnList s l x ↔ ∃ k < L.slices, (κ k).home = l ∧ x = L.record k ∧ x ≠ 0 := by
  obtain ⟨lists, hl⟩ := h.lists
  constructor
  · rintro ⟨xs, hchain, hmem⟩
    rw [Chain.unique hchain (hl.linked.dlist l).chain] at hmem
    obtain ⟨k, hk, rfl⟩ := List.mem_map.mp hmem
    have hlt := hl.linked.lt l k hk
    obtain ⟨hhome, hne⟩ := (hl.mem_iff l k hlt).mp hk
    exact ⟨k, hlt, hhome, rfl, hne⟩
  · rintro ⟨k, hk, hhome, rfl, hne⟩
    exact ⟨_, (hl.linked.dlist l).chain, List.mem_map_of_mem ((hl.mem_iff l k hk).mpr ⟨hhome, hne⟩)⟩

theorem mem_unusedSlices (h : PmmTables L s κ) {a : ℕ} :
    a ∈ unusedSlices s ↔ ∃ k < L.slices, κ k = .unused ∧ a = L.addr k := by
  constructor
  · rintro ⟨x, hx, rfl⟩
    obtain ⟨k, hk, hhome, rfl, -⟩ := h.onList_iff.mp hx
    exact ⟨k, hk, SliceKind.eq_unused_of_home hhome, h.slice_eq k hk⟩
  · rintro ⟨k, hk, hkind, rfl⟩
    have hne : L.record k ≠ 0 := h.record_ne_zero hk (by rw [hkind]; exact SliceKind.noConfusion)
    exact ⟨_, h.onList_iff.mpr ⟨k, hk, by rw [hkind]; rfl, rfl, hne⟩, h.slice_eq k hk⟩

theorem mem_freeSlots (h : PmmTables L s κ) {a : ℕ} :
    a ∈ freeSlots s t ↔ ∃ k < L.slices, ∃ filled j, κ k = .slots t filled ∧ filled ≠ t.full ∧
      j < t.perSlice ∧ filled.getLsbD j = false ∧ a = L.addr k + t.size * j := by
  constructor
  · rintro ⟨x, j, hx, hj, hbit, rfl⟩
    obtain ⟨k, hk, hhome, rfl, -⟩ := h.onList_iff.mp hx
    obtain ⟨filled, hkind, hne⟩ := SliceKind.eq_slots_of_home hhome
    rw [h.filled_eq hk hkind] at hbit
    exact ⟨k, hk, filled, j, hkind, hne, hj, hbit, by rw [h.slice_eq k hk]⟩
  · rintro ⟨k, hk, filled, j, hkind, hne, hj, hbit, rfl⟩
    have hrec : L.record k ≠ 0 := h.record_ne_zero hk (by rw [hkind]; exact SliceKind.noConfusion)
    have hhome : (κ k).home = t.partialFree := by
      rw [hkind]
      exact if_neg hne
    refine ⟨_, j, h.onList_iff.mpr ⟨k, hk, hhome, rfl, hrec⟩, hj, ?_, by rw [h.slice_eq k hk]⟩
    rw [h.filled_eq hk hkind]
    exact hbit

/-- The free sets depend on the kinds of the slices only. -/
theorem sameFree (h : PmmTables L s κ) (h' : PmmTables L s' κ')
    (heq : ∀ k < L.slices, κ' k = κ k) : SameFree s s' := by
  refine ⟨?_, fun t => ?_⟩
  · ext a
    rw [h.mem_unusedSlices, h'.mem_unusedSlices]
    exact exists_congr fun k => and_congr_right fun hk => by rw [heq k hk]
  · ext a
    rw [h.mem_freeSlots, h'.mem_freeSlots]
    exact exists_congr fun k => and_congr_right fun hk => by rw [heq k hk]

end PmmTables

/-! ### What is out fixes the kinds

A slice serves objects exactly if one of them is out, and the bits in its
record are those of its objects.  Hence the kinds, and with them all that is
free, depend on what is out and on nothing else in the history of the manager. -/

namespace Accounted

/-- A slice that serves objects serves the same ones when the same are out,
and more when more are. -/
theorem slots_of_subset (h : Accounted hw L u κ) (h' : Accounted hw L u' κ') {filled : BitVec 8}
    (hsub : ∀ o, o ∈ u.outstanding → o ∈ u'.outstanding) (hk : k < L.slices)
    (hkind : κ k = .slots t filled) :
    ∃ filled', κ' k = .slots t filled' ∧
      ∀ j, filled.getLsbD j = true → filled'.getLsbD j = true := by
  have hv := h.inv.valid k hk t filled hkind
  have hout : ∀ j, filled.getLsbD j = true → ∃ filled', κ' k = .slots t filled' ∧
      filled'.getLsbD j = true := fun j hj =>
    (h'.mem_slot_iff hk (hv.lt hj)).mp
      (hsub _ ((h.mem_slot_iff hk (hv.lt hj)).mpr ⟨filled, hkind, hj⟩))
  obtain ⟨⟨j, hj⟩, -⟩ := valid_iff.mp hv
  obtain ⟨filled', hkind', -⟩ := hout j hj
  refine ⟨filled', hkind', fun i hi => ?_⟩
  obtain ⟨filled'', hkind'', hbit⟩ := hout i hi
  cases hkind'.symm.trans hkind''
  exact hbit

/-- **The kinds are fixed** by what is out, and by the slices that hold
records or are reserved, which do not change. -/
theorem kinds_eq (h : Accounted hw L u κ) (h' : Accounted hw L u' κ') (hfixed : SameFixed L κ κ')
    (hout : ∀ o, o ∈ u'.outstanding ↔ o ∈ u.outstanding) (hk : k < L.slices) : κ' k = κ k := by
  cases hkind : κ k with
  | reserved => exact (hfixed k hk).1.mpr hkind
  | bucketInfo => exact (hfixed k hk).2.mpr hkind
  | l1 => exact (h'.mem_l1_iff hk).mp ((hout _).mpr ((h.mem_l1_iff hk).mpr hkind))
  | slots t filled =>
      obtain ⟨filled', hkind', hle⟩ := h.slots_of_subset h' (fun o => (hout o).mpr) hk hkind
      obtain ⟨filled'', hkind'', hge⟩ := h'.slots_of_subset h (fun o => (hout o).mp) hk hkind'
      cases hkind.symm.trans hkind''
      rw [hkind']
      congr 1
      apply BitVec.eq_of_getLsbD_eq
      intro i _
      exact Bool.eq_iff_iff.mpr ⟨hge i, hle i⟩
  | unused =>
      cases hkind' : κ' k with
      | unused => rfl
      | reserved => exact ((hfixed k hk).1.mp hkind').symm.trans hkind
      | bucketInfo => exact ((hfixed k hk).2.mp hkind').symm.trans hkind
      | l1 =>
          have hl1 := (h.mem_l1_iff hk).mp ((hout _).mp ((h'.mem_l1_iff hk).mpr hkind'))
          exact hl1.symm.trans hkind
      | slots t filled =>
          obtain ⟨filled', hslots, -⟩ := h'.slots_of_subset h (fun o => (hout o).mp) hk hkind'
          cases hkind.symm.trans hslots

/-- **More out, less free.**  Of the slice of an object that is out besides
others, another part is free than without it. -/
theorem not_sameFree (h : Accounted hw L u κ) (h' : Accounted hw L u' κ')
    (hfixed : SameFixed L κ κ')
    (hsub : ∀ o, o ∈ u.outstanding → o ∈ u'.outstanding) {o : Object} (ho : o ∈ u'.outstanding)
    (hnot : o ∉ u.outstanding) : ¬SameFree u.state u'.state := by
  intro hsame
  obtain ⟨k, hk, hmem⟩ := (h'.mem_iff o).mp ho
  cases hkind : κ k with
  | reserved =>
      rw [(hfixed k hk).1.mpr hkind] at hmem
      exact hmem
  | bucketInfo =>
      rw [(hfixed k hk).2.mpr hkind] at hmem
      exact hmem
  | l1 =>
      have hl1 := (h.mem_l1_iff hk).mpr hkind
      rw [(h'.mem_l1_iff hk).mp (hsub _ hl1)] at hmem
      exact hnot ((show o = _ from hmem) ▸ hl1)
  | unused =>
      have hfree := h.inv.mem_unusedSlices.mpr ⟨k, hk, hkind, rfl⟩
      rw [← hsame.unused] at hfree
      obtain ⟨k', -, hkind', haddr⟩ := h'.inv.mem_unusedSlices.mp hfree
      obtain rfl := addr_inj haddr
      rw [hkind'] at hmem
      exact hmem
  | slots t filled =>
      obtain ⟨filled', hkind', -⟩ := h.slots_of_subset h' hsub hk hkind
      rw [hkind'] at hmem
      obtain ⟨j, hbit', rfl⟩ := hmem
      have hj := (h'.inv.valid k hk t filled' hkind').lt hbit'
      -- the object was free in a slice of which others were out
      have hbit : filled.getLsbD j = false := by
        rw [← Bool.not_eq_true]
        exact fun hbit => hnot ((h.mem_slot_iff hk hj).mpr ⟨filled, hkind, hbit⟩)
      have hne : filled ≠ t.full := by
        rintro rfl
        exact Bool.false_ne_true (hbit.symm.trans (SlotKind.getLsbD_full hj))
      have hfree := h.inv.mem_freeSlots.mpr ⟨k, hk, filled, j, hkind, hne, hj, hbit, rfl⟩
      rw [← hsame.slots t] at hfree
      obtain ⟨k', -, filled'', j', hkind'', -, hj', hclear, haddr⟩ := h'.inv.mem_freeSlots.mp hfree
      obtain ⟨rfl, rfl⟩ := slot_inj hj hj' haddr
      cases hkind'.symm.trans hkind''
      exact Bool.false_ne_true (hclear.symm.trans hbit')

/-- Of what is out besides others, nothing must be left for as much to be free
as before. -/
theorem sameFree_iff (h : Accounted hw L u κ) (h' : Accounted hw L u' κ')
    (hfixed : SameFixed L κ κ') (hsub : ∀ o, o ∈ u.outstanding → o ∈ u'.outstanding) :
    SameFree u.state u'.state ↔ ∀ o, o ∈ u'.outstanding → o ∈ u.outstanding := by
  constructor
  · intro hsame o ho
    by_contra hnot
    exact h.not_sameFree h' hfixed hsub ho hnot hsame
  · intro hback
    exact h.inv.toPmmTables.sameFree h'.inv.toPmmTables fun k hk =>
      h.kinds_eq h' hfixed (fun o => ⟨hback o, hsub o⟩) hk

/-- **Objects that are out can be freed in any order**, and then they are not
out.  The induction is on the list that is freed, and each free leaves a state
in which the rest is still out. -/
theorem freeAll (h : Accounted hw L u κ) (hos : ∀ o ∈ os, o ∈ u.outstanding) (hnodup : os.Nodup) :
    ∃ u', Pmm.freeAll os u.state = .ok u'.state ∧ ReflTransGen ServedStep u u' ∧
      ∀ o, o ∈ u'.outstanding ↔ o ∈ u.outstanding ∧ o ∉ os := by
  induction os generalizing u κ with
  | nil => exact ⟨u, rfl, .refl, fun o => (and_iff_left List.not_mem_nil).symm⟩
  | cons o os ih =>
      obtain ⟨hnew, hnodup⟩ := List.nodup_cons.mp hnodup
      have ho := hos o List.mem_cons_self
      obtain ⟨s', hfree⟩ := h.safe.free_returns o ho
      have hstep : ServedStep u ⟨s', u.outstanding.erase o⟩ := .free o ho hfree
      obtain ⟨κ', h', -⟩ := h.served hstep
      have hmem : ∀ o', o' ∈ u.outstanding.erase o ↔ o' ∈ u.outstanding ∧ o' ≠ o := by
        intro o'
        rw [h.nodup.mem_erase_iff, and_comm]
      have hos' : ∀ o' ∈ os, o' ∈ u.outstanding.erase o := by
        intro o' ho'
        refine (hmem o').mpr ⟨hos o' (List.mem_cons_of_mem o ho'), ?_⟩
        rintro rfl
        exact hnew ho'
      obtain ⟨u', hall, hrun, hout⟩ := ih h' hos' hnodup
      refine ⟨u', ?_, .head hstep hrun, fun o' => ?_⟩
      · show (Pmm.free o.kind u.state o.addr >>= Pmm.freeAll os) = _
        rw [hfree, Exec.ok_bind]
        exact hall
      · rw [hout, hmem, List.mem_cons, not_or, and_assoc]

end Accounted

/-- **Memory is conserved.**  From any reachable state `u`, let a run of
allocations, frees and writes end with the objects `os` out besides those of
`u`.  Freeing `os` in any order returns, and leaves free what was free in `u`. -/
theorem pmm_conserves (hR : ManagedRange hw start N r)
    (hmem : ∀ x, start ≤ x → x < start + sliceSize * N → mem x = 0) :
    ∃ s, pmmInit hw mem start (start + sliceSize * N) = .ok s ∧
      ∀ u u', ReflTransGen ServedStep ⟨s, []⟩ u → ReflTransGen ServedStep u u' →
        ∀ os, u'.outstanding.Perm (os ++ u.outstanding) →
          (∀ os', os'.Perm os → ∃ s', freeAll os' u'.state = .ok s' ∧ SameFree u.state s') ∧
          ∀ os' os'' s' s'', os'.Perm os → os''.Perm os → freeAll os' u'.state = .ok s' →
            freeAll os'' u'.state = .ok s'' → SameFree s' s'' := by
  suffices hsuff : ∃ s, pmmInit hw mem start (start + sliceSize * N) = .ok s ∧
      ∀ u u', ReflTransGen ServedStep ⟨s, []⟩ u → ReflTransGen ServedStep u u' →
        ∀ os, u'.outstanding.Perm (os ++ u.outstanding) → ∀ os', os'.Perm os →
          ∃ s', freeAll os' u'.state = .ok s' ∧ SameFree u.state s' by
    obtain ⟨s, hinit, hall⟩ := hsuff
    refine ⟨s, hinit, fun u u' hu hu' os hout => ⟨hall u u' hu hu' os hout, ?_⟩⟩
    intro os' os'' s' s'' hp' hp'' hs' hs''
    obtain ⟨s₁, hs₁, hsame₁⟩ := hall u u' hu hu' os hout os' hp'
    obtain ⟨s₂, hs₂, hsame₂⟩ := hall u u' hu hu' os hout os'' hp''
    cases hs'.symm.trans hs₁
    cases hs''.symm.trans hs₂
    exact hsame₁.symm.trans hsame₂
  rcases Nat.eq_zero_or_pos N with rfl | hN
  · refine ⟨_, pmmInit_empty hw hR.sliceRange mem, fun u u' hu hu' os hout os' hp => ?_⟩
    have hno := not_available_first mem start (start + sliceSize * 0)
    obtain rfl := servedRun_of_empty hu hno rfl
    obtain rfl := servedRun_of_empty hu' hno rfl
    have hnil : os ++ [] = [] := List.nil_perm.mp hout
    rw [List.append_nil] at hnil
    subst hnil
    rw [List.perm_nil.mp hp]
    exact ⟨_, rfl, rfl, fun _ => rfl⟩
  · obtain ⟨s, b, B, hinit, hinv⟩ := pmmInit_spec hR hN hmem
    refine ⟨s, hinit, fun u u' hu hu' os hout os' hp => ?_⟩
    obtain ⟨κ, hacc, -⟩ := (Accounted.of_init hR hinv).servedRun hu
    obtain ⟨κ', hacc', hfixed⟩ := hacc.servedRun hu'
    have hnodup := List.nodup_append.mp (hout.nodup hacc'.nodup)
    have hos : ∀ o ∈ os', o ∈ u'.outstanding := fun o ho =>
      hout.mem_iff.mpr (List.mem_append_left _ (hp.mem_iff.mp ho))
    obtain ⟨u'', hall, hrun, hmem'⟩ := hacc'.freeAll hos (hp.symm.nodup hnodup.1)
    obtain ⟨κ'', hacc'', hfixed'⟩ := hacc'.servedRun hrun
    refine ⟨u''.state, hall, hacc.inv.toPmmTables.sameFree hacc''.inv.toPmmTables fun k hk =>
      hacc.kinds_eq hacc'' (hfixed.trans hfixed') (fun o => ?_) hk⟩
    rw [hmem', hout.mem_iff, List.mem_append, hp.mem_iff]
    constructor
    · rintro ⟨ho | ho, hnot⟩
      · exact absurd ho hnot
      · exact ho
    · intro ho
      exact ⟨.inr ho, fun hin => hnodup.2.2 o hin o ho rfl⟩

/-- Four slices from the bottom of the kernel's half, the last two reserved.
What is allocated after a state of a run and freed again leaves as much free
as there was. -/
theorem pmm_conserves_four_slices :
    ∃ s, pmmInit ⟨0x4000, 0x4000⟩ ⟨fun _ => 0⟩ 0x80000000 (0x80000000 + sliceSize * 4) = .ok s ∧
      ∀ u u', ReflTransGen ServedStep ⟨s, []⟩ u → ReflTransGen ServedStep u u' →
        ∀ os, u'.outstanding.Perm (os ++ u.outstanding) →
          (∀ os', os'.Perm os → ∃ s', freeAll os' u'.state = .ok s' ∧ SameFree u.state s') ∧
          ∀ os' os'' s' s'', os'.Perm os → os''.Perm os → freeAll os' u'.state = .ok s' →
            freeAll os'' u'.state = .ok s'' → SameFree s' s'' :=
  pmm_conserves (r := 2) ⟨by decide, by decide, by decide, by decide, by decide⟩
    fun _ _ _ => rfl

end CourseOs.Pmm
