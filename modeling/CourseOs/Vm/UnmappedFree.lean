import CourseOs.Vm.TranslationRun

/-!
# Freeing what is not mapped

`vm2_free_page` tests that the L1 entry is coarse, and not that the entry of
the L2 table is there.  An empty entry is read as one that leads to the
physical address 0, which `VIRT2PHYS` turns into `KERNEL_VIRTUAL_OFFSET`.  No
slice of the manager lies there, but the lookup of that address comes up with
a word below it all the same (`strayRecord_bounds`), and `pmm_free_page` puts
it at the head of a list as if it were a record.

`harmless_iff` says that freeing an unmapped page is harmless exactly where
the L1 entry is not coarse.  Where it is not coarse nothing is done at all;
where it is, the call stops the kernel or leaves a list whose head is no
record, since all records lie above `KERNEL_VIRTUAL_OFFSET`.
`unmapped_free_harmless_iff` has this in every state of every run of
`CourseOs.Vm.TranslationRun`, with `remap` or without.
-/

namespace CourseOs.Pmm

open ByteMemory Relation

variable {L : Layout} {s s' : PmmState} {κ : ℕ → SliceKind} {k : SlotKind} {a n v : ℕ}
  {t : L1Table} {x : AddressSpaces} {lost : Finset ℕ} {m : ByteMemory} {hw : HardwareInfo}
  {start N r : ℕ}

/-- The manager, its records, and all translations are as before.  Other
memory may be written. -/
structure Unaffected (x : AddressSpaces) (s' : PmmState) : Prop where
  manager : s'.manager = x.pmm.manager
  records : ∀ r, IsRecord x.pmm r → ∀ a, r ≤ a → a < r + sliceInfoSize → s'.mem a = x.pmm.mem a
  walk_eq : ∀ t ∈ x.tables, ∀ v, l1ptIndex v < t.entries →
    walk s'.mem t.base v = walk x.pmm.mem t.base v

/-- Freeing the page of `v` returns and changes nothing. -/
def Harmless (x : AddressSpaces) (t : L1Table) (v : ℕ) : Prop :=
  ∃ s', vm2FreePage x.pmm t.base v = .ok s' ∧ Unaffected x s'

/-! ### A free of something that is no page

`pmm_free_page` trusts the lookup, and the lookup reads memory at an address
that it computes.  For an address outside the managed range this is no record,
but the word there decides what happens all the same. -/

/-- Whatever the lookup comes up with is at the head of a list afterwards. -/
theorem pmmFreeSlot_head (h : pmmFreeSlot k s a = .ok s') :
    ∃ l : PmmList, s'.head l = sliceinfoFor s a := by
  unfold pmmFreeSlot at h
  rw [pmmGetSliceinfoForSlice_eq] at h
  split at h
  · cases h
  · rename_i x hlook
    split at hlook
    · cases hlook
    · obtain rfl := SliceInfoLookup.success.inj hlook
      dsimp only at h
      -- it is taken off a list, and then put on one
      generalize (if infoFilled s.mem (sliceinfoFor s a) = k.full then
        removeElementLl s .allocated (sliceinfoFor s a)
        else removeElementLl s k.partialFree (sliceinfoFor s a)) = s₁ at h
      split at h
      · cases h
        exact ⟨.unused, by rw [pushToLl_head, if_pos rfl]⟩
      · cases h
        exact ⟨k.partialFree, by rw [pushToLl_head, if_pos rfl]⟩

/-- The lookup of `KERNEL_VIRTUAL_OFFSET` ends in the 4 MiB below it, or in
the slice below these. -/
theorem strayRecord_bounds (hlow : kernelVirtualOffset < s.manager.start)
    (hhigh : s.manager.start < 2 ^ 32) :
    0 < sliceinfoFor s kernelVirtualOffset ∧
      sliceinfoFor s kernelVirtualOffset < kernelVirtualOffset := by
  unfold kernelVirtualOffset at hlow
  obtain ⟨q, hq, hqle, hqlt⟩ : ∃ q,
      sub32 kernelVirtualOffset s.manager.start / (sliceinfoPerSlice * sliceSize) = q ∧
        0x400000 * q ≤ 0x180000000 - s.manager.start ∧
        0x180000000 - s.manager.start < 0x400000 * q + 0x400000 := by
    refine ⟨_, rfl, ?_⟩
    unfold sub32 kernelVirtualOffset sliceinfoPerSlice sliceSize
    omega
  -- the bucket that should hold the record, and the slice before it
  have hbucket : (s.manager.start + q * (sliceinfoPerSlice * sliceSize)) % 2 ^ 32 =
      s.manager.start + 0x400000 * q - 2 ^ 32 := by
    unfold sliceinfoPerSlice sliceSize
    omega
  obtain ⟨w, hw, hwle, hwlt⟩ : ∃ w, s.manager.start + 0x400000 * q - 2 ^ 32 = w ∧
      w ≤ 0x80000000 ∧ 0x80000000 < w + 0x400000 :=
    ⟨_, rfl, by omega, by omega⟩
  have hinfo : sub32 w (1 * sliceSize) = w - 0x2000 := by
    unfold sub32 sliceSize
    omega
  have hfirst : (w - 0x2000 + 1 * sliceSize) % 2 ^ 32 = w := by
    unfold sliceSize
    omega
  have hindex : sub32 kernelVirtualOffset w = 0x80000000 - w := by
    unfold sub32 kernelVirtualOffset
    omega
  have hslice : (0x80000000 - w) / sliceSize < 512 := by
    unfold sliceSize
    omega
  unfold sliceinfoFor
  dsimp only
  rw [hq, hbucket, if_neg (by omega), hw, hinfo, hfirst, hindex]
  generalize (0x80000000 - w) / sliceSize = i at hslice
  unfold kernelVirtualOffset sliceInfoSize
  rw [Nat.mod_eq_of_lt (by omega)]
  omega

/-! ### A page that is not mapped

Under a coarse entry an empty word is followed like any other.  It leads to
the start of the kernel's half of the addresses, whose lookup goes below it;
if the call returns it has put what it found there on one of the manager's
lists. -/

/-- Where an empty entry leads. -/
theorem virt2phys_empty : virt2phys (smallpageAddress 0) = kernelVirtualOffset := by
  decide

/-- The free of an empty entry frees `KERNEL_VIRTUAL_OFFSET`, and clears the
entry again: the word 0 is taken for the physical address 0. -/
theorem vm2FreePage_empty {l1pt : ℕ} (hok : vm2FreePage s l1pt v = .ok s')
    (hcoarse : entryType (readWord s.mem (entryAt l1pt (l1ptIndex v))) = 1)
    (hword : readWord s.mem (entryAt (l2Table (readWord s.mem
      (entryAt l1pt (l1ptIndex v)))) (l2ptIndex v)) = 0) :
    ∃ s₁, pmmFreeSlot .page s kernelVirtualOffset = .ok s₁ ∧ s'.manager = s₁.manager := by
  unfold vm2FreePage at hok
  dsimp only at hok
  rw [if_pos hcoarse, findL2pt, if_pos hcoarse, Exec.ok_bind, hword, virt2phys_empty] at hok
  obtain ⟨s₁, hfree, hwritten⟩ := Exec.bind_eq_ok.mp hok
  refine ⟨s₁, hfree, ?_⟩
  rw [← Except.ok.inj hwritten, PmmState.withMem_manager]

/-- The heads of the lists are null or records, and these lie in the managed
range. -/
theorem PmmTables.head_bounds (h : PmmTables L s κ) (l : PmmList) :
    s.head l = 0 ∨ L.start ≤ s.head l := by
  obtain ⟨lists, hl⟩ := h.lists
  rcases hl.linked.head_cases l with ⟨h0, -⟩ | ⟨k, rest, -, hk, -, -⟩
  · exact .inl h0
  · have hb := L.record_bounds k
    unfold Layout.addr at hb
    exact .inr (by omega)

namespace SpacesInv

/-- The free of an empty entry puts a word that is no record on a list, if it
returns, because `KERNEL_VIRTUAL_OFFSET` is no page of the manager's. -/
theorem manager_ne (h : SpacesInv L κ lost x) (hlow : kernelVirtualOffset < L.start)
    (ht : t ∈ x.tables) (hv : l1ptIndex v < t.entries)
    (hno : ¬Mapped x.pmm.mem t (pageNumber v))
    (hcoarse : entryType (t.entry x.pmm.mem (l1ptIndex v)) = 1)
    (hok : vm2FreePage x.pmm t.base v = .ok s') : s'.manager ≠ x.pmm.manager := by
  have hnone : x.pages (t, pageNumber v) = none := by
    by_contra hne
    exact hno ((h.mapped_iff ht (pageNumber_lt hv)).mpr hne)
  have hword := h.entered t ht _ (pageNumber_lt hv)
  rw [hnone, t.pageWord_of_coarse (by rw [← l1ptIndex_eq]; exact hcoarse), ← l1ptIndex_eq,
    ← l2ptIndex_eq] at hword
  obtain ⟨s₁, hfree, hmanager⟩ := vm2FreePage_empty hok hcoarse hword
  obtain ⟨l, hhead⟩ := pmmFreeSlot_head hfree
  have hstart := h.tables.inv.start_eq
  have hbounded := h.tables.inv.layout.bounded
  obtain ⟨hpos, hlt⟩ := strayRecord_bounds (s := x.pmm) (hstart ▸ hlow) (by omega)
  rw [hmanager]
  refine fun heq => ?_
  -- the lists are those of before, so that the head is null or a record
  have hsame : s₁.head l = x.pmm.head l := by
    unfold PmmState.head
    rw [heq]
  rw [hhead] at hsame
  rcases h.tables.inv.head_bounds l with hnull | hrecord
  · exact absurd (hsame.trans hnull) hpos.ne'
  · exact absurd (hlt.trans hlow) (not_lt.mpr (hrecord.trans_eq hsame.symm))

/-- **Freeing a page that is not mapped** is harmless where the L1 entry is
not coarse, and nowhere else. -/
theorem harmless_iff (h : SpacesInv L κ lost x) (hlow : kernelVirtualOffset < L.start)
    (ht : t ∈ x.tables) (hv : l1ptIndex v < t.entries)
    (hno : ¬Mapped x.pmm.mem t (pageNumber v)) :
    Harmless x t v ↔ entryType (t.entry x.pmm.mem (l1ptIndex v)) ≠ 1 := by
  constructor
  · rintro ⟨s', hok, haffected⟩ hcoarse
    exact h.manager_ne hlow ht hv hno hcoarse hok haffected.manager
  · intro hcoarse
    refine ⟨x.pmm, ?_, rfl, fun _ _ _ _ _ => rfl, fun _ _ _ _ => rfl⟩
    unfold vm2FreePage
    exact if_neg hcoarse

end SpacesInv

/-- **Freeing a page that is not mapped**, in every state of every run from
`pmm_init` on, with the managed range above the kernel's image. -/
theorem unmapped_free_harmless_iff (hR : ManagedRange hw start N r) (hN : 0 < N)
    (hmem : ∀ x, start ≤ x → x < start + sliceSize * N → m x = 0)
    (hlow : kernelVirtualOffset < start) :
    ∃ s, pmmInit hw m start (start + sliceSize * N) = .ok s ∧
      ∀ T, SectionTables start N T s → ∀ n x, AddressSpaces.Run ⟨s, T, fun _ => none⟩ n x →
        ∀ t ∈ x.tables, ∀ v, l1ptIndex v < t.entries → ¬Mapped x.pmm.mem t (pageNumber v) →
          (Harmless x t v ↔ entryType (t.entry x.pmm.mem (l1ptIndex v)) ≠ 1) := by
  obtain ⟨s, L, κ, hinit, hstart, hslices, -, hinv⟩ := pmmInit_spaces hR hN hmem
  refine ⟨s, hinit, fun T hT n x hrun t ht v hv hno => ?_⟩
  obtain ⟨κ', lost, h, -⟩ := hrun.inv (hslices ▸ hN) (hinv T hT)
  exact h.harmless_iff (hstart.symm ▸ hlow) ht hv hno

/-- The board with six slices, and any run of calls from `pmm_init` on. -/
theorem unmapped_free_harmless_iff_six_slices :
    ∃ s, pmmInit ⟨0x3f000000, 21 * 0x100000⟩ ⟨fun _ => 0⟩ 0x80200000
        (0x80200000 + sliceSize * 6) = .ok s ∧
      ∀ T, SectionTables 0x80200000 6 T s → ∀ n x, AddressSpaces.Run ⟨s, T, fun _ => none⟩ n x →
        ∀ t ∈ x.tables, ∀ v, l1ptIndex v < t.entries → ¬Mapped x.pmm.mem t (pageNumber v) →
          (Harmless x t v ↔ entryType (t.entry x.pmm.mem (l1ptIndex v)) ≠ 1) :=
  unmapped_free_harmless_iff (r := 6) ⟨by decide, by decide, by decide, by decide, by decide⟩
    (by decide) (fun _ _ _ => rfl) (by decide)

/-- The page after the one that is mapped.  The two are in one MiB, so that
the L1 entry is coarse. -/
theorem empty_entry_not_harmless :
    ∃ s x t, pmmInit ⟨0x3f000000, 21 * 0x100000⟩ ⟨fun _ => 0⟩ 0x80200000
        (0x80200000 + sliceSize * 6) = .ok s ∧
      AddressSpaces.Run ⟨s, ∅, fun _ => none⟩ 0 x ∧ t ∈ x.tables ∧ l1ptIndex 0x1000 < t.entries ∧
      ¬Mapped x.pmm.mem t (pageNumber 0x1000) ∧ ¬Harmless x t 0x1000 := by
  obtain ⟨s, L, κ, κ', x, lost, t, p, hinit, hstart, hpos, -, hrun, h, -, ht, hentries, hpages⟩ :=
    one_page
  have hv : l1ptIndex 0x1000 < t.entries := hentries ▸ (by decide : l1ptIndex 0x1000 < 0x800)
  have hp : x.pages (t, pageNumber 0) = some p := by
    rw [hpages, Function.update_self]
  have hcoarse : entryType (t.entry x.pmm.mem (l1ptIndex 0x1000)) = 1 :=
    h.coarse_of_entered (v := 0) ht (hentries ▸ (by decide : l1ptIndex 0 < 0x800)) hp
  have hnone : x.pages (t, pageNumber 0x1000) = none := by
    rw [hpages]
    refine Function.update_of_ne (fun heq => ?_) _ _
    exact absurd (Prod.mk.inj heq).2 (by decide)
  have hno : ¬Mapped x.pmm.mem t (pageNumber 0x1000) := fun hmapped =>
    (h.mapped_iff ht (pageNumber_lt hv)).mp hmapped hnone
  refine ⟨s, x, t, hinit, hrun, ht, hv, hno, ?_⟩
  rintro ⟨s', hok, haffected⟩
  refine h.manager_ne ?_ ht hv hno hcoarse hok haffected.manager
  rw [hstart]
  decide

end CourseOs.Pmm
