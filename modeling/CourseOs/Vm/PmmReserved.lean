import CourseOs.Vm.PmmRecords

/-!
# Reserved slices

When a bucket is full, `pmm_init` takes the head of the unused list for the
records of the next one, and the lookup expects it to be the last slice of the
full bucket.  If that slice is reserved it is not on the list: the records go
elsewhere, and the lookup reads the reserved slice itself, which holds no
records (`InitInv.info_misplaced`).

`Recognisable` says what must hold of a range and a reserved region for all
reserved slices to be recognised; `recognises_iff` is that it is also enough.
Here nothing is assumed of the reserved region: it may lie anywhere, and its
base and size may wrap around.  The range is `SliceRange`, which says no more
than that it is aligned and in the address space.

The board's own region does not meet the condition when memory is managed up
to 1 GiB (`board_peripherals_missed`): a bucket begins in the middle of the
peripherals.
-/

namespace CourseOs.Pmm

open ByteMemory LinkedList Relation

variable {s : PmmState} {hw : HardwareInfo} {start N k b : ℕ} {B : ℕ → ℕ} {mem : ByteMemory}
  {R : ℕ → Bool}

/-- The address lies in the reserved region. -/
def InRegion (hw : HardwareInfo) (a : ℕ) : Prop :=
  hw.peripheralBaseAddress ≤ sub32 a kernelVirtualOffset ∧
    sub32 a kernelVirtualOffset < hw.peripheralBaseAddress + hw.peripheralRegionSize

/-- `pmm_init` returns, and then every slice in the reserved region is found
to be reserved, on the word of a record. -/
def Recognises (hw : HardwareInfo) (mem : ByteMemory) (start N : ℕ) : Prop :=
  ∃ s, pmmInit hw mem start (start + sliceSize * N) = .ok s ∧
    ∀ k < N, InRegion hw (start + sliceSize * k) →
      pmmGetSliceinfoForSlice s (start + sliceSize * k) = .reservedMmioMemory ∧
        IsRecord s (sliceinfoFor s (start + sliceSize * k))

/-- What the recognition of reserved slices needs: a condition on the range
and the region, and not on what `pmm_init` does. -/
structure Recognisable (hw : HardwareInfo) (start N : ℕ) : Prop where
  /-- The slice is not the first, and the sum of base and size does not wrap around. -/
  marked : ∀ k < N, InRegion hw (start + sliceSize * k) → marked hw start k = true
  /-- The slice before the bucket is not reserved. -/
  bucket : ∀ k < N, InRegion hw (start + sliceSize * k) → sliceinfoPerSlice ≤ k →
    Pmm.marked hw start (sliceinfoPerSlice * (k / sliceinfoPerSlice) - 1) = false
  supplied : Supplied (Pmm.marked hw start) N

namespace InitInv

/-- What is looked up in a reserved slice is no record: it has not been
written. -/
theorem info_misplaced (h : InitInv start N R N b B s) {i j : ℕ} (hi : i < N)
    (hj : j < sliceinfoPerSlice) (hr : R i = true) (f : Field) :
    info s.mem (Layout.addr ⟨start, N, B⟩ i + sliceInfoSize * j) f = 0 := by
  have hkind : initKind R B b i ≠ .bucketInfo := by
    rw [initKind_reserved.mpr hr]
    exact SliceKind.noConfusion
  have hf := f.offset_le
  refine readWord_eq_zero fun x hx hx' => h.zero x ?_ ?_ fun k hk => ?_
  · unfold Layout.addr at hx
    dsimp only at hx
    omega
  · unfold Layout.addr sliceSize sliceInfoSize sliceinfoPerSlice at *
    dsimp only at *
    omega
  · have := Layout.record_outside (L := ⟨start, N, B⟩) (h.inv.bucketSlice_ne hk hkind)
    unfold Layout.addr sliceSize sliceInfoSize sliceinfoPerSlice at *
    dsimp only at *
    omega

/-- **A slice that is found reserved** is marked, and its record lies where it
is looked up. -/
theorem of_lookup_reserved (h : InitInv start N R N b B s) (hk : k < N)
    (hlook : pmmGetSliceinfoForSlice s (start + sliceSize * k) = .reservedMmioMemory) :
    R k = true ∧ (sliceinfoPerSlice ≤ k →
      R (sliceinfoPerSlice * (k / sliceinfoPerSlice) - 1) = false) := by
  have hflag : infoReserved s.mem (sliceinfoFor s (start + sliceSize * k)) = 1 := by
    rw [pmmGetSliceinfoForSlice_eq] at hlook
    by_contra hne
    rw [if_neg hne] at hlook
    cases hlook
  have hle : Layout.addr ⟨start, N, B⟩ k ≤ start + sliceSize * k := le_rfl
  have hlt : start + sliceSize * k < Layout.addr ⟨start, N, B⟩ k + sliceSize :=
    Nat.lt_add_of_pos_right (by decide)
  have hbefore : sliceinfoPerSlice ≤ k →
      R (sliceinfoPerSlice * (k / sliceinfoPerSlice) - 1) = false := by
    intro h512
    cases hr : R (sliceinfoPerSlice * (k / sliceinfoPerSlice) - 1) with
    | false => rfl
    | true =>
        have hlast : sliceinfoPerSlice * (k / sliceinfoPerSlice) - 1 < N := by
          unfold sliceinfoPerSlice at *
          omega
        rw [sliceinfoFor_eq h.inv.layout h.inv.start_eq hk hle hlt] at hflag
        unfold infoReserved at hflag
        rw [h.info_misplaced hlast (Nat.mod_lt k (by decide)) hr] at hflag
        cases hflag
  refine ⟨?_, hbefore⟩
  rw [h.inv.sliceinfoFor_eq_record hk
    (fun h512 => h.bucket_before _ (h.div_le hk) (by unfold sliceinfoPerSlice at *; omega)
      (hbefore h512)) hle hlt, h.inv.reserved_eq k hk] at hflag
  by_contra hne
  rw [if_neg (fun heq => hne (initKind_reserved.mp heq))] at hflag
  cases hflag

end InitInv

theorem supplied_zero (R : ℕ → Bool) : Supplied R 0 := by
  intro b hb
  unfold sliceinfoPerSlice at hb
  omega

/-- What is recognised is recognisable.  Each part of the condition is read
off a slice that would not be recognised without it. -/
theorem Recognises.recognisable (h : Recognises hw mem start N) (hS : SliceRange start N)
    (hmem : ∀ x, start ≤ x → x < start + sliceSize * N → mem x = 0) :
    Recognisable hw start N := by
  rcases Nat.eq_zero_or_pos N with rfl | hN
  · exact ⟨fun k hk => absurd hk (Nat.not_lt_zero k), fun k hk => absurd hk (Nat.not_lt_zero k),
      supplied_zero _⟩
  obtain ⟨s, hinit, hall⟩ := h
  rcases pmmInit_outcome hw hS hN hmem with ⟨s', b, B, hok, hinv, hsup⟩ | ⟨herr, -⟩
  · cases hinit.symm.trans hok
    exact ⟨fun k hk hin => (hinv.of_lookup_reserved hk (hall k hk hin).1).1,
      fun k hk hin => (hinv.of_lookup_reserved hk (hall k hk hin).1).2, hsup⟩
  · cases hinit.symm.trans herr

theorem Recognisable.recognises (h : Recognisable hw start N) (hS : SliceRange start N)
    (hmem : ∀ x, start ≤ x → x < start + sliceSize * N → mem x = 0) :
    Recognises hw mem start N := by
  rcases Nat.eq_zero_or_pos N with rfl | hN
  · exact ⟨_, pmmInit_empty hw hS mem, fun k hk => absurd hk (Nat.not_lt_zero k)⟩
  rcases pmmInit_outcome hw hS hN hmem with ⟨s, b, B, hok, hinv, -⟩ | ⟨-, hnone⟩
  · refine ⟨s, hok, fun k hk hin => ?_⟩
    have hle : Layout.addr ⟨start, N, B⟩ k ≤ start + sliceSize * k := le_rfl
    have hlt : start + sliceSize * k < Layout.addr ⟨start, N, B⟩ k + sliceSize :=
      Nat.lt_add_of_pos_right (by decide)
    have hrec := hinv.inv.sliceinfoFor_eq_record hk
      (fun h512 => hinv.bucket_before _ (hinv.div_le hk)
        (by unfold sliceinfoPerSlice at *; omega) (h.bucket k hk hin h512)) hle hlt
    have hkind : initKind (Pmm.marked hw start) B b k = .reserved :=
      initKind_reserved.mpr (h.marked k hk hin)
    constructor
    · rw [pmmGetSliceinfoForSlice_eq, hrec, hinv.inv.reserved_eq k hk, hkind]
      rfl
    · rw [hrec]
      exact (hinv.inv.describes hk hle hlt).1
  · exact absurd h.supplied hnone

/-- **Reserved slices are recognised** exactly when the first slice is none of
them, base and size do not wrap around, the slice before a bucket with one is
not reserved, and there are slices for all records. -/
theorem recognises_iff (hS : SliceRange start N)
    (hmem : ∀ x, start ≤ x → x < start + sliceSize * N → mem x = 0) :
    Recognises hw mem start N ↔ Recognisable hw start N :=
  ⟨fun h => h.recognisable hS hmem, fun h => h.recognises hS hmem⟩

/-- Four slices from the bottom of the kernel's half, the last two reserved. -/
theorem recognises_iff_four_slices : Recognises ⟨0x4000, 0x4000⟩ ⟨fun _ => 0⟩ 0x80000000 4 ↔
    Recognisable ⟨0x4000, 0x4000⟩ 0x80000000 4 :=
  recognises_iff ⟨by decide, by decide, by decide⟩ fun _ _ _ => rfl

/-- The peripherals of the board, in memory managed from 2 MiB up to the end
of 1 GiB: the bucket at 0xbf200000 begins in the middle of them. -/
theorem board_peripherals_missed :
    ¬Recognises ⟨0x3f000000, 21 * 0x100000⟩ ⟨fun _ => 0⟩ 0x80200000 0x1ff00 := by
  intro h
  have hrec := h.recognisable ⟨by decide, by decide, by decide⟩ fun _ _ _ => rfl
  have hlast := hrec.bucket 0x1f800 (by decide) ⟨by decide, by decide⟩ (by decide)
  exact absurd hlast (by decide)

end CourseOs.Pmm
