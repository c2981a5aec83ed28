import CourseOs.Vm.KernelSpace

/-!
# The heap and the peripherals share a table

The heap grows up from `KERNEL_HEAP_BASE` and the peripherals grow down from
`KERNEL_MMIO_BASE`.  `expand` looks at the entry it needs: where it finds a
section it is refused.  `vm2_map_peripheral` lowers its counter by the size of
the request and writes its sections whatever the entries hold.

* `PeripheralMapped` — what a request for a peripheral does, if it fits above
  the heap;
* `Regions` — the invariant: the heap's entries are coarse, the peripherals'
  sections;
* `mapPeripheral_clobbers` — a request that `Meets` the heap replaces the
  heap's last entry;
* `expand_spec`, `Regions.expand_refused` — `expand` changes one entry, and
  where the heap has come to the peripherals it returns that it is refused.

A request for very many MiB goes around the table: the counter is one of 32
bits, and the entries are those for its values (`roundIndex`).  So which
entries a request writes is worked out for requests of any size
(`mapPeripheral_entry`), and only then for those that fit.
-/

namespace CourseOs.KernelSpace

open ByteMemory Pmm

variable {L : Layout} {κ κ' : ℕ → SliceKind} {m m' : ByteMemory} {s s' : KernelSpace}
  {i j n top physical v page : ℕ}

/-! ### The loop that maps a peripheral

The loop counts in 32 bits and indexes the table with the upper twelve of
them.  So its rounds come by at entries counted around the table, and with
many rounds an entry is written more than once; nothing is assumed about their
number here. -/

/-- A section only keeps the low 12 bits of its base address. -/
theorem sectionEntry_mod (a : ℕ) :
    sectionEntry (l1ptBaseAddress (a % 2 ^ 32)) = sectionEntry (l1ptBaseAddress a) := by
  unfold sectionEntry l1ptBaseAddress l1ptIndex
  omega

theorem mapPeripheralLoop_top (htop : top < 2 ^ 32) :
    (mapPeripheralLoop n top physical m).2 = (top + n * mebibyte) % 2 ^ 32 := by
  induction n generalizing top physical m with
  | zero =>
      rw [Nat.zero_mul, Nat.add_zero, Nat.mod_eq_of_lt htop]
      rfl
  | succ n ih =>
      unfold mapPeripheralLoop
      rw [ih (Nat.mod_lt _ (by decide)), Nat.mod_add_mod, Nat.succ_mul]
      congr 1
      omega

/-- The loop writes into the table only. -/
theorem mapPeripheralLoop_outside (htop : top < 2 ^ 32) {x : ℕ}
    (hx : x < kernelL1PageTable ∨ kernelL1PageTable + 4 * 0x1000 ≤ x) :
    (mapPeripheralLoop n top physical m).1 x = m x := by
  induction n generalizing top physical m with
  | zero => rfl
  | succ n ih =>
      have hindex := l1ptIndex_lt htop
      unfold mapPeripheralLoop
      refine (ih (Nat.mod_lt _ (by decide))).trans (writeWord_apply_of_notMem ?_)
      unfold entryAt
      omega

/-- Round `k` of the loop writes the entry for the counter's value in that
round. -/
def roundIndex (top k : ℕ) : ℕ := l1ptIndex ((top + k * mebibyte) % 2 ^ 32)

theorem roundIndex_succ (top k : ℕ) :
    roundIndex ((top + mebibyte) % 2 ^ 32) k = roundIndex top (k + 1) := by
  unfold roundIndex
  rw [Nat.mod_add_mod, Nat.succ_mul]
  congr 2
  omega

/-- An entry is as it was, or holds the section of the last round that wrote
it.  With 4096 rounds or more an entry is written more than once. -/
theorem mapPeripheralLoop_entry (htop : top < 2 ^ 32) :
    ((∀ k < n, roundIndex top k ≠ i) ∧
        kernelEntry (mapPeripheralLoop n top physical m).1 i = kernelEntry m i) ∨
      ∃ k < n, roundIndex top k = i ∧ kernelEntry (mapPeripheralLoop n top physical m).1 i =
        sectionEntry (l1ptBaseAddress (physical + k * mebibyte)) := by
  induction n generalizing top physical m with
  | zero => exact .inl ⟨fun k hk => absurd hk (Nat.not_lt_zero k), rfl⟩
  | succ n ih =>
      have hfirst : roundIndex top 0 = l1ptIndex top := by
        unfold roundIndex
        rw [Nat.zero_mul, Nat.add_zero, Nat.mod_eq_of_lt htop]
      unfold mapPeripheralLoop
      have hnext : (top + mebibyte) % 2 ^ 32 < 2 ^ 32 := Nat.mod_lt _ (by decide)
      rcases @ih (writeWord m (entryAt kernelL1PageTable (l1ptIndex top))
          (sectionEntry (l1ptBaseAddress physical))) _ ((physical + mebibyte) % 2 ^ 32) hnext with
        ⟨hno, heq⟩ | ⟨k, hk, hround, heq⟩
      · rw [heq, kernelEntry_writeWord (sectionEntry_lt _)]
        by_cases hi : i = l1ptIndex top
        · rw [if_pos hi]
          refine .inr ⟨0, Nat.succ_pos n, hfirst.trans hi.symm, ?_⟩
          rw [Nat.zero_mul, Nat.add_zero]
        · rw [if_neg hi]
          refine .inl ⟨fun k hk heq => ?_, rfl⟩
          cases k with
          | zero => exact hi (heq.symm.trans hfirst)
          | succ k => exact hno k (Nat.lt_of_succ_lt_succ hk) ((roundIndex_succ top k).trans heq)
      · refine .inr ⟨k + 1, Nat.succ_lt_succ hk, (roundIndex_succ top k).symm.trans hround, ?_⟩
        rw [heq, ← sectionEntry_mod ((physical + mebibyte) % 2 ^ 32 + k * mebibyte),
          Nat.mod_add_mod, sectionEntry_mod, Nat.succ_mul]
        congr 2
        omega

/-- Where the rounds of a request for `n` MiB come by: at the `n` entries
below `top`, counted around the table. -/
theorem roundIndex_eq_iff (htop : top < 2 ^ 32) (haligned : top % mebibyte = 0) (hi : i < 0x1000) :
    (∃ k < n, roundIndex (sub32 top (n * mebibyte % 2 ^ 32)) k = i) ↔
      ∃ d, 1 ≤ d ∧ d ≤ n ∧ (i + d) % 0x1000 = top / mebibyte := by
  have hround : ∀ k < n, roundIndex (sub32 top (n * mebibyte % 2 ^ 32)) k = i ↔
      (i + (n - k)) % 0x1000 = top / mebibyte := by
    intro k hk
    unfold roundIndex sub32 l1ptIndex mebibyte at *
    omega
  constructor
  · rintro ⟨k, hk, heq⟩
    exact ⟨n - k, by omega, by omega, (hround k hk).mp heq⟩
  · rintro ⟨d, hd, hdn, heq⟩
    refine ⟨n - d, by omega, (hround _ (by omega)).mpr ?_⟩
    rw [show n - (n - d) = d by omega]
    exact heq

/-! ### Requests for peripherals

Whether a request meets the heap is a matter of two numbers, the end of the
heap and the end of what the peripherals have left, and is said without
wrap-around.  A request that does not meet it writes entries that were empty. -/

/-- The entry serves the heap: its section begins between the base and the
end. -/
def HeapEntry (s : KernelSpace) (i : ℕ) : Prop :=
  kernelHeapBase ≤ i * mebibyte ∧ i * mebibyte < s.heapEnd

/-- The entry serves a peripheral: its section begins between the top and the
base of the region. -/
def MmioEntry (s : KernelSpace) (i : ℕ) : Prop :=
  s.mmioCurrentTop ≤ i * mebibyte ∧ i * mebibyte < kernelMmioBase

/-- The entry maps physical memory, in the part of the kernel's space below
the heap. -/
def RamEntry (i : ℕ) : Prop :=
  kernelVirtualOffset ≤ i * mebibyte ∧ i * mebibyte < kernelHeapBase

/-- A request for `n` MiB does not fit between the heap and the peripherals.
The sum is not one of 32 bits. -/
def Meets (s : KernelSpace) (n : ℕ) : Prop := 0 < n ∧ s.mmioCurrentTop < s.heapEnd + n * mebibyte

/-- What a request does that fits: of the table it changes the `n` entries
below `mmio_current_top`, into sections. -/
structure PeripheralMapped (s : KernelSpace) (n : ℕ) (s' : KernelSpace) : Prop where
  manager_eq : s'.pmm.manager = s.pmm.manager
  heapEnd_eq : s'.heapEnd = s.heapEnd
  top_eq : s'.mmioCurrentTop + n * mebibyte = s.mmioCurrentTop
  outside : ∀ x, (x < kernelL1PageTable ∨ kernelL1PageTable + 4 * 0x1000 ≤ x) →
    s'.pmm.mem x = s.pmm.mem x
  written : ∀ i, s'.mmioCurrentTop ≤ i * mebibyte → i * mebibyte < s.mmioCurrentTop →
    entryType (kernelEntry s'.pmm.mem i) = 2
  kept : ∀ i < 0x1000, (i * mebibyte < s'.mmioCurrentTop ∨ s.mmioCurrentTop ≤ i * mebibyte) →
    kernelEntry s'.pmm.mem i = kernelEntry s.pmm.mem i

/-- Every entry is as it was, or a section that one of the `n` rounds wrote.
The entries written are the `n` below `mmio_current_top`, counted around the
end of the table. -/
theorem mapPeripheral_entry (n physical : ℕ) (htop : s.mmioCurrentTop < 2 ^ 32)
    (haligned : s.mmioCurrentTop % mebibyte = 0) (hi : i < 0x1000) :
    ((¬∃ d, 1 ≤ d ∧ d ≤ n ∧ (i + d) % 0x1000 = s.mmioCurrentTop / mebibyte) ∧
        kernelEntry (mapPeripheral s physical n).1.pmm.mem i = kernelEntry s.pmm.mem i) ∨
      ((∃ d, 1 ≤ d ∧ d ≤ n ∧ (i + d) % 0x1000 = s.mmioCurrentTop / mebibyte) ∧
        entryType (kernelEntry (mapPeripheral s physical n).1.pmm.mem i) = 2) := by
  have hstart : sub32 s.mmioCurrentTop (n * mebibyte % 2 ^ 32) < 2 ^ 32 :=
    Nat.mod_lt _ (by decide)
  rw [← roundIndex_eq_iff htop haligned hi]
  rcases mapPeripheralLoop_entry (n := n) (i := i) (m := s.pmm.mem) hstart with
    ⟨hno, heq⟩ | ⟨k, hk, hround, heq⟩
  · exact .inl ⟨fun ⟨k, hk, hround⟩ => hno k hk hround, heq⟩
  · refine .inr ⟨⟨k, hk, hround⟩, ?_⟩
    exact (congrArg entryType heq).trans (entryType_sectionEntry _)

/-- A request that fits below `mmio_current_top`: the top moves down by its
size, its entries become sections, and the others stay.  The loop does not go
around the table. -/
theorem mapPeripheral_mapped (hle : s.mmioCurrentTop ≤ kernelMmioBase)
    (haligned : s.mmioCurrentTop % mebibyte = 0) (hfits : n * mebibyte ≤ s.mmioCurrentTop) :
    PeripheralMapped s n (mapPeripheral s physical n).1 := by
  have htop : s.mmioCurrentTop < 2 ^ 32 := lt_of_le_of_lt hle (by decide)
  have hsize : n * mebibyte % 2 ^ 32 = n * mebibyte := Nat.mod_eq_of_lt (by omega)
  have hfirst := sub32_of_le hfits htop
  have htop' : (mapPeripheral s physical n).1.mmioCurrentTop =
      s.mmioCurrentTop - n * mebibyte := by
    show sub32 (mapPeripheralLoop n _ _ _).2 _ = _
    rw [hsize, hfirst, mapPeripheralLoop_top (by omega), Nat.sub_add_cancel hfits,
      Nat.mod_eq_of_lt htop, hfirst]
  -- the request fits, so its rounds do not go around the table
  have hrounds : ∀ i < 0x1000,
      (∃ d, 1 ≤ d ∧ d ≤ n ∧ (i + d) % 0x1000 = s.mmioCurrentTop / mebibyte) ↔
        s.mmioCurrentTop - n * mebibyte ≤ i * mebibyte ∧ i * mebibyte < s.mmioCurrentTop := by
    intro i hi
    unfold mebibyte at *
    constructor
    · rintro ⟨d, hd, hdn, heq⟩
      omega
    · rintro ⟨hge, hlt⟩
      exact ⟨s.mmioCurrentTop / 0x100000 - i, by omega, by omega, by omega⟩
  refine ⟨rfl, rfl, ?_, fun x hx => ?_, fun i hge hlt => ?_, fun i hi hne => ?_⟩
  · rw [htop']
    omega
  · exact mapPeripheralLoop_outside (Nat.mod_lt _ (by decide)) hx
  · have hi : i < 0x1000 := by
      unfold mebibyte at *
      omega
    rw [htop'] at hge
    rcases mapPeripheral_entry n physical htop haligned hi with
      ⟨hno, -⟩ | ⟨-, htype⟩
    · exact absurd ((hrounds i hi).mpr ⟨hge, hlt⟩) hno
    · exact htype
  · rw [htop'] at hne
    rcases mapPeripheral_entry n physical htop haligned hi with
      ⟨-, heq⟩ | ⟨hround, -⟩
    · exact heq
    · have := (hrounds i hi).mp hround
      omega

/-! ### The invariant

The four regions of the kernel's table: physical memory, the heap, the gap
between the heap and the peripherals, and the peripherals.  The gap is empty
but for the entry the heap has grown into, and this is what makes it safe for
both sides to grow. -/

/-- The regions of the table, and nothing mapped between the heap and the
peripherals. -/
structure Regions (L : Layout) (κ : ℕ → SliceKind) (s : KernelSpace) : Prop where
  tables : KernelTables L κ s.pmm
  heapEnd_aligned : s.heapEnd % pageSize = 0
  heapEnd_ge : kernelHeapBase ≤ s.heapEnd
  heapEnd_le : s.heapEnd ≤ highVectorLocation
  top_aligned : s.mmioCurrentTop % mebibyte = 0
  top_ge : kernelHeapBase ≤ s.mmioCurrentTop
  top_le : s.mmioCurrentTop ≤ kernelMmioBase
  heap : ∀ i, HeapEntry s i → entryType (kernelEntry s.pmm.mem i) = 1
  mmio : ∀ i, MmioEntry s i → entryType (kernelEntry s.pmm.mem i) = 2
  /-- The page of the vectors. -/
  vectors : entryType (kernelEntry s.pmm.mem 0xFFF) = 1 ∧
    l2Entry s.pmm.mem (l2Table (kernelEntry s.pmm.mem 0xFFF)) 0xF0 ≠ 0
  between : ∀ i, s.heapEnd ≤ i * mebibyte → i * mebibyte < s.mmioCurrentTop →
    kernelEntry s.pmm.mem i = 0
  /-- The part of the heap's last MiB that the heap has not reached. -/
  rest : s.heapEnd < kernelMmioBase →
    entryType (kernelEntry s.pmm.mem (l1ptIndex s.heapEnd)) = 1 → ∀ j < 256,
      l2ptIndex s.heapEnd ≤ j →
        l2Entry s.pmm.mem (l2Table (kernelEntry s.pmm.mem (l1ptIndex s.heapEnd))) j = 0

namespace Regions

theorem top_lt (h : Regions L κ s) : s.mmioCurrentTop < 2 ^ 32 :=
  lt_of_le_of_lt h.top_le (by decide)

theorem heapEnd_lt (h : Regions L κ s) : s.heapEnd < 2 ^ 32 :=
  lt_of_le_of_lt h.heapEnd_le (by decide)

/-- Past the end of the heap nothing is coarse. -/
theorem beyond (h : Regions L κ s) (hge : s.heapEnd ≤ i * mebibyte)
    (hlt : i * mebibyte < kernelMmioBase) : entryType (kernelEntry s.pmm.mem i) ≠ 1 := by
  by_cases hmmio : s.mmioCurrentTop ≤ i * mebibyte
  · rw [h.mmio i ⟨hmmio, hlt⟩]
    decide
  · rw [h.between i hge (not_le.mp hmmio)]
    decide

/-- A page mapped at the end of the heap.  Its entry was empty or is coarse
already, and every other entry stays, so that those of the peripherals do. -/
theorem grow (h : Regions L κ s) {pmm : PmmState}
    (hp : PageAdded L κ s.pmm s.heapEnd κ' pmm page) (hlt : s.heapEnd < highVectorLocation) :
    Regions L κ' { s with pmm := pmm, heapEnd := s.heapEnd + pageSize } := by
  have haligned := h.heapEnd_aligned
  have hge := h.heapEnd_ge
  have hindex := l1ptIndex_lt h.heapEnd_lt
  -- an entry that is not empty stays
  have hkept : ∀ i < 0x1000, entryType (kernelEntry s.pmm.mem i) ≠ 0 →
      kernelEntry pmm.mem i = kernelEntry s.pmm.mem i :=
    fun i hi hne => (hp.other i hi).resolve_right fun ⟨_, h0⟩ => hne h0
  have hi_of_lt : ∀ i, i * mebibyte < 2 ^ 32 → i < 0x1000 := by
    intro i hi
    unfold mebibyte at hi
    omega
  have hend : kernelMmioBase < 2 ^ 32 := by decide
  refine ⟨hp.tables, ?_, ?_, ?_, h.top_aligned, h.top_ge, h.top_le, fun i hi => ?_,
    fun i hi => ?_, ?_, fun i hi hi' => ?_, fun hle htype j hj hge => ?_⟩
  · show (s.heapEnd + pageSize) % pageSize = 0
    rw [Nat.add_mod_right]
    exact haligned
  · exact le_trans hge (Nat.le_add_right _ _)
  · show s.heapEnd + pageSize ≤ highVectorLocation
    unfold highVectorLocation pageSize at *
    omega
  · obtain ⟨hbase, hlt'⟩ := hi
    by_cases hold : i * mebibyte < s.heapEnd
    · have htype := h.heap i ⟨hbase, hold⟩
      have hi : i < 0x1000 := hi_of_lt i (hold.trans h.heapEnd_lt)
      rw [hkept i hi (by rw [htype]; decide)]
      exact htype
    · have hiv : i = l1ptIndex s.heapEnd := by
        unfold l1ptIndex
        unfold mebibyte pageSize at *
        dsimp only at hlt'
        omega
      rw [hiv]
      exact hp.entry
  · have htype := h.mmio i hi
    rw [hkept i (hi_of_lt i (hi.2.trans hend)) (by rw [htype]; decide)]
    exact htype
  · obtain ⟨htype, hne⟩ := h.vectors
    have heq := hkept 0xFFF (by decide) (by rw [htype]; decide)
    dsimp only
    rw [heq]
    refine ⟨htype, ?_⟩
    rcases hp.kept _ (h.tables.coarse 0xFFF (by decide) htype) 0xF0 (by decide) with heq' | ⟨h0, -⟩
    · rw [heq']
      exact hne
    · exact absurd h0 hne
  · dsimp only at hi
    have hne : i ≠ l1ptIndex s.heapEnd := by
      unfold l1ptIndex
      unfold mebibyte pageSize at *
      omega
    rw [(hp.other i (hi_of_lt i (hi'.trans h.top_lt))).resolve_right fun ⟨heq, _⟩ => hne heq]
    exact h.between i (le_trans (Nat.le_add_right _ _) hi) hi'
  · dsimp only at hle htype hge ⊢
    by_cases hsame : l1ptIndex (s.heapEnd + pageSize) = l1ptIndex s.heapEnd
    · rw [hsame] at htype ⊢
      have hj' : l2ptIndex s.heapEnd ≤ j ∧ j ≠ l2ptIndex s.heapEnd := by
        unfold l1ptIndex at hsame
        unfold l2ptIndex at *
        unfold pageSize at *
        omega
      by_cases h0 : entryType (kernelEntry s.pmm.mem (l1ptIndex s.heapEnd)) = 0
      · exact hp.empty h0 j hj hj'.2
      · have heq := hkept _ hindex h0
        rw [heq] at htype ⊢
        rcases hp.kept _ (h.tables.coarse _ hindex htype) j hj with hw | ⟨-, -, hjv⟩
        · rw [hw]
          exact h.rest (lt_of_le_of_lt (Nat.le_add_right _ _) hle) htype j hj hj'.1
        · exact absurd hjv hj'.2
    · -- the heap has filled its last MiB, and the next entry is not coarse
      have hnext : l1ptIndex (s.heapEnd + pageSize) * mebibyte = s.heapEnd + pageSize := by
        unfold l1ptIndex at *
        unfold mebibyte pageSize at *
        omega
      have hne : l1ptIndex (s.heapEnd + pageSize) ≠ l1ptIndex s.heapEnd := hsame
      have hbound : l1ptIndex (s.heapEnd + pageSize) < 0x1000 :=
        l1ptIndex_lt (lt_trans hle hend)
      rw [(hp.other _ hbound).resolve_right fun ⟨heq, _⟩ => hne heq] at htype
      refine absurd htype (h.beyond ?_ ?_)
      · rw [hnext]
        exact Nat.le_add_right _ _
      · rw [hnext]
        exact hle

/-- A request that fits.  An entry stays or becomes a section, and it becomes
one only between the heap and the old top. -/
theorem mapPeripheral (h : Regions L κ s) (hno : ¬Meets s n) (hm : PeripheralMapped s n s') :
    Regions L κ s' := by
  have hfits : n * mebibyte = 0 ∨ s.heapEnd + n * mebibyte ≤ s.mmioCurrentTop := by
    unfold Meets mebibyte at *
    omega
  have htop := hm.top_eq
  have hge := h.heapEnd_ge
  have hge' := h.top_ge
  have hle := h.top_le
  have hend : kernelMmioBase < 2 ^ 32 := by decide
  have hi_of_lt : ∀ i, i * mebibyte < 2 ^ 32 → i < 0x1000 := by
    intro i hi
    unfold mebibyte at hi
    omega
  -- every entry stays or becomes a section, and becomes one only between the two regions
  have hentry : ∀ i < 0x1000, kernelEntry s'.pmm.mem i = kernelEntry s.pmm.mem i ∨
      (entryType (kernelEntry s'.pmm.mem i) = 2 ∧ s.heapEnd ≤ i * mebibyte ∧
        s'.mmioCurrentTop ≤ i * mebibyte ∧ i * mebibyte < s.mmioCurrentTop) := by
    intro i hi
    by_cases hin : s'.mmioCurrentTop ≤ i * mebibyte ∧ i * mebibyte < s.mmioCurrentTop
    · exact .inr ⟨hm.written i hin.1 hin.2, by omega, hin⟩
    · exact .inl (hm.kept i hi (by omega))
  have hl2 : ∀ q, (⟨.slot .l2, q⟩ : Object) ∈ held L κ → ∀ j < 256,
      l2Entry s'.pmm.mem q j = l2Entry s.pmm.mem q j := by
    intro q hq j hj
    have hb := h.tables.inv.held_bounds hq
    have hbelow := h.tables.below
    refine readWord_congr fun x hx _ => hm.outside x (.inr ?_)
    unfold entryAt at hx
    dsimp only at hb
    omega
  have hpmm : s'.pmm = s.pmm.withMem s'.pmm.mem := by
    unfold PmmState.withMem
    rw [← hm.manager_eq]
  refine ⟨?_, hm.heapEnd_eq ▸ h.heapEnd_aligned, hm.heapEnd_eq ▸ hge, hm.heapEnd_eq ▸ h.heapEnd_le,
    ?_, ?_, by omega, fun i hi => ?_, fun i hi => ?_, ?_, fun i hi hi' => ?_, ?_⟩
  · rw [hpmm]
    refine h.tables.write (fun x hx => hm.outside x (.inr hx)) fun i hi => ?_
    rcases hentry i hi with heq | ⟨htype, -⟩
    · exact .inl heq
    · exact .inr (by rw [htype]; decide)
  · have haligned := h.top_aligned
    unfold mebibyte at *
    omega
  · omega
  · rw [HeapEntry, hm.heapEnd_eq] at hi
    rcases hentry i (hi_of_lt i (hi.2.trans h.heapEnd_lt)) with heq | ⟨-, hge, -⟩
    · rw [heq]
      exact h.heap i hi
    · exact absurd hi.2 (not_lt.mpr hge)
  · rcases hentry i (hi_of_lt i (hi.2.trans hend)) with heq | ⟨htype, -⟩
    · by_cases hold : s.mmioCurrentTop ≤ i * mebibyte
      · rw [heq]
        exact h.mmio i ⟨hold, hi.2⟩
      · exact hm.written i hi.1 (not_le.mp hold)
    · exact htype
  · rcases hentry 0xFFF (by decide) with heq | ⟨-, -, -, hlt⟩
    · rw [heq, hl2 _ (h.tables.coarse _ (by decide) h.vectors.1) _ (by decide)]
      exact h.vectors
    · unfold kernelMmioBase mebibyte at *
      omega
  · rw [hm.heapEnd_eq] at hi
    have hlt : i * mebibyte < s.mmioCurrentTop := by omega
    rw [hm.kept i (hi_of_lt i (hlt.trans h.top_lt)) (.inl hi')]
    exact h.between i hi hlt
  · rw [hm.heapEnd_eq]
    intro hlt htype j hj hge
    rcases hentry _ (l1ptIndex_lt h.heapEnd_lt) with heq | ⟨htype', -⟩
    · rw [heq] at htype ⊢
      rw [hl2 _ (h.tables.coarse _ (l1ptIndex_lt h.heapEnd_lt) htype) j hj]
      exact h.rest hlt htype j hj hge
    · rw [htype'] at htype
      cases htype

/-- The heap never reaches the vectors: their page is mapped. -/
theorem heapEnd_lt_vectors (h : Regions L κ s) {pmm : PmmState}
    (hp : PageAdded L κ s.pmm s.heapEnd κ' pmm page) : s.heapEnd < highVectorLocation := by
  refine lt_of_le_of_ne h.heapEnd_le fun heq => h.vectors.2 ?_
  have hunmapped := hp.unmapped
  rw [heq] at hunmapped
  exact hunmapped h.vectors.1

end Regions

/-! ### What the two requests do

`expand` asks the entry, and is refused at a section.  `vm2_map_peripheral`
asks nothing; that it respects the heap is proved equivalent to a condition on
its argument. -/

/-- **`expand`** is refused, and changes nothing, when the entry it needs maps
a section.  Otherwise it changes this entry only, if it was empty. -/
theorem expand_spec (h : Regions L κ s) {r : ℕ} (hok : expand s = .ok (s', r)) :
    (2 ≤ entryType (kernelEntry s.pmm.mem (l1ptIndex s.heapEnd)) ∧ s' = s ∧ r = 0) ∨
      entryType (kernelEntry s.pmm.mem (l1ptIndex s.heapEnd)) < 2 ∧ ∃ κ', Regions L κ' s' ∧
        s'.heapEnd = s.heapEnd + pageSize ∧ r = 1 ∧ ∀ i < 0x1000,
          kernelEntry s'.pmm.mem i = kernelEntry s.pmm.mem i ∨
            (i = l1ptIndex s.heapEnd ∧ entryType (kernelEntry s.pmm.mem i) = 0) := by
  unfold expand at hok
  obtain ⟨⟨pmm, page⟩, halloc, hok⟩ := Exec.bind_eq_ok.mp hok
  dsimp only at hok
  rcases allocateKernelPage_spec h.tables h.heapEnd_lt halloc with ⟨htype, rfl, rfl⟩ | ⟨κ', hp⟩
  · rw [if_pos rfl] at hok
    cases hok
    exact .inl ⟨htype, rfl, rfl⟩
  · have hlt := h.heapEnd_lt_vectors hp
    have hnext : (s.heapEnd + pageSize) % 2 ^ 32 = s.heapEnd + pageSize := by
      refine Nat.mod_eq_of_lt ?_
      unfold highVectorLocation pageSize at *
      omega
    rw [if_neg hp.page_ne_zero, hnext] at hok
    cases hok
    exact .inr ⟨hp.entryType_lt (l1ptIndex_lt h.heapEnd_lt), κ', h.grow hp hlt, rfl, rfl, hp.other⟩

/-- Where the heap has come to the peripherals `expand` returns, whatever
memory there is. -/
theorem Regions.expand_refused (h : Regions L κ s) (hmmio : MmioEntry s (l1ptIndex s.heapEnd)) :
    expand s = .ok (s, 0) := by
  have htype : 2 ≤ entryType (kernelEntry s.pmm.mem (l1ptIndex s.heapEnd)) := (h.mmio _ hmmio).ge
  unfold expand allocateKernelPage
  rw [vm2AllocatePage_section htype]
  rfl

/-- `expand` leaves the peripherals and physical memory alone, and is refused,
with nothing changed, where the heap has come to the peripherals. -/
structure ExpandRespects (s s' : KernelSpace) (r : ℕ) : Prop where
  kept : ∀ i, MmioEntry s i ∨ RamEntry i →
    kernelEntry s'.pmm.mem i = kernelEntry s.pmm.mem i
  refused : MmioEntry s (l1ptIndex s.heapEnd) → r = 0 ∧ s' = s

/-- `vm2_map_peripheral` leaves the heap and physical memory alone, and
changes no entry where the peripherals would come to the heap. -/
structure PeripheralRespects (s : KernelSpace) (n : ℕ) (s' : KernelSpace) : Prop where
  kept : ∀ i, HeapEntry s i ∨ RamEntry i →
    kernelEntry s'.pmm.mem i = kernelEntry s.pmm.mem i
  refused : Meets s n → ∀ i < 0x1000, kernelEntry s'.pmm.mem i = kernelEntry s.pmm.mem i

theorem expand_respects (h : Regions L κ s) {r : ℕ} (hok : expand s = .ok (s', r)) :
    ExpandRespects s s' r := by
  rcases expand_spec h hok with ⟨-, rfl, rfl⟩ | ⟨htype, κ', -, -, -, hother⟩
  · exact ⟨fun _ _ => rfl, fun _ => ⟨rfl, rfl⟩⟩
  · have hindex := l1ptIndex_lt h.heapEnd_lt
    refine ⟨fun i hi => ?_, fun hmeet => ?_⟩
    · have hlt : i < 0x1000 := by
        unfold MmioEntry RamEntry kernelMmioBase kernelHeapBase mebibyte at hi
        omega
      refine (hother i hlt).resolve_right fun ⟨heq, h0⟩ => ?_
      rcases hi with hmmio | hram
      · rw [h.mmio i hmmio] at h0
        cases h0
      · -- the entry for the end of the heap is above physical memory
        have hge := h.heapEnd_ge
        unfold RamEntry at hram
        unfold l1ptIndex kernelHeapBase mebibyte at *
        omega
    · rw [h.mmio _ hmeet] at htype
      exact absurd htype (by decide)

/-- **A request that meets the heap** turns an entry of the heap into a
section.  An entry of the heap is coarse, so that this is a change. -/
theorem mapPeripheral_clobbers (h : Regions L κ s) (hpos : kernelHeapBase < s.heapEnd)
    (hmeets : Meets s n) (physical : ℕ) :
    ∃ i, HeapEntry s i ∧ kernelEntry (mapPeripheral s physical n).1.pmm.mem i ≠
      kernelEntry s.pmm.mem i := by
  have hbase : HeapEntry s 0xC00 := ⟨by decide, lt_of_le_of_lt (by decide) hpos⟩
  -- the heap's first entry is not a peripheral's
  have htop : kernelHeapBase < s.mmioCurrentTop := by
    refine lt_of_le_of_ne h.top_ge fun heq => ?_
    have hmmio := h.mmio 0xC00 ⟨by rw [← heq]; decide, by decide⟩
    rw [h.heap _ hbase] at hmmio
    cases hmmio
  have haligned := h.top_aligned
  have hle := h.top_le
  have hend := h.heapEnd_lt
  obtain ⟨hn, hlt⟩ := hmeets
  -- of the heap's entries below the peripherals the last is hit
  obtain ⟨i, hi, d, hd, hdn, hround⟩ : ∃ i, HeapEntry s i ∧ ∃ d, 1 ≤ d ∧ d ≤ n ∧
      (i + d) % 0x1000 = s.mmioCurrentTop / mebibyte := by
    by_cases hcase : s.heapEnd ≤ s.mmioCurrentTop
    · refine ⟨(s.heapEnd - 1) / mebibyte, ⟨?_, ?_⟩,
        s.mmioCurrentTop / mebibyte - (s.heapEnd - 1) / mebibyte, ?_, ?_, ?_⟩
      all_goals
        unfold kernelHeapBase kernelMmioBase mebibyte at *
        omega
    · refine ⟨s.mmioCurrentTop / mebibyte - 1, ⟨?_, ?_⟩, 1, ?_, ?_, ?_⟩
      all_goals
        unfold kernelHeapBase kernelMmioBase mebibyte at *
        omega
  have hi' : i < 0x1000 := by
    have hi := hi.2
    unfold mebibyte at hi
    omega
  refine ⟨i, hi, fun heq => ?_⟩
  rcases mapPeripheral_entry n physical h.top_lt haligned hi' with ⟨hno, -⟩ | ⟨-, htype⟩
  · exact hno ⟨d, hd, hdn, hround⟩
  · rw [heq, h.heap i hi] at htype
    cases htype

/-- `vm2_map_peripheral` respects the heap exactly when its request does not
meet it, whatever its size. -/
theorem mapPeripheral_respects_iff (h : Regions L κ s) (hpos : kernelHeapBase < s.heapEnd)
    (physical : ℕ) : PeripheralRespects s n (mapPeripheral s physical n).1 ↔ ¬Meets s n := by
  constructor
  · intro hrespects hmeets
    obtain ⟨i, hi, hne⟩ := mapPeripheral_clobbers h hpos hmeets physical
    exact hne (hrespects.kept i (.inl hi))
  · intro hno
    refine ⟨fun i hi => ?_, fun hmeets => absurd hmeets hno⟩
    have hfits : n * mebibyte = 0 ∨ s.heapEnd + n * mebibyte ≤ s.mmioCurrentTop := by
      unfold Meets mebibyte at *
      omega
    have hm : PeripheralMapped s n (mapPeripheral s physical n).1 :=
      mapPeripheral_mapped h.top_le h.top_aligned (by omega)
    have htop := hm.top_eq
    have hge := h.heapEnd_ge
    have hend := h.heapEnd_lt
    unfold HeapEntry RamEntry at hi
    refine hm.kept i ?_ ?_
    · unfold kernelHeapBase mebibyte at *
      omega
    · omega

/-- A request that fits keeps the invariant. -/
theorem Regions.peripheral (h : Regions L κ s) (hno : ¬Meets s n) (physical : ℕ) :
    Regions L κ (KernelSpace.mapPeripheral s physical n).1 := by
  refine h.mapPeripheral hno (mapPeripheral_mapped h.top_le h.top_aligned ?_)
  have := h.heapEnd_ge
  unfold Meets mebibyte at *
  omega

end CourseOs.KernelSpace
