import CourseOs.Vm.PmmContents

/-!
# The end of the managed range

`pmm_init` makes a record for every slice that begins below `endAddress`.
Where `endAddress` is no multiple of the size of a slice the last slice goes
on past it, and it is handed out like any other.

Only the loop of `pmm_init` reads `endAddress`, and it compares it with the
beginnings of slices: the manager is the one for `endAddress` rounded up
(`pmmInit_withEnd`).  Where there is no slice left to round up to, the counter
wraps around and the loop does not end (`pmmInitLoop_wraps`).

* `FoundStep` — an action of a client, where only what is found is given back;
* `StaysInside` — every record describes a slice of the range, and whatever is
  handed out in a run lies in the range;
* `staysInside_iff` — that holds for the multiples of the size of a slice, and
  no others.
-/

namespace CourseOs.Pmm

open ByteMemory LinkedList Relation

variable {L : Layout} {s s' s₁ s₂ : PmmState} {κ κ' : ℕ → SliceKind} {hw : HardwareInfo}
  {u u' : InUse} {start endAddress e e' N b : ℕ} {B : ℕ → ℕ} {m : ByteMemory}

/-- The manager with another `endAddress`. -/
def PmmState.withEnd (s : PmmState) (e : ℕ) : PmmState :=
  { s with manager := { s.manager with endAddress := e } }

/-- One action of a client.  An object is given back if the lookup finds the
record of its slice, and then the call may return. -/
inductive FoundStep : InUse → InUse → Prop
  | allocate {u : InUse} {s' : PmmState} {p : ℕ} (kind : ObjectKind)
      (h : Pmm.allocate kind u.state = .ok (s', p)) (hp : p ≠ 0) :
      FoundStep u ⟨s', ⟨kind, p⟩ :: u.outstanding⟩
  | free {u : InUse} {s' : PmmState} (o : Object) (ho : o ∈ u.outstanding)
      (hfound : Describes u.state (sliceinfoFor u.state o.addr) o.addr)
      (h : Pmm.free o.kind u.state o.addr = .ok s') : FoundStep u ⟨s', u.outstanding.erase o⟩
  | write {u : InUse} (m : ByteMemory)
      (h : ∀ x, (∀ o ∈ u.outstanding, x < o.addr ∨ o.addr + o.kind.size ≤ x) →
        m x = u.state.mem x) :
      FoundStep u ⟨u.state.withMem m, u.outstanding⟩

/-- Nothing reaches past `endAddress` after `pmm_init`: no slice that has a
record, and no object in any run. -/
structure StaysInside (start endAddress : ℕ) (s : PmmState) : Prop where
  records : ∀ r, IsRecord s r →
    start ≤ info s.mem r .slice ∧ info s.mem r .slice + sliceSize ≤ endAddress
  objects : ∀ u, ReflTransGen FoundStep ⟨s, []⟩ u → ∀ o ∈ u.outstanding,
    start ≤ o.addr ∧ o.addr + o.kind.size ≤ endAddress

/-! ### Who reads `endAddress`

No function but the loop of `pmm_init` looks at the end of the range, and the
loop only compares it with the beginnings of slices.  So two ends with the
same slices below them make the same manager. -/

@[simp] theorem head_withEnd (s : PmmState) (e : ℕ) (l : PmmList) :
    (s.withEnd e).head l = s.head l := by
  cases l <;> rfl

theorem isRecord_withEnd {r : ℕ} : IsRecord (s.withEnd e) r ↔ IsRecord s r := by
  unfold IsRecord
  simp only [head_withEnd]
  rfl

theorem pushToLl_withEnd (s : PmmState) (e : ℕ) (l : PmmList) (r : ℕ) :
    pushToLl (s.withEnd e) l r = (pushToLl s l r).withEnd e := by
  cases l <;> rfl

theorem indexSlice_withEnd (hw : HardwareInfo) (s : PmmState) (e r i : ℕ) :
    indexSlice hw (s.withEnd e) r i = (indexSlice hw s r i).withEnd e := by
  rw [indexSlice_eq, indexSlice_eq, ← pushToLl_withEnd]
  rfl

theorem pmmNewSliceinfoSlice_withEnd (s : PmmState) (e : ℕ) :
    pmmNewSliceinfoSlice (s.withEnd e) =
      (pmmNewSliceinfoSlice s).map fun r => (r.1.withEnd e, r.2) := by
  unfold pmmNewSliceinfoSlice popFromLl
  rw [head_withEnd]
  dsimp only
  by_cases h0 : s.head .unused = 0
  · rw [if_pos h0, if_pos h0]
    rfl
  · rw [if_neg h0, if_neg h0]
    rfl

/-- The loop sees of `endAddress` which slices begin below it, and nothing
else.  Two ends between the same slices are the same for it. -/
theorem pmmInitLoop_withEnd (hsame : ∀ i, i % sliceSize = 0 → (i < e ↔ i < e')) :
    ∀ (fuel i infoindex currentslice : ℕ) (s : PmmState), i % sliceSize = 0 →
      pmmInitLoop hw fuel i infoindex currentslice (s.withEnd e') =
        (pmmInitLoop hw fuel i infoindex currentslice (s.withEnd e)).map (·.withEnd e') := by
  intro fuel
  induction fuel with
  | zero => exact fun _ _ _ _ _ => rfl
  | succ fuel ih =>
      intro i infoindex currentslice s hi
      have hnext : (i + sliceSize) % 2 ^ 32 % sliceSize = 0 := by
        unfold sliceSize at *
        omega
      have hcond : (i < (s.withEnd e).manager.endAddress ↔ i < (s.withEnd e').manager.endAddress) :=
        hsame i hi
      unfold pmmInitLoop
      dsimp only
      by_cases hlt : i < (s.withEnd e).manager.endAddress
      · rw [if_pos hlt, if_pos (hcond.mp hlt), indexSlice_withEnd, indexSlice_withEnd]
        by_cases hswitch : sliceinfoPerSlice ≤ infoindex + 1
        · rw [if_pos hswitch, if_pos hswitch, pmmNewSliceinfoSlice_withEnd,
            pmmNewSliceinfoSlice_withEnd]
          cases pmmNewSliceinfoSlice (indexSlice hw s (currentslice + sliceInfoSize * infoindex) i)
            with
          | error t => rfl
          | ok r => exact ih _ _ _ r.1 hnext
        · rw [if_neg hswitch, if_neg hswitch]
          exact ih _ _ _ _ hnext
      · rw [if_neg hlt, if_neg fun h => hlt (hcond.mpr h)]
        rfl

/-- `pmm_init` for two ends that the same slices begin below. -/
theorem pmmInit_withEnd (hw : HardwareInfo) (m : ByteMemory) (haligned : start % sliceSize = 0)
    (hsame : ∀ i, i % sliceSize = 0 → (i < e ↔ i < e')) :
    pmmInit hw m start e' = (pmmInit hw m start e).map (·.withEnd e') := by
  refine pmmInitLoop_withEnd hsame _ _ _ _ (pmmFirst m start e) ?_
  unfold sliceSize at *
  omega

/-- Past the last slice of the address space the counter wraps around, so that
the loop never leaves by its condition. -/
theorem pmmInitLoop_wraps (hend : 2 ^ 32 - sliceSize < e) :
    ∀ (fuel i infoindex currentslice : ℕ) (s : PmmState), i % sliceSize = 0 → i < 2 ^ 32 →
      ∀ s', pmmInitLoop hw fuel i infoindex currentslice (s.withEnd e) ≠ .ok s' := by
  intro fuel
  induction fuel with
  | zero => exact fun _ _ _ _ _ _ _ h => nomatch h
  | succ fuel ih =>
      intro i infoindex currentslice s hi hlt s' hok
      have hbelow : i < (s.withEnd e).manager.endAddress := by
        show i < e
        unfold sliceSize at *
        omega
      have hnext : (i + sliceSize) % 2 ^ 32 % sliceSize = 0 := by
        unfold sliceSize at *
        omega
      have hnext_lt : (i + sliceSize) % 2 ^ 32 < 2 ^ 32 := Nat.mod_lt _ (by decide)
      unfold pmmInitLoop at hok
      dsimp only at hok
      rw [if_pos hbelow, indexSlice_withEnd] at hok
      by_cases hswitch : sliceinfoPerSlice ≤ infoindex + 1
      · rw [if_pos hswitch, pmmNewSliceinfoSlice_withEnd] at hok
        generalize pmmNewSliceinfoSlice
          (indexSlice hw s (currentslice + sliceInfoSize * infoindex) i) = r at hok
        cases r with
        | error t => cases hok
        | ok r => exact ih _ _ _ r.1 hnext hnext_lt s' hok
      · rw [if_neg hswitch] at hok
        exact ih _ _ _ _ hnext hnext_lt s' hok

/-! ### What `pmm_init` sets up for any end

The manager for an end anywhere is the one for the end of the last slice that
begins below it.  Nothing is assumed about reserved slices or about what
memory held. -/

/-- The manager `s` that `pmm_init` has made for `N` slices over the memory
`m`, next to the one it makes over zeroes. -/
structure MadeFor (m : ByteMemory) (start N : ℕ) (L : Layout) (κ : ℕ → SliceKind)
    (s s₂ : PmmState) : Prop where
  start_eq : L.start = start
  slices_eq : L.slices = N
  tables : PmmTables L s₂ κ
  twin : Twin L κ m s s₂
  nothing : ∀ o, o ∉ held L κ

theorem held_initKind {R : ℕ → Bool} (L : Layout) (o : Object) : o ∉ held L (initKind R B b) := by
  rintro ⟨k, -, hmem⟩
  unfold initKind at hmem
  split at hmem
  · exact hmem
  · split at hmem <;> exact hmem

/-- `pmm_init` for an end at the end of a slice. -/
theorem pmmInit_made (hS : SliceRange start N) (hN : 0 < N)
    (hok : pmmInit hw m start (start + sliceSize * N) = .ok s) :
    ∃ L κ s₂, MadeFor m start N L κ s s₂ := by
  rcases pmmInit_twin_outcome hw hS hN with ⟨s₂, b, B, -, hinv, hall⟩ | hnone
  · obtain ⟨s₁, hinit, htwin⟩ := hall m
    cases hok.symm.trans hinit
    exact ⟨_, _, s₂, rfl, rfl, hinv.inv, htwin.toTwin, held_initKind _⟩
  · cases hok.symm.trans (hnone m)

/-- The number of slices that begin in the range: the length of the range
divided by the size of a slice, rounded up. -/
def slicesBelow (start endAddress : ℕ) : ℕ := (endAddress - start + sliceSize - 1) / sliceSize

/-- `pmm_init` for any end, if it returns: the manager is the one for the
slices that begin below the end. -/
theorem pmmInit_rounded (haligned : start % sliceSize = 0) (hlt : start < endAddress)
    (hbound : endAddress < 2 ^ 32) (hok : pmmInit hw m start endAddress = .ok s) :
    SliceRange start (slicesBelow start endAddress) ∧
      pmmInit hw m start (start + sliceSize * slicesBelow start endAddress) =
        .ok (s.withEnd (start + sliceSize * slicesBelow start endAddress)) := by
  have hle : endAddress ≤ 2 ^ 32 - sliceSize := by
    by_contra hgt
    refine pmmInitLoop_wraps (e := endAddress) (by omega) (2 ^ 32 / sliceSize) _ 1 start
      (pmmFirst m start endAddress) ?_ (Nat.mod_lt _ (by decide)) s hok
    unfold sliceSize at *
    omega
  have hrange : SliceRange start (slicesBelow start endAddress) := by
    refine ⟨haligned, ?_, ?_⟩ <;> unfold slicesBelow sliceSize at * <;> omega
  refine ⟨hrange, ?_⟩
  rw [pmmInit_withEnd hw m haligned (e := endAddress), hok]
  · rfl
  · intro i hi
    unfold slicesBelow sliceSize at *
    omega

/-! ### Runs

An account of what is outstanding, over any memory.  A client may free only
what the lookup finds, since in memory that was not zero a free may be
refused. -/

/-- A free that returns has found a slice that is not reserved. -/
theorem lookup_of_free_ok {o : Object} (hfree : Pmm.free o.kind s o.addr = .ok s')
    (h0 : o.addr ≠ 0) : pmmGetSliceinfoForSlice s o.addr ≠ .reservedMmioMemory := by
  intro hlook
  obtain ⟨kind, a⟩ := o
  cases kind with
  | l1 =>
      replace hfree : pmmFreeL1Pagetable s a = .ok s' := hfree
      unfold pmmFreeL1Pagetable at hfree
      rw [if_neg h0, hlook] at hfree
      cases hfree
  | slot t =>
      rw [free_slot] at hfree
      unfold pmmFreeSlot at hfree
      rw [hlook] at hfree
      cases hfree

namespace Twin

/-- A client's writes leave the records and the reserved slices alone. -/
theorem written (h : Twin L κ m s₁ s₂) {m₁ : ByteMemory}
    (hrecord : ∀ k < L.slices, ∀ x, L.record k ≤ x → x < L.record k + 16 → m₁ x = s₁.mem x)
    (hreserved : ∀ k < L.slices, κ k = .reserved →
      Agree s₁.mem m₁ (L.addr k) (L.addr k + sliceSize)) :
    Twin L κ m (s₁.withMem m₁) s₂ := by
  have hinfo : ∀ k < L.slices, ∀ f, info m₁ (L.record k) f = info s₁.mem (L.record k) f := by
    intro k hk f
    have hf := f.offset_le
    exact readWord_congr fun x hx hx' => hrecord k hk x (by omega) (by omega)
  refine ⟨⟨h.links.manager, fun k hk => ?_, fun k hk => ?_, fun k hk hP => ?_⟩,
    fun k hk t filled heq => ?_, fun k hk => ?_, fun k hk heq => ?_⟩
  · exact (hinfo k hk _).trans (h.links.next k hk)
  · exact (hinfo k hk _).trans (h.links.slice k hk)
  · exact (hinfo k hk _).trans (h.links.prev k hk hP)
  · refine Eq.trans ?_ (h.mask k hk t filled heq)
    exact congrArg (fun w => BitVec.ofNat 8 (w / 4)) (hinfo k hk .entry)
  · refine Eq.trans ?_ (h.stray k hk)
    exact congrArg (fun w => w / 1024 % 2) (hinfo k hk .entry)
  · exact (h.unwritten k hk heq).trans (hreserved k hk heq)

/-- A record that describes an object is the record of its slice, on either
side. -/
theorem found_of_describes (h : Twin L κ m s₁ s₂) (ht : PmmTables L s₂ κ) {k : ℕ}
    (hk : k < L.slices) {o : Object} (ho : o ∈ objects L k (κ k))
    (hfound : Describes s₁ (sliceinfoFor s₁ o.addr) o.addr) :
    sliceinfoFor s₂ o.addr = L.record k := by
  obtain ⟨hrecord, hle, hlt⟩ := hfound
  rw [h.sliceinfoFor_eq] at hrecord hle hlt
  obtain ⟨i, hi, heq⟩ :=
    ht.record_of_isRecord (Nat.zero_lt_of_lt hk) ((h.isRecord_iff ht).mp hrecord)
  rw [heq, h.links.slice i hi, ht.slice_eq i hi] at hle hlt
  have hb := ht.bounds_of_mem hk ho
  have hpos := o.kind.size_pos
  have hik : i = k := by
    by_contra hne
    have := addr_disjoint (L := L) hne
    omega
  rw [heq, hik]

/-- If a free returns, the bit of the slice was clear. -/
theorem clear_of_free (h : Twin L κ m s₁ s₂) (ht : PmmTables L s₂ κ) {k : ℕ} (hk : k < L.slices)
    {o : Object} (ho : o ∈ objects L k (κ k)) (hfound : sliceinfoFor s₂ o.addr = L.record k)
    (hfree : Pmm.free o.kind s₁ o.addr = .ok s') : infoReserved m (L.record k) = 0 := by
  have hkind : κ k ≠ .bucketInfo ∧ κ k ≠ .reserved :=
    ⟨fun heq => by rw [heq] at ho; exact ho, fun heq => by rw [heq] at ho; exact ho⟩
  have hlook := lookup_of_free_ok hfree (ht.addr_ne_zero hk ho)
  rw [pmmGetSliceinfoForSlice_eq, h.sliceinfoFor_eq, hfound, h.stray k hk, if_neg hkind.2] at hlook
  have hlt := infoReserved_lt m (L.record k)
  by_contra hne
  exact hlook (if_pos (by omega))

end Twin

/-- The account of a run over the memory `m`, whatever is reserved: what is
outstanding is held.  It is kept next to a manager over zeroes, which has the
same kinds. -/
def Tracked (L : Layout) (m : ByteMemory) (u : InUse) : Prop :=
  u.outstanding.Nodup ∧ ∃ κ s₂, PmmTables L s₂ κ ∧ Twin L κ m u.state s₂ ∧
    ∀ o, o ∈ u.outstanding ↔ o ∈ held L κ

namespace Tracked

/-- What is outstanding lies in the range. -/
theorem within (h : Tracked L m u) {o : Object} (ho : o ∈ u.outstanding) :
    L.start ≤ o.addr ∧ o.addr + o.kind.size ≤ L.start + sliceSize * L.slices := by
  obtain ⟨-, κ, s₂, ht, -, hheld⟩ := h
  obtain ⟨k, hk, hmem⟩ := (hheld o).mp ho
  have hb := ht.bounds_of_mem hk hmem
  unfold Layout.addr sliceSize at *
  omega

theorem allocate (h : Tracked L m u) {kind : ObjectKind} {p : ℕ}
    (halloc : Pmm.allocate kind u.state = .ok (s', p)) (hp : p ≠ 0) :
    Tracked L m ⟨s', ⟨kind, p⟩ :: u.outstanding⟩ := by
  obtain ⟨hnodup, κ, s₂, ht, htwin, hheld⟩ := h
  have hav : Available kind s₂ := (htwin.available_iff kind).mp (available_of_ok halloc hp)
  obtain ⟨s₁', s₂', a, κ', h₁, h₂, ht', htwin'⟩ := htwin.allocate ht kind hav
  cases halloc.symm.trans h₁
  obtain ⟨s₂'', p', κ'', h₂', ht'', -, hnew, hinsert, -⟩ := ht.allocate kind hav
  cases h₂.symm.trans h₂'
  refine ⟨List.nodup_cons.mpr ⟨fun hmem => hnew ((hheld _).mp hmem), hnodup⟩, κ'', s₂', ht'',
    htwin'.congr fun k hk => ht'.kind_unique ht'' hk, fun o => ?_⟩
  rw [hinsert, Set.mem_insert_iff, List.mem_cons, hheld]

theorem free (h : Tracked L m u) {o : Object} (ho : o ∈ u.outstanding)
    (hfound : Describes u.state (sliceinfoFor u.state o.addr) o.addr)
    (hfree : Pmm.free o.kind u.state o.addr = .ok s') :
    Tracked L m ⟨s', u.outstanding.erase o⟩ := by
  obtain ⟨hnodup, κ, s₂, ht, htwin, hheld⟩ := h
  have hmem := (hheld o).mp ho
  have hrecord : ∀ k < L.slices, o ∈ objects L k (κ k) → sliceinfoFor s₂ o.addr = L.record k :=
    fun k hk hobj => htwin.found_of_describes ht hk hobj hfound
  obtain ⟨s₁', s₂', κ', h₁, h₂, ht', htwin'⟩ := htwin.free ht hmem fun k hk hobj =>
    ⟨hrecord k hk hobj, htwin.clear_of_free ht hk hobj (hrecord k hk hobj) hfree⟩
  cases hfree.symm.trans h₁
  obtain ⟨s₂'', κ'', h₂', ht'', -, herase, -⟩ := ht.free hmem hrecord
  cases h₂.symm.trans h₂'
  refine ⟨hnodup.erase o, κ'', s₂', ht'', htwin'.congr fun k hk => ht'.kind_unique ht'' hk,
    fun o' => ?_⟩
  rw [herase, Set.mem_sdiff, Set.mem_singleton_iff, hnodup.mem_erase_iff, hheld, and_comm]

theorem write (h : Tracked L m u) {m₁ : ByteMemory}
    (hm : ∀ x, (∀ o ∈ u.outstanding, x < o.addr ∨ o.addr + o.kind.size ≤ x) →
      m₁ x = u.state.mem x) : Tracked L m ⟨u.state.withMem m₁, u.outstanding⟩ := by
  obtain ⟨hnodup, κ, s₂, ht, htwin, hheld⟩ := h
  -- what is written to lies in slices that hold objects
  have hout : ∀ k < L.slices, (∀ o, o ∉ objects L k (κ k)) → ∀ x, L.addr k ≤ x →
      x < L.addr k + sliceSize → m₁ x = u.state.mem x := by
    intro k hk hempty x hx hx'
    refine hm x fun o ho => ?_
    obtain ⟨i, hi, hobj⟩ := (hheld o).mp ho
    have hb := ht.bounds_of_mem hi hobj
    have hik : i ≠ k := by
      rintro rfl
      exact hempty o hobj
    have := addr_disjoint (L := L) hik
    omega
  refine ⟨hnodup, κ, s₂, ht, htwin.written (fun k hk x hx hx' => ?_) fun k hk heq =>
    hout k hk (by rw [heq]; exact fun _ => id), hheld⟩
  have hr := L.record_bounds k
  refine hout _ (ht.layout.bucketSlice_lt k hk) ?_ x (by omega) (by omega)
  rw [ht.bucketSlice_kind k hk]
  exact fun _ => id

/-- One action keeps the account. -/
theorem step (h : Tracked L m u) (hstep : FoundStep u u') : Tracked L m u' := by
  cases hstep with
  | allocate kind halloc hp => exact h.allocate halloc hp
  | free o ho hfound hfree => exact h.free ho hfound hfree
  | write m₁ hm => exact h.write hm

/-- A run keeps the account. -/
theorem run (h : Tracked L m u) (hrun : ReflTransGen FoundStep u u') : Tracked L m u' :=
  Runs.invariant (fun _ _ h hstep => h.step hstep) hrun h

end Tracked

namespace MadeFor

/-- The records describe the slices of the range. -/
theorem slice_of_isRecord (h : MadeFor m start N L κ s s₂) (hN : 0 < N) {r : ℕ}
    (hr : IsRecord s r) : ∃ k < N, info s.mem r .slice = start + sliceSize * k := by
  have hpos : 0 < L.slices := h.slices_eq.symm ▸ hN
  obtain ⟨k, hk, rfl⟩ := h.tables.record_of_isRecord hpos ((h.twin.isRecord_iff h.tables).mp hr)
  rw [h.twin.links.slice k hk, h.tables.slice_eq k hk]
  refine ⟨k, h.slices_eq ▸ hk, ?_⟩
  rw [← h.start_eq]
  rfl

/-- Every slice of the range has a record. -/
theorem isRecord_of_slice (h : MadeFor m start N L κ s s₂) {k : ℕ} (hk : k < N) :
    ∃ r, IsRecord s r ∧ info s.mem r .slice = start + sliceSize * k := by
  have hk' : k < L.slices := h.slices_eq.symm ▸ hk
  refine ⟨L.record k, (h.twin.isRecord_iff h.tables).mpr (h.tables.isRecord hk'), ?_⟩
  rw [h.twin.links.slice k hk', h.tables.slice_eq k hk', ← h.start_eq]
  rfl

theorem tracked (h : MadeFor m start N L κ s s₂) : Tracked L m ⟨s, []⟩ :=
  ⟨List.nodup_nil, κ, s₂, h.tables, h.twin, fun o =>
    iff_of_false List.not_mem_nil (h.nothing o)⟩

/-- With the end at the end of the last slice nothing reaches past it. -/
theorem staysInside (h : MadeFor m start N L κ s s₂) (hN : 0 < N) :
    StaysInside start (start + sliceSize * N) s where
  records r hr := by
    obtain ⟨k, hk, hslice⟩ := h.slice_of_isRecord hN hr
    have hle : sliceSize * (k + 1) ≤ sliceSize * N := Nat.mul_le_mul_left sliceSize hk
    rw [hslice]
    rw [Nat.mul_succ] at hle
    omega
  objects u hrun o ho := by
    have hb := (h.tracked.run hrun).within ho
    rw [h.start_eq, h.slices_eq] at hb
    exact hb

end MadeFor

theorem slicesBelow_pos (hlt : start < endAddress) : 0 < slicesBelow start endAddress := by
  unfold slicesBelow sliceSize
  omega

/-- The last slice ends by the end, so there is no rest. -/
theorem StaysInside.aligned (h : StaysInside start endAddress s) (haligned : start % sliceSize = 0)
    (hlt : start < endAddress) (hbound : endAddress < 2 ^ 32)
    (hok : pmmInit hw m start endAddress = .ok s) : endAddress % sliceSize = 0 := by
  obtain ⟨hrange, hok'⟩ := pmmInit_rounded haligned hlt hbound hok
  have hN := slicesBelow_pos hlt
  obtain ⟨L, κ, s₂, hmade⟩ := pmmInit_made hrange hN hok'
  obtain ⟨r, hr, hslice⟩ := hmade.isRecord_of_slice (Nat.sub_lt hN Nat.one_pos)
  have hlast := (h.records r (isRecord_withEnd.mp hr)).2
  replace hslice : info s.mem r .slice = _ := hslice
  rw [hslice] at hlast
  unfold slicesBelow sliceSize at *
  omega

/-- **The manager never hands out memory past the end** exactly where the end
is a multiple of the size of a slice.  This is for any managed memory and any
reserved region, where `pmm_init` returns. -/
theorem staysInside_iff (hw : HardwareInfo) (m : ByteMemory) (start endAddress : ℕ) (s : PmmState)
    (haligned : start % sliceSize = 0) (hlt : start < endAddress) (hbound : endAddress < 2 ^ 32)
    (hok : pmmInit hw m start endAddress = .ok s) :
    StaysInside start endAddress s ↔ endAddress % sliceSize = 0 := by
  refine ⟨fun h => h.aligned haligned hlt hbound hok, fun hmod => ?_⟩
  obtain ⟨hrange, -⟩ := pmmInit_rounded haligned hlt hbound hok
  have hend : start + sliceSize * slicesBelow start endAddress = endAddress := by
    unfold slicesBelow sliceSize at *
    omega
  obtain ⟨L, κ, s₂, hmade⟩ := pmmInit_made hrange (slicesBelow_pos hlt) (hend.symm ▸ hok)
  rw [← hend]
  exact hmade.staysInside (slicesBelow_pos hlt)

/-- Two slices of the board from 2 MiB on. -/
theorem pmmInit_two_slices :
    ∃ s, pmmInit ⟨0x3f000000, 21 * 0x100000⟩ ⟨fun _ => 0⟩ 0x80200000 0x80204000 = .ok s := by
  have hR : ManagedRange ⟨0x3f000000, 21 * 0x100000⟩ 0x80200000 2 2 :=
    ⟨by decide, by decide, by decide, by decide, by decide⟩
  have hzero : ∀ x, 0x80200000 ≤ x → x < 0x80200000 + sliceSize * 2 →
      (⟨fun _ => 0⟩ : ByteMemory) x = 0 := fun _ _ _ => rfl
  obtain ⟨s, b, B, hok, -⟩ := pmmInit_spec hR (by decide) hzero
  exact ⟨s, hok⟩

theorem staysInside_two_slices :
    ∃ s, pmmInit ⟨0x3f000000, 21 * 0x100000⟩ ⟨fun _ => 0⟩ 0x80200000 0x80204000 = .ok s ∧
      (StaysInside 0x80200000 0x80204000 s ↔ 0x80204000 % sliceSize = 0) := by
  obtain ⟨s, hok⟩ := pmmInit_two_slices
  exact ⟨s, hok, staysInside_iff _ _ _ _ s (by decide) (by decide) (by decide) hok⟩

/-- The end half a slice earlier: the second slice is there all the same. -/
theorem half_slice_past_end :
    ∃ s, pmmInit ⟨0x3f000000, 21 * 0x100000⟩ ⟨fun _ => 0⟩ 0x80200000 0x80203000 = .ok s ∧
      ¬StaysInside 0x80200000 0x80203000 s := by
  have hsame : ∀ i, i % sliceSize = 0 → (i < 0x80204000 ↔ i < 0x80203000) := by
    intro i hi
    unfold sliceSize at hi
    omega
  obtain ⟨s, hok⟩ := pmmInit_two_slices
  have hok' := pmmInit_withEnd ⟨0x3f000000, 21 * 0x100000⟩ ⟨fun _ => 0⟩
    (by decide : 0x80200000 % sliceSize = 0) hsame
  rw [hok] at hok'
  refine ⟨_, hok', fun h => ?_⟩
  exact absurd (h.aligned (by decide) (by decide) (by decide) hok') (by decide)

end CourseOs.Pmm
