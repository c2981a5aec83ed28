import CourseOs.Lib.Lockstep
import CourseOs.Vm.PmmTwinInit

/-!
# What RAM held before

A client allocates, frees, writes bytes into what it holds and looks addresses
up; `serve` is one such request.  `ContentsHidden` says that two memories lead
to managers a client cannot tell apart, with the slices in the reserved region
marked and no others.

`pmm_init` never writes the bit `reserved` of a slice that is not reserved,
and the lookup of a slice whose bucket has its records elsewhere reads a word
that was never written.  `contentsHidden_iff` says that these bits are all
that matters: the two managers cannot be told apart exactly if the bits are
clear, and the misplaced ones the same (`StrayClear`).

The proof compares both managers with one over zeroes (`InStep`), and not with
each other.  Run in step with it, a manager gives the same answer to every
request but a lookup (`Started.serve`), and its lookups are known from the
bits.  For the converse a client that frees what it has been given, or looks
at a reserved slice, tells the bits.
-/

namespace CourseOs.Pmm

open ByteMemory LinkedList Lockstep Relation

variable {L : Layout} {s s₁ s₂ : PmmState} {κ : ℕ → SliceKind} {hw : HardwareInfo}
  {u u' u₁ u₂ : InUse} {start N n r b k a : ℕ} {B : ℕ → ℕ} {m m' : ByteMemory}

/-! ### Requests

What a client can ask of the manager and what it is told.  The answers are all
a client can go by, so two managers that give the same answers to every
request are the same to it. -/

/-- What a client asks of the manager, or does to an object that it has. -/
inductive Request
  | allocate (kind : ObjectKind)
  | free (o : Object)
  | write (o : Object) (i : ℕ) (byte : UInt8)
  | lookup (a : ℕ)

/-- What a client is told.  An object that is null was not granted. -/
inductive Answer
  | object (a : ℕ)
  | done
  /-- The client does not hold the object. -/
  | refused
  | found (lookup : SliceInfoLookup)

/-- One request.  Only what is outstanding is freed or written to; anything
else is refused here, because the source does not check it. -/
def serve (u : InUse) : Request → Exec (InUse × Answer)
  | .allocate kind => do
      let (s, a) ← allocate kind u.state
      .ok (⟨s, if a = 0 then u.outstanding else ⟨kind, a⟩ :: u.outstanding⟩, .object a)
  | .free o =>
      if o ∈ u.outstanding then do
        let s ← free o.kind u.state o.addr
        .ok (⟨s, u.outstanding.erase o⟩, .done)
      else .ok (u, .refused)
  | .write o i byte =>
      if o ∈ u.outstanding ∧ i < o.kind.size then
        .ok (⟨u.state.withMem (writeByte u.state.mem (o.addr + i) byte), u.outstanding⟩, .done)
      else .ok (u, .refused)
  | .lookup a => .ok (u, .found (pmmGetSliceinfoForSlice u.state a))

/-- Only addresses in the managed range are looked up. -/
def Request.InRange (start N : ℕ) : Request → Prop
  | .lookup a => start ≤ a ∧ a < start + sliceSize * N
  | _ => True

/-- A request is answered, by a manager whose slices are these. -/
def Served (start N : ℕ) (u u' : InUse) : Prop :=
  ∃ q answer, Request.InRange start N q ∧ serve u q = .ok (u', answer)

/-- What the records must say after `pmm_init`: which slices are reserved,
links that end, and enough to free whatever is allocated later. -/
structure WellRecorded (hw : HardwareInfo) (start N : ℕ) (s : PmmState) : Prop where
  reserved_iff : ∀ k < N, ∀ x, IsRecord s x → info s.mem x .slice = start + sliceSize * k →
    (infoReserved s.mem x = 1 ↔ addressInReservedRegion hw (start + sliceSize * k) = true)
  links : ∀ l, ∃ xs, Chain (info s.mem · .next) (s.head l) xs
  freed : ∀ u, ReflTransGen (Served start N) ⟨s, []⟩ u →
    ∀ o ∈ u.outstanding, ∃ s', free o.kind u.state o.addr = .ok s'

/-- A client does not learn which of the two memories `pmm_init` was given. -/
def ContentsHidden (hw : HardwareInfo) (start N : ℕ) (m m' : ByteMemory) : Prop :=
  ∃ s s', pmmInit hw m start (start + sliceSize * N) = .ok s ∧
    pmmInit hw m' start (start + sliceSize * N) = .ok s' ∧
    WellRecorded hw start N s ∧ WellRecorded hw start N s' ∧
    ∀ qs : List Request, (∀ q ∈ qs, q.InRange start N) →
      answers serve ⟨s, []⟩ qs = answers serve ⟨s', []⟩ qs

/-- The record that is looked up for slice `k`. -/
def recordFor (start k : ℕ) : ℕ :=
  start + sliceSize * (sliceinfoPerSlice * (k / sliceinfoPerSlice) - 1) +
    sliceInfoSize * (k % sliceinfoPerSlice)

/-- The bits `pmm_init` reads but does not write are clear, or for a bucket
whose records are not where they are looked up, the same. -/
structure StrayClear (hw : HardwareInfo) (start N : ℕ) (m m' : ByteMemory) : Prop where
  left : ∀ k < N, addressInReservedRegion hw (start + sliceSize * k) = false →
    infoReserved m (recordFor start k) = 0
  right : ∀ k < N, addressInReservedRegion hw (start + sliceSize * k) = false →
    infoReserved m' (recordFor start k) = 0
  misplaced : ∀ k < N, sliceinfoPerSlice ≤ k → addressInReservedRegion hw
      (start + sliceSize * (sliceinfoPerSlice * (k / sliceinfoPerSlice) - 1)) = true →
    infoReserved m (recordFor start k) = infoReserved m' (recordFor start k)

/-! ### In step with zeroes

The manager over any memory is compared with one over zeroes, whose behaviour
is known.  The two stay in step while what is looked up has its bit clear, and
this is the only thing that can bring them apart. -/

/-- A run of the manager that was set up over `m`, next to one that was set up
over zeroes. -/
def InStep (hw : HardwareInfo) (L : Layout) (m : ByteMemory) (u u₂ : InUse) : Prop :=
  u.outstanding = u₂.outstanding ∧
    ∃ κ, Accounted hw L u₂ κ ∧ Twin L κ m u.state u₂.state

/-- Without a slice for the object the answer is null, or none at all: the
list of unused slices is tested for an L1 table only. -/
theorem allocate_unavailable {kind : ObjectKind} (h : ¬Available kind s) :
    allocate kind s = match kind with
      | .l1 => .ok (s, 0)
      | .slot _ => .error .nullDereference := by
  have hunused : s.head .unused = 0 := by
    by_contra hne
    exact h (.inl hne)
  cases kind with
  | l1 =>
      show pmmAllocateL1Pagetable s = _
      unfold pmmAllocateL1Pagetable
      rw [if_pos hunused]
  | slot t =>
      have hno : s.head t.partialFree = 0 := by
        by_contra hne
        exact h (.inr ⟨t, rfl, hne⟩)
      rw [allocate_slot]
      unfold pmmAllocateSlot popFromLl
      rw [if_neg (not_not.mpr hno), hunused]
      rfl

/-- The record for an outstanding object is found, and is not marked if its
bit was clear before `pmm_init`. -/
theorem Accounted.found_clear (h : Accounted hw L u κ) (hclear : ∀ k < L.slices,
      addressInReservedRegion hw (L.addr k) = false → infoReserved m (L.record k) = 0)
    (hk : k < L.slices) {o : Object} (ho : o ∈ objects L k (κ k)) :
    sliceinfoFor u.state o.addr = L.record k ∧ infoReserved m (L.record k) = 0 := by
  refine ⟨h.inv.found_of_mem hk ho, hclear k hk ?_⟩
  rw [← Bool.not_eq_true, ← h.reserved_iff k hk]
  exact fun heq => by rw [heq] at ho; exact ho

namespace InStep

theorem allocate (h : InStep hw L m u u₂) (kind : ObjectKind) :
    SameOutcome (InStep hw L m) (serve u (.allocate kind)) (serve u₂ (.allocate kind)) := by
  obtain ⟨hout, κ, hacc, htwin⟩ := h
  rw [serve, serve]
  by_cases hav : Available kind u₂.state
  · obtain ⟨s₁, s₂, a, κ', h₁, h₂, hinv, htwin'⟩ := htwin.allocate hacc.inv.toPmmTables kind hav
    obtain ⟨κ'', hacc', -⟩ := hacc.allocate hav h₂
    have ha : a ≠ 0 := hacc'.addr_ne_zero List.mem_cons_self
    rw [h₁, h₂, Exec.ok_bind, Exec.ok_bind]
    dsimp only
    rw [if_neg ha, if_neg ha]
    exact .ok _ ⟨by rw [hout], κ'', hacc', htwin'.congr fun k hk =>
      hinv.kind_unique hacc'.inv.toPmmTables hk⟩
  · rw [allocate_unavailable hav,
      allocate_unavailable fun h => hav ((htwin.available_iff kind).mp h)]
    cases kind with
    | l1 => exact .ok _ ⟨hout, κ, hacc, htwin⟩
    | slot t => exact .error _

theorem free (h : InStep hw L m u u₂)
    (hclear : ∀ k < L.slices, addressInReservedRegion hw (L.addr k) = false →
      infoReserved m (L.record k) = 0) (o : Object) :
    SameOutcome (InStep hw L m) (serve u (.free o)) (serve u₂ (.free o)) := by
  obtain ⟨hout, κ, hacc, htwin⟩ := h
  rw [serve, serve]
  rw [hout]
  by_cases ho : o ∈ u₂.outstanding
  · obtain ⟨s₁, s₂, κ', h₁, h₂, hinv, htwin'⟩ := htwin.free hacc.inv.toPmmTables
      ((hacc.mem_iff o).mp ho) fun k hk hmem => hacc.found_clear hclear hk hmem
    obtain ⟨κ'', hacc', -⟩ := hacc.free ho h₂
    rw [if_pos ho, if_pos ho, h₁, h₂]
    exact .ok _ ⟨rfl, κ'', hacc', htwin'.congr fun k hk =>
      hinv.kind_unique hacc'.inv.toPmmTables hk⟩
  · rw [if_neg ho, if_neg ho]
    exact .ok _ ⟨hout, κ, hacc, htwin⟩

theorem write (h : InStep hw L m u u₂) (o : Object) (i : ℕ) (byte : UInt8) :
    SameOutcome (InStep hw L m) (serve u (.write o i byte)) (serve u₂ (.write o i byte)) := by
  obtain ⟨hout, κ, hacc, htwin⟩ := h
  rw [serve, serve]
  rw [hout]
  by_cases ho : o ∈ u₂.outstanding ∧ i < o.kind.size
  · obtain ⟨k, hk, hmem⟩ := (hacc.mem_iff o).mp ho.1
    have hb := hacc.inv.bounds_of_mem hk hmem
    have hkind : κ k ≠ .bucketInfo ∧ κ k ≠ .reserved :=
      ⟨fun heq => by rw [heq] at hmem; exact hmem, fun heq => by rw [heq] at hmem; exact hmem⟩
    have hlt := ho.2
    rw [if_pos ho, if_pos ho]
    refine .ok _ ⟨rfl, κ, hacc.write fun x hx => writeByte_apply_of_ne ?_, htwin.write (k := k)
      (fun j hj => hacc.inv.bucketSlice_ne hj hkind.1) hkind.2
      (fun x hx => writeByte_apply_of_ne ?_) fun x hx => writeByte_apply_of_ne ?_⟩
    · have := hx o ho.1
      omega
    · omega
    · omega
  · rw [if_neg ho, if_neg ho]
    exact .ok _ ⟨hout, κ, hacc, htwin⟩

end InStep

/-! ### Records and bits

Which bits those are: the ones in records of slices that are not reserved,
which `pmm_init` reads and never writes, and in reserved slices where a bucket
should have had its records. -/

namespace Twin

/-- The lists are the same. -/
theorem chain (h : Twin L κ m s₁ s₂) (ht : PmmTables L s₂ κ) (l : PmmList) :
    ∃ xs, Chain (info s₁.mem · .next) (s₁.head l) xs ∧
      Chain (info s₂.mem · .next) (s₂.head l) xs := by
  obtain ⟨lists, hl⟩ := ht.lists
  have hchain := (hl.linked.dlist l).chain
  refine ⟨_, ?_, hchain⟩
  rw [h.links.head_eq]
  refine Segment.congr hchain fun x hx => ?_
  obtain ⟨i, hi, rfl⟩ := List.mem_map.mp hx
  exact h.links.next i (hl.linked.lt l i hi)

theorem isRecord_iff (h : Twin L κ m s₁ s₂) (ht : PmmTables L s₂ κ) {x : ℕ} :
    IsRecord s₁ x ↔ IsRecord s₂ x := by
  unfold IsRecord
  rw [h.links.manager]
  refine or_congr Iff.rfl ?_
  constructor
  · rintro ⟨l, xs, hchain, hmem⟩
    obtain ⟨ys, h₁, h₂⟩ := h.chain ht l
    exact ⟨l, ys, h₂, Chain.unique hchain h₁ ▸ hmem⟩
  · rintro ⟨l, xs, hchain, hmem⟩
    obtain ⟨ys, h₁, h₂⟩ := h.chain ht l
    exact ⟨l, ys, h₁, Chain.unique hchain h₂ ▸ hmem⟩

end Twin

/-- A record lies where it is looked up, unless the slice before its bucket is
reserved.  Then the bucket is another slice, and the lookup does not know. -/
theorem InitInv.record_eq (h : InitInv start N (marked hw start) N b B s) (hk : k < N)
    (hbefore : sliceinfoPerSlice ≤ k →
      marked hw start (sliceinfoPerSlice * (k / sliceinfoPerSlice) - 1) = false) :
    Layout.record ⟨start, N, B⟩ k = recordFor start k := by
  have hB : B (k / sliceinfoPerSlice) = sliceinfoPerSlice * (k / sliceinfoPerSlice) - 1 := by
    rcases Nat.lt_or_ge k sliceinfoPerSlice with hlt | hge
    · rw [Nat.div_eq_of_lt hlt, Nat.mul_zero, Nat.zero_sub]
      exact h.inv.bucket_first
    · rw [← h.bucket_before _ (h.div_le hk) (by unfold sliceinfoPerSlice at *; omega)
        (hbefore hge), Nat.add_sub_cancel]
  show start + sliceSize * B (k / sliceinfoPerSlice) + _ = _
  rw [hB]
  rfl

theorem infoReserved_lt (m : ByteMemory) (x : ℕ) : infoReserved m x < 2 :=
  Nat.mod_lt _ (by decide)

namespace InStep

/-- The lookup arrives at the record for the slice. -/
theorem sliceinfoFor_eq (h : InStep hw L m u u₂) (hk : k < L.slices) (ha : L.addr k ≤ a)
    (ha' : a < L.addr k + sliceSize) : sliceinfoFor u.state a = recordFor L.start k := by
  obtain ⟨-, κ, hacc, htwin⟩ := h
  rw [htwin.sliceinfoFor_eq, Pmm.sliceinfoFor_eq hacc.inv.layout hacc.inv.start_eq hk ha ha']
  rfl

/-- What is looked up in a reserved slice is as it was before, since nothing
is written there. -/
theorem flag_misplaced (h : InStep hw L m u u₂) (hk : k < L.slices)
    (hlast : addressInReservedRegion hw
      (L.addr (sliceinfoPerSlice * (k / sliceinfoPerSlice) - 1)) = true) :
    infoReserved u.state.mem (recordFor L.start k) = infoReserved m (recordFor L.start k) := by
  obtain ⟨-, κ, hacc, htwin⟩ := h
  have hlt : sliceinfoPerSlice * (k / sliceinfoPerSlice) - 1 < L.slices := by
    unfold sliceinfoPerSlice at *
    omega
  have hread : info u.state.mem (recordFor L.start k) .entry =
      info m (recordFor L.start k) .entry := by
    refine readWord_congr fun x hx hx' => htwin.unwritten _ hlt
      ((hacc.reserved_iff _ hlt).mpr hlast) x ?_ ?_
    · exact le_trans (Nat.le_add_right _ _) hx
    · have hmod : k % sliceinfoPerSlice < sliceinfoPerSlice := Nat.mod_lt k (by decide)
      replace hx' : x < recordFor L.start k + 0 + 4 := hx'
      unfold recordFor sliceInfoSize at hx'
      unfold Layout.addr sliceSize sliceinfoPerSlice at *
      omega
  unfold infoReserved
  rw [hread]

/-- The bit in the record of a slice. -/
theorem flag_record (h : InStep hw L m u u₂) (hk : k < L.slices) :
    infoReserved u.state.mem (L.record k) =
      if addressInReservedRegion hw (L.addr k) = true then 1 else infoReserved m (L.record k) := by
  obtain ⟨-, κ, hacc, htwin⟩ := h
  rw [htwin.stray k hk]
  simp only [hacc.reserved_iff k hk]

end InStep

/-- What the client of a manager set up over `m` finds: the two sides of every
statement below. -/
structure Started (hw : HardwareInfo) (start N : ℕ) (B : ℕ → ℕ) (m : ByteMemory)
    (s s₂ : PmmState) : Prop where
  init : pmmInit hw m start (start + sliceSize * N) = .ok s
  inStep : InStep hw ⟨start, N, B⟩ m ⟨s, []⟩ ⟨s₂, []⟩
  /-- Where the records of the slices lie that are looked up in the right place. -/
  record_eq : ∀ k < N, (sliceinfoPerSlice ≤ k → addressInReservedRegion hw
      (start + sliceSize * (sliceinfoPerSlice * (k / sliceinfoPerSlice) - 1)) = false) →
    Layout.record ⟨start, N, B⟩ k = recordFor start k

/-- **`pmm_init`** over any memories, in step with zeroes. -/
theorem pmmInit_started (hR : ManagedRange hw start N r) (hN : 0 < N) :
    ∃ s₂ B, ∀ m, ∃ s, Started hw start N B m s s₂ := by
  obtain ⟨s₂, b, B, -, hinv, hall⟩ := pmmInit_twin hR.sliceRange hN hR.supplied
  refine ⟨s₂, B, fun m => ?_⟩
  obtain ⟨s, hinit, htwin⟩ := hall m
  refine ⟨s, hinit, ⟨rfl, _, Accounted.of_init hR hinv, htwin.toTwin⟩, fun k hk hbefore => ?_⟩
  refine hinv.record_eq hk fun h512 => ?_
  have hlt : sliceinfoPerSlice * (k / sliceinfoPerSlice) - 1 < N := by
    unfold sliceinfoPerSlice at *
    omega
  rw [hR.marked_eq hlt, ← hR.reserved _ hlt]
  exact hbefore h512

/-! ### The two directions

A stray bit is seen by a client that frees what it has allocated in the slice,
for the free is refused.  Conversely, with the bits clear every answer is as
over zeroes. -/

/-- The condition on one memory: no record of a slice outside the reserved
regions has the bit set already. -/
def Clear (hw : HardwareInfo) (start N : ℕ) (m : ByteMemory) : Prop :=
  ∀ k < N, addressInReservedRegion hw (start + sliceSize * k) = false →
    infoReserved m (recordFor start k) = 0

namespace Started

/-- A slice that is not reserved lies in a bucket with its records in place. -/
theorem record_eq_of_free (h : Started hw start N B m s s₂) (hR : ManagedRange hw start N r)
    (hk : k < N) (hfree : addressInReservedRegion hw (start + sliceSize * k) = false) :
    Layout.record ⟨start, N, B⟩ k = recordFor start k := by
  refine h.record_eq k hk fun h512 => ?_
  have hlt : sliceinfoPerSlice * (k / sliceinfoPerSlice) - 1 < k := by
    unfold sliceinfoPerSlice at *
    omega
  rw [hR.reserved k hk, decide_eq_false_iff_not] at hfree
  rw [hR.reserved _ (hlt.trans hk), decide_eq_false_iff_not]
  omega

/-- The flags are right only if the bits were clear. -/
theorem clear_of_wellRecorded (h : Started hw start N B m s s₂) (hR : ManagedRange hw start N r)
    (hrec : WellRecorded hw start N s) : Clear hw start N m := by
  intro k hk hfree
  obtain ⟨-, κ, hacc, htwin⟩ := h.inStep
  have ht := hacc.inv.toPmmTables
  have hflag : infoReserved s.mem (Layout.record ⟨start, N, B⟩ k) = _ :=
    h.inStep.flag_record (k := k) hk
  have hiff := hrec.reserved_iff k hk _ ((htwin.isRecord_iff ht).mpr (ht.isRecord hk))
    ((htwin.links.slice k hk).trans (ht.slice_eq k hk))
  rw [show Layout.addr ⟨start, N, B⟩ k = start + sliceSize * k from rfl, hfree,
    if_neg Bool.false_ne_true] at hflag
  rw [hfree, iff_false_right Bool.false_ne_true, hflag, h.record_eq_of_free hR hk hfree] at hiff
  have := infoReserved_lt m (recordFor start k)
  omega

/-- The flags of a manager whose bits were clear are those of the board:
`pmm_init` sets a flag where the slice is reserved, and clears none. -/
theorem reserved_iff (h : Started hw start N B m s s₂) (hR : ManagedRange hw start N r)
    (hclear : Clear hw start N m) (hk : k < N) {x : ℕ} (hx : IsRecord s x)
    (hslice : info s.mem x .slice = start + sliceSize * k) :
    infoReserved s.mem x = 1 ↔ addressInReservedRegion hw (start + sliceSize * k) = true := by
  obtain ⟨-, κ, hacc, htwin⟩ := h.inStep
  have ht := hacc.inv.toPmmTables
  obtain ⟨j, hj, rfl⟩ :=
    ht.record_of_isRecord (Nat.zero_lt_of_lt hk) ((htwin.isRecord_iff ht).mp hx)
  have haddr : Layout.addr ⟨start, N, B⟩ j = Layout.addr ⟨start, N, B⟩ k :=
    (ht.slice_eq j hj).symm.trans ((htwin.links.slice j hj).symm.trans hslice)
  obtain rfl := addr_inj haddr
  have hflag : infoReserved s.mem (Layout.record ⟨start, N, B⟩ j) = _ :=
    h.inStep.flag_record (k := j) hj
  rw [hflag, show Layout.addr ⟨start, N, B⟩ j = start + sliceSize * j from rfl]
  cases hfree : addressInReservedRegion hw (start + sliceSize * j) with
  | true => exact iff_of_true (if_pos rfl) rfl
  | false =>
      rw [if_neg Bool.false_ne_true, h.record_eq_of_free hR hk hfree, hclear j hk hfree]
      exact iff_of_false (by decide) Bool.false_ne_true

/-- One request, on a manager whose bits were clear, and on one in memory of
zeroes: the answers are the same. -/
theorem serve (h : Started hw start N B m s s₂) (hR : ManagedRange hw start N r)
    (hclear : Clear hw start N m) (hu : InStep hw ⟨start, N, B⟩ m u u₂) {q : Request}
    (hq : ∀ a, q ≠ .lookup a) :
    SameOutcome (InStep hw ⟨start, N, B⟩ m) (Pmm.serve u q) (Pmm.serve u₂ q) := by
  have hclear' : ∀ k < N, addressInReservedRegion hw (start + sliceSize * k) = false →
      infoReserved m (Layout.record ⟨start, N, B⟩ k) = 0 := by
    intro k hk hfree
    rw [h.record_eq_of_free hR hk hfree]
    exact hclear k hk hfree
  cases q with
  | allocate kind => exact hu.allocate kind
  | free o => exact hu.free hclear' o
  | write o i byte => exact hu.write o i byte
  | lookup a => exact absurd rfl (hq a)

/-- A run stays in step. -/
theorem run (h : Started hw start N B m s s₂) (hR : ManagedRange hw start N r)
    (hclear : Clear hw start N m) (hrun : ReflTransGen (Served start N) ⟨s, []⟩ u) :
    ∃ u₂, InStep hw ⟨start, N, B⟩ m u u₂ := by
  refine Runs.invariant (I := fun u => ∃ u₂, InStep hw ⟨start, N, B⟩ m u u₂) ?_ hrun
    ⟨_, h.inStep⟩
  rintro u u' ⟨u₂, hu⟩ ⟨q, answer, -, hserve⟩
  by_cases hq : ∃ a, q = .lookup a
  · obtain ⟨a, rfl⟩ := hq
    cases hserve
    exact ⟨u₂, hu⟩
  · have hout := h.serve hR hclear hu fun a heq => hq ⟨a, heq⟩
    rw [hserve] at hout
    generalize Pmm.serve u₂ q = y at hout
    cases hout with
    | ok _ hu' => exact ⟨_, hu'⟩

/-- **What is allocated can be freed** when the bits were clear. -/
theorem wellRecorded (h : Started hw start N B m s s₂) (hR : ManagedRange hw start N r)
    (hclear : Clear hw start N m) : WellRecorded hw start N s where
  reserved_iff k hk x hx hslice := h.reserved_iff hR hclear hk hx hslice
  links l := by
    obtain ⟨-, κ, hacc, htwin⟩ := h.inStep
    obtain ⟨xs, hxs, -⟩ := htwin.chain hacc.inv.toPmmTables l
    exact ⟨xs, hxs⟩
  freed u hrun o ho := by
    obtain ⟨u₂, hout, κ, hacc, htwin⟩ := h.run hR hclear hrun
    have hclear' : ∀ k < N, addressInReservedRegion hw (start + sliceSize * k) = false →
        infoReserved m (Layout.record ⟨start, N, B⟩ k) = 0 := by
      intro k hk hfree
      rw [h.record_eq_of_free hR hk hfree]
      exact hclear k hk hfree
    obtain ⟨s₁, -, -, hfree, -⟩ := htwin.free hacc.inv.toPmmTables
      ((hacc.mem_iff o).mp (hout ▸ ho)) fun k hk hmem => hacc.found_clear hclear' hk hmem
    exact ⟨s₁, hfree⟩

end Started

/-- The slice an address of the range lies in. -/
theorem exists_slice {a : ℕ} (ha : start ≤ a) (ha' : a < start + sliceSize * N) :
    ∃ k < N, start + sliceSize * k ≤ a ∧ a < start + sliceSize * k + sliceSize := by
  refine ⟨(a - start) / sliceSize, ?_⟩
  unfold sliceSize at *
  omega

/-- **Lookups** of two managers, in runs in step with zeroes.  They agree on
all addresses of the range, reserved slices included. -/
theorem lookup_eq {v v₂ : InUse} (h : Started hw start N B m s s₂) (hc : StrayClear hw start N m m')
    (hu : InStep hw ⟨start, N, B⟩ m u u₂) (hv : InStep hw ⟨start, N, B⟩ m' v v₂)
    (ha : start ≤ a) (ha' : a < start + sliceSize * N) :
    pmmGetSliceinfoForSlice u.state a = pmmGetSliceinfoForSlice v.state a := by
  obtain ⟨k, hk, hle, hlt⟩ := exists_slice ha ha'
  rw [pmmGetSliceinfoForSlice_eq, pmmGetSliceinfoForSlice_eq,
    hu.sliceinfoFor_eq (k := k) hk hle hlt, hv.sliceinfoFor_eq (k := k) hk hle hlt]
  suffices hflag : infoReserved u.state.mem (recordFor start k) =
      infoReserved v.state.mem (recordFor start k) by
    show (if infoReserved u.state.mem (recordFor start k) = 1 then _ else _) =
      if infoReserved v.state.mem (recordFor start k) = 1 then _ else _
    rw [hflag]
  by_cases hmis : sliceinfoPerSlice ≤ k ∧ addressInReservedRegion hw
      (start + sliceSize * (sliceinfoPerSlice * (k / sliceinfoPerSlice) - 1)) = true
  · exact (hu.flag_misplaced (k := k) hk hmis.2).trans
      ((hc.misplaced k hk hmis.1 hmis.2).trans (hv.flag_misplaced (k := k) hk hmis.2).symm)
  · have hrec := h.record_eq k hk fun h512 => by
      rw [← Bool.not_eq_true]
      exact fun heq => hmis ⟨h512, heq⟩
    have hu' := hu.flag_record (k := k) hk
    have hv' := hv.flag_record (k := k) hk
    rw [hrec] at hu' hv'
    rw [hu', hv', show Layout.addr ⟨start, N, B⟩ k = start + sliceSize * k from rfl]
    cases hfree : addressInReservedRegion hw (start + sliceSize * k) with
    | true => rfl
    | false => rw [hc.left k hk hfree, hc.right k hk hfree]

/-! ### An empty range

A manager without slices has nothing to hand out and nothing to hide; its one
record describes a slice that is not in the range. -/

/-- What a client without objects is told when nothing can be allocated. -/
def emptyAnswer : Request → Exec Answer
  | .allocate .l1 => .ok (.object 0)
  | .allocate (.slot _) => .error .nullDereference
  | _ => .ok .refused

theorem serve_of_empty {q : Request} (hno : ∀ kind, ¬Available kind u.state)
    (hnil : u.outstanding = []) (hq : q.InRange start 0) :
    serve u q = (emptyAnswer q).map fun answer => (u, answer) := by
  cases q with
  | allocate kind =>
      rw [serve, allocate_unavailable (hno kind)]
      cases kind with
      | l1 => rfl
      | slot t => rfl
  | free o =>
      rw [serve, hnil, if_neg List.not_mem_nil]
      rfl
  | write o i byte =>
      rw [serve, hnil, if_neg fun h => List.not_mem_nil h.1]
      rfl
  | lookup a =>
      obtain ⟨hle, hlt⟩ := hq
      exact absurd hlt (not_lt.mpr hle)

/-- The manager of an empty range has nothing to hide: it has no slice to hand
out, and all it answers is that. -/
theorem contentsHidden_empty (hS : SliceRange start 0) : ContentsHidden hw start 0 m m' := by
  have hno : ∀ m kind, ¬Available kind (pmmFirst m start (start + sliceSize * 0)) := by
    rintro m kind (hne | ⟨t, -, hne⟩)
    · exact hne rfl
    · cases t <;> exact hne rfl
  have hrec : ∀ m, WellRecorded hw start 0 (pmmFirst m start (start + sliceSize * 0)) := by
    intro m
    refine ⟨fun k hk => absurd hk (Nat.not_lt_zero k), fun l => ?_, fun u hrun o ho => ?_⟩
    · obtain ⟨hnext, -⟩ := pmmFirst_record m start (start + sliceSize * 0)
      by_cases hl : l = .allocated ∧ start ≠ 0
      · refine ⟨[start], ?_, hl.2, hnext⟩
        rw [hl.1]
        rfl
      · refine ⟨[], ?_⟩
        cases l with
        | allocated => exact not_not.mp fun h0 => hl ⟨rfl, h0⟩
        | unused | l2ptPartialFree | pagePartialFree => rfl
    · have hsame : u = ⟨pmmFirst m start (start + sliceSize * 0), []⟩ := by
        refine Runs.invariant (I := fun u => u = _) ?_ hrun rfl
        rintro u u' rfl ⟨q, answer, hq, hserve⟩
        rw [serve_of_empty (hno m) rfl hq] at hserve
        cases hans : emptyAnswer q with
        | ok b =>
            rw [hans] at hserve
            exact (Prod.mk.inj (Except.ok.inj hserve)).1.symm
        | error t =>
            rw [hans] at hserve
            cases hserve
      rw [hsame] at ho
      cases ho
  refine ⟨_, _, pmmInit_empty hw hS m, pmmInit_empty hw hS m', hrec m, hrec m',
    fun qs hqs => answers_eq (P := fun q => Request.InRange start 0 q)
      (R := fun u v => (∀ kind, ¬Available kind u.state) ∧ u.outstanding = [] ∧
        (∀ kind, ¬Available kind v.state) ∧ v.outstanding = []) ?_ qs _ _
      ⟨hno m, rfl, hno m', rfl⟩ hqs⟩
  rintro u v q ⟨hu, hunil, hv, hvnil⟩ hq
  rw [serve_of_empty hu hunil hq, serve_of_empty hv hvnil hq]
  cases emptyAnswer q with
  | ok b => exact .ok b ⟨hu, hunil, hv, hvnil⟩
  | error t => exact .error t

/-! ### The result

The bits that are looked up are clear in both memories, and the misplaced ones
the same in both.  That this is enough, and that none of it can be left out,
is put together here. -/

/-- What the client cannot see was clear, or the same.  Where the slice for
the records of a bucket is reserved, a look-up reads what was there before,
and the answer tells the bit. -/
theorem ContentsHidden.strayClear (h : ContentsHidden hw start N m m')
    (hR : ManagedRange hw start N r) : StrayClear hw start N m m' := by
  rcases Nat.eq_zero_or_pos N with rfl | hN
  · exact ⟨fun k hk => absurd hk (Nat.not_lt_zero k), fun k hk => absurd hk (Nat.not_lt_zero k),
      fun k hk => absurd hk (Nat.not_lt_zero k)⟩
  obtain ⟨s₂, B, hall⟩ := pmmInit_started hR hN
  obtain ⟨s, hs⟩ := hall m
  obtain ⟨s', hs'⟩ := hall m'
  obtain ⟨a, a', hinit, hinit', hrec, hrec', hans⟩ := h
  obtain rfl := Except.ok.inj (hinit.symm.trans hs.init)
  obtain rfl := Except.ok.inj (hinit'.symm.trans hs'.init)
  refine ⟨hs.clear_of_wellRecorded hR hrec, hs'.clear_of_wellRecorded hR hrec',
    fun k hk _ hlast => ?_⟩
  have hle : Layout.addr ⟨start, N, B⟩ k ≤ start + sliceSize * k := le_rfl
  have hlt : start + sliceSize * k < Layout.addr ⟨start, N, B⟩ k + sliceSize :=
    Nat.lt_add_of_pos_right (by decide)
  have hrange : start ≤ start + sliceSize * k ∧ start + sliceSize * k < start + sliceSize * N := by
    unfold sliceSize
    omega
  have hlook := hans [.lookup (start + sliceSize * k)] fun q hq => by
    rw [List.mem_singleton.mp hq]
    exact hrange
  rw [answers_singleton, answers_singleton] at hlook
  replace hlook : pmmGetSliceinfoForSlice a (start + sliceSize * k) =
      pmmGetSliceinfoForSlice a' (start + sliceSize * k) :=
    Answer.found.inj (Except.ok.inj (List.cons.inj hlook).1)
  rw [pmmGetSliceinfoForSlice_eq, pmmGetSliceinfoForSlice_eq,
    hs.inStep.sliceinfoFor_eq (k := k) hk hle hlt,
    hs'.inStep.sliceinfoFor_eq (k := k) hk hle hlt] at hlook
  refine (hs.inStep.flag_misplaced (k := k) hk hlast).symm.trans (Eq.trans ?_
    (hs'.inStep.flag_misplaced (k := k) hk hlast))
  -- a bit that is not 1 is 0
  have hbit := infoReserved_lt a.mem (recordFor start k)
  have hbit' := infoReserved_lt a'.mem (recordFor start k)
  dsimp only at hlook ⊢
  by_cases hf : infoReserved a.mem (recordFor start k) = 1
  · by_cases hf' : infoReserved a'.mem (recordFor start k) = 1
    · exact hf.trans hf'.symm
    · rw [if_pos hf, if_neg hf'] at hlook
      cases hlook
  · by_cases hf' : infoReserved a'.mem (recordFor start k) = 1
    · rw [if_neg hf, if_pos hf'] at hlook
      cases hlook
    · omega

theorem StrayClear.contentsHidden (h : StrayClear hw start N m m')
    (hR : ManagedRange hw start N r) : ContentsHidden hw start N m m' := by
  rcases Nat.eq_zero_or_pos N with rfl | hN
  · exact contentsHidden_empty hR.sliceRange
  obtain ⟨s₂, B, hall⟩ := pmmInit_started hR hN
  obtain ⟨s, hs⟩ := hall m
  obtain ⟨s', hs'⟩ := hall m'
  refine ⟨s, s', hs.init, hs'.init, hs.wellRecorded hR h.left, hs'.wellRecorded hR h.right,
    fun qs hqs => answers_eq (P := fun q => Request.InRange start N q)
      (R := fun u v => ∃ w, InStep hw ⟨start, N, B⟩ m u w ∧ InStep hw ⟨start, N, B⟩ m' v w)
      ?_ qs _ _ ⟨_, hs.inStep, hs'.inStep⟩ hqs⟩
  rintro u v q ⟨w, hu, hv⟩ hq
  by_cases hlookup : ∃ a, q = .lookup a
  · obtain ⟨a, rfl⟩ := hlookup
    rw [serve, serve, lookup_eq hs h hu hv hq.1 hq.2]
    exact .ok _ ⟨w, hu, hv⟩
  · have hq' : ∀ a, q ≠ .lookup a := fun a heq => hlookup ⟨a, heq⟩
    exact (hs.serve hR h.left hu hq').join (hs'.serve hR h.right hv hq')

/-- **What RAM held before matters** in the bits that `pmm_init` reads without
having written them, and nowhere else.  This is for any two memories and a
range with its reserved slices at the end. -/
theorem contentsHidden_iff (hR : ManagedRange hw start N r) :
    ContentsHidden hw start N m m' ↔ StrayClear hw start N m m' :=
  ⟨fun h => h.strayClear hR, fun h => h.contentsHidden hR⟩

/-- Four slices from the bottom of the kernel's half, the last two reserved. -/
theorem contentsHidden_iff_four_slices :
    ContentsHidden ⟨0x4000, 0x4000⟩ 0x80000000 4 ⟨fun _ => 0⟩ ⟨fun _ => 0xfb⟩ ↔
      StrayClear ⟨0x4000, 0x4000⟩ 0x80000000 4 ⟨fun _ => 0⟩ ⟨fun _ => 0xfb⟩ :=
  contentsHidden_iff (r := 2) ⟨by decide, by decide, by decide, by decide, by decide⟩

/-- Zeroes, and one bit in the first word of the record of slice 1. -/
theorem stray_bit_seen : ¬ContentsHidden ⟨0x4000, 0x4000⟩ 0x80000000 4 ⟨fun _ => 0⟩
    ⟨fun x => if x = 0x80000011 then 4 else 0⟩ := by
  intro h
  have hclear := (h.strayClear (r := 2)
    ⟨by decide, by decide, by decide, by decide, by decide⟩).right 1 (by decide) (by decide)
  exact absurd hclear (by decide)

end CourseOs.Pmm
