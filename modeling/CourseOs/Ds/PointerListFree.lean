import CourseOs.Ds.PointerList
import Mathlib.Data.Multiset.AddSub

/-!
# Who frees the elements of a pointer list

`vpa_free`, and what `vpa_resize` calls its free function on.  The loop of
`vpa_resize` reads the slots from the old length down to the one after the new
length: one slot too far, and not the first element that is dropped.  So it
frees the elements it drops exactly when the slot after the last element holds
the first one dropped (`frees_dropped_iff`).

`Account` keeps what has been pushed, popped and freed.  An account balances
when every element pushed has been popped or freed once, or is in the list and
freed with it.  `vpa_frees_exact` has it that over a run the account balances
in every state exactly when every call meets `VpaOp.Keeps`.

A call may lose elements without any free function too, where `krealloc`
leaves no block for them: the array may be smaller than what a pop or a resize
asks for, and then `kmalloc` may refuse.  `Keeps` has these cases, and no
promise is made here that there is memory.
-/

namespace CourseOs

/-- The loop of `vpa_free`, from index `i` on: what the free function is
called on, first element first. -/
def vpaFreeLoop (arr : VPArrayList) : ℕ → ℕ → Exec (List ℕ)
  | 0, _ => .ok []
  | left + 1, i => do
      let x ← vpaGet arr i
      let freed ← vpaFreeLoop arr left (i + 1)
      .ok (x :: freed)

/-- `vpa_free`, with or without a free function for the elements. -/
def vpaFree (arr : VPArrayList) (freefunc : Bool) : Exec (List ℕ) :=
  if freefunc then vpaFreeLoop arr arr.length 0 else .ok []

/-- What has become of the elements of a list: those pushed, those popped and
those the free function was called on, in the order of the calls. -/
structure Account where
  pushed : List ℕ
  popped : List ℕ
  freed : List ℕ

namespace VpaOp

/-- The call, with the account: what it pushes, pops and frees is entered
there.  What the call returns is in the account, and is dropped here. -/
def life : VpaOp → VPArrayList × Account → Exec ((VPArrayList × Account) × Unit)
  | push mem data, (list, acc) => do
      let list ← vpaPush mem list data
      .ok ((list, { acc with pushed := acc.pushed ++ [data] }), ())
  | pop mem, (list, acc) => do
      let (list', x) ← (vpaPop mem list).result
      .ok ((list', { acc with
        popped := if list.length = 0 then acc.popped else acc.popped ++ [x] }), ())
  | resize mem newSize freeFunc, (list, acc) => do
      let (list, freed) ← (vpaResize mem list newSize freeFunc).result
      .ok ((list, { acc with freed := acc.freed ++ freed }), ())

/-- The bytes that the call asks `krealloc` for, if it does.  A resize asks
for as many bytes as there are to be elements. -/
def request : VpaOp → VPArrayList → ℕ
  | push _ _, list => vpaGrown list.capacity * sizeofVoidPointer % 2 ^ 32
  | pop _, list => list.capacity / 2 * sizeofVoidPointer % 2 ^ 32
  | resize _ newSize _, _ => newSize

/-- What `kmalloc` returns, if it is called: each call has one request at
most. -/
def answer : VpaOp → Option (Block ℕ)
  | push mem _ | pop mem | resize mem _ _ => mem

/-- A block that `kmalloc` returns is as large as was asked for.  A resize has
a function to free elements with. -/
def Answered (op : VpaOp) (list : VPArrayList) : Prop :=
  (∀ new, op.answer = some new → op.request list ≤ new.size ∧ new.size < 2 ^ 32) ∧
    match op with
    | resize _ _ freeFunc => freeFunc = true
    | _ => True

/-- The call on a list of the elements, where what it returns is of no
interest. -/
def elements (op : VpaOp) (ys : List ℕ) : List ℕ × Unit := ((op.reference ys).1, ())

/-- `krealloc` leaves a block with what was in it: something is asked for, and
the old block has room or there is a new one. -/
def Reallocates (op : VpaOp) (list : VPArrayList) : Prop :=
  op.request list ≠ 0 ∧ (op.request list ≤ list.room ∨ op.answer.isSome)

/-- When no element is lost.  A push has a slot in the block, and the call has
a block for the elements that stay.  A resize that drops elements finds the
first of them in the slot after the last. -/
def Keeps (op : VpaOp) (list : VPArrayList) : Prop :=
  match op with
  | push _ _ => sizeofVoidPointer * (list.length + 1) ≤ list.room ∧
      (list.capacity ≤ list.length + 1 → op.Reallocates list)
  | pop _ => list.length - 1 < list.capacity / 2 → list.length ≤ 1 ∨ op.Reallocates list
  | resize _ newSize _ =>
      if newSize < list.length then
        ∃ b, list.array = some b ∧ sizeofVoidPointer * (list.length + 1) ≤ b.size ∧
          b.cell list.length = b.cell newSize
      else list.length = 0 ∨ op.Reallocates list

end VpaOp

/-- The resize calls its free function on the elements it drops, each once,
and on no other; the others are in memory, where they were, and `vpa_free`
then frees each of them once. -/
def FreesDropped (mem : Option (Block ℕ)) (list : VPArrayList) (newSize : ℕ) : Prop :=
  ∃ list' freed, (vpaResize mem list newSize true).result = .ok (list', freed) ∧
    freed.Perm (list.entries.drop newSize) ∧ list'.Held (list.entries.take newSize) ∧
    vpaFree list' true = .ok (list.entries.take newSize)

/-- Every element pushed has been popped or freed once, or is one of `ys`:
these are in the list, and freed with it. -/
structure Balanced (s : VPArrayList × Account) (ys : List ℕ) : Prop where
  held : s.1.Held ys
  account : s.2.pushed.Perm (s.2.popped ++ s.2.freed ++ ys)
  freed : vpaFree s.1 true = .ok ys

variable {mem : Option (Block ℕ)} {list list' : VPArrayList} {b : Block ℕ} {data newSize i k : ℕ}
  {ys : List ℕ} {op : VpaOp} {acc : Account}

/-! ### `vpa_free`

`vpa_free` goes through the elements from the first on and calls its function
on each.  What it needs is that they are in memory; the capacity does not
matter. -/

theorem vpaGet_eq (h : list.array = some b) (hi : 4 * (i + 1) ≤ b.size) :
    vpaGet list i = .ok (b.cell i) := by
  unfold vpaGet
  rw [VPArrayList.blockAt_eq h hi]
  rfl

theorem vpaFreeLoop_eq (h : list.array = some b) (hk : 4 * (i + k) ≤ b.size) :
    vpaFreeLoop list k i = .ok ((List.range' i k).map b.cell) := by
  induction k generalizing i with
  | zero => rfl
  | succ k ih =>
      unfold vpaFreeLoop
      rw [vpaGet_eq h (by omega), Exec.ok_bind, ih (by omega)]
      rfl

/-- **`vpa_free`** frees each element once, in order, from a list whose
elements are in memory. -/
theorem vpaFree_eq (h : list.Held ys) : vpaFree list true = .ok ys := by
  show vpaFreeLoop list list.length 0 = _
  by_cases hzero : list.length = 0
  · have hys : ys = [] := List.eq_nil_of_length_eq_zero (h.length.symm.trans hzero)
    rw [hzero, hys]
    rfl
  · obtain ⟨b, harray, hsize, -⟩ := h.block hzero
    rw [vpaFreeLoop_eq harray (by omega), ← h.entries, VPArrayList.entries_some harray,
      List.range_eq_range']

theorem balanced_iff : Balanced (list, acc) ys ↔
    list.Held ys ∧ acc.pushed.Perm (acc.popped ++ acc.freed ++ ys) :=
  ⟨fun h => ⟨h.held, h.account⟩, fun h => ⟨h.1, h.2, vpaFree_eq h.1⟩⟩

/-! ### Each call

The account of a call: what it takes into the list, what it hands back, and
what the free function is called on.  Each element should be on one side
exactly once. -/

theorem VPArrayList.blockAt_ok (h : list.blockAt i = .ok b) :
    list.array = some b ∧ 4 * (i + 1) ≤ b.size := by
  unfold VPArrayList.blockAt at h
  cases harray : list.array with
  | none =>
      rw [harray] at h
      cases h
  | some b' =>
      rw [harray] at h
      dsimp only at h
      by_cases hle : sizeofVoidPointer * (i + 1) ≤ b'.size
      · cases (if_pos hle).symm.trans h
        exact ⟨rfl, hle⟩
      · cases (if_neg hle).symm.trans h

/-- Only a push to a slot of the block returns. -/
theorem vpaPush_ok (h : vpaPush mem list data = .ok list') :
    ∃ b, list.array = some b ∧ 4 * (list.length + 1) ≤ b.size := by
  obtain ⟨b, hat, -⟩ := Exec.bind_eq_ok.mp h
  exact ⟨b, VPArrayList.blockAt_ok hat⟩

/-- The list with an element written behind its last. -/
theorem VPArrayList.Held.write (h : list.Held ys) (harray : list.array = some b)
    (hslot : 4 * (list.length + 1) ≤ b.size) (capacity data : ℕ) :
    Held ⟨list.length + 1, capacity, some (b.write list.length data)⟩ (ys ++ [data]) := by
  refine ⟨hslot, ?_, ?_, ?_⟩
  · show b.size < 2 ^ 32
    rw [← room_some harray]
    exact h.room_lt
  · rw [← h.entries, entries_some harray]
    exact b.map_write list.length data
  · rw [List.length_append, ← h.length]
    rfl

/-- When a push keeps the elements: it has a slot in the block for the new
one, and if the list is full there is a block for all of them. -/
theorem push_keeps_iff (h : list.Held ys) (hop : (VpaOp.push mem data).Answered list) :
    (∃ list', vpaPush mem list data = .ok list' ∧ list'.Held (ys ++ [data])) ↔
      (VpaOp.push mem data).Keeps list := by
  by_cases hslot : 4 * (list.length + 1) ≤ list.room
  · obtain ⟨b, harray, hroom⟩ := VPArrayList.array_of_pos_room (show 0 < list.room by omega)
    have hlt := h.room_lt
    rw [hroom] at hslot hlt
    have hpush := vpaPush_eq harray hslot hlt mem data
    have hkeeps : (VpaOp.push mem data).Keeps list ↔
        (list.capacity ≤ list.length + 1 → (VpaOp.push mem data).Reallocates list) :=
      and_iff_right (hroom ▸ hslot)
    rw [hkeeps, hpush]
    by_cases hfull : list.capacity ≤ list.length + 1
    · rw [if_pos hfull, forall_prop_of_true hfull]
      have hiff := (h.write harray hslot list.capacity data).krealloc_iff hop.1
        (vpaGrown list.capacity)
      rw [or_iff_right (Nat.succ_ne_zero _)] at hiff
      unfold VpaOp.Reallocates
      rw [hroom]
      refine Iff.trans ?_ hiff
      constructor
      · rintro ⟨list', ⟨⟩, hheld⟩
        exact hheld
      · exact fun hheld => ⟨_, rfl, hheld⟩
    · rw [if_neg hfull]
      exact iff_of_true ⟨_, rfl, h.write harray hslot _ data⟩ fun hfull' => absurd hfull' hfull
  · refine iff_of_false ?_ fun hkeeps => hslot hkeeps.1
    rintro ⟨list', hpush, -⟩
    obtain ⟨b, harray, hle⟩ := vpaPush_ok hpush
    exact hslot (VPArrayList.room_some harray ▸ hle)

/-- What a pop leaves of a list that is not empty: one element less, and half
of the capacity where less than half is used. -/
def vpaPopped (mem : Option (Block ℕ)) (list : VPArrayList) : VPArrayList :=
  if list.length - 1 < list.capacity / 2 then
    ⟨list.length - 1, list.capacity / 2, krealloc sizeofVoidPointer mem list.array
      (list.capacity / 2 * sizeofVoidPointer % 2 ^ 32)⟩
  else { list with length := list.length - 1 }

theorem VPArrayList.Held.vpaPop (h : list.Held (ys ++ [data])) (mem : Option (Block ℕ)) :
    (vpaPop mem list).result = .ok (vpaPopped mem list, data) := by
  have hlength : list.length = ys.length + 1 := h.length.trans List.length_append
  obtain ⟨b, harray, hsize, -⟩ := h.block (by omega)
  have hat : list.blockAt (list.length - 1) = .ok b := VPArrayList.blockAt_eq harray (by omega)
  have hdata : b.cell (list.length - 1) = data := by
    have hentries := h.entries
    rw [entries_some harray, hlength, List.range_succ, List.map_append] at hentries
    rw [hlength]
    exact (List.cons.inj (List.append_inj_right' hentries rfl)).1
  unfold CourseOs.vpaPop vpaPopped
  rw [if_neg (by omega), Logged.result_bind, Logged.result_access, hat, Exec.ok_bind, hdata,
    Logged.result_ite]
  dsimp only
  by_cases hshrink : list.length - 1 < list.capacity / 2
  · rw [if_pos hshrink, if_pos hshrink]
    rfl
  · rw [if_neg hshrink, if_neg hshrink]
    rfl

theorem vpaPopped_held_iff (h : list.Held (ys ++ [data])) (hop : (VpaOp.pop mem).Answered list) :
    (vpaPopped mem list).Held ys ↔ (VpaOp.pop mem).Keeps list := by
  have hlength : list.length = ys.length + 1 := h.length.trans List.length_append
  have htake := h.take ys.length
  rw [List.take_left, hlength, Nat.min_eq_left (Nat.le_succ _)] at htake
  unfold vpaPopped VpaOp.Keeps
  dsimp only
  by_cases hshrink : list.length - 1 < list.capacity / 2
  · rw [if_pos hshrink, forall_prop_of_true hshrink]
    have hiff := htake.krealloc_iff hop.1 (list.capacity / 2)
    rw [show list.length ≤ 1 ↔ ys.length = 0 by omega, hlength]
    exact hiff
  · rw [if_neg hshrink, hlength]
    exact iff_of_true htake fun hshrink' => absurd hshrink' (hlength ▸ hshrink)

/-- Only a resize that can read the slot after the last element returns, if it
frees any. -/
theorem vpaResize_slot {freed : List ℕ} (hlt : newSize < list.length)
    (h : (vpaResize mem list newSize true).result = .ok (list', freed)) :
    ∃ b, list.array = some b ∧ 4 * (list.length + 1) ≤ b.size := by
  obtain ⟨k, hk⟩ := Nat.exists_eq_add_one_of_ne_zero (Nat.ne_zero_of_lt hlt)
  unfold vpaResize at h
  dsimp only at h
  rw [if_pos hlt, Logged.result_bind] at h
  obtain ⟨freed', hloop, -⟩ := Exec.bind_eq_ok.mp h
  change (vpaResizeLoop { list with capacity := newSize } list.length).result = _ at hloop
  rw [hk] at hloop hlt
  unfold vpaResizeLoop at hloop
  rw [if_pos hlt, Logged.result_bind, Logged.result_access] at hloop
  obtain ⟨b, hat, -⟩ := Exec.bind_eq_ok.mp hloop
  rw [hk]
  exact ⟨b, VPArrayList.blockAt_ok hat⟩

/-- The cells that a resize frees are those it drops with the first one taken
out and the one after the last put in.  As multisets the two agree exactly if
these two cells do. -/
theorem resize_frees_perm (hlt : newSize < i) :
    ((List.range' (newSize + 1) (i - newSize)).map b.cell).reverse.Perm
        (((List.range i).map b.cell).drop newSize) ↔ b.cell i = b.cell newSize := by
  obtain ⟨k, rfl⟩ := Nat.exists_eq_add_of_lt hlt
  have hfreed : List.range' (newSize + 1) (newSize + k + 1 - newSize) =
      List.range' (newSize + 1) k ++ [newSize + k + 1] := by
    rw [Nat.add_assoc, Nat.add_sub_cancel_left, List.range'_concat]
    congr 2
    omega
  have hdropped : (List.range (newSize + k + 1)).drop newSize =
      newSize :: List.range' (newSize + 1) k := by
    rw [List.range_eq_range', List.drop_range', Nat.add_assoc, Nat.add_sub_cancel_left]
    show List.range' (0 + newSize * 1) (k + 1) = _
    rw [Nat.mul_one, Nat.zero_add]
    rfl
  rw [hfreed, ← List.map_drop, hdropped, List.map_append, List.reverse_append]
  show (b.cell (newSize + k + 1) :: ((List.range' (newSize + 1) k).map b.cell).reverse).Perm
    (b.cell newSize :: (List.range' (newSize + 1) k).map b.cell) ↔ _
  rw [← Multiset.coe_eq_coe, ← Multiset.cons_coe, ← Multiset.cons_coe,
    Multiset.coe_reverse, Multiset.cons_inj_left]

/-- When a resize with a `freeFunc` keeps the elements it is to keep and frees
the others.  The loop frees the cells from one behind the first to go to one
behind the last, so that the cell behind the last has to hold what the first
to go does. -/
theorem resize_keeps_iff (h : list.Held ys)
    (hmem : ∀ new, mem = some new → newSize ≤ new.size ∧ new.size < 2 ^ 32) :
    (∃ list' freed, (vpaResize mem list newSize true).result = .ok (list', freed) ∧
      freed.Perm (ys.drop newSize) ∧ list'.Held (ys.take newSize)) ↔
      (VpaOp.resize mem newSize true).Keeps list := by
  have hresized := vpaResized_held_iff h hmem
  unfold VpaOp.Keeps
  dsimp only
  by_cases hlt : newSize < list.length
  · obtain ⟨b, harray, hsize, -⟩ := h.block (by omega)
    have hheld := hresized.mpr (.inr (.inl (by rw [VPArrayList.room_some harray]; omega)))
    have hys : (List.range list.length).map b.cell = ys :=
      (VPArrayList.entries_some harray).symm.trans h.entries
    rw [if_pos hlt]
    constructor
    · rintro ⟨list', freed, hrun, hperm, -⟩
      obtain ⟨b', harray', hslot⟩ := vpaResize_slot hlt hrun
      cases harray.symm.trans harray'
      rw [vpaResize_eq mem fun _ _ => ⟨harray, hslot⟩, if_pos (And.intro rfl hlt)] at hrun
      cases hrun
      rw [← hys] at hperm
      exact ⟨b, harray, hslot, (resize_frees_perm hlt).mp hperm⟩
    · rintro ⟨b', harray', hslot, hcell⟩
      cases harray.symm.trans harray'
      have hrun : (vpaResize mem list newSize true).result = _ :=
        vpaResize_eq mem fun _ _ => ⟨harray, hslot⟩
      rw [if_pos (And.intro rfl hlt)] at hrun
      refine ⟨_, _, hrun, ?_, hheld⟩
      rw [← hys]
      exact (resize_frees_perm hlt).mpr hcell
  · have hrun : (vpaResize mem list newSize true).result =
        .ok (vpaResized mem list newSize, []) := by
      rw [vpaResize_eq (b := ⟨0, fun _ => 0⟩) mem fun _ hlt' => absurd hlt' hlt,
        if_neg fun hlt' => hlt hlt'.2]
    have hdrop : ys.drop newSize = [] := List.drop_eq_nil_of_le (by rw [← h.length]; omega)
    rw [if_neg hlt, hrun, hdrop]
    rw [Nat.min_eq_right (Nat.not_lt.mp hlt)] at hresized
    have hiff : list.length = 0 ∨ (VpaOp.resize mem newSize true).Reallocates list ↔
        list.length = 0 ∨ newSize ≤ list.room ∨ mem.isSome :=
      or_congr_right' fun hpos => and_iff_right (show newSize ≠ 0 by omega)
    refine Iff.trans ?_ (hresized.trans hiff.symm)
    constructor
    · rintro ⟨list', freed, ⟨⟩, -, hheld⟩
      exact hheld
    · exact fun hheld => ⟨_, _, rfl, .rfl, hheld⟩

/-- **A resize** frees the elements it drops exactly when it keeps those it
does not, and the slot after the last element holds the first one dropped. -/
theorem frees_dropped_iff (h : list.Held ys)
    (hmem : ∀ new, mem = some new → newSize ≤ new.size ∧ new.size < 2 ^ 32) :
    FreesDropped mem list newSize ↔ (VpaOp.resize mem newSize true).Keeps list := by
  refine Iff.trans ?_ (resize_keeps_iff h hmem)
  unfold FreesDropped
  rw [h.entries]
  refine exists_congr fun list' => exists_congr fun freed => ?_
  refine and_congr_right' (and_congr_right' ?_)
  exact and_iff_left_of_imp vpaFree_eq

/-! ### Runs

The account is kept over the whole life of a list.  It is compared as a
multiset, because a resize frees from the back and `vpa_free` from the front. -/

theorem account_pop {popped freed ys : List ℕ} {x : ℕ} :
    (popped ++ freed ++ (ys ++ [x])).Perm (popped ++ [x] ++ freed ++ ys) := by
  have hcomm : (freed ++ ys ++ [x]).Perm ([x] ++ (freed ++ ys)) := List.perm_append_comm
  have happend := hcomm.append_left popped
  simp only [List.append_assoc] at happend ⊢
  exact happend

/-- The account of a resize balances when what is freed is what is dropped, in
any order. -/
theorem account_resize_iff {pushed popped freed dropped ys : List ℕ}
    (h : pushed.Perm (popped ++ freed ++ ys)) :
    pushed.Perm (popped ++ (freed ++ dropped) ++ ys.take newSize) ↔
      dropped.Perm (ys.drop newSize) := by
  have hsplit : ys.Perm (ys.drop newSize ++ ys.take newSize) := by
    have hcomm : (ys.take newSize ++ ys.drop newSize).Perm _ := List.perm_append_comm
    rwa [List.take_append_drop] at hcomm
  have h' := h.trans (hsplit.append_left (popped ++ freed))
  rw [← List.append_assoc, List.append_assoc popped freed] at h'
  constructor
  · intro h''
    have hperm := h''.symm.trans h'
    rwa [List.perm_append_right_iff, List.perm_append_left_iff, List.perm_append_left_iff] at hperm
  · intro hdropped
    exact h'.trans (((hdropped.symm.append_left freed).append_left popped).append_right _)

/-- **One call in the life of a list** keeps the account balanced exactly when
it keeps the elements: what was pushed was popped, was freed, or is in the
list. -/
theorem life_step (h : Balanced (list, acc) ys) (hop : op.Answered list) :
    (True ∧ ∃ s', op.life (list, acc) = .ok (s', (op.elements ys).2) ∧
        Balanced s' (op.elements ys).1) ↔ op.Keeps list := by
  rw [true_and]
  have haccount := h.account
  have hheld := h.held
  cases op with
  | push mem data =>
      refine Iff.trans ?_ (push_keeps_iff hheld hop)
      constructor
      · rintro ⟨s', hrun, h'⟩
        obtain ⟨list', hpush, hret⟩ := Exec.bind_eq_ok.mp hrun
        cases hret
        exact ⟨list', hpush, h'.held⟩
      · rintro ⟨list', hpush, hheld'⟩
        refine ⟨(list', { acc with pushed := acc.pushed ++ [data] }), ?_, ?_⟩
        · show vpaPush mem list data >>= _ = _
          rw [hpush]
          rfl
        · refine balanced_iff.mpr ⟨hheld', ?_⟩
          show (acc.pushed ++ [data]).Perm (acc.popped ++ acc.freed ++ (ys ++ [data]))
          rw [← List.append_assoc]
          exact haccount.append_right [data]
  | pop mem =>
      rcases List.eq_nil_or_concat ys with rfl | ⟨ys, x, rfl⟩
      · have hzero : list.length = 0 := hheld.length
        refine iff_of_true ⟨(list, acc), ?_, h⟩ fun _ => .inl (by omega)
        show (vpaPop mem list).result >>= _ = _
        rw [show vpaPop mem list = Logged.ret (list, 0) from if_pos hzero]
        show Except.ok ((list, { acc with popped := if list.length = 0 then _ else _ }), ()) = _
        rw [if_pos hzero]
      · rw [List.concat_eq_append] at hheld haccount ⊢
        have hpos : list.length ≠ 0 := by rw [hheld.length, List.length_append]; exact nofun
        have hrun : (VpaOp.pop mem).life (list, acc) =
            .ok ((vpaPopped mem list, { acc with popped := acc.popped ++ [x] }), ()) := by
          show (vpaPop mem list).result >>= _ = _
          rw [hheld.vpaPop mem, Exec.ok_bind]
          show Except.ok ((_, { acc with popped := if list.length = 0 then _ else _ }), ()) = _
          rw [if_neg hpos]
        have helements : ((VpaOp.pop mem).elements (ys ++ [x])).1 = ys := List.dropLast_concat
        rw [hrun, helements]
        refine Iff.trans ?_ (vpaPopped_held_iff hheld hop)
        constructor
        · rintro ⟨s', ⟨⟩, h'⟩
          exact h'.held
        · refine fun hheld' => ⟨_, rfl, balanced_iff.mpr ⟨hheld', haccount.trans ?_⟩⟩
          show (acc.popped ++ acc.freed ++ (ys ++ [x])).Perm
            (acc.popped ++ [x] ++ acc.freed ++ ys)
          exact account_pop
  | resize mem newSize freeFunc =>
      obtain ⟨hmem, rfl⟩ := hop
      refine Iff.trans ?_ (resize_keeps_iff hheld hmem)
      constructor
      · rintro ⟨s', hrun, h'⟩
        obtain ⟨⟨list', freed⟩, hresize, hret⟩ := Exec.bind_eq_ok.mp hrun
        cases hret
        refine ⟨list', freed, hresize, ?_, h'.held⟩
        exact (account_resize_iff haccount).mp h'.account
      · rintro ⟨list', freed, hresize, hperm, hheld'⟩
        refine ⟨(list', { acc with freed := acc.freed ++ freed }), ?_,
          balanced_iff.mpr ⟨hheld', (account_resize_iff haccount).mpr hperm⟩⟩
        show (vpaResize mem list newSize true).result >>= _ = _
        rw [hresize]
        rfl

/-- **Each element is freed once** by a resize that drops it, and by no other
call but `vpa_free`, exactly when the resize keeps the elements it does not
drop, and the slot after the last element holds the first one dropped.  In any
run from an empty list each element pushed has been popped or freed once, or
is in the list and freed with it, in every state, exactly when each call keeps
the elements. -/
theorem vpa_frees_exact (mem : Option (Block ℕ)) :
    (∀ (list : VPArrayList) (ys : List ℕ) (newSize : ℕ), list.Held ys →
      (∀ new, mem = some new → newSize ≤ new.size ∧ new.size < 2 ^ 32) →
      (FreesDropped mem list newSize ↔ (VpaOp.resize mem newSize true).Keeps list)) ∧
    ∀ (initialCap : ℕ) (ops : List VpaOp), (∀ b, mem = some b → b.size < 2 ^ 32) →
      Calls.Each VpaOp.life (fun op s => op.Answered s.1) ops
        (vpaCreate mem initialCap, ⟨[], [], []⟩) →
      (Calls.Faithful VpaOp.life VpaOp.elements Balanced (fun _ _ => True) ops
          (vpaCreate mem initialCap, ⟨[], [], []⟩) [] ↔
        Calls.Each VpaOp.life (fun op s => op.Keeps s.1) ops
          (vpaCreate mem initialCap, ⟨[], [], []⟩)) := by
  refine ⟨fun list ys newSize h hmem => frees_dropped_iff h hmem,
    fun initialCap ops hmem hops => ?_⟩
  refine Calls.exact (fun op s ys h hop => life_step h hop) ?_ hops
  refine balanced_iff.mpr ⟨VPArrayList.Held.of_length_zero rfl ?_, .rfl⟩
  rw [VPArrayList.room_eq]
  cases mem with
  | none => exact Nat.two_pow_pos 32
  | some b => exact hmem b rfl

/-- The theorem, of a list whose last element stands once more after it, and
of a push and a pop. -/
theorem vpa_frees_exact_two :
    FreesDropped none ⟨2, 4, some ⟨16, fun i => if i = 0 then 7 else 8⟩⟩ 1 ∧
    Calls.Faithful VpaOp.life VpaOp.elements Balanced (fun _ _ => True)
      [.push none 7, .pop none] (vpaCreate (some ⟨16, fun _ => 0⟩) 4, ⟨[], [], []⟩) [] := by
  constructor
  · refine ((vpa_frees_exact none).1 _ [7, 8] 1 ⟨by decide, by decide, rfl, rfl⟩ nofun).mpr ?_
    exact ⟨_, rfl, by decide, rfl⟩
  · refine ((vpa_frees_exact (some ⟨16, fun _ => 0⟩)).2 4 _ ?_ ?_).mpr ?_
    · rintro b ⟨⟩
      exact show 16 < 2 ^ 32 by decide
    · exact ⟨⟨nofun, trivial⟩, fun _ _ _ => ⟨⟨nofun, trivial⟩, fun _ _ _ => trivial⟩⟩
    · refine ⟨⟨show 4 * 1 ≤ 16 by decide, fun hfull => absurd hfull (by decide)⟩, ?_⟩
      rintro s a ⟨⟩
      exact ⟨fun _ => .inl (by decide), fun _ _ _ => trivial⟩

/-- **An element that is not freed.**  Three elements are pushed, and the list
is resized to one: the free function is called on what lies behind the
elements and on the third, and not on the second, which is in the list no
longer. -/
theorem vpaResize_skips :
    ∃ s outs, Calls.run VpaOp.life [.push none 1, .push none 2, .push none 3, .resize none 1 true]
        (vpaCreate (some ⟨16, fun _ => 0⟩) 4, ⟨[], [], []⟩) = .ok (s, outs) ∧
      s.2 = ⟨[1, 2, 3], [], [0, 3]⟩ ∧ vpaFree s.1 true = .ok [1] ∧
      ¬FreesDropped none ⟨3, 4, some ⟨16, fun i => [1, 2, 3].getD i 0⟩⟩ 1 := by
  refine ⟨_, _, rfl, rfl, rfl, ?_⟩
  rintro ⟨list, freed, hrun, hperm, -⟩
  cases hrun
  exact absurd hperm (by decide)

end CourseOs
