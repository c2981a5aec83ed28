import CourseOs.Ds.ArrayList
import CourseOs.Lib.AccessLog
import CourseOs.Lib.Calls
import Mathlib.Data.List.Range

/-!
# Pointer lists that grow and shrink

`vpa_push`, `vpa_pop` and `vpa_resize` of `ds/vp_array_list.c`, with the
indices of the array they read and write.  The elements are pointers of four
bytes, and a list is right when it holds its elements in an array of `4 *
capacity` bytes (`VPArrayList.Holds`).

Three things can go wrong.  `vpa_push` writes before it looks at the capacity,
so a list has to have a free slot; `vpa_create` and `vpa_resize` may leave
none.  `vpa_resize` asks `krealloc` for as many bytes as there are to be
elements, so the array may be a quarter of what the capacity promises.  And it
hands the elements from the one after the last down to its free function, so
it may read past the array.  `VpaOp.Fits` is what makes a call right all the
same, and `vpa_exact` has it that a run is right in all its states exactly
when all its calls fit.

The accesses are a log beside the result (`Logged`), so that what a call
reaches is a statement about the call and not about what it leaves.
-/

namespace CourseOs

/-- `vpa_push`, with its access: the slot of the new element. -/
def vpaPushLogged (mem : Option (Block ℕ)) (list : VPArrayList) (data : ℕ) :
    Logged Trap VPArrayList := do
  let b ← Logged.access (list.blockAt list.length) list.length
  let array := some { b with cell := fun i => if i = list.length then data else b.cell i }
  let length := (list.length + 1) % 2 ^ 32
  if list.capacity ≤ length then
    let newSize := max ((list.capacity + list.capacity / 4) % 2 ^ 32) ((list.capacity + 2) % 2 ^ 32)
    if newSize ≤ list.capacity then Logged.fail .assertion
    else Logged.ret ⟨length, newSize, krealloc sizeofVoidPointer mem array
      (newSize * sizeofVoidPointer % 2 ^ 32)⟩
  else Logged.ret ⟨length, list.capacity, array⟩

/-- `vpa_pop`, with its access.  The array is halved once less than half of it
is used; an empty list gives the null pointer. -/
def vpaPop (mem : Option (Block ℕ)) (list : VPArrayList) : Logged Trap (VPArrayList × ℕ) :=
  if list.length = 0 then Logged.ret (list, 0)
  else do
    let length := list.length - 1
    let b ← Logged.access (list.blockAt length) length
    if length < list.capacity / 2 then
      let capacity := list.capacity / 2
      Logged.ret (⟨length, capacity, krealloc sizeofVoidPointer mem list.array
        (capacity * sizeofVoidPointer % 2 ^ 32)⟩, b.cell length)
    else Logged.ret ({ list with length }, b.cell length)

/-- The loop of `vpa_resize`, from index `i` down: what the free function is
called on.  It reads the slot of its index, which is one past the element it
is meant for. -/
def vpaResizeLoop (list : VPArrayList) : ℕ → Logged Trap (List ℕ)
  | 0 => Logged.ret []
  | i + 1 =>
      if list.capacity < i + 1 then do
        let b ← Logged.access (list.blockAt (i + 1)) (i + 1)
        let freed ← vpaResizeLoop list i
        Logged.ret (b.cell (i + 1) :: freed)
      else Logged.ret []

/-- The elements that `vpa_resize` frees, if it has a function for that. -/
def vpaResizeFreed (list : VPArrayList) (freeFunc : Bool) : Logged Trap (List ℕ) :=
  if freeFunc then vpaResizeLoop list list.length else Logged.ret []

/-- `vpa_resize`, with or without a free function: the list, and what the
function is called on.  The size given to `krealloc` is the number of
elements. -/
def vpaResize (mem : Option (Block ℕ)) (list : VPArrayList) (newSize : ℕ) (freeFunc : Bool) :
    Logged Trap (VPArrayList × List ℕ) :=
  let list := { list with capacity := newSize }
  if list.capacity < list.length then do
    let freed ← vpaResizeFreed list freeFunc
    Logged.ret (⟨list.capacity, list.capacity,
      krealloc sizeofVoidPointer mem list.array newSize⟩, freed)
  else Logged.ret ({ list with array := krealloc sizeofVoidPointer mem list.array newSize }, [])

/-- A call on the list.  What `kmalloc` returns, if it is called, is part of
it; of the free function it matters only whether there is one. -/
inductive VpaOp
  | push (mem : Option (Block ℕ)) (data : ℕ)
  | pop (mem : Option (Block ℕ))
  | resize (mem : Option (Block ℕ)) (newSize : ℕ) (freeFunc : Bool)

/-- What a call returns: a push the new length, a pop the element, a resize
nothing. -/
inductive VpaOutput
  | size (n : ℕ)
  | data (x : ℕ)
  | done
  deriving DecidableEq

/-- The size of the block the list is in, in bytes; 0 without one. -/
def VPArrayList.room (list : VPArrayList) : ℕ :=
  match list.array with
  | none => 0
  | some b => b.size

namespace VpaOp

/-- The call, with its accesses, each by its index in the array. -/
def run : VpaOp → VPArrayList → Logged Trap (VPArrayList × VpaOutput)
  | push mem data, list => do
      let list ← vpaPushLogged mem list data
      Logged.ret (list, .size list.length)
  | pop mem, list => do
      let (list, x) ← vpaPop mem list
      Logged.ret (list, .data x)
  | resize mem newSize freeFunc, list => do
      let (list, _) ← vpaResize mem list newSize freeFunc
      Logged.ret (list, .done)

/-- The call without its accesses, for statements about what it does. -/
def result (op : VpaOp) (list : VPArrayList) : Exec (VPArrayList × VpaOutput) :=
  (op.run list).result

/-- The call on a list of the elements.  A pop of an empty list returns the
null pointer, and a resize keeps the first elements. -/
def reference : VpaOp → List ℕ → List ℕ × VpaOutput
  | push _ data, ys => (ys ++ [data], .size (ys.length + 1))
  | pop _, ys => (ys.dropLast, .data (ys.getLastD 0))
  | resize _ newSize _, ys => (ys.take newSize, .done)

/-- The accesses are below the capacity that the list has before the call. -/
def Inside (op : VpaOp) (list : VPArrayList) : Prop :=
  Logged.Within (· < list.capacity) (op.run list)

/-- Allocations succeed: `kmalloc` returns a block of the size it is asked
for.  For a resize this is `newSize` bytes, which the source asks for. -/
def Allowed : VpaOp → VPArrayList → Prop
  | push mem _, list => list.Granted mem
  | pop _, _ => True
  | resize mem newSize _, _ => ∃ new, mem = some new ∧ newSize ≤ new.size ∧ new.size < 2 ^ 32

/-- There is a free slot to push to.  A resize has a slot after the elements
it frees, and the block that is left has room for as many pointers as it is
asked for. -/
def Fits : VpaOp → VPArrayList → Prop
  | push _ _, list => list.length < list.capacity
  | pop _, _ => True
  | resize mem newSize freeFunc, list =>
      (freeFunc = true → newSize < list.length → list.length < list.capacity) ∧
        sizeofVoidPointer * newSize ≤
          if newSize ≤ list.room then list.room else (mem.map Block.size).getD 0

end VpaOp

/-- The list holds `ys`, and owns its capacity: the block has four bytes for
each element there may be. -/
structure VPArrayList.Holds (list : VPArrayList) (ys : List ℕ) : Prop where
  length_le : list.length ≤ list.capacity
  owns : sizeofVoidPointer * list.capacity ≤ list.room
  room_lt : list.room < 2 ^ 32
  entries : list.entries = ys
  length : list.length = ys.length

/-- The elements of the list are in memory, whatever the capacity says.  This
is what a list keeps when `vpa_resize` has left its array too small. -/
structure VPArrayList.Held (list : VPArrayList) (ys : List ℕ) : Prop where
  inside : sizeofVoidPointer * list.length ≤ list.room
  room_lt : list.room < 2 ^ 32
  entries : list.entries = ys
  length : list.length = ys.length

variable {mem : Option (Block ℕ)} {list list' : VPArrayList} {b : Block ℕ}
  {data newSize i k capacity bytes : ℕ} {ys : List ℕ} {freeFunc : Bool} {op : VpaOp}

theorem result_vpaPushLogged :
    (vpaPushLogged mem list data).result = vpaPush mem list data := by
  unfold vpaPushLogged vpaPush
  rw [Logged.result_bind, Logged.result_access]
  congr 1
  funext b
  dsimp only
  rw [Logged.result_ite]
  congr 1
  rw [Logged.result_ite]
  rfl

/-! ### Blocks

A list owns its capacity when its block has four bytes for each element there
may be.  `vpa_resize` breaks this, as it asks for as many bytes as there are
to be elements; the weaker `Held` only says that the elements are in memory,
and is what is left then. -/

namespace VPArrayList

theorem room_eq (list : VPArrayList) : list.room = (list.array.map Block.size).getD 0 := by
  unfold VPArrayList.room
  cases list.array <;> rfl

theorem room_some (h : list.array = some b) : list.room = b.size := by
  rw [room_eq, h]
  rfl

theorem room_none (h : list.array = none) : list.room = 0 := by
  rw [room_eq, h]
  rfl

theorem entries_some (h : list.array = some b) :
    list.entries = (List.range list.length).map b.cell := by
  unfold VPArrayList.entries
  rw [h]

theorem entries_zero (h : list.length = 0) : list.entries = [] := by
  unfold VPArrayList.entries
  rw [h]
  cases list.array <;> rfl

theorem blockAt_eq (h : list.array = some b) (hi : 4 * (i + 1) ≤ b.size) :
    list.blockAt i = .ok b := by
  unfold VPArrayList.blockAt
  rw [h]
  exact if_pos hi

/-- Only a list with a block has room. -/
theorem array_of_pos_room (h : 0 < list.room) : ∃ b, list.array = some b ∧ list.room = b.size := by
  cases harray : list.array with
  | none => exact absurd (room_none harray) (Nat.ne_of_gt h)
  | some b => exact ⟨b, rfl, room_some harray⟩

namespace Holds

/-- A list with a capacity has a block. -/
theorem block (h : list.Holds ys) (hpos : 0 < list.capacity) :
    ∃ b, list.array = some b ∧ 4 * list.capacity ≤ b.size ∧ b.size < 2 ^ 32 := by
  have howns : 4 * list.capacity ≤ list.room := h.owns
  have hlt := h.room_lt
  obtain ⟨b, harray, hroom⟩ := array_of_pos_room (show 0 < list.room by omega)
  exact ⟨b, harray, hroom ▸ howns, hroom ▸ hlt⟩

end Holds

end VPArrayList

theorem VPArrayList.Holds.held (h : list.Holds ys) : list.Held ys :=
  ⟨Nat.le_trans (Nat.mul_le_mul_left 4 h.length_le) h.owns, h.room_lt, h.entries, h.length⟩

/-- `krealloc` to a size that is there. -/
theorem krealloc_same {α : Type} {width newsize : ℕ} {mem : Option (Block α)} {b : Block α}
    (hpos : newsize ≠ 0) (hle : newsize ≤ b.size) :
    krealloc width mem (some b) newsize = some b :=
  (if_neg hpos).trans (if_pos hle)

/-- `krealloc` to a size that is not there: a new block with the old cells, or
the null pointer. -/
theorem krealloc_moved {α : Type} {width newsize : ℕ} {mem : Option (Block α)} {b : Block α}
    (hpos : newsize ≠ 0) (hle : ¬newsize ≤ b.size) :
    krealloc width mem (some b) newsize = mem.map fun new =>
      { new with cell := fun i => if width * (i + 1) ≤ b.size then b.cell i else new.cell i } :=
  (if_neg hpos).trans (if_neg hle)

namespace VPArrayList.Held

/-- A list that is not empty is in a block. -/
theorem block (h : list.Held ys) (hpos : list.length ≠ 0) :
    ∃ b, list.array = some b ∧ 4 * list.length ≤ b.size ∧ b.size < 2 ^ 32 := by
  have hinside : 4 * list.length ≤ list.room := h.inside
  obtain ⟨b, harray, hroom⟩ := array_of_pos_room (show 0 < list.room by omega)
  exact ⟨b, harray, hroom ▸ hinside, hroom ▸ h.room_lt⟩

theorem of_length_zero (hzero : list.length = 0) (hlt : list.room < 2 ^ 32) : list.Held [] :=
  ⟨by rw [hzero]; exact Nat.zero_le _, hlt, entries_zero hzero, hzero⟩

/-- The list without its last elements. -/
theorem take (h : list.Held ys) (newSize : ℕ) :
    Held { list with length := min newSize list.length } (ys.take newSize) := by
  refine ⟨Nat.le_trans (Nat.mul_le_mul_left 4 (Nat.min_le_right _ _)) h.inside, h.room_lt, ?_, ?_⟩
  · rw [← h.entries]
    cases harray : list.array with
    | none =>
        have hroom := room_none harray
        have hinside : 4 * list.length ≤ list.room := h.inside
        rw [entries_zero (show min newSize list.length = 0 by omega),
          entries_zero (show list.length = 0 by omega), List.take_nil]
    | some b =>
        rw [entries_some harray, ← List.map_take, List.take_range]
        rfl
  · rw [List.length_take, ← h.length]

end VPArrayList.Held

theorem krealloc_room_lt (hlt : list.room < 2 ^ 32)
    (hmem : ∀ new, mem = some new → bytes ≤ new.size ∧ new.size < 2 ^ 32) :
    VPArrayList.room ⟨k, capacity, krealloc sizeofVoidPointer mem list.array bytes⟩ < 2 ^ 32 := by
  rw [VPArrayList.room_eq]
  show ((krealloc sizeofVoidPointer mem list.array bytes).map Block.size).getD 0 < 2 ^ 32
  have hmem' : (mem.map Block.size).getD 0 < 2 ^ 32 := by
    cases mem with
    | none => exact Nat.two_pow_pos 32
    | some new => exact (hmem new rfl).2
  cases harray : list.array with
  | none => exact hmem'
  | some b =>
      rw [VPArrayList.room_some harray] at hlt
      by_cases hpos : bytes = 0
      · rw [show krealloc sizeofVoidPointer mem (some b) bytes = none from if_pos hpos]
        exact Nat.two_pow_pos 32
      · by_cases hle : bytes ≤ b.size
        · rw [krealloc_same hpos hle]
          exact hlt
        · rw [krealloc_moved hpos hle, Option.map_map]
          exact hmem'

/-- **`krealloc`** keeps the elements of a list that is not empty exactly when
it leaves a block. -/
theorem VPArrayList.Held.krealloc_iff (h : list.Held ys)
    (hmem : ∀ new, mem = some new → bytes ≤ new.size ∧ new.size < 2 ^ 32) (capacity : ℕ) :
    Held ⟨list.length, capacity, krealloc sizeofVoidPointer mem list.array bytes⟩ ys ↔
      list.length = 0 ∨ (bytes ≠ 0 ∧ (bytes ≤ list.room ∨ mem.isSome)) := by
  have hlt : VPArrayList.room ⟨list.length, capacity, _⟩ < 2 ^ 32 := krealloc_room_lt h.room_lt hmem
  by_cases hzero : list.length = 0
  · rw [List.eq_nil_of_length_eq_zero (h.length.symm.trans hzero)]
    exact iff_of_true (of_length_zero hzero hlt) (.inl hzero)
  · obtain ⟨b, harray, hsize, -⟩ := h.block hzero
    rw [or_iff_right hzero, room_some harray]
    have hentries := h.entries
    rw [entries_some harray] at hentries
    rw [harray] at hlt ⊢
    constructor
    · intro h'
      obtain ⟨b', hb', -⟩ := h'.block hzero
      by_cases hpos : bytes = 0
      · cases (if_pos hpos).symm.trans hb'
      · refine ⟨hpos, or_iff_not_imp_left.mpr fun hle => ?_⟩
        obtain ⟨new, hnew, -⟩ :=
          Option.map_eq_some_iff.mp ((krealloc_moved hpos hle).symm.trans hb')
        rw [hnew]
        rfl
    · rintro ⟨hpos, hgrant⟩
      by_cases hle : bytes ≤ b.size
      · rw [krealloc_same hpos hle] at hlt ⊢
        exact ⟨hsize, hlt, hentries, h.length⟩
      · obtain ⟨new, rfl⟩ := Option.isSome_iff_exists.mp (hgrant.resolve_left hle)
        have hnew := (hmem new rfl).1
        rw [krealloc_moved hpos hle] at hlt ⊢
        refine ⟨show 4 * list.length ≤ new.size by omega, hlt, ?_, h.length⟩
        rw [← hentries]
        apply List.map_congr_left
        intro j hj
        have hj : j < list.length := List.mem_range.mp hj
        exact if_pos (show 4 * (j + 1) ≤ b.size by omega)

/-! ### Each call

Whether a call is right can be told from the list before it.  For a push it is
a free slot in the block, and for a resize a block that is large enough
however small the request; the free function of a resize is called on the
slots from the one behind the last element down. -/

/-- A push does what it does to lists exactly where there is a slot behind the
last element; the write to that slot comes before the list grows. -/
theorem push_exact (h : list.Holds ys) (hop : (VpaOp.push mem data).Allowed list) :
    ((VpaOp.push mem data).Inside list ∧ ∃ list',
        (VpaOp.push mem data).result list =
          .ok (list', ((VpaOp.push mem data).reference ys).2) ∧
        list'.Holds ((VpaOp.push mem data).reference ys).1) ↔
      (VpaOp.push mem data).Fits list := by
  constructor
  · rintro ⟨hinside, -⟩
    have hmem : list.length ∈ (vpaPushLogged mem list data).log :=
      Logged.mem_log_bind_left List.mem_cons_self
    exact hinside list.length (Logged.mem_log_bind_left hmem)
  · intro hfits
    obtain ⟨b, harray, hsize, hlt⟩ := h.block (Nat.zero_lt_of_lt hfits)
    have hin : list.In b := ⟨harray, hfits, hsize, hlt⟩
    obtain ⟨list', b', hpush, hin', hentries⟩ := hin.vpaPush hop data
    have hlength : list'.length = ys.length + 1 := by
      rw [h.entries] at hentries
      have := congrArg List.length hentries
      rwa [hin'.entries, List.length_map, List.length_range, List.length_append] at this
    refine ⟨?_, list', ?_, Nat.le_of_lt hin'.length_lt, ?_, ?_, ?_, ?_⟩
    · refine Logged.Within.bind (Logged.Within.bind (Logged.Within.access hfits) ?_) ?_
      · intro b _
        refine Logged.Within.ite (fun _ => ?_) fun _ => Logged.Within.pure
        exact Logged.Within.ite (fun _ => Logged.Within.fail) fun _ => Logged.Within.pure
      · exact fun _ _ => Logged.Within.pure
    · show (vpaPushLogged mem list data).result >>= _ = _
      rw [result_vpaPushLogged, hpush]
      show Except.ok (list', VpaOutput.size list'.length) = _
      rw [hlength]
      rfl
    · rw [VPArrayList.room_some hin'.array]
      exact hin'.capacity_le
    · rw [VPArrayList.room_some hin'.array]
      exact hin'.size_lt
    · rw [hentries, h.entries]
      rfl
    · show list'.length = (ys ++ [data]).length
      rw [hlength, List.length_append]
      rfl

/-- A pop from a list that is not empty: the block stays where it is, also
when `krealloc` is asked for half of it. -/
theorem vpaPop_eq (h : list.Holds ys) (hpos : list.length ≠ 0) (mem : Option (Block ℕ)) :
    ∃ b capacity, list.array = some b ∧ 4 * list.length ≤ b.size ∧
      (vpaPop mem list).result =
        .ok (⟨list.length - 1, capacity, some b⟩, b.cell (list.length - 1)) ∧
      list.length - 1 ≤ capacity ∧ 4 * capacity ≤ b.size ∧ b.size < 2 ^ 32 := by
  have hle := h.length_le
  obtain ⟨b, harray, hsize, hlt⟩ := h.block (by omega)
  have hat : list.blockAt (list.length - 1) = .ok b := VPArrayList.blockAt_eq harray (by omega)
  have hpop : (vpaPop mem list).result =
      (if list.length - 1 < list.capacity / 2 then
        Logged.ret (⟨list.length - 1, list.capacity / 2, krealloc sizeofVoidPointer mem list.array
          (list.capacity / 2 * sizeofVoidPointer % 2 ^ 32)⟩, b.cell (list.length - 1))
      else Logged.ret ({ list with length := list.length - 1 }, b.cell (list.length - 1)) :
        Logged Trap _).result := by
    unfold vpaPop
    rw [if_neg hpos, Logged.result_bind, Logged.result_access, hat]
    rfl
  rw [Logged.result_ite] at hpop
  by_cases hshrink : list.length - 1 < list.capacity / 2
  · have hbytes : list.capacity / 2 * sizeofVoidPointer % 2 ^ 32 = 4 * (list.capacity / 2) := by
      rw [Nat.mul_comm]
      exact Nat.mod_eq_of_lt (show 4 * (list.capacity / 2) < 2 ^ 32 by omega)
    rw [if_pos hshrink, hbytes, harray, krealloc_same (by omega) (by omega)] at hpop
    exact ⟨b, _, harray, by omega, hpop, Nat.le_of_lt hshrink, by omega, hlt⟩
  · rw [if_neg hshrink] at hpop
    refine ⟨b, list.capacity, harray, by omega, hpop.trans ?_, by omega, hsize, hlt⟩
    rw [harray]
    rfl

/-- A pop does what it does to lists, always: it reads the last element, and
the block that is cut in half still holds the others. -/
theorem pop_faithful (h : list.Holds ys) :
    (VpaOp.pop mem).Inside list ∧ ∃ list',
      (VpaOp.pop mem).result list = .ok (list', ((VpaOp.pop mem).reference ys).2) ∧
      list'.Holds ((VpaOp.pop mem).reference ys).1 := by
  by_cases hzero : list.length = 0
  · have hys : ys = [] := List.eq_nil_of_length_eq_zero (h.length ▸ hzero)
    subst hys
    have hpop : vpaPop mem list = Logged.ret (list, 0) := if_pos hzero
    unfold VpaOp.Inside VpaOp.result VpaOp.run
    dsimp only
    rw [hpop]
    exact ⟨nofun, list, rfl, h⟩
  · obtain ⟨b, capacity, harray, hsize, hpop, hle, howns, hlt⟩ := vpaPop_eq h hzero mem
    obtain ⟨k, hk⟩ := Nat.exists_eq_add_one_of_ne_zero hzero
    have hys : ys = (List.range k).map b.cell ++ [b.cell k] := by
      rw [← h.entries, VPArrayList.entries_some harray, hk, List.range_succ, List.map_append]
      rfl
    refine ⟨?_, ⟨list.length - 1, capacity, some b⟩, ?_, hle, howns, hlt, ?_, ?_⟩
    · have hindex : list.length - 1 < list.capacity := by have := h.length_le; omega
      refine Logged.Within.bind ?_ fun _ _ => Logged.Within.pure
      refine Logged.Within.ite (fun _ => Logged.Within.pure) fun _ => ?_
      refine Logged.Within.bind (Logged.Within.access hindex) fun b _ => ?_
      exact Logged.Within.ite (fun _ => Logged.Within.pure) fun _ => Logged.Within.pure
    · show (vpaPop mem list).result >>= _ = Except.ok (_, VpaOutput.data (ys.getLastD 0))
      rw [hpop, hys, List.getLastD_concat, hk]
      rfl
    · show _ = ys.dropLast
      rw [hys, List.dropLast_concat, hk]
      rfl
    · show list.length - 1 = ys.dropLast.length
      rw [List.length_dropLast, h.length]

/-- The loop reads the elements from index `i` down to the one after the
capacity. -/
theorem vpaResizeLoop_eq (h : list.array = some b) (hi : 4 * (i + 1) ≤ b.size) :
    (vpaResizeLoop list i).result =
      .ok ((List.range' (list.capacity + 1) (i - list.capacity)).map b.cell).reverse := by
  induction i with
  | zero =>
      rw [Nat.zero_sub]
      rfl
  | succ i ih =>
      unfold vpaResizeLoop
      by_cases hlt : list.capacity < i + 1
      · have hsub : i + 1 - list.capacity = i - list.capacity + 1 := Nat.succ_sub (by omega)
        rw [if_pos hlt, Logged.result_bind, Logged.result_access,
          VPArrayList.blockAt_eq h hi, Exec.ok_bind, Logged.result_bind, ih (by omega), hsub,
          List.range'_concat, List.map_append, List.reverse_append]
        show Except.ok (b.cell (i + 1) :: _) = Except.ok ([b.cell _] ++ _)
        rw [show list.capacity + 1 + 1 * (i - list.capacity) = i + 1 by omega]
        rfl
      · rw [if_neg hlt, show i + 1 - list.capacity = 0 by omega]
        rfl

theorem vpaResizeLoop_within : Logged.Within (· ≤ i) (vpaResizeLoop list i) := by
  induction i with
  | zero => exact Logged.Within.pure
  | succ i ih =>
      refine Logged.Within.ite (fun _ => ?_) fun _ => Logged.Within.pure
      refine Logged.Within.bind (Logged.Within.access (Nat.le_refl _)) fun b _ => ?_
      exact Logged.Within.bind (fun c hc => Nat.le_succ_of_le (ih c hc)) fun _ _ =>
        Logged.Within.pure

/-- It starts with the element after the last. -/
theorem mem_log_vpaResizeLoop (h : list.capacity < i) : i ∈ (vpaResizeLoop list i).log := by
  obtain ⟨i, rfl⟩ := Nat.exists_eq_add_one_of_ne_zero (Nat.ne_zero_of_lt h)
  unfold vpaResizeLoop
  rw [if_pos h]
  exact Logged.mem_log_bind_left List.mem_cons_self

/-- The list that a resize leaves, when it returns.  The elements kept are the
first ones, and the block is one of `newSize` bytes at least, if there is one. -/
def vpaResized (mem : Option (Block ℕ)) (list : VPArrayList) (newSize : ℕ) : VPArrayList :=
  ⟨min newSize list.length, newSize, krealloc sizeofVoidPointer mem list.array newSize⟩

theorem vpaResize_ok {freed : List ℕ}
    (hrun : (vpaResize mem list newSize freeFunc).result = .ok (list', freed)) :
    list' = vpaResized mem list newSize := by
  unfold vpaResize at hrun
  dsimp only at hrun
  by_cases hlt : newSize < list.length
  · rw [if_pos hlt] at hrun
    obtain ⟨freed', -, hret⟩ := Exec.bind_eq_ok.mp hrun
    cases hret
    unfold vpaResized
    rw [Nat.min_eq_left (Nat.le_of_lt hlt)]
  · rw [if_neg hlt] at hrun
    cases hrun
    unfold vpaResized
    rw [Nat.min_eq_right (Nat.not_lt.mp hlt)]

/-- **A resize** returns when the slot after the last element can be read, or
does not have to be; the free function is called on the elements from that
slot down to the one after the new end. -/
theorem vpaResize_eq (mem : Option (Block ℕ))
    (hslot : freeFunc = true → newSize < list.length →
      list.array = some b ∧ 4 * (list.length + 1) ≤ b.size) :
    (vpaResize mem list newSize freeFunc).result =
      .ok (vpaResized mem list newSize,
        if freeFunc = true ∧ newSize < list.length then
          ((List.range' (newSize + 1) (list.length - newSize)).map b.cell).reverse else []) := by
  unfold vpaResize vpaResized
  dsimp only
  by_cases hlt : newSize < list.length
  · rw [if_pos hlt, Nat.min_eq_left (Nat.le_of_lt hlt)]
    cases freeFunc with
    | false => rfl
    | true =>
        obtain ⟨harray, hsize⟩ := hslot rfl hlt
        have hloop : (vpaResizeFreed { list with capacity := newSize } true).result = _ :=
          vpaResizeLoop_eq harray hsize
        rw [if_pos (And.intro rfl hlt), Logged.result_bind, hloop]
        rfl
  · rw [if_neg hlt, if_neg (fun h => hlt h.2), Nat.min_eq_right (Nat.not_lt.mp hlt)]
    rfl

/-- The elements up to the new end stay where they are exactly when there is a
block for them. -/
theorem vpaResized_held_iff (h : list.Held ys)
    (hmem : ∀ new, mem = some new → newSize ≤ new.size ∧ new.size < 2 ^ 32) :
    (vpaResized mem list newSize).Held (ys.take newSize) ↔
      min newSize list.length = 0 ∨ newSize ≤ list.room ∨ mem.isSome := by
  refine ((h.take newSize).krealloc_iff hmem newSize).trans (or_congr_right' fun hpos => ?_)
  exact and_iff_right fun hzero => hpos (by rw [hzero]; exact Nat.zero_min _)

/-- Whether the block that is left owns the new capacity. -/
theorem vpaResized_owns :
    4 * newSize ≤ (vpaResized mem list newSize).room ↔
      4 * newSize ≤ if newSize ≤ list.room then list.room else (mem.map Block.size).getD 0 := by
  have hroom : (vpaResized mem list newSize).room =
      ((krealloc sizeofVoidPointer mem list.array newSize).map Block.size).getD 0 :=
    VPArrayList.room_eq _
  rw [hroom]
  by_cases hzero : newSize = 0
  · rw [hzero]
    exact iff_of_true (Nat.zero_le _) (Nat.zero_le _)
  · cases harray : list.array with
    | none =>
        rw [VPArrayList.room_none harray, if_neg (by omega)]
        rfl
    | some b =>
        rw [VPArrayList.room_some harray]
        by_cases hle : newSize ≤ b.size
        · rw [krealloc_same hzero hle, if_pos hle]
          rfl
        · rw [krealloc_moved hzero hle, if_neg hle, Option.map_map]
          rfl

/-- A resize does what it does to lists exactly where its loop stays within
the capacity and the new block holds the elements.  The loop starts one behind
the last element, and the size asked for is in elements and not in bytes. -/
theorem resize_exact (h : list.Holds ys) (hop : (VpaOp.resize mem newSize freeFunc).Allowed list) :
    ((VpaOp.resize mem newSize freeFunc).Inside list ∧ ∃ list',
        (VpaOp.resize mem newSize freeFunc).result list =
          .ok (list', ((VpaOp.resize mem newSize freeFunc).reference ys).2) ∧
        list'.Holds ((VpaOp.resize mem newSize freeFunc).reference ys).1) ↔
      (VpaOp.resize mem newSize freeFunc).Fits list := by
  obtain ⟨new, rfl, hnew, hnewlt⟩ := hop
  constructor
  · rintro ⟨hinside, list', hrun, hholds⟩
    refine ⟨fun hfree hlt => ?_, ?_⟩
    · -- the loop starts past the last element
      subst hfree
      have hmem : list.length ∈ (vpaResize (some new) list newSize true).log := by
        unfold vpaResize
        dsimp only
        rw [if_pos hlt]
        have hloop :
            list.length ∈ (vpaResizeLoop { list with capacity := newSize } list.length).log :=
          mem_log_vpaResizeLoop hlt
        exact Logged.mem_log_bind_left hloop
      exact hinside list.length (Logged.mem_log_bind_left hmem)
    · obtain ⟨⟨list'', freed⟩, hresize, hret⟩ := Exec.bind_eq_ok.mp hrun
      cases hret
      rw [vpaResize_ok hresize] at hholds
      exact vpaResized_owns.mp hholds.owns
  · rintro ⟨hslot, howns⟩
    have hheld : (vpaResized (some new) list newSize).Held (ys.take newSize) :=
      (vpaResized_held_iff h.held fun _ hn => Option.some.inj hn ▸ ⟨hnew, hnewlt⟩).mpr
        (.inr (.inr rfl))
    have hlog : Logged.Within (· < list.capacity)
        (vpaResize (some new) list newSize freeFunc) := by
      refine Logged.Within.ite (fun hlt => ?_) fun _ => Logged.Within.pure
      refine Logged.Within.bind ?_ fun _ _ => Logged.Within.pure
      refine Logged.Within.ite (fun hfree => ?_) fun _ => Logged.Within.pure
      exact fun c hc => Nat.lt_of_le_of_lt (vpaResizeLoop_within c hc) (hslot hfree hlt)
    obtain ⟨freed, hrun⟩ : ∃ freed, (vpaResize (some new) list newSize freeFunc).result =
        .ok (vpaResized (some new) list newSize, freed) := by
      by_cases hfree : freeFunc = true ∧ newSize < list.length
      · have hcap := hslot hfree.1 hfree.2
        obtain ⟨b, harray, hsize, -⟩ := h.block (Nat.zero_lt_of_lt hcap)
        exact ⟨_, vpaResize_eq _ fun _ _ => ⟨harray, by omega⟩⟩
      · exact ⟨_, vpaResize_eq (b := new) _ fun hf hlt => absurd ⟨hf, hlt⟩ hfree⟩
    refine ⟨Logged.Within.bind hlog fun _ _ => Logged.Within.pure,
      vpaResized (some new) list newSize, ?_,
      Nat.min_le_left _ _, vpaResized_owns.mpr howns, hheld.room_lt, hheld.entries, hheld.length⟩
    show (vpaResize (some new) list newSize freeFunc).result >>= _ = _
    rw [hrun]
    rfl

/-! ### Runs

From a list that holds its elements each call is right exactly if it fits, so
the states of a run are right as long as its calls fit, and stop being so at
the first that does not. -/

/-- A call is right exactly when it fits: it stays below the capacity, returns
what it returns on the list of the elements, and leaves a list that holds
them. -/
theorem vpa_step (h : list.Holds ys) (hop : op.Allowed list) :
    (op.Inside list ∧ ∃ list', op.result list = .ok (list', (op.reference ys).2) ∧
        list'.Holds (op.reference ys).1) ↔ op.Fits list := by
  cases op with
  | push mem data => exact push_exact h hop
  | pop mem => exact iff_of_true (pop_faithful h) trivial
  | resize mem newSize freeFunc => exact resize_exact h hop

/-- **A list stays within its array**, in any run from a list of any initial
capacity, with the elements of the pure list in every state and all accesses
below the capacity, exactly when each call fits: no push finds the list full,
and each resize leaves a block with room for as many pointers as it is asked
for, and has a slot after the elements that it frees. -/
theorem vpa_exact {initialCap : ℕ} (hb : sizeofVoidPointer * initialCap ≤ b.size)
    (hlt : b.size < 2 ^ 32) (ops : List VpaOp)
    (hops : Calls.Each VpaOp.result VpaOp.Allowed ops (vpaCreate (some b) initialCap)) :
    Calls.Faithful VpaOp.result VpaOp.reference VPArrayList.Holds VpaOp.Inside ops
        (vpaCreate (some b) initialCap) [] ↔
      Calls.Each VpaOp.result VpaOp.Fits ops (vpaCreate (some b) initialCap) := by
  refine Calls.exact (fun op list ys h hop => vpa_step h hop) ?_ hops
  exact ⟨Nat.zero_le _, hb, hlt, rfl, rfl⟩

/-- The run theorem, of a push, a pop and a resize of a list with room for
four.  All three fit, so that it is right in all states. -/
theorem vpa_exact_four :
    Calls.Faithful VpaOp.result VpaOp.reference VPArrayList.Holds VpaOp.Inside
      [.push none 7, .pop none, .resize (some ⟨16, fun _ => 0⟩) 2 false]
      (vpaCreate (some ⟨16, fun _ => 0⟩) 4) [] := by
  refine (vpa_exact (b := ⟨16, fun _ => 0⟩) (by decide) (by decide) _ ?_).mpr ?_
  · refine ⟨fun hfull => absurd hfull (by decide), ?_⟩
    rintro list₁ out ⟨⟩
    refine ⟨trivial, ?_⟩
    rintro list₂ out ⟨⟩
    exact ⟨⟨_, rfl, by decide, by decide⟩, fun _ _ _ => trivial⟩
  · refine ⟨show 0 < 4 by decide, ?_⟩
    rintro list₁ out ⟨⟩
    refine ⟨trivial, ?_⟩
    rintro list₂ out ⟨⟩
    exact ⟨⟨nofun, by decide⟩, fun _ _ _ => trivial⟩

/-- **An overrun.**  A list with room for four is resized to eight, and keeps
its block of sixteen bytes: the fifth push is past its end. -/
theorem vpa_overrun :
    Calls.run VpaOp.result [.resize (some ⟨16, fun _ => 0⟩) 8 false, .push none 1, .push none 2,
        .push none 3, .push none 4, .push none 5] (vpaCreate (some ⟨16, fun _ => 0⟩) 4) =
      .error .outOfBounds ∧
    ¬Calls.Faithful VpaOp.result VpaOp.reference VPArrayList.Holds VpaOp.Inside
      [.resize (some ⟨16, fun _ => 0⟩) 8 false] (vpaCreate (some ⟨16, fun _ => 0⟩) 4) [] := by
  refine ⟨rfl, ?_⟩
  rintro ⟨-, -, list', hrun, h⟩
  cases hrun
  exact absurd h.owns (by decide)

end CourseOs
