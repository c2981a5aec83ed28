import CourseOs.Machine
import Mathlib.Data.List.Basic
import Mathlib.Data.List.GetD

/-!
# Growable arrays

`ds/u8_array_list.c` and `ds/vp_array_list.c`, and `krealloc` of
`klibc/alloc.c`, on which both grow.  A block of the allocator is known by its
size and what it holds; the null pointer is `none`.  What `kmalloc` returns
for a request is an argument of each routine that makes one, so a result about
the routine is one about every answer of the allocator.

Access past the end of a block stops with `Trap.outOfBounds`, whether or not
the index is below the list's own length or capacity.  That a list is in its
block is therefore something to prove, and `U8ArrayList.In` and
`VPArrayList.In` say it.

The lists of the file system use only part of the routines: a file writes to
its byte list at a position of its own (`U8ArrayList.In.write`), and a
directory pushes entries (`VPArrayList.In.vpaPush`).  The lists in general,
with pops, resizes and capacities that do not match the block, are in
`ByteList` and `PointerList`.
-/

namespace CourseOs

/-- An allocated block of `size` bytes, as an array.  Cells past the end have
values too, but no routine reads them. -/
structure Block (α : Type) where
  /-- `kmalloc_size`. -/
  size : ℕ
  cell : ℕ → α

/-- `krealloc`, for elements of `width` bytes.  A block that is large enough
is returned as it is; otherwise the elements that fit in the old block are
copied to the new one. -/
def krealloc {α : Type} (width : ℕ) (mem : Option (Block α)) (ptr : Option (Block α))
    (newsize : ℕ) : Option (Block α) :=
  match ptr with
  | none => mem
  | some old =>
      if newsize = 0 then none
      else if newsize ≤ old.size then some old
      else mem.map fun new =>
        { new with cell := fun i => if width * (i + 1) ≤ old.size then old.cell i else new.cell i }

/-- `memcpy` of the bytes `src` to index `i` of a block. -/
def memcpyTo (b : Option (Block UInt8)) (i : ℕ) (src : List UInt8) :
    Exec (Option (Block UInt8)) :=
  if src.length = 0 then .ok b
  else match b with
    | none => .error .nullDereference
    | some b =>
        if i + src.length ≤ b.size then
          .ok (some { b with
            cell := fun j => if i ≤ j then src.getD (j - i) (b.cell j) else b.cell j })
        else .error .outOfBounds

/-- `memcpy` of `count` bytes from index `i` of a block. -/
def memcpyFrom (b : Option (Block UInt8)) (i count : ℕ) : Exec (List UInt8) :=
  if count = 0 then .ok []
  else match b with
    | none => .error .nullDereference
    | some b =>
        if i + count ≤ b.size then .ok ((List.range count).map fun j => b.cell (i + j))
        else .error .outOfBounds

/-- `U8ArrayList`.  The array is the block that the pointer leads to, or
`none` for the null pointer; its size need not be the capacity. -/
structure U8ArrayList where
  length : ℕ
  capacity : ℕ
  array : Option (Block UInt8)

/-- `u8a_create`.  The capacity is the one asked for, whether or not there is
a block. -/
def u8aCreate (mem : Option (Block UInt8)) (initialCap : ℕ) : U8ArrayList := ⟨0, initialCap, mem⟩

/-- `u8a_resize`: the capacity is the new size whether or not `krealloc`
returns a block for it. -/
def u8aResize (mem : Option (Block UInt8)) (list : U8ArrayList) (newSize : ℕ) : U8ArrayList where
  length := if newSize < list.length then newSize else list.length
  capacity := newSize
  array := krealloc 1 mem list.array newSize

/-- `sizeof(void *)`. -/
abbrev sizeofVoidPointer : ℕ := 4

/-- `VPArrayList`.  The elements are pointers, so that a cell of the block is
one of four bytes. -/
structure VPArrayList where
  length : ℕ
  capacity : ℕ
  array : Option (Block ℕ)

/-- `vpa_create`.  As for byte lists, an array that could not be had is not
noticed. -/
def vpaCreate (mem : Option (Block ℕ)) (initialCap : ℕ) : VPArrayList := ⟨0, initialCap, mem⟩

/-- The block of a list, when index `index` is in it. -/
def VPArrayList.blockAt (list : VPArrayList) (index : ℕ) : Exec (Block ℕ) :=
  match list.array with
  | none => .error .nullDereference
  | some b =>
      if sizeofVoidPointer * (index + 1) ≤ b.size then .ok b else .error .outOfBounds

/-- `vpa_get`.  The index is not compared with the length; a read past the
block stops the model. -/
def vpaGet (list : VPArrayList) (index : ℕ) : Exec ℕ := do
  let b ← list.blockAt index
  .ok (b.cell index)

/-- `vpa_push`: the element is written first, and a list that is full then
grows by a quarter and by two elements at least. -/
def vpaPush (mem : Option (Block ℕ)) (list : VPArrayList) (data : ℕ) : Exec VPArrayList := do
  let b ← list.blockAt list.length
  let array := some { b with cell := fun i => if i = list.length then data else b.cell i }
  let length := (list.length + 1) % 2 ^ 32
  if list.capacity ≤ length then
    let newSize := max ((list.capacity + list.capacity / 4) % 2 ^ 32) ((list.capacity + 2) % 2 ^ 32)
    if newSize ≤ list.capacity then .error .assertion
    else .ok ⟨length, newSize, krealloc sizeofVoidPointer mem array
      (newSize * sizeofVoidPointer % 2 ^ 32)⟩
  else .ok ⟨length, list.capacity, array⟩

/-! ### Byte lists

The contents of a list are the bytes of its block up to the length, and its
capacity is a promise about the block that the code makes and does not check.
A write in the middle of a list and a write behind its end are the same
routine; what differs is how much of the old contents is left behind the bytes
written. -/

section ByteLists

variable {mem : Option (Block UInt8)} {list : U8ArrayList} {b : Block UInt8} {buf : List UInt8}
  {p : ℕ}

namespace U8ArrayList

/-- The bytes of the list: those of its block up to the length. -/
def contents (list : U8ArrayList) : List UInt8 :=
  match list.array with
  | none => []
  | some b => (List.range list.length).map b.cell

/-- The size of the block the list is in, or 0 without one.  This, and not the
capacity, is where a write must end. -/
def room (list : U8ArrayList) : ℕ :=
  match list.array with
  | none => 0
  | some b => b.size

/-- The list is in the block `b`, with its length and capacity in bounds.  The
capacity is a promise about the block, so that a write within it stays inside. -/
structure In (list : U8ArrayList) (b : Block UInt8) : Prop where
  array : list.array = some b
  capacity_pos : 0 < list.capacity
  length_le : list.length ≤ list.capacity
  capacity_le : list.capacity ≤ b.size
  size_lt : b.size < 2 ^ 32

theorem In.contents (h : list.In b) : list.contents = (List.range list.length).map b.cell := by
  unfold U8ArrayList.contents
  rw [h.array]

theorem In.room (h : list.In b) : list.room = b.size := by
  unfold U8ArrayList.room
  rw [h.array]

theorem In.length_contents (h : list.In b) : list.contents.length = list.length := by
  rw [h.contents, List.length_map, List.length_range]

end U8ArrayList

/-- `memcpy` out of a block that holds what is copied. -/
theorem memcpyFrom_some {j count : ℕ} (h : j + count ≤ b.size) :
    memcpyFrom (some b) j count = .ok ((List.range count).map fun k => b.cell (j + k)) := by
  unfold memcpyFrom
  by_cases hcount : count = 0
  · rw [if_pos hcount, hcount, List.range_zero, List.map_nil]
  · rw [if_neg hcount]
    exact if_pos h

/-- `krealloc` to a size that is there, or that `kmalloc` grants, keeps what
is in the block.  The block returned is the old one or the new one. -/
theorem krealloc_spec {α : Type} (width : ℕ) {mem : Option (Block α)} {b : Block α} {newsize : ℕ}
    (hsize : newsize ≠ 0) (hmem : ∀ new, mem = some new → newsize ≤ new.size)
    (h : newsize ≤ b.size ∨ mem.isSome) :
    ∃ b', krealloc width mem (some b) newsize = some b' ∧ newsize ≤ b'.size ∧
      (∀ j, width * (j + 1) ≤ b.size → b'.cell j = b.cell j) ∧
      (b' = b ∨ ∃ new, mem = some new ∧ b'.size = new.size) := by
  show ∃ b', (if newsize = 0 then none else _) = some b' ∧ _
  rw [if_neg hsize]
  by_cases hle : newsize ≤ b.size
  · rw [if_pos hle]
    exact ⟨b, rfl, hle, fun _ _ => rfl, .inl rfl⟩
  · rw [if_neg hle]
    obtain ⟨new, rfl⟩ := Option.isSome_iff_exists.mp (h.resolve_left hle)
    exact ⟨_, rfl, hmem new rfl, fun j hj => if_pos hj, .inr ⟨new, rfl, rfl⟩⟩

theorem memcpyTo_some {j : ℕ} (h : j + buf.length ≤ b.size) :
    ∃ b', memcpyTo (some b) j buf = .ok (some b') ∧ b'.size = b.size ∧
      ∀ k, b'.cell k = if j ≤ k then buf.getD (k - j) (b.cell k) else b.cell k := by
  unfold memcpyTo
  by_cases hnil : buf.length = 0
  · rw [if_pos hnil]
    refine ⟨b, rfl, rfl, fun k => ?_⟩
    rw [List.length_eq_zero_iff.mp hnil, List.getD_nil, ite_self]
  · rw [if_neg hnil]
    exact ⟨_, if_pos h, rfl, fun _ => rfl⟩

/-- The bytes of a file that ends where a write of `buf` at `j` does: the old
ones up to `j`, and `buf` behind them. -/
theorem map_cell_write {b b' : Block UInt8} {j l : ℕ} (hj : j ≤ l)
    (hcell : ∀ k, b'.cell k = if j ≤ k then buf.getD (k - j) (b.cell k) else b.cell k) :
    (List.range (j + buf.length)).map b'.cell =
      ((List.range l).map b.cell).take j ++ buf := by
  rw [List.range_add, List.map_append, ← List.map_take, List.take_range, Nat.min_eq_left hj]
  congr 1
  · apply List.map_congr_left
    intro k hk
    rw [hcell, if_neg (by have := List.mem_range.mp hk; omega)]
  · apply List.ext_getElem
    · rw [List.length_map, List.length_map, List.length_range]
    · intro k hk hk'
      rw [List.getElem_map, List.getElem_map, List.getElem_range, hcell,
        if_pos (Nat.le_add_right j k), Nat.add_sub_cancel_left,
        List.getD_eq_getElem _ _ hk']

/-- **A write** from within the capacity is within the block, which grows by
its length.  `b₁` is the block after the resize, which has the old bytes as
far as the old block goes. -/
theorem U8ArrayList.In.writeAt (h : list.In b) (hp : p ≤ list.capacity)
    (hcap : list.capacity + buf.length < 2 ^ 32)
    (hmem : ∀ new, mem = some new → list.capacity + buf.length ≤ new.size ∧ new.size < 2 ^ 32)
    (hfits : list.capacity + buf.length ≤ b.size ∨ mem.isSome) :
    ∃ b₁ b' : Block UInt8,
      memcpyTo (u8aResize mem list ((list.capacity + buf.length) % 2 ^ 32)).array p buf =
        .ok (some b') ∧
      U8ArrayList.In ⟨p + buf.length, list.capacity + buf.length, some b'⟩ b' ∧
      (∀ j < b.size, b₁.cell j = b.cell j) ∧
      ∀ k, b'.cell k = if p ≤ k then buf.getD (k - p) (b₁.cell k) else b₁.cell k := by
  have hpos := h.capacity_pos
  obtain ⟨b₁, hb₁, hroom, hkeep, hnew⟩ := krealloc_spec 1
    (show list.capacity + buf.length ≠ 0 by omega) (fun new hn => (hmem new hn).1) hfits
  obtain ⟨b₂, hb₂, hsize₂, hcell⟩ := memcpyTo_some
    (show p + buf.length ≤ b₁.size by omega)
  have hlt : b₁.size < 2 ^ 32 := by
    rcases hnew with rfl | ⟨new, hmem', hnew⟩
    · exact h.size_lt
    · rw [hnew]
      exact (hmem new hmem').2
  refine ⟨b₁, b₂, ?_, ⟨rfl, Nat.add_pos_left hpos _, ?_, ?_, ?_⟩, fun j hj => ?_, hcell⟩
  · rw [Nat.mod_eq_of_lt hcap, ← hb₂, ← hb₁, ← h.array]
    rfl
  · exact Nat.add_le_add_right hp _
  · exact hsize₂ ▸ hroom
  · exact hsize₂ ▸ hlt
  · exact hkeep j (by omega)

/-- A write from within the list: it holds what it held up to the position,
and then what was written. -/
theorem U8ArrayList.In.write (h : list.In b) (hp : p ≤ list.length)
    (hcap : list.capacity + buf.length < 2 ^ 32)
    (hmem : ∀ new, mem = some new → list.capacity + buf.length ≤ new.size ∧ new.size < 2 ^ 32)
    (hfits : list.capacity + buf.length ≤ b.size ∨ mem.isSome) :
    ∃ b', memcpyTo (u8aResize mem list ((list.capacity + buf.length) % 2 ^ 32)).array p buf =
        .ok (some b') ∧
      U8ArrayList.In ⟨p + buf.length, list.capacity + buf.length, some b'⟩ b' ∧
      U8ArrayList.contents ⟨p + buf.length, list.capacity + buf.length, some b'⟩ =
        list.contents.take p ++ buf := by
  have hle := h.length_le
  have hsize := h.capacity_le
  obtain ⟨b₁, b₂, hcopy, hin, hkeep, hcell⟩ := h.writeAt (Nat.le_trans hp hle) hcap hmem hfits
  refine ⟨b₂, hcopy, hin, ?_⟩
  show (List.range (p + buf.length)).map b₂.cell = _
  rw [map_cell_write hp hcell, h.contents]
  congr 2
  apply List.map_congr_left
  intro k hk
  exact hkeep k (by have := List.mem_range.mp hk; omega)

/-- A write that has no memory to grow by stops the kernel: the null pointer
that `krealloc` returns is stored in the list, and is where the bytes go. -/
theorem U8ArrayList.In.write_none (h : list.In b) (hcap : list.capacity + buf.length < 2 ^ 32)
    (hfits : ¬ list.capacity + buf.length ≤ b.size) :
    memcpyTo (u8aResize none list ((list.capacity + buf.length) % 2 ^ 32)).array p buf =
      .error .nullDereference := by
  have hpos := h.capacity_pos
  have hsize := h.capacity_le
  have hnone : (u8aResize none list (list.capacity + buf.length)).array = none := by
    unfold u8aResize
    rw [h.array]
    show (if _ then none else if _ then _ else _) = none
    rw [if_neg (by omega), if_neg hfits]
    rfl
  unfold memcpyTo
  rw [Nat.mod_eq_of_lt hcap, hnone, if_neg (by omega)]

end ByteLists

/-! ### Pointer lists

The same for elements of four bytes.  A push writes its element before it
looks whether there is room for another one, so that a list has to have a free
slot at all times, and it is the push before that makes it. -/

section PointerLists

variable {mem : Option (Block ℕ)} {list : VPArrayList} {b : Block ℕ} {data : ℕ}

/-- The entries of a list: the elements of its block up to the length. -/
def VPArrayList.entries (list : VPArrayList) : List ℕ :=
  match list.array with
  | none => []
  | some b => (List.range list.length).map b.cell

/-- The list is in the block `b`, which has room for one more element than it
holds.  A push writes before it grows, so that this slot has to be there. -/
structure VPArrayList.In (list : VPArrayList) (b : Block ℕ) : Prop where
  array : list.array = some b
  length_lt : list.length < list.capacity
  capacity_le : sizeofVoidPointer * list.capacity ≤ b.size
  size_lt : b.size < 2 ^ 32

/-- The capacity `vpa_push` grows a full list to, as long as it has 32 bits. -/
def vpaGrown (capacity : ℕ) : ℕ := max (capacity + capacity / 4) (capacity + 2)

/-- `kmalloc` gives the block a push asks for, if it asks for one.  The bytes
asked for are four times the new capacity, so the block is in memory as a
whole. -/
def VPArrayList.Granted (mem : Option (Block ℕ)) (list : VPArrayList) : Prop :=
  list.capacity ≤ list.length + 1 → ∃ new, mem = some new ∧
    sizeofVoidPointer * vpaGrown list.capacity ≤ new.size ∧ new.size < 2 ^ 32

theorem VPArrayList.In.entries (h : list.In b) :
    list.entries = (List.range list.length).map b.cell := by
  unfold VPArrayList.entries
  rw [h.array]

theorem VPArrayList.In.vpaGet (h : list.In b) {i : ℕ} (hi : i < list.length) :
    vpaGet list i = .ok (b.cell i) := by
  have hlen := h.length_lt
  have hcap : 4 * list.capacity ≤ b.size := h.capacity_le
  unfold CourseOs.vpaGet VPArrayList.blockAt
  rw [h.array]
  show (if _ then _ else _) >>= _ = _
  rw [if_pos (show 4 * (i + 1) ≤ b.size by omega)]
  rfl

/-- The block after an element has been written at index `i`. -/
def Block.write (b : Block ℕ) (i data : ℕ) : Block ℕ :=
  { b with cell := fun j => if j = i then data else b.cell j }

@[simp] theorem Block.write_size (b : Block ℕ) (i data : ℕ) : (b.write i data).size = b.size := rfl

/-- The elements with one written behind them. -/
theorem Block.map_write (b : Block ℕ) (i data : ℕ) :
    (List.range (i + 1)).map (b.write i data).cell = (List.range i).map b.cell ++ [data] := by
  rw [List.range_succ, List.map_append]
  congr 1
  · apply List.map_congr_left
    intro k hk
    exact if_neg (Nat.ne_of_lt (List.mem_range.mp hk))
  · exact congrArg (fun x => [x]) (if_pos rfl)

theorem le_vpaGrown (capacity : ℕ) : capacity + 2 ≤ vpaGrown capacity := Nat.le_max_right _ _

/-- **A push** to a slot of the block returns, also when the list has to grow
and cannot: the list is then without a block, and only the next push stops. -/
theorem vpaPush_eq (harray : list.array = some b)
    (hslot : sizeofVoidPointer * (list.length + 1) ≤ b.size) (hsize : b.size < 2 ^ 32)
    (mem : Option (Block ℕ)) (data : ℕ) :
    vpaPush mem list data = .ok (
      if list.capacity ≤ list.length + 1 then
        ⟨list.length + 1, vpaGrown list.capacity,
          krealloc sizeofVoidPointer mem (some (b.write list.length data))
            (vpaGrown list.capacity * sizeofVoidPointer % 2 ^ 32)⟩
      else ⟨list.length + 1, list.capacity, some (b.write list.length data)⟩) := by
  change 4 * (list.length + 1) ≤ b.size at hslot
  have hmod : (list.length + 1) % 2 ^ 32 = list.length + 1 := Nat.mod_eq_of_lt (by omega)
  have hat : list.blockAt list.length = .ok b := by
    unfold VPArrayList.blockAt
    rw [harray]
    exact if_pos hslot
  unfold vpaPush
  rw [hat, Exec.ok_bind]
  dsimp only
  rw [hmod]
  by_cases hfull : list.capacity ≤ list.length + 1
  · have hgrown := le_vpaGrown list.capacity
    have hnewSize : max ((list.capacity + list.capacity / 4) % 2 ^ 32)
        ((list.capacity + 2) % 2 ^ 32) = vpaGrown list.capacity := by
      rw [Nat.mod_eq_of_lt (by omega), Nat.mod_eq_of_lt (by omega)]
      rfl
    rw [if_pos hfull, if_pos hfull, hnewSize, if_neg (by omega)]
    rfl
  · rw [if_neg hfull, if_neg hfull]
    rfl

/-- A push to a list with a free slot returns. -/
theorem VPArrayList.In.exists_vpaPush (h : list.In b) (mem : Option (Block ℕ)) (data : ℕ) :
    ∃ list', CourseOs.vpaPush mem list data = .ok list' :=
  ⟨_, vpaPush_eq h.array (Nat.le_trans (Nat.mul_le_mul_left 4 h.length_lt) h.capacity_le)
    h.size_lt mem data⟩

/-- A push with what it asks for granted adds the element at the end.  The
element is written before the array grows, and `krealloc` keeps what was
written. -/
theorem VPArrayList.In.vpaPush (h : list.In b) (hmem : list.Granted mem) (data : ℕ) :
    ∃ list' b', vpaPush mem list data = .ok list' ∧ list'.In b' ∧
      list'.entries = list.entries ++ [data] := by
  have hlen := h.length_lt
  have hcap : 4 * list.capacity ≤ b.size := h.capacity_le
  rw [vpaPush_eq h.array (show 4 * (list.length + 1) ≤ b.size by omega) h.size_lt, h.entries]
  by_cases hfull : list.capacity ≤ list.length + 1
  · obtain ⟨new, rfl, hnew, hlt⟩ := hmem hfull
    change 4 * vpaGrown list.capacity ≤ new.size at hnew
    have hgrown := le_vpaGrown list.capacity
    have hbytes : vpaGrown list.capacity * sizeofVoidPointer % 2 ^ 32 =
        4 * vpaGrown list.capacity := by
      rw [Nat.mul_comm]
      exact Nat.mod_eq_of_lt (show 4 * vpaGrown list.capacity < 2 ^ 32 by omega)
    have hsome : ∀ b', some new = some b' → 4 * vpaGrown list.capacity ≤ b'.size := by
      rintro _ ⟨⟩
      exact hnew
    obtain ⟨b', hb', hroom, hkeep, hwhich⟩ := krealloc_spec sizeofVoidPointer
      (b := b.write list.length data) (show 4 * vpaGrown list.capacity ≠ 0 by omega) hsome
      (.inr rfl)
    rw [if_pos hfull, hbytes, hb']
    refine ⟨_, b', rfl,
      ⟨rfl, show list.length + 1 < vpaGrown list.capacity by omega, hroom, ?_⟩, ?_⟩
    · rcases hwhich with rfl | ⟨_, ⟨⟩, hsz⟩
      · exact h.size_lt
      · exact hsz ▸ hlt
    · rw [← b.map_write]
      apply List.map_congr_left
      intro j hj
      have hlt' : j < list.length + 1 := List.mem_range.mp hj
      exact hkeep j (show 4 * (j + 1) ≤ b.size by omega)
  · rw [if_neg hfull]
    exact ⟨_, b.write list.length data, rfl,
      ⟨rfl, show list.length + 1 < list.capacity by omega, hcap, h.size_lt⟩,
      b.map_write list.length data⟩

end PointerLists

end CourseOs
