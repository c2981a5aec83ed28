import CourseOs.Ds.ArrayList
import Mathlib.Data.List.Range

/-!
# Byte lists that grow

`u8a_push`, `u8a_push_string` and `u8a_clone` of `ds/u8_array_list.c`.
`Sound` is what every list keeps: its length is within its capacity and its
capacity within its block.  What is in the block past the length is left open.

A call that returns has appended its bytes (`Sound.push`, `Sound.pushString`),
and `kmalloc` returning the null pointer is the only way a push of one byte
can fail.  `Sound.clone` is the same for a copy.

`Fit` is a weaker invariant, for lists whose blocks may be missing: it bounds
the capacity by the block only where there is one.  A list that was created
without memory, or lost its block in a `krealloc` that was refused, is `Fit`
and not `Sound`; its contents are empty and every store to it stops.  `Fit` is
kept by every call that returns, whatever `kmalloc` answered.

The capacity is a 32-bit number and may wrap where it grows.  A list with a
block has a capacity of less than `2 ^ 31`, as `Grants` bounds the blocks, so
it does not wrap there (`Sound.push_eq`); a list without a block does not get
to use the capacity.
-/

namespace CourseOs

/-- `list->array[list->length++] = data`, which stops where the byte would be
past the block. -/
def u8aStore (list : U8ArrayList) (data : UInt8) : Exec U8ArrayList :=
  match list.array with
  | none => .error .nullDereference
  | some b =>
      if list.length < b.size then
        .ok ⟨(list.length + 1) % 2 ^ 32, list.capacity,
          some { b with cell := Function.update b.cell list.length data }⟩
      else .error .outOfBounds

/-- The loops of `u8a_push_string` and `u8a_clone`, byte after byte.  The
first store that is out of bounds stops it. -/
def u8aStoreAll : U8ArrayList → List UInt8 → Exec U8ArrayList
  | list, [] => .ok list
  | list, x :: xs => do
      let list ← u8aStore list x
      u8aStoreAll list xs

/-- `u8a_push`.  Unlike `vpa_push` it grows first, once the length is the
capacity less one, and then stores the byte. -/
def u8aPush (mem : Option (Block UInt8)) (list : U8ArrayList) (data : UInt8) : Exec U8ArrayList :=
  if list.capacity = 0 ∨ list.capacity - 1 ≤ list.length then
    let newSize := max ((list.capacity + list.capacity / 4) % 2 ^ 32) ((list.capacity + 2) % 2 ^ 32)
    if newSize ≤ list.capacity then .error .assertion
    else u8aStore ⟨list.length, newSize, krealloc 1 mem list.array newSize⟩ data
  else u8aStore list data

/-- `u8a_push_string`: the capacity is made just what the string needs, and
then the bytes are stored one by one. -/
def u8aPushString (mem : Option (Block UInt8)) (list : U8ArrayList) (data : List UInt8) :
    Exec U8ArrayList :=
  u8aStoreAll (u8aResize mem list ((list.length + data.length) % 2 ^ 32)) data

/-- `u8a_clone`: a new list of the length of the other, with its bytes stored
one by one. -/
def u8aClone (mem : Option (Block UInt8)) (arr : U8ArrayList) : Exec U8ArrayList :=
  u8aStoreAll (u8aCreate mem arr.length) arr.contents

variable {mem : Option (Block UInt8)} {list list' : U8ArrayList} {b : Block UInt8}
  {data : List UInt8} {x : UInt8} {n : ℕ}

/-- What `kmalloc` returns for `n` bytes: a block of that size at least, and
of less than half of the address space. -/
def Grants (mem : Option (Block UInt8)) (n : ℕ) : Prop :=
  ∀ b, mem = some b → n ≤ b.size ∧ b.size < 2 ^ 31

namespace U8ArrayList

/-- The list is within its capacity, and that within its block, which is in
the lower half of memory. -/
structure Sound (list : U8ArrayList) : Prop where
  length_le : list.length ≤ list.capacity
  capacity_le : list.capacity ≤ list.room
  room_lt : list.room < 2 ^ 31

theorem room_of_none (h : list.array = none) : list.room = 0 := by
  unfold room
  rw [h]

theorem room_of_some (h : list.array = some b) : list.room = b.size := by
  unfold room
  rw [h]

theorem contents_of_some (h : list.array = some b) :
    list.contents = (List.range list.length).map b.cell := by
  unfold contents
  rw [h]

theorem room_lt_of_block (h : ∀ b, list.array = some b → b.size < 2 ^ 31) : list.room < 2 ^ 31 := by
  cases harray : list.array with
  | none => exact (room_of_none harray).trans_lt (by decide)
  | some b => exact (room_of_some harray).trans_lt (h b harray)

theorem contents_of_length (h : list.length = 0) : list.contents = [] := by
  unfold contents
  split
  · rfl
  · rw [h, List.range_zero, List.map_nil]

namespace Sound

theorem length_lt (h : list.Sound) : list.length < 2 ^ 31 :=
  (h.length_le.trans h.capacity_le).trans_lt h.room_lt

theorem length_contents (h : list.Sound) : list.contents.length = list.length := by
  cases harray : list.array with
  | none =>
      have hlen := h.length_le.trans (h.capacity_le.trans_eq (room_of_none harray))
      rw [contents_of_length (Nat.le_zero.mp hlen), Nat.le_zero.mp hlen, List.length_nil]
  | some b => rw [contents_of_some harray, List.length_map, List.length_range]

/-- A list that holds something is in a block. -/
theorem exists_block (h : list.Sound) (hne : list.length ≠ 0) : ∃ b, list.array = some b := by
  cases harray : list.array with
  | none =>
      exact absurd (Nat.le_zero.mp (h.length_le.trans (h.capacity_le.trans_eq
        (room_of_none harray)))) hne
  | some b => exact ⟨b, rfl⟩

theorem length_le_size (h : list.Sound) (harray : list.array = some b) :
    list.length ≤ b.size := by
  rw [← room_of_some harray]
  exact h.length_le.trans h.capacity_le

theorem size_lt (h : list.Sound) (harray : list.array = some b) : b.size < 2 ^ 31 := by
  rw [← room_of_some harray]
  exact h.room_lt

end Sound

/-! ### Storing

A store appends one byte, provided there is a block that has room for it.  The
lemmas go from what the call returned to what it has done, since a store out
of bounds stops the model, and a string of stores that returned has had room
for all of them. -/

/-- A byte stored at the end of a list that has room for it: the block has it
behind the contents, and nothing before it changes. -/
theorem store_eq (harray : list.array = some b) (hroom : list.length < b.size)
    (hsize : b.size < 2 ^ 31) :
    ∃ b', u8aStore list x = .ok ⟨list.length + 1, list.capacity, some b'⟩ ∧ b'.size = b.size ∧
      (List.range (list.length + 1)).map b'.cell = list.contents ++ [x] := by
  refine ⟨{ b with cell := Function.update b.cell list.length x }, ?_, rfl, ?_⟩
  · unfold u8aStore
    rw [harray]
    dsimp only
    rw [if_pos hroom, Nat.mod_eq_of_lt (by omega)]
  · rw [List.range_succ, List.map_append, contents_of_some harray, List.map_singleton]
    dsimp only
    rw [Function.update_self]
    congr 1
    apply List.map_congr_left
    intro k hk
    exact Function.update_of_ne (Nat.ne_of_lt (List.mem_range.mp hk)) _ _

/-- What a run of stores that returns has done: the bytes are behind the old
ones, in the same block, which has room for all of them. -/
theorem storeAll_ok (harray : list.array = some b) (hsize : b.size < 2 ^ 31)
    (hlen : list.length ≤ b.size) (h : u8aStoreAll list data = .ok list') :
    ∃ b', list' = ⟨list.length + data.length, list.capacity, some b'⟩ ∧ b'.size = b.size ∧
      list.length + data.length ≤ b.size ∧ list'.contents = list.contents ++ data := by
  induction data generalizing list b with
  | nil =>
      obtain rfl := Except.ok.inj h
      obtain ⟨length, capacity, array⟩ := list
      obtain rfl : array = some b := harray
      exact ⟨b, rfl, rfl, hlen, (List.append_nil _).symm⟩
  | cons x xs ih =>
      unfold u8aStoreAll at h
      by_cases hroom : list.length < b.size
      · obtain ⟨b₁, hstore, hsize₁, hcells⟩ := store_eq harray hroom hsize
        rw [hstore, Exec.ok_bind] at h
        obtain ⟨b', rfl, hsize', hfits, hcontents⟩ := ih (b := b₁) rfl (hsize₁ ▸ hsize)
          (by rw [hsize₁]; exact hroom) h
        have hcount : list.length + 1 + xs.length = list.length + (x :: xs).length := by
          rw [List.length_cons, Nat.add_assoc, Nat.add_comm 1]
        rw [hcount, hsize₁] at hfits
        refine ⟨b', ?_, hsize'.trans hsize₁, hfits, ?_⟩
        · rw [← hcount]
        · rw [hcontents, List.append_cons]
          exact congrArg (· ++ xs) hcells
      · unfold u8aStore at h
        rw [harray] at h
        dsimp only at h
        rw [if_neg hroom, Exec.error_bind] at h
        cases h

/-- Without a block nothing can be stored. -/
theorem storeAll_none (harray : list.array = none) (h : u8aStoreAll list data = .ok list') :
    data = [] ∧ list' = list := by
  cases data with
  | nil => exact ⟨rfl, (Except.ok.inj h).symm⟩
  | cons x xs =>
      unfold u8aStoreAll u8aStore at h
      rw [harray] at h
      cases h

/-! ### Lists within their blocks

The weaker invariant.  It does not say that a list has a block, and so it
survives a resize whose `krealloc` was refused: the list is then without an
array but with a capacity, and the next store stops at the null pointer. -/

/-- A list is within its capacity, and that within its block, if it has one.
Calls that return keep this also when `kmalloc` refuses. -/
structure Fit (list : U8ArrayList) : Prop where
  length_le : list.length ≤ list.capacity
  length_lt : list.length < 2 ^ 31
  block : ∀ b, list.array = some b → list.capacity ≤ b.size ∧ b.size < 2 ^ 31

theorem store_ok (hok : u8aStore list x = .ok list') :
    ∃ b b' : Block UInt8, list.array = some b ∧ list.length < b.size ∧ b'.size = b.size ∧
      list' = ⟨(list.length + 1) % 2 ^ 32, list.capacity, some b'⟩ := by
  unfold u8aStore at hok
  cases harray : list.array with
  | none =>
      rw [harray] at hok
      cases hok
  | some b =>
      rw [harray] at hok
      dsimp only at hok
      by_cases hlt : list.length < b.size
      · cases (if_pos hlt).symm.trans hok
        exact ⟨b, { b with cell := Function.update b.cell list.length x }, rfl, hlt, rfl, rfl⟩
      · cases (if_neg hlt).symm.trans hok

/-- The bytes that a push asks for, if it does: the capacity is to grow by a
quarter, and by two at least. -/
def pushRequest (capacity : ℕ) : ℕ :=
  max ((capacity + capacity / 4) % 2 ^ 32) ((capacity + 2) % 2 ^ 32)

namespace Fit

/-- A list without elements. -/
theorem of_create (hmem : Grants mem n) : Fit (u8aCreate mem n) :=
  ⟨Nat.zero_le _, Nat.two_pow_pos 31, hmem⟩

/-- A block that `krealloc` returns is of the size asked for. -/
theorem krealloc (h : Fit list) (hmem : Grants mem n)
    (hb : CourseOs.krealloc 1 mem list.array n = some b) : n ≤ b.size ∧ b.size < 2 ^ 31 := by
  cases harray : list.array with
  | none =>
      rw [harray] at hb
      exact hmem b hb
  | some old =>
      rw [harray] at hb
      by_cases hn : n = 0
      · cases (if_pos hn).symm.trans hb
      · by_cases hle : n ≤ old.size
        · cases ((if_neg hn).trans (if_pos hle)).symm.trans hb
          exact ⟨hle, (h.block b harray).2⟩
        · obtain ⟨new, hnew, rfl⟩ := Option.map_eq_some_iff.mp
            (((if_neg hn).trans (if_neg hle)).symm.trans hb)
          exact hmem new hnew

theorem recapacitate (h : Fit list) (hmem : Grants mem n) (hle : list.length ≤ n) :
    Fit ⟨list.length, n, CourseOs.krealloc 1 mem list.array n⟩ :=
  ⟨hle, h.length_lt, fun _ hb => h.krealloc hmem hb⟩

theorem resize (h : Fit list) (hmem : Grants mem n) : Fit (u8aResize mem list n) := by
  have hlength : (u8aResize mem list n).length = min n list.length := by
    unfold u8aResize
    by_cases hlt : n < list.length
    · rw [if_pos hlt, Nat.min_eq_left (Nat.le_of_lt hlt)]
    · rw [if_neg hlt, Nat.min_eq_right (Nat.not_lt.mp hlt)]
  refine ⟨?_, ?_, fun _ hb => h.krealloc hmem hb⟩
  · rw [hlength]
    exact Nat.min_le_left _ _
  · rw [hlength]
    exact Nat.lt_of_le_of_lt (Nat.min_le_right _ _) h.length_lt

theorem store (h : Fit list) (hlt : list.length < list.capacity)
    (hok : u8aStore list x = .ok list') :
    Fit list' ∧ list'.length = list.length + 1 ∧ list'.capacity = list.capacity := by
  obtain ⟨b, b', harray, hroom, hsize, rfl⟩ := store_ok hok
  have hblock := h.block b harray
  have hmod : (list.length + 1) % 2 ^ 32 = list.length + 1 := Nat.mod_eq_of_lt (by omega)
  rw [hmod]
  refine ⟨⟨hlt, show list.length + 1 < 2 ^ 31 by omega, ?_⟩, rfl, rfl⟩
  rintro _ ⟨⟩
  rw [hsize]
  exact hblock

theorem storeAll (h : Fit list) (hle : list.length + data.length ≤ list.capacity)
    (hok : u8aStoreAll list data = .ok list') : Fit list' := by
  induction data generalizing list with
  | nil =>
      cases hok
      exact h
  | cons x xs ih =>
      obtain ⟨list₁, hstore, hrest⟩ := Exec.bind_eq_ok.mp hok
      rw [List.length_cons] at hle
      obtain ⟨h₁, hlength, hcapacity⟩ := h.store (by omega) hstore
      exact ih h₁ (by omega) hrest

theorem push (h : Fit list) (hmem : Grants mem (pushRequest list.capacity))
    (hok : u8aPush mem list x = .ok list') : Fit list' := by
  have hle := h.length_le
  unfold u8aPush at hok
  by_cases hgrow : list.capacity = 0 ∨ list.capacity - 1 ≤ list.length
  · rw [if_pos hgrow] at hok
    by_cases hwrap : pushRequest list.capacity ≤ list.capacity
    · cases (if_pos hwrap).symm.trans hok
    · have hstore := (if_neg hwrap).symm.trans hok
      have hlt : list.length < pushRequest list.capacity :=
        Nat.lt_of_le_of_lt hle (Nat.not_le.mp hwrap)
      exact ((h.recapacitate hmem (Nat.le_of_lt hlt)).store hlt hstore).1
  · rw [if_neg hgrow] at hok
    exact (h.store (by omega) hok).1

/-- A string that takes the length past 2^32 does not fit in any block. -/
theorem pushString_lt (h : Fit list) (hmem : Grants mem ((list.length + data.length) % 2 ^ 32))
    (hok : u8aPushString mem list data = .ok list') :
    list.length + data.length < 2 ^ 32 := by
  refine Nat.not_le.mp fun hwrap => ?_
  have hlt := h.length_lt
  have hfit := h.resize hmem
  cases harray : (u8aResize mem list ((list.length + data.length) % 2 ^ 32)).array with
  | none =>
      obtain ⟨rfl, -⟩ := storeAll_none harray hok
      rw [List.length_nil] at hwrap
      omega
  | some b =>
      obtain ⟨hle, hsize⟩ := hfit.block b harray
      obtain ⟨-, -, -, hfits, -⟩ :=
        storeAll_ok harray hsize (hfit.length_le.trans hle) hok
      omega

theorem pushString (h : Fit list) (hmem : Grants mem ((list.length + data.length) % 2 ^ 32))
    (hok : u8aPushString mem list data = .ok list') : Fit list' := by
  have hlt := h.pushString_lt hmem hok
  refine (h.resize hmem).storeAll ?_ hok
  show (if (list.length + data.length) % 2 ^ 32 < list.length then _ else _) + _ ≤
    (list.length + data.length) % 2 ^ 32
  rw [Nat.mod_eq_of_lt hlt, if_neg (Nat.not_lt.mpr (Nat.le_add_right _ _))]

end Fit

theorem Sound.fit (h : list.Sound) : list.Fit :=
  ⟨h.length_le, h.length_lt, fun _ hb => ⟨h.capacity_le.trans_eq (room_of_some hb), h.size_lt hb⟩⟩

/-! ### Growing

`u8a_push` grows when the length comes within one of the capacity,
`u8a_push_string` before it stores anything.  With enough memory both append
what they are given; a refusal shows in the store, and not in the call of
`krealloc`. -/

/-- `krealloc` keeps what the list holds, or there is no block for the new
size, because `kmalloc` was asked for one and refused. -/
theorem Sound.krealloc (h : list.Sound) (hmem : Grants mem n) (hn : n ≠ 0) :
    (∃ b, krealloc 1 mem list.array n = some b ∧ n ≤ b.size ∧ b.size < 2 ^ 31 ∧
      (List.range list.length).map b.cell = list.contents) ∨
      (krealloc 1 mem list.array n = none ∧ mem = none ∧ list.room < n) := by
  cases harray : list.array with
  | none =>
      have hzero : list.length = 0 :=
        Nat.le_zero.mp (h.length_le.trans (h.capacity_le.trans_eq (room_of_none harray)))
      show (∃ b, mem = some b ∧ _) ∨ mem = none ∧ _
      cases hm : mem with
      | none => exact Or.inr ⟨rfl, rfl, (room_of_none harray).trans_lt (Nat.pos_of_ne_zero hn)⟩
      | some b =>
          obtain ⟨hle, hlt⟩ := hmem b hm
          refine Or.inl ⟨b, rfl, hle, hlt, ?_⟩
          rw [hzero, contents_of_length hzero, List.range_zero, List.map_nil]
  | some old =>
      by_cases hfits : n ≤ old.size ∨ mem.isSome
      · obtain ⟨b, hb, hle, hkeep, hold⟩ := krealloc_spec (b := old) 1 hn
          (fun new hnew => (hmem new hnew).1) hfits
        refine Or.inl ⟨b, hb, hle, ?_, ?_⟩
        · rcases hold with rfl | ⟨new, hnew, hsize⟩
          · exact h.size_lt harray
          · rw [hsize]
            exact (hmem new hnew).2
        · rw [contents_of_some harray]
          apply List.map_congr_left
          intro k hk
          refine hkeep k ?_
          rw [Nat.one_mul]
          exact (List.mem_range.mp hk).trans_le (h.length_le_size harray)
      · rw [not_or] at hfits
        have hnone : mem = none := Option.not_isSome_iff_eq_none.mp hfits.2
        refine Or.inr ⟨?_, hnone, (room_of_some harray).trans_lt (not_le.mp hfits.1)⟩
        show (if n = 0 then none else if n ≤ old.size then some old else _) = none
        rw [if_neg hn, if_neg hfits.1, hnone]
        rfl

/-- The capacity a push grows a full list to, as long as it has 32 bits. -/
def grown (capacity : ℕ) : ℕ := max (capacity + capacity / 4) (capacity + 2)

/-- A push of a list that is not near the limit of its 32-bit capacity.  It
grows one element early, when the last slot is about to be used. -/
theorem Sound.push_eq (h : list.Sound) (mem : Option (Block UInt8)) (x : UInt8) :
    u8aPush mem list x =
      if list.capacity = 0 ∨ list.capacity - 1 ≤ list.length then
        u8aStore ⟨list.length, grown list.capacity,
          CourseOs.krealloc 1 mem list.array (grown list.capacity)⟩ x
      else u8aStore list x := by
  have hcap : list.capacity < 2 ^ 31 := h.capacity_le.trans_lt h.room_lt
  have hgrown : list.capacity + 2 ≤ grown list.capacity := le_max_right _ _
  unfold u8aPush
  rw [Nat.mod_eq_of_lt (by omega), Nat.mod_eq_of_lt (by omega)]
  congr 1
  exact if_neg (show ¬grown list.capacity ≤ list.capacity by omega)

/-- A store within the capacity appends its byte, and keeps the list sound. -/
theorem store_sound (list : U8ArrayList) (harray : list.array = some b)
    (hlen : list.length < list.capacity)
    (hcap : list.capacity ≤ b.size) (hsize : b.size < 2 ^ 31) (x : UInt8) :
    ∃ list', u8aStore list x = .ok list' ∧ list'.Sound ∧
      list'.contents = list.contents ++ [x] := by
  obtain ⟨b', hstore, hsize', hcells⟩ := store_eq (x := x) harray (hlen.trans_le hcap) hsize
  exact ⟨_, hstore, ⟨hlen, hcap.trans_eq hsize'.symm, hsize'.trans_lt hsize⟩, hcells⟩

/-- **`u8a_push`** appends the byte, unless the list has to grow and cannot.
Then the store is through the null pointer. -/
theorem Sound.push (h : list.Sound) (hmem : Grants mem (grown list.capacity)) (x : UInt8) :
    (∃ list', u8aPush mem list x = .ok list' ∧ list'.Sound ∧
      list'.contents = list.contents ++ [x]) ∨
      (u8aPush mem list x = .error .nullDereference ∧ mem = none) := by
  have hlen := h.length_le
  have hgrown : list.capacity + 2 ≤ grown list.capacity := le_max_right _ _
  rw [h.push_eq]
  split
  · rcases h.krealloc hmem (by omega) with ⟨b, hb, hle, hlt, hcells⟩ | ⟨hb, hnone, -⟩
    · rw [hb, ← hcells]
      exact Or.inl (store_sound ⟨list.length, grown list.capacity, some b⟩ rfl
        (by dsimp only; omega) hle hlt x)
    · rw [hb]
      exact Or.inr ⟨rfl, hnone⟩
  · cases harray : list.array with
    | none =>
        have hcap := h.capacity_le.trans_eq (room_of_none harray)
        omega
    | some b =>
        exact Or.inl (store_sound list harray (by omega)
          (h.capacity_le.trans_eq (room_of_some harray)) (h.size_lt harray) x)

/-- What stores that fill a list up to its capacity have done.  The list may
be without a block when they start, as long as nothing is stored then. -/
theorem storeAll_sound (hcap : list.capacity = list.length + data.length)
    (hroom : list.capacity ≤ list.room) (hlt : list.room < 2 ^ 31)
    (h : u8aStoreAll list data = .ok list') :
    list'.Sound ∧ list'.contents = list.contents ++ data := by
  cases harray : list.array with
  | none =>
      obtain ⟨rfl, rfl⟩ := storeAll_none harray h
      exact ⟨⟨hcap.symm.le, hroom, hlt⟩, (List.append_nil _).symm⟩
  | some b =>
      rw [room_of_some harray] at hroom hlt
      obtain ⟨b', rfl, hsize, hfits, hcontents⟩ := storeAll_ok harray hlt (by omega) h
      exact ⟨⟨hcap.symm.le, hroom.trans_eq hsize.symm, hsize.trans_lt hlt⟩, hcontents⟩

/-- **`u8a_push_string`**, when it returns, has appended the string, and the
list is sound again. -/
theorem Sound.pushString (h : list.Sound)
    (hmem : Grants mem ((list.length + data.length) % 2 ^ 32))
    (hrun : u8aPushString mem list data = .ok list') :
    list'.Sound ∧ list'.contents = list.contents ++ data := by
  have hlt := h.fit.pushString_lt hmem hrun
  unfold u8aPushString at hrun
  rw [Nat.mod_eq_of_lt hlt] at hmem hrun
  have hsame : u8aResize mem list (list.length + data.length) = ⟨list.length,
      list.length + data.length,
      CourseOs.krealloc 1 mem list.array (list.length + data.length)⟩ := by
    unfold u8aResize
    rw [if_neg (by omega)]
  rw [hsame] at hrun
  by_cases hn : list.length + data.length = 0
  · obtain ⟨hzero, hnil⟩ := Nat.add_eq_zero_iff.mp hn
    obtain rfl := List.length_eq_zero_iff.mp hnil
    obtain rfl := Except.ok.inj hrun
    have hempty : list.contents = [] := contents_of_length hzero
    refine ⟨⟨le_rfl, hn.le.trans (Nat.zero_le _), ?_⟩, ?_⟩
    · refine room_lt_of_block fun b hb => ?_
      exact (h.fit.krealloc hmem hb).2
    · rw [hempty]
      exact contents_of_length hzero
  · rcases h.krealloc hmem hn with ⟨b, hb, hle, hlt, hcells⟩ | ⟨hb, -, hroom⟩
    · rw [hb] at hrun
      obtain ⟨hsound, hcontents⟩ : list'.Sound ∧ list'.contents =
          U8ArrayList.contents ⟨list.length, list.length + data.length, some b⟩ ++ data := by
        refine storeAll_sound ?_ ?_ ?_ hrun
        · rfl
        · exact hle
        · exact hlt
      refine ⟨hsound, ?_⟩
      rw [hcontents, ← hcells]
      rfl
    · rw [hb] at hrun
      obtain ⟨rfl, -⟩ := storeAll_none rfl hrun
      exact absurd (h.length_le.trans h.capacity_le) (not_le.mpr hroom)

/-- **`u8a_clone`**, when it returns, has made a list of the same bytes. -/
theorem Sound.clone (h : list.Sound) (hmem : Grants mem list.length)
    (hrun : u8aClone mem list = .ok list') : list'.Sound ∧ list'.contents = list.contents := by
  unfold u8aClone at hrun
  have hcap : (u8aCreate mem list.length).capacity =
      (u8aCreate mem list.length).length + list.contents.length := by
    rw [h.length_contents]
    exact (Nat.zero_add _).symm
  have hempty : (u8aCreate mem list.length).contents = [] := contents_of_length rfl
  cases hm : mem with
  | none =>
      rw [hm] at hrun hcap
      obtain ⟨hnil, rfl⟩ := storeAll_none rfl hrun
      rw [hnil] at hcap
      exact ⟨⟨Nat.zero_le _, hcap.le, show 0 < 2 ^ 31 by decide⟩, hnil.symm⟩
  | some b =>
      obtain ⟨hle, hlt⟩ := hmem b hm
      obtain ⟨hsound, hcontents⟩ := storeAll_sound hcap (by rw [hm]; exact hle)
        (by rw [hm]; exact hlt) hrun
      rw [hempty] at hcontents
      exact ⟨hsound, hcontents⟩

end U8ArrayList

end CourseOs
