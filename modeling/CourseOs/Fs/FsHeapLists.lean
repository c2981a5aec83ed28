import CourseOs.Fs.FsHeapContents
import CourseOs.Lib.Outcome
import CourseOs.Lib.SymbolicHeap
import Mathlib.Tactic.Abel

/-!
# Lists on the heap of the file system

What `kmalloc`, `kfree`, `krealloc` and the routines of the two kinds of lists
do to the cells that were allocated since some heap `base` (`Holds`).  Each
routine has one lemma about a heap that is its own cells and a frame, `own +
rest`; the frame stays, and what the routine allocates, frees or loses is seen
in the sum.

## Main definitions

* `Holds base s own` — the cells of `own` are what has been allocated since
  `base`.
* `Refuses m array n` — the array cannot be made `n` bytes long: it is
  shorter, and there is no memory.
* `Reallocates m array n array' lost` — the block there is after a
  reallocation, and the one that is lost.
* `Fit`, `Slots` — the invariants of a list of bytes and of a list of
  pointers.
* `Stopped` — how a routine stops: it follows the null pointer, or writes
  behind an array.

## Main results

For most routines there are two: an `Outcome`, which says exactly when it
returns and how it stops otherwise, and a lemma about the run that has
returned.  A reallocation to more bytes than the block has loses the block
when `kmalloc` has no memory: the caller writes the null pointer over its own.
That is the only way a block gets lost, and `vpaPush` says when it happens.  A
write to a file goes the same way, but follows the null pointer at once and
stops (`u8aWrite_outcome`), unless there is nothing to write.

A list of pointers is not full between two calls (`Slots`), as `vpa_push`
grows it as soon as it is; this is why a push always has room for its pointer.
-/

namespace CourseOs.Fs.FsHeap

open SymbolicHeap

variable {base : ℕ → Option Cell} {s s' : FsHeap} {own rest : Multiset (ℕ × Cell)} {p q n : ℕ}
  {c : Cell} {m : Supply} {array : Option (ℕ × Block UInt8)} {l : ListHeader}

/-- The cells of `own` are what has been allocated since `base`. -/
def Holds (base : ℕ → Option Cell) (s : FsHeap) (own : Multiset (ℕ × Cell)) : Prop :=
  Owns base s.cells own

/-- The pointer to a block, or to none: what `kmalloc` returns for the answer
of a supply. -/
def pointer : Option (ℕ × Block UInt8) → ℕ
  | none => 0
  | some (a, _) => a

/-- The cell of a block, if there is one, as a part of the heap. -/
def blockCells : Option (ℕ × Block UInt8) → Multiset (ℕ × Cell)
  | none => 0
  | some (a, b) => {(a, .block b)}

/-- The block that a supply has for a size, with the address it is put at. -/
def Supply.granted (m : Supply) (size : ℕ) : Option (ℕ × Block UInt8) :=
  (m.block size).map fun b => (m.addr, b)

/-- The block cannot be made `n` bytes long: it has fewer, and there is no
memory for more. -/
def Refuses (m : Supply) (array : Option (ℕ × Block UInt8)) (n : ℕ) : Prop :=
  ∃ a b, array = some (a, b) ∧ b.size < n ∧ m.block n = none

/-- A reallocation to `n` bytes: the block there is afterwards, and the one
that is lost, which is not freed although there is no pointer to it any more. -/
structure Reallocates (m : Supply) (array : Option (ℕ × Block UInt8)) (n : ℕ)
    (array' lost : Option (ℕ × Block UInt8)) : Prop where
  lost_iff : lost = none ↔ ¬Refuses m array n
  left : lost = none ∨ array' = none
  room : (∀ x, array = some x → x.2.size < 2 ^ 31) →
    ∀ x, array' = some x → n ≤ x.2.size ∧ x.2.size < 2 ^ 31
  same : ∀ x, array = some x → n ≠ 0 → n ≤ x.2.size → array' = array
  new : array = none → array' = m.granted n
  granted : n ≠ 0 → m.block n ≠ none → array' ≠ none
  contents : content array' = CourseOs.krealloc 1 (m.block n) (content array) n

/-- A list of pointers with one more, when `m` has the memory for its array:
what the push does in the model of lists on their own. -/
def Pushes (m : Supply) (data : ℕ) (list list' : VPArrayList) : Prop :=
  ∃ n mem, mem.map Block.size = (m.block n).map Block.size ∧
    CourseOs.vpaPush mem list data = .ok list'

/-- A list of bytes with a capacity that its array, if there is one, has room
for.  Below 2³¹ no sum of it and a length wraps around. -/
structure Fit (l : ListHeader) (array : Option (ℕ × Block UInt8)) : Prop where
  header : l.array = pointer array
  pos : 0 < l.capacity
  lt : l.capacity < 2 ^ 31
  room : ∀ x, array = some x → l.capacity ≤ x.2.size ∧ x.2.size < 2 ^ 31

/-- A list of pointers that is not full, and whose array, if there is one, has
room for its capacity.  A list whose array is lost keeps its header, and is of
this kind too. -/
structure Slots (l : ListHeader) (array : Option (ℕ × Block UInt8)) : Prop where
  lt : l.length < l.capacity
  room : ∀ x, array = some x → sizeofPointer * l.capacity ≤ x.2.size ∧ x.2.size < 2 ^ 31

/-- How a routine of the file system stops: it follows the null pointer, or
writes behind the end of an array.  In particular it uses nothing that was
freed, and no cell of another kind. -/
def Stopped (t : Trap) : Prop := t = .nullDereference ∨ t = .outOfBounds

/-- The array has room for `n` bytes. -/
def HasRoom (array : Option (ℕ × Block UInt8)) (n : ℕ) : Prop := ∃ x, array = some x ∧ n ≤ x.2.size

/-- Where a block is, and its size: what stays when its bytes change. -/
def extent (array : Option (ℕ × Block UInt8)) : Option (ℕ × ℕ) :=
  array.map fun x => (x.1, x.2.size)

@[simp] theorem pointer_none : pointer none = 0 := rfl

@[simp] theorem pointer_some {b : Block UInt8} : pointer (some (p, b)) = p := rfl

@[simp] theorem blockCells_none : blockCells none = 0 := rfl

@[simp] theorem blockCells_some {b : Block UInt8} :
    blockCells (some (p, b)) = {(p, .block b)} := rfl

@[simp] theorem blockCells_eq_zero : blockCells array = 0 ↔ array = none := by
  cases array with
  | none => exact iff_of_true rfl rfl
  | some x => exact iff_of_false (Multiset.singleton_ne_zero _) nofun

@[simp] theorem extent_withCells (f : (ℕ → UInt8) → ℕ → UInt8) :
    extent (withCells array f) = extent array := by
  cases array with
  | none => rfl
  | some x => rfl

theorem extent_cases {array' : Option (ℕ × Block UInt8)} (h : extent array' = extent array) :
    array = none ∧ array' = none ∨
      ∃ a b b', array = some (a, b) ∧ array' = some (a, b') ∧ b'.size = b.size := by
  cases array with
  | none => exact .inl ⟨rfl, Option.map_eq_none_iff.mp h⟩
  | some x =>
      obtain ⟨⟨a', b'⟩, rfl, heq⟩ := Option.map_eq_some_iff.mp h
      obtain ⟨a, b⟩ := x
      obtain ⟨rfl, hsize⟩ := Prod.mk.inj heq
      exact .inr ⟨a', b, b', rfl, rfl, hsize⟩

theorem pointer_eq_of_extent {array' : Option (ℕ × Block UInt8)}
    (h : extent array' = extent array) : pointer array' = pointer array := by
  obtain ⟨rfl, rfl⟩ | ⟨a, b, b', rfl, rfl, -⟩ := extent_cases h <;> rfl

theorem addrs_blockCells {array' : Option (ℕ × Block UInt8)}
    (h : extent array' = extent array) : addrs (blockCells array') = addrs (blockCells array) := by
  obtain ⟨rfl, rfl⟩ | ⟨a, b, b', rfl, rfl, -⟩ := extent_cases h <;> rfl

theorem refuses_congr {array' : Option (ℕ × Block UInt8)} (h : extent array' = extent array) :
    Refuses m array' n ↔ Refuses m array n := by
  obtain ⟨rfl, rfl⟩ | ⟨a, b, b', rfl, rfl, hsize⟩ := extent_cases h
  · exact Iff.rfl
  · constructor
    · rintro ⟨_, _, heq, hlt, hnone⟩
      cases heq
      exact ⟨a, b, rfl, hsize ▸ hlt, hnone⟩
    · rintro ⟨_, _, heq, hlt, hnone⟩
      cases heq
      exact ⟨a, b', rfl, hsize.symm ▸ hlt, hnone⟩

theorem hasRoom_congr {array' : Option (ℕ × Block UInt8)} (h : extent array' = extent array) :
    HasRoom array' n ↔ HasRoom array n := by
  obtain ⟨rfl, rfl⟩ | ⟨a, b, b', rfl, rfl, hsize⟩ := extent_cases h
  · exact Iff.rfl
  · unfold HasRoom
    simp only [Option.some.injEq, exists_eq_left', hsize]

theorem content_granted {size : ℕ} : content (m.granted size) = m.block size := by
  unfold content Supply.granted
  rw [Option.map_map]
  exact Option.map_id'

/-- A block that is granted has room for what was asked for, and is there if a
supply has it. -/
theorem hasRoom_granted {size : ℕ} (hle : n ≤ size) :
    HasRoom (m.granted size) n ↔ m.block size ≠ none := by
  unfold HasRoom Supply.granted
  cases hb : m.block size with
  | none => exact iff_of_false nofun (not_not.mpr rfl)
  | some b => exact iff_of_true ⟨_, rfl, hle.trans (m.room size b hb).1⟩ nofun

namespace Reallocates

theorem ofNull : Reallocates m none n (m.granted n) none where
  lost_iff := iff_of_true rfl nofun
  left := .inl rfl
  room _ x hx := by
    obtain ⟨b, hb, rfl⟩ := Option.map_eq_some_iff.mp hx
    exact m.room n b hb
  same := nofun
  new _ := rfl
  granted _ hne hnone := hne (Option.map_eq_none_iff.mp hnone)
  contents := content_granted

variable {b : Block UInt8}

theorem toNull : Reallocates m (some (p, b)) 0 none none where
  lost_iff := by
    refine iff_of_true rfl ?_
    rintro ⟨_, _, -, hlt, -⟩
    exact absurd hlt (Nat.not_lt_zero _)
  left := .inl rfl
  room := nofun
  same _ _ hne := absurd rfl hne
  new := nofun
  granted hne := absurd rfl hne
  contents := rfl

theorem inPlace (hn : n ≠ 0) (hle : n ≤ b.size) :
    Reallocates m (some (p, b)) n (some (p, b)) none where
  lost_iff := by
    refine iff_of_true rfl ?_
    rintro ⟨_, _, heq, hlt, -⟩
    cases heq
    exact absurd hle (Nat.not_le.mpr hlt)
  left := .inl rfl
  room hsize x hx := ⟨by cases hx; exact hle, hsize x hx⟩
  same _ _ _ _ := rfl
  new := nofun
  granted _ _ := nofun
  contents := ((if_neg hn).trans (if_pos hle)).symm

theorem refused (hn : n ≠ 0) (hlt : b.size < n) (hnone : m.block n = none) :
    Reallocates m (some (p, b)) n none (some (p, b)) where
  lost_iff := iff_of_false nofun fun hno => hno ⟨p, b, rfl, hlt, hnone⟩
  left := .inr rfl
  room := nofun
  same x hx _ hle := by
    cases hx
    exact absurd hle (Nat.not_le.mpr hlt)
  new := nofun
  granted _ hne := absurd hnone hne
  contents := by
    rw [hnone]
    exact ((if_neg hn).trans (if_neg (Nat.not_le.mpr hlt))).symm

theorem moved {new : Block UInt8} (hn : n ≠ 0) (hlt : b.size < n) (hsome : m.block n = some new) :
    Reallocates m (some (p, b)) n (some (q, movedBlock b new)) none where
  lost_iff := by
    refine iff_of_true rfl ?_
    rintro ⟨_, _, -, -, hnone⟩
    cases hnone.symm.trans hsome
  left := .inl rfl
  room _ x hx := by
    cases hx
    exact m.room n new hsome
  same x hx _ hle := by
    cases hx
    exact absurd hle (Nat.not_le.mpr hlt)
  new := nofun
  granted _ _ := nofun
  contents := by
    rw [hsome]
    exact (krealloc_some_some hn hlt).symm

end Reallocates

/-- The list after a write that returned, of `len` bytes: nothing was lost.  A
write whose array was lost stops at the copy. -/
theorem Fit.write {array₂ array' lost : Option (ℕ × Block UInt8)} {i len : ℕ} (hl : Fit l array)
    (hmoved : Reallocates m array ((l.capacity + len) % 2 ^ 32) array₂ lost)
    (hextent : extent array' = extent array₂)
    (hcopied : len ≠ 0 → ∃ x, array' = some x ∧ i + len ≤ x.2.size) :
    lost = none ∧ ∀ length,
      Fit ⟨length, (l.capacity + len) % 2 ^ 32, pointer array₂⟩ array' := by
  have hlt := hl.lt
  have hpos := hl.pos
  have hroom := hmoved.room fun x hx => (hl.room x hx).2
  have hroom' : ∀ x, array' = some x →
      (l.capacity + len) % 2 ^ 32 ≤ x.2.size ∧ x.2.size < 2 ^ 31 := by
    intro x hx
    obtain ⟨-, rfl⟩ | ⟨a, b, b', harray, rfl, hsize⟩ := extent_cases hextent
    · cases hx
    · cases hx
      rw [show (a, b').2.size = b.size from hsize]
      exact hroom (a, b) harray
  by_cases hlen : len = 0
  · -- no bytes: the array has room for the capacity
    have hmod : (l.capacity + len) % 2 ^ 32 = l.capacity := by omega
    rw [hmod] at hmoved hroom' ⊢
    refine ⟨hmoved.lost_iff.mpr ?_, fun length => ⟨(pointer_eq_of_extent hextent).symm, hpos, hlt,
      hroom'⟩⟩
    rintro ⟨a, b, harray, hsize, -⟩
    exact absurd (hl.room (a, b) harray).1 (Nat.not_le.mpr hsize)
  · obtain ⟨x, hx, hle⟩ := hcopied hlen
    have hx' := hroom' x hx
    have hlost : lost = none := by
      refine hmoved.left.resolve_right ?_
      rintro rfl
      rw [hx] at hextent
      cases hextent
    exact ⟨hlost, fun length => ⟨(pointer_eq_of_extent hextent).symm, by dsimp only; omega,
      by dsimp only; omega, hroom'⟩⟩

/-- The capacity of a list with an array is far from overflow, and so is the
one it grows to. -/
theorem Slots.growth {x : ℕ × Block UInt8} (hl : Slots l array) (harray : array = some x) :
    (l.length + 1) % 2 ^ 32 = l.length + 1 ∧ l.capacity < vpaNewSize l.capacity ∧
      vpaNewSize l.capacity * sizeofPointer < 2 ^ 32 := by
  have hlt := hl.lt
  obtain ⟨hroom, hsize⟩ := hl.room x harray
  have hcap : l.capacity < 2 ^ 29 := by
    unfold sizeofPointer at hroom
    omega
  have hquarter : (l.capacity + l.capacity / 4) % 2 ^ 32 = l.capacity + l.capacity / 4 :=
    Nat.mod_eq_of_lt (by omega)
  have htwo : (l.capacity + 2) % 2 ^ 32 = l.capacity + 2 := Nat.mod_eq_of_lt (by omega)
  unfold vpaNewSize sizeofPointer
  rw [hquarter, htwo]
  omega

namespace Holds

/-! ### Cells

The heap as a sum of cells.  A routine that uses some of them finds them in
front, and leaves the rest as it was; that nothing else is allocated since
`base` is part of `Holds`, which makes a cell that is lost visible. -/

theorem congr {o : Multiset (ℕ × Cell)} (h : Holds base s own) (heq : own = o) :
    Holds base s o := heq ▸ h

theorem mem_front : (p, c) ∈ {(p, c)} + rest :=
  Multiset.mem_add.mpr (.inl (Multiset.mem_singleton_self _))

theorem ne_zero (h : Holds base s ({(p, c)} + rest)) : p ≠ 0 :=
  Owns.ne_zero h p (mem_addrs mem_front)

/-- A cell that is there can be read. -/
theorem fetch_mem {α : Type} {view : Cell → Option α} {a : α} (h : Holds base s own)
    (hmem : (p, c) ∈ own) (hview : view c = some a) : s.fetch view p = .ok a := by
  unfold FsHeap.fetch
  rw [if_neg (Owns.ne_zero h p (mem_addrs hmem)), Owns.cell h p c hmem]
  dsimp only
  rw [hview]

theorem fetch {α : Type} {a : α} (h : Holds base s ({(p, c)} + rest)) (view : Cell → Option α)
    (hview : view c = some a) : s.fetch view p = .ok a := h.fetch_mem mem_front hview

theorem put (h : Holds base s ({(p, c)} + rest)) (c' : Cell) :
    Holds base (s.put p c') ({(p, c')} + rest) := Owns.set h c'

theorem kfree (h : Holds base s ({(p, c)} + rest)) :
    ∃ s', s.kfree p = .ok s' ∧ Holds base s' rest := by
  refine ⟨{ s with cells := Function.update s.cells p none }, ?_, Owns.free h⟩
  unfold FsHeap.kfree
  rw [if_neg h.ne_zero, Owns.cell h p c mem_front]

/-- Freeing a block, or nothing. -/
theorem kfree_pointer (h : Holds base s (blockCells array + rest)) :
    ∃ s', s.kfree (pointer array) = .ok s' ∧ Holds base s' rest := by
  cases array with
  | none => exact ⟨s, if_pos rfl, h.congr (zero_add rest)⟩
  | some block => exact h.kfree

theorem kmalloc (h : Holds base s own) (hm : s.cells m.addr = none) (size : ℕ) :
    ∃ s', s.kmalloc m size = (s', pointer (m.granted size)) ∧
      Holds base s' (blockCells (m.granted size) + own) ∧
      ∀ a, a ≠ m.addr → s'.cells a = s.cells a := by
  unfold FsHeap.kmalloc Supply.granted
  cases m.block size with
  | none => exact ⟨s, rfl, h.congr (zero_add own).symm, fun _ _ => rfl⟩
  | some b =>
      exact ⟨_, rfl, Owns.alloc h m.addr_ne_zero hm _, fun a ha => Function.update_of_ne ha _ _⟩

theorem pointer_granted_eq_zero {size : ℕ} :
    pointer (m.granted size) = 0 ↔ m.block size = none := by
  unfold Supply.granted
  cases m.block size with
  | none => exact iff_of_true rfl rfl
  | some b => exact iff_of_false m.addr_ne_zero nofun

/-- What `kmalloc` returns when it is not null: a block where there was
nothing. -/
theorem kmalloc_some (h : Holds base s own) (hm : s.cells m.addr = none) {size : ℕ}
    {b : Block UInt8} (hb : m.block size = some b) :
    ∃ s', s.kmalloc m size = (s', m.addr) ∧ Holds base s' ({(m.addr, .block b)} + own) ∧
      ∀ a, a ≠ m.addr → s'.cells a = s.cells a := by
  have hgranted : m.granted size = some (m.addr, b) := by
    unfold Supply.granted
    rw [hb]
    rfl
  have hmalloc := h.kmalloc hm size
  rwa [hgranted] at hmalloc

/-! ### Arrays

`krealloc` leaves an array where it is, moves it, makes one where there was
none, or fails.  `Reallocates` collects these with what becomes of the old
block: it is freed when the array has moved, and lost when there is no memory
for the larger one. -/

/-- **`krealloc`** of an array: the heap afterwards has the new array, what is
lost, and the frame. -/
theorem krealloc (h : Holds base s (blockCells array + rest)) (hm : s.cells m.addr = none)
    (n : ℕ) :
    ∃ s' array' lost, s.krealloc m (pointer array) n = .ok (s', pointer array') ∧
      Holds base s' (blockCells array' + (blockCells lost + rest)) ∧
      Reallocates m array n array' lost := by
  unfold FsHeap.krealloc
  cases array with
  | none =>
      obtain ⟨s', hmalloc, hs', -⟩ := h.kmalloc hm n
      rw [if_pos (show pointer none = 0 from rfl), hmalloc]
      exact ⟨s', m.granted n, none, rfl, hs', .ofNull⟩
  | some block =>
      obtain ⟨a, b⟩ := block
      rw [if_neg (show pointer (some (a, b)) ≠ 0 from h.ne_zero), pointer_some,
        h.fetch Cell.toBlock rfl, Exec.ok_bind]
      by_cases hn : n = 0
      · obtain ⟨s', hfree, hs'⟩ := h.kfree
        rw [if_pos hn, hfree, Exec.ok_bind]
        refine ⟨s', none, none, rfl, hs'.congr ?_, hn ▸ .toNull⟩
        rw [blockCells_none, zero_add, zero_add]
      rw [if_neg hn]
      by_cases hle : n ≤ b.size
      · rw [if_pos hle]
        refine ⟨s, some (a, b), none, rfl, h.congr ?_, .inPlace hn hle⟩
        rw [blockCells_none, zero_add]
      rw [if_neg hle]
      cases hb : m.block n with
      | none =>
          refine ⟨s, none, some (a, b), rfl, h.congr ?_, .refused hn (Nat.not_le.mp hle) hb⟩
          rw [blockCells_none, zero_add]
      | some new =>
          have halloc : Holds base (s.put m.addr (.block (movedBlock b new))) _ :=
            Owns.alloc h m.addr_ne_zero hm _
          obtain ⟨s', hfree, hs'⟩ := Holds.kfree (halloc.congr (add_left_comm _ _ _))
          dsimp only
          rw [show Block.mk new.size (fun i => if i < b.size then b.cell i else new.cell i) =
            movedBlock b new from rfl, hfree, Exec.ok_bind]
          refine ⟨s', some (m.addr, movedBlock b new), none, rfl, hs'.congr ?_,
            .moved hn (Nat.not_le.mp hle) hb⟩
          rw [blockCells_none, zero_add]
          rfl

/-- A store to an array returns if the array has room for the pointer. -/
theorem storePointer_outcome {i data : ℕ} (h : Holds base s (blockCells array + rest)) :
    Outcome Stopped (HasRoom array (sizeofPointer * i + sizeofPointer))
      (s.storePointer (pointer array) i data) := by
  unfold FsHeap.storePointer
  cases array with
  | none => exact .stops (.inl rfl) nofun
  | some block =>
      obtain ⟨a, b⟩ := block
      rw [pointer_some, h.fetch Cell.toBlock rfl, Exec.ok_bind]
      by_cases hi : sizeofPointer * i + sizeofPointer ≤ b.size
      · rw [if_pos hi]
        exact .returns ⟨_, rfl, hi⟩
      · rw [if_neg hi]
        refine .stops (.inr rfl) ?_
        rintro ⟨x, hx, hle⟩
        cases hx
        exact hi hle

/-- A store to an array that returns. -/
theorem storePointer {i data : ℕ} (h : Holds base s (blockCells array + rest))
    (hrun : s.storePointer (pointer array) i data = .ok s') :
    Holds base s' (blockCells (withCells array (pointerAt i data)) + rest) := by
  unfold FsHeap.storePointer at hrun
  cases array with
  | none => cases hrun
  | some block =>
      obtain ⟨a, b⟩ := block
      rw [pointer_some, h.fetch Cell.toBlock rfl, Exec.ok_bind] at hrun
      by_cases hi : sizeofPointer * i + sizeofPointer ≤ b.size
      · rw [if_pos hi] at hrun
        cases hrun
        exact h.put (.block _)
      · rw [if_neg hi] at hrun
        cases hrun

/-- A copy returns if there is nothing to copy, or room for it. -/
theorem memcpy_outcome {i : ℕ} {src : List UInt8} (h : Holds base s (blockCells array + rest)) :
    Outcome Stopped (src.length = 0 ∨ HasRoom array (i + src.length))
      (s.memcpy (pointer array) i src) := by
  unfold FsHeap.memcpy
  by_cases hnil : src.length = 0
  · rw [if_pos hnil]
    exact .returns (.inl hnil)
  rw [if_neg hnil]
  cases array with
  | none => exact .stops (.inl rfl) fun hor => hor.elim hnil nofun
  | some block =>
      obtain ⟨a, b⟩ := block
      rw [pointer_some, h.fetch Cell.toBlock rfl, Exec.ok_bind]
      by_cases hi : i + src.length ≤ b.size
      · rw [if_pos hi]
        exact .returns (.inr ⟨_, rfl, hi⟩)
      · rw [if_neg hi]
        refine .stops (.inr rfl) ?_
        rintro (hzero | ⟨x, hx, hle⟩)
        · exact hnil hzero
        · cases hx
          exact hi hle

/-- A copy to a block that returns: the bytes are there, and there was room
for them. -/
theorem memcpy {i : ℕ} {src : List UInt8} (h : Holds base s (blockCells array + rest))
    (hrun : s.memcpy (pointer array) i src = .ok s') :
    Holds base s' (blockCells (withCells array (bytesAt i src)) + rest) ∧
      (src.length ≠ 0 → HasRoom array (i + src.length)) := by
  unfold FsHeap.memcpy at hrun
  by_cases hnil : src.length = 0
  · rw [if_pos hnil] at hrun
    cases hrun
    rw [List.length_eq_zero_iff.mp hnil, withCells_nil]
    exact ⟨h, fun hne => absurd rfl hne⟩
  rw [if_neg hnil] at hrun
  cases array with
  | none => cases hrun
  | some block =>
      obtain ⟨a, b⟩ := block
      rw [pointer_some, h.fetch Cell.toBlock rfl, Exec.ok_bind] at hrun
      by_cases hi : i + src.length ≤ b.size
      · rw [if_pos hi] at hrun
        cases hrun
        exact ⟨h.put (.block _), fun _ => ⟨_, rfl, hi⟩⟩
      · rw [if_neg hi] at hrun
        cases hrun

/-! ### Lists of pointers

A push stores first.  So it returns whenever the list has an array, and what
the refusal of a larger one costs is seen only at the next push. -/

/-- **`vpa_push`** returns if the list has an array.  The element is stored
before the list grows, and there is always a slot for it, so that a list that
lost its array stops the next push and nothing else does. -/
theorem vpaPush_outcome {data : ℕ} (h : Holds base s ({(q, .vp l)} + (blockCells array + rest)))
    (hl : l.array = pointer array) (hslots : Slots l array) (hm : s.cells m.addr = none) :
    Outcome Stopped (array ≠ none) (s.vpaPush m q data) := by
  unfold FsHeap.vpaPush
  rw [h.fetch Cell.toVp rfl, Exec.ok_bind, hl]
  have harray := h.congr (add_left_comm _ _ _)
  refine (harray.storePointer_outcome.bind_ok fun s₁ hstore => ?_).congr ?_
  · obtain ⟨x, hx, -⟩ := harray.storePointer_outcome.of_ok hstore
    obtain ⟨hlength, hgrows, -⟩ := hslots.growth hx
    have h₁ := harray.storePointer hstore
    have hextent : extent (withCells array (pointerAt l.length data)) = extent array :=
      extent_withCells _
    have hm₁ : s₁.cells m.addr = none := by
      refine (Owns.none_iff h₁).mpr ?_
      rw [addrs_add, addrs_blockCells hextent, ← addrs_add]
      exact (Owns.none_iff harray).mp hm
    obtain ⟨s₂, array₂, lost, hrealloc, -⟩ := h₁.krealloc hm₁
      (vpaNewSize l.capacity * sizeofPointer % 2 ^ 32)
    dsimp only
    split
    · exact ⟨_, rfl⟩
    · rw [if_neg (Nat.not_le.mpr hgrows), ← pointer_eq_of_extent hextent, hrealloc]
      exact ⟨_, rfl⟩
  · constructor
    · rintro ⟨x, hx, -⟩
      rw [hx]
      exact nofun
    · intro hne
      obtain ⟨x, hx⟩ := Option.ne_none_iff_exists'.mp hne
      obtain ⟨hroom, -⟩ := hslots.room x hx
      have hlt := hslots.lt
      refine ⟨x, hx, ?_⟩
      unfold sizeofPointer at *
      omega

/-- **`vpa_push`** loses the array exactly when it has to grow and `kmalloc`
refuses.  The list with what its array holds is the one that is pushed to on
its own. -/
theorem vpaPush {data : ℕ} (h : Holds base s ({(q, .vp l)} + (blockCells array + rest)))
    (hl : l.array = pointer array) (hslots : Slots l array) (hm : s.cells m.addr = none)
    (hrun : s.vpaPush m q data = .ok s') :
    ∃ l' array' lost, l'.array = pointer array' ∧ Slots l' array' ∧
      Holds base s' ({(q, .vp l')} + (blockCells array' + (blockCells lost + rest))) ∧
      (lost = none ↔ ¬(l.capacity ≤ (l.length + 1) % 2 ^ 32 ∧
        Refuses m array (vpaNewSize l.capacity * sizeofPointer % 2 ^ 32))) ∧
      (data < 2 ^ 32 → Pushes m data (vpView l array) (vpView l' array')) := by
  obtain ⟨x, hx⟩ := Option.ne_none_iff_exists'.mp ((h.vpaPush_outcome hl hslots hm).of_ok hrun)
  obtain ⟨hlength, hgrows, hbytes⟩ := hslots.growth hx
  unfold FsHeap.vpaPush at hrun
  rw [h.fetch Cell.toVp rfl, Exec.ok_bind, hl] at hrun
  obtain ⟨s₁, hstore, hrun⟩ := Exec.bind_eq_ok.mp hrun
  have h₁ := (h.congr (add_left_comm _ _ _)).storePointer hstore
  have hroom : sizeofPointer * l.length + sizeofPointer ≤ x.2.size := by
    have hroom := (hslots.room x hx).1
    have hlt := hslots.lt
    unfold sizeofPointer at *
    omega
  have hview := fun mem => vpaPush_view mem data hx hroom
  have hextent : extent (withCells array (pointerAt l.length data)) = extent array :=
    extent_withCells _
  generalize withCells array (pointerAt l.length data) = array₁ at *
  have hpointer : pointer array₁ = pointer array := pointer_eq_of_extent hextent
  have hsize : ∀ y, array₁ = some y → y.2.size = x.2.size := by
    intro y hy
    obtain ⟨-, hnone⟩ | ⟨a, b, b', harray, harray', hsize⟩ := extent_cases hextent
    · cases hnone.symm.trans hy
    · cases harray.symm.trans hx
      cases harray'.symm.trans hy
      exact hsize
  dsimp only at hrun
  by_cases hlt : (l.length + 1) % 2 ^ 32 < l.capacity
  · rw [if_pos hlt] at hrun
    cases hrun
    have h' := Holds.put (h₁.congr (add_left_comm _ _ _))
      (.vp ⟨(l.length + 1) % 2 ^ 32, l.capacity, pointer array⟩)
    refine ⟨⟨(l.length + 1) % 2 ^ 32, l.capacity, pointer array⟩, array₁, none, hpointer.symm,
      ⟨hlt, fun y hy => ?_⟩, h'.congr ?_, ?_, fun hdata => ?_⟩
    · rw [hsize y hy]
      exact hslots.room x hx
    · rw [blockCells_none, zero_add]
    · exact iff_of_true rfl fun hno => absurd hlt (Nat.not_lt.mpr hno.1)
    · refine ⟨0, (m.block 0).map words, by rw [Option.map_map]; rfl, (hview _ hdata).trans ?_⟩
      exact if_neg (Nat.not_le.mpr hlt)
  rw [if_neg hlt, if_neg (Nat.not_le.mpr hgrows)] at hrun
  have hm₁ : s₁.cells m.addr = none := by
    have hm := (Owns.none_iff h).mp hm
    refine (Owns.none_iff h₁).mpr ⟨hm.1, ?_⟩
    rw [addrs_add, addrs_add, addrs_blockCells hextent, ← addrs_add, ← addrs_add,
      add_left_comm]
    exact hm.2
  obtain ⟨s₂, array₂, lost, hrealloc, h₂, hmoved⟩ := h₁.krealloc hm₁
    (vpaNewSize l.capacity * sizeofPointer % 2 ^ 32)
  rw [← hpointer, hrealloc, Exec.ok_bind] at hrun
  cases hrun
  have h' := Holds.put (h₂.congr (o := {(q, .vp l)} + (blockCells array₂ +
    (blockCells lost + rest))) (by abel))
    (.vp ⟨(l.length + 1) % 2 ^ 32, vpaNewSize l.capacity, pointer array₂⟩)
  refine ⟨⟨_, _, pointer array₂⟩, array₂, lost, rfl, ⟨?_, fun y hy => ?_⟩, h',
    hmoved.lost_iff.trans (not_congr ?_), fun hdata => ?_⟩
  · -- the list was full up to its last place
    have hlast := hslots.lt
    dsimp only
    omega
  · have hroom := hmoved.room (fun z hz => (hsize z hz).symm ▸ (hslots.room x hx).2) y hy
    rw [Nat.mod_eq_of_lt hbytes, Nat.mul_comm] at hroom
    exact hroom
  · rw [refuses_congr hextent]
    exact (and_iff_right (Nat.not_lt.mp hlt)).symm
  · obtain ⟨mem, hmem, hwords⟩ := exists_krealloc_words
      (m.block (vpaNewSize l.capacity * sizeofPointer % 2 ^ 32)) (content array₁)
      (vpaNewSize l.capacity * sizeofPointer % 2 ^ 32)
    refine ⟨_, mem, hmem, (hview mem hdata).trans ?_⟩
    rw [if_pos (Nat.not_lt.mp hlt), if_neg (Nat.not_le.mpr hgrows), ← hwords, ← hmoved.contents]
    rfl

/-- `vpa_free` frees the list and its array. -/
theorem vpaFree (h : Holds base s ({(q, .vp l)} + (blockCells array + rest)))
    (hl : l.array = pointer array) :
    ∃ s', s.vpaFree q = .ok s' ∧ Holds base s' rest := by
  obtain ⟨s₁, hfree, h₁⟩ := (h.congr (add_left_comm _ _ _)).kfree_pointer
  obtain ⟨s', hfree', h'⟩ := h₁.kfree
  refine ⟨s', ?_, h'⟩
  unfold FsHeap.vpaFree
  rw [h.fetch Cell.toVp rfl, Exec.ok_bind, hl, hfree, Exec.ok_bind, hfree']

/-! ### Lists of either kind

Both kinds of lists have the same header and are made in the same way.  The
header is written without a test, and the array may be missing. -/

/-- A new list with its array, if there was memory for that. -/
theorem createList {make : ℕ → Cell} {list arr : Supply} {bytes : ℕ} (h : Holds base s own)
    (hlist : s.cells list.addr = none) (harr : s.cells arr.addr = none)
    (hne : arr.addr ≠ list.addr) (hrun : s.createList make list arr bytes = .ok (s', p)) :
    p = list.addr ∧ Holds base s' ({(p, make (pointer (arr.granted bytes)))} +
      (blockCells (arr.granted bytes) + own)) := by
  unfold FsHeap.createList at hrun
  cases hb : list.block sizeofArrayList with
  | none =>
      obtain ⟨s₁, hmalloc, -⟩ := h.kmalloc hlist sizeofArrayList
      rw [hmalloc, pointer_granted_eq_zero.mpr hb] at hrun
      cases hrun
  | some b =>
      obtain ⟨s₁, hmalloc, h₁, hframe⟩ := h.kmalloc_some hlist hb
      obtain ⟨s₂, hmalloc', h₂, -⟩ := h₁.kmalloc ((hframe _ hne).trans harr) bytes
      rw [hmalloc] at hrun
      dsimp only at hrun
      rw [hmalloc'] at hrun
      dsimp only at hrun
      rw [if_neg list.addr_ne_zero] at hrun
      cases hrun
      exact ⟨rfl, Holds.put (h₂.congr (add_left_comm _ _ _)) _⟩

/-- A new list is written if there is memory for its header. -/
theorem createList_outcome {make : ℕ → Cell} {list arr : Supply} {bytes : ℕ} :
    Outcome Stopped (list.block sizeofArrayList ≠ none) (s.createList make list arr bytes) := by
  unfold FsHeap.createList FsHeap.kmalloc
  cases hb : list.block sizeofArrayList with
  | none =>
      dsimp only
      rw [if_pos rfl]
      exact .stops (.inl rfl) (not_not.mpr rfl)
  | some b =>
      dsimp only
      rw [if_neg list.addr_ne_zero]
      exact .returns nofun

/-! ### Lists of bytes

A write resizes the list and copies after that.  If the array has been lost,
the copy goes to the null pointer; a write that returns has lost nothing. -/

/-- `u8a_free` frees the list, and the array if there is a capacity. -/
theorem u8aFree (h : Holds base s ({(q, .u8 l)} + (blockCells array + rest)))
    (hl : l.array = pointer array) (hpos : 0 < l.capacity) :
    ∃ s', s.u8aFree q = .ok s' ∧ Holds base s' rest := by
  obtain ⟨s₁, hfree, h₁⟩ := (h.congr (add_left_comm _ _ _)).kfree_pointer
  obtain ⟨s', hfree', h'⟩ := h₁.kfree
  refine ⟨s', ?_, h'⟩
  unfold FsHeap.u8aFree
  rw [h.fetch Cell.toU8 rfl, Exec.ok_bind, if_neg (Nat.ne_of_gt hpos), hl, hfree]
  exact hfree'

/-- `u8a_resize`: the list with its array is the one that is resized on its
own.  An array that had to move and could not is among the cells still, as
`lost`. -/
theorem u8aResize (h : Holds base s ({(q, .u8 l)} + (blockCells array + rest)))
    (hl : l.array = pointer array) (hm : s.cells m.addr = none) (n : ℕ) :
    ∃ s' length array' lost, s.u8aResize m q n = .ok s' ∧
      Holds base s' ({(q, .u8 ⟨length, n, pointer array'⟩)} +
        (blockCells array' + (blockCells lost + rest))) ∧
      Reallocates m array n array' lost ∧
      u8View ⟨length, n, pointer array'⟩ array' =
        CourseOs.u8aResize (m.block n) (u8View l array) n := by
  obtain ⟨s₁, array', lost, hrealloc, h₁, hmoved⟩ :=
    (h.congr (add_left_comm _ _ _)).krealloc hm n
  have h₂ := h₁.congr (o := {(q, .u8 l)} + (blockCells array' + (blockCells lost + rest)))
    (by abel)
  refine ⟨_, if n < l.length then n else l.length, array', lost, ?_, h₂.put _, hmoved, ?_⟩
  · unfold FsHeap.u8aResize
    rw [h.fetch Cell.toU8 rfl, Exec.ok_bind, hl, hrealloc, Exec.ok_bind]
  · unfold u8View
    rw [hmoved.contents]
    rfl

/-- **A write** returns if there is nothing to write, if the array has room,
or if there is memory for a larger one.  Otherwise the copy follows the null
pointer that `u8a_resize` has left. -/
theorem u8aWrite_outcome {α : Type} {i : ℕ} {src : List UInt8} {k : ListHeader → FsHeap → Exec α}
    (h : Holds base s ({(q, .u8 l)} + (blockCells array + rest))) (hl : Fit l array)
    (hm : s.cells m.addr = none) (hi : i ≤ l.capacity) (hk : ∀ l s, ∃ a, k l s = .ok a) :
    Outcome Stopped (src.length = 0 ∨ HasRoom array (l.capacity + src.length) ∨
        m.block (l.capacity + src.length) ≠ none) (do
      let s ← s.u8aResize m q ((l.capacity + src.length) % 2 ^ 32)
      let l ← s.fetch Cell.toU8 q
      let s ← s.memcpy l.array i src
      k l s) := by
  obtain ⟨s₁, length, array₁, lost, hresize, h₁, hmoved, -⟩ :=
    h.u8aResize hl.header hm ((l.capacity + src.length) % 2 ^ 32)
  rw [hresize, Exec.ok_bind, h₁.fetch Cell.toU8 rfl, Exec.ok_bind]
  have hsize := fun x hx => (hl.room x hx).2
  refine ((h₁.congr (add_left_comm _ _ _)).memcpy_outcome.bind_ok fun s₂ _ => hk _ s₂).congr
    (or_congr_right' fun hlen => ?_)
  have hroom := hmoved.room hsize
  have hpos := hl.pos
  constructor
  · rintro ⟨x, rfl, hx⟩
    have hx' := hroom x rfl
    have hlt : l.capacity + src.length < 2 ^ 32 := by
      have := hl.lt
      omega
    rw [Nat.mod_eq_of_lt hlt] at hmoved
    -- what there is now was there before, or is new
    by_contra hno
    obtain ⟨hsmall, hnone⟩ := not_or.mp hno
    have hnone := not_not.mp hnone
    cases array with
    | none =>
        have hgone := hmoved.new rfl
        unfold Supply.granted at hgone
        rw [hnone] at hgone
        cases hgone
    | some block =>
        have hlost : lost ≠ none := by
          refine mt hmoved.lost_iff.mp (not_not.mpr ⟨block.1, block.2, rfl, ?_, hnone⟩)
          exact not_le.mp fun hle => hsmall ⟨block, rfl, hle⟩
        exact absurd (hmoved.left.resolve_left hlost) nofun
  · intro hor
    have hlt : l.capacity + src.length < 2 ^ 31 := by
      rcases hor with ⟨x, hx, hle⟩ | hne
      · exact hle.trans_lt (hsize x hx)
      · obtain ⟨b, hb⟩ := Option.ne_none_iff_exists'.mp hne
        obtain ⟨hle, hb⟩ := m.room _ b hb
        exact hle.trans_lt hb
    rw [Nat.mod_eq_of_lt (hlt.trans (by decide))] at hmoved hroom
    have hsome : array₁ ≠ none := by
      rcases hor with ⟨x, hx, hle⟩ | hne
      · rw [hmoved.same x hx (by omega) hle, hx]
        exact nofun
      · exact hmoved.granted (by omega) hne
    obtain ⟨x, hx⟩ := Option.ne_none_iff_exists'.mp hsome
    exact ⟨x, hx, (Nat.add_le_add_right hi _).trans (hroom x hx).1⟩

/-- **A write** that returns, after a `u8a_resize` by the length of what is
copied, loses nothing: had the array been lost, the copy would not have
returned. -/
theorem u8aWrite {i : ℕ} {src : List UInt8} {s₁ : FsHeap} {l₁ : ListHeader}
    (h : Holds base s ({(q, .u8 l)} + (blockCells array + rest))) (hl : Fit l array)
    (hm : s.cells m.addr = none)
    (hresize : s.u8aResize m q ((l.capacity + src.length) % 2 ^ 32) = .ok s₁)
    (hl₁ : s₁.fetch Cell.toU8 q = .ok l₁) (hcopy : s₁.memcpy l₁.array i src = .ok s') :
    ∃ array' resized, Holds base s' ({(q, .u8 l₁)} + (blockCells array' + rest)) ∧
      Fit l₁ array' ∧ l₁.capacity = (l.capacity + src.length) % 2 ^ 32 ∧ src.length < 2 ^ 31 ∧
      resized = CourseOs.u8aResize (m.block ((l.capacity + src.length) % 2 ^ 32))
        (u8View l array) ((l.capacity + src.length) % 2 ^ 32) ∧
      memcpyTo resized.array i src = .ok (content array') ∧
      u8View l₁ array' = { resized with array := content array' } := by
  obtain ⟨s₂, length, array₂, lost, hrun, h₂, hmoved, hview⟩ :=
    h.u8aResize hl.header hm ((l.capacity + src.length) % 2 ^ 32)
  cases hrun.symm.trans hresize
  rw [h₂.fetch Cell.toU8 rfl] at hl₁
  cases hl₁
  obtain ⟨h', hcopied⟩ := (h₂.congr (add_left_comm _ _ _)).memcpy hcopy
  have hextent : extent (withCells array₂ (bytesAt i src)) = extent array₂ := extent_withCells _
  have hbytes := memcpyTo_content hcopied
  generalize withCells array₂ (bytesAt i src) = array' at *
  have hcopied' := fun hlen => (hasRoom_congr hextent).mpr (hcopied hlen)
  obtain ⟨rfl, hfit⟩ := hl.write hmoved hextent hcopied'
  refine ⟨array', _, h'.congr ?_, hfit length, rfl, ?_, rfl, ?_, ?_⟩
  · rw [blockCells_none]
    abel
  · by_contra hge
    obtain ⟨x, hx, hle⟩ := hcopied' (by omega)
    have hsize := ((hfit length).room x hx).2
    omega
  · rw [← hview]
    exact hbytes
  · rw [← hview]
    rfl

end Holds

end CourseOs.Fs.FsHeap
