import CourseOs.Fs.FsHeap

/-!
# What the arrays of lists hold

On the heap of the file system every array is a block of bytes, of whichever
list it is.  The lists of `ds/u8_array_list.c` and `ds/vp_array_list.c` on
their own, in `Ds.ArrayList`, have their arrays in them, and an array of
pointers there is one of numbers.  This module reads a block as such an array
(`content`, `words`), and a header with a block as such a list (`u8View`,
`vpView`).

The three ways in which an array changes on the heap are then the changes that
`Ds.ArrayList` makes: a pointer stored (`vpaStore_words`), bytes copied
(`memcpyTo_content`), and a reallocation, which moves bytes although the
elements are pointers (`exists_krealloc_words`).
-/

namespace CourseOs.Fs.FsHeap

open ByteMemory

/-- What the block of an array holds, without its address. -/
def content (array : Option (ℕ × Block UInt8)) : Option (Block UInt8) := array.map Prod.snd

/-- A block as an array of pointers, four bytes for each in the order of the
machine. -/
def words (b : Block UInt8) : Block ℕ := ⟨b.size, fun i => readWord ⟨b.cell⟩ (sizeofPointer * i)⟩

/-- A list of bytes, with what its array holds; a list without an array keeps
its length. -/
def u8View (l : ListHeader) (array : Option (ℕ × Block UInt8)) : U8ArrayList :=
  ⟨l.length, l.capacity, content array⟩

/-- A list of pointers, with what its array holds. -/
def vpView (l : ListHeader) (array : Option (ℕ × Block UInt8)) : VPArrayList :=
  ⟨l.length, l.capacity, (content array).map words⟩

/-- An array with other bytes, in the same block and of the same size. -/
def withCells (array : Option (ℕ × Block UInt8)) (f : (ℕ → UInt8) → ℕ → UInt8) :
    Option (ℕ × Block UInt8) :=
  array.map fun x => (x.1, { x.2 with cell := f x.2.cell })

/-- The pointer `data` at index `i`. -/
def pointerAt (i data : ℕ) (cell : ℕ → UInt8) : ℕ → UInt8 :=
  (writeWord ⟨cell⟩ (sizeofPointer * i) data).byte

/-- The bytes `src` from index `i` on. -/
def bytesAt (i : ℕ) (src : List UInt8) (cell : ℕ → UInt8) (j : ℕ) : UInt8 :=
  if i ≤ j then src.getD (j - i) (cell j) else cell j

variable {array : Option (ℕ × Block UInt8)} {b old new : Block UInt8} {i data n : ℕ}
  {src : List UInt8}

theorem bytesAt_nil (cell : ℕ → UInt8) : bytesAt i [] cell = cell := by
  funext j
  unfold bytesAt
  split
  · rfl
  · rfl

theorem withCells_nil : withCells array (bytesAt i []) = array := by
  unfold withCells
  simp only [bytesAt_nil]
  exact Option.map_id'

/-- **Bytes copied** to an array, where there is room for them. -/
theorem memcpyTo_content
    (hroom : src.length ≠ 0 → ∃ x, array = some x ∧ i + src.length ≤ x.2.size) :
    memcpyTo (content array) i src = .ok (content (withCells array (bytesAt i src))) := by
  unfold memcpyTo
  by_cases hnil : src.length = 0
  · rw [if_pos hnil, List.length_eq_zero_iff.mp hnil, withCells_nil]
  · obtain ⟨x, rfl, hle⟩ := hroom hnil
    rw [if_neg hnil]
    show (if i + src.length ≤ x.2.size then _ else _) = _
    rw [if_pos hle]
    rfl

/-! ### Arrays of pointers

A pointer is four bytes, and an array of pointers is read off its block word
by word.  Storing, copying and moving whole words keep this reading, so that
lists of pointers may be compared by their elements. -/

/-- Another element is the same word. -/
theorem words_pointerAt (hdata : data < 2 ^ 32) :
    words { b with cell := pointerAt i data b.cell } =
      { words b with cell := fun j => if j = i then data else (words b).cell j } := by
  unfold words pointerAt
  congr 1
  funext j
  rw [show (⟨(writeWord ⟨b.cell⟩ (sizeofPointer * i) data).byte⟩ : ByteMemory) =
      writeWord ⟨b.cell⟩ (sizeofPointer * i) data from rfl,
    readWord_writeWord (by unfold sizeofPointer; omega), Nat.mod_eq_of_lt hdata]
  by_cases hj : j = i
  · rw [if_pos (by rw [hj]), if_pos hj]
  · rw [if_neg (by unfold sizeofPointer; omega), if_neg hj]

/-- **A pointer stored**, where there is room for it: the list has it at its
end.  On the heap it is four bytes of a block, in the other model one cell. -/
theorem vpaStore_words {l : ListHeader} {x : ℕ × Block UInt8} (harray : array = some x)
    (hroom : sizeofPointer * l.length + sizeofPointer ≤ x.2.size) (hdata : data < 2 ^ 32) :
    (vpView l array).blockAt l.length = .ok (words x.2) ∧
      (content (withCells array (pointerAt l.length data))).map words =
        some { words x.2 with
          cell := fun j => if j = l.length then data else (words x.2).cell j } := by
  subst harray
  refine ⟨?_, ?_⟩
  · show (if sizeofVoidPointer * (l.length + 1) ≤ x.2.size then _ else _) = _
    exact if_pos hroom
  · exact congrArg some (words_pointerAt hdata)

/-- **A push** to a list that has room, on the heap and on its own: the same
length, the same capacity, and the same pointers in the array. -/
theorem vpaPush_view {l : ListHeader} {x : ℕ × Block UInt8} (mem : Option (Block ℕ)) (data : ℕ)
    (harray : array = some x) (hroom : sizeofPointer * l.length + sizeofPointer ≤ x.2.size)
    (hdata : data < 2 ^ 32) :
    CourseOs.vpaPush mem (vpView l array) data =
      if l.capacity ≤ (l.length + 1) % 2 ^ 32 then
        if vpaNewSize l.capacity ≤ l.capacity then .error .assertion
        else .ok ⟨(l.length + 1) % 2 ^ 32, vpaNewSize l.capacity,
          CourseOs.krealloc sizeofVoidPointer mem
            ((content (withCells array (pointerAt l.length data))).map words)
            (vpaNewSize l.capacity * sizeofVoidPointer % 2 ^ 32)⟩
      else .ok ⟨(l.length + 1) % 2 ^ 32, l.capacity,
        (content (withCells array (pointerAt l.length data))).map words⟩ := by
  obtain ⟨hblock, hstored⟩ := vpaStore_words harray hroom hdata
  unfold CourseOs.vpaPush
  rw [show (vpView l array).length = l.length from rfl, hblock, Exec.ok_bind, hstored]
  rfl

/-- The bytes of the old array, and behind them those of the new one. -/
def movedBlock (old new : Block UInt8) : Block UInt8 :=
  { new with cell := fun i => if i < old.size then old.cell i else new.cell i }

theorem krealloc_some_some (hn : n ≠ 0) (hlt : old.size < n) :
    CourseOs.krealloc 1 (some new) (some old) n = some (movedBlock old new) := by
  unfold CourseOs.krealloc movedBlock
  dsimp only
  rw [if_neg hn, if_neg (Nat.not_le.mpr hlt), Option.map_some]
  congr 2
  funext i
  rw [Nat.one_mul]
  rfl

/-- What moves with a block of bytes are its words, as far as they are all in
it. -/
theorem words_movedBlock :
    words (movedBlock old new) = { words (movedBlock old new) with
      cell := fun i => if sizeofPointer * (i + 1) ≤ old.size then (words old).cell i
        else (words (movedBlock old new)).cell i } := by
  unfold words
  congr 1
  funext i
  by_cases hi : sizeofPointer * (i + 1) ≤ old.size
  · rw [if_pos hi]
    refine readWord_congr fun x _ hx => if_pos ?_
    unfold sizeofPointer at *
    omega
  · rw [if_neg hi]

/-- **A reallocation** of an array of pointers, for some contents of a new
block that is as large as the one there is. -/
theorem exists_krealloc_words (mem ptr : Option (Block UInt8)) (n : ℕ) :
    ∃ mem', mem'.map Block.size = mem.map Block.size ∧
      (CourseOs.krealloc 1 mem ptr n).map words =
        CourseOs.krealloc sizeofVoidPointer mem' (ptr.map words) n := by
  cases ptr with
  | none => exact ⟨mem.map words, by rw [Option.map_map]; rfl, rfl⟩
  | some old =>
      unfold CourseOs.krealloc
      rw [Option.map_some]
      dsimp only
      by_cases hn : n = 0
      · simp only [if_pos hn]
        exact ⟨mem.map words, by rw [Option.map_map]; rfl, rfl⟩
      have hsize : (words old).size = old.size := rfl
      by_cases hle : n ≤ old.size
      · simp only [if_neg hn, hsize, if_pos hle]
        exact ⟨mem.map words, by rw [Option.map_map]; rfl, rfl⟩
      simp only [if_neg hn, hsize, if_neg hle]
      cases mem with
      | none => exact ⟨none, rfl, rfl⟩
      | some new =>
          refine ⟨some (words (movedBlock old new)), rfl, ?_⟩
          rw [Option.map_some, Option.map_some, Option.map_some]
          refine congrArg some (Eq.trans ?_ words_movedBlock)
          unfold movedBlock
          simp only [Nat.one_mul, Nat.succ_le_iff]

end CourseOs.Fs.FsHeap
