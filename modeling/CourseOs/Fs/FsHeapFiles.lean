import CourseOs.Fs.Session

/-!
# Open files on the heap

`tmpfs_open_file`, `tmpfs_write_file` and `tmpfs_close_file`, for a file whose
inode is a node (`Fs.FsHeapNodes`).  Each routine gets one lemma, which says
what it leaves of the cells that it starts from, and which values it writes
there; `Holds.tmpfsWriteFile` says also that the bytes and the list of the
file are what `u8a_resize` and `memcpy` make of them in the model of the lists
on their own.

A handle stands within the capacity of its file (`Node.Opens`).  A write grows
the capacity by as much as it writes before it copies, so the copy has room
whenever there is an array, and the new position is within the new capacity:
the write stops only where there is no array.

## What a session is asked

The last section reads off the cells what a session is asked about them.
Whether a directory's list can grow, whether it has an array at all, and
whether a write is refused are conditions on the heap (`FsHeap.GrowthRefused`,
`ArrayMissing`, `WriteRefused`), stated in terms of what is in its cells, and
each is one on the node that is there.
-/

namespace CourseOs.Fs

open FsHeap SymbolicHeap

variable {base : ℕ → Option Cell} {h h' : FsHeap} {s s' : Session} {rest : Multiset (ℕ × Cell)}
  {fsTmpfs v p hd : ℕ} {m grow : Supply} {n n' t : Node} {e : Entry} {ns l r : List Node}
  {err err' : VfsErr} {f : File}

/-! ### Open files

A handle leads to an entry and from there to an inode, which may be a
directory's as far as these routines care.  Only the reference count of the
inode is written when a file is opened or closed; a write changes the list of
the inode and the position of the handle. -/

/-- The node with another count of references. -/
def FsHeap.Node.withRefcount (n : Node) (refcount : ℕ) : Node :=
  { n with inode := { n.inode with refcount } }

@[simp] theorem FsHeap.Node.withRefcount_addr (n : Node) {refcount : ℕ} :
    (n.withRefcount refcount).addr = n.addr := rfl

@[simp] theorem FsHeap.Node.withRefcount_entry (n : Node) {refcount : ℕ} :
    (n.withRefcount refcount).entry = n.entry := rfl

theorem FsHeap.Node.withRefcount_view (n : Node) {refcount : ℕ} :
    (n.withRefcount refcount).view = { n.view with refcount } := rfl

/-- The file was opened on the inode of this node; on a file, its position is
within the capacity, which writes only increase. -/
structure FsHeap.Node.Opens (n : Node) (f : File) : Prop where
  dentry : f.dentry = n.entry.addr
  position : n.inode.inodeType = .file → f.filePosition ≤ n.list.capacity

/-- The bytes of a file after a write of `buf` at position `i`, when `kmalloc`
answered `mem`: the list resized by the number of bytes, and the bytes copied
to it.  Its length is the new position. -/
def FsHeap.Writes (mem : Option (Block UInt8)) (i : ℕ) (buf : List UInt8)
    (list list' : U8ArrayList) : Prop :=
  ∃ block, memcpyTo (CourseOs.u8aResize mem list ((list.capacity + buf.length) % 2 ^ 32)).array i
      buf = .ok block ∧
    list' = { CourseOs.u8aResize mem list ((list.capacity + buf.length) % 2 ^ 32) with
      array := block, length := (i + buf.length) % 2 ^ 32 }

namespace FsHeap.Holds

/-- The cells of a node, the inode first. -/
theorem inode_front (h : Holds base h' (n.cells + rest)) :
    Holds base h' ({(n.addr, .inode n.inode)} + (n.entry.cells +
      ({(n.inode.data, listCell n.inode.inodeType n.list)} + (blockCells n.array + rest)))) := by
  refine h.congr ?_
  unfold Node.cells
  abel

/-- The reference count of a node written. -/
theorem put_refcount (hn : Holds base h (n.cells + rest)) (refcount : ℕ) :
    Holds base (h.put n.addr (.inode { n.inode with refcount }))
      ((n.withRefcount refcount).cells + rest) := by
  refine (hn.inode_front.put _).congr ?_
  rw [show (n.withRefcount refcount).cells = {(n.addr, .inode { n.inode with refcount })} +
    (n.entry.cells + ({(n.inode.data, listCell n.inode.inodeType n.list)} + blockCells n.array))
    from rfl]
  abel

/-- `tmpfs_open_file` of the inode of a node: nothing, where there is no
memory, or an open file at position 0 and one reference more. -/
theorem tmpfsOpenFile {file : ℕ} (hn : Holds base h (n.cells + rest))
    (hm : h.cells m.addr = none)
    (hrun : h.tmpfsOpenFile m n.addr err = .ok (h', file, err')) :
    file = 0 ∧ h' = h ∨ file ≠ 0 ∧
      Holds base h' ({(file, .file ⟨n.inode.direntry, 0⟩)} +
        ((n.withRefcount ((n.inode.refcount + 1) % 2 ^ 32)).cells + rest)) := by
  unfold FsHeap.tmpfsOpenFile at hrun
  cases hblock : m.block sizeofFile with
  | none =>
      obtain ⟨h₁, hmalloc, -⟩ := hn.kmalloc hm sizeofFile
      have hsame : h.kmalloc m sizeofFile = (h, 0) := by
        unfold FsHeap.kmalloc
        rw [hblock]
      rw [hsame] at hrun
      cases hrun
      exact .inl ⟨rfl, rfl⟩
  | some block =>
      obtain ⟨h₁, hmalloc, h₂, -⟩ := hn.kmalloc_some hm hblock
      rw [hmalloc] at hrun
      dsimp only at hrun
      have hcells := h₂.congr (add_left_comm _ _ _)
      rw [if_neg m.addr_ne_zero, hcells.inode_front.fetch Cell.toInode rfl,
        Exec.ok_bind] at hrun
      cases hrun
      exact .inr ⟨m.addr_ne_zero,
        Holds.put ((hcells.put_refcount _).congr (add_left_comm _ _ _)) _⟩

/-- An open returns, whether or not there is memory for the file. -/
theorem tmpfsOpenFile_returns (err : VfsErr) (hn : Holds base h (n.cells + rest))
    (hm : h.cells m.addr = none) : ∃ r, h.tmpfsOpenFile m n.addr err = .ok r := by
  unfold FsHeap.tmpfsOpenFile
  cases hblock : m.block sizeofFile with
  | none =>
      obtain ⟨h₁, hmalloc, -⟩ := hn.kmalloc hm sizeofFile
      rw [hmalloc, pointer_granted_eq_zero.mpr hblock]
      exact ⟨_, rfl⟩
  | some block =>
      obtain ⟨h₁, hmalloc, h₂, -⟩ := hn.kmalloc_some hm hblock
      rw [hmalloc]
      dsimp only
      rw [if_neg m.addr_ne_zero,
        (h₂.congr (add_left_comm _ _ _)).inode_front.fetch Cell.toInode rfl]
      exact ⟨_, rfl⟩

/-- Where an open file leads: to an entry, and from there to the inode. -/
theorem fetch_file {fp : ℕ} (hf : Holds base h ({(fp, .file f)} + (n.cells + rest)))
    (hdentry : f.dentry = n.entry.addr) (hn : n.Sound fsTmpfs v) :
    h.fetch Cell.toFile fp = .ok f ∧ h.fetch Cell.toDirentry f.dentry = .ok n.entry.direntry ∧
      h.fetch Cell.toInode n.entry.direntry.inode = .ok n.inode := by
  refine ⟨hf.fetch _ rfl, ?_, ?_⟩
  · rw [hdentry]
    exact hf.fetch_mem (c := .direntry n.entry.direntry) (by simp [Node.direntry_mem_cells]) rfl
  · rw [hn.back]
    exact hf.fetch_mem (c := .inode n.inode) (by simp [Node.inode_mem_cells]) rfl

theorem openedInode {fp : ℕ} (hf : Holds base h ({(fp, .file f)} + (n.cells + rest)))
    (hdentry : f.dentry = n.entry.addr) (hn : n.Sound fsTmpfs v) :
    h.openedInode fp = .ok n.inode := by
  obtain ⟨hfile, hentry, hinode⟩ := hf.fetch_file hdentry hn
  unfold FsHeap.openedInode
  rw [hfile, Exec.ok_bind, hentry, Exec.ok_bind, hinode]

theorem tmpfsCloseFile {fp : ℕ} (hf : Holds base h ({(fp, .file f)} + (n.cells + rest)))
    (hdentry : f.dentry = n.entry.addr) (hn : n.Sound fsTmpfs v) :
    ∃ h', h.tmpfsCloseFile fp = .ok h' ∧
      Holds base h' ((n.withRefcount (sub32 n.inode.refcount 1)).cells + rest) := by
  obtain ⟨hfile, hentry, hinode⟩ := hf.fetch_file hdentry hn
  have h₁ := (hf.congr (add_left_comm _ _ _)).put_refcount (sub32 n.inode.refcount 1)
  obtain ⟨h', hfree, h₂⟩ := (h₁.congr (add_left_comm _ _ _)).kfree
  refine ⟨h', ?_, h₂⟩
  unfold FsHeap.tmpfsCloseFile
  rw [hfile, Exec.ok_bind, hentry, Exec.ok_bind, hinode, Exec.ok_bind, hn.back]
  exact hfree

/-- The list of a file among the cells, in front of all others, as a resize
needs it. -/
theorem list_of_file (htype : n.inode.inodeType = .file) {fp : ℕ} :
    ({(fp, .file f)} : Multiset (ℕ × Cell)) + (n.cells + rest) =
      {(n.inode.data, .u8 n.list)} + (blockCells n.array +
        ({(n.addr, .inode n.inode)} + (n.entry.cells + ({(fp, .file f)} + rest)))) := by
  unfold Node.cells
  rw [htype, show listCell .file n.list = .u8 n.list from rfl]
  abel

/-- **A write** to a file returns if there is nothing to write, or room for
it, or memory; else it follows a null pointer. -/
theorem tmpfsWriteFile_outcome {fp : ℕ} (buf : List UInt8)
    (hf : Holds base h ({(fp, .file f)} + (n.cells + rest))) (hn : n.Sound fsTmpfs v)
    (htype : n.inode.inodeType = .file) (hopen : n.Opens f) (hm : h.cells m.addr = none) :
    Outcome Stopped (buf.length = 0 ∨ HasRoom n.array (n.list.capacity + buf.length) ∨
      m.block (n.list.capacity + buf.length) ≠ none) (h.tmpfsWriteFile m fp buf) := by
  obtain ⟨hfile, hentry, hinode⟩ := hf.fetch_file hopen.dentry hn
  have hlist := hf.congr (list_of_file htype)
  unfold FsHeap.tmpfsWriteFile
  rw [hfile, Exec.ok_bind, hentry, Exec.ok_bind, hinode, Exec.ok_bind,
    hlist.fetch Cell.toU8 rfl, Exec.ok_bind]
  exact hlist.u8aWrite_outcome (hn.fit htype) hm (hopen.position htype) fun l s => ⟨_, rfl⟩

/-- **A write** that returns loses nothing, and leaves the position within the
capacity.  Its bytes are those of the list model. -/
theorem tmpfsWriteFile {fp count : ℕ} {buf : List UInt8}
    (hf : Holds base h ({(fp, .file f)} + (n.cells + rest))) (hn : n.Sound fsTmpfs v)
    (htype : n.inode.inodeType = .file) (hopen : n.Opens f) (hm : h.cells m.addr = none)
    (hrun : h.tmpfsWriteFile m fp buf = .ok (h', count)) :
    ∃ position list array, (n.withList list array).Sound fsTmpfs v ∧
      n.list.capacity ≤ list.capacity ∧ position ≤ list.capacity ∧
      position = (f.filePosition + buf.length) % 2 ^ 32 ∧ count = buf.length ∧
      Writes (m.block ((n.list.capacity + buf.length) % 2 ^ 32)) f.filePosition buf
        (u8View n.list n.array) (u8View list array) ∧
      Holds base h' ({(fp, .file { f with filePosition := position })} +
        ((n.withList list array).cells + rest)) := by
  obtain ⟨hfile, hentry, hinode⟩ := hf.fetch_file hopen.dentry hn
  have hlist := hf.congr (list_of_file htype)
  have hfit := hn.fit htype
  unfold FsHeap.tmpfsWriteFile at hrun
  rw [hfile, Exec.ok_bind, hentry, Exec.ok_bind, hinode, Exec.ok_bind,
    hlist.fetch Cell.toU8 rfl, Exec.ok_bind] at hrun
  obtain ⟨h₁, hresize, hrun⟩ := Exec.bind_eq_ok.mp hrun
  obtain ⟨l₁, hl₁, hrun⟩ := Exec.bind_eq_ok.mp hrun
  obtain ⟨h₂, hcopy, hrun⟩ := Exec.bind_eq_ok.mp hrun
  obtain ⟨array, resized, hcells, hfit₁, hcap, hlen, hresized, hcopied, hview⟩ :=
    hlist.u8aWrite hfit hm hresize hl₁ hcopy
  have hwrites : Writes (m.block ((n.list.capacity + buf.length) % 2 ^ 32)) f.filePosition buf
      (u8View n.list n.array)
      (u8View { l₁ with length := (f.filePosition + buf.length) % 2 ^ 32 } array) := by
    refine ⟨content array, hresized ▸ hcopied, ?_⟩
    have hcapacity := congrArg U8ArrayList.capacity hview
    rw [hresized] at hcapacity
    exact congrArg (U8ArrayList.mk _ · (content array)) hcapacity
  cases hrun
  let position := (f.filePosition + buf.length) % 2 ^ 32
  have hposition := (hcells.congr (o := {(fp, .file f)} + ({(n.inode.data, .u8 l₁)} +
    (blockCells array + ({(n.addr, .inode n.inode)} + (n.entry.cells + rest))))) (by abel)).put
    (.file { f with filePosition := position })
  have hlength := (hposition.congr (add_left_comm _ _ _)).put
    (.u8 { l₁ with length := position })
  -- neither the capacity nor the position wraps around
  have hlt := hfit.lt
  have hat := hopen.position htype
  rw [Nat.mod_eq_of_lt (by omega)] at hcap
  have hmod : position = f.filePosition + buf.length := Nat.mod_eq_of_lt (by omega)
  refine ⟨position, { l₁ with length := position }, array,
    ⟨hn.direntry, hn.back, hn.fsIdentifier, hn.vfs, hfit₁.header,
      fun _ => ⟨hfit₁.header, hfit₁.pos, hfit₁.lt, hfit₁.room⟩,
      fun hdir => nomatch htype.symm.trans hdir⟩, ?_, ?_, rfl, rfl, hwrites, hlength.congr ?_⟩
  · dsimp only
    omega
  · dsimp only
    omega
  · unfold Node.cells Node.withList
    rw [htype]
    unfold listCell
    abel

/-! ### Conditions on the cells

Whether a create or a write is refused is defined by what is in the heap, by
following pointers from the address that the call was given.  These lemmas say
what the definitions come to for the cells of a node. -/

/-- The cells of a directory, from its entry on, read out of the heap. -/
theorem cells_of_directory (hn : Holds base h (n.cells + rest)) (hsound : n.Sound fsTmpfs v)
    (hdir : n.inode.inodeType = .directory) :
    h.cells n.entry.addr = some (.direntry n.entry.direntry) ∧
      h.cells n.entry.direntry.inode = some (.inode n.inode) ∧
      h.cells n.inode.data = some (.vp n.list) := by
  refine ⟨Owns.cell hn _ _ (by simp [Node.direntry_mem_cells]), ?_, ?_⟩
  · rw [hsound.back]
    exact Owns.cell hn _ _ (by simp [Node.inode_mem_cells])
  · refine Owns.cell hn _ _ ?_
    unfold Node.cells
    rw [hdir]
    simp [listCell]

/-- The array of a node's list. -/
theorem array_cell {q : ℕ} {b : Block UInt8} (hn : Holds base h (n.cells + rest))
    (hsound : n.Sound fsTmpfs v) (harray : n.array = some (q, b)) :
    n.list.array ≠ 0 ∧ h.cells n.list.array = some (.block b) := by
  have hmem : (q, .block b) ∈ n.cells + rest := by
    unfold Node.cells
    rw [harray]
    simp
  have hheader : n.list.array = q := by
    rw [hsound.header, harray, pointer_some]
  rw [hheader]
  exact ⟨Owns.ne_zero hn q (mem_addrs hmem), Owns.cell hn q _ hmem⟩

/-- Whether the array of a directory's list can grow is seen in its cells: in
its header, and in the size of its block. -/
theorem growthRefused_iff (hn : Holds base h (n.cells + rest)) (hsound : n.Sound fsTmpfs v)
    (hdir : n.inode.inodeType = .directory) :
    h.GrowthRefused n.entry.addr grow ↔ n.GrowthRefused grow := by
  obtain ⟨hentry, hinode, hlist⟩ := hn.cells_of_directory hsound hdir
  constructor
  · rintro ⟨d, i, l, b, hd, hi, hl, hne, hb, hfull, hsize, hnone⟩
    cases hentry.symm.trans hd
    cases hinode.symm.trans hi
    cases hlist.symm.trans hl
    refine ⟨hfull, ?_⟩
    cases harray : n.array with
    | none => exact absurd (hsound.header.trans (congrArg pointer harray)) hne
    | some x =>
        obtain ⟨a, b'⟩ := x
        cases (hn.array_cell hsound harray).2.symm.trans hb
        exact ⟨a, b, rfl, hsize, hnone⟩
  · rintro ⟨hfull, a, b, harray, hsize, hnone⟩
    obtain ⟨hne, hb⟩ := hn.array_cell hsound harray
    exact ⟨_, _, _, b, hentry, hinode, hlist, hne, hb, hfull, hsize, hnone⟩

/-- So is whether there is one. -/
theorem arrayMissing_iff (hn : Holds base h (n.cells + rest)) (hsound : n.Sound fsTmpfs v)
    (hdir : n.inode.inodeType = .directory) :
    h.ArrayMissing n.entry.addr ↔ n.array = none := by
  obtain ⟨hentry, hinode, hlist⟩ := hn.cells_of_directory hsound hdir
  constructor
  · rintro ⟨d, i, l, hd, hi, hl, hnull⟩
    cases hentry.symm.trans hd
    cases hinode.symm.trans hi
    cases hlist.symm.trans hl
    refine Option.eq_none_iff_forall_ne_some.mpr fun x harray => ?_
    exact (hn.array_cell hsound harray).1 hnull
  · intro hnone
    refine ⟨_, _, _, hentry, hinode, hlist, ?_⟩
    rw [hsound.header, hnone, pointer_none]

/-- Whether a write is refused is seen in the cells of the file: it has
nothing to write, or the array has room, or `kmalloc` has a block for more. -/
theorem writeRefused_iff {fp len : ℕ} (hf : Holds base h ({(fp, .file f)} + (n.cells + rest)))
    (hn : n.Sound fsTmpfs v) (htype : n.inode.inodeType = .file) (hopen : n.Opens f) :
    ¬h.WriteRefused fp len m ↔ len = 0 ∨ HasRoom n.array (n.list.capacity + len) ∨
      m.block (n.list.capacity + len) ≠ none := by
  have hinode := hf.openedInode hopen.dentry hn
  have hcells := hf.congr (list_of_file htype)
  have hlist : h.cells n.inode.data = some (.u8 n.list) := Owns.cell hcells _ _ mem_front
  have hnode := hf.congr (add_left_comm _ _ _)
  have hroom : (∀ b, n.list.array ≠ 0 → h.cells n.list.array = some (.block b) →
      b.size < n.list.capacity + len) ↔ ¬HasRoom n.array (n.list.capacity + len) := by
    constructor
    · rintro hall ⟨⟨a, b⟩, harray, hle⟩
      obtain ⟨hne, hblock⟩ := hnode.array_cell hn harray
      exact absurd hle (not_le.mpr (hall b hne hblock))
    · intro hno b hne hblock
      refine not_le.mp fun hle => hno ?_
      cases harray : n.array with
      | none => exact absurd (hn.header.trans (congrArg pointer harray)) hne
      | some x =>
          obtain ⟨a, b'⟩ := x
          cases hblock.symm.trans (hnode.array_cell hn harray).2
          exact ⟨(a, b), rfl, hle⟩
  constructor
  · intro hno
    by_contra hnone
    obtain ⟨hlen, hnone⟩ := not_or.mp hnone
    obtain ⟨hsmall, hnone⟩ := not_or.mp hnone
    exact hno ⟨hlen, _, _, hinode, hlist, not_not.mp hnone, hroom.mpr hsmall⟩
  · rintro hor ⟨hlen, i, l, hi, hl, hnone, hall⟩
    cases hinode.symm.trans hi
    cases hlist.symm.trans hl
    rcases hor with hzero | hhas | hsome
    · exact hlen hzero
    · exact hroom.mp hall hhas
    · exact hsome hnone

end FsHeap.Holds

end CourseOs.Fs
