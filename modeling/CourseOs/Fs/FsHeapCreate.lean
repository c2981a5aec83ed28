import CourseOs.Fs.FsHeapCounter
import CourseOs.Fs.FsHeapNodes

/-!
# New inodes

What `create_direntry`, `create_tmpfs_root` and `tmpfs_create_*` allocate, and
how they link it.  A create that succeeds makes a node of the entry it is
given, and puts it behind the last one; all that can get lost is the array of
the parent's list (`Node.GrowthRefused`).

## Main definitions

* `Fresh s ms` — the supplies have blocks of their own: free addresses, all
  different.
* `Node.GrowthRefused` — the array of the directory's list has to grow for one
  more entry, and cannot.
* `Node.withList`, `Node.withParent`, `Node.withNext` — the three ways a node
  is written to.
* `Node.IsNew` — the node is of an inode as `create_inode_base` makes it.

## Main results

Each routine has an `Outcome` and a lemma about its run, as for lists:

* `createNamedDirentry` — a new entry and its name.  The inode pointer of the
  entry is what was in the block, and is written when the entry gets its
  inode.
* `tmpfsCreate` — a node of the entry, linked to the last one; the parent's
  list has one entry more, or one entry more and no array.
* `createTmpfsRoot`, `vfsCreate`, `tmpfsInit` — the first node, and the `Vfs`
  for it.

A create works on four groups of cells at once: the entry, the parent, the
last inode and the `Vfs`, and the parent may be the last inode.  The lemmas
`list_front`, `newNode_front` and `linked_front` bring the group that the next
routine works on to the front of the sum, and `exists_last` is where the two
cases meet.
-/

namespace CourseOs.Fs.FsHeap

open SymbolicHeap

variable {base : ℕ → Option Cell} {s s' : FsHeap} {own own' rest : Multiset (ℕ × Cell)}
  {fsTmpfs v p parent : ℕ} {m grow : Supply} {n t : Node} {e : Entry} {ns l r : List Node}
  {V : Vfs} {err err' : VfsErr}

/-- The supplies have blocks of their own: nothing is allocated at their
addresses, which are all different. -/
structure Fresh (s : FsHeap) (ms : List Supply) : Prop where
  free : ∀ m ∈ ms, s.cells m.addr = none
  distinct : (ms.map Supply.addr).Nodup

/-- The supplies used first have blocks of their own too. -/
theorem Fresh.take (used : List Supply) {left : List Supply} (h : Fresh s (used ++ left)) :
    Fresh s used := by
  have hdistinct := h.distinct
  rw [List.map_append, List.nodup_append] at hdistinct
  exact ⟨fun m hm => h.free m (List.mem_append_left _ hm), hdistinct.1⟩

/-- The array of the directory's list has to grow for one more entry, and
cannot.  The entry is in the list by then. -/
def Node.GrowthRefused (n : Node) (grow : Supply) : Prop :=
  n.list.capacity ≤ (n.list.length + 1) % 2 ^ 32 ∧
    Refuses grow n.array (vpaNewSize n.list.capacity * sizeofPointer % 2 ^ 32)

/-- The node with another list. -/
def Node.withList (n : Node) (list : ListHeader) (array : Option (ℕ × Block UInt8)) : Node :=
  { n with list, array }

/-- The node with another parent in its entry. -/
def Node.withParent (n : Node) (parent : ℕ) : Node :=
  { n with entry := n.entry.withParent parent }

/-- The node with another successor. -/
def Node.withNext (n : Node) (next : ℕ) : Node := { n with inode := { n.inode with next } }

/-- The data that an inode is made with, for what `kmalloc` has for its array.
What a new array holds is whatever its block held. -/
def NewData (array : Supply) : InodeType → InodeData → Prop
  | .directory, d => ∃ mem, mem.map Block.size =
        (array.block (tmpfsDefaultDirAllocSize * sizeofPointer)).map Block.size ∧
      d = .direntries (CourseOs.vpaCreate mem tmpfsDefaultDirAllocSize)
  | .file, d => d = .filedata (CourseOs.u8aCreate (array.block tmpfsDefaultFileAllocSize)
      tmpfsDefaultFileAllocSize)

/-- The node is of an inode that was made with new data, when there had been
`cnt` others. -/
def Node.IsNew (cnt : ℕ) (type : InodeType) (entry : ℕ) (array : Supply) (n : Node) : Prop :=
  ∃ data, NewData array type data ∧ n.view = (Fs.createInodeBase cnt type entry data).2

/-- A string with its terminator, written to a block. -/
theorem map_bytesAt (arr : List UInt8) (cell : ℕ → UInt8) :
    (List.range (arr.length + 1)).map (bytesAt arr.length [0] (bytesAt 0 arr cell)) =
      arr ++ [0] := by
  apply List.ext_getElem
  · simp
  · intro i hi _
    rw [List.length_map, List.length_range] at hi
    rw [List.getElem_map, List.getElem_range]
    unfold bytesAt
    by_cases hlt : i < arr.length
    · rw [if_neg (Nat.not_le.mpr hlt), if_pos (Nat.zero_le i), Nat.sub_zero,
        List.getD_eq_getElem _ _ hlt, List.getElem_append_left hlt]
    · obtain rfl : i = arr.length := by omega
      rw [if_pos le_rfl, Nat.sub_self]
      simp

/-- A block that is granted is at the address of the supply. -/
theorem addrs_granted {size : ℕ} : ∀ a ∈ addrs (blockCells (m.granted size)), a = m.addr := by
  intro a ha
  unfold Supply.granted at ha
  cases hb : m.block size with
  | none =>
      rw [hb] at ha
      exact absurd ha (Multiset.notMem_zero a)
  | some b =>
      rw [hb] at ha
      exact Multiset.mem_singleton.mp ha

namespace Holds

/-- Where nothing is allocated after more has been. -/
theorem free_of_addrs (used : List ℕ) (h : Holds base s own) (h' : Holds base s' own')
    (hsub : ∀ a ∈ addrs own', a ∈ addrs own ∨ a ∈ used) (hp : s.cells p = none)
    (hne : p ∉ used) : s'.cells p = none := by
  obtain ⟨hbase, hnew⟩ := (Owns.none_iff h).mp hp
  refine (Owns.none_iff h').mpr ⟨hbase, fun hmem => ?_⟩
  rcases hsub p hmem with hown | hused
  · exact hnew hown
  · exact hne hused

/-- A write allocates nothing. -/
theorem put_none {c c' : Cell} {q : ℕ} (h : Holds base s ({(p, c)} + rest))
    (hq : s.cells q = none) : (s.put p c').cells q = none := by
  have hne : q ≠ p := by
    rintro rfl
    rw [Owns.cell h q c mem_front] at hq
    cases hq
  exact (Function.update_of_ne hne _ _).trans hq

/-! ### Directory entries

The bytes of the name are copied up to their terminator.  Two blocks are asked
for, one for the bytes and one for the entry, and neither answer is looked at
before it is used. -/

/-- A string that was copied is a block of its own, with the bytes and the
terminator in it.  That the terminator could be written shows that there was a
block. -/
theorem qstrFromLengthString {arr : List UInt8} {q : Qstr} (h : Holds base s own)
    (hm : s.cells m.addr = none) (hrun : s.qstrFromLengthString m arr = .ok (s', q)) :
    ∃ b, q = ⟨m.addr, arr.length, 0⟩ ∧
      (List.range (arr.length + 1)).map b.cell = arr ++ [0] ∧
      Holds base s' ({(m.addr, .block b)} + own) := by
  unfold FsHeap.qstrFromLengthString at hrun
  obtain ⟨s₁, hmalloc, h₁, -⟩ := h.kmalloc hm ((arr.length + 1) % 2 ^ 32)
  rw [hmalloc] at hrun
  dsimp only at hrun
  obtain ⟨s₂, hcopy, hrun⟩ := Exec.bind_eq_ok.mp hrun
  obtain ⟨h₂, -⟩ := h₁.memcpy hcopy
  obtain ⟨s₃, hcopy', hrun⟩ := Exec.bind_eq_ok.mp hrun
  have hpointer : pointer (withCells (m.granted ((arr.length + 1) % 2 ^ 32)) (bytesAt 0 arr)) =
      pointer (m.granted ((arr.length + 1) % 2 ^ 32)) :=
    pointer_eq_of_extent (extent_withCells _)
  rw [← hpointer] at hcopy'
  obtain ⟨h₃, hsome⟩ := h₂.memcpy hcopy'
  -- the terminator has been written, so the block is there
  obtain ⟨x, hx, -⟩ := hsome (by decide)
  cases hb : m.block ((arr.length + 1) % 2 ^ 32) with
  | none =>
      unfold Supply.granted at hx
      rw [hb] at hx
      cases hx
  | some b =>
      have hgranted : m.granted ((arr.length + 1) % 2 ^ 32) = some (m.addr, b) := by
        unfold Supply.granted
        rw [hb]
        rfl
      rw [hgranted] at h₃ hrun
      cases hrun
      exact ⟨_, rfl, map_bytesAt arr b.cell, h₃⟩

/-- A string is copied if there is memory for it and its terminator.  Without
it the first copy writes through the null pointer, or the terminator does. -/
theorem qstrFromLengthString_outcome {arr : List UInt8} (h : Holds base s own)
    (hm : s.cells m.addr = none) :
    Outcome Stopped (m.block (arr.length + 1) ≠ none) (s.qstrFromLengthString m arr) := by
  unfold FsHeap.qstrFromLengthString
  obtain ⟨s₁, hmalloc, h₁, -⟩ := h.kmalloc hm ((arr.length + 1) % 2 ^ 32)
  rw [hmalloc]
  dsimp only
  refine (h₁.memcpy_outcome.bind (q := HasRoom (m.granted ((arr.length + 1) % 2 ^ 32))
    (arr.length + 1)) fun s₂ hcopy => ?_).congr ?_
  · obtain ⟨h₂, -⟩ := h₁.memcpy hcopy
    have hextent : extent (withCells (m.granted ((arr.length + 1) % 2 ^ 32)) (bytesAt 0 arr)) =
        extent (m.granted ((arr.length + 1) % 2 ^ 32)) := extent_withCells _
    rw [← pointer_eq_of_extent hextent]
    refine (h₂.memcpy_outcome.bind_ok fun s₃ _ => ⟨_, rfl⟩).congr ?_
    rw [List.length_singleton, hasRoom_congr hextent]
    exact or_iff_right (by decide)
  · rw [Nat.zero_add]
    constructor
    · rintro ⟨-, x, hx, hle⟩ hnone
      obtain ⟨b, hb, rfl⟩ := Option.map_eq_some_iff.mp hx
      have hsize := (m.room _ b hb).2
      dsimp only at hle
      rw [Nat.mod_eq_of_lt (by omega), hnone] at hb
      cases hb
    · intro hne
      obtain ⟨b, hb⟩ := Option.ne_none_iff_exists'.mp hne
      obtain ⟨hle, hsize⟩ := m.room _ b hb
      rw [Nat.mod_eq_of_lt (by omega)]
      have hgranted : m.granted (arr.length + 1) = some (m.addr, b) := by
        unfold Supply.granted
        rw [hb]
        rfl
      exact ⟨.inr ⟨_, hgranted, (Nat.le_succ _).trans hle⟩, _, hgranted, hle⟩

/-- **A new entry** and its name.  The name ends at the first terminator of
the bytes it is made from, and the entry has no inode yet. -/
theorem createNamedDirentry {em : EntryMemory} {name : List UInt8} {entry : ℕ}
    (h : Holds base s own) (hfresh : Fresh s [em.name, em.entry])
    (hrun : s.createNamedDirentry em name parent = .ok (s', entry)) :
    ∃ e : Entry, e.addr = entry ∧ e.addr < 2 ^ 32 ∧
      e.qstr = Fs.qstrFromNullTerminatedString (name.takeWhile (· ≠ 0)) ∧
      e.direntry.parent = parent ∧ Holds base s' (e.cells + own) ∧
      ∀ a ∈ addrs e.cells, a = em.name.addr ∨ a = em.entry.addr := by
  obtain ⟨hfree, hdistinct⟩ := hfresh
  unfold FsHeap.createNamedDirentry FsHeap.qstrFromNullTerminatedString at hrun
  obtain ⟨⟨s₁, q⟩, hname, hrun⟩ := Exec.bind_eq_ok.mp hrun
  obtain ⟨b, rfl, hbytes, h₁⟩ := h.qstrFromLengthString (hfree _ List.mem_cons_self) hname
  have hentry : s₁.cells em.entry.addr = none := by
    refine h.free_of_addrs [em.name.addr] h₁ ?_ (hfree _ (by simp)) ?_
    · simp +contextual [or_comm]
    · simpa [eq_comm] using hdistinct
  dsimp only at hrun
  unfold FsHeap.createDirentry at hrun
  cases hb : em.entry.block sizeofDirEntry with
  | none =>
      obtain ⟨s₂, hmalloc, -⟩ := h₁.kmalloc hentry sizeofDirEntry
      rw [hmalloc, pointer_granted_eq_zero.mpr hb] at hrun
      cases hrun
  | some block =>
      obtain ⟨s₂, hmalloc, h₂, -⟩ := h₁.kmalloc_some hentry hb
      rw [hmalloc] at hrun
      dsimp only at hrun
      rw [h₂.fetch Cell.toBlock rfl, Exec.ok_bind] at hrun
      cases hrun
      refine ⟨⟨em.entry.addr, ⟨ByteMemory.readWord ⟨block.cell⟩ 0,
        ⟨em.name.addr, (name.takeWhile (· ≠ 0)).length, 0⟩, parent⟩, b⟩, rfl, em.entry.addr_lt,
        ?_, rfl, (h₂.put _).congr ?_, fun a ha => ?_⟩
      · unfold Entry.qstr Fs.qstrFromNullTerminatedString
        rw [← hbytes]
      · unfold Entry.cells
        rw [add_assoc]
      · unfold Entry.cells at ha
        simpa [or_comm] using ha

/-- An entry is made if there is memory for its name and for it; otherwise the
routine writes through the null pointer. -/
theorem createNamedDirentry_outcome {em : EntryMemory} (h : Holds base s own)
    (hfresh : Fresh s [em.name, em.entry]) (name : List UInt8) (parent : ℕ) :
    Outcome Stopped (em.name.block ((name.takeWhile (· ≠ 0)).length + 1) ≠ none ∧
      em.entry.block sizeofDirEntry ≠ none) (s.createNamedDirentry em name parent) := by
  obtain ⟨hfree, hdistinct⟩ := hfresh
  unfold FsHeap.createNamedDirentry FsHeap.qstrFromNullTerminatedString
  have hname : s.cells em.name.addr = none := hfree _ List.mem_cons_self
  refine (h.qstrFromLengthString_outcome hname).bind fun ⟨s₁, q⟩ hcall => ?_
  obtain ⟨b, -, -, h₁⟩ := h.qstrFromLengthString hname hcall
  have hentry : s₁.cells em.entry.addr = none := by
    refine h.free_of_addrs [em.name.addr] h₁ ?_ (hfree _ (by simp)) ?_
    · simp +contextual [or_comm]
    · simpa [eq_comm] using hdistinct
  dsimp only
  unfold FsHeap.createDirentry
  cases hb : em.entry.block sizeofDirEntry with
  | none =>
      obtain ⟨s₂, hmalloc, -⟩ := h₁.kmalloc hentry sizeofDirEntry
      rw [hmalloc, pointer_granted_eq_zero.mpr hb]
      exact .stops (.inl rfl) (not_not.mpr rfl)
  | some block =>
      obtain ⟨s₂, hmalloc, h₂, -⟩ := h₁.kmalloc_some hentry hb
      rw [hmalloc]
      dsimp only
      rw [h₂.fetch Cell.toBlock rfl]
      exact .returns nofun

/-! ### Inodes

A create is followed through its three parts: the inode and its list are made,
the entry is put in the list of its parent, and the inode is put behind the
last one.  Each part has an outcome, which says when it returns, and a
specification of what it leaves when it does; the parts are stated for the
cells they touch and a frame, and put together by writing the sum of the cells
in another order. -/

/-- The list of a new inode.  There is a header, or the routine stops; the
array may be missing. -/
theorem createData {type : InodeType} {im : InodeMemory} {data : ℕ} (h : Holds base s own)
    (hlist : s.cells im.list.addr = none) (harray : s.cells im.array.addr = none)
    (hne : im.array.addr ≠ im.list.addr) (hrun : s.createData im type = .ok (s', data)) :
    ∃ list array, data = im.list.addr ∧ list.array = pointer array ∧
      (type = .file → Fit list array) ∧ (type = .directory → Slots list array) ∧
      (∀ a ∈ addrs (blockCells array), a = im.array.addr) ∧
      NewData im.array type (dataView type list array) ∧
      Holds base s' ({(data, listCell type list)} + (blockCells array + own)) := by
  unfold FsHeap.createData at hrun
  cases type with
  | directory =>
      dsimp only at hrun
      unfold FsHeap.vpaCreate at hrun
      obtain ⟨hdata, h'⟩ := h.createList hlist harray hne hrun
      refine ⟨⟨0, tmpfsDefaultDirAllocSize, _⟩, _, hdata, rfl, nofun,
        fun _ => ⟨Nat.succ_pos 3, fun x hx => ?_⟩, addrs_granted, ⟨_, ?_, rfl⟩, h'⟩
      · obtain ⟨b, hb, rfl⟩ := Option.map_eq_some_iff.mp hx
        exact im.array.room _ b hb
      · rw [content_granted, Option.map_map]
        rfl
  | file =>
      dsimp only at hrun
      unfold FsHeap.u8aCreate at hrun
      obtain ⟨hdata, h'⟩ := h.createList hlist harray hne hrun
      refine ⟨⟨0, tmpfsDefaultFileAllocSize, _⟩, _, hdata, rfl, fun _ => ⟨rfl, Nat.succ_pos 15, ?_,
        fun x hx => ?_⟩, nofun, addrs_granted, ?_, h'⟩
      · show 16 < 2 ^ 31
        decide
      · obtain ⟨b, hb, rfl⟩ := Option.map_eq_some_iff.mp hx
        exact im.array.room _ b hb
      · show InodeData.filedata ⟨0, tmpfsDefaultFileAllocSize, content _⟩ = _
        rw [content_granted]
        rfl

/-- The list of a new inode is written if there is memory for its header. -/
theorem createData_outcome {type : InodeType} {im : InodeMemory} :
    Outcome Stopped (im.list.block sizeofArrayList ≠ none) (s.createData im type) := by
  unfold FsHeap.createData
  cases type with
  | directory => exact createList_outcome
  | file => exact createList_outcome

/-- The list of a directory among its cells. -/
theorem list_front (hdir : n.inode.inodeType = .directory) :
    e.cells + (n.cells + rest) = {(n.inode.data, .vp n.list)} + (blockCells n.array +
      ({(n.addr, .inode n.inode)} + (n.entry.cells + (e.cells + rest)))) := by
  unfold Node.cells
  rw [hdir, show listCell .directory n.list = .vp n.list from rfl]
  abel

/-- A directory takes an entry if its list has an array.  Whether the array
can grow after the entry is in it does not matter for that. -/
theorem addEntryToDirectory_outcome (h : Holds base s (e.cells + (n.cells + rest)))
    (hn : n.Sound fsTmpfs v) (hdir : n.inode.inodeType = .directory)
    (hm : s.cells grow.addr = none) :
    Outcome Stopped (n.array ≠ none) (s.addEntryToDirectory grow n.entry.addr e.addr err) := by
  have hdirentry : s.fetch Cell.toDirentry n.entry.addr = .ok n.entry.direntry :=
    h.fetch_mem (c := .direntry n.entry.direntry) (by simp [Node.direntry_mem_cells]) rfl
  have hinode : s.fetch Cell.toInode n.entry.direntry.inode = .ok n.inode := by
    rw [hn.back]
    exact h.fetch_mem (c := .inode n.inode) (by simp [Node.inode_mem_cells]) rfl
  unfold FsHeap.addEntryToDirectory
  rw [hdirentry, Exec.ok_bind, hinode, Exec.ok_bind, if_neg (not_not.mpr hdir)]
  have hlist := h.congr (list_front hdir)
  refine (hlist.vpaPush_outcome hn.header (hn.slots hdir) hm).bind_ok fun s₁ hpush => ?_
  obtain ⟨list, array, lost, -, -, h₁, -⟩ := hlist.vpaPush hn.header (hn.slots hdir) hm hpush
  have hentry := h₁.congr (o := {(e.addr, .direntry e.direntry)} +
      ({(e.direntry.name.data, .block e.name)} + ({(n.inode.data, .vp list)} + (blockCells array +
        (blockCells lost + ({(n.addr, .inode n.inode)} + (n.entry.cells + rest))))))) (by
    rw [show e.cells = _ from rfl]
    unfold Entry.cells
    abel)
  rw [hentry.fetch Cell.toDirentry rfl]
  exact ⟨_, rfl⟩

/-- `add_entry_to_directory`, of a directory: the entry is in the parent's
list and the parent in the entry, and the array of the list may be lost. -/
theorem addEntryToDirectory (h : Holds base s (e.cells + (n.cells + rest)))
    (hn : n.Sound fsTmpfs v) (hdir : n.inode.inodeType = .directory)
    (hm : s.cells grow.addr = none)
    (hrun : s.addEntryToDirectory grow n.entry.addr e.addr err = .ok (s', err')) :
    err' = err ∧ ∃ list array lost, list.array = pointer array ∧ Slots list array ∧
      Holds base s' ((e.withParent n.entry.addr).cells + ((n.withList list array).cells +
        (blockCells lost + rest))) ∧
      (lost = none ↔ ¬n.GrowthRefused grow) ∧
      (e.addr < 2 ^ 32 → Pushes grow e.addr (vpView n.list n.array) (vpView list array)) := by
  have hdirentry : s.fetch Cell.toDirentry n.entry.addr = .ok n.entry.direntry :=
    h.fetch_mem (c := .direntry n.entry.direntry) (by simp [Node.direntry_mem_cells]) rfl
  have hinode : s.fetch Cell.toInode n.entry.direntry.inode = .ok n.inode := by
    rw [hn.back]
    exact h.fetch_mem (c := .inode n.inode) (by simp [Node.inode_mem_cells]) rfl
  unfold FsHeap.addEntryToDirectory at hrun
  rw [hdirentry, Exec.ok_bind, hinode, Exec.ok_bind, if_neg (not_not.mpr hdir)] at hrun
  obtain ⟨s₁, hpush, hrun⟩ := Exec.bind_eq_ok.mp hrun
  have hlist := h.congr (list_front hdir)
  obtain ⟨list, array, lost, hheader, hslots, h₁, hlost, hpushes⟩ :=
    hlist.vpaPush hn.header (hn.slots hdir) hm hpush
  have hentry := h₁.congr (o := {(e.addr, .direntry e.direntry)} +
      ({(e.direntry.name.data, .block e.name)} + ((n.withList list array).cells +
        (blockCells lost + rest)))) (by
    unfold Node.cells Entry.cells Node.withList
    rw [hdir, show listCell .directory list = .vp list from rfl]
    abel)
  rw [hentry.fetch Cell.toDirentry rfl, Exec.ok_bind] at hrun
  cases hrun
  refine ⟨rfl, list, array, lost, hheader, hslots, (hentry.put _).congr ?_, hlost, hpushes⟩
  unfold Entry.withParent Entry.cells
  abel

/-- `vfs_add_inode` of an inode that is not in the list puts it behind the
last one.  What it writes is the link of that one, and `tail`. -/
theorem vfsAddInode (h : Holds base s (n.cells + ({(v, .vfs V)} + (t.cells + rest))))
    (htail : V.tail = t.addr) (hnext : n.inode.next = 0) :
    ∃ s', s.vfsAddInode v n.addr = .ok (s', .ok) ∧
      Holds base s' (n.cells + ({(v, .vfs { V with tail := n.addr })} +
        ((t.withNext n.addr).cells + rest))) := by
  have ht := h.congr (o := {(t.addr, .inode t.inode)} + (t.entry.cells +
    ({(t.inode.data, listCell t.inode.inodeType t.list)} + (blockCells t.array +
      (n.cells + ({(v, .vfs V)} + rest)))))) (by
    rw [show t.cells = _ from rfl]
    unfold Node.cells
    abel)
  have hne : t.addr ≠ n.addr := ht.addr_ne (by simp [addr_mem_cells])
  have hinode : s.fetch Cell.toInode n.addr = .ok n.inode :=
    h.fetch_mem (c := .inode n.inode) (by simp [Node.inode_mem_cells]) rfl
  have hvfs : s.fetch Cell.toVfs v = .ok V := (h.congr (add_left_comm _ _ _)).fetch _ rfl
  have hlinked := (ht.put (.inode { t.inode with next := n.addr })).congr
    (o := {(v, .vfs V)} + (n.cells + ((t.withNext n.addr).cells + rest))) (by
    rw [show (t.withNext n.addr).cells = {(t.addr, .inode { t.inode with next := n.addr })} +
      (t.entry.cells + ({(t.inode.data, listCell t.inode.inodeType t.list)} + blockCells t.array))
      from rfl]
    abel)
  refine ⟨_, ?_, (hlinked.put (.vfs { V with tail := n.addr })).congr (add_left_comm _ _ _)⟩
  unfold FsHeap.vfsAddInode
  rw [hinode, Exec.ok_bind, hvfs, Exec.ok_bind, if_neg, htail, ht.fetch Cell.toInode rfl,
    Exec.ok_bind]
  rintro (hno | hno)
  · exact hno hnext
  · exact hne (htail.symm.trans hno)

/-- An inode with the data of `im`, of the entry `e`. -/
def newNode (im : InodeMemory) (e : Entry) (i : TmpfsInode) (list : ListHeader)
    (array : Option (ℕ × Block UInt8)) : Node :=
  ⟨im.inode.addr, i, { e with direntry := { e.direntry with inode := im.inode.addr } }, list,
    array⟩

/-- **A new node**: an inode and its list are allocated and written, and the
entry, which was there, leads to the inode. -/
theorem createNode {type : InodeType} {im : InodeMemory} {more : List Supply} {s₁ s₂ s₃ : FsHeap}
    {data : ℕ} {i : TmpfsInode} (h : Holds base s (e.cells + own))
    (hfresh : Fresh s (im.inode :: im.list :: im.array :: more))
    (hmalloc : s.kmalloc im.inode sizeofTmpfsInode = (s₁, im.inode.addr))
    (hgranted : im.inode.block sizeofTmpfsInode ≠ none)
    (hdata : s₁.createData im type = .ok (s₂, data))
    (hbase : s₂.createInodeBase v type fsTmpfs e.addr data = (s₃, i)) :
    ∃ list array, (newNode im e i list array).Sound fsTmpfs v ∧ i.next = 0 ∧
      (newNode im e i list array).IsNew s.cnt type e.addr im.array ∧
      (s₃.put im.inode.addr (.inode i)).fetch Cell.toDirentry e.addr = .ok e.direntry ∧
      Holds base ((s₃.put im.inode.addr (.inode i)).put e.addr
        (.direntry { e.direntry with inode := im.inode.addr }))
        ((newNode im e i list array).cells + own) ∧
      ∀ m ∈ more, ((s₃.put im.inode.addr (.inode i)).put e.addr
        (.direntry { e.direntry with inode := im.inode.addr })).cells m.addr = none := by
  obtain ⟨hfree, hdistinct⟩ := hfresh
  rw [List.map_cons, List.map_cons, List.map_cons, List.nodup_cons, List.nodup_cons,
    List.nodup_cons] at hdistinct
  obtain ⟨hinode, hlist, harray, -⟩ := hdistinct
  obtain ⟨block, hblock⟩ := Option.ne_none_iff_exists'.mp hgranted
  obtain ⟨s₁', hmalloc', h₁, hframe⟩ := h.kmalloc_some (hfree _ (by simp)) hblock
  cases hmalloc'.symm.trans hmalloc
  have hcnt : s₂.cnt = s.cnt := by
    have hmalloc_cnt := kmalloc_cnt im.inode s sizeofTmpfsInode
    rw [hmalloc] at hmalloc_cnt
    exact (createData_cnt hdata).trans hmalloc_cnt
  obtain ⟨list, array, hdata, hheader, hfit, hslots, haddr, hnew, h₂⟩ := h₁.createData
    ((hframe _ fun heq => hinode (by simp [heq])).trans (hfree _ (by simp)))
    ((hframe _ fun heq => hinode (by simp [heq])).trans (hfree _ (by simp)))
    (fun heq => hlist (by simp [heq])) hdata
  cases hbase
  refine ⟨list, array, ⟨rfl, rfl, rfl, rfl, hheader, hfit, hslots⟩, rfl, ⟨_, hnew, ?_⟩, ?_⟩
  · rw [← hcnt]
    rfl
  have h₃ : Holds base { s₂ with cnt := (s₂.cnt + 1) % 2 ^ 32 }
      ({(im.inode.addr, .block block)} + ({(e.addr, .direntry e.direntry)} +
        ({(e.direntry.name.data, .block e.name)} + ({(data, listCell type list)} +
          (blockCells array + own))))) := by
    refine h₂.congr ?_
    unfold Entry.cells
    abel
  have h₄ := (h₃.put (.inode
    ⟨type, (s₂.cnt + 1) % 2 ^ 32, 0, fsTmpfs, e.addr, 0, false, v, data⟩)).congr
      (add_left_comm _ _ _)
  refine ⟨h₄.fetch _ rfl, (h₄.put _).congr ?_, fun m hm => h₄.put_none (h₃.put_none ?_)⟩
  · unfold Node.cells Entry.cells newNode
    abel
  · refine h.free_of_addrs [im.inode.addr, im.list.addr, im.array.addr] h₂ ?_
      (hfree m (by simp [hm])) ?_
    · intro a ha
      rw [hdata, addrs_add, addrs_add, addrs_add, addrs_singleton, addrs_singleton,
        Multiset.mem_add, Multiset.mem_add, Multiset.mem_add, Multiset.mem_singleton,
        Multiset.mem_singleton] at ha
      rcases ha with rfl | ha | rfl | ha
      · simp
      · simp [haddr a ha]
      · simp
      · exact .inl ha
    · have haddr : m.addr ∈ more.map Supply.addr := List.mem_map_of_mem hm
      simp only [List.mem_cons, List.not_mem_nil, or_false]
      rintro (heq | heq | heq)
      · exact hinode (by simp [← heq, haddr])
      · exact hlist (by simp [← heq, haddr])
      · exact harray (heq ▸ haddr)

/-- The last inode, when a node in the list has got another list of entries:
it is that node, or one behind it, which has not changed. -/
theorem exists_last (list : ListHeader) (array : Option (ℕ × Block UInt8))
    (htail : p = ((l ++ n :: r).map Node.addr).getLastD 0) :
    ∃ init t, l ++ n.withList list array :: r = init ++ [t] ∧
      nodeCells init + t.cells = nodeCells l + ((n.withList list array).cells + nodeCells r) ∧
      p = t.addr := by
  obtain ⟨init, t, hlast⟩ : ∃ init t, l ++ n.withList list array :: r = init ++ [t] := by
    rcases List.eq_nil_or_concat' (l ++ n.withList list array :: r) with hnil | hconcat
    · exact absurd hnil (by simp)
    · exact hconcat
  have haddrs : (l ++ n :: r).map Node.addr = (init ++ [t]).map Node.addr := by
    rw [← hlast, List.map_append, List.map_append]
    rfl
  rw [haddrs, List.map_append, List.map_singleton, List.getLastD_concat] at htail
  have hcells := congrArg nodeCells hlast
  rw [nodeCells_append, nodeCells_cons, nodeCells_append, nodeCells_cons, nodeCells_nil,
    add_zero] at hcells
  exact ⟨init, t, hlast, hcells.symm, htail⟩

/-- A new node among the cells: its entry, and the parent it is to be put
into.  The sum of the cells is only written in another order. -/
theorem newNode_front {im : InodeMemory} {i : TmpfsInode} {list : ListHeader}
    {array : Option (ℕ × Block UInt8)} :
    (newNode im e i list array).cells + ({(v, .vfs V)} + (nodeCells (l ++ n :: r) + rest)) =
      (newNode im e i list array).entry.cells + (n.cells +
        ({(im.inode.addr, .inode i)} + ({(i.data, listCell i.inodeType list)} +
          (blockCells array + ({(v, .vfs V)} + (nodeCells (l ++ r) + rest)))))) := by
  rw [nodeCells_append, nodeCells_cons, nodeCells_append]
  unfold newNode
  rw [show (Node.mk _ i _ list array).cells = _ from rfl]
  unfold Node.cells
  abel

/-- The new node and the last inode among the cells, when the entry is in its
parent.  The last inode may be that of the parent, which is why its list is
followed here. -/
theorem linked_front {im : InodeMemory} {i : TmpfsInode} {list list₀ : ListHeader}
    {array array₀ lost : Option (ℕ × Block UInt8)} {init : List Node}
    (hcells : nodeCells init + t.cells =
      nodeCells l + ((n.withList list array).cells + nodeCells r)) :
    ((newNode im e i list₀ array₀).entry.withParent p).cells + ((n.withList list array).cells +
      (blockCells lost + ({(im.inode.addr, .inode i)} +
        ({(i.data, listCell i.inodeType list₀)} + (blockCells array₀ + ({(v, .vfs V)} +
          (nodeCells (l ++ r) + rest))))))) =
      ((newNode im e i list₀ array₀).withParent p).cells + ({(v, .vfs V)} + (t.cells +
        (nodeCells init + (blockCells lost + rest)))) := by
  rw [show t.cells + (nodeCells init + (blockCells lost + rest)) =
    (nodeCells init + t.cells) + (blockCells lost + rest) by abel, hcells, nodeCells_append,
    show ((newNode im e i list₀ array₀).withParent p).cells = {(im.inode.addr, .inode i)} +
      (((newNode im e i list₀ array₀).entry.withParent p).cells +
        ({(i.data, listCell i.inodeType list₀)} + blockCells array₀)) from rfl]
  abel

/-- **A create** with memory for the inode returns if there is memory for the
header of its list, and the parent's list has an array. -/
theorem tmpfsCreate_outcome (type : InodeType) {im : InodeMemory}
    (h : Holds base s (e.cells + ({(v, .vfs V)} + (nodeCells (l ++ n :: r) + rest))))
    (hn : n.Sound fsTmpfs v) (hdir : n.inode.inodeType = .directory)
    (htail : V.tail = ((l ++ n :: r).map Node.addr).getLastD 0)
    (hfresh : Fresh s [im.inode, im.list, im.array, grow])
    (hgranted : im.inode.block sizeofTmpfsInode ≠ none) :
    Outcome Stopped (im.list.block sizeofArrayList ≠ none ∧ n.array ≠ none)
      (s.tmpfsCreate fsTmpfs type im grow n.entry.addr e.addr .ok) := by
  have hparent : s.fetch Cell.toDirentry n.entry.addr = .ok n.entry.direntry :=
    h.fetch_mem (c := .direntry n.entry.direntry) (by simp [Node.direntry_mem_cells]) rfl
  have hinode : s.fetch Cell.toInode n.entry.direntry.inode = .ok n.inode := by
    rw [hn.back]
    exact h.fetch_mem (c := .inode n.inode) (by simp [Node.inode_mem_cells]) rfl
  obtain ⟨block, hblock⟩ := Option.ne_none_iff_exists'.mp hgranted
  obtain ⟨s₁, hmalloc, -⟩ := h.kmalloc_some (hfresh.free _ List.mem_cons_self) hblock
  unfold FsHeap.tmpfsCreate
  rw [hparent, Exec.ok_bind, hinode, Exec.ok_bind, hmalloc]
  dsimp only
  rw [if_neg im.inode.addr_ne_zero, hn.vfs]
  refine createData_outcome.bind fun ⟨s₂, data⟩ hdata => ?_
  dsimp only
  generalize hbase : s₂.createInodeBase v type fsTmpfs e.addr data = made
  obtain ⟨s₃, i⟩ := made
  obtain ⟨list₀, array₀, hsound, hnext, -, hentry, h₃, hgrow⟩ :=
    h.createNode hfresh hmalloc hgranted hdata hbase
  dsimp only
  rw [hentry, Exec.ok_bind]
  have h₃' := h₃.congr newNode_front
  have hm := hgrow _ List.mem_cons_self
  refine (h₃'.addEntryToDirectory_outcome hn hdir hm).bind_ok fun ⟨s₄, err₄⟩ hadd => ?_
  obtain ⟨rfl, list, array, lost, hheader, -, h₄, -⟩ := h₃'.addEntryToDirectory hn hdir hm hadd
  obtain ⟨init, t, hlast, hcells, htail'⟩ := exists_last list array htail
  obtain ⟨s₅, hlink, -⟩ := (h₄.congr (linked_front hcells)).vfsAddInode htail' hnext
  dsimp only
  rw [if_neg (not_not.mpr rfl)]
  rw [show im.inode.addr = ((newNode im e i list₀ array₀).withParent n.entry.addr).addr from rfl,
    hlink]
  exact ⟨_, rfl⟩

/-- **A create that succeeds** makes a node of the entry, and links it to the
last one.  It loses the array of the parent's list exactly when that cannot
grow. -/
theorem tmpfsCreate {type : InodeType} {im : InodeMemory} {inode : ℕ}
    (h : Holds base s (e.cells + ({(v, .vfs V)} + (nodeCells (l ++ n :: r) + rest))))
    (hn : n.Sound fsTmpfs v) (hdir : n.inode.inodeType = .directory)
    (htail : V.tail = ((l ++ n :: r).map Node.addr).getLastD 0)
    (hfresh : Fresh s [im.inode, im.list, im.array, grow])
    (hgranted : im.inode.block sizeofTmpfsInode ≠ none)
    (hrun : s.tmpfsCreate fsTmpfs type im grow n.entry.addr e.addr .ok = .ok (s', inode, err)) :
    ∃ new list array lost init t, new.addr = inode ∧ new.entry.addr = e.addr ∧
      new.Sound fsTmpfs v ∧ new.inode.next = 0 ∧ list.array = pointer array ∧ Slots list array ∧
      l ++ n.withList list array :: r = init ++ [t] ∧
      Holds base s' ({(v, .vfs { V with tail := inode })} +
        (nodeCells (init ++ [t.withNext inode, new]) + (blockCells lost + rest))) ∧
      (lost = none ↔ ¬n.GrowthRefused grow) ∧
      new.IsNew s.cnt type e.addr im.array ∧
      new.entry.view = { e.view with inode := inode, parent := n.entry.addr } ∧ err = .ok ∧
      (e.addr < 2 ^ 32 → Pushes grow e.addr (vpView n.list n.array) (vpView list array)) := by
  have hparent : s.fetch Cell.toDirentry n.entry.addr = .ok n.entry.direntry :=
    h.fetch_mem (c := .direntry n.entry.direntry) (by simp [Node.direntry_mem_cells]) rfl
  have hinode : s.fetch Cell.toInode n.entry.direntry.inode = .ok n.inode := by
    rw [hn.back]
    exact h.fetch_mem (c := .inode n.inode) (by simp [Node.inode_mem_cells]) rfl
  obtain ⟨block, hblock⟩ := Option.ne_none_iff_exists'.mp hgranted
  obtain ⟨s₁, hmalloc, -⟩ := h.kmalloc_some (hfresh.free _ List.mem_cons_self) hblock
  unfold FsHeap.tmpfsCreate at hrun
  rw [hparent, Exec.ok_bind, hinode, Exec.ok_bind, hmalloc] at hrun
  dsimp only at hrun
  rw [if_neg im.inode.addr_ne_zero, hn.vfs] at hrun
  obtain ⟨⟨s₂, data⟩, hdata, hrun⟩ := Exec.bind_eq_ok.mp hrun
  dsimp only at hrun
  generalize hbase : s₂.createInodeBase v type fsTmpfs e.addr data = made at hrun
  obtain ⟨s₃, i⟩ := made
  obtain ⟨list₀, array₀, hsound, hnext, hnew, hentry, h₃, hgrow⟩ :=
    h.createNode hfresh hmalloc hgranted hdata hbase
  dsimp only at hrun
  rw [hentry, Exec.ok_bind] at hrun
  -- the parent's list
  obtain ⟨⟨s₄, err₄⟩, hadd, hrun⟩ := Exec.bind_eq_ok.mp hrun
  have h₃' := h₃.congr newNode_front
  obtain ⟨rfl, list, array, lost, hheader, hslots, h₄, hlost, hpushes⟩ :=
    h₃'.addEntryToDirectory hn hdir (hgrow _ List.mem_cons_self) hadd
  dsimp only at hrun
  rw [if_neg (not_not.mpr rfl)] at hrun
  -- behind the last inode
  let new : Node := (newNode im e i list₀ array₀).withParent n.entry.addr
  obtain ⟨init, t, hlast, hcells, htail'⟩ := exists_last list array htail
  have h₅ := h₄.congr (linked_front hcells)
  obtain ⟨s₅, hlink, h'⟩ := h₅.vfsAddInode htail' hnext
  rw [show im.inode.addr = new.addr from rfl, hlink, Exec.ok_bind] at hrun
  cases hrun
  refine ⟨new, list, array, lost, init, t, rfl, rfl, ⟨hsound.direntry, hsound.back,
    hsound.fsIdentifier, hsound.vfs, hsound.header, hsound.fit, hsound.slots⟩, hnext, hheader,
    hslots, hlast, h'.congr ?_, hlost, hnew, rfl, rfl, hpushes⟩
  rw [nodeCells_append, nodeCells_cons, nodeCells_cons, nodeCells_nil]
  abel

/-! ### The root and the `Vfs`

The start of a file system.  Here too the outcome and the result of each
routine are separate; the table of file systems has room for the first entry,
and the list of the root may be without an array. -/

/-- The supplies that are left after some have been used: a block that came
from one is not at the address of another. -/
theorem fresh_of_addrs (used : List Supply) {left : List Supply} (h : Holds base s own)
    (h' : Holds base s' own')
    (hsub : ∀ a ∈ addrs own', a ∈ addrs own ∨ a ∈ used.map Supply.addr)
    (hfresh : Fresh s (used ++ left)) : Fresh s' left := by
  have hdistinct := hfresh.distinct
  rw [List.map_append, List.nodup_append] at hdistinct
  refine ⟨fun m hm => ?_, hdistinct.2.1⟩
  refine h.free_of_addrs _ h' hsub (hfresh.free m (List.mem_append_right _ hm)) fun hmem => ?_
  exact hdistinct.2.2 _ hmem _ (List.mem_map_of_mem hm) rfl

/-- **`create_tmpfs_root`** makes the list of one node, whose entry is named
`/` and has no parent. -/
theorem createTmpfsRoot {em : EntryMemory} {im : InodeMemory} {root : ℕ}
    (h : Holds base s ({(v, .vfs V)} + own))
    (hfresh : Fresh s [em.name, em.entry, im.inode, im.list, im.array])
    (hrun : s.createTmpfsRoot fsTmpfs em im v = .ok (s', root)) :
    ∃ n : Node, n.addr = root ∧ n.Sound fsTmpfs v ∧ n.inode.next = 0 ∧
      n.IsNew s.cnt .directory n.entry.addr im.array ∧
      n.entry.view = ⟨root, Fs.qstrFromNullTerminatedString [47], 0⟩ ∧
      s'.cnt = (s.cnt + 1) % 2 ^ 32 ∧
      Holds base s' ({(v, .vfs { V with head := root, tail := root })} + (n.cells + own)) := by
  have hentry : Fresh s [em.name, em.entry] := hfresh.take [em.name, em.entry]
  unfold FsHeap.createTmpfsRoot at hrun
  obtain ⟨⟨s₁, entry⟩, hname, hrun⟩ := Exec.bind_eq_ok.mp hrun
  obtain ⟨e, rfl, -, hqstr, hparent, h₁, haddr⟩ := h.createNamedDirentry hentry hname
  have hcnt₁ := createNamedDirentry_cnt hname
  have hfresh₁ : Fresh s₁ [im.inode, im.list, im.array] := by
    refine h.fresh_of_addrs [em.name, em.entry] h₁ (fun a ha => ?_) hfresh
    rw [addrs_add] at ha
    rcases Multiset.mem_add.mp ha with ha | ha
    · exact .inr (by simpa using haddr a ha)
    · exact .inl ha
  dsimp only at hrun
  cases hblock : im.inode.block sizeofTmpfsInode with
  | none =>
      obtain ⟨s₂, hmalloc, -⟩ := h₁.kmalloc (hfresh₁.free _ List.mem_cons_self) sizeofTmpfsInode
      rw [hmalloc, pointer_granted_eq_zero.mpr hblock] at hrun
      cases hrun
  | some block =>
      obtain ⟨s₂, hmalloc, -⟩ := h₁.kmalloc_some (hfresh₁.free _ List.mem_cons_self) hblock
      rw [hmalloc] at hrun
      dsimp only at hrun
      rw [if_neg im.inode.addr_ne_zero] at hrun
      obtain ⟨⟨s₃, data⟩, hdata, hrun⟩ := Exec.bind_eq_ok.mp hrun
      dsimp only at hrun
      generalize hbase : s₃.createInodeBase v .directory fsTmpfs e.addr data = made at hrun
      obtain ⟨s₄, i⟩ := made
      obtain ⟨list, array, hsound, hnext, hnew, hfetch, h₄, -⟩ :=
        h₁.createNode hfresh₁ hmalloc (by rw [hblock]; exact nofun)
          (show s₂.createData im .directory = _ from hdata) hbase
      dsimp only at hrun
      rw [hfetch, Exec.ok_bind] at hrun
      have h₅ := h₄.congr (add_left_comm _ _ _)
      rw [h₅.fetch Cell.toVfs rfl, Exec.ok_bind] at hrun
      have hcnt₃ : s₃.cnt = s.cnt := by
        have hmalloc_cnt := kmalloc_cnt im.inode s₁ sizeofTmpfsInode
        rw [hmalloc] at hmalloc_cnt
        exact (createList_cnt hdata).trans (hmalloc_cnt.trans hcnt₁)
      cases hbase
      cases hrun
      refine ⟨_, rfl, hsound, hnext, hcnt₁ ▸ hnew, ?_, ?_, h₅.put _⟩
      · unfold Entry.view newNode
        rw [← hparent]
        exact congrArg (Fs.DirEntry.mk _ · _) hqstr
      · rw [← hcnt₃]
        rfl

/-- `vfs_create`.  The table has ten places and none of them is filled; where
there was no memory for it, it is null and the call returns all the same. -/
theorem vfsCreate {vfs table : Supply} (h : Holds base s own) (hfresh : Fresh s [vfs, table])
    (hrun : s.vfsCreate vfs table = .ok (s', v)) :
    v = vfs.addr ∧ ∃ filesystems, filesystems = table.granted (10 * sizeofPointer) ∧
      (∀ a ∈ addrs (blockCells filesystems), a = table.addr) ∧
      Holds base s' ({(v, .vfs ⟨10, 0, pointer filesystems, 0, 0⟩)} +
        (blockCells filesystems + own)) := by
  unfold FsHeap.vfsCreate at hrun
  cases hblock : vfs.block sizeofVfs with
  | none =>
      obtain ⟨s₁, hmalloc, -⟩ := h.kmalloc (hfresh.free _ List.mem_cons_self) sizeofVfs
      rw [hmalloc, pointer_granted_eq_zero.mpr hblock] at hrun
      cases hrun
  | some block =>
      obtain ⟨s₁, hmalloc, h₁, hframe⟩ := h.kmalloc_some (hfresh.free _ List.mem_cons_self) hblock
      have hne : table.addr ≠ vfs.addr := by
        have hdistinct := hfresh.distinct
        simpa [eq_comm] using hdistinct
      obtain ⟨s₂, hmalloc', h₂, -⟩ :=
        h₁.kmalloc ((hframe _ hne).trans (hfresh.free _ (by simp))) (10 * sizeofPointer)
      rw [hmalloc] at hrun
      dsimp only at hrun
      rw [if_neg vfs.addr_ne_zero, hmalloc'] at hrun
      cases hrun
      exact ⟨rfl, _, rfl, addrs_granted, Holds.put (h₂.congr (add_left_comm _ _ _)) _⟩

/-- `tmpfs_init`, on a new `Vfs`.  The table has room, so that nothing is
asked of `kmalloc`. -/
theorem tmpfsInit {table : Option (ℕ × Block UInt8)}
    (h : Holds base s ({(v, .vfs ⟨10, 0, pointer table, 0, 0⟩)} + (blockCells table + own)))
    (hrun : s.tmpfsInit fsTmpfs m v = .ok (s', err)) :
    ∃ table', extent table' = extent table ∧
      Holds base s' ({(v, .vfs ⟨10, 1, pointer table', 0, 0⟩)} + (blockCells table' + own)) := by
  unfold FsHeap.tmpfsInit FsHeap.vfsRegister at hrun
  rw [h.fetch Cell.toVfs rfl, Exec.ok_bind] at hrun
  obtain ⟨s₁, hstore, hrun⟩ := Exec.bind_eq_ok.mp hrun
  have h₁ := (h.congr (add_left_comm _ _ _)).storePointer hstore
  have hextent : extent (withCells table (pointerAt 0 fsTmpfs)) = extent table := extent_withCells _
  dsimp only at hrun
  rw [if_pos (by decide)] at hrun
  cases hrun
  refine ⟨_, hextent, ?_⟩
  rw [pointer_eq_of_extent hextent]
  exact Holds.put (h₁.congr (add_left_comm _ _ _)) _

/-- The root is made if there is memory for its name, its entry, its inode and
the header of its list; an array is not needed yet. -/
theorem createTmpfsRoot_outcome {em : EntryMemory} {im : InodeMemory}
    (h : Holds base s ({(v, .vfs V)} + own))
    (hfresh : Fresh s [em.name, em.entry, im.inode, im.list, im.array]) :
    Outcome Stopped ((em.name.block 2 ≠ none ∧ em.entry.block sizeofDirEntry ≠ none) ∧
        im.inode.block sizeofTmpfsInode ≠ none ∧ im.list.block sizeofArrayList ≠ none)
      (s.createTmpfsRoot fsTmpfs em im v) := by
  have hentry : Fresh s [em.name, em.entry] := hfresh.take [em.name, em.entry]
  have hslash : Outcome Stopped (em.name.block 2 ≠ none ∧ em.entry.block sizeofDirEntry ≠ none)
      (s.createNamedDirentry em [47] 0) :=
    h.createNamedDirentry_outcome hentry [47] 0
  unfold FsHeap.createTmpfsRoot
  refine hslash.bind fun ⟨s₁, entry⟩ hname => ?_
  obtain ⟨e, rfl, -, -, -, h₁, haddr⟩ := h.createNamedDirentry hentry hname
  have hfresh₁ : Fresh s₁ [im.inode, im.list, im.array] := by
    refine h.fresh_of_addrs [em.name, em.entry] h₁ (fun a ha => ?_) hfresh
    rw [addrs_add] at ha
    rcases Multiset.mem_add.mp ha with ha | ha
    · exact .inr (by simpa using haddr a ha)
    · exact .inl ha
  dsimp only
  cases hblock : im.inode.block sizeofTmpfsInode with
  | none =>
      obtain ⟨s₂, hmalloc, -⟩ := h₁.kmalloc (hfresh₁.free _ List.mem_cons_self) sizeofTmpfsInode
      rw [hmalloc, pointer_granted_eq_zero.mpr hblock, if_pos rfl]
      exact .stops (.inl rfl) fun hno => hno.1 rfl
  | some block =>
      obtain ⟨s₂, hmalloc, -⟩ := h₁.kmalloc_some (hfresh₁.free _ List.mem_cons_self) hblock
      rw [hmalloc]
      dsimp only
      rw [if_neg im.inode.addr_ne_zero]
      have hdata : Outcome Stopped (im.list.block sizeofArrayList ≠ none)
          (s₂.vpaCreate im.list im.array tmpfsDefaultDirAllocSize) := createList_outcome
      refine (hdata.bind_ok fun ⟨s₃, data⟩ hdata => ?_).congr (and_iff_right nofun).symm
      dsimp only
      generalize hbase : s₃.createInodeBase v .directory fsTmpfs e.addr data = made
      obtain ⟨s₄, i⟩ := made
      obtain ⟨list, array, -, -, -, hfetch, h₄, -⟩ :=
        h₁.createNode hfresh₁ hmalloc (by rw [hblock]; exact nofun)
          (show s₂.createData im .directory = _ from hdata) hbase
      dsimp only
      rw [hfetch, Exec.ok_bind, (h₄.congr (add_left_comm _ _ _)).fetch Cell.toVfs rfl]
      exact ⟨_, rfl⟩

/-- `vfs_create` returns if there is memory for the `Vfs`. -/
theorem vfsCreate_outcome {vfs table : Supply} :
    Outcome Stopped (vfs.block sizeofVfs ≠ none) (s.vfsCreate vfs table) := by
  unfold FsHeap.vfsCreate FsHeap.kmalloc
  cases hblock : vfs.block sizeofVfs with
  | none =>
      dsimp only
      rw [if_pos rfl]
      exact .stops (.inl rfl) (not_not.mpr rfl)
  | some block =>
      dsimp only
      rw [if_neg vfs.addr_ne_zero]
      exact .returns nofun

/-- `tmpfs_init` on a new `Vfs` returns if its table has room for an entry. -/
theorem tmpfsInit_outcome (fsTmpfs : ℕ) {table : Option (ℕ × Block UInt8)}
    (h : Holds base s ({(v, .vfs ⟨10, 0, pointer table, 0, 0⟩)} + (blockCells table + own))) :
    Outcome Stopped (HasRoom table sizeofPointer) (s.tmpfsInit fsTmpfs m v) := by
  unfold FsHeap.tmpfsInit FsHeap.vfsRegister
  rw [h.fetch Cell.toVfs rfl, Exec.ok_bind]
  have hstore : Outcome Stopped (HasRoom table sizeofPointer)
      (s.storePointer (pointer table) 0 fsTmpfs) :=
    (h.congr (add_left_comm _ _ _)).storePointer_outcome (i := 0)
  refine hstore.bind_ok fun s₁ _ => ?_
  dsimp only
  rw [if_pos (by decide)]
  exact ⟨_, rfl⟩

end Holds

end CourseOs.Fs.FsHeap
