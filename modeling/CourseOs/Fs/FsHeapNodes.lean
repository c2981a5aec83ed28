import CourseOs.Fs.FsHeapLists

/-!
# Inodes with what they own

An inode leads to its directory entry and that to its name, and to its list
and that to its array; these cells are a `Node`, and the node is what is
created, linked and freed as one.

## Main definitions

* `Entry`, `Node` — an entry with its name, an inode with its entry and its
  list.
* `Node.Sound` — the pointers of a node: the inode and its entry point to each
  other, the identifier is that of tmpfs, and the list fits its array.
* `Linked hd ns` — the inode list from `hd` on.
* `nodeCells ns` — the cells of all nodes of a list.
* `Entry.view`, `Node.view` — the same on their own, as `Fs.Vfs` has them,
  with the list and the name where the pointers were.

## Main results

`vfs_free` frees the nodes of the inode list one after the other, then the
table and the `Vfs` (`Holds.vfsFree`); nothing is read after it was freed, and
no cell is freed twice.  The routine treats a list of one inode on its own,
with `head = tail`, and the general loop otherwise.  An empty list has both
null.

The loop reads the successor of an inode after its entry has been freed and
before the inode is; that order is what `Holds.freeNode` is about.
-/

namespace CourseOs.Fs.FsHeap

open SymbolicHeap

variable {base : ℕ → Option Cell} {s s' : FsHeap} {own rest : Multiset (ℕ × Cell)}
  {fsTmpfs v p hd fuel : ℕ} {m : Supply}

/-- The cell of an inode's list, which its type decides. -/
def listCell : InodeType → ListHeader → Cell
  | .directory, l => .vp l
  | .file, l => .u8 l

/-- A directory entry with its name, which is freed with it. -/
structure Entry where
  addr : ℕ
  direntry : DirEntry
  name : Block UInt8

/-- An inode with its entry and its list: what is created, linked and freed as
one.  Only the array may be missing. -/
structure Node where
  addr : ℕ
  inode : TmpfsInode
  entry : Entry
  list : ListHeader
  array : Option (ℕ × Block UInt8)

namespace Entry

/-- The cells of an entry: the entry and the block of its name. -/
def cells (e : Entry) : Multiset (ℕ × Cell) :=
  {(e.addr, .direntry e.direntry)} + {(e.direntry.name.data, .block e.name)}

/-- The entry with another parent. -/
def withParent (e : Entry) (parent : ℕ) : Entry :=
  { e with direntry := { e.direntry with parent } }

/-- The name, with what its block holds. -/
def qstr (e : Entry) : Fs.Qstr :=
  ⟨(List.range (e.direntry.name.length + 1)).map e.name.cell, e.direntry.name.length,
    e.direntry.name.hash⟩

/-- The entry on its own, with the bytes of its name in it and without an
address. -/
def view (e : Entry) : Fs.DirEntry := ⟨e.direntry.inode, e.qstr, e.direntry.parent⟩

end Entry

/-- The list of an inode, with what its array holds, as the type of the inode
has it read. -/
def dataView : InodeType → ListHeader → Option (ℕ × Block UInt8) → InodeData
  | .directory, l, array => .direntries (vpView l array)
  | .file, l, array => .filedata (u8View l array)

namespace Node

/-- The cells of an inode, its entry and its list, the array included where
there is one. -/
def cells (n : Node) : Multiset (ℕ × Cell) :=
  {(n.addr, .inode n.inode)} + (n.entry.cells +
    ({(n.inode.data, listCell n.inode.inodeType n.list)} + blockCells n.array))

/-- The inode on its own, with its list in it: the record that the model
without addresses keeps. -/
def view (n : Node) : Fs.TmpfsInode where
  inodeType := n.inode.inodeType
  id := n.inode.id
  refcount := n.inode.refcount
  direntry := n.inode.direntry
  next := n.inode.next
  shouldDelete := n.inode.shouldDelete
  data := dataView n.inode.inodeType n.list n.array

/-- The pointers of a node, for an inode of the `Vfs` at `v`: the inode and
its entry lead to each other, and the list's header to its array. -/
structure Sound (fsTmpfs v : ℕ) (n : Node) : Prop where
  direntry : n.inode.direntry = n.entry.addr
  back : n.entry.direntry.inode = n.addr
  fsIdentifier : n.inode.fsIdentifier = fsTmpfs
  vfs : n.inode.vfs = v
  header : n.list.array = pointer n.array
  fit : n.inode.inodeType = .file → Fit n.list n.array
  slots : n.inode.inodeType = .directory → Slots n.list n.array

end Node

/-- The inode list from `hd` on is `ns`: each node is at the address the one
before it names, and the last one names none. -/
def Linked : ℕ → List Node → Prop
  | hd, [] => hd = 0
  | hd, n :: ns => hd = n.addr ∧ Linked n.inode.next ns

/-- The cells of all of `ns`, which are apart because they add up. -/
def nodeCells (ns : List Node) : Multiset (ℕ × Cell) := (ns.map Node.cells).sum

variable {n t : Node} {e : Entry} {ns l r : List Node}

@[simp] theorem nodeCells_nil : nodeCells [] = 0 := rfl

@[simp] theorem nodeCells_cons : nodeCells (n :: ns) = n.cells + nodeCells ns := by
  unfold nodeCells
  rw [List.map_cons, List.sum_cons]

@[simp] theorem nodeCells_append : nodeCells (l ++ r) = nodeCells l + nodeCells r := by
  unfold nodeCells
  rw [List.map_append, List.sum_append]

theorem Entry.mem_cells : (e.addr, .direntry e.direntry) ∈ e.cells := by
  simp [Entry.cells]

theorem Node.inode_mem_cells : (n.addr, .inode n.inode) ∈ n.cells := by
  simp [Node.cells]

theorem Node.direntry_mem_cells : (n.entry.addr, .direntry n.entry.direntry) ∈ n.cells := by
  simp [Node.cells, Entry.mem_cells]

theorem addr_mem_cells : n.addr ∈ addrs n.cells := mem_addrs Node.inode_mem_cells

/-- A list of different inodes that ends with its first one. -/
theorem single_of_getLastD (hnodup : ((n :: ns).map Node.addr).Nodup)
    (heq : n.addr = ((n :: ns).map Node.addr).getLastD 0) : ns = [] := by
  rcases List.eq_nil_or_concat' ns with rfl | ⟨ns, t, rfl⟩
  · rfl
  · rw [← List.cons_append, List.map_append, List.map_singleton, List.getLastD_concat] at heq
    rw [List.map_cons, List.nodup_cons] at hnodup
    refine absurd ?_ hnodup.1
    rw [heq]
    exact List.mem_map_of_mem (List.mem_append_right _ List.mem_cons_self)

namespace Holds

/-- Two cells that are held apart are at different addresses. -/
theorem addr_ne {q : ℕ} {c : Cell} (h : Holds base s ({(p, c)} + rest)) (hq : q ∈ addrs rest) :
    p ≠ q := by
  rintro rfl
  exact Owns.notMem h hq

theorem nodup_nodes (h : Holds base s (nodeCells ns + rest)) : (ns.map Node.addr).Nodup :=
  Owns.nodup_map Node.cells (fun _ => addr_mem_cells) h

theorem entry_ne_zero (h : Holds base s (n.cells + rest)) : n.entry.addr ≠ 0 :=
  Owns.ne_zero h _ (mem_addrs (Multiset.mem_add.mpr (.inl Node.direntry_mem_cells)))

theorem node_ne_zero (h : Holds base s (n.cells + rest)) : n.addr ≠ 0 := by
  unfold Node.cells at h
  exact (h.congr (add_assoc _ _ _)).ne_zero

/-! ### Freeing

The loop of `vfs_free` frees the entry of an inode, its name, its list and the
inode.  It reads the address of the next inode before, and everything it
follows belongs to the node at hand, so that no cell is read after it has been
freed. -/

theorem freeDirentry (h : Holds base s (e.cells + rest)) :
    ∃ s', s.freeDirentry e.addr = .ok s' ∧ Holds base s' rest := by
  unfold Entry.cells at h
  have h := h.congr (add_assoc _ _ _)
  obtain ⟨s₁, hfree, h₁⟩ := (h.congr (add_left_comm _ _ _)).kfree
  obtain ⟨s', hfree', h'⟩ := h₁.kfree
  refine ⟨s', ?_, h'⟩
  unfold FsHeap.freeDirentry
  rw [h.fetch Cell.toDirentry rfl, Exec.ok_bind, hfree, Exec.ok_bind, hfree']

/-- What is read and freed of one inode: its entry and the name, then the
inode is read once more, then its list and the inode itself. -/
theorem freeNode (h : Holds base s (n.cells + rest)) (hn : n.Sound fsTmpfs v) :
    ∃ s₁ s', s.freeDirentryOf n.addr = .ok s₁ ∧
      s₁.fetch Cell.toInode n.addr = .ok n.inode ∧
      s₁.freeInode fsTmpfs n.addr = .ok s' ∧ Holds base s' rest := by
  unfold Node.cells at h
  have h := h.congr (o := {(n.addr, .inode n.inode)} + (n.entry.cells +
    ({(n.inode.data, listCell n.inode.inodeType n.list)} + (blockCells n.array + rest)))) (by abel)
  have hentry : n.inode.direntry ≠ 0 := by
    have h := h.congr (add_left_comm _ _ _)
    unfold Entry.cells at h
    rw [hn.direntry]
    exact (h.congr (add_assoc _ _ _)).ne_zero
  obtain ⟨s₁, hfree, h₁⟩ := (h.congr (add_left_comm _ _ _)).freeDirentry
  have h₁' := h₁.congr (add_left_comm _ _ _)
  have hlist : ∃ s₂, s₁.freeData n.inode = .ok s₂ ∧
      Holds base s₂ ({(n.addr, .inode n.inode)} + rest) := by
    unfold FsHeap.freeData
    cases htype : n.inode.inodeType with
    | file =>
        rw [htype] at h₁'
        refine Holds.u8aFree (h₁'.congr ?_) hn.header (hn.fit htype).pos
        unfold listCell
        abel
    | directory =>
        rw [htype] at h₁'
        refine Holds.vpaFree (h₁'.congr ?_) hn.header
        unfold listCell
        abel
  obtain ⟨s₂, hfree₂, h₂⟩ := hlist
  obtain ⟨s', hfree', h'⟩ := h₂.kfree
  refine ⟨s₁, s', ?_, h₁.fetch _ rfl, ?_, h'⟩
  · unfold FsHeap.freeDirentryOf
    rw [h.fetch Cell.toInode rfl, Exec.ok_bind, if_neg hentry, hn.direntry, hfree]
  · unfold FsHeap.freeInode FsHeap.tmpfsFreeInode
    rw [h₁.fetch Cell.toInode rfl, Exec.ok_bind, if_pos hn.fsIdentifier,
      Exec.ok_bind, hfree₂]
    exact hfree'

/-- The loop of `vfs_free` frees what the inode list owns. -/
theorem vfsFreeLoop (h : Holds base s (nodeCells ns + rest)) (hns : ∀ n ∈ ns, n.Sound fsTmpfs v)
    (hlinked : Linked hd ns) (hfuel : ns.length < fuel) :
    ∃ s', FsHeap.vfsFreeLoop fsTmpfs fuel s hd = .ok s' ∧ Holds base s' rest := by
  induction ns generalizing s hd fuel with
  | nil =>
      obtain ⟨fuel, rfl⟩ := Nat.exists_eq_add_one_of_ne_zero (Nat.ne_of_gt hfuel)
      exact ⟨s, if_pos hlinked, h.congr (zero_add rest)⟩
  | cons n ns ih =>
      obtain ⟨fuel, rfl⟩ := Nat.exists_eq_add_one_of_ne_zero (Nat.ne_zero_of_lt hfuel)
      obtain ⟨rfl, hnext⟩ := hlinked
      rw [nodeCells_cons] at h
      have h := h.congr (add_assoc _ _ _)
      obtain ⟨s₁, s₂, hentry, hlast, hfree, h₂⟩ := h.freeNode (hns n List.mem_cons_self)
      obtain ⟨s', hrest, h'⟩ := ih h₂ (fun n' hn' => hns n' (List.mem_cons_of_mem n hn')) hnext
        (Nat.lt_of_succ_lt_succ hfuel)
      refine ⟨s', ?_, h'⟩
      unfold FsHeap.vfsFreeLoop
      rw [if_neg h.node_ne_zero, hentry, Exec.ok_bind, hlast, Exec.ok_bind, hfree, Exec.ok_bind,
        hrest]

/-- **`vfs_free`** returns and frees all that the `Vfs` leads to, each cell
once.  What is left are the cells beside it, among them those that were lost
before. -/
theorem vfsFree {V : Vfs} {table : Option (ℕ × Block UInt8)}
    (h : Holds base s ({(v, .vfs V)} + (blockCells table + (nodeCells ns + rest))))
    (hns : ∀ n ∈ ns, n.Sound fsTmpfs v) (htable : V.filesystems = pointer table)
    (hlinked : Linked V.head ns) (htail : V.tail = (ns.map Node.addr).getLastD 0)
    (hfuel : ns.length < fuel) :
    ∃ s', s.vfsFree fsTmpfs fuel v = .ok s' ∧ Holds base s' rest := by
  have hnodes := h.congr (o := nodeCells ns + ({(v, .vfs V)} + (blockCells table + rest)))
    (by abel)
  have hall : ∃ s₁, s.vfsFreeInodes fsTmpfs fuel V = .ok s₁ ∧
      Holds base s₁ ({(v, .vfs V)} + (blockCells table + rest)) := by
    unfold FsHeap.vfsFreeInodes
    cases ns with
    | nil =>
        rw [if_pos (show V.head = 0 from hlinked), if_pos (show V.tail = 0 from htail)]
        exact ⟨s, rfl, hnodes.congr (zero_add _)⟩
    | cons n ns =>
        obtain ⟨hhead, -⟩ := id hlinked
        have hcells := hnodes.congr (by rw [nodeCells_cons, add_assoc])
        rw [if_neg (show V.head ≠ 0 from hhead ▸ hcells.node_ne_zero)]
        by_cases hsingle : V.head = V.tail
        · -- the tail is the head: it is the only inode
          have hnil : ns = [] := by
            rw [htail, hhead] at hsingle
            exact single_of_getLastD hnodes.nodup_nodes hsingle
          subst hnil
          obtain ⟨s₁, s', hentry, -, hfree, h'⟩ := hcells.freeNode (hns n List.mem_cons_self)
          refine ⟨s', ?_, h'.congr (zero_add _)⟩
          rw [if_pos hsingle, hhead, hentry, Exec.ok_bind, hfree]
        · rw [if_neg hsingle]
          exact hnodes.vfsFreeLoop hns hlinked hfuel
  obtain ⟨s₁, hfree₁, h₁⟩ := hall
  obtain ⟨s₂, hfree₂, h₂⟩ := (h₁.congr (add_left_comm _ _ _)).kfree_pointer
  obtain ⟨s', hfree', h'⟩ := h₂.kfree
  refine ⟨s', ?_, h'⟩
  unfold FsHeap.vfsFree
  rw [h.fetch Cell.toVfs rfl, Exec.ok_bind, hfree₁, Exec.ok_bind,
    h₁.fetch Cell.toVfs rfl, Exec.ok_bind, htable, hfree₂, Exec.ok_bind, hfree']

end Holds

end CourseOs.Fs.FsHeap
