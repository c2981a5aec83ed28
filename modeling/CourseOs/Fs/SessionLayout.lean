import CourseOs.Fs.FsHeapFiles
import Mathlib.Data.Multiset.OrderedMonoid

/-!
# What a session has allocated

A `Layout` lists what a session owns: its `Vfs` with the table of file
systems, the nodes of the inode list in their order, the entries without an
inode, the open files, and the cells that were lost.  `Layout.own` is the
multiset of its cells, and `Session.Inv` says that the heap consists of these
and of what was there before the session.

* `Layout.Sound` is about pointers: every node is whole, the nodes are linked
  in the order of the layout and end at `tail`, and every open file leads to a
  node.
* `Sound.replace` and `Sound.concat` are the two ways in which calls change
  the inode list: a node is written to and stays where it is, or a new one
  comes behind the last.
* `own_node`, `own_spare` and `own_file` bring the cells of one item to the
  front, which is the form that the lemmas about single routines ask for.
* `nodup_*` say that items of one kind are at different addresses.

Lost cells are part of the layout, so that what `vfs_free` cannot reach is
still accounted for.
-/

namespace CourseOs.Fs

open FsHeap SymbolicHeap

variable {base : ℕ → Option Cell} {h h' : FsHeap} {s s' : Session} {rest : Multiset (ℕ × Cell)}
  {fsTmpfs v p hd : ℕ} {m grow : Supply} {n n' t : Node} {e : Entry} {ns l r : List Node}
  {err err' : VfsErr} {f : File}

namespace FsHeap

/-- All that a session has allocated: the `Vfs` and its table, the inodes in
the order of their list, the entries without inodes, the open files, and what
was lost. -/
structure Layout where
  vfs : FsHeap.Vfs
  table : Option (ℕ × Block UInt8)
  nodes : List Node
  spare : List Entry
  files : List (ℕ × File)
  lost : Multiset (ℕ × Cell)

namespace Layout

/-- The entries of the inodes, and those without one. -/
def entries (L : Layout) : List Entry := L.nodes.map Node.entry ++ L.spare

/-- The cells of the entries without an inode, which nothing in the file
system leads to. -/
def spareCells (L : Layout) : Multiset (ℕ × Cell) := (L.spare.map Entry.cells).sum

/-- The cells of the open files, one each. -/
def fileCells (L : Layout) : Multiset (ℕ × Cell) :=
  (L.files.map fun f => ({(f.1, .file f.2)} : Multiset (ℕ × Cell))).sum

/-- The cells of the `Vfs` and its table, and of the inodes. -/
def own (v : ℕ) (L : Layout) : Multiset (ℕ × Cell) :=
  {(v, .vfs L.vfs)} + (blockCells L.table +
    (nodeCells L.nodes + (L.spareCells + (L.fileCells + L.lost))))

/-- The pointers of a layout lead to what is in it.  The inode list has the
nodes in their order, and each open file was opened on one of them. -/
structure Sound (fsTmpfs v : ℕ) (L : Layout) : Prop where
  nodes : ∀ n ∈ L.nodes, n.Sound fsTmpfs v
  table : L.vfs.filesystems = pointer L.table
  linked : Linked L.vfs.head L.nodes
  tail : L.vfs.tail = (L.nodes.map Node.addr).getLastD 0
  files : ∀ f ∈ L.files, ∃ n ∈ L.nodes, n.Opens f.2
  spare : ∀ e ∈ L.spare, e.addr < 2 ^ 32

end Layout

end FsHeap

/-- The layout of a session.  The heap has its cells and, besides, what it had
before; the addresses that clients know are those of the layout. -/
structure Session.Inv (base : ℕ → Option Cell) (fsTmpfs : ℕ) (s : Session) (L : Layout) : Prop
    extends L.Sound fsTmpfs s.vfs where
  holds : Holds base s.heap (L.own s.vfs)
  inodes : L.nodes.map Node.addr = s.inodes
  entries : L.spare.map Entry.addr = s.entries
  opened : L.files.map Prod.fst = s.files

namespace FsHeap

/-- A node at the same place in the list, for the files that are open.  Its
list and its counter may be others. -/
structure Node.SamePlace (n n' : Node) : Prop where
  addr : n'.addr = n.addr
  next : n'.inode.next = n.inode.next
  opens : ∀ f, n.Opens f → n'.Opens f

/-- The count of references is not part of that. -/
theorem Node.samePlace_withRefcount (n : Node) {refcount : ℕ} :
    n.SamePlace (n.withRefcount refcount) :=
  ⟨rfl, rfl, fun _ hf => ⟨hf.dentry, hf.position⟩⟩

theorem Node.Sound.withRefcount (hn : n.Sound fsTmpfs v) (refcount : ℕ) :
    (n.withRefcount refcount).Sound fsTmpfs v :=
  ⟨hn.direntry, hn.back, hn.fsIdentifier, hn.vfs, hn.header, hn.fit, hn.slots⟩

/-- Nor is the list of a directory. -/
theorem Node.samePlace_withList (hdir : n.inode.inodeType = .directory) (list : ListHeader)
    (array : Option (ℕ × Block UInt8)) : n.SamePlace (n.withList list array) :=
  ⟨rfl, rfl, fun _ hf => ⟨hf.dentry, fun hfile => nomatch hdir.symm.trans hfile⟩⟩

theorem Linked.replace (h : Linked hd (l ++ n :: r)) (hn : n.SamePlace n') :
    Linked hd (l ++ n' :: r) := by
  induction l generalizing hd with
  | nil => exact ⟨h.1.trans hn.addr.symm, hn.next.symm ▸ h.2⟩
  | cons x l ih => exact ⟨h.1, ih h.2⟩

/-- A node behind the last one. -/
theorem Linked.concat (h : Linked hd (l ++ [t])) (hn : n.inode.next = 0) :
    Linked hd (l ++ [t.withNext n.addr, n]) := by
  induction l generalizing hd with
  | nil => exact ⟨h.1, rfl, hn⟩
  | cons x l ih => exact ⟨h.1, ih h.2⟩

namespace Layout

variable {L : Layout}

/-- A node replaced by one at the same place: the list of inodes still leads
through it, and the open files that were on it still are. -/
theorem Sound.replace (n' : Node) (hL : L.Sound fsTmpfs v) (hnodes : L.nodes = l ++ n :: r)
    (hplace : n.SamePlace n') (hn : n'.Sound fsTmpfs v) :
    Sound fsTmpfs v { L with nodes := l ++ n' :: r } := by
  have haddr : (l ++ n' :: r).map Node.addr = L.nodes.map Node.addr := by
    rw [hnodes, List.map_append, List.map_append, List.map_cons, List.map_cons, hplace.addr]
  constructor
  · intro x hx
    rcases List.mem_append.mp hx with hx | hx
    · exact hL.nodes x (hnodes ▸ List.mem_append_left _ hx)
    · rcases List.mem_cons.mp hx with rfl | hx
      · exact hn
      · exact hL.nodes x (hnodes ▸ List.mem_append_right _ (List.mem_cons_of_mem _ hx))
  · exact hL.table
  · exact (hnodes ▸ hL.linked).replace hplace
  · exact hL.tail.trans (congrArg (List.getLastD · 0) haddr.symm)
  · intro f hf
    obtain ⟨x, hx, hopen⟩ := hL.files f hf
    rw [hnodes] at hx
    rcases List.mem_append.mp hx with hx | hx
    · exact ⟨x, List.mem_append_left _ hx, hopen⟩
    · rcases List.mem_cons.mp hx with rfl | hx
      · exact ⟨n', List.mem_append_right _ List.mem_cons_self, hplace.opens _ hopen⟩
      · exact ⟨x, List.mem_append_right _ (List.mem_cons_of_mem _ hx), hopen⟩
  · exact hL.spare

/-- A node behind the last one, where `vfs_add_inode` puts it: the last one
leads to it, and the tail is the new one. -/
theorem Sound.concat (hL : L.Sound fsTmpfs v) (hnodes : L.nodes = l ++ [t])
    (hn : n.Sound fsTmpfs v) (hnext : n.inode.next = 0) :
    Sound fsTmpfs v { L with
      vfs := { L.vfs with tail := n.addr }
      nodes := l ++ [t.withNext n.addr, n] } := by
  have ht := hL.nodes t (hnodes ▸ List.mem_append_right _ List.mem_cons_self)
  constructor
  · intro x hx
    rcases List.mem_append.mp hx with hx | hx
    · exact hL.nodes x (hnodes ▸ List.mem_append_left _ hx)
    · rcases List.mem_cons.mp hx with rfl | hx
      · exact ⟨ht.direntry, ht.back, ht.fsIdentifier, ht.vfs, ht.header, ht.fit, ht.slots⟩
      · exact List.mem_singleton.mp hx ▸ hn
  · exact hL.table
  · exact (hnodes ▸ hL.linked).concat hnext
  · simp
  · intro f hf
    obtain ⟨x, hx, hopen⟩ := hL.files f hf
    rw [hnodes] at hx
    rcases List.mem_append.mp hx with hx | hx
    · exact ⟨x, List.mem_append_left _ hx, hopen⟩
    · cases List.mem_singleton.mp hx
      exact ⟨_, List.mem_append_right _ List.mem_cons_self, hopen.dentry, hopen.position⟩
  · exact hL.spare

section Own

variable {V : FsHeap.Vfs} {table : Option (ℕ × Block UInt8)} {spare sr : List Entry}
  {files fr : List (ℕ × File)} {lost : Multiset (ℕ × Cell)} {fp : ℕ}

theorem own_node : own v ⟨V, table, l ++ n :: r, spare, files, lost⟩ =
    n.cells + own v ⟨V, table, l ++ r, spare, files, lost⟩ := by
  unfold own
  rw [nodeCells_append, nodeCells_cons, nodeCells_append]
  unfold spareCells fileCells
  abel

theorem own_spare (sl : List Entry) : own v ⟨V, table, ns, sl ++ e :: sr, files, lost⟩ =
    e.cells + own v ⟨V, table, ns, sl ++ sr, files, lost⟩ := by
  unfold own spareCells fileCells
  dsimp only
  rw [List.map_append, List.map_cons, List.sum_append, List.sum_cons, List.map_append,
    List.sum_append]
  abel

theorem own_file (fl : List (ℕ × File)) : own v ⟨V, table, ns, spare, fl ++ (fp, f) :: fr, lost⟩ =
    {(fp, .file f)} + own v ⟨V, table, ns, spare, fl ++ fr, lost⟩ := by
  unfold own spareCells fileCells
  dsimp only
  rw [List.map_append, List.map_cons, List.sum_append, List.sum_cons, List.map_append,
    List.sum_append]
  abel

end Own

end Layout

namespace Holds

variable {L : Layout}

theorem nodup_files (h : Holds base h' (L.own v)) : (L.files.map Prod.fst).Nodup := by
  refine Owns.nodup_map (fun f : ℕ × File => {(f.1, Cell.file f.2)}) (fun f => by simp)
    (h.congr (o := L.fileCells + ({(v, .vfs L.vfs)} + (blockCells L.table +
      (nodeCells L.nodes + (L.spareCells + L.lost))))) ?_)
  unfold Layout.own Layout.fileCells
  abel

/-- Entries are at different addresses, whether or not they have an inode. -/
theorem nodup_entries (h : Holds base h' (L.own v)) : (L.entries.map Entry.addr).Nodup := by
  have hcells : L.own v = ((L.nodes.map Sum.inl ++ L.spare.map Sum.inr).map
      (Sum.elim Node.cells Entry.cells)).sum +
        ({(v, .vfs L.vfs)} + (blockCells L.table + (L.fileCells + L.lost))) := by
    rw [List.map_append, List.map_map, List.map_map, List.sum_append, Sum.elim_comp_inl,
      Sum.elim_comp_inr]
    unfold Layout.own Layout.spareCells nodeCells
    abel
  have hnodup : ((L.nodes.map Sum.inl ++ L.spare.map Sum.inr).map
      (Sum.elim (Entry.addr ∘ Node.entry) Entry.addr)).Nodup := by
    refine Owns.nodup_map (Sum.elim Node.cells Entry.cells) (fun x => ?_) (h.congr hcells)
    cases x with
    | inl n => exact mem_addrs n.direntry_mem_cells
    | inr e => exact mem_addrs e.mem_cells
  rw [List.map_append, List.map_map, List.map_map, Sum.elim_comp_inl, Sum.elim_comp_inr] at hnodup
  unfold Layout.entries
  rw [List.map_append, List.map_map]
  exact hnodup

theorem nodup_spare (h : Holds base h' (L.own v)) : (L.spare.map Entry.addr).Nodup := by
  have hnodup := h.nodup_entries
  unfold Layout.entries at hnodup
  rw [List.map_append] at hnodup
  exact (List.nodup_append.mp hnodup).2.1

/-- The addresses of inodes are no null pointers, -/
theorem inode_ne_zero (h : Holds base h' (L.own v)) (hn : n ∈ L.nodes) : n.addr ≠ 0 := by
  obtain ⟨l, r, hnodes⟩ := List.append_of_mem hn
  obtain ⟨V, table, nodes, spare, files, lost⟩ := L
  subst hnodes
  exact (h.congr Layout.own_node).node_ne_zero

/-- and neither are those of entries. -/
theorem direntry_ne_zero (h : Holds base h' (L.own v)) (he : e ∈ L.entries) : e.addr ≠ 0 := by
  obtain ⟨V, table, nodes, spare, files, lost⟩ := L
  rcases List.mem_append.mp he with he | he
  · obtain ⟨n, hn, rfl⟩ := List.mem_map.mp he
    obtain ⟨l, r, rfl⟩ := List.append_of_mem hn
    exact (h.congr Layout.own_node).entry_ne_zero
  · obtain ⟨sl, sr, rfl⟩ := List.append_of_mem he
    exact Owns.ne_zero (h.congr (Layout.own_spare sl)) _
      (mem_addrs (Multiset.mem_add.mpr (.inl e.mem_cells)))

theorem nodup_inodes (h : Holds base h' (L.own v)) : (L.nodes.map Node.addr).Nodup := by
  refine nodup_nodes (h.congr (o := nodeCells L.nodes + ({(v, .vfs L.vfs)} +
    (blockCells L.table + (L.spareCells + (L.fileCells + L.lost))))) ?_)
  unfold Layout.own
  abel

end Holds

end FsHeap

end CourseOs.Fs
