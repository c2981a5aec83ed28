import CourseOs.Fs.SessionLayout
import CourseOs.Fs.Tree

/-!
# Sessions as runs of tmpfs

`Fs.Tmpfs` has the routines of `fs/tmpfs/tmpfs.c` without the heap: inodes,
entries and open files are in stores of their own, and a list is a value of
its inode.  `Fs.FsHeap` has the same routines on the heap, with each list,
array and name in a block.  This module connects the two.

* `Shown` says that a store has given items at their addresses.  It says
  nothing about other addresses, because the heap that a session starts from
  may hold anything.
* `Layout.Shows` is the simulation relation: the stores of a `Vfs` have the
  nodes, entries and files of a layout, each with what its blocks hold
  (`Node.view`, `Entry.view`), and the list of inodes and the counter agree.
* `SessionCall.Spec` is the call of a session in the model without a heap.
  The blocks that `kmalloc` had for it are arguments there, and exist here.
* `Layout.Simulates` says of a call and of two layouts that the call of the
  specification leads from every file system that shows the one to a file
  system that shows the other.

There is one lemma for each call, and it is about layouts alone; what the call
does on the heap is in `Fs.SessionInv`.
-/

namespace CourseOs.Fs

open FsHeap SymbolicHeap

variable {base base' : ℕ → Option Cell} {h h' : FsHeap} {v v' cnt : ℕ} {n n' tl new : Node}
  {e : Entry} {l r init : List Node} {f : File} {V : FsHeap.Vfs}
  {table : Option (ℕ × Block UInt8)} {nodes : List Node} {spare sl sr : List Entry}
  {files fl fr : List (ℕ × File)} {lost lost' : Multiset (ℕ × Cell)} {t : Fs.Vfs}

/-! ### Stores

The other model keeps inodes, entries and open files in three maps.  That a
map shows some items is a statement about these items only, since `vfs_free`
and lost cells have no counterpart there. -/

section Stores

variable {α β : Type} {store : ℕ → Option β} {addr : α → ℕ} {view : α → β} {a a' : α}
  {xs ys : List α}

/-- The store has what each of the items looks like, at its address. -/
def Shown (store : ℕ → Option β) (addr : α → ℕ) (view : α → β) (xs : List α) : Prop :=
  ∀ x ∈ xs, store (addr x) = some (view x)

theorem Shown.fetch (hx : Shown store addr view xs) (ha : a ∈ xs) (hne : addr a ≠ 0) :
    Fs.Vfs.fetch store (addr a) = .ok (view a) :=
  Fs.Vfs.fetch_eq hne (hx a ha)

theorem Shown.mono (hx : Shown store addr view xs) (hsub : ys ⊆ xs) : Shown store addr view ys :=
  fun y hy => hx y (hsub hy)

/-- An item written that was not there. -/
theorem Shown.cons (hx : Shown store addr view xs) (hnew : ((a :: xs).map addr).Nodup) :
    Shown (Function.update store (addr a) (some (view a))) addr view (a :: xs) := by
  rw [List.map_cons, List.nodup_cons] at hnew
  intro y hy
  rcases List.mem_cons.mp hy with rfl | hy
  · exact Function.update_self ..
  · have hne : addr y ≠ addr a := fun heq => hnew.1 (heq ▸ List.mem_map_of_mem hy)
    exact (Function.update_of_ne hne _ _).trans (hx y hy)

/-- An item written that was there, and one taken out. -/
theorem Shown.others (hx : Shown store addr view (xs ++ a :: ys))
    (hnodup : ((xs ++ a :: ys).map addr).Nodup) (b : Option β) :
    Shown (Function.update store (addr a) b) addr view (xs ++ ys) := by
  have hperm : ((a :: (xs ++ ys)).map addr).Nodup :=
    (List.perm_middle.map addr).nodup_iff.mp hnodup
  rw [List.map_cons, List.nodup_cons] at hperm
  intro y hy
  have hne : addr y ≠ addr a := fun heq => hperm.1 (heq ▸ List.mem_map_of_mem hy)
  refine (Function.update_of_ne hne _ _).trans (hx y ?_)
  rcases List.mem_append.mp hy with hy | hy
  · exact List.mem_append_left _ hy
  · exact List.mem_append_right _ (List.mem_cons_of_mem a hy)

theorem Shown.replace (a' : α) (hx : Shown store addr view (xs ++ a :: ys))
    (hnodup : ((xs ++ a :: ys).map addr).Nodup) (haddr : addr a' = addr a) :
    Shown (Function.update store (addr a) (some (view a'))) addr view (xs ++ a' :: ys) := by
  intro y hy
  rcases List.mem_cons.mp (List.perm_middle.mem_iff.mp hy) with rfl | hy
  · rw [haddr]
    exact Function.update_self ..
  · exact hx.others hnodup _ y hy

end Stores

/-! ### The simulation relation

A layout shows a file system when each of its items is in the store of its
kind, with lists and names read out of their blocks.  What is lost on the heap
is not shown. -/

/-- The file system has what the layout has: each inode, entry and open file
with what is in its blocks, the ends of the inode list, and the counter of
inodes. -/
structure FsHeap.Layout.Shows (L : Layout) (cnt : ℕ) (t : Fs.Vfs) : Prop where
  inodes : Shown t.inodes Node.addr Node.view L.nodes
  entries : Shown t.dentries Entry.addr Entry.view L.entries
  files : Shown t.files Prod.fst Prod.snd L.files
  head : t.head = L.vfs.head
  tail : t.tail = L.vfs.tail
  cnt : t.cnt = cnt

/-- The call without a heap: it may return `a` in `t` and leave `t'`.  The
addresses of what it allocates and the memory for its arrays are among its
arguments there. -/
def SessionCall.Spec : SessionCall → Fs.Vfs → ℕ → Fs.Vfs → Prop
  | direntry _ name parent, t, a, t' => ∃ inode,
      t' = Fs.createDirentry a (Fs.qstrFromNullTerminatedString (name.takeWhile (· ≠ 0))) parent
        inode t
  | create type im grow parent entry, t, a, t' => ∃ data size mem, NewData im.array type data ∧
      mem.map Block.size = (grow.block size).map Block.size ∧
      Fs.tmpfsCreate type data a mem t parent entry .ok = .ok (t', a, .ok)
  | .open _ inode, t, a, t' => Fs.tmpfsOpenFile a t inode .ok = .ok (t', a, .ok)
  | write m file buf, t, a, t' => ∃ size,
      Fs.tmpfsWriteFile (m.block size) t file buf = .ok (t', a)
  | close file, t, a, t' => a = 0 ∧ Fs.tmpfsCloseFile t file = .ok t'

/-- The call leads from what shows the one layout to what shows the other. -/
def FsHeap.Layout.Simulates (call : SessionCall) (L : Layout) (cnt a : ℕ) (L' : Layout)
    (cnt' : ℕ) : Prop :=
  ∀ t, L.Shows cnt t → ∃ t', call.Spec t a t' ∧ L'.Shows cnt' t'

namespace FsHeap.Layout

/-! ### The root

The two models are in step from the moment the root has been made. -/

/-- The layout with a root and nothing else shows what `create_tmpfs_root`
makes, from any file system. -/
theorem exists_shows_root {array : Supply} (hnew : n.IsNew cnt .directory n.entry.addr array)
    (hview : n.entry.view = ⟨n.addr, Fs.qstrFromNullTerminatedString [47], 0⟩)
    (hhead : V.head = n.addr) (htail : V.tail = n.addr) :
    ∃ mem, mem.map Block.size =
        (array.block (tmpfsDefaultDirAllocSize * sizeofPointer)).map Block.size ∧
      ∀ t : Fs.Vfs, t.cnt = cnt → Layout.Shows ⟨V, table, [n], [], [], lost⟩ ((cnt + 1) % 2 ^ 32)
        (Fs.createTmpfsRoot n.entry.addr n.addr mem t) := by
  obtain ⟨data, ⟨mem, hmem, rfl⟩, hinode⟩ := hnew
  refine ⟨mem, hmem, fun t ht => ?_⟩
  subst ht
  refine ⟨fun x hx => ?_, fun x hx => ?_, nofun, hhead.symm, htail.symm, rfl⟩
  · cases List.mem_singleton.mp hx
    rw [hinode]
    exact Function.update_self ..
  · cases List.mem_singleton.mp hx
    rw [hview]
    exact Function.update_self ..

/-! ### The calls

Each call changes the layout and the stores in the same way.  The creation is
the one with work in it, as it touches three inodes, two of which may be the
same. -/

theorem simulates_direntry {em : EntryMemory} {name : List UInt8} {parent : ℕ}
    (hname : e.qstr = Fs.qstrFromNullTerminatedString (name.takeWhile (· ≠ 0)))
    (hparent : e.direntry.parent = parent)
    (hnew : Holds base h (Layout.own v ⟨V, table, nodes, e :: spare, files, lost⟩)) :
    Simulates (.direntry em name parent) ⟨V, table, nodes, spare, files, lost⟩ cnt e.addr
      ⟨V, table, nodes, e :: spare, files, lost⟩ cnt := by
  intro t ht
  refine ⟨Fs.createDirentry e.addr e.qstr e.direntry.parent e.direntry.inode t,
    ⟨e.direntry.inode, by rw [hname, hparent]⟩, ht.inodes, ?_, ht.files, ht.head, ht.tail, ht.cnt⟩
  have hperm : (nodes.map Node.entry ++ e :: spare).Perm (e :: (nodes.map Node.entry ++ spare)) :=
    List.perm_middle
  exact (ht.entries.cons ((hperm.map Entry.addr).nodup_iff.mp hnew.nodup_entries)).mono hperm.subset

/-- The entries are the same when a node is replaced by one that keeps its
entry. -/
theorem Shows.entries_replace {files' : List (ℕ × File)}
    (ht : Layout.Shows ⟨V, table, l ++ n :: r, spare, files, lost⟩ cnt t)
    (hentry : n'.entry = n.entry) :
    Shown t.dentries Entry.addr Entry.view
      (Layout.entries ⟨V, table, l ++ n' :: r, spare, files', lost⟩) := by
  have hentries := ht.entries
  unfold Layout.entries at hentries ⊢
  rw [List.map_append, List.map_cons] at hentries ⊢
  rw [hentry]
  exact hentries

/-- An open for which there is no memory does nothing. -/
theorem simulates_refused {L : Layout} {m : Supply} {inode : ℕ} :
    L.Simulates (.open m inode) cnt 0 L cnt :=
  fun t ht => ⟨t, rfl, ht⟩

theorem simulates_open {m : Supply} {file : ℕ}
    (hold : Holds base h (Layout.own v ⟨V, table, l ++ n :: r, spare, files, lost⟩))
    (hnew : Holds base' h' (Layout.own v' ⟨V, table,
      l ++ n.withRefcount ((n.inode.refcount + 1) % 2 ^ 32) :: r, spare,
      (file, ⟨n.inode.direntry, 0⟩) :: files, lost⟩)) :
    Simulates (.open m n.addr) ⟨V, table, l ++ n :: r, spare, files, lost⟩ cnt file
      ⟨V, table, l ++ n.withRefcount ((n.inode.refcount + 1) % 2 ^ 32) :: r, spare,
        (file, ⟨n.inode.direntry, 0⟩) :: files, lost⟩ cnt := by
  intro t ht
  have hfile : file ≠ 0 := (hnew.congr (Layout.own_file [])).ne_zero
  have hinode : t.inode n.addr = .ok n.view :=
    ht.inodes.fetch (by simp) (hold.congr Layout.own_node).node_ne_zero
  refine ⟨(t.putInode n.addr (n.withRefcount ((n.inode.refcount + 1) % 2 ^ 32)).view).putFile file
    ⟨n.inode.direntry, 0⟩, ?_, ht.inodes.replace (n.withRefcount _) hold.nodup_inodes rfl, ?_,
    ht.files.cons hnew.nodup_files, ht.head, ht.tail, ht.cnt⟩
  · show Fs.tmpfsOpenFile file t n.addr .ok = _
    unfold Fs.tmpfsOpenFile
    rw [if_neg hfile, hinode]
    rfl
  · exact ht.entries_replace rfl

/-- Where an open file leads, in what shows the layout: to the same entry and
the same inode as on the heap. -/
theorem Shows.opened {file : ℕ}
    (ht : Layout.Shows ⟨V, table, l ++ n :: r, spare, fl ++ (file, f) :: fr, lost⟩ cnt t)
    (hold : Holds base h
      (Layout.own v ⟨V, table, l ++ n :: r, spare, fl ++ (file, f) :: fr, lost⟩))
    (hdentry : f.dentry = n.entry.addr) (hback : n.entry.direntry.inode = n.addr) :
    t.file file = .ok f ∧ t.dentry f.dentry = .ok n.entry.view ∧
      t.inode n.entry.view.inode = .ok n.view := by
  have hnode := hold.congr Layout.own_node
  refine ⟨?_, ?_, ?_⟩
  · exact ht.files.fetch (a := (file, f)) (by simp) (hold.congr (Layout.own_file fl)).ne_zero
  · rw [hdentry]
    exact ht.entries.fetch (List.mem_append_left _ (List.mem_map_of_mem (by simp)))
      hnode.entry_ne_zero
  · rw [show n.entry.view.inode = n.addr from hback]
    exact ht.inodes.fetch (by simp) hnode.node_ne_zero

theorem simulates_close {file : ℕ} (cnt : ℕ)
    (hold : Holds base h
      (Layout.own v ⟨V, table, l ++ n :: r, spare, fl ++ (file, f) :: fr, lost⟩))
    (hdentry : f.dentry = n.entry.addr) (hback : n.entry.direntry.inode = n.addr) :
    Simulates (.close file) ⟨V, table, l ++ n :: r, spare, fl ++ (file, f) :: fr, lost⟩ cnt 0
      ⟨V, table, l ++ n.withRefcount (sub32 n.inode.refcount 1) :: r, spare, fl ++ fr, lost⟩
      cnt := by
  intro t ht
  obtain ⟨hfile, hentry, hinode⟩ := ht.opened hold hdentry hback
  refine ⟨{ t.putInode n.addr (n.withRefcount (sub32 n.inode.refcount 1)).view with
      files := Function.update t.files file none }, ⟨rfl, ?_⟩,
    ht.inodes.replace (n.withRefcount (sub32 n.inode.refcount 1)) hold.nodup_inodes
      n.withRefcount_addr, ?_, ht.files.others hold.nodup_files none, ht.head, ht.tail,
    ht.cnt⟩
  · unfold Fs.tmpfsCloseFile
    rw [hfile, Exec.ok_bind, hentry, Exec.ok_bind, hinode, Exec.ok_bind,
      show n.entry.view.inode = n.addr from hback, n.withRefcount_view]
    rfl
  · exact ht.entries_replace n.withRefcount_entry

/-- The write that the layout describes is the one of the model without
addresses, on the inode that the file's entry names. -/
theorem simulates_write {m : Supply} {file : ℕ} {buf : List UInt8} {list : ListHeader}
    {array : Option (ℕ × Block UInt8)}
    (hold : Holds base h
      (Layout.own v ⟨V, table, l ++ n :: r, spare, fl ++ (file, f) :: fr, lost⟩))
    (hdentry : f.dentry = n.entry.addr) (hback : n.entry.direntry.inode = n.addr)
    (htype : n.inode.inodeType = .file)
    (hwrites : Writes (m.block ((n.list.capacity + buf.length) % 2 ^ 32)) f.filePosition buf
      (u8View n.list n.array) (u8View list array)) :
    Simulates (.write m file buf) ⟨V, table, l ++ n :: r, spare, fl ++ (file, f) :: fr, lost⟩ cnt
      buf.length ⟨V, table, l ++ n.withList list array :: r, spare,
        fl ++ (file, { f with filePosition := (f.filePosition + buf.length) % 2 ^ 32 }) :: fr,
        lost⟩ cnt := by
  intro t ht
  obtain ⟨hfile, hentry, hinode⟩ := ht.opened hold hdentry hback
  obtain ⟨block, hcopy, hlist⟩ := hwrites
  have hdata : n.view.data = .filedata (u8View n.list n.array) := by
    unfold Node.view dataView
    rw [htype]
  have hview : (n.withList list array).view =
      { n.view with data := .filedata (u8View list array) } := by
    unfold Node.view dataView Node.withList
    rw [htype]
  have hinodes := ht.inodes.replace (n.withList list array) hold.nodup_inodes rfl
  have hfiles := ht.files.replace
    (file, { f with filePosition := (f.filePosition + buf.length) % 2 ^ 32 }) hold.nodup_files rfl
  rw [hview] at hinodes
  refine ⟨(t.putInode n.addr { n.view with data := .filedata (u8View list array) }).putFile file
      { f with filePosition := (f.filePosition + buf.length) % 2 ^ 32 },
    ⟨(n.list.capacity + buf.length) % 2 ^ 32, ?_⟩, hinodes, ?_, hfiles, ht.head, ht.tail, ht.cnt⟩
  · unfold Fs.tmpfsWriteFile Fs.filedata
    rw [hfile, Exec.ok_bind, hentry, Exec.ok_bind, hinode, Exec.ok_bind, hdata]
    dsimp only
    rw [Exec.ok_bind]
    dsimp only
    rw [show (u8View n.list n.array).capacity = n.list.capacity from rfl] at hcopy hlist
    rw [show (u8View n.list n.array).capacity = n.list.capacity from rfl, hcopy, Exec.ok_bind,
      hlist, show n.entry.view.inode = n.addr from hback]
  · exact ht.entries_replace rfl

/-- A creation makes an inode at an address of its own, whichever of the old
nodes was last and whichever the parent. -/
theorem nodup_create {list : ListHeader} {array : Option (ℕ × Block UInt8)}
    (hlast : l ++ n.withList list array :: r = init ++ [tl])
    (hnew : ((init ++ [tl.withNext new.addr, new]).map Node.addr).Nodup) :
    ((new :: (init ++ [tl])).map Node.addr).Nodup ∧
      ((new :: (l ++ n :: r)).map Node.addr).Nodup := by
  have hmap : (l ++ n :: r).map Node.addr = (init ++ [tl]).map Node.addr := by
    rw [← hlast, List.map_append, List.map_append]
    rfl
  have hperm : ((new :: (init ++ [tl])).map Node.addr).Nodup := by
    refine ((List.perm_append_singleton new (init ++ [tl])).map Node.addr).nodup_iff.mp ?_
    simpa [Node.withNext] using hnew
  refine ⟨hperm, ?_⟩
  rw [List.map_cons, hmap, ← List.map_cons]
  exact hperm

/-- The inodes after a creation: the new one, the parent with its list, and
the last one with its successor. -/
theorem inodes_create {list : ListHeader} {array : Option (ℕ × Block UInt8)}
    {store : ℕ → Option Fs.TmpfsInode} (hinodes : Shown store Node.addr Node.view (l ++ n :: r))
    (hdir : n.inode.inodeType = .directory) (hlast : l ++ n.withList list array :: r = init ++ [tl])
    (hnew : ((init ++ [tl.withNext new.addr, new]).map Node.addr).Nodup) :
    (Function.update store n.addr (some { n.view with data := .direntries (vpView list array) }))
        tl.addr = some tl.view ∧
      Shown (Function.update (Function.update
          (Function.update store new.addr (some new.view)) n.addr
          (some { n.view with data := .direntries (vpView list array) })) tl.addr
          (some { tl.view with next := new.addr }))
        Node.addr Node.view (init ++ [tl.withNext new.addr, new]) := by
  have hview : (n.withList list array).view =
      { n.view with data := .direntries (vpView list array) } := by
    unfold Node.view dataView Node.withList
    rw [hdir]
  obtain ⟨hperm, hold⟩ := nodup_create hlast hnew
  have hparent := fun (store : ℕ → Option Fs.TmpfsInode)
      (h : Shown store Node.addr Node.view (l ++ n :: r)) =>
    h.replace (n.withList list array) (List.nodup_cons.mp hold).2 rfl
  rw [hview, hlast] at hparent
  refine ⟨hparent store hinodes tl (by simp), ?_⟩
  have hboth : Shown _ Node.addr Node.view ((new :: l) ++ n :: r) := hinodes.cons hold
  have hthree := hboth.replace (n.withList list array) hold rfl
  rw [hview, List.cons_append, hlast, ← List.cons_append] at hthree
  refine (hthree.replace (tl.withNext new.addr) hperm rfl).mono fun x hx => ?_
  simp only [List.mem_append, List.mem_cons, List.not_mem_nil, or_false] at hx ⊢
  tauto

/-- The entries after a creation: the new inode has the one that had none. -/
theorem Shows.entries_create {list : ListHeader} {array : Option (ℕ × Block UInt8)}
    (ht : Layout.Shows ⟨V, table, l ++ n :: r, sl ++ e :: sr, files, lost⟩ cnt t)
    (hold : Holds base h (Layout.own v ⟨V, table, l ++ n :: r, sl ++ e :: sr, files, lost⟩))
    (hlast : l ++ n.withList list array :: r = init ++ [tl]) (hentry : new.entry.addr = e.addr) :
    Shown (Function.update t.dentries e.addr (some new.entry.view)) Entry.addr Entry.view
      (Layout.entries ⟨{ V with tail := new.addr }, table, init ++ [tl.withNext new.addr, new],
        sl ++ sr, files, lost'⟩) := by
  have hmap : (l ++ n :: r).map Node.entry = init.map Node.entry ++ [tl.entry] := by
    rw [← List.map_singleton (f := Node.entry), ← List.map_append, ← hlast, List.map_append,
      List.map_append]
    rfl
  have hentries := ht.entries
  have hnodup := hold.nodup_entries
  unfold Layout.entries at hentries hnodup ⊢
  rw [← List.append_assoc] at hentries hnodup
  rw [hmap] at hentries hnodup
  refine (hentries.replace new.entry hnodup hentry).mono fun x hx => ?_
  simp only [List.map_append, List.map_cons, List.map_nil, List.mem_append, List.mem_cons,
    List.not_mem_nil, or_false] at hx ⊢
  rw [show (tl.withNext new.addr).entry = tl.entry from rfl] at hx
  tauto

/-- The create that the layout describes is the one of the model without
addresses.  The three updates it makes there, of the new inode, the parent and
the tail, are the changes of the layout, and no two of the nodes meet. -/
theorem simulates_create {type : InodeType} {im : InodeMemory} {grow : Supply} {list : ListHeader}
    {array : Option (ℕ × Block UInt8)}
    (hold : Holds base h (Layout.own v ⟨V, table, l ++ n :: r, sl ++ e :: sr, files, lost⟩))
    (hnew : Holds base' h' (Layout.own v' ⟨{ V with tail := new.addr }, table,
      init ++ [tl.withNext new.addr, new], sl ++ sr, files, lost'⟩))
    (hback : n.entry.direntry.inode = n.addr) (hdir : n.inode.inodeType = .directory)
    (htail : V.tail = tl.addr) (hlast : l ++ n.withList list array :: r = init ++ [tl])
    (hentry : new.entry.addr = e.addr)
    (hview : new.entry.view = { e.view with inode := new.addr, parent := n.entry.addr })
    (hisNew : new.IsNew cnt type e.addr im.array)
    (hpush : Pushes grow e.addr (vpView n.list n.array) (vpView list array)) :
    Simulates (.create type im grow n.entry.addr e.addr)
      ⟨V, table, l ++ n :: r, sl ++ e :: sr, files, lost⟩ cnt new.addr
      ⟨{ V with tail := new.addr }, table, init ++ [tl.withNext new.addr, new], sl ++ sr, files,
        lost'⟩ ((cnt + 1) % 2 ^ 32) := by
  intro t ht
  obtain ⟨size, mem, hmem, hpush⟩ := hpush
  obtain ⟨data, hdata, hinode⟩ := hisNew
  have hnodes := hnew.nodup_inodes
  obtain ⟨hperm, hnotin⟩ := nodup_create hlast hnodes
  obtain ⟨hlisted, hinodes⟩ := inodes_create ht.inodes hdir hlast hnodes
  have hdata₀ : n.view.data = .direntries (vpView n.list n.array) := by
    unfold Node.view dataView
    rw [hdir]
  have hbase : new.view = ⟨type, (t.cnt + 1) % 2 ^ 32, 0, e.addr, 0, false, data⟩ := by
    rw [hinode, ht.cnt]
    rfl
  -- the parent is one of the entries, and the new entry another
  have hparent : n.entry ∈ entries ⟨V, table, l ++ n :: r, sl ++ e :: sr, files, lost⟩ :=
    List.mem_append_left _ (List.mem_map_of_mem (by simp))
  have hchild : e ∈ entries ⟨V, table, l ++ n :: r, sl ++ e :: sr, files, lost⟩ :=
    List.mem_append_right _ (by simp)
  have hother : e.addr ≠ n.entry.addr := by
    have hnodup := hold.nodup_entries
    unfold entries at hnodup
    rw [List.map_append, List.nodup_append] at hnodup
    exact fun heq => hnodup.2.2 _ (List.mem_map_of_mem (List.mem_map_of_mem (by simp))) _
      (List.mem_map_of_mem (by simp)) heq.symm
  have hinode₀ : n.addr ≠ new.addr := fun heq =>
    (List.nodup_cons.mp hnotin).1 (heq ▸ List.mem_map_of_mem (by simp))
  have htail₀ : t.tail = tl.addr := ht.tail.trans htail
  have hd : n.entry.view.inode = n.addr := hback
  refine ⟨Fs.created t type data new.addr e.addr n.entry.addr e.view n.entry.view.inode n.view
    (vpView list array) tl.view, ⟨data, size, mem, hdata, hmem, ?_⟩, ?_⟩
  · refine Fs.tmpfsCreate_of_push (ht.entries n.entry hparent) (hold.direntry_ne_zero hparent)
      (ht.entries e hchild) (hold.direntry_ne_zero hchild) hother ?_ ?_ hdir hdata₀ hpush
      (hnew.inode_ne_zero (by simp)) ?_ ?_ ?_ ?_
    · rw [hd]
      exact ht.inodes n (by simp)
    · rw [hd]
      exact hold.inode_ne_zero (by simp)
    · rw [hd]
      exact hinode₀
    · rw [hd, htail₀]
      exact hlisted
    · rw [htail₀]
      exact hnew.inode_ne_zero (n := tl.withNext new.addr) (by simp)
    · rw [htail₀]
      exact fun heq => (List.nodup_cons.mp hperm).1 (heq ▸ List.mem_map_of_mem (by simp))
  · refine ⟨?_, ?_, ht.files, ht.head, rfl, congrArg (fun c => (c + 1) % 2 ^ 32) ht.cnt⟩
    · show Shown (Function.update (Function.update (Function.update t.inodes new.addr _)
        n.entry.view.inode _) t.tail _) _ _ _
      rw [hd, htail₀, ← hbase]
      exact hinodes
    · show Shown (Function.update (Function.update t.dentries e.addr _) e.addr _) _ _ _
      rw [Function.update_idem, ← hview]
      exact ht.entries_create hold hlast hentry

end FsHeap.Layout

end CourseOs.Fs
