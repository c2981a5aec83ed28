import CourseOs.Fs.Tmpfs

/-!
# The tree of directory entries

What a tmpfs tree is (`TreeInv`), and that `create_tmpfs_root` makes one and
`tmpfs_create_dir` and `tmpfs_create_file` add an entry to it.  An entry is
named in one directory, its parent, and no two entries of a directory have one
name.

## Main definitions

* `Vfs.shape` — what is in an inode, apart from its place in the inode list
  and the count of its handles.  Opening and closing files change neither the
  shape nor the tree.
* `Vfs.children`, `Vfs.nameOf` — the entries of a directory, and the name of
  an entry.
* `TreeInv root s` — the invariant.
* `NewEntry.Allowed`, `TreeOp` — when an entry may be added, and the calls
  that do it.
* `Created new type data s s' …` — everything that such a call changes, as one
  structure.

## Main results

* `tmpfsCreate_spec` — what a creation makes of the file system, as updates of
  its maps.
* `TreeOp.spec` — an allowed call returns and adds its entry.
* `Created.treeInv` — the tree stays a tree.
* `createTmpfsRoot_treeInv` — the root alone is a tree.

## Design notes

The routines of the source write to entries and inodes several times on the
way.  A call is therefore described twice: by `created`, the state it leaves
written as the updates it makes, and by `Created`, the same in terms of the
tree.  The first is what the proofs about failures and about the heap use; the
second is all that the invariant needs, and no proof about the tree looks at a
routine again.

Finding the root stores the hash of its name in the entry.  `TreeInv.of_view`
says that a tree is made of the entries' inodes, names and parents alone, so a
stored hash changes nothing.
-/

namespace CourseOs.Fs

variable {s s' : Vfs} {root p q i : ℕ} {d e : DirEntry} {n : TmpfsInode} {name : List UInt8}

/-- The entries an inode lists. -/
def InodeData.entries : InodeData → List ℕ
  | .filedata _ => []
  | .direntries list => list.entries

/-- What is in the inode at `i`, apart from its place in the inode list and
the count of its handles: its type, its entry, and its data. -/
def Vfs.shape (s : Vfs) (i : ℕ) : Option (InodeType × ℕ × InodeData) :=
  (s.inodes i).map fun n => (n.inodeType, n.direntry, n.data)

/-- The entries in the directory `p`. -/
def Vfs.children (s : Vfs) (p : ℕ) : List ℕ :=
  match s.dentries p with
  | none => []
  | some d =>
      match s.shape d.inode with
      | none => []
      | some (_, _, data) => data.entries

/-- The name of the entry `p`, without the terminator. -/
def Vfs.nameOf (s : Vfs) (p : ℕ) : List UInt8 :=
  match s.dentries p with
  | none => []
  | some d => d.name.data.dropLast

/-- A name an entry may have: not empty, without a slash or a terminator.
These are the names that are components of paths. -/
structure IsName (name : List UInt8) : Prop where
  ne_nil : name ≠ []
  slash_notMem : (47 : UInt8) ∉ name
  null_notMem : (0 : UInt8) ∉ name

/-- The union of an inode is what its type says, and a directory's list is in
its block. -/
def InodeData.Matches (type : InodeType) : InodeData → Prop
  | .filedata _ => type = .file
  | .direntries list => type = .directory ∧ ∃ b, list.In b

theorem InodeData.Matches.of_directory {type : InodeType} {data : InodeData}
    (h : data.Matches type) (htype : type = .directory) :
    ∃ list b, data = .direntries list ∧ list.In b := by
  cases data with
  | filedata list => cases htype.symm.trans h
  | direntries list =>
      obtain ⟨-, b, hb⟩ := h
      exact ⟨list, b, rfl, hb⟩

/-- The entries are a tree below `root`: each has an inode of its own that
points back to it, and a name if it is not the root; what a directory lists
are entries that have it for their parent, with different names. -/
structure TreeInv (root : ℕ) (s : Vfs) : Prop where
  dentries_null : s.dentries 0 = none
  inodes_null : s.inodes 0 = none
  tail : ∃ n, s.inodes s.tail = some n
  head : ∃ d, s.dentries root = some d ∧ d.name.data = [47, 0] ∧ d.parent = 0 ∧ d.inode = s.head
  inode : ∀ p d, s.dentries p = some d → ∃ type data, s.shape d.inode = some (type, p, data) ∧
    data.Matches type
  name : ∀ p d, s.dentries p = some d → p ≠ root → ∃ name, IsName name ∧ d.name.data = name ++ [0]
  child : ∀ p q, q ∈ s.children p → ∃ d, s.dentries q = some d ∧ d.parent = p
  nodup : ∀ p, ((s.children p).map s.nameOf).Nodup

/-! ### What an update does to the tree

The shape of an inode leaves out what changes without the tree changing.  So
an update of an inode that keeps its shape is none to the tree, and any other
is seen at this inode only. -/

namespace Vfs

theorem shape_of_inode (h : s.inodes i = some n) :
    s.shape i = some (n.inodeType, n.direntry, n.data) := by
  unfold shape
  rw [h]
  rfl

@[simp] theorem shape_putDentry : (s.putDentry p d).shape = s.shape := rfl

theorem shape_putInode : (s.putInode i n).shape =
    Function.update s.shape i (some (n.inodeType, n.direntry, n.data)) := by
  funext j
  by_cases hj : j = i
  · rw [hj, Function.update_self]
    exact shape_of_inode (s.putInode_self i n)
  · rw [Function.update_of_ne hj]
    unfold shape
    rw [putInode_of_ne n hj]

/-- A change to what the shape leaves out is none to the shape. -/
theorem shape_putInode_same (h : s.shape i = some (n.inodeType, n.direntry, n.data)) :
    (s.putInode i n).shape = s.shape := by
  rw [shape_putInode, ← h, Function.update_eq_self]

/-- The inode after the one at `i`. -/
def nextOf (s : Vfs) (i : ℕ) : Option ℕ := (s.inodes i).map TmpfsInode.next

theorem nextOf_putInode :
    (s.putInode i n).nextOf = Function.update s.nextOf i (some n.next) := by
  funext j
  by_cases hj : j = i
  · rw [hj, Function.update_self]
    unfold nextOf
    rw [putInode_self]
    rfl
  · rw [Function.update_of_ne hj]
    unfold nextOf
    rw [putInode_of_ne n hj]

theorem nextOf_putInode_same (h : s.nextOf i = some n.next) :
    (s.putInode i n).nextOf = s.nextOf := by
  rw [nextOf_putInode, ← h, Function.update_eq_self]

end Vfs

/-- What `add_entry_to_directory` does when the parent is a directory, and its
list takes the entry. -/
theorem addEntryToDirectory_of_push {mem : Option (Block ℕ)} {parent child : ℕ}
    {list list' : VPArrayList} (err : VfsErr) (hp : s.dentries parent = some d) (hp0 : parent ≠ 0)
    (hn : s.inodes d.inode = some n) (hn0 : d.inode ≠ 0) (htype : n.inodeType = .directory)
    (hdata : n.data = .direntries list) (hpush : vpaPush mem list child = .ok list')
    (hc : s.dentries child = some e) (hc0 : child ≠ 0) :
    addEntryToDirectory mem s parent child err =
      .ok ((s.putInode d.inode { n with data := .direntries list' }).putDentry child
        { e with parent }, err) := by
  have hdp : s.dentry parent = .ok d := Vfs.fetch_eq hp0 hp
  have hdn : s.inode d.inode = .ok n := Vfs.fetch_eq hn0 hn
  have hdc : s.dentry child = .ok e := Vfs.fetch_eq hc0 hc
  unfold addEntryToDirectory
  rw [hdp, Exec.ok_bind, hdn, Exec.ok_bind, if_neg (not_not_intro htype), hdata]
  show (vpaPush mem list child >>= _) = _
  rw [hpush, Exec.ok_bind, hdc, Exec.ok_bind]

/-- `vfs_add_inode` puts an inode that is not in the list at its end, behind
the one that was last. -/
theorem vfsAddInode_eq {t : TmpfsInode} (hn : s.inodes i = some n) (hi : i ≠ 0) (hnext : n.next = 0)
    (ht : s.inodes s.tail = some t) (htail : s.tail ≠ 0) (hne : s.tail ≠ i) :
    vfsAddInode s i =
      .ok ({ s.putInode s.tail { t with next := i } with tail := i }, .ok) := by
  have hfetch : s.inode i = .ok n := Vfs.fetch_eq hi hn
  have hlast : s.inode s.tail = .ok t := Vfs.fetch_eq htail ht
  unfold vfsAddInode
  rw [hfetch, Exec.ok_bind, if_neg (not_or.mpr ⟨not_not_intro hnext, hne⟩), hlast]
  rfl

/-- The last inode of the list is still there when another inode, or it
itself, was written to. -/
theorem exists_tail {t : TmpfsInode} (i : ℕ) (n : TmpfsInode) (ht : s.inodes s.tail = some t) :
    ∃ t', (s.putInode i n).inodes s.tail = some t' := by
  by_cases htail : s.tail = i
  · rw [htail]
    exact ⟨n, Vfs.putInode_self s i n⟩
  · exact ⟨t, (Vfs.putInode_of_ne n htail).trans ht⟩

/-- The state in which the new inode is there and not yet listed anywhere. -/
def withInode (s : Vfs) (type : InodeType) (data : InodeData) (inode entry : ℕ) (e : DirEntry) :
    Vfs :=
  ({ s with cnt := (s.cnt + 1) % 2 ^ 32 }.putInode inode
    ⟨type, (s.cnt + 1) % 2 ^ 32, 0, entry, 0, false, data⟩).putDentry entry { e with inode }

/-- What a creation leaves: the new inode with its entry, the inode `n` at
`directory` with the list `list'`, and the last inode, which is then `t`, with
the new one behind it.  The updates are in the order of the source. -/
def created (s : Vfs) (type : InodeType) (data : InodeData) (inode entry parent : ℕ) (e : DirEntry)
    (directory : ℕ) (n : TmpfsInode) (list' : VPArrayList) (t : TmpfsInode) : Vfs :=
  let s' := ((withInode s type data inode entry e).putInode directory
    { n with data := .direntries list' }).putDentry entry { e with inode, parent }
  { s'.putInode s.tail { t with next := inode } with tail := inode }

/-- The last inode is none that a creation makes. -/
theorem withInode_tail {type : InodeType} {data : InodeData} {inode entry i : ℕ} {t : TmpfsInode}
    (ht : (s.putInode i n).inodes s.tail = some t) (htail : s.tail ≠ inode) :
    ((withInode s type data inode entry e).putInode i n).inodes s.tail = some t := by
  rw [← ht]
  by_cases hi : s.tail = i
  · rw [hi]
    exact (Vfs.putInode_self (withInode s type data inode entry e) i n).trans
      (Vfs.putInode_self s i n).symm
  · exact (Vfs.putInode_of_ne (s := withInode s type data inode entry e) n hi).trans
      ((Vfs.putInode_of_ne _ htail).trans (Vfs.putInode_of_ne (s := s) n hi).symm)

/-- **Creation**, where the parent is a directory and its list takes the
entry: the state it leaves is `created`. -/
theorem tmpfsCreate_of_push {type : InodeType} {data : InodeData} {grow : Option (Block ℕ)}
    {parent entry inode : ℕ} {list list' : VPArrayList} {t : TmpfsInode}
    (hp : s.dentries parent = some d) (hp0 : parent ≠ 0) (he : s.dentries entry = some e)
    (he0 : entry ≠ 0) (hne : entry ≠ parent) (hn : s.inodes d.inode = some n) (hn0 : d.inode ≠ 0)
    (htype : n.inodeType = .directory) (hdata : n.data = .direntries list)
    (hpush : vpaPush grow list entry = .ok list') (hinode : inode ≠ 0) (hother : d.inode ≠ inode)
    (ht : (s.putInode d.inode { n with data := .direntries list' }).inodes s.tail = some t)
    (htail : s.tail ≠ 0) (htail' : s.tail ≠ inode) :
    tmpfsCreate type data inode grow s parent entry .ok =
      .ok (created s type data inode entry parent e d.inode n list' t, inode, .ok) := by
  have hdp : s.dentry parent = .ok d := Vfs.fetch_eq hp0 hp
  have hde : s.dentry entry = .ok e := Vfs.fetch_eq he0 he
  have hdn : s.inode d.inode = .ok n := Vfs.fetch_eq hn0 hn
  let s₁ := withInode s type data inode entry e
  let s₂ := (s₁.putInode d.inode { n with data := .direntries list' }).putDentry entry
    { e with inode, parent }
  have hp₁ : s₁.dentries parent = some d := (Vfs.putDentry_of_ne _ hne.symm).trans hp
  have hn₁ : s₁.inodes d.inode = some n := (Vfs.putInode_of_ne _ hother).trans hn
  have hadd : addEntryToDirectory grow s₁ parent entry .ok = .ok (s₂, .ok) :=
    addEntryToDirectory_of_push .ok hp₁ hp0 hn₁ hn0 htype hdata hpush (Vfs.putDentry_self ..) he0
  -- the inode goes to the end of the inode list
  have hnew : s₂.inodes inode = some ⟨type, (s.cnt + 1) % 2 ^ 32, 0, entry, 0, false, data⟩ :=
    (Vfs.putInode_of_ne (s := s₁) _ hother.symm).trans (Vfs.putInode_self ..)
  have hlast : s₂.inodes s.tail = some t := withInode_tail ht htail'
  have hlisted : vfsAddInode s₂ inode =
      .ok ({ s₂.putInode s.tail { t with next := inode } with tail := inode }, .ok) :=
    vfsAddInode_eq hnew hinode rfl hlast htail htail'
  unfold tmpfsCreate
  rw [hdp, Exec.ok_bind, hdn, Exec.ok_bind, if_neg hinode, hde]
  show (addEntryToDirectory grow s₁ parent entry .ok >>= _) = _
  rw [hadd, Exec.ok_bind]
  show (vfsAddInode s₂ inode >>= _) = _
  rw [hlisted]
  rfl

/-- What there is for a call of `tmpfs_create_dir` or `tmpfs_create_file`: a
directory `parent` that lists `list`, the fresh entry and block of an inode,
and the last inode of the inode list. -/
structure CreateArgs (grow : Option (Block ℕ)) (s : Vfs) (parent entry inode : ℕ) (d e : DirEntry)
    (n : TmpfsInode) (list : VPArrayList) (b : Block ℕ) : Prop where
  parent_eq : s.dentries parent = some d
  parent_ne : parent ≠ 0
  entry_eq : s.dentries entry = some e
  entry_ne : entry ≠ 0
  entry_ne_parent : entry ≠ parent
  directory_eq : s.inodes d.inode = some n
  directory_ne : d.inode ≠ 0
  type : n.inodeType = .directory
  data : n.data = .direntries list
  block : list.In b
  granted : list.Granted grow
  fresh : s.inodes inode = none
  inode_ne : inode ≠ 0
  tail : ∃ t, s.inodes s.tail = some t
  tail_ne : s.tail ≠ 0

/-- **Creation**: a new inode of the type, listed in the parent's directory
and put at the end of the inode list.  Other entries and inodes keep their
shape. -/
theorem tmpfsCreate_spec (type : InodeType) (data : InodeData) {grow : Option (Block ℕ)}
    {parent entry inode : ℕ} {list : VPArrayList} {b : Block ℕ}
    (h : CreateArgs grow s parent entry inode d e n list b) :
    ∃ s' list' b', tmpfsCreate type data inode grow s parent entry .ok = .ok (s', inode, .ok) ∧
      list'.In b' ∧ list'.entries = list.entries ++ [entry] ∧
      s'.dentries = Function.update s.dentries entry (some { e with inode, parent }) ∧
      s'.shape = Function.update (Function.update s.shape inode (some (type, entry, data)))
        d.inode (some (.directory, n.direntry, .direntries list')) ∧
      s'.nextOf = Function.update (Function.update s.nextOf inode (some 0)) s.tail (some inode) ∧
      s'.files = s.files ∧ s'.head = s.head ∧ s'.tail = inode := by
  obtain ⟨t, ht⟩ := h.tail
  have hne : ∀ {x : ℕ} {m : TmpfsInode}, s.inodes x = some m → x ≠ inode := by
    rintro x m hx rfl
    cases h.fresh.symm.trans hx
  obtain ⟨list', b', hpush, hin, hentries⟩ := h.block.vpaPush h.granted entry
  obtain ⟨t', ht'⟩ := exists_tail d.inode { n with data := .direntries list' } ht
  let s₁ := withInode s type data inode entry e
  let s₂ := s₁.putInode d.inode { n with data := .direntries list' }
  have hn₁ : s₁.inodes d.inode = some n := by
    rw [← h.directory_eq]
    exact Vfs.putInode_of_ne _ (hne h.directory_eq)
  refine ⟨created s type data inode entry parent e d.inode n list' t', list', b',
    tmpfsCreate_of_push h.parent_eq h.parent_ne h.entry_eq h.entry_ne h.entry_ne_parent
      h.directory_eq h.directory_ne h.type h.data hpush h.inode_ne (hne h.directory_eq) ht'
      h.tail_ne (hne ht), hin, hentries, ?_, ?_, ?_, rfl, rfl, rfl⟩
  · show Function.update (Function.update s.dentries entry _) entry _ = _
    rw [Function.update_idem]
  · have hshape : s₂.shape s.tail = some (t'.inodeType, t'.direntry, t'.data) :=
      Vfs.shape_of_inode (withInode_tail ht' (hne ht))
    refine (Vfs.shape_putInode_same (n := { t' with next := inode }) hshape).trans ?_
    show (s₁.putInode d.inode { n with data := .direntries list' }).shape = _
    rw [Vfs.shape_putInode, h.type]
    congr 1
    exact Vfs.shape_putInode
  · refine (Vfs.nextOf_putInode (s := s₂)).trans ?_
    congr 1
    refine (Vfs.nextOf_putInode_same (s := s₁) ?_).trans Vfs.nextOf_putInode
    exact congrArg (Option.map TmpfsInode.next) hn₁

/-! ### Growing the tree

One more entry, in a directory where nobody has its name.  The invariant is
kept because the new entry differs from all others in each thing that has to
be unique: its address, its inode, and its name within the directory. -/

/-- The entry `p` is a directory's. -/
def Vfs.IsDirectory (s : Vfs) (p : ℕ) : Prop :=
  ∃ d q data, s.dentries p = some d ∧ s.shape d.inode = some (.directory, q, data)

/-- An entry to be created: its name, the directory it goes to, the blocks it
and its inode are put in, and what a directory that is full grows to. -/
structure NewEntry where
  name : List UInt8
  parent : ℕ
  entry : ℕ
  inode : ℕ
  grow : Option (Block ℕ)

/-- The name is a name no entry of the directory has, the blocks are new ones,
and `kmalloc` gives what is asked for. -/
structure NewEntry.Allowed (new : NewEntry) (s : Vfs) : Prop where
  name : IsName new.name
  parent : s.IsDirectory new.parent
  distinct : ∀ q ∈ s.children new.parent, s.nameOf q ≠ new.name
  entry_ne : new.entry ≠ 0
  entry_fresh : s.dentries new.entry = none
  inode_ne : new.inode ≠ 0
  inode_fresh : s.inodes new.inode = none
  granted : ∀ d q type list, s.dentries new.parent = some d →
    s.shape d.inode = some (type, q, .direntries list) → list.Granted new.grow

/-- A call that adds an entry, after `create_direntry` made it. -/
inductive TreeOp
  | createDir (mem : Option (Block ℕ)) (new : NewEntry)
  | createFile (mem : Option (Block UInt8)) (new : NewEntry)

namespace TreeOp

/-- The entry the call is about. -/
def new : TreeOp → NewEntry
  | createDir _ new => new
  | createFile _ new => new

/-- What the call does. -/
def run : TreeOp → Vfs → Exec Vfs
  | createDir mem new, s => do
      let s := createDirentry new.entry (qstrFromNullTerminatedString new.name) new.parent 0 s
      let (s, _, _) ← tmpfsCreateDir mem new.inode new.grow s new.parent new.entry .ok
      .ok s
  | createFile mem new, s => do
      let s := createDirentry new.entry (qstrFromNullTerminatedString new.name) new.parent 0 s
      let (s, _, _) ← tmpfsCreateFile mem new.inode new.grow s new.parent new.entry .ok
      .ok s

/-- When the call may be made.  A directory needs memory for its list at once,
because its first entry is stored there without a look; a file may have none. -/
def Allowed : TreeOp → Vfs → Prop
  | createDir mem new, s => new.Allowed s ∧ ∃ b, mem = some b ∧
      sizeofVoidPointer * tmpfsDefaultDirAllocSize ≤ b.size ∧ b.size < 2 ^ 32
  | createFile _ new, s => new.Allowed s

end TreeOp

namespace Vfs

theorem children_eq {type : InodeType} {data : InodeData} (hd : s.dentries p = some d)
    (hs : s.shape d.inode = some (type, q, data)) : s.children p = data.entries := by
  unfold children
  rw [hd]
  show (match s.shape d.inode with | none => [] | some (_, _, data) => _) = _
  rw [hs]

theorem children_of_none (hd : s.dentries p = none) : s.children p = [] := by
  unfold children
  rw [hd]

theorem nameOf_eq (hd : s.dentries p = some d) (hname : d.name.data = name ++ [0]) :
    s.nameOf p = name := by
  unfold nameOf
  rw [hd]
  show d.name.data.dropLast = name
  rw [hname, List.dropLast_concat]

theorem inode_of_shape {x : InodeType × ℕ × InodeData} (h : s.shape i = some x) :
    ∃ n, s.inodes i = some n ∧ (n.inodeType, n.direntry, n.data) = x := by
  unfold shape at h
  obtain ⟨n, hn, hx⟩ := Option.map_eq_some_iff.mp h
  exact ⟨n, hn, hx⟩

theorem shape_eq_none : s.shape i = none ↔ s.inodes i = none := Option.map_eq_none_iff

end Vfs

namespace TreeInv

/-- Different entries have different inodes. -/
theorem inode_inj (h : TreeInv root s) (hd : s.dentries p = some d) (he : s.dentries q = some e)
    (heq : d.inode = e.inode) : p = q := by
  obtain ⟨type, data, hs, -⟩ := h.inode p d hd
  obtain ⟨type', data', hs', -⟩ := h.inode q e he
  rw [heq, hs', Option.some.injEq, Prod.mk.injEq, Prod.mk.injEq] at hs
  exact hs.2.1.symm

theorem inode_ne_null (h : TreeInv root s) (hd : s.dentries p = some d) : d.inode ≠ 0 := by
  obtain ⟨type, data, hs, -⟩ := h.inode p d hd
  intro h0
  rw [h0, Vfs.shape_eq_none.mpr h.inodes_null] at hs
  cases hs

theorem entry_ne_null (h : TreeInv root s) (hd : s.dentries p = some d) : p ≠ 0 := by
  rintro rfl
  cases h.dentries_null.symm.trans hd

/-- An entry is in one directory: the parent that it names itself. -/
theorem parent_unique (h : TreeInv root s) {p' : ℕ} (hq : q ∈ s.children p)
    (hq' : q ∈ s.children p') : p = p' := by
  obtain ⟨d, hd, rfl⟩ := h.child p q hq
  obtain ⟨d', hd', rfl⟩ := h.child p' q hq'
  rw [Option.some.inj (hd.symm.trans hd')]

section Hashes

/-- A hash that is stored in a name changes no entry's inode, name or parent. -/
theorem dentries_putName (hd : s.dentries p = some d) {name' : Qstr}
    (hname : name'.data = d.name.data) (q : ℕ) :
    ((s.putDentry p { d with name := name' }).dentries q).map
        (fun e => (e.inode, e.name.data, e.parent)) =
      (s.dentries q).map fun e => (e.inode, e.name.data, e.parent) := by
  by_cases hq : q = p
  · rw [hq, Vfs.putDentry_self, hd, Option.map_some, Option.map_some, hname]
  · rw [Vfs.putDentry_of_ne _ hq]

variable (hview : ∀ q, (s'.dentries q).map (fun e => (e.inode, e.name.data, e.parent)) =
  (s.dentries q).map fun e => (e.inode, e.name.data, e.parent))

include hview

theorem dentry_of_view {e' : DirEntry} (he : s'.dentries q = some e') :
    ∃ e, s.dentries q = some e ∧ e'.inode = e.inode ∧ e'.name.data = e.name.data ∧
      e'.parent = e.parent := by
  have hq := hview q
  rw [he, Option.map_some] at hq
  obtain ⟨e, he, heq⟩ := Option.map_eq_some_iff.mp hq.symm
  rw [Prod.mk.injEq, Prod.mk.injEq] at heq
  exact ⟨e, he, heq.1.symm, heq.2.1.symm, heq.2.2.symm⟩

theorem nameOf_of_view : s'.nameOf = s.nameOf := by
  funext q
  have hq := hview q
  unfold Vfs.nameOf
  cases he : s'.dentries q with
  | none =>
      rw [he, Option.map_none] at hq
      rw [Option.map_eq_none_iff.mp hq.symm]
  | some e' =>
      obtain ⟨e, he, -, hname, -⟩ := dentry_of_view hview he
      rw [he]
      show e'.name.data.dropLast = e.name.data.dropLast
      rw [hname]

theorem children_of_view (hshape : s'.shape = s.shape) : s'.children = s.children := by
  funext q
  have hq := hview q
  unfold Vfs.children
  cases he : s'.dentries q with
  | none =>
      rw [he, Option.map_none] at hq
      rw [Option.map_eq_none_iff.mp hq.symm]
  | some e' =>
      obtain ⟨e, he, hinode, -, -⟩ := dentry_of_view hview he
      rw [he]
      show (match s'.shape e'.inode with | none => [] | some (_, _, data) => _) = _
      rw [hinode, hshape]

/-- The tree is made of entries' inodes, names and parents, so that a state
that agrees on these has the same. -/
theorem of_view (h : TreeInv root s) (hinodes : s'.inodes = s.inodes) (hhead : s'.head = s.head)
    (htail : s'.tail = s.tail) : TreeInv root s' := by
  have hshape : s'.shape = s.shape := by
    unfold Vfs.shape
    rw [hinodes]
  have hchildren := children_of_view hview hshape
  have hback := fun q => (hview q).symm
  refine ⟨?_, ?_, ?_, ?_, ?_, ?_, ?_, ?_⟩
  · have h0 := hview 0
    rw [h.dentries_null, Option.map_none] at h0
    exact Option.map_eq_none_iff.mp h0
  · rw [hinodes, h.inodes_null]
  · rw [hinodes, htail]
    exact h.tail
  · obtain ⟨e, he, hname, hparent, hinode⟩ := h.head
    obtain ⟨e', he', hinode', hname', hparent'⟩ := dentry_of_view hback he
    exact ⟨e', he', hname' ▸ hname, hparent' ▸ hparent, hhead ▸ hinode' ▸ hinode⟩
  · intro p e' he'
    obtain ⟨e, he, hinode, -, -⟩ := dentry_of_view hview he'
    rw [hinode, hshape]
    exact h.inode p e he
  · intro p e' he' hp
    obtain ⟨e, he, -, hname, -⟩ := dentry_of_view hview he'
    rw [hname]
    exact h.name p e he hp
  · intro p q hq
    rw [hchildren] at hq
    obtain ⟨e, he, hparent⟩ := h.child p q hq
    obtain ⟨e', he', -, -, hparent'⟩ := dentry_of_view hback he
    exact ⟨e', he', hparent' ▸ hparent⟩
  · intro p
    rw [hchildren, nameOf_of_view hview]
    exact h.nodup p

end Hashes

end TreeInv

/-- `s'` is `s` with one more entry: what the call changes, as updates of the
maps of `s`. -/
structure Created (new : NewEntry) (type : InodeType) (data : InodeData) (s s' : Vfs) (d : DirEntry)
    (list list' : VPArrayList) : Prop where
  parent : s.dentries new.parent = some d
  shape_parent : s.shape d.inode = some (.directory, new.parent, .direntries list)
  block : ∃ b, list'.In b
  entries : list'.entries = list.entries ++ [new.entry]
  dentries : s'.dentries = Function.update s.dentries new.entry
    (some ⟨new.inode, qstrFromNullTerminatedString new.name, new.parent⟩)
  shape : s'.shape = Function.update (Function.update s.shape new.inode
    (some (type, new.entry, data))) d.inode (some (.directory, new.parent, .direntries list'))
  nextOf : s'.nextOf =
    Function.update (Function.update s.nextOf new.inode (some 0)) s.tail (some new.inode)
  files : s'.files = s.files
  head : s'.head = s.head
  tail : s'.tail = new.inode

/-- A create that is allowed returns, and does to the state what the tree's
lemmas are about.  What they ask for is gathered from the invariant. -/
theorem TreeInv.created (h : TreeInv root s) {new : NewEntry} (hnew : new.Allowed s)
    (type : InodeType) (data : InodeData) :
    ∃ s' d list list', tmpfsCreate type data new.inode new.grow
        (createDirentry new.entry (qstrFromNullTerminatedString new.name) new.parent 0 s)
        new.parent new.entry .ok = .ok (s', new.inode, .ok) ∧
      Created new type data s s' d list list' := by
  obtain ⟨d, q, data₀, hd, hshape⟩ := hnew.parent
  obtain ⟨type', data', hshape', hmatch⟩ := h.inode _ d hd
  rw [hshape, Option.some.injEq, Prod.mk.injEq, Prod.mk.injEq] at hshape'
  obtain ⟨rfl, rfl, rfl⟩ := hshape'
  cases data₀ with
  | filedata list => cases hmatch
  | direntries list =>
      obtain ⟨-, b, hb⟩ := hmatch
      obtain ⟨n, hn, heq⟩ := Vfs.inode_of_shape hshape
      rw [Prod.mk.injEq, Prod.mk.injEq] at heq
      obtain ⟨htype, hentry, hdata⟩ := heq
      have hne : new.entry ≠ new.parent := by
        intro heq
        rw [← heq, hnew.entry_fresh] at hd
        cases hd
      have hargs : CreateArgs new.grow
          (createDirentry new.entry (qstrFromNullTerminatedString new.name) new.parent 0 s)
          new.parent new.entry new.inode d
          ⟨0, qstrFromNullTerminatedString new.name, new.parent⟩ n list b := {
        parent_eq := (Vfs.putDentry_of_ne _ hne.symm).trans hd
        parent_ne := h.entry_ne_null hd
        entry_eq := Vfs.putDentry_self ..
        entry_ne := hnew.entry_ne
        entry_ne_parent := hne
        directory_eq := hn
        directory_ne := h.inode_ne_null hd
        type := htype
        data := hdata
        block := hb
        granted := hnew.granted d new.parent .directory list hd hshape
        fresh := hnew.inode_fresh
        inode_ne := hnew.inode_ne
        tail := h.tail
        tail_ne := by
          obtain ⟨t, ht⟩ := h.tail
          intro h0
          have ht' : s.inodes 0 = some t := h0 ▸ ht
          cases h.inodes_null.symm.trans ht' }
      obtain ⟨s', list', b', hrun, hin, hentries, hdentries, hshape', hnext, hfiles, hhead,
          htail⟩ :=
        tmpfsCreate_spec type data hargs
      refine ⟨s', d, list, list', hrun, hd, hshape, ⟨b', hin⟩, hentries, ?_, ?_, hnext, hfiles,
        hhead, htail⟩
      · rw [hdentries]
        show Function.update (Function.update s.dentries new.entry _) new.entry _ = _
        rw [Function.update_idem]
      · rw [hshape', hentry]
        rfl

namespace Created

variable {new : NewEntry} {type : InodeType} {data : InodeData} {list list' : VPArrayList}

/-- The children after a create: the new entry is the last child of its
parent, and has none itself. -/
theorem children (h : Created new type data s s' d list list') (hinv : TreeInv root s)
    (hnew : new.Allowed s) (hempty : data.entries = []) :
    s'.children = Function.update (Function.update s.children new.entry []) new.parent
      (s.children new.parent ++ [new.entry]) := by
  have hparent : s.children new.parent = list.entries := Vfs.children_eq h.parent h.shape_parent
  have hne : new.parent ≠ new.entry := by
    intro heq
    have := heq ▸ h.parent
    cases hnew.entry_fresh.symm.trans this
  have hinode : d.inode ≠ new.inode := by
    intro heq
    have := heq ▸ h.shape_parent
    rw [Vfs.shape_eq_none.mpr hnew.inode_fresh] at this
    cases this
  funext p
  by_cases hp : p = new.parent
  · rw [hp, Function.update_self, hparent, ← h.entries]
    have hd' : s'.dentries new.parent = some d := by
      rw [h.dentries, Function.update_of_ne hne, h.parent]
    have hs' : s'.shape d.inode = some (.directory, new.parent, .direntries list') := by
      rw [h.shape, Function.update_self]
    exact Vfs.children_eq hd' hs'
  rw [Function.update_of_ne hp]
  by_cases hpe : p = new.entry
  · rw [hpe, Function.update_self, ← hempty]
    have hd' : s'.dentries new.entry =
        some ⟨new.inode, qstrFromNullTerminatedString new.name, new.parent⟩ := by
      rw [h.dentries, Function.update_self]
    have hs' : s'.shape new.inode = some (type, new.entry, data) := by
      rw [h.shape, Function.update_of_ne hinode.symm, Function.update_self]
    exact Vfs.children_eq hd' hs'
  rw [Function.update_of_ne hpe]
  cases hd : s.dentries p with
  | none =>
      rw [Vfs.children_of_none hd]
      apply Vfs.children_of_none
      rw [h.dentries, Function.update_of_ne hpe, hd]
  | some e =>
      obtain ⟨type', data', hs, -⟩ := hinv.inode p e hd
      rw [Vfs.children_eq hd hs]
      have hed : e.inode ≠ d.inode := fun heq => hp (hinv.inode_inj hd h.parent heq)
      have hei : e.inode ≠ new.inode := by
        intro heq
        rw [heq, Vfs.shape_eq_none.mpr hnew.inode_fresh] at hs
        cases hs
      have hd' : s'.dentries p = some e := by
        rw [h.dentries, Function.update_of_ne hpe, hd]
      have hs' : s'.shape e.inode = some (type', p, data') := by
        rw [h.shape, Function.update_of_ne hed, Function.update_of_ne hei, hs]
      exact Vfs.children_eq hd' hs'

theorem nameOf (h : Created new type data s s' d list list') :
    s'.nameOf = Function.update s.nameOf new.entry new.name := by
  funext p
  by_cases hp : p = new.entry
  · rw [hp, Function.update_self]
    refine Vfs.nameOf_eq (d := ⟨new.inode, qstrFromNullTerminatedString new.name, new.parent⟩) ?_
      rfl
    rw [h.dentries, Function.update_self]
  · rw [Function.update_of_ne hp]
    unfold Vfs.nameOf
    rw [h.dentries, Function.update_of_ne hp]

/-- An entry of the larger tree is the new one or an old one, and the old ones
are as they were. -/
theorem dentry_cases (h : Created new type data s s' d list list') {p : ℕ} {e : DirEntry}
    (he : s'.dentries p = some e) :
    (p = new.entry ∧ e = ⟨new.inode, qstrFromNullTerminatedString new.name, new.parent⟩) ∨
      (p ≠ new.entry ∧ s.dentries p = some e) := by
  rw [h.dentries] at he
  by_cases hp : p = new.entry
  · rw [hp, Function.update_self, Option.some.injEq] at he
    exact .inl ⟨hp, he.symm⟩
  · rw [Function.update_of_ne hp] at he
    exact .inr ⟨hp, he⟩

theorem dentry_of_old (h : Created new type data s s' d list list') (hnew : new.Allowed s) {p : ℕ}
    {e : DirEntry} (he : s.dentries p = some e) : s'.dentries p = some e := by
  have hp : p ≠ new.entry := by
    rintro rfl
    cases hnew.entry_fresh.symm.trans he
  rw [h.dentries, Function.update_of_ne hp, he]

/-- **The tree** stays a tree: the new entry is in one directory, under a name
that is new there, and with an inode of its own. -/
theorem treeInv (h : Created new type data s s' d list list') (hinv : TreeInv root s)
    (hnew : new.Allowed s) (hempty : data.entries = []) (hmatch : data.Matches type) :
    TreeInv root s' := by
  have hold : ∀ {i x}, s.shape i = some x → i ≠ new.inode := by
    rintro i x hi rfl
    rw [Vfs.shape_eq_none.mpr hnew.inode_fresh] at hi
    cases hi
  have hchildren := h.children hinv hnew hempty
  have hnameOf := h.nameOf
  -- an entry of a directory is not the new one
  have hlisted : ∀ {p q}, q ∈ s.children p → q ≠ new.entry := by
    rintro p q hq rfl
    obtain ⟨e, he, -⟩ := hinv.child p _ hq
    cases hnew.entry_fresh.symm.trans he
  have hparentEntry : new.parent ≠ new.entry := by
    intro heq
    have := heq ▸ h.parent
    cases hnew.entry_fresh.symm.trans this
  refine ⟨?_, ?_, ?_, ?_, ?_, ?_, ?_, ?_⟩
  · rw [h.dentries, Function.update_of_ne hnew.entry_ne.symm, hinv.dentries_null]
  · rw [← Vfs.shape_eq_none, h.shape, Function.update_of_ne (hinv.inode_ne_null h.parent).symm,
      Function.update_of_ne hnew.inode_ne.symm, Vfs.shape_eq_none, hinv.inodes_null]
  · have hshape : s'.shape s'.tail = some (type, new.entry, data) := by
      rw [h.tail, h.shape, Function.update_of_ne (hold h.shape_parent).symm, Function.update_self]
    obtain ⟨n, hn, -⟩ := Vfs.inode_of_shape hshape
    exact ⟨n, hn⟩
  · obtain ⟨e, he, hname, hpar, hhead⟩ := hinv.head
    exact ⟨e, h.dentry_of_old hnew he, hname, hpar, hhead.trans h.head.symm⟩
  · intro p e he
    rcases h.dentry_cases he with ⟨rfl, rfl⟩ | ⟨hp, he⟩
    · refine ⟨type, data, ?_, hmatch⟩
      rw [h.shape, Function.update_of_ne (hold h.shape_parent).symm, Function.update_self]
    · by_cases hpp : p = new.parent
      · subst hpp
        obtain rfl := Option.some.inj (he.symm.trans h.parent)
        exact ⟨.directory, .direntries list', by rw [h.shape, Function.update_self], rfl, h.block⟩
      · obtain ⟨type', data', hs, hm⟩ := hinv.inode p e he
        refine ⟨type', data', ?_, hm⟩
        rw [h.shape, Function.update_of_ne (fun heq => hpp (hinv.inode_inj he h.parent heq)),
          Function.update_of_ne (hold hs), hs]
  · intro p e he hroot
    rcases h.dentry_cases he with ⟨rfl, rfl⟩ | ⟨-, he⟩
    · exact ⟨new.name, hnew.name, rfl⟩
    · exact hinv.name p e he hroot
  · intro p q hq
    rw [hchildren] at hq
    by_cases hpp : p = new.parent
    · rw [hpp, Function.update_self] at hq
      rcases List.mem_append.mp hq with hq | hq
      · obtain ⟨e, he, hpar⟩ := hinv.child _ q hq
        exact ⟨e, h.dentry_of_old hnew he, hpar.trans hpp.symm⟩
      · obtain rfl := List.mem_singleton.mp hq
        refine ⟨⟨new.inode, qstrFromNullTerminatedString new.name, new.parent⟩, ?_, hpp.symm⟩
        rw [h.dentries, Function.update_self]
    · rw [Function.update_of_ne hpp] at hq
      by_cases hpe : p = new.entry
      · rw [hpe, Function.update_self] at hq
        cases hq
      · rw [Function.update_of_ne hpe] at hq
        obtain ⟨e, he, hpar⟩ := hinv.child _ q hq
        exact ⟨e, h.dentry_of_old hnew he, hpar⟩
  · have hsame : ∀ p, (s.children p).map s'.nameOf = (s.children p).map s.nameOf := by
      intro p
      apply List.map_congr_left
      intro q hq
      rw [hnameOf, Function.update_of_ne (hlisted hq)]
    intro p
    rw [hchildren]
    by_cases hpp : p = new.parent
    · rw [hpp, Function.update_self, List.map_append, hsame, List.map_singleton, hnameOf,
        Function.update_self]
      refine List.nodup_append.mpr ⟨hinv.nodup _, List.pairwise_singleton .., ?_⟩
      intro x hx x' hx' heq
      obtain ⟨q, hq, hqn⟩ := List.mem_map.mp hx
      exact hnew.distinct q hq (hqn.trans (heq.trans (List.mem_singleton.mp hx')))
    · rw [Function.update_of_ne hpp]
      by_cases hpe : p = new.entry
      · rw [hpe, Function.update_self]
        exact List.nodup_nil
      · rw [Function.update_of_ne hpe, hsame]
        exact hinv.nodup p

end Created

/-- A call that returns. -/
def TreeStep (s s' : Vfs) : Prop := ∃ op : TreeOp, op.Allowed s ∧ op.run s = .ok s'

/-- No file has anything in it. -/
def FilesEmpty (s : Vfs) : Prop :=
  ∀ i type q list, s.shape i = some (type, q, .filedata list) → list.length = 0

/-- **An allowed call** returns and adds its entry, with an inode that lists
nothing yet. -/
theorem TreeOp.spec (h : TreeInv root s) {op : TreeOp} (hop : op.Allowed s) :
    ∃ s' d list list' type data, op.run s = .ok s' ∧ Created op.new type data s s' d list list' ∧
      data.entries = [] ∧ data.Matches type ∧ (∀ l, data = .filedata l → l.length = 0) := by
  cases op with
  | createDir mem new =>
      obtain ⟨hnew, b, rfl, hroom, hsize⟩ := hop
      obtain ⟨s', d, list, list', hrun, hcreated⟩ := h.created hnew .directory
        (.direntries (vpaCreate (some b) tmpfsDefaultDirAllocSize))
      refine ⟨s', d, list, list', .directory, _, ?_, hcreated, rfl, ⟨rfl, b, ?_⟩, nofun⟩
      · show (tmpfsCreate .directory _ _ _ _ _ _ _ >>= _) = _
        rw [hrun]
        rfl
      · exact ⟨rfl, show 0 < 4 by decide, hroom, hsize⟩
  | createFile mem new =>
      obtain ⟨s', d, list, list', hrun, hcreated⟩ := h.created hop .file
        (.filedata (u8aCreate mem tmpfsDefaultFileAllocSize))
      refine ⟨s', d, list, list', .file, _, ?_, hcreated, rfl, rfl, ?_⟩
      · show (tmpfsCreate .file _ _ _ _ _ _ _ >>= _) = _
        rw [hrun]
        rfl
      · rintro l ⟨⟩
        rfl

theorem FilesEmpty.created (hempty : FilesEmpty s) {new : NewEntry} {type : InodeType}
    {data : InodeData} {list list' : VPArrayList} (h : Created new type data s s' d list list')
    (hdata : ∀ l, data = .filedata l → l.length = 0) : FilesEmpty s' := by
  intro j type' q l hj
  rw [h.shape] at hj
  by_cases hjd : j = d.inode
  · rw [hjd, Function.update_self] at hj
    cases hj
  rw [Function.update_of_ne hjd] at hj
  by_cases hji : j = new.inode
  · rw [hji, Function.update_self, Option.some.injEq, Prod.mk.injEq, Prod.mk.injEq] at hj
    exact hdata l hj.2.2
  · rw [Function.update_of_ne hji] at hj
    exact hempty j type' q l hj

theorem TreeInv.step (h : TreeInv root s) (hempty : FilesEmpty s) (hstep : TreeStep s s') :
    TreeInv root s' ∧ FilesEmpty s' := by
  obtain ⟨op, hop, hrun⟩ := hstep
  obtain ⟨s₁, d, list, list', type, data, hrun₁, hcreated, hentries, hmatch, hdata⟩ :=
    TreeOp.spec h hop
  obtain rfl := Except.ok.inj (hrun.symm.trans hrun₁)
  have hnew : op.new.Allowed s := by
    cases op with
    | createDir => exact hop.1
    | createFile => exact hop
  exact ⟨hcreated.treeInv h hnew hentries hmatch, hempty.created hcreated hdata⟩

/-! ### The root

The smallest tree, from which all others grow.  The root has no parent, and
its name is a slash, which is no name that another entry may have. -/

/-- A `Vfs` without inodes, as `vfs_create` makes it.  The counter of inodes
may have any value. -/
structure Vfs.IsNew (s : Vfs) : Prop where
  dentries : s.dentries = fun _ => none
  inodes : s.inodes = fun _ => none
  files : s.files = fun _ => none

theorem createTmpfsRoot_dentries (h : s.IsNew) (entry root : ℕ) (mem : Option (Block ℕ)) (p : ℕ) :
    (createTmpfsRoot entry root mem s).dentries p =
      if p = entry then some ⟨root, qstrFromNullTerminatedString [47], 0⟩ else none := by
  show Function.update s.dentries entry _ p = _
  rw [h.dentries, Function.update_apply]

theorem createTmpfsRoot_shape (h : s.IsNew) (entry root : ℕ) (mem : Option (Block ℕ)) (i : ℕ) :
    (createTmpfsRoot entry root mem s).shape i =
      if i = root then
        some (.directory, entry, .direntries (vpaCreate mem tmpfsDefaultDirAllocSize))
      else none := by
  show Option.map _ (Function.update s.inodes root _ i) = _
  rw [h.inodes, Function.update_apply]
  by_cases hi : i = root
  · rw [if_pos hi, if_pos hi]
    rfl
  · rw [if_neg hi, if_neg hi]
    rfl

/-- **The root** alone is a tree, in a file system that had nothing in it:
there is one entry, it is a directory, and it has no children. -/
theorem createTmpfsRoot_treeInv (h : s.IsNew) {entry : ℕ} (hentry : entry ≠ 0) (hroot : root ≠ 0)
    {b : Block ℕ} (hroom : sizeofVoidPointer * tmpfsDefaultDirAllocSize ≤ b.size)
    (hsize : b.size < 2 ^ 32) :
    TreeInv entry (createTmpfsRoot entry root (some b) s) ∧
      FilesEmpty (createTmpfsRoot entry root (some b) s) := by
  have hshape := createTmpfsRoot_shape h entry root (some b)
  have hdentries := createTmpfsRoot_dentries h entry root (some b)
  have hself : (createTmpfsRoot entry root (some b) s).shape root =
      some (.directory, entry, .direntries (vpaCreate (some b) tmpfsDefaultDirAllocSize)) := by
    rw [hshape, if_pos rfl]
  have honly : ∀ p e, (createTmpfsRoot entry root (some b) s).dentries p = some e →
      p = entry ∧ e = ⟨root, qstrFromNullTerminatedString [47], 0⟩ := by
    intro p e he
    rw [hdentries] at he
    by_cases hp : p = entry
    · rw [if_pos hp, Option.some.injEq] at he
      exact ⟨hp, he.symm⟩
    · rw [if_neg hp] at he
      cases he
  have hchildren : ∀ p, (createTmpfsRoot entry root (some b) s).children p = [] := by
    intro p
    cases hp : (createTmpfsRoot entry root (some b) s).dentries p with
    | none => exact Vfs.children_of_none hp
    | some e =>
        obtain ⟨rfl, rfl⟩ := honly p e hp
        exact Vfs.children_eq hp hself
  refine ⟨⟨?_, ?_, ?_, ?_, ?_, ?_, ?_, ?_⟩, ?_⟩
  · rw [hdentries, if_neg hentry.symm]
  · rw [← Vfs.shape_eq_none, hshape, if_neg hroot.symm]
  · obtain ⟨n, hn, -⟩ := Vfs.inode_of_shape hself
    exact ⟨n, hn⟩
  · refine ⟨⟨root, qstrFromNullTerminatedString [47], 0⟩, ?_, rfl, rfl, rfl⟩
    rw [hdentries, if_pos rfl]
  · intro p e he
    obtain ⟨rfl, rfl⟩ := honly p e he
    exact ⟨_, _, hself, rfl, b, rfl, show 0 < 4 by decide, hroom, hsize⟩
  · intro p e he hp
    exact absurd (honly p e he).1 hp
  · intro p q hq
    rw [hchildren] at hq
    cases hq
  · intro p
    rw [hchildren]
    exact List.Pairwise.nil
  · intro j type q l hj
    rw [hshape] at hj
    by_cases hjr : j = root
    · rw [if_pos hjr] at hj
      cases hj
    · rw [if_neg hjr] at hj
      cases hj

/-- A root at entry 1 and inode 2. -/
def loneRoot : Vfs :=
  createTmpfsRoot 1 2 (some ⟨16, fun _ => 0⟩)
    ⟨fun _ => none, fun _ => none, fun _ => none, 0, 0, 0⟩

theorem loneRoot_treeInv : TreeInv 1 loneRoot ∧ FilesEmpty loneRoot :=
  createTmpfsRoot_treeInv ⟨rfl, rfl, rfl⟩ Nat.one_ne_zero (Nat.succ_ne_zero 1) (Nat.le_refl 16)
    (show 16 < 2 ^ 32 by decide)

/-- A file named `name` in the root, at entry 3 and inode 4. -/
def oneFile (name : List UInt8) : TreeOp := .createFile none ⟨name, 1, 3, 4, none⟩

theorem oneFile_allowed {name : List UInt8} (hname : IsName name) :
    (oneFile name).Allowed loneRoot := by
  refine ⟨hname, ⟨_, _, _, rfl, rfl⟩, fun q hq => ?_, nofun, rfl, nofun, rfl, ?_⟩
  · cases (show q ∈ ([] : List ℕ) from hq)
  · rintro d q type list hd hs hfull
    cases hd
    cases hs
    cases (show ¬ 4 ≤ 0 + 1 by decide) hfull

end CourseOs.Fs
