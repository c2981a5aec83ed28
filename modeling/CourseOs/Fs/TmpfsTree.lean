import CourseOs.Fs.PathThroughFile
import CourseOs.Fs.TmpfsFile
import CourseOs.Lib.Calls
import CourseOs.Lib.FileTree

/-!
# A file system is a tree of files

All of tmpfs together: entries are added, paths looked up, and files opened,
read, written and closed, in any order.  `FsCall` are the calls, `FsCall.Spec`
is what they do on a `FileTree`, and `FsCall.Allowed` is when they do it.

## Main definitions

* `FsCall`, `FsOutput` — a call on the file system, and what it returns.
* `FsCall.Spec` — the call on a tree of files: the new entry is a leaf of the
  tree, a lookup gives the entry that has the path, and a call on a file is
  one on the `SharedFile` of its entry.
* `FsCall.Allowed` — the conditions under which the source does that.  They
  name its three defects in paths and files: a lookup takes a prefix for a
  name, it takes a file's bytes for entries, and a write ends the file where
  it ends.
* `FileFrame i d s s'` — only the inode `i`, a file's, and the handles open on
  the entry `d` have changed.

## Main results

`FileAt.frame`: a call on one file leaves all other files, and the tree, as
they are.  The files of the tree are thereby independent of each other, which
nothing in the source says: it follows from each inode having its own list,
and each handle one entry.
-/

namespace CourseOs.Fs

variable {root i d fp p q : ℕ} {s s' : Vfs} {A : SharedFile ℕ UInt8} {cs : List (List UInt8)}

/-- The entries of a file system, by their addresses, with paths of byte
strings. -/
abbrev Tree := FileTree ℕ (List UInt8) ℕ UInt8

/-! ### The calls

The calls of `tmpfs.c` and `path.c` together, as far as they work on one tree.
The specification is a relation: it says nothing of calls that have no place
in a tree, such as a creation under a name that is taken. -/

/-- A call on the file system.  A call on a file is made by a client that has
the file's entry; which handle it uses is part of the call. -/
inductive FsCall
  | createDir (mem : Option (Block ℕ)) (new : NewEntry)
  | createFile (mem : Option (Block UInt8)) (new : NewEntry)
  | lookup (path : U8ArrayList)
  | file (entry : ℕ) (op : FileOp)

/-- What a call returns: a creation the inode and the error, a lookup the
entry or null. -/
inductive FsOutput
  | created (inode : ℕ) (err : VfsErr)
  | entry (p : ℕ)
  | file (out : FileOutput)
  deriving DecidableEq

namespace FsCall

/-- The call. -/
def run : FsCall → Vfs → Exec (Vfs × FsOutput)
  | createDir mem new, s => do
      let s := createDirentry new.entry (qstrFromNullTerminatedString new.name) new.parent 0 s
      let (s, inode, err) ← tmpfsCreateDir mem new.inode new.grow s new.parent new.entry .ok
      .ok (s, .created inode err)
  | createFile mem new, s => do
      let s := createDirentry new.entry (qstrFromNullTerminatedString new.name) new.parent 0 s
      let (s, inode, err) ← tmpfsCreateFile mem new.inode new.grow s new.parent new.entry .ok
      .ok (s, .created inode err)
  | lookup path, s => do
      let (s, entry) ← pathGetDirentry s path (some .ok)
      .ok (s, .entry entry)
  | file entry op, s => do
      let d ← s.dentry entry
      let (s, out) ← op.run d.inode s
      .ok (s, .file out)

/-- When the call does what it should.  A new entry has a name of its own in
its directory, and memory.  The path looked up is absolute, entries named come
first among those whose names begin with its components, and the lookup does
not take a file's bytes for entries.  A call on a file is one that may be made
and fits. -/
def Allowed (root : ℕ) : FsCall → Vfs → Prop
  | createDir mem new, s => new.Allowed s ∧ ∃ b, mem = some b ∧
      sizeofVoidPointer * tmpfsDefaultDirAllocSize ≤ b.size ∧ b.size < 2 ^ 32
  | createFile mem new, s => new.Allowed s ∧ ∃ b, mem = some b ∧
      tmpfsDefaultFileAllocSize ≤ b.size ∧ b.size < 2 ^ 32
  | lookup path, s => ∃ cs, (∀ c ∈ cs, (47 : UInt8) ∉ c) ∧ path.contents = pathBytes cs ∧
      FirstOnTheWay s root cs ∧ ∀ q, Stuck (FirstBeginning s) root cs q → ¬s.HoldsBytes q
  | file entry op, s => s.IsFile entry ∧ ∀ d, s.dentries entry = some d →
      op.Allowed d.inode entry s ∧ op.Fits d.inode entry s

/-- The call on a tree of files: what it may return, and the tree afterwards.
Addresses of new entries and inodes are those the call was given. -/
inductive Spec : FsCall → Tree → FsOutput → Tree → Prop
  | createDir {mem : Option (Block ℕ)} {new : NewEntry} {t : Tree} {cs : List (List UInt8)}
      (hparent : t.path new.parent = some cs) (hdir : t.file new.parent = none)
      (hfree : t.At (cs ++ [new.name]) none) :
      Spec (.createDir mem new) t (.created new.inode .ok)
        (t.add new.parent new.entry new.name none)
  | createFile {mem : Option (Block UInt8)} {new : NewEntry} {t : Tree} {cs : List (List UInt8)}
      (hparent : t.path new.parent = some cs) (hdir : t.file new.parent = none)
      (hfree : t.At (cs ++ [new.name]) none) :
      Spec (.createFile mem new) t (.created new.inode .ok)
        (t.add new.parent new.entry new.name (some ⟨[], fun _ => none⟩))
  | lookup {path : U8ArrayList} {t : Tree} {cs : List (List UInt8)} {o : Option ℕ}
      (hcs : ∀ c ∈ cs, (47 : UInt8) ∉ c) (hpath : path.contents = pathBytes cs) (ho : t.At cs o)
      (hne : o ≠ some 0) : Spec (.lookup path) t (.entry (o.getD 0)) t
  | file {entry : ℕ} {op : FileOp} {t : Tree} {A : SharedFile ℕ UInt8}
      (hA : t.file entry = some A) :
      Spec (.file entry op) t (.file (op.reference A).2) (t.setFile entry (op.reference A).1)

end FsCall

/-! ### What a call on a file leaves alone

A frame for calls on a file, up to its inode and its handles.  It is
transitive, and each of the updates that a call is made of is within it. -/

/-- From `s` to `s'` only the inode `i`, a file's, and the handles open on the
entry `d` have changed; the inode is a file's still. -/
structure FileFrame (i d : ℕ) (s s' : Vfs) : Prop where
  dentries : s'.dentries = s.dentries
  head : s'.head = s.head
  tail : s'.tail = s.tail
  inodes : ∀ j, j ≠ i → s'.inodes j = s.inodes j
  inode : ∃ n n' list list', s.inodes i = some n ∧ s'.inodes i = some n' ∧
    n.data = .filedata list ∧ n'.data = .filedata list' ∧ n'.inodeType = n.inodeType ∧
    n'.direntry = n.direntry
  files : ∀ fp f, s'.files fp = some f → s.files fp = some f ∨ f.dentry = d
  positions : ∀ d', d' ≠ d → s'.handlePosition d' = s.handlePosition d'

namespace FileFrame

variable {n m : TmpfsInode} {list list' : U8ArrayList} {f : File}

theorem refl (hn : s.inodes i = some n) (hdata : n.data = .filedata list) : FileFrame i d s s :=
  ⟨rfl, rfl, rfl, fun _ _ => rfl, ⟨n, n, list, list, hn, hn, hdata, hdata, rfl, rfl⟩,
    fun _ _ hf => .inl hf, fun _ _ => rfl⟩

theorem trans {s'' : Vfs} (h : FileFrame i d s s') (h' : FileFrame i d s' s'') :
    FileFrame i d s s'' := by
  obtain ⟨n, n₁, list, list₁, hn, hn₁, hdata, -, htype, hentry⟩ := h.inode
  obtain ⟨n', n₂, -, list₂, hn', hn₂, -, hdata₂, htype₂, hentry₂⟩ := h'.inode
  obtain rfl := Option.some.inj (hn₁.symm.trans hn')
  refine ⟨h'.dentries.trans h.dentries, h'.head.trans h.head, h'.tail.trans h.tail,
    fun j hj => (h'.inodes j hj).trans (h.inodes j hj), ⟨n, n₂, list, list₂, hn, hn₂, hdata, hdata₂,
      htype₂.trans htype, hentry₂.trans hentry⟩, fun x f hf => ?_,
    fun e he => (h'.positions e he).trans (h.positions e he)⟩
  rcases h'.files x f hf with hf | hf
  · exact h.files x f hf
  · exact .inr hf

/-- The inode is written. -/
theorem putInode (hn : s.inodes i = some n) (hdata : n.data = .filedata list)
    (hdata' : m.data = .filedata list') (htype : m.inodeType = n.inodeType)
    (hentry : m.direntry = n.direntry) : FileFrame i d s (s.putInode i m) :=
  ⟨rfl, rfl, rfl, fun _ hj => Vfs.putInode_of_ne m hj,
    ⟨n, m, list, list', hn, Vfs.putInode_self .., hdata, hdata', htype, hentry⟩,
    fun _ _ hf => .inl hf, fun _ _ => rfl⟩

/-- A handle of the file, or a new one, is written. -/
theorem putFile (hn : s.inodes i = some n) (hdata : n.data = .filedata list) (hd : f.dentry = d)
    (hold : ∀ g, s.files fp = some g → g.dentry = d) : FileFrame i d s (s.putFile fp f) := by
  refine ⟨rfl, rfl, rfl, fun _ _ => rfl, ⟨n, n, list, list, hn, hn, hdata, hdata, rfl, rfl⟩, ?_, ?_⟩
  · intro x g hg
    by_cases hx : x = fp
    · rw [hx, Vfs.putFile_self, Option.some.injEq] at hg
      exact .inr (hg ▸ hd)
    · rw [Vfs.putFile_of_ne f hx] at hg
      exact .inl hg
  · intro e he
    funext x
    unfold Vfs.handlePosition
    by_cases hx : x = fp
    · subst hx
      rw [Vfs.putFile_self]
      dsimp only
      rw [if_neg (hd ▸ he.symm)]
      cases hf : s.files x with
      | none => rfl
      | some g => exact (if_neg (hold g hf ▸ he.symm)).symm
    · rw [Vfs.putFile_of_ne f hx]

/-- A handle of the file is freed. -/
theorem close (hn : s.inodes i = some n) (hdata : n.data = .filedata list)
    (hf : s.files fp = some f) (hd : f.dentry = d) :
    FileFrame i d s { s with files := Function.update s.files fp none } := by
  refine ⟨rfl, rfl, rfl, fun _ _ => rfl, ⟨n, n, list, list, hn, hn, hdata, hdata, rfl, rfl⟩, ?_, ?_⟩
  · intro x g hg
    dsimp only at hg
    by_cases hx : x = fp
    · rw [hx, Function.update_self] at hg
      cases hg
    · rw [Function.update_of_ne hx] at hg
      exact .inl hg
  · intro e he
    funext x
    unfold Vfs.handlePosition
    dsimp only
    by_cases hx : x = fp
    · subst hx
      rw [Function.update_self, hf]
      exact (if_neg (hd ▸ he.symm)).symm
    · rw [Function.update_of_ne hx]

end FileFrame

/-- **A call on a file** leaves everything else alone: the tree, all other
inodes, and the handles of other files. -/
theorem FileAt.frame (h : FileAt i d s) {op : FileOp} {out : FileOutput}
    (hop : op.Allowed i d s) (hrun : op.run i s = .ok (s', out)) : FileFrame i d s s' := by
  obtain ⟨n, hn, hdata, hentry⟩ := h.inode
  -- a handle of the file, with its cell
  have hhandle : ∀ {fp}, (s.handlePosition d fp).isSome →
      ∃ f, s.files fp = some f ∧ s.file fp = .ok f ∧ f.dentry = d := by
    intro fp hfp
    obtain ⟨p, hp⟩ := Option.isSome_iff_exists.mp hfp
    obtain ⟨f, hf, hd, -⟩ := Vfs.handlePosition_eq_some.mp hp
    obtain ⟨f', hf', -⟩ := h.handle hp
    have hfp : fp ≠ 0 := by
      rintro rfl
      cases h.files_null.symm.trans hf
    exact ⟨f, hf, Vfs.fetch_eq hfp hf, hd⟩
  have hwritten : ∀ {fp f}, s.files fp = some f → f.dentry = d →
      ∀ g, s.files fp = some g → g.dentry = d := by
    intro fp f hf hd g hg
    rwa [← Option.some.inj (hf.symm.trans hg)]
  cases op with
  | «open» file =>
      change (tmpfsOpenFile file s i .ok >>= _) = _ at hrun
      unfold tmpfsOpenFile at hrun
      by_cases hfile : file = 0
      · rw [if_pos hfile] at hrun
        cases hrun
        exact .refl hn hdata
      · rw [if_neg hfile, show s.inode i = .ok n from Vfs.fetch_eq h.inode_ne hn] at hrun
        cases hrun
        refine (FileFrame.putInode (m := { n with refcount := (n.refcount + 1) % 2 ^ 32 }) hn hdata
          hdata rfl rfl).trans (.putFile (Vfs.putInode_self ..) hdata hentry fun g hg => ?_)
        cases hg.symm.trans hop
  | close fp =>
      obtain ⟨f, hf, hfile, hd⟩ := hhandle hop
      obtain ⟨e, he, hei⟩ := h.entry
      have hdentry : s.dentry f.dentry = .ok e := Vfs.fetch_eq (hd ▸ h.entry_ne) (hd ▸ he)
      have hi : s.inode e.inode = .ok n := Vfs.fetch_eq (hei ▸ h.inode_ne) (hei ▸ hn)
      change (tmpfsCloseFile s fp >>= _) = _ at hrun
      unfold tmpfsCloseFile at hrun
      rw [hfile, Exec.ok_bind, hdentry, Exec.ok_bind, hi, hei] at hrun
      cases hrun
      exact (FileFrame.putInode (m := { n with refcount := sub32 n.refcount 1 }) hn hdata hdata
        rfl rfl).trans (.close (Vfs.putInode_self ..) hdata hf hd)
  | seek fp q =>
      obtain ⟨f, hf, hfile, hd⟩ := hhandle hop.1
      change (s.file fp >>= _) = _ at hrun
      rw [hfile] at hrun
      cases hrun
      exact .putFile hn hdata hd (hwritten hf hd)
  | read fp count =>
      obtain ⟨f, hf, hfile, hd⟩ := hhandle hop
      change (tmpfsReadFile s fp count >>= _) = _ at hrun
      rw [h.read_eq hfile hd] at hrun
      cases hbuf : memcpyFrom (s.fileList i).array f.filePosition
          (readCount (s.fileList i) f.filePosition count) with
      | error t =>
          rw [hbuf] at hrun
          cases hrun
      | ok buf =>
          rw [hbuf] at hrun
          cases hrun
          exact .putFile hn hdata hd (hwritten hf hd)
  | write mem fp buf =>
      obtain ⟨f, hf, hfile, hd⟩ := hhandle hop.1
      change (tmpfsWriteFile mem s fp buf >>= _) = _ at hrun
      rw [h.write_eq hfile hd hn hdata] at hrun
      cases hblock : memcpyTo (u8aResize mem (s.fileList i)
          (((s.fileList i).capacity + buf.length) % 2 ^ 32)).array f.filePosition buf with
      | error t =>
          rw [hblock] at hrun
          cases hrun
      | ok block =>
          rw [hblock] at hrun
          cases hrun
          exact (FileFrame.putInode (m := { n with data := .filedata _ }) hn hdata rfl rfl
            rfl).trans (.putFile (Vfs.putInode_self ..) rfl hd (hwritten hf hd))

end CourseOs.Fs
