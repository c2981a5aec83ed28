import CourseOs.Ds.ArrayList
import CourseOs.Ds.Qstr
import Mathlib.Logic.Function.Basic

/-!
# The file system's data

The inodes and directory entries of `fs/inode.c`, and the inode list of
`fs/vfs.c`, for one `Vfs` with tmpfs on it.  Entries, inodes and open files
are reached by address, through stores of their own: a pointer of the source
is a number, the null pointer is 0, and reading through a pointer that leads
nowhere stops the model (`Vfs.fetch`).

`TmpfsInode.data` is a union, a file's bytes or a directory's entries; taking
it for the wrong one is a trap as well.  The lists are part of the inode,
which alone points to them, so that two inodes cannot share one, and growing a
list is a change of its inode.

`vfs_get_root` goes through the inode list and compares names, which stores
their hashes in the entries on the way; the model keeps that
(`vfsGetRootLoop`), since it is a write to memory, if one that no caller sees.
-/

namespace CourseOs.Fs

/-- `InodeType`: what the inode is, and which of the two lists its data is. -/
inductive InodeType
  | directory
  | file
  deriving DecidableEq, Repr

/-- `VfsErr`, with the names of the source in short. -/
inductive VfsErr
  | ok
  | notDir
  | exists
  | allocFailed
  | noParent
  deriving DecidableEq, Repr

/-- The union of `TmpfsInode`. -/
inductive InodeData
  | filedata (list : U8ArrayList)
  | direntries (list : VPArrayList)

/-- `TmpfsInode`, with its `Inode` in front.  `next` is the link of the inode
list. -/
structure TmpfsInode where
  inodeType : InodeType
  id : ℕ
  refcount : ℕ
  direntry : ℕ
  next : ℕ
  shouldDelete : Bool
  data : InodeData

/-- `DirEntry`.  An inode or a parent that is null is the address 0. -/
structure DirEntry where
  inode : ℕ
  name : Qstr
  parent : ℕ
  deriving DecidableEq, Repr

/-- `File`: a handle on an entry, and where it stands in the file. -/
structure File where
  dentry : ℕ
  filePosition : ℕ
  deriving DecidableEq, Repr

/-- A `Vfs` and what is reached from it: the stores of entries, inodes and
open files, the ends of the inode list, and the counter that numbers inodes. -/
structure Vfs where
  dentries : ℕ → Option DirEntry
  inodes : ℕ → Option TmpfsInode
  files : ℕ → Option File
  head : ℕ
  tail : ℕ
  /-- `cnt`. -/
  cnt : ℕ

namespace Vfs

/-- The structure at address `p` of one of the stores.  The null pointer and a
pointer to nothing are told apart. -/
def fetch {α : Type} (store : ℕ → Option α) (p : ℕ) : Exec α :=
  if p = 0 then .error .nullDereference
  else match store p with
    | some a => .ok a
    | none => .error .dangling

/-- `*p`, for an entry. -/
def dentry (s : Vfs) (p : ℕ) : Exec DirEntry := fetch s.dentries p

/-- `*p`, for an inode. -/
def inode (s : Vfs) (p : ℕ) : Exec TmpfsInode := fetch s.inodes p

/-- `*p`, for an open file. -/
def file (s : Vfs) (p : ℕ) : Exec File := fetch s.files p

/-- The entry at `p` becomes `d`; all else stays. -/
def putDentry (s : Vfs) (p : ℕ) (d : DirEntry) : Vfs :=
  { s with dentries := Function.update s.dentries p (some d) }

/-- The inode at `p` becomes `i`. -/
def putInode (s : Vfs) (p : ℕ) (i : TmpfsInode) : Vfs :=
  { s with inodes := Function.update s.inodes p (some i) }

/-- The open file at `p` becomes `f`. -/
def putFile (s : Vfs) (p : ℕ) (f : File) : Vfs :=
  { s with files := Function.update s.files p (some f) }

section Updates

variable (s : Vfs) (p : ℕ) (d : DirEntry) (i : TmpfsInode) (f : File)

@[simp] theorem putDentry_inodes : (s.putDentry p d).inodes = s.inodes := rfl
@[simp] theorem putDentry_files : (s.putDentry p d).files = s.files := rfl
@[simp] theorem putDentry_head : (s.putDentry p d).head = s.head := rfl
@[simp] theorem putDentry_tail : (s.putDentry p d).tail = s.tail := rfl
@[simp] theorem putInode_dentries : (s.putInode p i).dentries = s.dentries := rfl
@[simp] theorem putInode_files : (s.putInode p i).files = s.files := rfl
@[simp] theorem putInode_head : (s.putInode p i).head = s.head := rfl
@[simp] theorem putInode_tail : (s.putInode p i).tail = s.tail := rfl
@[simp] theorem putFile_dentries : (s.putFile p f).dentries = s.dentries := rfl
@[simp] theorem putFile_inodes : (s.putFile p f).inodes = s.inodes := rfl

@[simp] theorem putDentry_self : (s.putDentry p d).dentries p = some d := Function.update_self ..

@[simp] theorem putInode_self : (s.putInode p i).inodes p = some i := Function.update_self ..

@[simp] theorem putFile_self : (s.putFile p f).files p = some f := Function.update_self ..

theorem putDentry_of_ne {s : Vfs} {p q : ℕ} (d : DirEntry) (h : q ≠ p) :
    (s.putDentry p d).dentries q = s.dentries q := Function.update_of_ne h _ _

theorem putInode_of_ne {s : Vfs} {p q : ℕ} (i : TmpfsInode) (h : q ≠ p) :
    (s.putInode p i).inodes q = s.inodes q := Function.update_of_ne h _ _

theorem putFile_of_ne {s : Vfs} {p q : ℕ} (f : File) (h : q ≠ p) :
    (s.putFile p f).files q = s.files q := Function.update_of_ne h _ _

end Updates

theorem fetch_eq {α : Type} {store : ℕ → Option α} {p : ℕ} {a : α} (hp : p ≠ 0)
    (h : store p = some a) : fetch store p = .ok a := by
  unfold fetch
  rw [if_neg hp, h]

end Vfs

/-- `create_inode_base`: the counter it leaves and the inode, with the data
given. -/
def createInodeBase (cnt : ℕ) (type : InodeType) (direntry : ℕ) (data : InodeData) :
    ℕ × TmpfsInode :=
  let id := (cnt + 1) % 2 ^ 32
  (id, ⟨type, id, 0, direntry, 0, false, data⟩)

/-- `create_direntry`, in the block `entry`.  The entry has no inode yet. -/
def createDirentry (entry : ℕ) (name : Qstr) (parent inode : ℕ) (s : Vfs) : Vfs :=
  s.putDentry entry ⟨inode, name, parent⟩

/-- `vfs_add_inode`: the inode goes behind the last one, unless it is in the
list already. -/
def vfsAddInode (s : Vfs) (inode : ℕ) : Exec (Vfs × VfsErr) := do
  let i ← s.inode inode
  if i.next ≠ 0 ∨ s.tail = inode then .ok (s, .exists)
  else do
    let t ← s.inode s.tail
    .ok ({ s.putInode s.tail { t with next := inode } with tail := inode }, .ok)

/-- The loop of `vfs_get_root`.  Comparing names stores their hashes.  It ends
in front of the last inode of the list, without a look at that one. -/
def vfsGetRootLoop : ℕ → Vfs → ℕ → Exec (Vfs × ℕ)
  | 0, _, _ => .error .diverged
  | fuel + 1, s, curr => do
      let i ← s.inode curr
      let d ← s.dentry i.direntry
      let (equal, name) ← qstrEqNullTerminated d.name [47, 0]
      let s := s.putDentry i.direntry { d with name }
      if equal then .ok (s, i.direntry)
      else if i.next = s.tail then .ok (s, 0)
      else vfsGetRootLoop fuel s i.next

/-- `vfs_get_root`. -/
def vfsGetRoot (s : Vfs) : Exec (Vfs × ℕ) := vfsGetRootLoop (s.cnt + 1) s s.head

end CourseOs.Fs
