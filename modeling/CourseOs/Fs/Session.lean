import CourseOs.Fs.FsHeapCreate
import CourseOs.Lib.Calls
import CourseOs.Lib.LinkedList

/-!
# Sessions with a `Vfs`

The life of a `Vfs` on the heap, as the rest of the kernel sees it.  A
`Session` starts with `vfs_create`, `tmpfs_init` and `create_tmpfs_root`; its
clients then make directory entries, give each of them to one
`tmpfs_create_*`, and open, write and close files.  At its end `vfs_free`
tears the file system down.

## The model

`SessionCall.run` makes one call on the heap (`Fs.FsHeap`), and keeps the
addresses that the call returned to its client: the inodes that were made, the
entries that have no inode yet, and the files that are open.  A call takes
along what `kmalloc` has for each of its requests (`Supply`), so that every
pattern of refused allocations is a list of calls.

## What is asked of the clients

`SessionCall.Allowed` is the discipline that the routines expect and do not
check.  A create gets the entry of a directory and an entry that has no inode,
an open an inode, a write and a close a file that is open, and a write one
that was opened on a file.  In `tmpfs_create_*` a refused inode is returned as
null before anything is linked, and the entry then keeps what its block held
as its inode; a session makes an inode for every entry, so memory for the
inode itself is part of the discipline.

## What memory decides

All other refusals are left open, and their effects are told apart.
`SessionCall.Starves` names the requests whose refusal stops the call, because
the routine goes on with the null pointer, or with an array that it takes to
have grown.  `SessionCall.Loses` names the one whose refusal does not:
`vpa_push` replaces the array of a full list by null, and the create succeeds
all the same.
-/

namespace CourseOs.Fs

open FsHeap SymbolicHeap

/-- A `Vfs` in use: the inodes made, and the entries without an inode and the
open files that its clients have. -/
structure Session where
  heap : FsHeap
  vfs : ℕ
  inodes : List ℕ
  entries : List ℕ
  files : List ℕ

/-- What `kmalloc` has for the start of a session, request by request. -/
structure StartMemory where
  vfs : Supply
  table : Supply
  register : Supply
  entry : EntryMemory
  root : InodeMemory

/-- A call of a client, with what `kmalloc` has for it.  The inode of a create
is linked to an entry that was made before. -/
inductive SessionCall
  | direntry (em : EntryMemory) (name : List UInt8) (parent : ℕ)
  /-- `tmpfs_create_dir` or `tmpfs_create_file`. -/
  | create (type : InodeType) (im : InodeMemory) (grow : Supply) (parent entry : ℕ)
  | open (m : Supply) (inode : ℕ)
  | write (m : Supply) (file : ℕ) (buf : List UInt8)
  | close (file : ℕ)

section Model

variable (fsTmpfs : ℕ)

/-- `vfs_create`, `tmpfs_init` and `create_tmpfs_root`. -/
def Session.start (m : StartMemory) (h : FsHeap) : Exec Session := do
  let (h, vfs) ← h.vfsCreate m.vfs m.table
  let (h, _) ← h.tmpfsInit fsTmpfs m.register vfs
  let (heap, root) ← h.createTmpfsRoot fsTmpfs m.entry m.root vfs
  .ok ⟨heap, vfs, [root], [], []⟩

/-- The call, and what it returns: the address of what was made, the number of
bytes written, or nothing. -/
def SessionCall.run : SessionCall → Session → Exec (Session × ℕ)
  | direntry em name parent, s => do
      let (heap, entry) ← s.heap.createNamedDirentry em name parent
      .ok ({ s with heap, entries := entry :: s.entries }, entry)
  | create type im grow parent entry, s => do
      let (heap, inode, _) ← s.heap.tmpfsCreate fsTmpfs type im grow parent entry .ok
      .ok ({ s with heap, inodes := s.inodes ++ [inode], entries := s.entries.erase entry }, inode)
  | .open m inode, s => do
      let (heap, file, _) ← s.heap.tmpfsOpenFile m inode .ok
      .ok ({ s with heap, files := if file = 0 then s.files else file :: s.files }, file)
  | write m file buf, s => do
      let (heap, count) ← s.heap.tmpfsWriteFile m file buf
      .ok ({ s with heap }, count)
  | close file, s => do
      let heap ← s.heap.tmpfsCloseFile file
      .ok ({ s with heap, files := s.files.erase file }, 0)

end Model

/-- The cell is the inode of a directory whose entry is at `parent`. -/
def FsHeap.Cell.IsDirectory (parent : ℕ) : Option Cell → Prop
  | some (.inode i) => i.inodeType = .directory ∧ i.direntry = parent
  | _ => False

/-- `parent` is the entry of a directory. -/
def Session.HasDirectory (s : Session) (parent : ℕ) : Prop :=
  ∃ p ∈ s.inodes, Cell.IsDirectory parent (s.heap.cells p)

/-- The list of the directory at `parent` has to grow for one more entry, and
`kmalloc` has no memory for its array. -/
def FsHeap.GrowthRefused (h : FsHeap) (parent : ℕ) (grow : Supply) : Prop :=
  ∃ d i l b, h.cells parent = some (.direntry d) ∧ h.cells d.inode = some (.inode i) ∧
    h.cells i.data = some (.vp l) ∧ l.array ≠ 0 ∧ h.cells l.array = some (.block b) ∧
    l.capacity ≤ (l.length + 1) % 2 ^ 32 ∧
    b.size < vpaNewSize l.capacity * sizeofPointer % 2 ^ 32 ∧
    grow.block (vpaNewSize l.capacity * sizeofPointer % 2 ^ 32) = none

/-- The list of the directory at `parent` has no array: there was no memory
for it when it was made, or when it had to grow. -/
def FsHeap.ArrayMissing (h : FsHeap) (parent : ℕ) : Prop :=
  ∃ d i l, h.cells parent = some (.direntry d) ∧ h.cells d.inode = some (.inode i) ∧
    h.cells i.data = some (.vp l) ∧ l.array = 0

/-- The inode of an open file, through its entry, as the calls on files find
it. -/
def FsHeap.openedInode (h : FsHeap) (file : ℕ) : Exec TmpfsInode := do
  let f ← h.fetch Cell.toFile file
  let d ← h.fetch Cell.toDirentry f.dentry
  h.fetch Cell.toInode d.inode

/-- The array of an open file has no room for `len` bytes behind its capacity,
and `kmalloc` has no memory for one that has. -/
def FsHeap.WriteRefused (h : FsHeap) (file len : ℕ) (m : Supply) : Prop :=
  len ≠ 0 ∧ ∃ i l, h.openedInode file = .ok i ∧ h.cells i.data = some (.u8 l) ∧
    m.block (l.capacity + len) = none ∧
      ∀ b, l.array ≠ 0 → h.cells l.array = some (.block b) → b.size < l.capacity + len

/-- The file was opened on the inode of a file, so that its list is one of
bytes. -/
def FsHeap.IsFile (h : FsHeap) (file : ℕ) : Prop :=
  (h.openedInode file).toOption.map TmpfsInode.inodeType = some .file

/-- When a call may be made: on a directory, with an entry no inode was made
for, and with memory for the inode; on an inode; on an open file.  The blocks
that `kmalloc` returns are not in use. -/
def SessionCall.Allowed : SessionCall → Session → Prop
  | direntry em _ _, s => Fresh s.heap [em.name, em.entry]
  | create _ im grow parent entry, s =>
      s.HasDirectory parent ∧ entry ∈ s.entries ∧
        Fresh s.heap [im.inode, im.list, im.array, grow] ∧
        im.inode.block sizeofTmpfsInode ≠ none
  | .open m inode, s => inode ∈ s.inodes ∧ s.heap.cells m.addr = none
  | write m file _, s => file ∈ s.files ∧ s.heap.IsFile file ∧ s.heap.cells m.addr = none
  | close file, s => file ∈ s.files

section Decide

instance (parent : ℕ) : ∀ c, Decidable (Cell.IsDirectory parent c)
  | some (.inode _) => inferInstanceAs (Decidable (_ ∧ _))
  | none | some (.block _) | some (.vfs _) | some (.direntry _) | some (.file _) | some (.u8 _)
  | some (.vp _) => .isFalse id

instance (s : Session) (parent : ℕ) : Decidable (s.HasDirectory parent) :=
  inferInstanceAs (Decidable (∃ p ∈ s.inodes, Cell.IsDirectory parent (s.heap.cells p)))

instance (h : FsHeap) (file : ℕ) : Decidable (h.IsFile file) :=
  inferInstanceAs (Decidable (_ = _))

instance (c : Option Cell) : Decidable (c = none) := decidable_of_iff _ Option.isNone_iff_eq_none

instance (h : FsHeap) (ms : List Supply) : Decidable (Fresh h ms) :=
  decidable_of_iff ((∀ m ∈ ms, h.cells m.addr = none) ∧ (ms.map Supply.addr).Nodup)
    ⟨fun ⟨hfree, hdistinct⟩ => ⟨hfree, hdistinct⟩, fun h => ⟨h.free, h.distinct⟩⟩

instance (b : Option (Block UInt8)) : Decidable (b ≠ none) :=
  decidable_of_iff _ Option.isSome_iff_ne_none

instance : ∀ (call : SessionCall) (s : Session), Decidable (call.Allowed s)
  | .direntry .., _ => inferInstanceAs (Decidable (Fresh _ _))
  | .create .., _ => inferInstanceAs (Decidable (_ ∧ _ ∧ _ ∧ _))
  | .open .., _ => inferInstanceAs (Decidable (_ ∧ _))
  | .write .., _ => inferInstanceAs (Decidable (_ ∧ _ ∧ _))
  | .close _, _ => inferInstanceAs (Decidable (_ ∈ _))

end Decide

/-- There is no memory for something that the call uses at once: the name of
an entry or the entry, the header of a new inode's list, the array of the
parent's list, or the bytes written. -/
def SessionCall.Starves : SessionCall → Session → Prop
  | direntry em name _, _ =>
      em.name.block ((name.takeWhile (· ≠ 0)).length + 1) = none ∨
        em.entry.block sizeofDirEntry = none
  | create _ im _ parent _, s =>
      im.list.block sizeofArrayList = none ∨ s.heap.ArrayMissing parent
  | write m file buf, s => s.heap.WriteRefused file buf.length m
  | .open _ _, _ | close _, _ => False

/-- The call loses the array of a directory: it grows, and there is no memory
for the larger one. -/
def SessionCall.Loses : SessionCall → Session → Prop
  | create _ _ grow parent _, s => s.heap.GrowthRefused parent grow
  | _, _ => False

/-- The call is refused memory that it needs, now or for the next entry of the
directory. -/
def SessionCall.Refused (call : SessionCall) (s : Session) : Prop :=
  call.Starves s ∨ call.Loses s

/-- There is memory for all that the start uses: the `Vfs` and its table, and
the root with its name, its entry and the header of its list. -/
structure StartMemory.Granted (m : StartMemory) : Prop where
  vfs : m.vfs.block sizeofVfs ≠ none
  table : m.table.block (10 * sizeofPointer) ≠ none
  name : m.entry.name.block 2 ≠ none
  entry : m.entry.entry.block sizeofDirEntry ≠ none
  inode : m.root.inode.block sizeofTmpfsInode ≠ none
  list : m.root.list.block sizeofArrayList ≠ none

/-- The successor of the inode at `p`, or none where there is no inode. -/
def FsHeap.next (h : FsHeap) (p : ℕ) : ℕ :=
  match h.cells p with
  | some (.inode i) => i.next
  | _ => 0

/-- The inode list is acyclic, has every inode once, and ends at `tail`. -/
def Session.Listed (s : Session) : Prop :=
  ∃ V, s.heap.cells s.vfs = some (.vfs V) ∧
    LinkedList.Chain s.heap.next V.head s.inodes ∧ s.inodes.Nodup ∧
    V.tail = s.inodes.getLastD 0

end CourseOs.Fs
