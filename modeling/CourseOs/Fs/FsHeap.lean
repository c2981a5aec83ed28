import CourseOs.Ds.ListHeap
import CourseOs.Fs.Tmpfs
import CourseOs.Lib.ByteMemory

/-!
# The file system on the heap

`fs/vfs.c`, `fs/inode.c` and `fs/tmpfs/tmpfs.c` again, with every structure
where it is: the `Vfs` and its table, inodes, directory entries and their
names, the lists and their arrays, and open files are cells of one heap, and
point to each other.  What is read or freed is there (`Trap.dangling`), so
that a routine that returns has used nothing that was freed.

The other model of these routines, `Fs.Tmpfs`, has the lists inside of the
inodes and no allocator.  It is the one for questions about names and bytes;
this one is for the question what is allocated, and what becomes of it when
`kmalloc` refuses.  `Fs.SessionTmpfs` connects the two.

## Main definitions

* `Cell` — what an allocated cell holds.  A cell that `kmalloc` returns is a
  block of bytes until a structure is written to it, and reading it as a
  structure before is a trap.
* `Supply` — what `kmalloc` has for one request: an address that is free, and
  a block there if there is memory for so many bytes.  A routine gets one for
  each call it makes, under the name of what it allocates (`EntryMemory`,
  `InodeMemory`), so that each request can be granted or refused on its own.
* `kmalloc`, `kfree`, `krealloc`, `memcpy` — the heap's operations on cells.
  `krealloc` of a block that is too small returns null when it is refused, and
  leaves the old block where it is; what the caller does with the null pointer
  decides whether the block is lost.
* `tmpfsCreate`, `tmpfsWriteFile`, `vfsFree` and the others — the routines of
  the source.

The counter of inodes is a static variable of the source and stands beside the
cells.  `fsTmpfs` is `FS_TMPFS`, the address of a constant.
-/

namespace CourseOs.Fs

namespace FsHeap

/-- `Qstr`: the pointer to its bytes, their number, and the hash that is
cached. -/
structure Qstr where
  data : ℕ
  length : ℕ
  hash : ℕ

/-- `DirEntry`.  The name is part of it, and the name's bytes are a block of
their own. -/
structure DirEntry where
  inode : ℕ
  name : Qstr
  parent : ℕ

/-- `TmpfsInode`, with its `Inode` in front.  Which of the two lists `data`
leads to is said by the type. -/
structure TmpfsInode where
  inodeType : InodeType
  id : ℕ
  refcount : ℕ
  fsIdentifier : ℕ
  direntry : ℕ
  next : ℕ
  shouldDelete : Bool
  vfs : ℕ
  /-- `filedata` or `direntries`. -/
  data : ℕ

/-- `Vfs`: the table of file systems, and the two ends of the inode list. -/
structure Vfs where
  filesystemsSize : ℕ
  filesystemsFilled : ℕ
  filesystems : ℕ
  head : ℕ
  tail : ℕ

/-- What an allocated cell holds: the bytes that `kmalloc` gave, or the
structure that has been written there since. -/
inductive Cell
  | block (b : Block UInt8)
  | vfs (v : Vfs)
  | inode (i : TmpfsInode)
  | direntry (d : DirEntry)
  | file (f : File)
  | u8 (list : ListHeader)
  | vp (list : ListHeader)

namespace Cell

/-- The cell as a block of bytes, which is what `memcpy` and the arrays of
lists see. -/
def toBlock : Cell → Option (Block UInt8)
  | block b => some b
  | _ => none

/-- The cell as a `Vfs`. -/
def toVfs : Cell → Option Vfs
  | vfs v => some v
  | _ => none

/-- The cell as an inode. -/
def toInode : Cell → Option TmpfsInode
  | inode i => some i
  | _ => none

/-- The cell as a directory entry. -/
def toDirentry : Cell → Option DirEntry
  | direntry d => some d
  | _ => none

/-- The cell as an open file. -/
def toFile : Cell → Option File
  | file f => some f
  | _ => none

/-- The cell as a list of bytes. -/
def toU8 : Cell → Option ListHeader
  | u8 list => some list
  | _ => none

/-- The cell as a list of pointers. -/
def toVp : Cell → Option ListHeader
  | vp list => some list
  | _ => none

end Cell

abbrev sizeofVfs : ℕ := 20
abbrev sizeofDirEntry : ℕ := 20
abbrev sizeofTmpfsInode : ℕ := 36
abbrev sizeofFile : ℕ := 12
abbrev sizeofArrayList : ℕ := 12
abbrev sizeofPointer : ℕ := 4

/-- What `kmalloc` has for one request: an address, and the block there if
there is memory for so many bytes.  The size asked for is not known
beforehand, so the block is a function of it. -/
structure Supply where
  addr : ℕ
  block : ℕ → Option (Block UInt8)
  addr_ne_zero : addr ≠ 0
  addr_lt : addr < 2 ^ 32
  room : ∀ size b, block size = some b → size ≤ b.size ∧ b.size < 2 ^ 31

end FsHeap

/-- The heap, and the counter `cnt` that `create_inode_base` numbers inodes
from. -/
structure FsHeap where
  cells : ℕ → Option FsHeap.Cell
  cnt : ℕ

namespace FsHeap

/-! ### Cells

The allocator and the accesses to what it has handed out.  A cell keeps its
kind, so that reading a list where an inode has been written stops the model;
the source has no such check, and a run that returns has not needed one. -/

/-- The structure at `p`, seen as one of a kind.  The null pointer, a pointer
to what is not allocated, and a cell of another kind are three different
traps. -/
def fetch {α : Type} (view : Cell → Option α) (h : FsHeap) (p : ℕ) : Exec α :=
  if p = 0 then .error .nullDereference
  else match h.cells p with
    | none => .error .dangling
    | some c => match view c with
      | none => .error .wrongMember
      | some a => .ok a

/-- The cell at `p` written. -/
def put (h : FsHeap) (p : ℕ) (c : Cell) : FsHeap :=
  { h with cells := Function.update h.cells p (some c) }

/-- `kmalloc`, with the answer of `m`.  The new block replaces whatever cell
stood at its address. -/
def kmalloc (m : Supply) (h : FsHeap) (size : ℕ) : FsHeap × ℕ :=
  match m.block size with
  | none => (h, 0)
  | some b => (h.put m.addr (.block b), m.addr)

/-- `kfree`.  The null pointer is ignored, and a block that is not there any
more is an error of its own: that is a second free. -/
def kfree (h : FsHeap) (p : ℕ) : Exec FsHeap :=
  if p = 0 then .ok h
  else match h.cells p with
    | none => .error .dangling
    | some _ => .ok { h with cells := Function.update h.cells p none }

/-- `memcpy` of the bytes `src` to index `i` of the block at `dest`. -/
def memcpy (h : FsHeap) (dest i : ℕ) (src : List UInt8) : Exec FsHeap :=
  if src.length = 0 then .ok h
  else do
    let b ← h.fetch Cell.toBlock dest
    if i + src.length ≤ b.size then
      .ok (h.put dest (.block { b with
        cell := fun j => if i ≤ j then src.getD (j - i) (b.cell j) else b.cell j }))
    else .error .outOfBounds

/-- `array[i] = data`, of an array of pointers; the write has to lie in the
block. -/
def storePointer (h : FsHeap) (array i data : ℕ) : Exec FsHeap := do
  let b ← h.fetch Cell.toBlock array
  if sizeofPointer * i + sizeofPointer ≤ b.size then
    .ok (h.put array (.block { b with
      cell := (ByteMemory.writeWord ⟨b.cell⟩ (sizeofPointer * i) data).byte }))
  else .error .outOfBounds

/-- `krealloc`, of an array: nothing to do where the block is large enough,
else a new block with the bytes of the old one, which is freed; or null, and
the old one stays. -/
def krealloc (m : Supply) (h : FsHeap) (ptr newsize : ℕ) : Exec (FsHeap × ℕ) :=
  if ptr = 0 then .ok (h.kmalloc m newsize)
  else do
    let old ← h.fetch Cell.toBlock ptr
    if newsize = 0 then do
      let h ← h.kfree ptr
      .ok (h, 0)
    else if newsize ≤ old.size then .ok (h, ptr)
    else match m.block newsize with
      | none => .ok (h, 0)
      | some new => do
          let h := h.put m.addr (.block { new with
            cell := fun i => if i < old.size then old.cell i else new.cell i })
          let h ← h.kfree ptr
          .ok (h, m.addr)

/-! ### Lists

The routines of both kinds of lists that the file system calls, with the array
as a block of its own.  What is pushed to a list of pointers is written before
the list grows; what is written to a list of bytes comes after the resize. -/

/-- What `vpa_create` and `u8a_create` share: a list with an array of so many
bytes. -/
def createList (make : ℕ → Cell) (list array : Supply) (h : FsHeap) (bytes : ℕ) :
    Exec (FsHeap × ℕ) :=
  let (h, p) := h.kmalloc list sizeofArrayList
  let (h, a) := h.kmalloc array bytes
  if p = 0 then .error .nullDereference else .ok (h.put p (make a), p)

/-- `vpa_create`.  The size of the array is `initialCap` pointers, in 32 bits. -/
def vpaCreate (list array : Supply) (h : FsHeap) (initialCap : ℕ) : Exec (FsHeap × ℕ) :=
  h.createList (fun a => .vp ⟨0, initialCap, a⟩) list array (initialCap * sizeofPointer % 2 ^ 32)

/-- `vpa_free`, with no function for the elements: the array and then the
list. -/
def vpaFree (h : FsHeap) (p : ℕ) : Exec FsHeap := do
  let l ← h.fetch Cell.toVp p
  let h ← h.kfree l.array
  h.kfree p

/-- The capacity that `vpa_push` makes of a capacity. -/
def vpaNewSize (capacity : ℕ) : ℕ :=
  max ((capacity + capacity / 4) % 2 ^ 32) ((capacity + 2) % 2 ^ 32)

/-- `vpa_push`: the pointer is stored, and the array grows afterwards when it
is full. -/
def vpaPush (m : Supply) (h : FsHeap) (p data : ℕ) : Exec FsHeap := do
  let l ← h.fetch Cell.toVp p
  let h ← h.storePointer l.array l.length data
  let length := (l.length + 1) % 2 ^ 32
  if length < l.capacity then .ok (h.put p (.vp { l with length }))
  else
    let newSize := vpaNewSize l.capacity
    if newSize ≤ l.capacity then .error .assertion
    else do
      let (h, array) ← h.krealloc m l.array (newSize * sizeofPointer % 2 ^ 32)
      .ok (h.put p (.vp ⟨length, newSize, array⟩))

/-- `u8a_create`, whose array takes a byte for each element. -/
def u8aCreate (list array : Supply) (h : FsHeap) (initialCap : ℕ) : Exec (FsHeap × ℕ) :=
  h.createList (fun a => .u8 ⟨0, initialCap, a⟩) list array initialCap

/-- `u8a_free`.  The array is freed only where the capacity is not 0, and the
list always. -/
def u8aFree (h : FsHeap) (p : ℕ) : Exec FsHeap := do
  let l ← h.fetch Cell.toU8 p
  let h ← if l.capacity = 0 then .ok h else h.kfree l.array
  h.kfree p

/-- `u8a_resize`: the header gets the array that `krealloc` returns, which may
be null, and the new size for its capacity in either case. -/
def u8aResize (m : Supply) (h : FsHeap) (p newSize : ℕ) : Exec FsHeap := do
  let l ← h.fetch Cell.toU8 p
  let (h, array) ← h.krealloc m l.array newSize
  .ok (h.put p (.u8 ⟨if newSize < l.length then newSize else l.length, newSize, array⟩))

/-! ### Directory entries and inodes

An entry owns its name, and the bytes of the name are a block of their own.
An inode and its entry point to each other; the pointer of the entry is set
when the inode is made, and until then it is whatever was in the block. -/

/-- `qstr_from_length_string`, of all of `arr`: a block for the bytes and the
terminator, and no hash yet. -/
def qstrFromLengthString (m : Supply) (h : FsHeap) (arr : List UInt8) : Exec (FsHeap × Qstr) := do
  let (h, data) := h.kmalloc m ((arr.length + 1) % 2 ^ 32)
  let h ← h.memcpy data 0 arr
  let h ← h.memcpy data arr.length [0]
  .ok (h, ⟨data, arr.length, 0⟩)

/-- `qstr_from_null_terminated_string`: the string ends before the first zero
byte. -/
def qstrFromNullTerminatedString (m : Supply) (h : FsHeap) (arr : List UInt8) :
    Exec (FsHeap × Qstr) :=
  h.qstrFromLengthString m (arr.takeWhile (· ≠ 0))

/-- `create_direntry`.  The inode of the entry is what was in the block. -/
def createDirentry (m : Supply) (h : FsHeap) (name : Qstr) (parent : ℕ) : Exec (FsHeap × ℕ) := do
  let (h, entry) := h.kmalloc m sizeofDirEntry
  let b ← h.fetch Cell.toBlock entry
  .ok (h.put entry (.direntry ⟨ByteMemory.readWord ⟨b.cell⟩ 0, name, parent⟩), entry)

/-- `free_direntry`: the block of the name, then the entry. -/
def freeDirentry (h : FsHeap) (entry : ℕ) : Exec FsHeap := do
  let d ← h.fetch Cell.toDirentry entry
  let h ← h.kfree d.name.data
  h.kfree entry

/-- `create_inode_base`, with the pointer that the inode gets to its list. -/
def createInodeBase (h : FsHeap) (vfs : ℕ) (type : InodeType) (fs dirEntry data : ℕ) :
    FsHeap × TmpfsInode :=
  let id := (h.cnt + 1) % 2 ^ 32
  ({ h with cnt := id }, ⟨type, id, 0, fs, dirEntry, 0, false, vfs, data⟩)

/-! ### The inode list

All inodes of a `Vfs` are in one list, in the order in which they were made.
It is by this list, and not by the tree of directories, that `vfs_free` comes
to them. -/

/-- `vfs_create`.  The fields are written through the pointer `kmalloc`
returned, which is null where there is no memory; the table of file systems is
not looked at. -/
def vfsCreate (vfs table : Supply) (h : FsHeap) : Exec (FsHeap × ℕ) :=
  let (h, res) := h.kmalloc vfs sizeofVfs
  if res = 0 then .error .nullDereference
  else
    let (h, filesystems) := h.kmalloc table (10 * sizeofPointer)
    .ok (h.put res (.vfs ⟨10, 0, filesystems, 0, 0⟩), res)

/-- `vfs_register`.  The identifier is stored first, and the table is doubled
once it is full; `krealloc`'s answer replaces the pointer even where it is
null. -/
def vfsRegister (m : Supply) (h : FsHeap) (vfs ident : ℕ) : Exec (FsHeap × VfsErr) := do
  let v ← h.fetch Cell.toVfs vfs
  let h ← h.storePointer v.filesystems v.filesystemsFilled ident
  let filled := (v.filesystemsFilled + 1) % 2 ^ 32
  if filled < v.filesystemsSize then
    .ok (h.put vfs (.vfs { v with filesystemsFilled := filled }), .ok)
  else do
    let size := v.filesystemsSize * 2 % 2 ^ 32
    let (h, table) ← h.krealloc m v.filesystems (size * sizeofPointer % 2 ^ 32)
    .ok (h.put vfs (.vfs ⟨size, filled, table, v.head, v.tail⟩),
      if table = 0 then .allocFailed else .ok)

/-- `vfs_add_inode`.  An inode with a successor, or at the tail, is in the
list already. -/
def vfsAddInode (h : FsHeap) (vfs inode : ℕ) : Exec (FsHeap × VfsErr) := do
  let i ← h.fetch Cell.toInode inode
  let v ← h.fetch Cell.toVfs vfs
  if i.next ≠ 0 ∨ v.tail = inode then .ok (h, .exists)
  else do
    let t ← h.fetch Cell.toInode v.tail
    let h := h.put v.tail (.inode { t with next := inode })
    .ok (h.put vfs (.vfs { v with tail := inode }), .ok)

/-! ### tmpfs

The routines of `tmpfs.c` that allocate, link or free.  A create asks for the
inode first and gives up if there is none; for what it asks after that it does
not look at the answer. -/

section Tmpfs

variable (fsTmpfs : ℕ)

/-- `tmpfs_init`: the identifier of the file system is registered. -/
def tmpfsInit (m : Supply) (h : FsHeap) (vfs : ℕ) : Exec (FsHeap × VfsErr) :=
  vfsRegister m h vfs fsTmpfs

/-- What `kmalloc` has for a directory entry: the block of the name, and the
entry. -/
structure EntryMemory where
  name : Supply
  entry : Supply

/-- What `kmalloc` has for an inode and its list, in the order in which it is
asked. -/
structure InodeMemory where
  inode : Supply
  list : Supply
  array : Supply

/-- An entry for a name: `create_direntry` of
`qstr_from_null_terminated_string`. -/
def createNamedDirentry (m : EntryMemory) (h : FsHeap) (name : List UInt8) (parent : ℕ) :
    Exec (FsHeap × ℕ) := do
  let (h, name) ← h.qstrFromNullTerminatedString m.name name
  h.createDirentry m.entry name parent

/-- `create_tmpfs_root`.  The root is named `/`, it has no parent, and it
becomes head and tail of the list of inodes. -/
def createTmpfsRoot (em : EntryMemory) (im : InodeMemory) (h : FsHeap) (vfs : ℕ) :
    Exec (FsHeap × ℕ) := do
  let (h, entry) ← h.createNamedDirentry em [47] 0
  let (h, root) := h.kmalloc im.inode sizeofTmpfsInode
  if root = 0 then .error .nullDereference
  else do
    let (h, data) ← h.vpaCreate im.list im.array tmpfsDefaultDirAllocSize
    let (h, i) := h.createInodeBase vfs .directory fsTmpfs entry data
    let h := h.put root (.inode i)
    let e ← h.fetch Cell.toDirentry entry
    let h := h.put entry (.direntry { e with inode := root })
    let v ← h.fetch Cell.toVfs vfs
    .ok (h.put vfs (.vfs { v with head := root, tail := root }), root)

/-- `add_entry_to_directory`.  A parent that is no directory is reported and
left alone, and so is the child. -/
def addEntryToDirectory (grow : Supply) (h : FsHeap) (parent child : ℕ) (err : VfsErr) :
    Exec (FsHeap × VfsErr) := do
  let p ← h.fetch Cell.toDirentry parent
  let i ← h.fetch Cell.toInode p.inode
  if i.inodeType ≠ .directory then .ok (h, if err = .ok then .notDir else err)
  else do
    let h ← h.vpaPush grow i.data child
    let c ← h.fetch Cell.toDirentry child
    .ok (h.put child (.direntry { c with parent }), err)

/-- The list that an inode of a type is made with, of pointers or of bytes. -/
def createData (m : InodeMemory) (h : FsHeap) : InodeType → Exec (FsHeap × ℕ)
  | .directory => h.vpaCreate m.list m.array tmpfsDefaultDirAllocSize
  | .file => h.u8aCreate m.list m.array tmpfsDefaultFileAllocSize

/-- What `tmpfs_create_dir` and `tmpfs_create_file` share. -/
def tmpfsCreate (type : InodeType) (m : InodeMemory) (grow : Supply) (h : FsHeap)
    (parent entry : ℕ) (err : VfsErr) : Exec (FsHeap × ℕ × VfsErr) := do
  let p ← h.fetch Cell.toDirentry parent
  let i ← h.fetch Cell.toInode p.inode
  let vfs := i.vfs
  let (h, inode) := h.kmalloc m.inode sizeofTmpfsInode
  if inode = 0 then .ok (h, 0, if err ≠ .ok then .allocFailed else err)
  else do
    let (h, data) ← h.createData m type
    let (h, i) := h.createInodeBase vfs type fsTmpfs entry data
    let h := h.put inode (.inode i)
    let e ← h.fetch Cell.toDirentry entry
    let h := h.put entry (.direntry { e with inode })
    let (h, err) ← h.addEntryToDirectory grow parent entry err
    if err ≠ .ok then .ok (h, 0, err)
    else do
      let (h, _) ← h.vfsAddInode vfs inode
      .ok (h, inode, err)

/-- `tmpfs_create_dir`: the common routine, for a directory. -/
def tmpfsCreateDir := tmpfsCreate fsTmpfs .directory

/-- `tmpfs_create_file`: the common routine, for a file. -/
def tmpfsCreateFile := tmpfsCreate fsTmpfs .file

/-- `tmpfs_open_file`.  A reference is counted, and the file remembers the
entry of the inode and not the inode. -/
def tmpfsOpenFile (m : Supply) (h : FsHeap) (inode : ℕ) (err : VfsErr) :
    Exec (FsHeap × ℕ × VfsErr) :=
  let (h, file) := h.kmalloc m sizeofFile
  if file = 0 then .ok (h, 0, if err ≠ .ok then .allocFailed else err)
  else do
    let i ← h.fetch Cell.toInode inode
    let h := h.put inode (.inode { i with refcount := (i.refcount + 1) % 2 ^ 32 })
    .ok (h.put file (.file ⟨i.direntry, 0⟩), file, err)

/-- `tmpfs_close_file`; `tmpfs_remove_file` does nothing. -/
def tmpfsCloseFile (h : FsHeap) (file : ℕ) : Exec FsHeap := do
  let f ← h.fetch Cell.toFile file
  let d ← h.fetch Cell.toDirentry f.dentry
  let i ← h.fetch Cell.toInode d.inode
  let h := h.put d.inode (.inode { i with refcount := sub32 i.refcount 1 })
  h.kfree file

/-- `tmpfs_write_file` of the bytes `buf`: the number written. -/
def tmpfsWriteFile (m : Supply) (h : FsHeap) (fp : ℕ) (buf : List UInt8) : Exec (FsHeap × ℕ) := do
  let f ← h.fetch Cell.toFile fp
  let d ← h.fetch Cell.toDirentry f.dentry
  let i ← h.fetch Cell.toInode d.inode
  let array ← h.fetch Cell.toU8 i.data
  let h ← h.u8aResize m i.data ((array.capacity + buf.length) % 2 ^ 32)
  let array ← h.fetch Cell.toU8 i.data
  let h ← h.memcpy array.array f.filePosition buf
  let position := (f.filePosition + buf.length) % 2 ^ 32
  let h := h.put fp (.file { f with filePosition := position })
  .ok (h.put i.data (.u8 { array with length := position }), buf.length)

/-- The list of an inode freed, by the type of the inode: each kind with its
own routine. -/
def freeData (h : FsHeap) (i : TmpfsInode) : Exec FsHeap :=
  match i.inodeType with
  | .file => h.u8aFree i.data
  | .directory => h.vpaFree i.data

/-- `tmpfs_free_inode`: the list of the inode, in the way its type asks for,
then the inode. -/
def tmpfsFreeInode (h : FsHeap) (inode : ℕ) : Exec FsHeap := do
  let i ← h.fetch Cell.toInode inode
  let h ← h.freeData i
  h.kfree inode

/-- `inode->fs_identifier->operations->free_inode(inode)`. -/
def freeInode (h : FsHeap) (inode : ℕ) : Exec FsHeap := do
  let i ← h.fetch Cell.toInode inode
  if i.fsIdentifier = fsTmpfs then h.tmpfsFreeInode inode else .error .dangling

/-- `if (curr->direntry != NULL) { free_direntry(curr->direntry); }`. -/
def freeDirentryOf (h : FsHeap) (curr : ℕ) : Exec FsHeap := do
  let i ← h.fetch Cell.toInode curr
  if i.direntry = 0 then .ok h else h.freeDirentry i.direntry

/-- The loop of `vfs_free`: an inode's entry, then its list and the inode, and
on to the next one, whose address was read before. -/
def vfsFreeLoop : ℕ → FsHeap → ℕ → Exec FsHeap
  | 0, _, _ => .error .diverged
  | fuel + 1, h, curr =>
      if curr = 0 then .ok h
      else do
        let h ← h.freeDirentryOf curr
        let last ← h.fetch Cell.toInode curr
        let h ← h.freeInode fsTmpfs curr
        vfsFreeLoop fuel h last.next

/-- The three cases of `vfs_free`: no inode was made, there is one, or the
list is walked. -/
def vfsFreeInodes (fuel : ℕ) (h : FsHeap) (v : Vfs) : Exec FsHeap :=
  if v.head = 0 then (if v.tail = 0 then .ok h else .error .assertion)
  else if v.head = v.tail then do
    let h ← h.freeDirentryOf v.head
    h.freeInode fsTmpfs v.head
  else vfsFreeLoop fsTmpfs fuel h v.head

/-- `vfs_free`.  The table and the record are freed after the inodes, whatever
these were. -/
def vfsFree (fuel : ℕ) (h : FsHeap) (vfs : ℕ) : Exec FsHeap := do
  let v ← h.fetch Cell.toVfs vfs
  let h ← h.vfsFreeInodes fsTmpfs fuel v
  let v ← h.fetch Cell.toVfs vfs
  let h ← h.kfree v.filesystems
  h.kfree vfs

end Tmpfs

end FsHeap

end CourseOs.Fs
