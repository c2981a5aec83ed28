import CourseOs.Fs.Vfs

/-!
# tmpfs

`fs/tmpfs/tmpfs.c`, routine by routine: the root, the creation of directories
and files, opening and closing, reading and writing, and the listing of a
directory.

The addresses of new inodes and files, and what `kmalloc` gives for lists that
are made or grow, are arguments; a null address is a failed allocation.  The
error pointer of the source is a value passed and returned, and not a
parameter of the routines that do not use it.

`tmpfs_create_dir` and `tmpfs_create_file` differ in the type of the inode and
in what it holds, and are `tmpfsCreate` with those two as parameters.
Arithmetic on lengths and positions is that of 32 bits: a handle that stands
past the end of its file has a great deal left to read, because the difference
wraps around (`tmpfsReadFile`), and a write sets the length of the file to the
new position of its handle, whatever the length was before (`tmpfsWriteFile`).
What follows from the two is in the modules on a file and its handles.
-/

namespace CourseOs.Fs

/-- `TMPFS_DEFAULT_FILE_ALLOC_SIZE`. -/
abbrev tmpfsDefaultFileAllocSize : ℕ := 16

/-- `TMPFS_DEFAULT_DIR_ALLOC_SIZE`. -/
abbrev tmpfsDefaultDirAllocSize : ℕ := 4

/-- `create_tmpfs_root`, with its entry and inode at the addresses given. -/
def createTmpfsRoot (entry root : ℕ) (mem : Option (Block ℕ)) (s : Vfs) : Vfs :=
  let s := createDirentry entry (qstrFromNullTerminatedString [47]) 0 root s
  let (cnt, i) := createInodeBase s.cnt .directory entry
    (.direntries (vpaCreate mem tmpfsDefaultDirAllocSize))
  { s.putInode root i with cnt, head := root, tail := root }

/-- `add_entry_to_directory`.  A parent that is no directory is reported in
`*err`, where that is `OK` so far; otherwise the child is pushed to its list
and given the parent. -/
def addEntryToDirectory (mem : Option (Block ℕ)) (s : Vfs) (parent child : ℕ) (err : VfsErr) :
    Exec (Vfs × VfsErr) := do
  let p ← s.dentry parent
  let i ← s.inode p.inode
  if i.inodeType ≠ .directory then .ok (s, if err = .ok then .notDir else err)
  else match i.data with
    | .filedata _ => .error .wrongMember
    | .direntries list => do
        let list ← vpaPush mem list child
        let c ← s.dentry child
        .ok ((s.putInode p.inode { i with data := .direntries list }).putDentry child
          { c with parent }, err)

/-- What `tmpfs_create_dir` and `tmpfs_create_file` share: an inode of type
`type` that holds `data`.  The entry's inode, or null, and the error are
returned.  Without memory for the inode an error is reported only where there
is one already. -/
def tmpfsCreate (type : InodeType) (data : InodeData) (inode : ℕ) (grow : Option (Block ℕ))
    (s : Vfs) (parent entry : ℕ) (err : VfsErr) : Exec (Vfs × ℕ × VfsErr) := do
  let p ← s.dentry parent
  let _ ← s.inode p.inode
  if inode = 0 then .ok (s, 0, if err ≠ .ok then .allocFailed else err)
  else do
    let (cnt, i) := createInodeBase s.cnt type entry data
    let e ← s.dentry entry
    let s := ({ s with cnt }.putInode inode i).putDentry entry { e with inode }
    let (s, err) ← addEntryToDirectory grow s parent entry err
    if err ≠ .ok then .ok (s, 0, err)
    else do
      let (s, _) ← vfsAddInode s inode
      .ok (s, inode, err)

/-- `tmpfs_create_dir`. -/
def tmpfsCreateDir (mem : Option (Block ℕ)) :=
  tmpfsCreate .directory (.direntries (vpaCreate mem tmpfsDefaultDirAllocSize))

/-- `tmpfs_create_file`. -/
def tmpfsCreateFile (mem : Option (Block UInt8)) :=
  tmpfsCreate .file (.filedata (u8aCreate mem tmpfsDefaultFileAllocSize))

/-- `tmpfs_open_file`: a handle at the beginning of the file, and one more
reference to its inode. -/
def tmpfsOpenFile (file : ℕ) (s : Vfs) (inode : ℕ) (err : VfsErr) :
    Exec (Vfs × ℕ × VfsErr) :=
  if file = 0 then .ok (s, 0, if err ≠ .ok then .allocFailed else err)
  else do
    let i ← s.inode inode
    let s := s.putInode inode { i with refcount := (i.refcount + 1) % 2 ^ 32 }
    .ok (s.putFile file ⟨i.direntry, 0⟩, file, err)

/-- `tmpfs_close_file`; `tmpfs_remove_file` does nothing.  The handle is
freed, and the inode has one reference less. -/
def tmpfsCloseFile (s : Vfs) (file : ℕ) : Exec Vfs := do
  let f ← s.file file
  let d ← s.dentry f.dentry
  let i ← s.inode d.inode
  let s := s.putInode d.inode { i with refcount := sub32 i.refcount 1 }
  .ok { s with files := Function.update s.files file none }

/-- The inode behind an open file, and its bytes. -/
def filedata (s : Vfs) (f : File) : Exec (ℕ × TmpfsInode × U8ArrayList) := do
  let d ← s.dentry f.dentry
  let i ← s.inode d.inode
  match i.data with
  | .filedata list => .ok (d.inode, i, list)
  | .direntries _ => .error .wrongMember

/-- `tmpfs_read_file`: the bytes copied, as many as were asked for or as are
left behind the position of the handle, where what is left is a 32-bit
difference. -/
def tmpfsReadFile (s : Vfs) (fp count : ℕ) : Exec (Vfs × List UInt8) := do
  let f ← s.file fp
  let (_, _, array) ← filedata s f
  let left := sub32 array.length f.filePosition
  let buf ← memcpyFrom array.array f.filePosition (if count < left then count else left)
  .ok (s.putFile fp { f with filePosition := (f.filePosition + buf.length) % 2 ^ 32 }, buf)

/-- `tmpfs_write_file` of the bytes `buf`: the number written.  The list is
resized to its capacity and the bytes written, and its length is then the new
position of the handle. -/
def tmpfsWriteFile (mem : Option (Block UInt8)) (s : Vfs) (fp : ℕ) (buf : List UInt8) :
    Exec (Vfs × ℕ) := do
  let f ← s.file fp
  let (inode, i, array) ← filedata s f
  let array := u8aResize mem array ((array.capacity + buf.length) % 2 ^ 32)
  let block ← memcpyTo array.array f.filePosition buf
  let position := (f.filePosition + buf.length) % 2 ^ 32
  .ok ((s.putInode inode { i with
    data := .filedata { array with array := block, length := position } }).putFile fp
      { f with filePosition := position }, buf.length)

/-- `tmpfs_list_dir`: the union is read as a directory's entries by the
caller. -/
def tmpfsListDir (s : Vfs) (entry : ℕ) : Exec InodeData := do
  let d ← s.dentry entry
  let i ← s.inode d.inode
  .ok i.data

end CourseOs.Fs
