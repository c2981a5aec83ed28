import CourseOs.Fs.Tmpfs
import CourseOs.Klibc.String

/-!
# Path lookup

`path_get_direntry` of `fs/path.c`, with the routines of `fs/vfs.c` that it
calls.  Pointers into the path are indices of its array.  The scan for the
next slash reads the byte after the path, whatever it is; `cell` is total, so
such a read has a value, which is not used.

A component is compared with a name by `strncmp` with the component's length,
and a directory's entries are looked at in order, so that a lookup goes to the
first entry whose name begins with the component (`findEntry`).  The list of
an inode is taken for a directory's without a look at the inode's type: for a
file with bytes in it this reads the wrong member of the union, and the model
stops (`findIn`).
-/

namespace CourseOs.Fs

/-- The path's array.  A path whose array was not allocated is read through
the null pointer. -/
def pathArray (path : U8ArrayList) : Exec (ℕ → UInt8) :=
  match path.array with
  | none => .error .nullDereference
  | some b => .ok b.cell

/-- `path_is_absolute`: the first byte is a slash.  The length is not asked
for. -/
def pathIsAbsolute (path : U8ArrayList) : Exec Bool := do
  let array ← pathArray path
  .ok (array 0 == 47)

/-- The scan for the next slash, from index `pathpointer` on and over at most
`left` bytes.  It ends at the slash, or one past the path. -/
def nextSlash (array : ℕ → UInt8) : ℕ → ℕ → ℕ
  | 0, pathpointer => pathpointer
  | left + 1, pathpointer =>
      if array pathpointer ≠ 47 then nextSlash array left (pathpointer + 1) else pathpointer

/-- The loop over a directory's entries, the next one at index `i` and `left`
of them left: the first whose name agrees with the `n` bytes at `component`. -/
def findEntry (s : Vfs) (dirlist : VPArrayList) (component : ℕ → UInt8) (n : ℕ) :
    ℕ → ℕ → Exec (Option ℕ)
  | 0, _ => .ok none
  | left + 1, i => do
      let child ← vpaGet dirlist i
      let d ← s.dentry child
      let difference ← strncmp d.name.data component n
      if difference = 0 then .ok (some child)
      else findEntry s dirlist component n left (i + 1)

/-- `findEntry` on what `list_dir` returns.  A file's list has the layout of a
directory's, and its length is read as a number of entries. -/
def findIn (s : Vfs) (data : InodeData) (component : ℕ → UInt8) (n : ℕ) : Exec (Option ℕ) :=
  match data with
  | .direntries list => findEntry s list component n list.length 0
  | .filedata list => if list.length = 0 then .ok none else .error .wrongMember

/-- The loop of `path_get_direntry` over the components.  Each turn lists the
directory reached so far, and null is returned where it has no entry for the
component. -/
def pathLoop (s : Vfs) (array : ℕ → UInt8) (endpointer : ℕ) : ℕ → ℕ → ℕ → Exec ℕ
  | 0, _, _ => .error .diverged
  | fuel + 1, curr, pathpointer => do
      let nextslash := nextSlash array (endpointer - pathpointer) pathpointer
      let dirlist ← tmpfsListDir s curr
      let found ← findIn s dirlist (fun k => array (pathpointer + k)) (nextslash - pathpointer)
      match found with
      | none => .ok 0
      | some child =>
          if nextslash = endpointer then .ok child
          else pathLoop s array endpointer fuel child (nextslash + 1)

/-- `path_get_direntry`, with `*err` as it is on entry; no error is ever set.
A null error pointer is read after each directory is listed.  Finding the root
stores the hash of its name. -/
def pathGetDirentry (s : Vfs) (path : U8ArrayList) (err : Option VfsErr) : Exec (Vfs × ℕ) := do
  let array ← pathArray path
  let absolute ← pathIsAbsolute path
  if absolute then do
    let (s, root) ← vfsGetRoot s
    match err with
    | none => .error .nullDereference
    | some err => do
        let _ ← tmpfsListDir s root
        if err ≠ .ok then .ok (s, 0)
        else do
          let entry ← pathLoop s array path.length (path.length + 1) root 1
          .ok (s, entry)
  else .error (.fatal "Inode lookup only supports absolute path right now.")

end CourseOs.Fs
