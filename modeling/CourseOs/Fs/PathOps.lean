import CourseOs.Ds.ByteList
import CourseOs.Fs.Path
import CourseOs.Lib.Scan

/-!
# Operations on paths

The rest of `fs/path.c`: making, cloning and appending to a path, its parent
and its filename.  A path is a byte list.

What an operation finds out about its bytes is a `Scan` of the path's array,
whose reads can be told apart from those the allocator makes; the operation
then acts on what the scan has found.  Indices are 32-bit numbers, and an
index below 0 is one near 2³²: the loops of `path_filename` can go there,
since their counters are unsigned or are compared too late.

The loop of `path_parent` starts at the index `length`, one past the path, as
a signed number.  On a path of 2³¹ bytes or more it would be negative, and the
loop does not start.
-/

namespace CourseOs.Fs

/-- `path_clone`: a path is a list of bytes, and its clone is one with a block
of its own. -/
def pathClone (mem : Option (Block UInt8)) (path : U8ArrayList) : Exec U8ArrayList :=
  u8aClone mem path

/-- `path_from_string`: a list with room for one byte, to which the string is
pushed. -/
def pathFromString (mem mem' : Option (Block UInt8)) (str : List UInt8) : Exec U8ArrayList :=
  u8aPushString mem' (u8aCreate mem 1) str

/-- `path_append`: a slash is pushed, and the element after it, whatever the
path ends in. -/
def pathAppend (mem mem' : Option (Block UInt8)) (path : U8ArrayList) (elem : List UInt8) :
    Exec U8ArrayList := do
  let path ← u8aPush mem path 47
  u8aPushString mem' path elem

/-! ### The parent

The search for the last slash starts one past the path.  What is there belongs
to the block but not to the path: a byte that was cut off, or one that was
never written. -/

/-- The loop of `path_parent`, from index `i` down to 0: the index of the
slash it finds, if it finds one. -/
def slashScan : ℕ → Scan UInt8 (Option ℕ)
  | 0 => do
      let x ← Scan.get 0
      if x = 47 then pure (some 0) else pure none
  | i + 1 => do
      let x ← Scan.get (i + 1)
      if x = 47 then pure (some (i + 1)) else slashScan i

/-- The test for the path `.`, on the length and then on the byte. -/
def isDot (length : ℕ) : Scan UInt8 Bool :=
  if length = 1 then do
    let x ← Scan.get 0
    pure (x == 46)
  else pure false

/-- What `path_parent` does to a path of some length: cut it, or make it a
dot.  The loop starts at index `length`, as a signed number, and so looks one
past the path first. -/
def parentScan (length : ℕ) : Scan UInt8 (Option ℕ) := do
  let dot ← isDot length
  if dot then pure (some length)
  else if length < 2 ^ 31 then do
    let found ← slashScan length
    pure (found.map fun i => if i = 0 then 1 else i)
  else pure none

/-- `path_parent`: the path is cut by lowering its length, so that the bytes
behind it stay in the block. -/
def pathParent (mem : Option (Block UInt8)) (path : U8ArrayList) : Exec U8ArrayList :=
  if path.length = 0 then u8aPush mem path 46
  else do
    let array ← pathArray path
    match (parentScan path.length).run array with
    | some length => .ok { path with length := length }
    | none => u8aPush mem { path with length := 0 } 46

/-! ### The filename

The index of the stripping loop is unsigned and is not compared with zero.
The test for two dots, which comes first, is the only exception the source
makes. -/

/-- The test for `..` at the end; the byte before the last is read only where
the last is a dot. -/
def endsInDots (length : ℕ) : Scan UInt8 Bool :=
  if 2 ≤ length then do
    let x ← Scan.get (length - 1)
    if x = 46 then do
      let y ← Scan.get (length - 2)
      pure (y == 46)
    else pure false
  else pure false

/-- The test of the stripping loop, for the last byte. -/
def isStripped (last : ℕ) : Scan UInt8 Bool := do
  let x ← Scan.get last
  if x = 46 then pure true
  else do
    let x ← Scan.get last
    pure (x == 47)

/-- The loop that strips dots and slashes: the length that is left.  It does
not stop at the beginning of the path, where the length wraps around. -/
def stripScan : ℕ → ℕ → Scan UInt8 (Option ℕ)
  | 0, _ => pure none
  | fuel + 1, length => do
      let last := (length + (2 ^ 32 - 1)) % 2 ^ 32
      let strip ← isStripped last
      if strip then stripScan fuel last else pure (some length)

/-- The loop for the slash before the filename; its argument and its result
are `filename_start + 1`. -/
def slashBefore : ℕ → Scan UInt8 ℕ
  | 0 => do
      let _ ← Scan.get (2 ^ 32 - 1)
      pure 0
  | i + 1 => do
      let x ← Scan.get i
      if x ≠ 47 then slashBefore i else pure (i + 1)

/-- `filename_start`, when the path has been stripped to some length.  Past
2^31 it starts out below 0, and one look is all. -/
def filenameStart (length : ℕ) : Scan UInt8 ℕ :=
  if 2 ^ 31 < length then do
    let _ ← Scan.get (length - 1)
    pure length
  else slashBefore length

/-- What `path_filename` makes of a path of some length: the length after
stripping and the bytes it moves to the front, as many as the path is then
resized to.  The stripping loop goes round all 32-bit indices at most once. -/
def filenameScan (length : ℕ) : Scan UInt8 (Option (ℕ × List UInt8)) := do
  let dots ← endsInDots length
  if dots then pure (some (length, []))
  else do
    let stripped ← stripScan (2 ^ 32) length
    match stripped with
    | none => pure none
    | some length => do
        let start ← filenameStart length
        let name ← Scan.getRange start (length - start)
        pure (some (length, name))

/-- `path_filename`.  The name is moved to the front of the path's own array,
and the list is resized to its length. -/
def pathFilename (mem : Option (Block UInt8)) (path : U8ArrayList) : Exec U8ArrayList := do
  let array ← pathArray path
  match (filenameScan path.length).run array with
  | none => .error .diverged
  | some (length, name) => do
      let array ← memcpyTo path.array 0 name
      .ok (u8aResize mem ⟨length, path.capacity, array⟩ name.length)

/-- `path_filename_cloned`: the same on a clone, so that the path itself is
left alone. -/
def pathFilenameCloned (mem mem' : Option (Block UInt8)) (path : U8ArrayList) :
    Exec U8ArrayList := do
  let p ← pathClone mem path
  pathFilename mem' p

end CourseOs.Fs
