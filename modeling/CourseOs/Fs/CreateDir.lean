import CourseOs.Fs.PathLookup
import CourseOs.Fs.PathOps

/-!
# Making a directory by path

`path_exists` of `fs/path.c` and `create_dir` of `fs/file.c`.  `path_exists`
looks the path up with a null error pointer, which `path_get_direntry` reads
after each directory it lists, so that it stops the kernel for every absolute
path, and `create_dir` with it (`createDir_never`).

## Main definitions

* `createDirRest` — `create_dir` from the copy of the path on, which no call
  comes to.
* `CreateDirResult` — what a call leaves: the error, and what is allocated and
  not freed.
* `CreateDirReports` — what is asked of the two: whether the path is found is
  reported by both, and nothing is changed and nothing left allocated.

The rest of the routine is modelled as well, because it has a fault of its
own: it would leave its copy of the path allocated, whatever it reports
(`createDirRest_leaks`).
-/

namespace CourseOs.Fs

variable {root child : ℕ} {s s' : Vfs} {path : U8ArrayList} {mem mem' : Option (Block UInt8)}

/-- `path_exists`: the lookup is made with no `err`, and whatever entry it
returns is taken for an answer. -/
def pathExists (s : Vfs) (path : U8ArrayList) : Exec (Vfs × Bool) := do
  let (s, pd) ← pathGetDirentry s path none
  .ok (s, pd ≠ 0)

/-- What `create_dir` leaves: the error, and what it has allocated and not
freed.  The error pointer of the caller may be null, and then there is no
error. -/
structure CreateDirResult where
  vfs : Vfs
  err : Option VfsErr
  parent : Option U8ArrayList
  child : Option ℕ

/-- `create_dir` from the copy of the path on.  `*err` is null or as on entry;
the lookup leaves `ourErr` as it is, so that the test of it never succeeds. -/
def createDirRest (mem mem' : Option (Block UInt8)) (child : ℕ) (s : Vfs) (path : U8ArrayList)
    (err : Option VfsErr) : Exec CreateDirResult := do
  let parent ← pathClone mem path
  let parent ← pathParent mem' parent
  let ourErr := VfsErr.ok
  let (s, parentDir) ← pathGetDirentry s parent (some ourErr)
  if ourErr ≠ .ok ∨ parentDir = 0 then
    .ok ⟨s, err.map fun e => if e = .ok ∧ ourErr ≠ .ok then ourErr else .noParent,
      some parent, none⟩
  else .ok ⟨s, err, some parent, some child⟩

/-- `create_dir`.  A path that exists is reported in `*err`, where `err` is
not null; the other arguments are what `kmalloc` has for the clone of the path
and for the new entry. -/
def createDir (mem mem' : Option (Block UInt8)) (child : ℕ) (s : Vfs) (path : U8ArrayList)
    (err : Option VfsErr) : Exec CreateDirResult := do
  let (s, found) ← pathExists s path
  if found then .ok ⟨s, if err = some .ok then some .exists else err, none, none⟩
  else createDirRest mem mem' child s path err

/-- `path_get_direntry` finds the path, when it is called as a caller that
wants the entry would call it. -/
def Finds (s : Vfs) (path : U8ArrayList) : Prop :=
  ∃ s' entry, pathGetDirentry s path (some .ok) = .ok (s', entry) ∧ entry ≠ 0

/-- The same tree, up to the hashes stored in names, which a comparison fills
in. -/
def SameTree (s s' : Vfs) : Prop :=
  s'.shape = s.shape ∧ ∀ p, (s'.dentries p).map (fun e => (e.inode, e.name.data, e.parent)) =
    (s.dentries p).map fun e => (e.inode, e.name.data, e.parent)

/-- What `create_dir` and `path_exists` are to report of a path: one of them
whether it is found, the other the error that fits.  A call that reports an
error is to change nothing. -/
structure CreateDirReports (mem mem' : Option (Block UInt8)) (child : ℕ) (s : Vfs)
    (path : U8ArrayList) : Prop where
  /-- `path_exists` tells whether the path is found. -/
  found : ∃ s' b, pathExists s path = .ok (s', b) ∧ (b = true ↔ Finds s path)
  /-- `create_dir` returns with one error or the other, with the tree unchanged and nothing
  left allocated. -/
  report : ∃ r e, createDir mem mem' child s path (some .ok) = .ok r ∧ r.err = some e ∧
    (e = .exists ↔ Finds s path) ∧
    (¬Finds s path → (e = .noParent ↔ ¬∃ copy parent, pathClone mem path = .ok copy ∧
      pathParent mem' copy = .ok parent ∧ Finds s parent)) ∧
    (e ≠ .ok → SameTree s r.vfs ∧ r.parent = none ∧ r.child = none)

/-- A lookup without an error pointer stops at the first directory, the root. -/
theorem pathGetDirentry_none (h : TreeInv root s) (habs : pathIsAbsolute path = .ok true) :
    pathGetDirentry s path none = .error .nullDereference := by
  obtain ⟨s', hroot, -⟩ := vfsGetRoot_eq h
  obtain ⟨array, harray, -⟩ := Exec.bind_eq_ok.mp habs
  unfold pathGetDirentry
  rw [harray, Exec.ok_bind, habs, Exec.ok_bind, if_pos rfl, hroot]
  rfl

/-- **`create_dir` and `path_exists`** read a null error pointer on every
absolute path of every tree, so that neither ever reports anything. -/
theorem createDir_never (h : TreeInv root s) (habs : pathIsAbsolute path = .ok true)
    (mem mem' : Option (Block UInt8)) (child : ℕ) (err : Option VfsErr) :
    pathExists s path = .error .nullDereference ∧
      createDir mem mem' child s path err = .error .nullDereference ∧
      ¬CreateDirReports mem mem' child s path := by
  have hexists : pathExists s path = .error .nullDereference := by
    unfold pathExists
    rw [pathGetDirentry_none h habs]
    rfl
  refine ⟨hexists, ?_, ?_⟩
  · unfold createDir
    rw [hexists]
    rfl
  · rintro ⟨⟨s', b, hrun, -⟩, -⟩
    cases hexists.symm.trans hrun

/-- The theorem, of the path `/a` in a file system with nothing in it.  The
lookup stops at the root already. -/
theorem createDir_never_lone :
    pathExists loneRoot ⟨2, 2, some ⟨2, fun k => if k = 0 then 47 else 97⟩⟩ =
        .error .nullDereference ∧
      createDir none none 5 loneRoot ⟨2, 2, some ⟨2, fun k => if k = 0 then 47 else 97⟩⟩
        (some .ok) = .error .nullDereference ∧
      ¬CreateDirReports none none 5 loneRoot
        ⟨2, 2, some ⟨2, fun k => if k = 0 then 47 else 97⟩⟩ :=
  createDir_never loneRoot_treeInv.1 rfl none none 5 (some .ok)

/-- The path `/a` is not found and its parent is the root, but `create_dir`
stops.  With an error pointer that is not null the same lookup returns. -/
theorem createDir_traps :
    (∃ s', pathGetDirentry loneRoot ⟨2, 2, some ⟨2, fun k => if k = 0 then 47 else 97⟩⟩
        (some .ok) = .ok (s', 0)) ∧
      createDir (some ⟨2, fun _ => 0⟩) none 5 loneRoot
        ⟨2, 2, some ⟨2, fun k => if k = 0 then 47 else 97⟩⟩ (some .ok) =
          .error .nullDereference ∧
      ¬CreateDirReports (some ⟨2, fun _ => 0⟩) none 5 loneRoot
        ⟨2, 2, some ⟨2, fun k => if k = 0 then 47 else 97⟩⟩ := by
  refine ⟨⟨_, rfl⟩, rfl, ?_⟩
  rintro ⟨⟨s', b, hrun, -⟩, -⟩
  cases hrun

/-- The copy of the path is left allocated in every outcome, the successful
one included. -/
theorem createDirRest_leaks {err : Option VfsErr} {r : CreateDirResult}
    (hrun : createDirRest mem mem' child s path err = .ok r) : r.parent.isSome := by
  obtain ⟨copy, -, hrun⟩ := Exec.bind_eq_ok.mp hrun
  obtain ⟨parent, -, hrun⟩ := Exec.bind_eq_ok.mp hrun
  obtain ⟨⟨s', parentDir⟩, -, hrun⟩ := Exec.bind_eq_ok.mp hrun
  change (if _ then _ else _) = _ at hrun
  split at hrun
  · cases hrun
    rfl
  · cases hrun
    rfl

end CourseOs.Fs
