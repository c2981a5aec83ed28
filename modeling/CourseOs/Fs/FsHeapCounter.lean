import CourseOs.Fs.FsHeap

/-!
# The counter of inodes

`create_inode_base` numbers the inodes with a static variable.  It is the only
part of the state that is not a cell, and what is said about cells elsewhere
does not say that the routines leave it alone.

All of them do, and a create with memory for its inode adds one to it
(`tmpfsCreate_cnt`).  The lemmas follow the routines in the order in which
these call each other; most routines change the heap by writing cells, which
leaves the counter where it is by definition.
-/

namespace CourseOs.Fs.FsHeap

variable {h h' : FsHeap} {m m' : Supply} {p q i size parent child vfs inode : ℕ} {name : Qstr}
  {src : List UInt8} {err err' : VfsErr} {make : ℕ → Cell}

theorem kmalloc_cnt (m : Supply) (h : FsHeap) (size : ℕ) : (h.kmalloc m size).1.cnt = h.cnt := by
  unfold kmalloc
  cases m.block size with
  | none => rfl
  | some b => rfl

theorem kfree_cnt (hrun : h.kfree p = .ok h') : h'.cnt = h.cnt := by
  unfold kfree at hrun
  split at hrun
  · cases hrun
    rfl
  · split at hrun
    · cases hrun
    · cases hrun
      rfl

theorem storePointer_cnt (hrun : h.storePointer p i q = .ok h') : h'.cnt = h.cnt := by
  obtain ⟨b, -, hrun⟩ := Exec.bind_eq_ok.mp hrun
  split at hrun
  · cases hrun
    rfl
  · cases hrun

theorem memcpy_cnt (hrun : h.memcpy p i src = .ok h') : h'.cnt = h.cnt := by
  unfold memcpy at hrun
  split at hrun
  · cases hrun
    rfl
  · obtain ⟨b, -, hrun⟩ := Exec.bind_eq_ok.mp hrun
    split at hrun
    · cases hrun
      rfl
    · cases hrun

theorem krealloc_cnt (hrun : h.krealloc m p size = .ok (h', q)) : h'.cnt = h.cnt := by
  unfold krealloc at hrun
  split at hrun
  · have hmalloc := kmalloc_cnt m h size
    rw [Except.ok.inj hrun] at hmalloc
    exact hmalloc
  · obtain ⟨old, -, hrun⟩ := Exec.bind_eq_ok.mp hrun
    split at hrun
    · obtain ⟨h₁, hfree, hrun⟩ := Exec.bind_eq_ok.mp hrun
      cases hrun
      exact kfree_cnt hfree
    split at hrun
    · cases hrun
      rfl
    split at hrun
    · cases hrun
      rfl
    · obtain ⟨h₁, hfree, hrun⟩ := Exec.bind_eq_ok.mp hrun
      cases hrun
      have hcnt := kfree_cnt hfree
      exact hcnt

theorem createList_cnt (hrun : h.createList make m m' size = .ok (h', q)) : h'.cnt = h.cnt := by
  unfold createList at hrun
  dsimp only at hrun
  split at hrun
  · cases hrun
  · cases hrun
    exact (kmalloc_cnt m' _ _).trans (kmalloc_cnt m h _)

theorem vpaPush_cnt (hrun : h.vpaPush m p q = .ok h') : h'.cnt = h.cnt := by
  obtain ⟨l, -, hrun⟩ := Exec.bind_eq_ok.mp hrun
  obtain ⟨h₁, hstore, hrun⟩ := Exec.bind_eq_ok.mp hrun
  have h₁_cnt := storePointer_cnt hstore
  dsimp only at hrun
  split at hrun
  · cases hrun
    exact h₁_cnt
  split at hrun
  · cases hrun
  · obtain ⟨⟨h₂, array⟩, hrealloc, hrun⟩ := Exec.bind_eq_ok.mp hrun
    cases hrun
    exact (krealloc_cnt hrealloc).trans h₁_cnt

theorem u8aResize_cnt (hrun : h.u8aResize m p size = .ok h') : h'.cnt = h.cnt := by
  obtain ⟨l, -, hrun⟩ := Exec.bind_eq_ok.mp hrun
  obtain ⟨⟨h₁, array⟩, hrealloc, hrun⟩ := Exec.bind_eq_ok.mp hrun
  have hcnt := krealloc_cnt hrealloc
  cases hrun
  exact hcnt

theorem createNamedDirentry_cnt {em : EntryMemory}
    (hrun : h.createNamedDirentry em src parent = .ok (h', q)) : h'.cnt = h.cnt := by
  obtain ⟨⟨h₁, name⟩, hname, hrun⟩ := Exec.bind_eq_ok.mp hrun
  have h₁_cnt : h₁.cnt = h.cnt := by
    obtain ⟨h₂, hcopy, hname⟩ := Exec.bind_eq_ok.mp hname
    obtain ⟨h₃, hcopy', hname⟩ := Exec.bind_eq_ok.mp hname
    cases hname
    exact (memcpy_cnt hcopy').trans ((memcpy_cnt hcopy).trans (kmalloc_cnt em.name h _))
  obtain ⟨b, -, hrun⟩ := Exec.bind_eq_ok.mp hrun
  cases hrun
  exact (kmalloc_cnt em.entry h₁ _).trans h₁_cnt

theorem addEntryToDirectory_cnt
    (hrun : h.addEntryToDirectory m parent child err = .ok (h', err')) : h'.cnt = h.cnt := by
  obtain ⟨d, -, hrun⟩ := Exec.bind_eq_ok.mp hrun
  obtain ⟨i, -, hrun⟩ := Exec.bind_eq_ok.mp hrun
  split at hrun
  · cases hrun
    rfl
  · obtain ⟨h₁, hpush, hrun⟩ := Exec.bind_eq_ok.mp hrun
    obtain ⟨c, -, hrun⟩ := Exec.bind_eq_ok.mp hrun
    have hcnt := vpaPush_cnt hpush
    cases hrun
    exact hcnt

theorem vfsAddInode_cnt (hrun : h.vfsAddInode vfs inode = .ok (h', err)) : h'.cnt = h.cnt := by
  obtain ⟨i, -, hrun⟩ := Exec.bind_eq_ok.mp hrun
  obtain ⟨v, -, hrun⟩ := Exec.bind_eq_ok.mp hrun
  split at hrun
  · cases hrun
    rfl
  · obtain ⟨t, -, hrun⟩ := Exec.bind_eq_ok.mp hrun
    cases hrun
    rfl

theorem createData_cnt {im : InodeMemory} {type : InodeType}
    (hrun : h.createData im type = .ok (h', q)) : h'.cnt = h.cnt := by
  unfold createData at hrun
  cases type with
  | directory => exact createList_cnt hrun
  | file => exact createList_cnt hrun

/-- **A create** with memory for the inode counts one inode more, also where
the parent turns out to be no directory. -/
theorem tmpfsCreate_cnt {fsTmpfs : ℕ} {type : InodeType} {im : InodeMemory} {grow : Supply}
    (hrun : h.tmpfsCreate fsTmpfs type im grow parent child err = .ok (h', inode, err'))
    (hinode : im.inode.block sizeofTmpfsInode ≠ none) : h'.cnt = (h.cnt + 1) % 2 ^ 32 := by
  obtain ⟨d, -, hrun⟩ := Exec.bind_eq_ok.mp hrun
  obtain ⟨i, -, hrun⟩ := Exec.bind_eq_ok.mp hrun
  have hmalloc := kmalloc_cnt im.inode h sizeofTmpfsInode
  obtain ⟨b, hb⟩ := Option.ne_none_iff_exists'.mp hinode
  have haddr : (h.kmalloc im.inode sizeofTmpfsInode).2 ≠ 0 := by
    unfold kmalloc
    rw [hb]
    exact im.inode.addr_ne_zero
  dsimp only at hrun
  rw [if_neg haddr] at hrun
  obtain ⟨⟨h₁, data⟩, hdata, hrun⟩ := Exec.bind_eq_ok.mp hrun
  have h₁_cnt : h₁.cnt = h.cnt := (createData_cnt hdata).trans hmalloc
  obtain ⟨e, -, hrun⟩ := Exec.bind_eq_ok.mp hrun
  obtain ⟨⟨h₂, err₂⟩, hadd, hrun⟩ := Exec.bind_eq_ok.mp hrun
  have h₂_cnt : h₂.cnt = (h.cnt + 1) % 2 ^ 32 :=
    (addEntryToDirectory_cnt hadd).trans (by rw [← h₁_cnt]; rfl)
  dsimp only at hrun
  split at hrun
  · cases hrun
    exact h₂_cnt
  · obtain ⟨⟨h₃, err₃⟩, hlink, hrun⟩ := Exec.bind_eq_ok.mp hrun
    cases hrun
    exact (vfsAddInode_cnt hlink).trans h₂_cnt

theorem tmpfsOpenFile_cnt (hrun : h.tmpfsOpenFile m inode err = .ok (h', q, err')) :
    h'.cnt = h.cnt := by
  have hmalloc := kmalloc_cnt m h sizeofFile
  unfold tmpfsOpenFile at hrun
  dsimp only at hrun
  split at hrun
  · cases hrun
    exact hmalloc
  · obtain ⟨i, -, hrun⟩ := Exec.bind_eq_ok.mp hrun
    cases hrun
    exact hmalloc

theorem tmpfsCloseFile_cnt (hrun : h.tmpfsCloseFile p = .ok h') : h'.cnt = h.cnt := by
  obtain ⟨f, -, hrun⟩ := Exec.bind_eq_ok.mp hrun
  obtain ⟨d, -, hrun⟩ := Exec.bind_eq_ok.mp hrun
  obtain ⟨i, -, hrun⟩ := Exec.bind_eq_ok.mp hrun
  have hcnt := kfree_cnt hrun
  exact hcnt

theorem tmpfsWriteFile_cnt {count : ℕ} (hrun : h.tmpfsWriteFile m p src = .ok (h', count)) :
    h'.cnt = h.cnt := by
  obtain ⟨f, -, hrun⟩ := Exec.bind_eq_ok.mp hrun
  obtain ⟨d, -, hrun⟩ := Exec.bind_eq_ok.mp hrun
  obtain ⟨i, -, hrun⟩ := Exec.bind_eq_ok.mp hrun
  obtain ⟨l, -, hrun⟩ := Exec.bind_eq_ok.mp hrun
  obtain ⟨h₁, hresize, hrun⟩ := Exec.bind_eq_ok.mp hrun
  obtain ⟨l', -, hrun⟩ := Exec.bind_eq_ok.mp hrun
  obtain ⟨h₂, hcopy, hrun⟩ := Exec.bind_eq_ok.mp hrun
  have hcnt := (memcpy_cnt hcopy).trans (u8aResize_cnt hresize)
  cases hrun
  exact hcnt

theorem vfsCreate_cnt (hrun : h.vfsCreate m m' = .ok (h', q)) : h'.cnt = h.cnt := by
  unfold vfsCreate at hrun
  dsimp only at hrun
  split at hrun
  · cases hrun
  · cases hrun
    exact (kmalloc_cnt m' _ _).trans (kmalloc_cnt m h _)

theorem vfsRegister_cnt {ident : ℕ} (hrun : h.vfsRegister m vfs ident = .ok (h', err)) :
    h'.cnt = h.cnt := by
  obtain ⟨V, -, hrun⟩ := Exec.bind_eq_ok.mp hrun
  obtain ⟨h₁, hstore, hrun⟩ := Exec.bind_eq_ok.mp hrun
  have h₁_cnt := storePointer_cnt hstore
  dsimp only at hrun
  split at hrun
  · cases hrun
    exact h₁_cnt
  · obtain ⟨⟨h₂, table⟩, hrealloc, hrun⟩ := Exec.bind_eq_ok.mp hrun
    have h₂_cnt := krealloc_cnt hrealloc
    cases hrun
    exact h₂_cnt.trans h₁_cnt

end CourseOs.Fs.FsHeap
