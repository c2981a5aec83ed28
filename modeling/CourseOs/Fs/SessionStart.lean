import CourseOs.Fs.SessionInv

/-!
# Whole sessions

The start of a session, and sessions from their start on.  `vfs_create`,
`tmpfs_init` and `create_tmpfs_root` return exactly when there is memory for
what they use at once (`Session.start_outcome`); the array of the root's list
is not among it, as nothing is written there before the first entry comes.
What they leave is a layout of one node, without lost cells
(`Session.start_inv`), and it shows the tmpfs with a root and nothing else.

`Session.refines_tmpfs` is the connection of the two models of the file
system.  Whatever a session does on the heap, with all its lists and names in
blocks that are allocated, moved and freed, is a run of the routines of
`Fs.Tmpfs`, where these are values: the same calls with the same answers, for
some contents of the blocks that `kmalloc` gave.  What is proved of the
routines there is so proved of them here.
-/

namespace CourseOs.Fs

open FsHeap SymbolicHeap

variable {base : ℕ → Option Cell} {h h' : FsHeap} {s s' : Session} {rest : Multiset (ℕ × Cell)}
  {fsTmpfs v p hd : ℕ} {m grow : Supply} {n n' t : Node} {e : Entry} {ns l r : List Node}
  {err err' : VfsErr} {f : File}

/-! ### The start

The three calls before any client comes.  They ask for memory in a fixed
order, and use what they have got at once, so that the first refusal is where
the start stops; only the array of the root's list may be missing. -/

/-- What is allocated when the root is made, and what is left for it.  Up to
then these are the `Vfs` and its table. -/
theorem StartMemory.registered {m : StartMemory} {h₁ h₂ : FsHeap}
    (hfresh : Fresh h [m.vfs, m.table, m.entry.name, m.entry.entry, m.root.inode, m.root.list,
      m.root.array]) (hcreate : h.vfsCreate m.vfs m.table = .ok (h₁, v))
    (hinit : h₁.tmpfsInit fsTmpfs m.register v = .ok (h₂, err)) :
    ∃ table, Holds h.cells h₂ ({(v, .vfs ⟨10, 1, pointer table, 0, 0⟩)} + (blockCells table + 0)) ∧
      Fresh h₂ [m.entry.name, m.entry.entry, m.root.inode, m.root.list, m.root.array] := by
  have hstart : Holds h.cells h 0 := Owns.start h.cells
  obtain ⟨rfl, table, -, htable, hcells₁⟩ := hstart.vfsCreate (hfresh.take [m.vfs, m.table]) hcreate
  obtain ⟨table', hextent, hcells₂⟩ := hcells₁.tmpfsInit hinit
  refine ⟨table', hcells₂, hstart.fresh_of_addrs [m.vfs, m.table] hcells₂ (fun a ha => ?_) hfresh⟩
  rw [addrs_add, addrs_add, addrs_singleton, addrs_blockCells hextent] at ha
  rcases Multiset.mem_add.mp ha with ha | ha
  · exact .inr (by simp [Multiset.mem_singleton.mp ha])
  · rcases Multiset.mem_add.mp ha with ha | ha
    · exact .inr (by simp [htable a ha])
    · exact .inl ha

/-- A session starts with the root, and nothing is lost.  The tmpfs that it
shows is the one that `create_tmpfs_root` makes in the other model. -/
theorem Session.start_inv {m : StartMemory}
    (hfresh : Fresh h [m.vfs, m.table, m.entry.name, m.entry.entry, m.root.inode, m.root.list,
      m.root.array]) (hrun : Session.start fsTmpfs m h = .ok s) :
    ∃ L, s.Inv h.cells fsTmpfs L ∧ L.lost = 0 ∧ ∃ entry root mem,
      mem.map Block.size =
        (m.root.array.block (tmpfsDefaultDirAllocSize * sizeofPointer)).map Block.size ∧
      ∀ t : Vfs, t.cnt = h.cnt →
        L.Shows s.heap.cnt (Fs.createTmpfsRoot entry root mem t) := by
  unfold Session.start at hrun
  obtain ⟨⟨h₁, v⟩, hcreate, hrun⟩ := Exec.bind_eq_ok.mp hrun
  obtain ⟨⟨h₂, err⟩, hinit, hrun⟩ := Exec.bind_eq_ok.mp hrun
  obtain ⟨⟨h₃, root⟩, hroot, hrun⟩ := Exec.bind_eq_ok.mp hrun
  obtain ⟨table, hcells₂, hsecond⟩ := StartMemory.registered hfresh hcreate hinit
  obtain ⟨n, hn, hsound, hnext, hnew, hview, hcnt, hcells₃⟩ :=
    hcells₂.createTmpfsRoot hsecond hroot
  rw [(vfsRegister_cnt hinit).trans (vfsCreate_cnt hcreate)] at hnew hcnt
  cases hrun
  subst hn
  obtain ⟨mem, hmem, hshows⟩ := Layout.exists_shows_root
    (V := ⟨10, 1, pointer table, n.addr, n.addr⟩) hnew hview rfl rfl
  refine ⟨⟨⟨10, 1, pointer table, n.addr, n.addr⟩, table, [n], [], [], 0⟩,
    ⟨⟨?_, rfl, ⟨rfl, hnext⟩, rfl, nofun, nofun⟩, hcells₃.congr ?_, rfl, rfl, rfl⟩, rfl,
    n.entry.addr, n.addr, mem, hmem, fun t ht => ?_⟩
  · exact fun x hx => List.mem_singleton.mp hx ▸ hsound
  · unfold Layout.own Layout.spareCells Layout.fileCells
    simp
    abel
  · rw [hcnt]
    exact hshows t ht

/-- The start returns if there is memory for what it uses. -/
theorem Session.start_outcome (fsTmpfs : ℕ) {m : StartMemory}
    (hfresh : Fresh h [m.vfs, m.table, m.entry.name, m.entry.entry, m.root.inode, m.root.list,
      m.root.array]) : Outcome Stopped m.Granted (Session.start fsTmpfs m h) := by
  have hstart : Holds h.cells h 0 := Owns.start h.cells
  unfold Session.start
  refine (Holds.vfsCreate_outcome.bind (q := m.table.block (10 * sizeofPointer) ≠ none ∧
    (m.entry.name.block 2 ≠ none ∧ m.entry.entry.block sizeofDirEntry ≠ none) ∧
      m.root.inode.block sizeofTmpfsInode ≠ none ∧
        m.root.list.block sizeofArrayList ≠ none) fun ⟨h₁, v⟩ hcreate => ?_).congr
    ⟨fun ⟨hvfs, htable, ⟨hname, hentry⟩, hinode, hlist⟩ =>
      ⟨hvfs, htable, hname, hentry, hinode, hlist⟩,
    fun hm => ⟨hm.vfs, hm.table, ⟨hm.name, hm.entry⟩, hm.inode, hm.list⟩⟩
  obtain ⟨rfl, table, rfl, -, hcells₁⟩ :=
    hstart.vfsCreate (hfresh.take [m.vfs, m.table]) hcreate
  have hinit := (hcells₁.tmpfsInit_outcome fsTmpfs (m := m.register)).congr
    (hasRoom_granted (by decide))
  refine hinit.bind fun ⟨h₂, err⟩ hinit => ?_
  obtain ⟨table, hcells₂, hsecond⟩ := StartMemory.registered hfresh hcreate hinit
  exact (hcells₂.createTmpfsRoot_outcome hsecond).bind_ok fun _ _ => ⟨_, rfl⟩

section Whole

variable (fsTmpfs : ℕ)

/-! ### Whole sessions

From `vfs_create` on.  The start and the calls have their own results above;
here they are put together for the statements about sessions. -/

/-- A session from its start on: the state at its end, and what its calls
returned. -/
def Session.whole (m : StartMemory) (calls : List SessionCall) (h : FsHeap) :
    Exec (Session × List ℕ) := do
  let s ← Session.start fsTmpfs m h
  Calls.run (SessionCall.run fsTmpfs) calls s

/-- Each call of the session satisfies `P` in the state that it is made in. -/
def Session.EachCall (P : SessionCall → Session → Prop) (m : StartMemory)
    (calls : List SessionCall) (h : FsHeap) : Prop :=
  ∀ s, Session.start fsTmpfs m h = .ok s → Calls.Each (SessionCall.run fsTmpfs) P calls s

/-- **The two models of the file system.**  A session that returns is a run of
the routines of `Fs.Tmpfs`, from any file system with the same counter: they
return what the calls on the heap return, and at the end the heap holds what
the file system shows. -/
theorem Session.refines_tmpfs (m : StartMemory) (calls : List SessionCall) (h : FsHeap)
    {outputs : List ℕ}
    (hfresh : Fresh h [m.vfs, m.table, m.entry.name, m.entry.entry, m.root.inode, m.root.list,
      m.root.array])
    (hcalls : Session.EachCall fsTmpfs SessionCall.Allowed m calls h)
    (hrun : Session.whole fsTmpfs m calls h = .ok (s, outputs)) :
    ∃ entry root mem, mem.map Block.size =
        (m.root.array.block (tmpfsDefaultDirAllocSize * sizeofPointer)).map Block.size ∧
      ∀ t : Vfs, t.cnt = h.cnt →
        ∃ t' L, s.Inv h.cells fsTmpfs L ∧ L.Shows s.heap.cnt t' ∧
          Calls.Accepts SessionCall.Spec calls (Fs.createTmpfsRoot entry root mem t) outputs
            t' := by
  obtain ⟨s₀, hstart, hrun⟩ := Exec.bind_eq_ok.mp hrun
  obtain ⟨L₀, hs₀, -, entry, root, mem, hmem, hshows⟩ := Session.start_inv hfresh hstart
  refine ⟨entry, root, mem, hmem, fun t ht => ?_⟩
  obtain ⟨t', ⟨L, hs, ht'⟩, haccepts⟩ :=
    hs₀.accepted (hshows t ht) (hcalls s₀ hstart) hrun
  exact ⟨t', L, hs, ht', haccepts⟩

end Whole

end CourseOs.Fs
