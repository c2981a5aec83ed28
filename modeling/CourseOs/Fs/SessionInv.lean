import CourseOs.Fs.SessionTmpfs

/-!
# The calls of a session

The step lemmas of sessions.  Each allowed call that returns keeps
`Session.Inv` for some layout, loses a cell exactly when it was refused the
memory to grow a directory's list, and is a call on the file system of
`Fs.Tmpfs` (`Layout.Simulates`).  `Session.Inv.outcome` says which calls
return: those that do not starve.

From these, by induction over the calls, `Session.Inv.run` and
`Session.Inv.accepted` are what holds at the end of a session: the first for
the cells that are left, the second for the contents.

## How a step is proved

A call works on one or two items of the layout, and the layout is a sum of
cells in a fixed order.  The proof of a call has three parts: the items are
found in the layout, and their cells brought to the front (`opened_file`,
`file_front`); the lemma about the routine gives the new cells; and the new
layout is shown to be sound, which is about pointers only.  The layout lost
nothing by an open, a write or a close, and a create adds to `lost` what
`Holds.tmpfsCreate` says.
-/

namespace CourseOs.Fs

open FsHeap SymbolicHeap

variable {base : ℕ → Option Cell} {h h' : FsHeap} {s s' : Session} {rest : Multiset (ℕ × Cell)}
  {fsTmpfs v p hd : ℕ} {m grow : Supply} {n n' t : Node} {e : Entry} {ns l r : List Node}
  {err err' : VfsErr} {f : File}

/-- The item at an address taken out of a list. -/
theorem erase_map {α : Type} {addr : α → ℕ} {x : α} {xs ys : List α}
    (hnodup : ((xs ++ x :: ys).map addr).Nodup) :
    ((xs ++ x :: ys).map addr).erase (addr x) = (xs ++ ys).map addr := by
  rw [List.map_append, List.map_cons] at hnodup ⊢
  have hnew : addr x ∉ xs.map addr := fun hmem =>
    (List.nodup_append.mp hnodup).2.2 _ hmem _ List.mem_cons_self rfl
  rw [List.erase_append_right _ hnew, List.erase_cons_head, List.map_append]

namespace Session.Inv

variable {L : Layout} {a : ℕ} {em : EntryMemory} {name : List UInt8} {parent file inode : ℕ}
  {buf : List UInt8}

theorem direntry (hs : s.Inv base fsTmpfs L)
    (hallowed : (SessionCall.direntry em name parent).Allowed s)
    (hrun : (SessionCall.direntry em name parent).run fsTmpfs s = .ok (s', a)) :
    ∃ L', s'.Inv base fsTmpfs L' ∧ L'.lost = L.lost ∧
      L.Simulates (.direntry em name parent) s.heap.cnt a L' s'.heap.cnt := by
  obtain ⟨⟨heap, entry⟩, hcall, hdone⟩ := Exec.bind_eq_ok.mp hrun
  obtain ⟨e, rfl, hlt, hname, hparent, hcells, -⟩ := hs.holds.createNamedDirentry hallowed hcall
  have hcnt := createNamedDirentry_cnt hcall
  cases hdone
  obtain ⟨V, table, nodes, spare, files, lost⟩ := L
  have hown : Holds base heap (Layout.own s.vfs ⟨V, table, nodes, e :: spare, files, lost⟩) :=
    hcells.congr (Layout.own_spare []).symm
  refine ⟨⟨V, table, nodes, e :: spare, files, lost⟩,
    ⟨⟨hs.nodes, hs.table, hs.linked, hs.tail, hs.files, ?_⟩, hown, hs.inodes, ?_, hs.opened⟩, rfl,
    ?_⟩
  · exact List.forall_mem_cons.mpr ⟨hlt, hs.spare⟩
  · exact congrArg (e.addr :: ·) hs.entries
  · rw [hcnt]
    exact Layout.simulates_direntry hname hparent hown

/-- **Opening** an inode adds an open file to the layout and a reference to
the node, or changes nothing where there is no memory. -/
theorem «open» (hs : s.Inv base fsTmpfs L) (hallowed : (SessionCall.open m inode).Allowed s)
    (hrun : (SessionCall.open m inode).run fsTmpfs s = .ok (s', a)) :
    ∃ L', s'.Inv base fsTmpfs L' ∧ L'.lost = L.lost ∧
      L.Simulates (.open m inode) s.heap.cnt a L' s'.heap.cnt := by
  obtain ⟨⟨heap, file, err⟩, hcall, hdone⟩ := Exec.bind_eq_ok.mp hrun
  obtain ⟨n, hn, rfl⟩ := List.mem_map.mp (hs.inodes ▸ hallowed.1)
  obtain ⟨l, r, hnodes⟩ := List.append_of_mem hn
  obtain ⟨V, table, nodes, spare, files, lost⟩ := L
  subst hnodes
  have hcnt := tmpfsOpenFile_cnt hcall
  obtain ⟨rfl, rfl⟩ | ⟨hfile, hcells⟩ :=
    (hs.holds.congr Layout.own_node).tmpfsOpenFile hallowed.2 hcall
  · cases hdone
    exact ⟨_, ⟨hs.toSound, hs.holds, hs.inodes, hs.entries, hs.opened⟩, rfl,
      Layout.simulates_refused⟩
  · have hsound := hs.nodes n hn
    generalize hrefcount : (n.inode.refcount + 1) % 2 ^ 32 = refcount at *
    have hown : Holds base heap (Layout.own s.vfs ⟨V, table, l ++ n.withRefcount refcount :: r,
        spare, (file, ⟨n.inode.direntry, 0⟩) :: files, lost⟩) := by
      refine hcells.congr ?_
      rw [← Layout.own_node]
      exact (Layout.own_file []).symm
    have hL := hs.toSound.replace (n.withRefcount refcount) rfl n.samePlace_withRefcount
      (hsound.withRefcount refcount)
    refine ⟨⟨V, table, l ++ n.withRefcount refcount :: r, spare,
      (file, ⟨n.inode.direntry, 0⟩) :: files, lost⟩, ?_, rfl, ?_⟩
    · cases hdone
      refine ⟨⟨hL.nodes, hL.table, hL.linked, hL.tail, ?_, hL.spare⟩, hown, ?_, hs.entries, ?_⟩
      · intro f hf
        rcases List.mem_cons.mp hf with rfl | hf
        · exact ⟨n.withRefcount refcount, List.mem_append_right _ List.mem_cons_self,
            hsound.direntry, fun _ => Nat.zero_le _⟩
        · exact hL.files f hf
      · rw [← hs.inodes]
        simp [Node.withRefcount]
      · rw [if_neg hfile, ← hs.opened]
        rfl
    · cases hdone
      rw [hcnt]
      subst hrefcount
      exact Layout.simulates_open hs.holds hown

/-- Where an open file leads. -/
theorem opened_file (hs : s.Inv base fsTmpfs L) (hfile : file ∈ s.files) :
    ∃ f n fl fr l r, L.files = fl ++ (file, f) :: fr ∧ L.nodes = l ++ n :: r ∧
      n.Opens f ∧ n.Sound fsTmpfs s.vfs := by
  obtain ⟨⟨_, f⟩, hmem, rfl⟩ := List.mem_map.mp (hs.opened ▸ hfile)
  obtain ⟨n, hn, hopen⟩ := hs.toSound.files _ hmem
  obtain ⟨fl, fr, hfiles⟩ := List.append_of_mem hmem
  obtain ⟨l, r, hnodes⟩ := List.append_of_mem hn
  exact ⟨f, n, fl, fr, l, r, hfiles, hnodes, hopen, hs.nodes n hn⟩

/-- The cells of an open file and of its inode, in front of all others that
the session owns. -/
theorem file_front {fl fr : List (ℕ × File)} (hs : s.Inv base fsTmpfs L)
    (hfiles : L.files = fl ++ (file, f) :: fr) (hnodes : L.nodes = l ++ n :: r) :
    Holds base s.heap ({(file, .file f)} + (n.cells + Layout.own s.vfs
      ⟨L.vfs, L.table, l ++ r, L.spare, fl ++ fr, L.lost⟩)) := by
  obtain ⟨V, table, nodes, spare, files, lost⟩ := L
  subst hfiles hnodes
  exact hs.holds.congr ((Layout.own_file fl).trans (congrArg _ Layout.own_node))

/-- The inode of a file that may be written to is that of a file, and not of a
directory. -/
theorem isFile {fl fr : List (ℕ × File)} (hs : s.Inv base fsTmpfs L)
    (hfiles : L.files = fl ++ (file, f) :: fr) (hnodes : L.nodes = l ++ n :: r)
    (hopen : n.Opens f) (hn : n.Sound fsTmpfs s.vfs) (hfile : s.heap.IsFile file) :
    n.inode.inodeType = .file := by
  unfold FsHeap.IsFile at hfile
  rw [(hs.file_front hfiles hnodes).openedInode hopen.dentry hn] at hfile
  exact Option.some.inj hfile

/-- **A write** that returns changes the list of one node and the position of
one file; nothing is lost by it. -/
theorem write (hs : s.Inv base fsTmpfs L) (hallowed : (SessionCall.write m file buf).Allowed s)
    (hrun : (SessionCall.write m file buf).run fsTmpfs s = .ok (s', a)) :
    ∃ L', s'.Inv base fsTmpfs L' ∧ L'.lost = L.lost ∧
      L.Simulates (.write m file buf) s.heap.cnt a L' s'.heap.cnt := by
  obtain ⟨f, n, fl, fr, l, r, hfiles, hnodes, hopen, hn⟩ := hs.opened_file hallowed.1
  have htype := hs.isFile hfiles hnodes hopen hn hallowed.2.1
  have hfront := hs.file_front hfiles hnodes
  obtain ⟨⟨heap, count⟩, hcall, hdone⟩ := Exec.bind_eq_ok.mp hrun
  have hcnt := tmpfsWriteFile_cnt hcall
  obtain ⟨position, list, array, hn', hgrown, hposition, hmod, hcount, hwrites, hcells⟩ :=
    hfront.tmpfsWriteFile hn htype hopen hallowed.2.2 hcall
  obtain ⟨V, table, nodes, spare, files, lost⟩ := L
  subst hfiles hnodes
  have hL := hs.toSound.replace (n.withList list array) rfl
    ⟨rfl, rfl, fun f hf => ⟨hf.dentry, fun h => (hf.position h).trans hgrown⟩⟩ hn'
  refine ⟨⟨V, table, l ++ n.withList list array :: r, spare,
    fl ++ (file, { f with filePosition := position }) :: fr, lost⟩, ?_, rfl, ?_⟩
  · cases hdone
    refine ⟨⟨hL.nodes, hL.table, hL.linked, hL.tail, fun f' hf' => ?_, hL.spare⟩, ?_, ?_,
      hs.entries, ?_⟩
    · rcases List.mem_append.mp hf' with hf' | hf'
      · exact hL.files f' (List.mem_append_left _ hf')
      · rcases List.mem_cons.mp hf' with rfl | hf'
        · exact ⟨n.withList list array, List.mem_append_right _ List.mem_cons_self, hopen.dentry,
            fun _ => hposition⟩
        · exact hL.files f' (List.mem_append_right _ (List.mem_cons_of_mem _ hf'))
    · exact hcells.congr ((Layout.own_file fl).trans (congrArg _ Layout.own_node)).symm
    · rw [← hs.inodes]
      simp [Node.withList]
    · rw [← hs.opened]
      simp
  · cases hdone
    rw [hcnt, hmod, hcount]
    exact Layout.simulates_write hs.holds hopen.dentry hn.back htype hwrites

/-- **Closing** a file returns always.  The file goes, and the node has a
reference less. -/
theorem close (hs : s.Inv base fsTmpfs L) (hallowed : (SessionCall.close file).Allowed s) :
    ∃ s' a L', (SessionCall.close file).run fsTmpfs s = .ok (s', a) ∧ s'.Inv base fsTmpfs L' ∧
      L'.lost = L.lost ∧ L.Simulates (.close file) s.heap.cnt a L' s'.heap.cnt := by
  obtain ⟨f, n, fl, fr, l, r, hfiles, hnodes, hopen, hn⟩ := hs.opened_file hallowed
  obtain ⟨heap', hclose, hcells⟩ :=
    (hs.file_front hfiles hnodes).tmpfsCloseFile hopen.dentry hn
  have hcnt := tmpfsCloseFile_cnt hclose
  obtain ⟨V, table, nodes, spare, files, lost⟩ := L
  subst hfiles hnodes
  have hsimulates := fun cnt => Layout.simulates_close cnt hs.holds hopen.dentry hn.back
  generalize sub32 n.inode.refcount 1 = refcount at *
  have hL := hs.toSound.replace (n.withRefcount refcount) rfl n.samePlace_withRefcount
    (hn.withRefcount refcount)
  refine ⟨{ s with heap := heap', files := s.files.erase file }, 0,
    ⟨V, table, l ++ n.withRefcount refcount :: r, spare, fl ++ fr, lost⟩, ?_, ?_, rfl, ?_⟩
  · dsimp only [SessionCall.run]
    rw [hclose, Exec.ok_bind]
  · refine ⟨⟨hL.nodes, hL.table, hL.linked, hL.tail, fun f' hf' => hL.files f' ?_, hL.spare⟩, ?_,
      ?_, hs.entries, ?_⟩
    · rcases List.mem_append.mp hf' with hf' | hf'
      · exact List.mem_append_left _ hf'
      · exact List.mem_append_right _ (List.mem_cons_of_mem _ hf')
    · exact hcells.congr Layout.own_node.symm
    · rw [← hs.inodes]
      simp [Node.withRefcount]
    · rw [← hs.opened]
      exact (erase_map hs.holds.nodup_files).symm
  · rw [hcnt]
    exact hsimulates _

/-- The directory and the entry of a create, which the discipline says are
there, and their cells in front of all others. -/
theorem directory_front {type : InodeType} {im : InodeMemory} {entry : ℕ}
    (hs : s.Inv base fsTmpfs L)
    (hallowed : (SessionCall.create type im grow parent entry).Allowed s) :
    ∃ n e l r sl sr, L.nodes = l ++ n :: r ∧ L.spare = sl ++ e :: sr ∧ n.entry.addr = parent ∧
      e.addr = entry ∧ n.inode.inodeType = .directory ∧ n.Sound fsTmpfs s.vfs ∧
      (∃ rest, Holds base s.heap (n.cells + rest)) ∧
      Holds base s.heap (e.cells + ({(s.vfs, .vfs L.vfs)} + (nodeCells (l ++ n :: r) +
        (blockCells L.table + (((sl ++ sr).map Entry.cells).sum + (L.fileCells + L.lost)))))) := by
  obtain ⟨⟨p, hp, hdirectory⟩, hentry, -⟩ := hallowed
  obtain ⟨n, hn, rfl⟩ := List.mem_map.mp (hs.inodes ▸ hp)
  obtain ⟨e, he, rfl⟩ := List.mem_map.mp (hs.entries ▸ hentry)
  obtain ⟨l, r, hnodes⟩ := List.append_of_mem hn
  obtain ⟨sl, sr, hspare⟩ := List.append_of_mem he
  have hsound := hs.nodes n hn
  obtain ⟨V, table, nodes, spare, files, lost⟩ := L
  subst hnodes hspare
  have hnode := hs.holds.congr Layout.own_node
  rw [Owns.cell hnode.inode_front n.addr _ Holds.mem_front] at hdirectory
  obtain ⟨hdir, hparent⟩ := hdirectory
  refine ⟨n, e, l, r, sl, sr, rfl, rfl, hsound.direntry.symm.trans hparent, rfl, hdir, hsound,
    ⟨_, hnode⟩, hs.holds.congr ?_⟩
  rw [Layout.own_spare]
  unfold Layout.own Layout.spareCells Layout.fileCells
  abel

/-- **A create** puts a new node at the end of the list, with the entry it was
given.  The array of the parent's list is lost exactly where it had to grow
and there was no memory. -/
theorem create {type : InodeType} {im : InodeMemory} {entry : ℕ} (hs : s.Inv base fsTmpfs L)
    (hallowed : (SessionCall.create type im grow parent entry).Allowed s)
    (hrun : (SessionCall.create type im grow parent entry).run fsTmpfs s = .ok (s', a)) :
    ∃ L', s'.Inv base fsTmpfs L' ∧
      (L'.lost = 0 ↔ L.lost = 0 ∧ ¬s.heap.GrowthRefused parent grow) ∧
      L.Simulates (.create type im grow parent entry) s.heap.cnt a L' s'.heap.cnt := by
  obtain ⟨n, e, l, r, sl, sr, hnodes, hspare, rfl, rfl, hdir, hsound, ⟨rest, hnode⟩, hcells⟩ :=
    hs.directory_front hallowed
  obtain ⟨-, -, hfresh, hgranted⟩ := hallowed
  obtain ⟨⟨heap, inode, err⟩, hcall, hdone⟩ := Exec.bind_eq_ok.mp hrun
  obtain ⟨V, table, nodes, spare, files, lost⟩ := L
  subst hnodes hspare
  have hcnt := tmpfsCreate_cnt hcall hgranted
  obtain ⟨new, list, array, lost', init, t, rfl, hentry', hnew, hnext, hheader, hslots, hlast, h',
    hlost, hisNew, hview, -, hpush⟩ := hcells.tmpfsCreate hsound hdir hs.tail hfresh hgranted hcall
  have hreplaced := hs.toSound.replace (n.withList list array) rfl
    (n.samePlace_withList hdir list array) ⟨hsound.direntry, hsound.back, hsound.fsIdentifier,
      hsound.vfs, hheader, fun hfile => (nomatch hdir.symm.trans hfile), fun _ => hslots⟩
  have hL := hreplaced.concat hlast hnew hnext
  have hown : Holds base heap (Layout.own s.vfs ⟨{ V with tail := new.addr }, table,
      init ++ [t.withNext new.addr, new], sl ++ sr, files, blockCells lost' + lost⟩) := by
    refine h'.congr ?_
    unfold Layout.own Layout.spareCells Layout.fileCells
    dsimp only
    abel
  have hsub : sl ++ sr ⊆ sl ++ e :: sr := by simp
  have htail : V.tail = t.addr := by
    simpa [hlast] using hreplaced.tail
  refine ⟨⟨{ V with tail := new.addr }, table, init ++ [t.withNext new.addr, new], sl ++ sr, files,
    blockCells lost' + lost⟩, ?_, ?_, ?_⟩
  · cases hdone
    refine ⟨⟨hL.nodes, hL.table, hL.linked, hL.tail, hL.files, ?_⟩, hown, ?_, ?_, hs.opened⟩
    · exact fun x hx => hs.spare x (hsub hx)
    · have haddr := congrArg (List.map Node.addr) hlast
      rw [← hs.inodes]
      simp only [List.map_append, List.map_cons, List.map_nil] at haddr ⊢
      rw [show n.addr = (n.withList list array).addr from rfl, haddr, List.append_assoc]
      rfl
    · rw [← hs.entries]
      exact (erase_map hs.holds.nodup_spare).symm
  · rw [hnode.growthRefused_iff hsound hdir, add_eq_zero, blockCells_eq_zero, hlost]
    exact and_comm
  · cases hdone
    rw [hcnt]
    exact Layout.simulates_create hs.holds hown hsound.back hdir htail hlast hentry' hview hisNew
      (hpush (hs.spare e (by simp)))

/-- **A call** returns if it does not starve, and else it follows a null
pointer or writes behind an array.  A call that starves never returns. -/
theorem outcome {call : SessionCall} (hs : s.Inv base fsTmpfs L) (hallowed : call.Allowed s) :
    Outcome Stopped (¬call.Starves s) (call.run fsTmpfs s) := by
  cases call with
  | direntry em name parent =>
      have hentry := hs.holds.createNamedDirentry_outcome hallowed name parent
      exact (hentry.bind_ok fun _ _ => ⟨_, rfl⟩).congr not_or.symm
  | create type im grow parent entry =>
      obtain ⟨n, e, l, r, sl, sr, hnodes, -, rfl, rfl, hdir, hsound, ⟨rest, hnode⟩, hcells⟩ :=
        hs.directory_front hallowed
      have hcreate := hcells.tmpfsCreate_outcome type hsound hdir (hnodes ▸ hs.tail)
        hallowed.2.2.1 hallowed.2.2.2
      refine (hcreate.bind_ok fun _ _ => ⟨_, rfl⟩).congr ?_
      show _ ↔ ¬(_ ∨ s.heap.ArrayMissing n.entry.addr)
      rw [hnode.arrayMissing_iff hsound hdir]
      exact not_or.symm
  | «open» m inode =>
      obtain ⟨n, hn, rfl⟩ := List.mem_map.mp (hs.inodes ▸ hallowed.1)
      obtain ⟨l, r, hnodes⟩ := List.append_of_mem hn
      obtain ⟨V, table, nodes, spare, files, lost⟩ := L
      subst hnodes
      obtain ⟨⟨heap, file, err⟩, hopen⟩ :=
        (hs.holds.congr Layout.own_node).tmpfsOpenFile_returns .ok hallowed.2
      dsimp only [SessionCall.run]
      rw [hopen]
      exact .returns not_false
  | write m file buf =>
      obtain ⟨f, n, fl, fr, l, r, hfiles, hnodes, hopen, hn⟩ := hs.opened_file hallowed.1
      have htype := hs.isFile hfiles hnodes hopen hn hallowed.2.1
      have hfront := hs.file_front hfiles hnodes
      have hwrite := hfront.tmpfsWriteFile_outcome buf hn htype hopen hallowed.2.2
      exact (hwrite.bind_ok fun _ _ => ⟨_, rfl⟩).congr
        (hfront.writeRefused_iff hn htype hopen).symm
  | close file =>
      obtain ⟨s', a, L', hclose, -⟩ := hs.close hallowed
      rw [hclose]
      exact .returns not_false

/-- A call that returns keeps the invariant, and loses a cell only when a list
cannot grow; and it is a call of the model without a heap. -/
theorem step {call : SessionCall} (hs : s.Inv base fsTmpfs L) (hallowed : call.Allowed s)
    (hrun : call.run fsTmpfs s = .ok (s', a)) :
    ∃ L', s'.Inv base fsTmpfs L' ∧ (L'.lost = 0 ↔ L.lost = 0 ∧ ¬call.Loses s) ∧
      L.Simulates call s.heap.cnt a L' s'.heap.cnt := by
  have hquiet : (∃ L', s'.Inv base fsTmpfs L' ∧ L'.lost = L.lost ∧
        L.Simulates call s.heap.cnt a L' s'.heap.cnt) →
      ∃ L', s'.Inv base fsTmpfs L' ∧ (L'.lost = 0 ↔ L.lost = 0 ∧ ¬False) ∧
        L.Simulates call s.heap.cnt a L' s'.heap.cnt := by
    rintro ⟨L', hs', hlost, hsimulates⟩
    refine ⟨L', hs', ?_, hsimulates⟩
    rw [hlost]
    exact (and_iff_left not_false).symm
  cases call with
  | direntry em name parent => exact hquiet (hs.direntry hallowed hrun)
  | create type im grow parent entry => exact hs.create hallowed hrun
  | «open» m inode => exact hquiet (hs.open hallowed hrun)
  | write m file buf => exact hquiet (hs.write hallowed hrun)
  | close file =>
      obtain ⟨s₁, a₁, L', hclose, hs₁, hlost⟩ := hs.close hallowed
      cases hclose.symm.trans hrun
      exact hquiet ⟨L', hs₁, hlost⟩

/-- **A session** stops only at a call that starves, and has lost a cell at
its end only when a list could not grow. -/
theorem run {calls : List SessionCall} (hs : s.Inv base fsTmpfs L)
    (hcalls : Calls.Each (SessionCall.run fsTmpfs) SessionCall.Allowed calls s) :
    (∃ s' outputs L', Calls.run (SessionCall.run fsTmpfs) calls s = .ok (s', outputs) ∧
      s'.Inv base fsTmpfs L' ∧ (L'.lost = 0 ↔ L.lost = 0 ∧
        Calls.Each (SessionCall.run fsTmpfs) (fun call s => ¬call.Refused s) calls s)) ∨
      ∃ t, Calls.run (SessionCall.run fsTmpfs) calls s = .error t ∧ Stopped t ∧
        ¬Calls.Each (SessionCall.run fsTmpfs) (fun call s => ¬call.Refused s) calls s := by
  refine Calls.tracked_or_stopped (T := fun s L => s.Inv base fsTmpfs L)
    (G := fun L => L.lost = 0) (P := fun call s => ¬call.Refused s) (fun call s L hs hallowed => ?_)
    hs hcalls
  have hout := hs.outcome hallowed
  cases hrun : call.run fsTmpfs s with
  | ok r =>
      obtain ⟨s', a⟩ := r
      have hfed := hout.of_ok hrun
      obtain ⟨L', hs', hlost, -⟩ := hs.step hallowed hrun
      refine .inl ⟨s', a, L', rfl, hs', hlost.trans (and_congr_right' ?_)⟩
      exact (not_or.trans (and_iff_right hfed)).symm
  | error t =>
      obtain ⟨hstopped, hstarved⟩ := hout.of_error hrun
      exact .inr ⟨t, rfl, hstopped, fun hno => hno (.inl (not_not.mp hstarved))⟩

/-- **A session that returns** is a run of the calls without a heap, which
return the same.  By the rule for refinements, from one call to all. -/
theorem accepted {calls : List SessionCall} {outputs : List ℕ} {t : Vfs}
    (hs : s.Inv base fsTmpfs L) (ht : L.Shows s.heap.cnt t)
    (hcalls : Calls.Each (SessionCall.run fsTmpfs) SessionCall.Allowed calls s)
    (hrun : Calls.run (SessionCall.run fsTmpfs) calls s = .ok (s', outputs)) :
    ∃ t', (∃ L', s'.Inv base fsTmpfs L' ∧ L'.Shows s'.heap.cnt t') ∧
      Calls.Accepts SessionCall.Spec calls t outputs t' := by
  refine Calls.accepted (R := fun s t => ∃ L, s.Inv base fsTmpfs L ∧ L.Shows s.heap.cnt t)
    (fun call s t s' a hR hallowed hrun => ?_) ⟨L, hs, ht⟩ hcalls hrun
  obtain ⟨L, hs, ht⟩ := hR
  obtain ⟨L', hs', -, hsimulates⟩ := hs.step hallowed hrun
  obtain ⟨t', hspec, ht'⟩ := hsimulates t ht
  exact ⟨t', ⟨L', hs', ht'⟩, hspec⟩

/-- The list is the one that `next` makes, from the head on. -/
theorem chain (hs : s.Inv base fsTmpfs L) :
    LinkedList.Chain s.heap.next L.vfs.head s.inodes := by
  have hchain : ∀ {ns hd}, Linked hd ns → ns ⊆ L.nodes →
      LinkedList.Chain s.heap.next hd (ns.map Node.addr) := by
    intro ns
    induction ns with
    | nil => exact fun h _ => h
    | cons n ns ih =>
        intro hd h hsub
        obtain ⟨l, r, hnodes⟩ := List.append_of_mem (hsub List.mem_cons_self)
        obtain ⟨V, table, nodes, spare, files, lost⟩ := L
        subst hnodes
        have hnode := hs.holds.congr Layout.own_node
        refine ⟨h.1, hnode.node_ne_zero, ?_⟩
        have hnext : s.heap.next n.addr = n.inode.next := by
          unfold FsHeap.next
          rw [Owns.cell hnode.inode_front n.addr _ Holds.mem_front]
        rw [hnext]
        exact ih h.2 fun x hx => hsub (List.mem_cons_of_mem n hx)
  rw [← hs.inodes]
  exact hchain hs.linked (List.Subset.refl _)

/-- The inode list of a session. -/
theorem listed (hs : s.Inv base fsTmpfs L) : s.Listed := by
  refine ⟨L.vfs, Owns.cell hs.holds _ _ Holds.mem_front, hs.chain, ?_, ?_⟩
  · rw [← hs.inodes]
    refine Holds.nodup_nodes (hs.holds.congr (o := nodeCells L.nodes + ({(s.vfs, .vfs L.vfs)} +
      (blockCells L.table + (L.spareCells + (L.fileCells + L.lost))))) ?_)
    unfold Layout.own
    abel
  · rw [← hs.inodes]
    exact hs.tail

/-- **`vfs_free`** at the end of a session, when all files are closed and no
entry is left over: it returns, and the heap is what it was before the session
exactly when nothing was lost. -/
theorem vfsFree (fuel : ℕ) (hs : s.Inv base fsTmpfs L) (hentries : s.entries = [])
    (hfiles : s.files = []) (hfuel : s.inodes.length < fuel) :
    ∃ h', s.heap.vfsFree fsTmpfs fuel s.vfs = .ok h' ∧ (h'.cells = base ↔ L.lost = 0) := by
  obtain ⟨V, table, nodes, spare, files, lost⟩ := L
  obtain rfl : spare = [] := List.map_eq_nil_iff.mp (hs.entries.trans hentries)
  obtain rfl : files = [] := List.map_eq_nil_iff.mp (hs.opened.trans hfiles)
  rw [← hs.inodes, List.length_map] at hfuel
  have hcells := hs.holds.congr (o := {(s.vfs, .vfs V)} + (blockCells table +
      (nodeCells nodes + lost))) (by
    unfold Layout.own Layout.spareCells Layout.fileCells
    simp)
  obtain ⟨h', hfree, hleft⟩ := hcells.vfsFree hs.nodes hs.table hs.linked hs.tail hfuel
  exact ⟨h', hfree, Owns.eq_base_iff hleft⟩

end Session.Inv

end CourseOs.Fs
