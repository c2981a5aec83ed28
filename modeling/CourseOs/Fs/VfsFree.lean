import CourseOs.Fs.SessionStart

/-!
# What `vfs_free` releases

The end of a session: `vfs_free` on a `Vfs` all of whose entries have inodes,
and whose files are closed.

## The result

`vfs_free_exact` is about any session whose calls are allowed, from any heap.

* Everything that was allocated since `vfs_create` is freed, and the heap is
  cell by cell what it was, exactly when the session is refused no memory that
  it needs (`StartMemory.Granted`, `SessionCall.Refused`).  The inode list is
  then as the source promises: acyclic, with each inode once, and with its
  last one at `tail` (`Session.Listed`).
* In all other sessions one of two things happens.  A call that starves stops
  in front of a null pointer or of the end of an array (`Stopped`).  Or memory
  is refused only where a directory's list had to grow: then the session goes
  on, `vfs_free` returns, and what it leaves behind are the arrays that these
  lists had before.

So no session reads or frees a cell that was freed, with or without memory.
That the calls return is not assumed; `Session.Inv.outcome` proves it of each
of them.

## The leak

`vpa_push` stores what `krealloc` returns without looking at it.  With memory
for three entries of the root and none for its list to grow, the fourth create
replaces the array by null and reports success; `vfs_free_leaks` is that
session, and the array is still there at its end.
-/

namespace CourseOs.Fs

open FsHeap SymbolicHeap

variable {base : ℕ → Option Cell} {h h' : FsHeap} {s s' : Session} {rest : Multiset (ℕ × Cell)}
  {fsTmpfs v p hd : ℕ} {m grow : Supply} {n n' t : Node} {e : Entry} {ns l r : List Node}
  {err err' : VfsErr} {f : File}

section Whole

variable (fsTmpfs : ℕ)

/-- At the end of the session the inode list is as it should be, and
`vfs_free` returns and leaves a heap that satisfies `Q`. -/
def Session.Teardown (Q : FsHeap → Prop) (m : StartMemory) (calls : List SessionCall)
    (h : FsHeap) : Prop :=
  ∃ s outputs, Session.whole fsTmpfs m calls h = .ok (s, outputs) ∧ s.Listed ∧
    ∀ fuel, s.inodes.length < fuel →
      ∃ h', s.heap.vfsFree fsTmpfs fuel s.vfs = .ok h' ∧ Q h'

/-- **What `vfs_free` releases.**  Take any session, from any heap, whose
entries all have inodes and whose files are closed at its end.  All that was
allocated since `vfs_create` is freed, and the heap is what it was, exactly
when the session is not refused any memory that it needs.

Where memory is refused, either the session stops in front of a null pointer
or of the end of an array, or it ends, and `vfs_free` returns then too and
leaves the arrays behind that directories lost.  In no case is anything read
or freed that was freed before. -/
theorem vfs_free_exact (m : StartMemory) (calls : List SessionCall) (h : FsHeap)
    (hfresh : Fresh h [m.vfs, m.table, m.entry.name, m.entry.entry, m.root.inode, m.root.list,
      m.root.array])
    (hcalls : Session.EachCall fsTmpfs SessionCall.Allowed m calls h)
    (hdone : ∀ s outputs, Session.whole fsTmpfs m calls h = .ok (s, outputs) →
      s.entries = [] ∧ s.files = []) :
    (Session.Teardown fsTmpfs (fun h' => h'.cells = h.cells) m calls h ↔
      m.Granted ∧ Session.EachCall fsTmpfs (fun call s => ¬call.Refused s) m calls h) ∧
    (Session.Teardown fsTmpfs (fun _ => True) m calls h ∨
      ∃ t, Session.whole fsTmpfs m calls h = .error t ∧ Stopped t) := by
  have hout := Session.start_outcome fsTmpfs hfresh
  unfold Session.Teardown Session.EachCall at *
  unfold Session.whole at *
  cases hstart : Session.start fsTmpfs m h with
  | error t =>
      obtain ⟨hstopped, hrefused⟩ := hout.of_error hstart
      exact ⟨iff_of_false nofun fun hm => hrefused hm.1, .inr ⟨t, rfl, hstopped⟩⟩
  | ok s₀ =>
      rw [hstart] at hdone
      simp only [Exec.ok_bind, and_iff_right (hout.of_ok hstart), Except.ok.injEq,
        forall_eq'] at hdone ⊢
      obtain ⟨L₀, hs₀, hnone, -⟩ := Session.start_inv hfresh hstart
      rcases hs₀.run (hcalls s₀ hstart) with
        ⟨s, outputs, L, hrun, hs, hiff⟩ | ⟨t, hrun, hstopped, hrefused⟩
      · -- the session ends, and the layout says what `vfs_free` leaves
        obtain ⟨hentries, hfiles⟩ := hdone s outputs hrun
        have hfree := fun fuel => hs.vfsFree fuel hentries hfiles
        refine ⟨?_, .inl ⟨s, outputs, hrun, hs.listed, fun fuel hfuel => ?_⟩⟩
        · rw [← (hiff.trans (and_iff_right hnone))]
          constructor
          · rintro ⟨s', outputs', hrun', -, hall⟩
            cases hrun.symm.trans hrun'
            obtain ⟨h', hfreed, hbase⟩ := hall _ (Nat.lt_succ_self _)
            obtain ⟨h'', hfreed', hlost⟩ := hfree _ (Nat.lt_succ_self _)
            cases hfreed.symm.trans hfreed'
            exact hlost.mp hbase
          · intro hlost
            refine ⟨s, outputs, hrun, hs.listed, fun fuel hfuel => ?_⟩
            obtain ⟨h', hfreed, hbase⟩ := hfree fuel hfuel
            exact ⟨h', hfreed, hbase.mpr hlost⟩
        · obtain ⟨h', hfreed, -⟩ := hfree fuel hfuel
          exact ⟨h', hfreed, trivial⟩
      · refine ⟨iff_of_false ?_ hrefused, .inr ⟨t, hrun, hstopped⟩⟩
        rintro ⟨s, outputs, hrun', -⟩
        cases hrun.symm.trans hrun'

end Whole

/-- Blocks of the size asked for, of up to `limit` bytes and 64 at most, at `k
+ 1`. -/
def FsHeap.Supply.upTo (limit : ℕ) (k : Fin 64) : Supply where
  addr := k + 1
  block size := if size ≤ limit ∧ size ≤ 64 then some ⟨size, fun _ => 0⟩ else none
  addr_ne_zero := Nat.succ_ne_zero k
  addr_lt := by
    have hk := k.isLt
    omega
  room size b hb := by
    by_cases hsize : size ≤ limit ∧ size ≤ 64
    · rw [if_pos hsize] at hb
      cases hb
      exact ⟨le_rfl, hsize.2.trans_lt (by decide)⟩
    · rw [if_neg hsize] at hb
      cases hb

/-- Memory for the start, at the first addresses. -/
def StartMemory.small : StartMemory where
  vfs := .upTo 64 0
  table := .upTo 64 1
  register := .upTo 64 2
  entry := ⟨.upTo 64 3, .upTo 64 4⟩
  root := ⟨.upTo 64 5, .upTo 64 6, .upTo 64 7⟩

/-- An entry in the root, and an inode for it, with up to `limit` bytes for
the root's list. -/
def createInRoot (type : InodeType) (limit : ℕ) (k : Fin 64) : List SessionCall :=
  [.direntry ⟨.upTo 64 k, .upTo 64 (k + 1)⟩ [97] 5,
    .create type ⟨.upTo 64 (k + 2), .upTo 64 (k + 3), .upTo 64 (k + 4)⟩ (.upTo limit (k + 5)) 5
      (k + 2)]

/-- A session from an empty heap whose calls are allowed and return, at the
end of which all entries have inodes, no file is open, and a test holds. -/
def Session.check (calls : List SessionCall) (test : Session → Bool) : Bool :=
  match Session.start 4096 .small ⟨fun _ => none, 0⟩ with
  | .error _ => false
  | .ok s₀ => decide (Calls.Each (SessionCall.run 4096) SessionCall.Allowed calls s₀) &&
      match Calls.run (SessionCall.run 4096) calls s₀ with
      | .error _ => false
      | .ok (s, _) => decide (s.entries = []) && decide (s.files = []) && test s

/-- What a check by evaluation says: each call was allowed where it was made,
and the session returned with nothing left over. -/
theorem Session.of_check (calls : List SessionCall) (test : Session → Bool)
    (hcheck : Session.check calls test) :
    Session.EachCall 4096 SessionCall.Allowed .small calls ⟨fun _ => none, 0⟩ ∧
      ∃ s outputs, Session.whole 4096 .small calls ⟨fun _ => none, 0⟩ = .ok (s, outputs) ∧
        s.entries = [] ∧ s.files = [] ∧ test s := by
  unfold Session.check at hcheck
  unfold Session.EachCall Session.whole
  cases hstart : Session.start 4096 .small ⟨fun _ => none, 0⟩ with
  | error t =>
      rw [hstart] at hcheck
      cases hcheck
  | ok s₀ =>
      rw [hstart] at hcheck
      obtain ⟨hallowed, hcheck⟩ := Bool.and_eq_true_iff.mp hcheck
      cases hrun : Calls.run (SessionCall.run 4096) calls s₀ with
      | error t =>
          rw [hrun] at hcheck
          cases hcheck
      | ok r =>
          obtain ⟨s, outputs⟩ := r
          rw [hrun] at hcheck
          obtain ⟨hdone, htest⟩ := Bool.and_eq_true_iff.mp hcheck
          obtain ⟨hentries, hfiles⟩ := Bool.and_eq_true_iff.mp hdone
          refine ⟨fun s hs => ?_, s, outputs, ?_, of_decide_eq_true hentries,
            of_decide_eq_true hfiles, htest⟩
          · cases hs
            exact of_decide_eq_true hallowed
          · rw [Exec.ok_bind, hrun]

/-- A file in the root that is opened, written to and closed. -/
abbrev openedFile : List SessionCall :=
  createInRoot .file 64 10 ++
    [.open (.upTo 64 20) 13, .write (.upTo 64 21) 21 [1, 2, 3], .close 21]

/-- Four directories in the root.  With the fourth the list of the root has to
grow, and is refused the memory. -/
abbrev fourDirectories : List SessionCall :=
  createInRoot .directory 64 10 ++ createInRoot .directory 64 20 ++
    createInRoot .directory 64 30 ++ createInRoot .directory 0 40

theorem vfs_free_exact_one_file :
    (Session.Teardown 4096 (fun h' => h'.cells = fun _ => none) .small openedFile
        ⟨fun _ => none, 0⟩ ↔
      StartMemory.small.Granted ∧ Session.EachCall 4096 (fun call s => ¬call.Refused s) .small
        openedFile ⟨fun _ => none, 0⟩) ∧
    (Session.Teardown 4096 (fun _ => True) .small openedFile ⟨fun _ => none, 0⟩ ∨
      ∃ t, Session.whole 4096 .small openedFile ⟨fun _ => none, 0⟩ = .error t ∧ Stopped t) := by
  obtain ⟨hallowed, s, outputs, hrun, hentries, hfiles, -⟩ :=
    Session.of_check openedFile (fun _ => true) (by decide +kernel)
  refine vfs_free_exact 4096 .small openedFile ⟨fun _ => none, 0⟩ (by decide +kernel) hallowed
    fun s' outputs' hrun' => ?_
  cases hrun.symm.trans hrun'
  exact ⟨hentries, hfiles⟩

/-- All creates succeed, and after `vfs_free` the first array of the root's
list is still allocated. -/
theorem vfs_free_leaks : ∃ s outputs h',
    Session.EachCall 4096 SessionCall.Allowed .small fourDirectories ⟨fun _ => none, 0⟩ ∧
    Session.whole 4096 .small fourDirectories ⟨fun _ => none, 0⟩ = .ok (s, outputs) ∧
    s.entries = [] ∧ s.files = [] ∧ s.heap.vfsFree 4096 6 s.vfs = .ok h' ∧
    (h'.cells 8).isSome := by
  obtain ⟨hallowed, s, outputs, hrun, hentries, hfiles, hleft⟩ :=
    Session.of_check fourDirectories (fun s =>
      match s.heap.vfsFree 4096 6 s.vfs with
      | .error _ => false
      | .ok h' => (h'.cells 8).isSome) (by decide +kernel)
  cases hfree : s.heap.vfsFree 4096 6 s.vfs with
  | error t =>
      rw [hfree] at hleft
      cases hleft
  | ok h' =>
      rw [hfree] at hleft
      exact ⟨s, outputs, h', hallowed, hrun, hentries, hfiles, hfree, hleft⟩

end CourseOs.Fs
