import CourseOs.Fs.Tree

/-!
# Creation that fails

`tmpfs_create_dir`, `tmpfs_create_file` and `tmpfs_open_file` report a failure
by returning null and setting the error.  A call that fails is to report it
and to leave everything as it was: the entries of the directory, the inode
list, and which blocks are allocated (`FailsCleanly`, `Undone`).

## Main results

* `tmpfsCreate_noMemory` — without memory for the inode the error is tested
  the wrong way round, and nothing is reported.
* `tmpfsCreate_notDir` — when the parent is not a directory, which is found
  out after the inode is made, the inode stays allocated.
* `tmpfsCreate_directory` — in a directory, and with memory, the call does not
  fail.
* `creation_exact` — so the protocol holds exactly for the calls that do not
  fail, and of `tmpfs_open_file` for those that have memory for the handle.

A creation ends in one of the first three ways, which exclude one another, so
that the equivalence is read off the three of them.
-/

namespace CourseOs.Fs

variable {s s' : Vfs} {root p parent entry inode : ℕ} {d e : DirEntry} {n : TmpfsInode}
  {type : InodeType} {data : InodeData} {grow : Option (Block ℕ)}

/-- A call of `tmpfs_create_dir` or `tmpfs_create_file`: `parent` has the
inode `n`, `entry` is another entry, and the block for the new inode is a free
one, or null. -/
structure CreateCall (s : Vfs) (parent entry inode : ℕ) (d e : DirEntry) (n : TmpfsInode) :
    Prop where
  parent_eq : s.dentries parent = some d
  parent_ne : parent ≠ 0
  entry_eq : s.dentries entry = some e
  entry_ne : entry ≠ 0
  entry_ne_parent : entry ≠ parent
  inode_eq : s.inodes d.inode = some n
  inode_ne : d.inode ≠ 0
  data : n.data.Matches n.inodeType
  fresh : inode ≠ 0 → s.inodes inode = none
  tail : ∃ t, s.inodes s.tail = some t
  tail_ne : s.tail ≠ 0

/-- In a tree any entry may be the parent of a new one.  The creation finds
the inode of the parent, and the entry that the client made for it. -/
theorem TreeInv.createCall (h : TreeInv root s) (hp : s.dentries parent = some d)
    (he : s.dentries entry = none) (he0 : entry ≠ 0) (name : Qstr) (garbage : ℕ)
    (hfresh : inode ≠ 0 → s.inodes inode = none) :
    ∃ n, s.inodes d.inode = some n ∧ CreateCall (createDirentry entry name parent garbage s)
      parent entry inode d ⟨garbage, name, parent⟩ n := by
  obtain ⟨type, data, hshape, hmatch⟩ := h.inode parent d hp
  obtain ⟨n, hn, heq⟩ := Vfs.inode_of_shape hshape
  rw [Prod.mk.injEq, Prod.mk.injEq] at heq
  obtain ⟨htype, -, hdata⟩ := heq
  have hne : entry ≠ parent := by
    rintro rfl
    cases he.symm.trans hp
  obtain ⟨t, ht⟩ := h.tail
  refine ⟨n, hn, ?_⟩
  exact {
    parent_eq := (Vfs.putDentry_of_ne _ hne.symm).trans hp
    parent_ne := h.entry_ne_null hp
    entry_eq := Vfs.putDentry_self ..
    entry_ne := he0
    entry_ne_parent := hne
    inode_eq := hn
    inode_ne := h.inode_ne_null hp
    data := by rw [htype, hdata]; exact hmatch
    fresh := hfresh
    tail := ⟨t, ht⟩
    tail_ne := by
      intro h0
      have ht' : s.inodes 0 = some t := h0 ▸ ht
      cases h.inodes_null.symm.trans ht' }

/-- What a call that fails has to leave as it was: the entries of the
directory `p`, the inode list, and which blocks are allocated.  What is in the
blocks may differ. -/
structure Undone (s s' : Vfs) (p : ℕ) : Prop where
  children : s'.children p = s.children p
  head : s'.head = s.head
  tail : s'.tail = s.tail
  nextOf : ∀ i n, s.inodes i = some n → s'.nextOf i = s.nextOf i
  dentries : ∀ q, s'.dentries q = none ↔ s.dentries q = none
  inodes : ∀ i, s'.inodes i = none ↔ s.inodes i = none
  files : ∀ f, s'.files f = none ↔ s.files f = none

/-- The result is null just when the error is set, and then the call has
undone itself. -/
def FailsCleanly (s : Vfs) (p : ℕ) : Exec (Vfs × ℕ × VfsErr) → Prop
  | .ok (s', result, err) => (result = 0 ↔ err ≠ .ok) ∧ (result = 0 → Undone s s' p)
  | .error _ => False

/-! ### The three ends of a creation

Without memory for the inode, with a parent that is no directory, and with all
in order.  The source handles each of the first two halfway: one is not
reported, the other is not undone. -/

/-- Without memory nothing is done and nothing is reported. -/
theorem tmpfsCreate_noMemory (h : CreateCall s parent entry 0 d e n) :
    tmpfsCreate type data 0 grow s parent entry .ok = .ok (s, 0, .ok) := by
  have hp : s.dentry parent = .ok d := Vfs.fetch_eq h.parent_ne h.parent_eq
  have hn : s.inode d.inode = .ok n := Vfs.fetch_eq h.inode_ne h.inode_eq
  unfold tmpfsCreate
  rw [hp, Exec.ok_bind, hn, Exec.ok_bind, if_pos rfl]
  rfl

theorem tmpfsCreate_eq (h : CreateCall s parent entry inode d e n) (hinode : inode ≠ 0) :
    tmpfsCreate type data inode grow s parent entry .ok =
      addEntryToDirectory grow (withInode s type data inode entry e) parent entry .ok >>= fun r =>
        if r.2 ≠ .ok then .ok (r.1, 0, r.2)
        else vfsAddInode r.1 inode >>= fun r' => .ok (r'.1, inode, r.2) := by
  have hp : s.dentry parent = .ok d := Vfs.fetch_eq h.parent_ne h.parent_eq
  have hn : s.inode d.inode = .ok n := Vfs.fetch_eq h.inode_ne h.inode_eq
  have he : s.dentry entry = .ok e := Vfs.fetch_eq h.entry_ne h.entry_eq
  unfold tmpfsCreate
  rw [hp, Exec.ok_bind, hn, Exec.ok_bind, if_neg hinode, he]
  rfl

/-- The parent as it is when the new inode is there. -/
theorem withInode_parent (h : CreateCall s parent entry inode d e n) (hinode : inode ≠ 0) :
    (withInode s type data inode entry e).dentry parent = .ok d ∧
      (withInode s type data inode entry e).inode d.inode = .ok n := by
  have hne : d.inode ≠ inode := by
    intro heq
    have := h.inode_eq
    rw [heq, h.fresh hinode] at this
    cases this
  exact ⟨
    Vfs.fetch_eq h.parent_ne ((Vfs.putDentry_of_ne _ h.entry_ne_parent.symm).trans h.parent_eq),
    Vfs.fetch_eq h.inode_ne ((Vfs.putInode_of_ne _ hne).trans h.inode_eq)⟩

/-- A parent that is no directory is reported, and the inode stays:
`withInode` is the state in which it is there and listed nowhere. -/
theorem tmpfsCreate_notDir (h : CreateCall s parent entry inode d e n) (hinode : inode ≠ 0)
    (htype : n.inodeType ≠ .directory) :
    tmpfsCreate type data inode grow s parent entry .ok =
      .ok (withInode s type data inode entry e, 0, .notDir) := by
  obtain ⟨hp, hn⟩ : (withInode s type data inode entry e).dentry parent = .ok d ∧ _ :=
    withInode_parent h hinode
  rw [tmpfsCreate_eq h hinode]
  unfold addEntryToDirectory
  rw [hp, Exec.ok_bind, hn, Exec.ok_bind, if_pos htype]
  rfl

/-- In a directory the call does not fail. -/
theorem tmpfsCreate_directory (h : CreateCall s parent entry inode d e n) (hinode : inode ≠ 0)
    (htype : n.inodeType = .directory) :
    ∃ s', tmpfsCreate type data inode grow s parent entry .ok = .ok (s', inode, .ok) := by
  have hold : ∀ {x : ℕ} {m : TmpfsInode}, s.inodes x = some m → x ≠ inode := by
    rintro x m hx rfl
    cases (h.fresh hinode).symm.trans hx
  obtain ⟨list, b, hdata, hlist⟩ := h.data.of_directory htype
  obtain ⟨list', hpush⟩ := hlist.exists_vpaPush grow entry
  obtain ⟨t, ht⟩ := h.tail
  obtain ⟨t', ht'⟩ := exists_tail d.inode { n with data := .direntries list' } ht
  exact ⟨_, tmpfsCreate_of_push h.parent_eq h.parent_ne h.entry_eq h.entry_ne h.entry_ne_parent
    h.inode_eq h.inode_ne htype hdata hpush hinode (hold h.inode_eq) ht' h.tail_ne (hold ht)⟩

/-- What a creation has done, whatever it was: without memory it says that all
is well, in what is no directory it keeps the inode, and otherwise it has not
failed. -/
theorem tmpfsCreate_failsCleanly_iff (h : CreateCall s parent entry inode d e n) :
    FailsCleanly s parent (tmpfsCreate type data inode grow s parent entry .ok) ↔
      inode ≠ 0 ∧ n.inodeType = .directory := by
  by_cases hinode : inode = 0
  · subst hinode
    rw [tmpfsCreate_noMemory h]
    constructor
    · rintro ⟨hnull, -⟩
      exact absurd rfl (hnull.mp rfl)
    · rintro ⟨hne, -⟩
      exact absurd rfl hne
  by_cases htype : n.inodeType = .directory
  · obtain ⟨s', hs'⟩ : ∃ s', tmpfsCreate type data inode grow s parent entry .ok =
        .ok (s', inode, .ok) := tmpfsCreate_directory h hinode htype
    rw [hs']
    exact ⟨fun _ => ⟨hinode, htype⟩, fun _ =>
      ⟨⟨fun h0 => absurd h0 hinode, fun hok => absurd rfl hok⟩, fun h0 => absurd h0 hinode⟩⟩
  · rw [tmpfsCreate_notDir h hinode htype]
    constructor
    · rintro ⟨-, hundone⟩
      have hnone := ((hundone rfl).inodes inode).mpr (h.fresh hinode)
      cases (Vfs.putInode_self ..).symm.trans hnone
    · rintro ⟨-, hdir⟩
      exact absurd hdir htype

/-- Opening does what it should just when there is memory for the handle. -/
theorem tmpfsOpenFile_failsCleanly_iff {file i : ℕ} (hi : i ≠ 0) (hn : s.inodes i = some n) :
    FailsCleanly s p (tmpfsOpenFile file s i .ok) ↔ file ≠ 0 := by
  unfold tmpfsOpenFile
  by_cases hfile : file = 0
  · rw [if_pos hfile]
    constructor
    · rintro ⟨hnull, -⟩
      exact absurd rfl (hnull.mp rfl)
    · intro hne
      exact absurd hfile hne
  · have hfetch : s.inode i = .ok n := Vfs.fetch_eq hi hn
    rw [if_neg hfile, hfetch, Exec.ok_bind]
    exact ⟨fun _ => hfile, fun _ =>
      ⟨⟨fun h0 => absurd h0 hfile, fun hok => absurd rfl hok⟩, fun h0 => absurd h0 hfile⟩⟩

/-! ### In a tree

In a tree that has been made by allowed calls, the state of the directory
before the call is known, and what a failed call has left behind can be
compared with it. -/

/-- **When a call that fails reports it and undoes itself.**  A creation does
so just when there is memory for the inode and the parent is a directory, that
is, when it does not fail; and opening a file just when there is memory for
the handle. -/
theorem creation_exact (h : TreeInv root s) (hp : s.dentries parent = some d)
    (he : s.dentries entry = none) (he0 : entry ≠ 0) (hfresh : inode ≠ 0 → s.inodes inode = none)
    (name : Qstr) (garbage : ℕ) (grow : Option (Block ℕ)) (handle : ℕ) :
    let s' := createDirentry entry name parent garbage s
    (∀ mem, FailsCleanly s' parent (tmpfsCreateDir mem inode grow s' parent entry .ok) ↔
      inode ≠ 0 ∧ s.IsDirectory parent) ∧
    (∀ mem, FailsCleanly s' parent (tmpfsCreateFile mem inode grow s' parent entry .ok) ↔
      inode ≠ 0 ∧ s.IsDirectory parent) ∧
    ∀ i, s.inodes i ≠ none →
      (FailsCleanly s parent (tmpfsOpenFile handle s i .ok) ↔ handle ≠ 0) := by
  obtain ⟨n, hn, hcall⟩ := h.createCall hp he he0 name garbage hfresh
  have hdir : n.inodeType = .directory ↔ s.IsDirectory parent := by
    constructor
    · intro htype
      exact ⟨d, n.direntry, n.data, hp, htype ▸ Vfs.shape_of_inode hn⟩
    · rintro ⟨d', q, data, hd', hshape⟩
      obtain rfl := Option.some.inj (hp.symm.trans hd')
      rw [Vfs.shape_of_inode hn, Option.some.injEq, Prod.mk.injEq] at hshape
      exact hshape.1
  refine ⟨fun mem => ?_, fun mem => ?_, fun i hi => ?_⟩
  · rw [← hdir]
    exact tmpfsCreate_failsCleanly_iff hcall
  · rw [← hdir]
    exact tmpfsCreate_failsCleanly_iff hcall
  · obtain ⟨m, hm⟩ := Option.ne_none_iff_exists'.mp hi
    have hi0 : i ≠ 0 := by
      rintro rfl
      exact hi h.inodes_null
    exact tmpfsOpenFile_failsCleanly_iff hi0 hm

/-- With memory, a file or a directory made in the root is reported as made. -/
theorem creation_exact_in_root :
    FailsCleanly (createDirentry 3 ⟨[97, 0], 1, 0⟩ 1 0 loneRoot) 1
      (tmpfsCreateFile none 4 none (createDirentry 3 ⟨[97, 0], 1, 0⟩ 1 0 loneRoot) 1 3 .ok) :=
  ((creation_exact loneRoot_treeInv.1 rfl rfl (Nat.succ_ne_zero 2) (fun _ => rfl) ⟨[97, 0], 1, 0⟩ 0
    none 0).2.1 none).mpr ⟨Nat.succ_ne_zero 3, _, _, _, rfl, rfl⟩

/-- **Failures that are not reported, or not undone**: `tmpfs_create_file`,
`tmpfs_create_dir` and `tmpfs_open_file` return null without memory and leave
the error as it was; and a file made below a file leaves its inode behind. -/
theorem failures_not_clean :
    (∀ s, s = createDirentry 3 ⟨[97, 0], 1, 0⟩ 1 0 loneRoot →
      ¬FailsCleanly s 1 (tmpfsCreateFile none 0 none s 1 3 .ok) ∧
      ¬FailsCleanly s 1 (tmpfsCreateDir none 0 none s 1 3 .ok)) ∧
    ¬FailsCleanly loneRoot 1 (tmpfsOpenFile 0 loneRoot 2 .ok) ∧
    ∃ s, (oneFile [97]).run loneRoot = .ok s ∧
      ¬FailsCleanly (createDirentry 5 ⟨[98, 0], 1, 0⟩ 3 0 s) 3
        (tmpfsCreateFile none 6 none (createDirentry 5 ⟨[98, 0], 1, 0⟩ 3 0 s) 3 5 .ok) := by
  refine ⟨?_, fun h => h.1.mp rfl rfl, _, rfl, fun h => ?_⟩
  · rintro s rfl
    exact ⟨fun h => h.1.mp rfl rfl, fun h => h.1.mp rfl rfl⟩
  · cases ((h.2 rfl).inodes 6).mpr rfl

end CourseOs.Fs
