import CourseOs.Fs.TmpfsTree
import Mathlib.Data.List.Nodup

/-!
# Runs of the file system

`Represents root s t` says that the state `s` is the `FileTree` `t`: its paths
are the walks along names from the root, and behind each file's entry is the
file of the tree, with its bytes and its handles.  There is one step lemma for
each call:

* `Represents.created` — a new entry is a leaf of the tree;
* `Represents.fileOp` — a call on a file is one on the file of the tree, and
  leaves the others alone (`FileFrame`);
* `Represents.lookup` — a lookup finds the entry that has the path, and leaves
  the tree as it is; what it writes, the hash in the name of the root, is no
  part of it (`RootFrame`).

`fsCall_step` puts them together, and `tmpfs_is_tree` is the run.  The result
is a refinement with a specification that is a relation (`Calls.refined`):
what an allowed call returns and does is among what `FsCall.Spec` allows, from
a new root to the end of the run.

That the state of the model represents a tree also says that there is one:
every tree of files that is represented is well formed
(`Represents.wellFormed`), with different paths for different entries and each
handle open on one file.
-/

namespace CourseOs.Fs

variable {root i d fp p q : ℕ} {s s' : Vfs} {A : SharedFile ℕ UInt8} {cs : List (List UInt8)}
  {t : Tree}

/-- The state is the tree of files: paths are walks along names, every entry
has one, a file's entry has the file of the tree behind it, and every handle
is open on such a file. -/
structure Represents (root : ℕ) (s : Vfs) (t : Tree) : Prop where
  inv : TreeInv root s
  files_null : s.files 0 = none
  along : t.Along (Named s) root
  reached : ∀ p e, s.dentries p = some e → ∃ cs, t.path p = some cs
  file : ∀ p A, t.file p = some A → ∃ e, s.dentries p = some e ∧ Agrees e.inode p s A
  isFile : ∀ p, s.IsFile p → ∃ A, t.file p = some A
  handle : ∀ fp f, s.files fp = some f → ∃ A, t.file f.dentry = some A

/-! ### Files and names

What the representation says of single entries: who has a name, what is a file
and what a directory, and that a file left alone still agrees with its
reference. -/

theorem TreeInv.named_unique (h : TreeInv root s) (p : ℕ) (c : List UInt8) (q q' : ℕ)
    (hq : Named s p c q) (hq' : Named s p c q') : q = q' :=
  List.inj_on_of_nodup_map (h.nodup p) hq.1 hq'.1 (hq.2.trans hq'.2.symm)

theorem Named.dentry (hq : Named s p c q) (h : TreeInv root s) : ∃ e, s.dentries q = some e := by
  obtain ⟨e, he, -⟩ := h.child p q hq.1
  exact ⟨e, he⟩

/-- What a file is, by its shape. -/
theorem Agrees.shape (h : Agrees i d s A) :
    ∃ type b, s.shape i = some (type, d, .filedata (s.fileList i)) ∧ (s.fileList i).In b := by
  obtain ⟨n, hn, hdata, hentry⟩ := h.inode
  obtain ⟨b, hb⟩ := h.block
  refine ⟨n.inodeType, b, ?_, hb⟩
  rw [Vfs.shape_of_inode hn, hentry, hdata]

theorem fileList_of_shape {type : InodeType} {list : U8ArrayList}
    (hs : s.shape i = some (type, d, .filedata list)) : s.fileList i = list := by
  obtain ⟨n, hn, heq⟩ := Vfs.inode_of_shape hs
  rw [Prod.mk.injEq, Prod.mk.injEq] at heq
  exact Vfs.fileList_eq hn heq.2.2

theorem Agrees.of_shape {type : InodeType} {list : U8ArrayList} {b : Block UInt8} {e : DirEntry}
    (hs : s.shape i = some (type, d, .filedata list)) (hi : i ≠ 0) (hd : d ≠ 0) (hb : list.In b)
    (he : s.dentries d = some e) (hei : e.inode = i) (hnull : s.files 0 = none)
    (hcontents : list.contents = A.contents) (hposition : s.handlePosition d = A.position)
    (hbounded : A.Bounded) : Agrees i d s A := by
  have hlist := fileList_of_shape hs
  obtain ⟨n, hn, heq⟩ := Vfs.inode_of_shape hs
  rw [Prod.mk.injEq, Prod.mk.injEq] at heq
  rw [← hlist] at hb hcontents heq
  exact ⟨⟨hi, hd, ⟨n, hn, heq.2.2, heq.2.1⟩, ⟨e, he, hei⟩, ⟨b, hb⟩, hnull⟩, hcontents, hposition,
    hbounded⟩

/-- A file that is left alone still agrees with its reference: it has its
inode and its handles. -/
theorem Agrees.transfer (h : Agrees i d s A) (hshape : s'.shape i = s.shape i) {e : DirEntry}
    (he : s'.dentries d = some e) (hei : e.inode = i)
    (hposition : s'.handlePosition d = s.handlePosition d) (hnull : s'.files 0 = none) :
    Agrees i d s' A := by
  obtain ⟨type, b, hs, hb⟩ := h.shape
  exact .of_shape (hshape.trans hs) h.inode_ne h.entry_ne hb he hei hnull h.contents
    (hposition.trans h.position) h.bounded

namespace Represents

theorem root_dentry (h : Represents root s t) : ∃ e, s.dentries root = some e := by
  obtain ⟨e, he, -⟩ := h.inv.head
  exact ⟨e, he⟩

theorem path_dentry (h : Represents root s t) (hp : t.path p = some cs) :
    ∃ e, s.dentries p = some e := by
  rcases ((h.along p cs).mp hp).eq_or_step with rfl | ⟨q, c, hstep⟩
  · exact h.root_dentry
  · exact hstep.dentry h.inv

theorem path_ne_null (h : Represents root s t) (hp : t.path p = some cs) : p ≠ 0 := by
  obtain ⟨e, he⟩ := h.path_dentry hp
  exact h.inv.entry_ne_null he

/-- A directory is no file. -/
theorem file_of_children (h : Represents root s t) (hq : q ∈ s.children p) : t.file p = none := by
  refine Option.eq_none_iff_forall_ne_some.mpr fun A hA => ?_
  obtain ⟨e, he, hagree⟩ := h.file p A hA
  obtain ⟨type, b, hs, -⟩ := hagree.shape
  rw [Vfs.children_eq he hs] at hq
  cases hq

theorem file_of_isDirectory (h : Represents root s t) (hp : s.IsDirectory p) :
    t.file p = none := by
  refine Option.eq_none_iff_forall_ne_some.mpr fun A hA => ?_
  obtain ⟨e, he, hagree⟩ := h.file p A hA
  obtain ⟨type, b, hs, -⟩ := hagree.shape
  obtain ⟨e', q, data, he', hs'⟩ := hp
  obtain rfl := Option.some.inj (he.symm.trans he')
  obtain ⟨type', data', hs'', hmatch⟩ := h.inv.inode p e he
  cases hs'.symm.trans hs''
  cases hs.symm.trans hs'
  cases hmatch

/-- **The tree is one.** -/
theorem wellFormed (h : Represents root s t) : t.WellFormed where
  injective p q cs hp hq :=
    ((h.along p cs).mp hp).unique h.inv.named_unique ((h.along q cs).mp hq)
  parent p cs c hp := by
    obtain ⟨q, hwalk, hstep⟩ := Walk.concat_iff.mp ((h.along p _).mp hp)
    exact ⟨q, (h.along q cs).mpr hwalk, h.file_of_children hstep.1⟩
  entry p A hA := by
    obtain ⟨e, he, -⟩ := h.file p A hA
    exact h.reached p e he
  bounded p A hA := by
    obtain ⟨e, -, hagree⟩ := h.file p A hA
    exact hagree.bounded
  handle p q A B fp hA hB hp hq := by
    obtain ⟨e, -, hagree⟩ := h.file p A hA
    obtain ⟨e', -, hagree'⟩ := h.file q B hB
    obtain ⟨n, hn⟩ := Option.isSome_iff_exists.mp hp
    obtain ⟨m, hm⟩ := Option.isSome_iff_exists.mp hq
    rw [← hagree.position] at hn
    rw [← hagree'.position] at hm
    obtain ⟨f, hf, rfl, -⟩ := Vfs.handlePosition_eq_some.mp hn
    obtain ⟨f', hf', rfl, -⟩ := Vfs.handlePosition_eq_some.mp hm
    rw [Option.some.inj (hf.symm.trans hf')]

end Represents

/-! ### Creation

The new entry is a leaf: it has no children, and its path is that of its
parent and its own name.  All other entries keep their paths and their files. -/

section Creation

variable {new : NewEntry} {type : InodeType} {data : InodeData} {list list' : VPArrayList}
  {e : DirEntry} {file : Option (SharedFile ℕ UInt8)}

/-- What is behind a new entry: nothing in a directory, or an empty file
without handles. -/
inductive NewData : InodeData → Option (SharedFile ℕ UInt8) → Prop
  | directory (list : VPArrayList) : NewData (.direntries list) none
  | file {list : U8ArrayList} {b : Block UInt8} (hb : list.In b) (hempty : list.contents = []) :
      NewData (.filedata list) (some ⟨[], fun _ => none⟩)

/-- The names in the tree after a create: those there were, and the one of the
new entry. -/
theorem Created.named_iff (h : Created new type data s s' e list list') (hinv : TreeInv root s)
    (hnew : new.Allowed s) (hempty : data.entries = []) (x : ℕ) (c : List UInt8) (y : ℕ) :
    Named s' x c y ↔ Named s x c y ∨ x = new.parent ∧ c = new.name ∧ y = new.entry := by
  have hfresh : ∀ z, new.entry ∉ s.children z := by
    intro z hz
    obtain ⟨e', he', -⟩ := hinv.child z _ hz
    cases hnew.entry_fresh.symm.trans he'
  unfold Named
  rw [h.children hinv hnew hempty, h.nameOf]
  by_cases hy : y = new.entry
  · subst hy
    rw [Function.update_self]
    constructor
    · rintro ⟨hmem, rfl⟩
      refine .inr ⟨?_, rfl, rfl⟩
      by_contra hx
      rw [Function.update_of_ne hx] at hmem
      by_cases hxe : x = new.entry
      · rw [hxe, Function.update_self] at hmem
        cases hmem
      · rw [Function.update_of_ne hxe] at hmem
        exact hfresh x hmem
    · rintro (⟨hmem, -⟩ | ⟨rfl, rfl, -⟩)
      · exact absurd hmem (hfresh x)
      · rw [Function.update_self]
        exact ⟨List.mem_append_right _ (List.mem_singleton_self _), rfl⟩
  · rw [Function.update_of_ne hy]
    have hsame : y ∈ Function.update (Function.update s.children new.entry []) new.parent
        (s.children new.parent ++ [new.entry]) x ↔ y ∈ s.children x := by
      by_cases hx : x = new.parent
      · subst hx
        rw [Function.update_self, List.mem_append, List.mem_singleton]
        exact or_iff_left hy
      · rw [Function.update_of_ne hx]
        by_cases hxe : x = new.entry
        · rw [hxe, Function.update_self, Vfs.children_of_none hnew.entry_fresh]
        · rw [Function.update_of_ne hxe]
    rw [hsame]
    exact (or_iff_left fun hnew' => hy hnew'.2.2).symm

/-- **A new entry** is one of the tree, with nothing behind it if it is a
directory, and with an empty file if it is one. -/
theorem Represents.created (h : Represents root s t) (hnew : new.Allowed s)
    (hcreated : Created new type data s s' e list list') (hmatch : data.Matches type)
    (hdata : NewData data file) (hempty : data.entries = []) :
    Represents root s' (t.add new.parent new.entry new.name file) := by
  have hinv := hcreated.treeInv h.inv hnew hempty hmatch
  have hparent : new.parent ≠ new.entry := by
    intro heq
    have hd := hcreated.parent
    rw [heq, hnew.entry_fresh] at hd
    cases hd
  have hroot : root ≠ new.entry := by
    rintro rfl
    obtain ⟨e', he'⟩ := h.root_dentry
    cases hnew.entry_fresh.symm.trans he'
  have hinode : e.inode ≠ new.inode := by
    intro heq
    have hs := hcreated.shape_parent
    rw [heq, Vfs.shape_eq_none.mpr hnew.inode_fresh] at hs
    cases hs
  have hnew' : s'.dentries new.entry =
      some ⟨new.inode, qstrFromNullTerminatedString new.name, new.parent⟩ := by
    rw [hcreated.dentries, Function.update_self]
  have hshape' : s'.shape new.inode = some (type, new.entry, data) := by
    rw [hcreated.shape, Function.update_of_ne hinode.symm, Function.update_self]
  have hnull : s'.files 0 = none := by
    rw [hcreated.files, h.files_null]
  have hpositions : ∀ d, s'.handlePosition d = s.handlePosition d := by
    intro d
    funext x
    unfold Vfs.handlePosition
    rw [hcreated.files]
  refine ⟨hinv, hnull, ?_, ?_, ?_, ?_, ?_⟩
  · refine h.along.add (hcreated.named_iff h.inv hnew hempty) (fun x c hx => ?_) (fun c y hy => ?_)
      hparent hroot file
    · obtain ⟨e', he'⟩ := hx.dentry h.inv
      cases hnew.entry_fresh.symm.trans he'
    · have hmem := hy.1
      rw [Vfs.children_of_none hnew.entry_fresh] at hmem
      cases hmem
  · intro p e' he'
    show ∃ cs, Function.update t.path new.entry _ p = some cs
    rcases hcreated.dentry_cases he' with ⟨rfl, -⟩ | ⟨hp, he'⟩
    · obtain ⟨cs, hcs⟩ := h.reached _ e hcreated.parent
      rw [Function.update_self, hcs]
      exact ⟨cs ++ [new.name], rfl⟩
    · rw [Function.update_of_ne hp]
      exact h.reached p e' he'
  · intro p A hA
    change Function.update t.file new.entry file p = some A at hA
    by_cases hp : p = new.entry
    · subst hp
      rw [Function.update_self] at hA
      subst hA
      cases hdata with
      | file hb hcontents =>
          refine ⟨_, hnew', .of_shape hshape' hnew.inode_ne hnew.entry_ne hb hnew' rfl hnull
            hcontents ?_ nofun⟩
          -- no handle was open on an entry that was not there
          rw [hpositions]
          funext fp
          refine Option.eq_none_iff_forall_ne_some.mpr fun n hn => ?_
          obtain ⟨f, hf, hentry, -⟩ := Vfs.handlePosition_eq_some.mp hn
          obtain ⟨B, hB⟩ := h.handle fp f hf
          obtain ⟨e', he', -⟩ := h.file _ B hB
          rw [hentry, hnew.entry_fresh] at he'
          cases he'
    · rw [Function.update_of_ne hp] at hA
      obtain ⟨e', he', hagree⟩ := h.file p A hA
      refine ⟨e', hcreated.dentry_of_old hnew he', hagree.transfer ?_
        (hcreated.dentry_of_old hnew he') rfl (hpositions p) hnull⟩
      obtain ⟨type', b, hs, -⟩ := hagree.shape
      rw [hcreated.shape, Function.update_of_ne, Function.update_of_ne]
      · intro heq
        rw [heq, Vfs.shape_eq_none.mpr hnew.inode_fresh] at hs
        cases hs
      · intro heq
        cases (heq ▸ hs).symm.trans hcreated.shape_parent
  · intro p hp
    show ∃ A, Function.update t.file new.entry file p = some A
    obtain ⟨e', q, l, he', hs⟩ := hp
    rcases hcreated.dentry_cases he' with ⟨rfl, rfl⟩ | ⟨hp, he'⟩
    · rw [Function.update_self]
      cases hshape'.symm.trans hs
      cases hdata with
      | file hb hcontents => exact ⟨_, rfl⟩
    · rw [Function.update_of_ne hp]
      refine h.isFile p ⟨e', q, l, he', ?_⟩
      rw [hcreated.shape] at hs
      by_cases hi : e'.inode = e.inode
      · rw [hi, Function.update_self] at hs
        cases hs
      · rw [Function.update_of_ne hi] at hs
        by_cases hi' : e'.inode = new.inode
        · obtain ⟨type', data', hs', -⟩ := h.inv.inode p e' he'
          rw [hi', Vfs.shape_eq_none.mpr hnew.inode_fresh] at hs'
          cases hs'
        · rwa [Function.update_of_ne hi'] at hs
  · intro fp f hf
    show ∃ A, Function.update t.file new.entry file f.dentry = some A
    rw [hcreated.files] at hf
    obtain ⟨A, hA⟩ := h.handle fp f hf
    have hne : f.dentry ≠ new.entry := by
      intro heq
      obtain ⟨e', he', -⟩ := h.file _ A hA
      rw [heq, hnew.entry_fresh] at he'
      cases he'
    rw [Function.update_of_ne hne]
    exact ⟨A, hA⟩

end Creation

/-! ### Files

A call on a file touches its inode and its handles, and these belong to no
other file. -/

namespace FileFrame

theorem shape_of_ne (h : FileFrame i d s s') {j : ℕ} (hj : j ≠ i) : s'.shape j = s.shape j := by
  unfold Vfs.shape
  rw [h.inodes j hj]

/-- The inode is a file's, before and after. -/
theorem shape (h : FileFrame i d s s') : ∃ type q list list',
    s.shape i = some (type, q, .filedata list) ∧ s'.shape i = some (type, q, .filedata list') := by
  obtain ⟨n, n', list, list', hn, hn', hdata, hdata', htype, hentry⟩ := h.inode
  refine ⟨n.inodeType, n.direntry, list, list', ?_, ?_⟩
  · rw [Vfs.shape_of_inode hn, hdata]
  · rw [Vfs.shape_of_inode hn', htype, hentry, hdata']

theorem children (h : FileFrame i d s s') : s'.children = s.children := by
  funext p
  obtain ⟨type, q, list, list', hs, hs'⟩ := h.shape
  unfold Vfs.children
  rw [h.dentries]
  cases s.dentries p with
  | none => rfl
  | some e =>
      dsimp only
      by_cases he : e.inode = i
      · rw [he, hs, hs']
        rfl
      · rw [h.shape_of_ne he]

theorem nameOf (h : FileFrame i d s s') : s'.nameOf = s.nameOf := by
  unfold Vfs.nameOf
  rw [h.dentries]

/-- A call on a file leaves the tree: of the entries and inodes only the list
of one file is another. -/
theorem treeInv (h : FileFrame i d s s') (hinv : TreeInv root s) : TreeInv root s' := by
  obtain ⟨type, q, list, list', hs, hs'⟩ := h.shape
  refine ⟨?_, ?_, ?_, ?_, ?_, ?_, ?_, ?_⟩
  · rw [h.dentries, hinv.dentries_null]
  · have hne : 0 ≠ i := by
      rintro rfl
      rw [Vfs.shape_eq_none.mpr hinv.inodes_null] at hs
      cases hs
    rw [h.inodes 0 hne, hinv.inodes_null]
  · obtain ⟨n, hn⟩ := hinv.tail
    rw [h.tail]
    by_cases heq : s.tail = i
    · obtain ⟨-, n', -, -, -, hn', -⟩ := h.inode
      exact ⟨n', heq ▸ hn'⟩
    · exact ⟨n, (h.inodes _ heq).trans hn⟩
  · rw [h.dentries, h.head]
    exact hinv.head
  · intro p e he
    rw [h.dentries] at he
    obtain ⟨type', data, hp, hmatch⟩ := hinv.inode p e he
    by_cases hi : e.inode = i
    · rw [hi, hs] at hp
      cases hp
      exact ⟨type, .filedata list', hi ▸ hs', hmatch⟩
    · exact ⟨type', data, (h.shape_of_ne hi).trans hp, hmatch⟩
  · rw [h.dentries]
    exact hinv.name
  · rw [h.children, h.dentries]
    exact hinv.child
  · rw [h.children, h.nameOf]
    exact hinv.nodup

end FileFrame

/-- **A call on a file** is one on the file of the tree: it returns what the
reference returns, and the tree has that file changed and no other. -/
theorem Represents.fileOp (h : Represents root s t) {e : DirEntry} (he : s.dentries p = some e)
    (hA : t.file p = some A) {op : FileOp} (hop : op.Allowed e.inode p s)
    (hfits : op.Fits e.inode p s) :
    ∃ s', op.run e.inode s = .ok (s', (op.reference A).2) ∧
      Represents root s' (t.setFile p (op.reference A).1) := by
  obtain ⟨e', he', hagree⟩ := h.file p A hA
  obtain rfl := Option.some.inj (he.symm.trans he')
  obtain ⟨s', hrun, hagree'⟩ := (faithful_iff_fits hagree hop).mpr hfits
  have hframe := hagree.fileAt.frame hop hrun
  have hnamed : Named s' = Named s := by
    unfold Named
    rw [hframe.children, hframe.nameOf]
  have hset : ∀ q, q ≠ p → (t.setFile p (op.reference A).1).file q = t.file q :=
    fun q hq => Function.update_of_ne hq _ _
  have hself : (t.setFile p (op.reference A).1).file p = some (op.reference A).1 :=
    Function.update_self ..
  have hsome : ∀ q, (∃ B, t.file q = some B) →
      ∃ B, (t.setFile p (op.reference A).1).file q = some B := by
    rintro q ⟨B, hB⟩
    by_cases hq : q = p
    · rw [hq]
      exact ⟨_, hself⟩
    · exact ⟨B, (hset q hq).trans hB⟩
  refine ⟨s', hrun, hframe.treeInv h.inv, hagree'.files_null, ?_, ?_, ?_, ?_, ?_⟩
  · rw [hnamed]
    exact h.along
  · intro q e' hq
    rw [hframe.dentries] at hq
    exact h.reached q e' hq
  · intro q B hB
    by_cases hq : q = p
    · subst hq
      obtain rfl := Option.some.inj (hself.symm.trans hB)
      exact ⟨e, hframe.dentries ▸ he, hagree'⟩
    · rw [hset q hq] at hB
      obtain ⟨e', he', hother⟩ := h.file q B hB
      have hi : e'.inode ≠ e.inode := fun heq => hq (h.inv.inode_inj he' he heq)
      exact ⟨e', hframe.dentries ▸ he', hother.transfer (hframe.shape_of_ne hi)
        (hframe.dentries ▸ he') rfl (hframe.positions q hq) hagree'.files_null⟩
  · rintro q ⟨e', x, list, hq, hs⟩
    refine hsome q ?_
    by_cases hqp : q = p
    · exact ⟨A, hqp ▸ hA⟩
    · rw [hframe.dentries] at hq
      have hi : e'.inode ≠ e.inode := fun heq => hqp (h.inv.inode_inj hq he heq)
      rw [hframe.shape_of_ne hi] at hs
      exact h.isFile q ⟨e', x, list, hq, hs⟩
  · intro fp f hf
    refine hsome f.dentry ?_
    rcases hframe.files fp f hf with hf | hf
    · exact h.handle fp f hf
    · exact ⟨A, hf ▸ hA⟩

/-! ### Lookups

A lookup writes to the tree, if only the hashes of names.  Everything that the
representation is about is the same before and after. -/

section Lookup

variable {path : U8ArrayList} {r : ℕ} {err : Option VfsErr}

theorem Vfs.eq_of_fetch {α : Type} {store : ℕ → Option α} {a : α} (h : fetch store p = .ok a) :
    store p = some a := by
  unfold fetch at h
  split at h
  · cases h
  · cases hp : store p with
    | none =>
        rw [hp] at h
        cases h
    | some b =>
        rw [hp] at h
        rw [Except.ok.inj h]

/-- A search for the root changes nothing but stored hashes: inodes and files
stay, and each entry keeps its inode. -/
structure RootFrame (s s' : Vfs) : Prop where
  inodes : s'.inodes = s.inodes
  files : s'.files = s.files
  entry : ∀ q, (s'.dentries q).map DirEntry.inode = (s.dentries q).map DirEntry.inode

/-- The search for the root changes nothing but the hashes of the names it
compares. -/
theorem RootFrame.of_loop {fuel curr : ℕ} (hrun : vfsGetRootLoop fuel s curr = .ok (s', r)) :
    RootFrame s s' := by
  induction fuel generalizing s curr with
  | zero => cases hrun
  | succ fuel ih =>
      obtain ⟨n, -, hrun⟩ := Exec.bind_eq_ok.mp hrun
      obtain ⟨e, he, hrun⟩ := Exec.bind_eq_ok.mp hrun
      obtain ⟨⟨equal, name⟩, -, hrun⟩ := Exec.bind_eq_ok.mp hrun
      have hput : RootFrame s (s.putDentry n.direntry { e with name }) := by
        refine ⟨rfl, rfl, fun q => ?_⟩
        by_cases hq : q = n.direntry
        · subst hq
          rw [Vfs.putDentry_self, show s.dentries n.direntry = some e from Vfs.eq_of_fetch he]
          rfl
        · rw [Vfs.putDentry_of_ne _ hq]
      dsimp only at hrun
      split at hrun
      · cases hrun
        exact hput
      · split at hrun
        · cases hrun
          exact hput
        · have hrest := ih hrun
          exact ⟨hrest.inodes.trans hput.inodes, hrest.files.trans hput.files,
            fun q => (hrest.entry q).trans (hput.entry q)⟩

theorem RootFrame.of_lookup (hrun : pathGetDirentry s path err = .ok (s', r)) :
    RootFrame s s' := by
  obtain ⟨array, -, hrun⟩ := Exec.bind_eq_ok.mp hrun
  obtain ⟨absolute, -, hrun⟩ := Exec.bind_eq_ok.mp hrun
  cases absolute with
  | false => cases hrun
  | true =>
      rw [if_pos rfl] at hrun
      obtain ⟨⟨s₁, root⟩, hroot, hrun⟩ := Exec.bind_eq_ok.mp hrun
      have hframe := RootFrame.of_loop hroot
      cases err with
      | none => cases hrun
      | some err =>
          obtain ⟨data, -, hrun⟩ := Exec.bind_eq_ok.mp hrun
          split at hrun
          · cases hrun
            exact hframe
          · obtain ⟨entry, -, hrun⟩ := Exec.bind_eq_ok.mp hrun
            cases hrun
            exact hframe

namespace RootFrame

theorem dentry (h : RootFrame s s') {e : DirEntry} (he : s.dentries q = some e) :
    ∃ e', s'.dentries q = some e' ∧ e'.inode = e.inode := by
  have hq := h.entry q
  rw [he] at hq
  exact Option.map_eq_some_iff.mp hq

theorem symm (h : RootFrame s s') : RootFrame s' s :=
  ⟨h.inodes.symm, h.files.symm, fun q => (h.entry q).symm⟩

theorem shape (h : RootFrame s s') : s'.shape = s.shape := by
  unfold Vfs.shape
  rw [h.inodes]

theorem positions (h : RootFrame s s') (d : ℕ) : s'.handlePosition d = s.handlePosition d := by
  funext x
  unfold Vfs.handlePosition
  rw [h.files]

/-- The tree of files is the same. -/
theorem represents (hframe : RootFrame s s') (h : Represents root s t) (hinv : TreeInv root s')
    (hnamed : Named s' = Named s) : Represents root s' t := by
  have hnull : s'.files 0 = none := by
    rw [hframe.files, h.files_null]
  refine ⟨hinv, hnull, ?_, ?_, ?_, ?_, ?_⟩
  · rw [hnamed]
    exact h.along
  · intro p e' he'
    obtain ⟨e, he, -⟩ := hframe.symm.dentry he'
    exact h.reached p e he
  · intro p A hA
    obtain ⟨e, he, hagree⟩ := h.file p A hA
    obtain ⟨e', he', hinode⟩ := hframe.dentry he
    refine ⟨e', he', ?_⟩
    rw [hinode]
    exact hagree.transfer (congrFun hframe.shape _) he' hinode (hframe.positions p) hnull
  · rintro p ⟨e', q, list, he', hs⟩
    obtain ⟨e, he, hinode⟩ := hframe.symm.dentry he'
    rw [hframe.shape, ← hinode] at hs
    exact h.isFile p ⟨e, q, list, he, hs⟩
  · rw [hframe.files]
    exact h.handle

end RootFrame

/-- **A lookup** finds the entry that has the path, or null where there is
none, and leaves the tree as it is. -/
theorem Represents.lookup (h : Represents root s t) (hcs : ∀ c ∈ cs, (47 : UInt8) ∉ c)
    (hpath : path.contents = pathBytes cs) (hfirst : FirstOnTheWay s root cs)
    (hclear : ∀ q, Stuck (FirstBeginning s) root cs q → ¬s.HoldsBytes q) :
    ∃ s' o, pathGetDirentry s path (some .ok) = .ok (s', o.getD 0) ∧ t.At cs o ∧ o ≠ some 0 ∧
      Represents root s' t := by
  obtain ⟨s', r, hinv, hchildren, hname, hlookup, hrun⟩ := pathGetDirentry_lookup h.inv hcs hpath
  obtain ⟨hne, hway⟩ := hfirst
  rw [if_neg hne] at hlookup
  have hnamed : Named s' = Named s := by
    unfold Named
    rw [hchildren, hname]
  have hrest : ∀ {p}, pathGetDirentry s path (some .ok) = .ok (s', p) → Represents root s' t :=
    fun hrun => (RootFrame.of_lookup hrun).represents h hinv hnamed
  rcases hlookup with ⟨q, hwalk, rfl⟩ | ⟨q, hstuck, hr, -⟩
  · rcases hway with ⟨q', hboth⟩ | ⟨-, hstop⟩
    · obtain rfl := hwalk.unique (firstBeginning_unique s) (hboth.mono fun _ _ _ => And.right)
      have hq : t.path q = some cs := (h.along q cs).mpr (hboth.mono fun _ _ _ => And.left)
      refine ⟨s', some q, hrun, hq, ?_, hrest hrun⟩
      rintro ⟨⟩
      exact h.path_ne_null hq rfl
    · exact absurd ⟨q, hwalk⟩ hstop
  · rw [hr (hclear q hstuck)] at hrun
    refine ⟨s', none, hrun, fun p hp => ?_, nofun, hrest hrun⟩
    rcases hway with ⟨q', hboth⟩ | ⟨hnone, -⟩
    · exact hstuck.not_walk (firstBeginning_unique s) (hboth.mono fun _ _ _ => And.right)
    · exact hnone ⟨p, (h.along p cs).mp hp⟩

end Lookup

/-! ### Runs

The simulation of single calls and, from it, of runs.  Whether a call is
allowed depends on the state in which it is made; the conditions under which
the source goes wrong are excluded here by name, and are treated elsewhere. -/

theorem FsCall.run_createDir {mem : Option (Block ℕ)} {new : NewEntry} {err : VfsErr}
    (hrun : tmpfsCreate .directory (.direntries (vpaCreate mem tmpfsDefaultDirAllocSize)) new.inode
      new.grow (createDirentry new.entry (qstrFromNullTerminatedString new.name) new.parent 0 s)
      new.parent new.entry .ok = .ok (s', i, err)) :
    (FsCall.createDir mem new).run s = .ok (s', .created i err) := by
  show (tmpfsCreate .directory _ _ _ _ _ _ _ >>= _) = _
  rw [hrun]
  rfl

theorem FsCall.run_createFile {mem : Option (Block UInt8)} {new : NewEntry} {err : VfsErr}
    (hrun : tmpfsCreate .file (.filedata (u8aCreate mem tmpfsDefaultFileAllocSize)) new.inode
      new.grow (createDirentry new.entry (qstrFromNullTerminatedString new.name) new.parent 0 s)
      new.parent new.entry .ok = .ok (s', i, err)) :
    (FsCall.createFile mem new).run s = .ok (s', .created i err) := by
  show (tmpfsCreate .file _ _ _ _ _ _ _ >>= _) = _
  rw [hrun]
  rfl

/-- What a new name is on the tree. -/
theorem Represents.newEntry (h : Represents root s t) {new : NewEntry} (hnew : new.Allowed s) :
    ∃ cs, t.path new.parent = some cs ∧ t.file new.parent = none ∧
      t.At (cs ++ [new.name]) none := by
  obtain ⟨e, q, data, he, hs⟩ := hnew.parent
  obtain ⟨cs, hcs⟩ := h.reached _ e he
  refine ⟨cs, hcs, h.file_of_isDirectory ⟨e, q, data, he, hs⟩, fun p hp => ?_⟩
  obtain ⟨x, hwalk, hstep⟩ := Walk.concat_iff.mp ((h.along p _).mp hp)
  obtain rfl := hwalk.unique h.inv.named_unique ((h.along _ cs).mp hcs)
  exact hnew.distinct p hstep.1 hstep.2

/-- **Each call** that is allowed returns, and is one on the tree.  A create
adds a node to it, a lookup finds what the tree says, and a call on a file is
one on the file of its node. -/
theorem fsCall_step (call : FsCall) (s : Vfs) (t : Tree) (h : Represents root s t)
    (hcall : call.Allowed root s) :
    ∃ s' out t', call.run s = .ok (s', out) ∧ Represents root s' t' ∧ call.Spec t out t' := by
  cases call with
  | createDir mem new =>
      obtain ⟨hnew, b, rfl, hroom, hsize⟩ := hcall
      obtain ⟨cs, hparent, hdir, hfree⟩ := h.newEntry hnew
      obtain ⟨s', e, list, list', hrun, hcreated⟩ := h.inv.created hnew .directory
        (.direntries (vpaCreate (some b) tmpfsDefaultDirAllocSize))
      refine ⟨s', _, _, FsCall.run_createDir hrun, h.created hnew hcreated ⟨rfl, b, ?_⟩
        (.directory _) rfl, .createDir hparent hdir hfree⟩
      exact ⟨rfl, show 0 < 4 by decide, hroom, hsize⟩
  | createFile mem new =>
      obtain ⟨hnew, b, rfl, hroom, hsize⟩ := hcall
      obtain ⟨cs, hparent, hdir, hfree⟩ := h.newEntry hnew
      obtain ⟨s', e, list, list', hrun, hcreated⟩ := h.inv.created hnew .file
        (.filedata (u8aCreate (some b) tmpfsDefaultFileAllocSize))
      have hb : (u8aCreate (some b) tmpfsDefaultFileAllocSize).In b :=
        ⟨rfl, show 0 < 16 by decide, Nat.zero_le _, hroom, hsize⟩
      exact ⟨s', _, _, FsCall.run_createFile hrun, h.created hnew hcreated rfl
        (.file hb rfl) rfl, .createFile hparent hdir hfree⟩
  | lookup path =>
      obtain ⟨cs, hcs, hpath, hfirst, hclear⟩ := hcall
      obtain ⟨s', o, hrun, hat, hne, h'⟩ := h.lookup hcs hpath hfirst hclear
      refine ⟨s', _, t, ?_, h', .lookup hcs hpath hat hne⟩
      show (pathGetDirentry s path (some .ok) >>= _) = _
      rw [hrun]
      rfl
  | file entry op =>
      obtain ⟨hfile, hop⟩ := hcall
      obtain ⟨A, hA⟩ := h.isFile entry hfile
      obtain ⟨e, he, -⟩ := h.file entry A hA
      obtain ⟨hallowed, hfits⟩ := hop e he
      obtain ⟨s', hrun, h'⟩ := h.fileOp he hA hallowed hfits
      refine ⟨s', _, _, ?_, h', .file hA⟩
      show (s.dentry entry >>= _) = _
      rw [show s.dentry entry = .ok e from Vfs.fetch_eq (h.inv.entry_ne_null he) he, Exec.ok_bind,
        hrun]
      rfl

/-- **A new root** is a tree of files with nothing in it.  Its list has the
memory that it asks for. -/
theorem represents_root (hnew : s.IsNew) {entry inode : ℕ} (hentry : entry ≠ 0)
    (hinode : inode ≠ 0) {b : Block ℕ}
    (hroom : sizeofVoidPointer * tmpfsDefaultDirAllocSize ≤ b.size) (hsize : b.size < 2 ^ 32) :
    Represents entry (createTmpfsRoot entry inode (some b) s) (.root entry) := by
  obtain ⟨hinv, -⟩ := createTmpfsRoot_treeInv hnew hentry hinode hroom hsize
  have hdentries := createTmpfsRoot_dentries hnew entry inode (some b)
  have hshape := createTmpfsRoot_shape hnew entry inode (some b)
  have hfiles : (createTmpfsRoot entry inode (some b) s).files = fun _ => none := hnew.files
  have honly : ∀ p e, (createTmpfsRoot entry inode (some b) s).dentries p = some e →
      p = entry ∧ e.inode = inode := by
    intro p e he
    rw [hdentries] at he
    split at he
    · cases he
      exact ⟨‹_›, rfl⟩
    · cases he
  refine ⟨hinv, congrFun hfiles 0, .root fun p c q hq => ?_, fun p e he => ?_, nofun,
    fun p hp => ?_, fun fp f hf => ?_⟩
  · obtain ⟨e, he⟩ := hq.dentry hinv
    obtain ⟨rfl, -⟩ := honly q e he
    exact hinv.root_notMem p hq.1
  · exact ⟨[], if_pos (honly p e he).1⟩
  · obtain ⟨e, q, list, he, hs⟩ := hp
    rw [(honly p e he).2, hshape, if_pos rfl] at hs
    cases hs
  · rw [hfiles] at hf
    cases hf

/-- **A file system is a tree of files.**  From a new root every run of
creations, of lookups and of calls on files that are allowed, in any order and
on any number of files and handles, returns from every call, and is one on the
tree of files, of which the state is a representation at the end.

`FsCall.Allowed` is what keeps a run away from the defects of the source.  A
new entry has a name that no other entry of its directory has, blocks of its
own, and memory for its lists.  A path that is looked up is absolute and has a
component; each entry it names comes before all others of its directory whose
names begin with the component, or it names nothing and its beginnings lead
nowhere (`FirstOnTheWay`); and the lookup does not take the bytes of a file
for entries.  A call on a file is made with one of its handles, and a write
ends at or behind the end of the file and has room (`FileOp.Fits`).  Otherwise
a lookup may find another entry with the same beginning, or run into a file's
bytes, and a write inside a file cuts the file off where it ends. -/
theorem tmpfs_is_tree {s₀ : Vfs} (hnew : s₀.IsNew) {entry inode : ℕ} (hentry : entry ≠ 0)
    (hinode : inode ≠ 0) {b : Block ℕ}
    (hroom : sizeofVoidPointer * tmpfsDefaultDirAllocSize ≤ b.size) (hsize : b.size < 2 ^ 32)
    {calls : List FsCall} (hcalls : Calls.Each FsCall.run (FsCall.Allowed entry) calls
      (createTmpfsRoot entry inode (some b) s₀)) :
    ∃ s outs t, Calls.run FsCall.run calls (createTmpfsRoot entry inode (some b) s₀) =
        .ok (s, outs) ∧
      Calls.Accepts FsCall.Spec calls (.root entry) outs t ∧ t.WellFormed ∧
      Represents entry s t := by
  obtain ⟨s, outs, t, hrun, h, haccepts⟩ := Calls.refined fsCall_step
    (represents_root hnew hentry hinode hroom hsize) hcalls
  exact ⟨s, outs, t, hrun, haccepts, h.wellFormed, h⟩

/-- The file `a` is made, found, opened and written. -/
def fileSession : List FsCall :=
  [.createFile (some ⟨16, fun _ => 0⟩) ⟨[97], 1, 3, 4, none⟩, .lookup slashA, .file 3 (.open 5),
    .file 3 (.write (some ⟨18, fun _ => 0⟩) 5 [1, 2])]

/-- Its run. -/
theorem tmpfs_is_tree_session : ∃ s outs t,
    Calls.run FsCall.run fileSession loneRoot = .ok (s, outs) ∧
      Calls.Accepts FsCall.Spec fileSession (.root 1) outs t ∧ t.WellFormed ∧ Represents 1 s t := by
  have hname : IsName [97] := ⟨nofun, by decide, by decide⟩
  have hcalls : Calls.Each FsCall.run (FsCall.Allowed 1) fileSession loneRoot := by
    refine ⟨⟨oneFile_allowed hname, _, rfl, by decide, by decide⟩, ?_⟩
    rintro s₁ out₁ ⟨⟩
    refine ⟨⟨[[97]], by decide, rfl, ⟨nofun, .inl ⟨3, ?_⟩⟩, fun q hstuck => ?_⟩, ?_⟩
    · exact .cons ⟨⟨List.mem_singleton.mpr rfl, rfl⟩, rfl⟩ (.nil 3)
    · refine absurd (.cons ?_ (.nil 3)) (hstuck.not_walk (firstBeginning_unique _))
      rfl
    rintro s₂ out₂ ⟨⟩
    refine ⟨⟨⟨_, _, _, rfl, rfl⟩, ?_⟩, ?_⟩
    · rintro e ⟨⟩
      exact ⟨rfl, trivial⟩
    rintro s₃ out₃ ⟨⟩
    refine ⟨⟨⟨_, _, _, rfl, rfl⟩, ?_⟩, fun _ _ _ => trivial⟩
    rintro e ⟨⟩
    refine ⟨⟨rfl, by decide, ?_⟩, by decide, .inr rfl⟩
    rintro b ⟨⟩
    exact ⟨by decide, by decide⟩
  exact tmpfs_is_tree ⟨rfl, rfl, rfl⟩ Nat.one_ne_zero (Nat.succ_ne_zero 1) (Nat.le_refl 16)
    (show 16 < 2 ^ 32 by decide) hcalls

end CourseOs.Fs
