import CourseOs.Fs.PathLookup

/-!
# Lookup through a file

`tmpfs_list_dir` gives the list of any inode, and nothing on the way of a
lookup asks for the inode's type: a file's bytes are taken for entries.  A
lookup whose path leads through a file keeps clear of its bytes only if the
file is empty, or if it never comes to the file, because an entry with a
longer name was found instead.

## Main definitions

* `Vfs.IsFile s p` — the entry is a regular file's.
* `Rewritten f list s t` — `t` is `s` with other contents in the file `f`.
* `NotFound s path` — the lookup gives null, and has taken no file's bytes for
  entries.

## Main results

* `notFound_iff` — the lookup gives null just when it is stuck, and not at a
  file that holds bytes.
* `notFound_rewritten_iff` — it gives null whatever the file `f` holds, just
  when it is stuck elsewhere.
* `file_in_path_exact` — both, and what follows for a path that leads through
  `f` by its own names.

What is in a file is no part of the tree (`Rewritten.treeInv`): the walk that
a lookup follows is the same for all contents, and only its last step, at a
file, depends on them.
-/

namespace CourseOs.Fs

variable {s t : Vfs} {root p q f : ℕ} {c : List UInt8} {cs : List (List UInt8)}
  {list : U8ArrayList} {path : U8ArrayList}

/-- The entry `p` is a regular file's, empty or not. -/
def Vfs.IsFile (s : Vfs) (p : ℕ) : Prop :=
  ∃ d q list, s.dentries p = some d ∧ s.shape d.inode = some (.file, q, .filedata list)

/-- `t` is `s` with other contents in the file `f`, and the same in all else. -/
def Rewritten (f : ℕ) (list : U8ArrayList) (s t : Vfs) : Prop :=
  ∃ d n, s.dentries f = some d ∧ s.inodes d.inode = some n ∧
    t = s.putInode d.inode { n with data := .filedata list }

/-! ### Other contents, the same tree

What is in a file is no part of the tree: names, parents and children stay,
whatever is written to it.  Only the lookup, which does not ask for the type,
can tell the difference. -/

theorem Vfs.IsFile.rewrite (hf : s.IsFile f) (list : U8ArrayList) :
    ∃ t, Rewritten f list s t := by
  obtain ⟨d, q, old, hd, hs⟩ := hf
  obtain ⟨n, hn, -⟩ := Vfs.inode_of_shape hs
  exact ⟨_, d, n, hd, hn, rfl⟩

namespace Rewritten

theorem dentries (h : Rewritten f list s t) : t.dentries = s.dentries := by
  obtain ⟨d, n, -, -, rfl⟩ := h
  rfl

theorem nameOf (h : Rewritten f list s t) : t.nameOf = s.nameOf := by
  unfold Vfs.nameOf
  rw [h.dentries]

/-- What is in an inode is as it was, but in the file's own. -/
theorem shape (h : Rewritten f list s t) (hf : s.IsFile f) :
    ∃ d q, s.dentries f = some d ∧ (∃ old, s.shape d.inode = some (.file, q, .filedata old)) ∧
      t.shape = Function.update s.shape d.inode (some (.file, q, .filedata list)) := by
  obtain ⟨d, n, hd, hn, rfl⟩ := h
  obtain ⟨d', q, old, hd', hs⟩ := hf
  obtain rfl := Option.some.inj (hd.symm.trans hd')
  obtain ⟨n', hn', heq⟩ := Vfs.inode_of_shape hs
  obtain rfl := Option.some.inj (hn.symm.trans hn')
  rw [Prod.mk.injEq, Prod.mk.injEq] at heq
  refine ⟨d, q, hd, ⟨old, hs⟩, ?_⟩
  rw [Vfs.shape_putInode]
  congr 1
  rw [heq.1, heq.2.1]

theorem shape_of_ne (h : Rewritten f list s t) (hinv : TreeInv root s) (hf : s.IsFile f)
    {d : DirEntry} (hd : s.dentries p = some d) (hp : p ≠ f) :
    t.shape d.inode = s.shape d.inode := by
  obtain ⟨e, q, he, -, hshape⟩ := h.shape hf
  rw [hshape]
  exact Function.update_of_ne (fun heq => hp (hinv.inode_inj hd he heq)) _ _

theorem children (h : Rewritten f list s t) (hinv : TreeInv root s) (hf : s.IsFile f) :
    t.children = s.children := by
  funext p
  by_cases hp : p = f
  · subst hp
    obtain ⟨d, q, hd, ⟨old, hs⟩, hshape⟩ := h.shape hf
    have hself : t.shape d.inode = some (.file, q, .filedata list) := by
      rw [hshape, Function.update_self]
    rw [Vfs.children_eq hd hs, Vfs.children_eq ((congrFun h.dentries p).trans hd) hself]
    rfl
  · unfold Vfs.children
    rw [h.dentries]
    cases hd : s.dentries p with
    | none => rfl
    | some d =>
        dsimp only
        rw [h.shape_of_ne hinv hf hd hp]

theorem firstBeginning (h : Rewritten f list s t) (hinv : TreeInv root s) (hf : s.IsFile f) :
    FirstBeginning t = FirstBeginning s := by
  unfold FirstBeginning
  rw [h.children hinv hf, h.nameOf]

/-- **Other contents leave the tree as it is**: what the invariant says of a
file does not depend on its bytes. -/
theorem treeInv (h : Rewritten f list s t) (hinv : TreeInv root s) (hf : s.IsFile f) :
    TreeInv root t := by
  have hchildren := h.children hinv hf
  obtain ⟨d, q, hd, ⟨old, hs⟩, hshape⟩ := h.shape hf
  obtain ⟨d', n, hd', hn, rfl⟩ := id h
  obtain rfl := Option.some.inj (hd.symm.trans hd')
  have hinodes : ∀ i, i ≠ d.inode →
      (s.putInode d.inode { n with data := .filedata list }).inodes i = s.inodes i :=
    fun i hi => Vfs.putInode_of_ne _ hi
  refine ⟨hinv.dentries_null, ?_, ?_, hinv.head, ?_, hinv.name, ?_, ?_⟩
  · rw [hinodes 0 (hinv.inode_ne_null hd).symm]
    exact hinv.inodes_null
  · obtain ⟨m, hm⟩ := hinv.tail
    by_cases heq : s.tail = d.inode
    · refine ⟨_, (congrArg _ heq).trans (Vfs.putInode_self s d.inode _)⟩
    · exact ⟨m, (hinodes _ heq).trans hm⟩
  · intro p e he
    obtain ⟨type, data, hp, hmatch⟩ := hinv.inode p e he
    by_cases hpf : p = f
    · subst hpf
      obtain rfl := Option.some.inj (hd.symm.trans he)
      rw [hs, Option.some.injEq, Prod.mk.injEq, Prod.mk.injEq] at hp
      refine ⟨.file, .filedata list, ?_, rfl⟩
      rw [hshape, Function.update_self, hp.2.1]
    · exact ⟨type, data, (h.shape_of_ne hinv hf he hpf).trans hp, hmatch⟩
  · intro p q hq
    rw [hchildren] at hq
    exact hinv.child p q hq
  · intro p
    rw [hchildren]
    exact hinv.nodup p

/-- Which entries hold bytes: those that did, but for the one that was
rewritten. -/
theorem holdsBytes_iff (h : Rewritten f list s t) (hinv : TreeInv root s) (hf : s.IsFile f) :
    t.HoldsBytes q ↔ if q = f then list.length ≠ 0 else s.HoldsBytes q := by
  by_cases hq : q = f
  · subst hq
    obtain ⟨d, p, hd, -, hshape⟩ := h.shape hf
    have hself : t.shape d.inode = some (.file, p, .filedata list) := by
      rw [hshape, Function.update_self]
    rw [if_pos rfl]
    constructor
    · rintro ⟨d', type, p', list', hd', hs', hlen⟩
      rw [h.dentries, hd, Option.some.injEq] at hd'
      subst hd'
      rw [hself] at hs'
      cases hs'
      exact hlen
    · intro hlen
      exact ⟨d, .file, p, list, h.dentries ▸ hd, hself, hlen⟩
  · rw [if_neg hq]
    unfold Vfs.HoldsBytes
    rw [h.dentries]
    constructor
    · rintro ⟨d, type, p, list', hd, hs, hlen⟩
      exact ⟨d, type, p, list', hd, (h.shape_of_ne hinv hf hd hq) ▸ hs, hlen⟩
    · rintro ⟨d, type, p, list', hd, hs, hlen⟩
      exact ⟨d, type, p, list', hd, (h.shape_of_ne hinv hf hd hq).trans hs, hlen⟩

end Rewritten

/-! ### When the lookup gives null

A lookup that cannot go on returns null at a directory, and at a file that is
empty.  At any other file the first four bytes are read as the pointer to an
entry. -/

/-- The lookup of `path` gives null, and has taken no file's bytes for
entries. -/
def NotFound (s : Vfs) (path : U8ArrayList) : Prop :=
  ∃ s', pathGetDirentry s path (some .ok) = .ok (s', 0)

/-- **Null without a look at bytes**: just when the lookup is stuck, and not
at a file that holds any. -/
theorem notFound_iff (h : TreeInv root s) (hne : cs ≠ []) (hcs : ∀ c ∈ cs, (47 : UInt8) ∉ c)
    (hpath : path.contents = pathBytes cs) :
    NotFound s path ↔ ∃ q, Stuck (FirstBeginning s) root cs q ∧ ¬s.HoldsBytes q := by
  obtain ⟨s', r, -, -, -, hlookup, hrun⟩ := pathGetDirentry_lookup h hcs hpath
  rw [if_neg hne] at hlookup
  have hnotFound : NotFound s path ↔ r = .ok 0 := by
    unfold NotFound
    rw [hrun]
    cases r with
    | error e => exact ⟨fun ⟨_, h⟩ => (nomatch h), nofun⟩
    | ok entry =>
        constructor
        · rintro ⟨_, ⟨⟩⟩
          rfl
        · rintro ⟨⟩
          exact ⟨s', rfl⟩
  rw [hnotFound]
  rcases hlookup with ⟨q, hwalk, rfl⟩ | ⟨q, hstuck, hnull, htrap⟩
  · constructor
    · intro hnull
      exfalso
      obtain rfl : q = 0 := Except.ok.inj hnull
      rcases hwalk.eq_or_step with hroot | ⟨p, c, hstep⟩
      · exact root_ne_null h hroot
      · exact entry_ne_null_of_mem h (firstBeginning_mem hstep) rfl
    · rintro ⟨q', hstuck, -⟩
      exact absurd hwalk (hstuck.not_walk (firstBeginning_unique s))
  · constructor
    · intro hr
      refine ⟨q, hstuck, fun hholds => ?_⟩
      cases hr.symm.trans (htrap hholds)
    · rintro ⟨q', hstuck', hempty⟩
      rw [← hstuck.unique (firstBeginning_unique s) hstuck'] at hempty
      exact hnull hempty

/-- The lookup gives null whatever the file `f` holds, just when it is stuck
elsewhere, at an entry that holds no bytes. -/
theorem notFound_rewritten_iff (h : TreeInv root s) (hf : s.IsFile f) (hne : cs ≠ [])
    (hcs : ∀ c ∈ cs, (47 : UInt8) ∉ c) (hpath : path.contents = pathBytes cs) :
    (∀ list t, Rewritten f list s t → NotFound t path) ↔
      ∃ q, Stuck (FirstBeginning s) root cs q ∧ ¬s.HoldsBytes q ∧ q ≠ f := by
  constructor
  · intro hall
    -- the file with one byte in it
    obtain ⟨t, ht⟩ := hf.rewrite ⟨1, 1, none⟩
    obtain ⟨q, hstuck, hempty⟩ := (notFound_iff (ht.treeInv h hf) hne hcs hpath).mp (hall _ t ht)
    rw [ht.firstBeginning h hf] at hstuck
    rw [ht.holdsBytes_iff h hf] at hempty
    by_cases hq : q = f
    · rw [if_pos hq] at hempty
      exact absurd Nat.one_ne_zero hempty
    · rw [if_neg hq] at hempty
      exact ⟨q, hstuck, hempty, hq⟩
  · rintro ⟨q, hstuck, hempty, hq⟩ list t ht
    refine (notFound_iff (ht.treeInv h hf) hne hcs hpath).mpr ⟨q, ?_, ?_⟩
    · rwa [ht.firstBeginning h hf]
    · rwa [ht.holdsBytes_iff h hf, if_neg hq]

/-- No component leads on from a file, since it has no entries below it. -/
theorem stuck_at_file (hf : s.IsFile f) {c' : List UInt8} {post : List (List UInt8)}
    (hwalk : Walk (FirstBeginning s) root cs f) :
    Stuck (FirstBeginning s) root (cs ++ c' :: post) f := by
  obtain ⟨d, p, list, hd, hs⟩ := hf
  refine .of_walk hwalk (fun q hq => ?_) post
  have hmem := firstBeginning_mem hq
  rw [Vfs.children_eq hd hs] at hmem
  cases hmem

/-- **A path through a file.**  For every path with a component and every file
`f`: the lookup gives null, without a look at bytes, just when it is stuck at
an entry that is no file with bytes, and for all contents of `f` just when
that entry is not `f` either.  Where the path leads through `f` and the
entries named are the first that begin with the components, it gives null just
when `f` is empty, and never for all contents. -/
theorem file_in_path_exact (h : TreeInv root s) (hcs : ∀ c ∈ cs, (47 : UInt8) ∉ c) (hne : cs ≠ [])
    (hpath : path.contents = pathBytes cs) (hf : s.IsFile f) :
    (NotFound s path ↔ ∃ q, Stuck (FirstBeginning s) root cs q ∧ ¬s.HoldsBytes q) ∧
    ((∀ list t, Rewritten f list s t → NotFound t path) ↔
      ∃ q, Stuck (FirstBeginning s) root cs q ∧ ¬s.HoldsBytes q ∧ q ≠ f) ∧
    ∀ pre c' post, cs = pre ++ c' :: post →
      Walk (fun p c q => Named s p c q ∧ FirstBeginning s p c q) root pre f →
      (NotFound s path ↔ ¬s.HoldsBytes f) ∧
        ¬∀ list t, Rewritten f list s t → NotFound t path := by
  have hone := notFound_iff h hne hcs hpath
  have hall := notFound_rewritten_iff h hf hne hcs hpath
  refine ⟨hone, hall, ?_⟩
  rintro pre c' post rfl hwalk
  have hstuck : Stuck (FirstBeginning s) root (pre ++ c' :: post) f :=
    stuck_at_file hf (hwalk.mono fun _ _ _ => And.right)
  rw [hone, hall]
  constructor
  · constructor
    · rintro ⟨q, hq, hempty⟩
      rwa [hstuck.unique (firstBeginning_unique s) hq]
    · intro hempty
      exact ⟨f, hstuck, hempty⟩
  · rintro ⟨q, hq, -, hqf⟩
    exact hqf (hq.unique (firstBeginning_unique s) hstuck)

/-- The path `/a/b`. -/
def slashASlashB : U8ArrayList :=
  ⟨4, 4, some ⟨4, fun j => if j = 1 then 97 else if j = 3 then 98 else 47⟩⟩

/-- Below the file `a` there is no `b`, and the lookup says so while `a` is
empty. -/
theorem file_in_path_exact_empty : ∃ s, (oneFile [97]).run loneRoot = .ok s ∧
    NotFound s slashASlashB := by
  have hop : (oneFile [97]).Allowed loneRoot := oneFile_allowed ⟨nofun, by decide, by decide⟩
  obtain ⟨s, -, -, -, -, -, hs, -⟩ := TreeOp.spec loneRoot_treeInv.1 hop
  have hinv := (loneRoot_treeInv.1.step loneRoot_treeInv.2 ⟨oneFile [97], hop, hs⟩).1
  refine ⟨s, hs, ?_⟩
  cases hs
  have hslash : ∀ c ∈ [[97], [98]], (47 : UInt8) ∉ c := by decide
  refine ((file_in_path_exact hinv hslash nofun rfl ⟨_, _, _, rfl, rfl⟩ (f := 3)).2.2
    [[97]] [98] [] rfl ?_).1.mpr ?_
  · exact .cons ⟨⟨List.mem_singleton.mpr rfl, rfl⟩, rfl⟩ (.nil 3)
  · rintro ⟨d, type, q, list, ⟨⟩, ⟨⟩, hlen⟩
    exact hlen rfl

/-- **A file's bytes are taken for entries**: with four bytes written to the
file `a`, the lookup of `/a/b` reads them as a pointer. -/
theorem file_read_as_directory : ∃ s s₁ s₂,
    (TreeOp.createFile (some ⟨16, fun _ => 0⟩) ⟨[97], 1, 3, 4, none⟩).run loneRoot = .ok s ∧
      tmpfsOpenFile 5 s 4 .ok = .ok (s₁, 5, .ok) ∧
      tmpfsWriteFile (some ⟨20, fun _ => 0⟩) s₁ 5 [1, 2, 3, 4] = .ok (s₂, 4) ∧
      pathGetDirentry s₂ slashASlashB (some .ok) = .error .wrongMember ∧
      ¬NotFound s₂ slashASlashB := by
  refine ⟨_, _, _, rfl, rfl, rfl, rfl, ?_⟩
  rintro ⟨_, ⟨⟩⟩

end CourseOs.Fs
