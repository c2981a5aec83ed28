import CourseOs.Fs.Path
import CourseOs.Fs.Tree
import CourseOs.Lib.NameWalk
import CourseOs.Lib.Runs

/-!
# Where path lookup leads

The loop of `path_get_direntry` goes, for each component, to the first entry
of the directory whose name begins with it (`FirstBeginning`), where a path
names the entry with the whole name (`Named`).  Both are relations between an
entry, a component and an entry below it, and a lookup is a walk along one of
them, a path's meaning a walk along the other.

## Main definitions

* `Named`, `FirstBeginning` — the entry a component names, and the one the
  loop goes to.
* `Lookup s p cs r` — what a lookup along `cs` from `p` gives, in terms of
  walks: the end of the walk, null where it is stuck, or a trap where it is
  stuck at a file that holds bytes.
* `FirstOnTheWay s root cs` — there is a component, and on the way the entries
  named come first, or the path names nothing and the walk along the first
  entries ends too.

## Main results

* `pathLoop_lookup`, `pathGetDirentry_lookup` — the loop, and the routine,
  give the `Lookup`.
* `found_iff` — when the two walks lead to the same place.  Because an entry
  is in one directory only, walks that end together have been together all the
  way (`Walk.inf`), so the lookup is right only if it is right at every
  component.
* `lookup_exact` — for every tree that calls of the file system lead to and
  for every absolute path: the result is the entry that the path names, or
  null if it names none, exactly under `FirstOnTheWay`.

The path that is one slash has no component, but the loop looks for an empty
one, with which every name begins: it finds the first entry of the root.
-/

namespace CourseOs.Fs

variable {s s' : Vfs} {root p q pathpointer left : ℕ} {array : ℕ → UInt8} {c : List UInt8}
  {cs : List (List UInt8)}

/-- `q` is the entry of `p` with the name `c`, all of it and nothing else. -/
def Named (s : Vfs) (p : ℕ) (c : List UInt8) (q : ℕ) : Prop := q ∈ s.children p ∧ s.nameOf q = c

/-- `q` is the first entry of `p` whose name begins with `c`, in the order of
the directory's list, which is the order in which the entries were made. -/
def FirstBeginning (s : Vfs) (p : ℕ) (c : List UInt8) (q : ℕ) : Prop :=
  (s.children p).find? (fun x => Begins c (s.nameOf x)) = some q

/-- The entry `p` is a file's, with something in it: what the lookup would
take for entries. -/
def Vfs.HoldsBytes (s : Vfs) (p : ℕ) : Prop :=
  ∃ d type q list, s.dentries p = some d ∧ s.shape d.inode = some (type, q, .filedata list) ∧
    list.length ≠ 0

/-- What a lookup along `cs` from the entry `p` gives: the last of the first
entries that begin with the components; or null, when one of them lists no
such entry, unless it is a file with something in it, whose bytes are then
taken for entries. -/
def Lookup (s : Vfs) (p : ℕ) (cs : List (List UInt8)) (r : Exec ℕ) : Prop :=
  (∃ q, Walk (FirstBeginning s) p cs q ∧ r = .ok q) ∨
    ∃ q, Stuck (FirstBeginning s) p cs q ∧ (¬s.HoldsBytes q → r = .ok 0) ∧
      (s.HoldsBytes q → r = .error .wrongMember)

/-- The bytes of a path after its first slash, with one slash between two
names. -/
def pathTail (c : List UInt8) (cs : List (List UInt8)) : List UInt8 := c ++ cs.flatMap (47 :: ·)

/-- The bytes of the absolute path with the components `cs`. -/
def pathBytes : List (List UInt8) → List UInt8
  | [] => [47]
  | c :: cs => 47 :: pathTail c cs

/-- The result `r` is the entry that the path names, or null when there is
none. -/
def Found (s : Vfs) (root : ℕ) (cs : List (List UInt8)) (r : ℕ) : Prop :=
  (r ≠ 0 ∧ Walk (Named s) root cs r) ∨ (r = 0 ∧ ¬∃ q, Walk (Named s) root cs q)

/-- There is a component, and either in each directory on the way the entry
with the whole name is the first that begins with it, or the path names
nothing and the first entries that begin with the components come to an end
too. -/
def FirstOnTheWay (s : Vfs) (root : ℕ) (cs : List (List UInt8)) : Prop :=
  cs ≠ [] ∧ ((∃ q, Walk (fun p c q => Named s p c q ∧ FirstBeginning s p c q) root cs q) ∨
    ((¬∃ q, Walk (Named s) root cs q) ∧ ¬∃ q, Walk (FirstBeginning s) root cs q))

/-! ### The scan of a component

The loop for the next slash reads at most as many bytes as are left and one
more.  On the bytes of a path whose components are known, it ends behind the
first of them. -/

/-- The loop for the next slash stops behind a component, at a slash or at the
end of the path.  The induction is on the component. -/
theorem nextSlash_eq (hc : (47 : UInt8) ∉ c)
    (hbytes : ∀ j (h : j < c.length), array (pathpointer + j) = (c)[j])
    (hend : left = c.length ∨ c.length < left ∧ array (pathpointer + c.length) = 47) :
    nextSlash array left pathpointer = pathpointer + c.length := by
  induction c generalizing left pathpointer with
  | nil =>
      rcases hend with rfl | ⟨hlt, hslash⟩
      · rfl
      · obtain ⟨left, rfl⟩ := Nat.exists_eq_add_of_lt hlt
        show (if array pathpointer ≠ 47 then _ else pathpointer) = _
        exact if_neg (not_not_intro hslash)
  | cons a c ih =>
      have ha : array pathpointer = a := hbytes 0 (Nat.zero_lt_succ _)
      have hne : a ≠ 47 := fun h => hc (h ▸ List.mem_cons_self)
      obtain ⟨left, rfl⟩ : ∃ l, left = l + 1 := ⟨left - 1, by
        rw [List.length_cons] at hend
        omega⟩
      show (if array pathpointer ≠ 47 then nextSlash array left (pathpointer + 1) else _) = _
      rw [if_pos (ha ▸ hne), ih (fun h => hc (List.mem_cons_of_mem a h))]
      · rw [List.length_cons]
        omega
      · intro j hj
        rw [Nat.add_assoc, Nat.add_comm 1 j]
        exact hbytes (j + 1) (Nat.succ_lt_succ hj)
      · rw [List.length_cons] at hend
        rw [Nat.add_assoc, Nat.add_comm 1 c.length]
        rcases hend with h | ⟨h, hslash⟩
        · exact .inl (Nat.succ.inj h)
        · exact .inr ⟨Nat.lt_of_succ_lt_succ h, hslash⟩

/-! ### The search of a directory

The entries of a directory are compared in the order in which they were made,
by `strncmp` with the length of the component for a bound.  An entry with a
longer name is therefore taken if it comes first. -/

namespace TreeInv

theorem root_notMem (h : TreeInv root s) (p : ℕ) : root ∉ s.children p := by
  intro hroot
  obtain ⟨d, hd, hparent⟩ := h.child p root hroot
  obtain ⟨e, he, -, hnull, -⟩ := h.head
  obtain rfl := Option.some.inj (hd.symm.trans he)
  rw [hnull] at hparent
  rw [← hparent, Vfs.children_of_none h.dentries_null] at hroot
  cases hroot

/-- An entry of a directory has a name, with its terminator in the block. -/
theorem entry_name (h : TreeInv root s) (hq : q ∈ s.children p) :
    ∃ d, s.dentry q = .ok d ∧ IsName (s.nameOf q) ∧ d.name.data = s.nameOf q ++ [0] := by
  obtain ⟨d, hd, -⟩ := h.child p q hq
  have hne : q ≠ root := by
    rintro rfl
    exact h.root_notMem p hq
  obtain ⟨name, hname, hdata⟩ := h.name q d hd hne
  have := Vfs.nameOf_eq hd hdata
  subst this
  exact ⟨d, Vfs.fetch_eq (h.entry_ne_null hd) hd, hname, hdata⟩

/-- **The search** stops at the first entry whose name begins with the
component, and every name it compares with is read inside its own block. -/
theorem findEntry_eq (h : TreeInv root s) {list : VPArrayList} {b : Block ℕ} (hlist : list.In b)
    (hchildren : s.children p = list.entries) {component : ℕ → UInt8}
    (hbytes : ∀ j (h : j < c.length), component j = (c)[j]) {i : ℕ}
    (hi : i + left = list.length) :
    findEntry s list component c.length left i =
      .ok ((list.entries.drop i).find? fun x => Begins c (s.nameOf x)) := by
  have hlen : list.entries.length = list.length := by
    rw [hlist.entries, List.length_map, List.length_range]
  induction left generalizing i with
  | zero =>
      rw [List.drop_of_length_le (by omega)]
      rfl
  | succ left ih =>
      have hlt : i < list.entries.length := by omega
      have hget : list.entries[i] = b.cell i := by
        simp only [hlist.entries, List.getElem_map, List.getElem_range]
      obtain ⟨d, hd, hname, hdata⟩ :=
        h.entry_name (p := p) (q := b.cell i) (by
          rw [hchildren, ← hget]
          exact List.getElem_mem hlt)
      obtain ⟨r, hr, hiff⟩ := strncmp_eq hname.null_notMem hbytes
      rw [List.drop_eq_getElem_cons hlt, hget]
      show (vpaGet list i >>= _) = _
      rw [hlist.vpaGet (by omega), Exec.ok_bind, hd, Exec.ok_bind, hdata, hr, Exec.ok_bind]
      by_cases hbegins : Begins c (s.nameOf (b.cell i))
      · rw [if_pos (hiff.mpr hbegins)]
        exact congrArg Except.ok (List.find?_cons_of_pos
          (p := fun x => decide (Begins c (s.nameOf x))) (decide_eq_true hbegins)).symm
      · rw [if_neg (mt hiff.mp hbegins), ih (by omega)]
        exact congrArg Except.ok (List.find?_cons_of_neg
          (p := fun x => decide (Begins c (s.nameOf x))) (mt of_decide_eq_true hbegins)).symm

/-- A file's entry has none below it. -/
theorem children_of_holdsBytes (hp : s.HoldsBytes p) : s.children p = [] := by
  obtain ⟨d, type, q, list, hd, hs, -⟩ := hp
  exact Vfs.children_eq hd hs

/-- What `list_dir` and the search of its result find: in a directory, and in
a file without bytes, the first entry that begins with the component; in a
file with bytes, nothing that the model can follow. -/
theorem findIn_eq (h : TreeInv root s) {d : DirEntry} (hd : s.dentries p = some d)
    {component : ℕ → UInt8} (hbytes : ∀ j (h : j < c.length), component j = (c)[j]) :
    ∃ data, tmpfsListDir s p = .ok data ∧
      (¬s.HoldsBytes p → findIn s data component c.length =
        .ok ((s.children p).find? fun x => Begins c (s.nameOf x))) ∧
      (s.HoldsBytes p → findIn s data component c.length = .error .wrongMember) := by
  obtain ⟨type, data, hs, hmatch⟩ := h.inode p d hd
  obtain ⟨n, hn, heq⟩ := Vfs.inode_of_shape hs
  rw [Prod.mk.injEq, Prod.mk.injEq] at heq
  refine ⟨data, ?_, fun hempty => ?_, ?_⟩
  · unfold tmpfsListDir
    rw [show s.dentry p = .ok d from Vfs.fetch_eq (h.entry_ne_null hd) hd, Exec.ok_bind,
      show s.inode d.inode = .ok n from Vfs.fetch_eq (h.inode_ne_null hd) hn, Exec.ok_bind,
      heq.2.2]
  · rw [Vfs.children_eq hd hs]
    cases data with
    | filedata list =>
        exact if_pos (not_not.mp fun hlen => hempty ⟨d, type, p, list, hd, hs, hlen⟩)
    | direntries list =>
        obtain ⟨-, b, hb⟩ := hmatch
        exact h.findEntry_eq hb (Vfs.children_eq hd hs) hbytes (Nat.zero_add _)
  · rintro ⟨d', type', q', list, hd', hs', hlen⟩
    obtain rfl := Option.some.inj (hd.symm.trans hd')
    rw [hs, Option.some.injEq, Prod.mk.injEq, Prod.mk.injEq] at hs'
    rw [hs'.2.2]
    exact if_neg hlen

end TreeInv

/-! ### The walk

A turn of the loop is a step from an entry to the first of its children that
begins with the component.  Where there is none, the loop returns null; where
the entry is a file with bytes in it, these are read as pointers. -/

theorem firstBeginning_mem (h : FirstBeginning s p c q) : q ∈ s.children p :=
  List.mem_of_find?_eq_some h

theorem pathTail_nil (c : List UInt8) : pathTail c [] = c := List.append_nil c

theorem pathTail_cons (c c' : List UInt8) (cs : List (List UInt8)) :
    pathTail c (c' :: cs) = c ++ 47 :: pathTail c' cs := rfl

theorem firstBeginning_unique (s : Vfs) : ∀ p c q q',
    FirstBeginning s p c q → FirstBeginning s p c q' → q = q' :=
  fun _ _ _ _ h h' => Option.some.inj (h.symm.trans h')

theorem not_firstBeginning (hfind : ((s.children p).find? fun x => Begins c (s.nameOf x)) = none)
    (q : ℕ) : ¬FirstBeginning s p c q := by
  intro h
  cases hfind.symm.trans h

theorem Lookup.cons {r : Exec ℕ} (hstep : FirstBeginning s p c q) (h : Lookup s q cs r) :
    Lookup s p (c :: cs) r := by
  rcases h with ⟨q', hwalk, hr⟩ | ⟨q', hstuck, hr⟩
  · exact .inl ⟨q', .cons hstep hwalk, hr⟩
  · exact .inr ⟨q', .cons hstep hstuck, hr⟩

section Loop

variable {endpointer fuel : ℕ} {d : DirEntry}

/-- One turn of the loop, at a component `c`.  It goes on with the first child
whose name begins with `c`, or ends there if the path does. -/
theorem pathLoop_step (h : TreeInv root s) (hempty : ¬s.HoldsBytes p) (hd : s.dentries p = some d)
    (hslash : nextSlash array (endpointer - pathpointer) pathpointer = pathpointer + c.length)
    (hbytes : ∀ j (h : j < c.length), array (pathpointer + j) = (c)[j]) :
    pathLoop s array endpointer (fuel + 1) p pathpointer =
      match (s.children p).find? fun x => Begins c (s.nameOf x) with
      | none => .ok 0
      | some child =>
          if pathpointer + c.length = endpointer then .ok child
          else pathLoop s array endpointer fuel child (pathpointer + c.length + 1) := by
  obtain ⟨data, hlist, hfind, -⟩ := h.findIn_eq hd hbytes
  rw [pathLoop, hslash, Nat.add_sub_cancel_left, hlist, Exec.ok_bind, hfind hempty]
  rfl

/-- Nothing in a file that holds bytes ends the loop: the first of them is
taken for the pointer to an entry. -/
theorem pathLoop_holdsBytes (h : TreeInv root s) (hholds : s.HoldsBytes p)
    (hd : s.dentries p = some d)
    (hslash : nextSlash array (endpointer - pathpointer) pathpointer = pathpointer + c.length)
    (hbytes : ∀ j (h : j < c.length), array (pathpointer + j) = (c)[j]) :
    pathLoop s array endpointer (fuel + 1) p pathpointer = .error .wrongMember := by
  obtain ⟨data, hlist, -, hfind⟩ := h.findIn_eq hd hbytes
  rw [pathLoop, hslash, Nat.add_sub_cancel_left, hlist, Exec.ok_bind, hfind hholds]
  rfl

/-- The loop does not get past an entry that lists none for the component.  It
returns null there, or stops at the bytes of a file. -/
theorem lookup_stuck (h : TreeInv root s)
    (hfind : ((s.children p).find? fun x => Begins c (s.nameOf x)) = none)
    (hd : s.dentries p = some d)
    (hslash : nextSlash array (endpointer - pathpointer) pathpointer = pathpointer + c.length)
    (hbytes : ∀ j (h : j < c.length), array (pathpointer + j) = (c)[j]) :
    Lookup s p (c :: cs) (pathLoop s array endpointer (fuel + 1) p pathpointer) := by
  refine .inr ⟨p, .here (not_firstBeginning hfind), fun hempty => ?_, fun hholds => ?_⟩
  · rw [pathLoop_step h hempty hd hslash hbytes, hfind]
  · exact pathLoop_holdsBytes h hholds hd hslash hbytes

theorem not_holdsBytes_of_find (hfind : ((s.children p).find? fun x =>
    Begins c (s.nameOf x)) = some q) : ¬s.HoldsBytes p := by
  intro hholds
  have hmem : q ∈ s.children p := List.mem_of_find?_eq_some hfind
  rw [TreeInv.children_of_holdsBytes hholds] at hmem
  cases hmem

/-- **The loop** follows the first entries that begin with the components.
The induction is on the components behind the one it is at. -/
theorem pathLoop_lookup (h : TreeInv root s) (hfuel : cs.length < fuel) (hc : (47 : UInt8) ∉ c)
    (hcs : ∀ x ∈ cs, (47 : UInt8) ∉ x) (hend : endpointer = pathpointer + (pathTail c cs).length)
    (hbytes : ∀ j (h : j < (pathTail c cs).length), array (pathpointer + j) = (pathTail c cs)[j])
    (hd : s.dentries p = some d) :
    Lookup s p (c :: cs) (pathLoop s array endpointer fuel p pathpointer) := by
  induction cs generalizing fuel p c pathpointer d with
  | nil =>
      obtain ⟨fuel, rfl⟩ := Nat.exists_eq_succ_of_ne_zero (Nat.ne_of_gt hfuel)
      simp only [pathTail_nil] at hend hbytes
      have hslash :=
        nextSlash_eq hc hbytes (.inl (show endpointer - pathpointer = c.length by omega))
      cases hfind : (s.children p).find? fun x => Begins c (s.nameOf x) with
      | none => exact lookup_stuck h hfind hd hslash hbytes
      | some child =>
          refine .inl ⟨child, .cons hfind (.nil child), ?_⟩
          rw [pathLoop_step h (not_holdsBytes_of_find hfind) hd hslash hbytes, hfind]
          exact if_pos hend.symm
  | cons c' cs ih =>
      obtain ⟨fuel, rfl⟩ : ∃ f, fuel = f + 1 := ⟨fuel - 1, by omega⟩
      simp only [pathTail_cons] at hend hbytes
      rw [List.length_append, List.length_cons] at hend
      have hfirst : ∀ j (hj : j < c.length), array (pathpointer + j) = (c)[j] := by
        intro j hj
        rw [hbytes j (by rw [List.length_append]; omega), List.getElem_append_left hj]
      have hat : array (pathpointer + c.length) = 47 := by
        rw [hbytes c.length (by rw [List.length_append, List.length_cons]; omega),
          List.getElem_append_right (Nat.le_refl _)]
        simp only [Nat.sub_self, List.getElem_cons_zero]
      have hrest : ∀ j (hj : j < (pathTail c' cs).length),
          array (pathpointer + c.length + 1 + j) = (pathTail c' cs)[j] := by
        intro j hj
        have := hbytes (c.length + (j + 1)) (by
          rw [List.length_append, List.length_cons]
          omega)
        rw [List.getElem_append_right (Nat.le_add_right _ _)] at this
        simp only [Nat.add_sub_cancel_left, List.getElem_cons_succ] at this
        rw [← this]
        congr 1
        omega
      have hslash := nextSlash_eq hc hfirst
        (.inr ⟨show c.length < endpointer - pathpointer by omega, hat⟩)
      cases hfind : (s.children p).find? fun x => Begins c (s.nameOf x) with
      | none => exact lookup_stuck h hfind hd hslash hfirst
      | some child =>
          obtain ⟨e, he, -⟩ := h.child p child (firstBeginning_mem hfind)
          have hnext := ih (p := child)
            (show cs.length < fuel by rw [List.length_cons] at hfuel; omega)
            (hcs c' List.mem_cons_self) (fun x hx => hcs x (List.mem_cons_of_mem c' hx)) (by omega)
            hrest he
          rw [pathLoop_step h (not_holdsBytes_of_find hfind) hd hslash hfirst, hfind]
          show Lookup s p _ (if pathpointer + c.length = endpointer then _ else _)
          rw [if_neg (by omega)]
          exact hnext.cons hfind

end Loop

/-! ### The root

`vfs_get_root` looks for an inode whose entry is named `/`, and finds it at
the head of the list.  The comparison stores a hash in the name, which nothing
else in the tree depends on. -/

theorem qstrEqNullTerminated_slash {name : Qstr} (h : name.data = [47, 0]) :
    ∃ hash, qstrEqNullTerminated name [47, 0] = .ok (true, { name with hash }) := by
  obtain ⟨data, length, hash⟩ := name
  subst h
  exact ⟨_, rfl⟩

theorem holdsBytes_of_view
    (hview : ∀ q, (s'.dentries q).map (fun e => (e.inode, e.name.data, e.parent)) =
      (s.dentries q).map fun e => (e.inode, e.name.data, e.parent))
    (hshape : s'.shape = s.shape) : s'.HoldsBytes = s.HoldsBytes := by
  funext p
  apply propext
  constructor
  · rintro ⟨d', type, q, list, hd', hs, hlen⟩
    obtain ⟨d, hd, hinode, -⟩ := TreeInv.dentry_of_view hview hd'
    exact ⟨d, type, q, list, hd, hinode ▸ hshape ▸ hs, hlen⟩
  · rintro ⟨d, type, q, list, hd, hs, hlen⟩
    obtain ⟨d', hd', hinode, -⟩ := TreeInv.dentry_of_view (fun q => (hview q).symm) hd
    exact ⟨d', type, q, list, hd', by rw [hshape, hinode.symm]; exact hs, hlen⟩

/-- The root is the first inode of the list; finding it changes the tree in
nothing but the hash that is stored in its name. -/
theorem vfsGetRoot_eq (h : TreeInv root s) :
    ∃ s', vfsGetRoot s = .ok (s', root) ∧ TreeInv root s' ∧ s'.HoldsBytes = s.HoldsBytes ∧
      s'.children = s.children ∧ s'.nameOf = s.nameOf := by
  obtain ⟨d, hd, hname, -, hhead⟩ := h.head
  obtain ⟨type, data, hs, -⟩ := h.inode root d hd
  obtain ⟨n, hn, heq⟩ := Vfs.inode_of_shape hs
  rw [Prod.mk.injEq, Prod.mk.injEq] at heq
  obtain ⟨hash, hequal⟩ := qstrEqNullTerminated_slash hname
  have hview := TreeInv.dentries_putName hd (show ({ d.name with hash } : Qstr).data = d.name.data
    from rfl)
  refine ⟨s.putDentry root { d with name := { d.name with hash } }, ?_,
    TreeInv.of_view hview h rfl rfl rfl, holdsBytes_of_view hview rfl,
    TreeInv.children_of_view hview rfl, TreeInv.nameOf_of_view hview⟩
  have hi : s.inode s.head = .ok n := hhead ▸ Vfs.fetch_eq (h.inode_ne_null hd) hn
  unfold vfsGetRoot vfsGetRootLoop
  rw [hi, Exec.ok_bind, heq.2.1, show s.dentry root = .ok d from
    Vfs.fetch_eq (h.entry_ne_null hd) hd, Exec.ok_bind, hequal]
  rfl

/-! ### The result of a lookup

Two walks from the root, one along the first entries that begin with the
components and one along the entries that have them for names.  They are
compared as relations; the lookup is right when they lead to the same entry,
or both to none. -/

theorem named_back (h : TreeInv root s) {p p' q : ℕ} {c c' : List UInt8}
    (hq : FirstBeginning s p c q) (hq' : Named s p' c' q) : p = p' :=
  h.parent_unique (firstBeginning_mem hq) hq'.1

theorem entry_ne_null_of_mem (h : TreeInv root s) (hq : q ∈ s.children p) : q ≠ 0 := by
  obtain ⟨d, hd, -⟩ := h.child p q hq
  exact h.entry_ne_null hd

theorem root_ne_null (h : TreeInv root s) : root ≠ 0 := by
  obtain ⟨d, hd, -⟩ := h.head
  exact h.entry_ne_null hd

/-- The walk along the first entries leads where the path does exactly when
those entries have the whole names, or when both walks come to no end. -/
theorem found_iff (h : TreeInv root s) {o : Option ℕ}
    (ho : ∀ q, Walk (FirstBeginning s) root cs q ↔ o = some q) :
    Found s root cs (o.getD 0) ↔
      (∃ q, Walk (fun p c q => Named s p c q ∧ FirstBeginning s p c q) root cs q) ∨
        ((¬∃ q, Walk (Named s) root cs q) ∧ ¬∃ q, Walk (FirstBeginning s) root cs q) := by
  have hne : ∀ q, Walk (FirstBeginning s) root cs q → q ≠ 0 := by
    intro q hq
    rcases hq.eq_or_step with rfl | ⟨p, c, hstep⟩
    · exact root_ne_null h
    · exact entry_ne_null_of_mem h (firstBeginning_mem hstep)
  constructor
  · rintro (⟨hr, hwalk⟩ | ⟨hr, hnone⟩)
    · cases o with
      | none => exact absurd rfl hr
      | some q =>
          refine .inl ⟨q, Walk.inf ?_ hwalk ((ho q).mpr rfl)⟩
          exact fun p p' c c' q hq hq' => (named_back h hq' hq).symm
    · refine .inr ⟨hnone, ?_⟩
      rintro ⟨q, hq⟩
      rw [(ho q).mp hq] at hr
      exact hne q hq hr
  · rintro (⟨q, hq⟩ | ⟨hnone, hstop⟩)
    · have hfirst : Walk (FirstBeginning s) root cs q := hq.mono fun _ _ _ => And.right
      rw [(ho q).mp hfirst]
      exact .inl ⟨hne q hfirst, hq.mono fun _ _ _ => And.left⟩
    · cases o with
      | none => exact .inr ⟨rfl, hnone⟩
      | some q => exact absurd ⟨q, (ho q).mpr rfl⟩ hstop

/-- A path of one slash leads to the first entry of the root or to nothing. -/
theorem not_found_slash (h : TreeInv root s) {o : Option ℕ}
    (ho : ∀ q, Walk (FirstBeginning s) root [[]] q ↔ o = some q) :
    ¬ Found s root [] (o.getD 0) := by
  rintro (⟨hr, hwalk⟩ | ⟨-, hnone⟩)
  · cases o with
    | none => exact hr rfl
    | some q =>
        have hq : root = q := Walk.nil_iff.mp hwalk
        obtain ⟨x, hstep, hend⟩ := Walk.cons_iff.mp ((ho q).mpr rfl)
        rw [Walk.nil_iff.mp hend, ← hq] at hstep
        exact h.root_notMem root (firstBeginning_mem hstep)
  · exact hnone ⟨root, .nil root⟩

/-! ### The bytes of a path

Absolute paths are strings with a slash in front, and every such path is made
of components.  With this the statements about components are statements about
all absolute paths. -/

theorem length_le_pathTail (c : List UInt8) (cs : List (List UInt8)) :
    cs.length ≤ (pathTail c cs).length := by
  induction cs generalizing c with
  | nil => exact Nat.zero_le _
  | cons c' cs ih =>
      have := ih c'
      rw [pathTail_cons, List.length_append, List.length_cons, List.length_cons]
      omega

theorem pathBytes_eq (cs : List (List UInt8)) :
    ∃ c cs', pathBytes cs = 47 :: pathTail c cs' ∧
      (cs = [] ∧ c = [] ∧ cs' = [] ∨ cs = c :: cs') := by
  cases cs with
  | nil => exact ⟨[], [], rfl, .inl ⟨rfl, rfl, rfl⟩⟩
  | cons c cs => exact ⟨c, cs, rfl, .inr rfl⟩

theorem contents_getElem {path : U8ArrayList} {bytes : List UInt8} (hne : bytes ≠ [])
    (h : path.contents = bytes) :
    ∃ b, path.array = some b ∧ path.length = bytes.length ∧
      ∀ j (hj : j < bytes.length), b.cell j = bytes[j] := by
  unfold U8ArrayList.contents at h
  cases hb : path.array with
  | none =>
      rw [hb] at h
      exact absurd h.symm hne
  | some b =>
      rw [hb] at h
      subst h
      refine ⟨b, rfl, ?_, fun j hj => ?_⟩
      · rw [List.length_map, List.length_range]
      · rw [List.getElem_map, List.getElem_range]

/-- **One lookup** in a tree, whatever is in its files: it gives the `Lookup`
along the path's components, and leaves the tree as it was. -/
theorem pathGetDirentry_lookup (h : TreeInv root s) (hcs : ∀ c ∈ cs, (47 : UInt8) ∉ c)
    {path : U8ArrayList} (hpath : path.contents = pathBytes cs) :
    ∃ s' r, TreeInv root s' ∧ s'.children = s.children ∧ s'.nameOf = s.nameOf ∧
      Lookup s root (if cs = [] then [[]] else cs) r ∧
      pathGetDirentry s path (some .ok) = r >>= fun entry => .ok (s', entry) := by
  obtain ⟨c, cs', hbytes, hsplit⟩ := pathBytes_eq cs
  rw [hbytes] at hpath
  obtain ⟨b, hb, hlen, hcell⟩ := contents_getElem (List.cons_ne_nil _ _) hpath
  rw [List.length_cons] at hlen
  obtain ⟨s', hroot, h', hholds, hchildren, hname⟩ := vfsGetRoot_eq h
  obtain ⟨d, hd, -⟩ := h'.head
  have hnone : ∀ j (hj : j < ([] : List UInt8).length), b.cell j = ([] : List UInt8)[j] := nofun
  obtain ⟨data, hlist, -⟩ := h'.findIn_eq hd hnone
  have hfuel : cs'.length < path.length + 1 := by
    have := length_le_pathTail c cs'
    omega
  have hc : (47 : UInt8) ∉ c ∧ ∀ x ∈ cs', (47 : UInt8) ∉ x := by
    rcases hsplit with ⟨-, rfl, rfl⟩ | rfl
    · exact ⟨nofun, nofun⟩
    · exact ⟨hcs c List.mem_cons_self, fun x hx => hcs x (List.mem_cons_of_mem c hx)⟩
  have htail : ∀ j (hj : j < (pathTail c cs').length), b.cell (1 + j) = (pathTail c cs')[j] := by
    intro j hj
    rw [Nat.add_comm, hcell (j + 1) (Nat.succ_lt_succ hj), List.getElem_cons_succ]
  have hrun := pathLoop_lookup h' hfuel hc.1 hc.2 (show path.length = 1 + _ by omega) htail hd
  have hnames : (if cs = [] then [[]] else cs) = c :: cs' := by
    rcases hsplit with ⟨rfl, rfl, rfl⟩ | rfl
    · rfl
    · exact if_neg (List.cons_ne_nil c cs')
  have hfirst : FirstBeginning s' = FirstBeginning s := by
    unfold FirstBeginning
    rw [hchildren, hname]
  refine ⟨s', pathLoop s' b.cell path.length (path.length + 1) root 1, h', hchildren, hname, ?_, ?_⟩
  · rw [hnames]
    unfold Lookup at hrun ⊢
    rwa [hfirst, hholds] at hrun
  · have harray : pathArray path = .ok b.cell := by
      unfold pathArray
      rw [hb]
    have habs : pathIsAbsolute path = .ok true := by
      unfold pathIsAbsolute
      rw [harray, Exec.ok_bind, hcell 0 (Nat.zero_lt_succ _), List.getElem_cons_zero]
      rfl
    unfold pathGetDirentry
    rw [harray, Exec.ok_bind, habs, Exec.ok_bind, if_pos rfl, hroot, Exec.ok_bind]
    dsimp only
    rw [hlist, Exec.ok_bind, if_neg (not_not_intro rfl)]

/-- Where files hold nothing, the lookup gives the end of the walk along the
first entries, or null. -/
theorem Lookup.of_filesEmpty {r : Exec ℕ} (hempty : FilesEmpty s) (h : Lookup s p cs r) :
    ∃ o : Option ℕ, r = .ok (o.getD 0) ∧ ∀ q, Walk (FirstBeginning s) p cs q ↔ o = some q := by
  rcases h with ⟨q, hwalk, hr⟩ | ⟨q, hstuck, hr, -⟩
  · refine ⟨some q, hr, fun q' => ⟨fun hwalk' => ?_, ?_⟩⟩
    · rw [hwalk.unique (firstBeginning_unique s) hwalk']
    · rintro ⟨⟩
      exact hwalk
  · refine ⟨none, hr ?_, fun q' => ⟨fun hwalk' => ?_, nofun⟩⟩
    · rintro ⟨d, type, q', list, -, hs, hlen⟩
      exact hlen (hempty _ _ _ _ hs)
    · exact absurd hwalk' (hstuck.not_walk (firstBeginning_unique s))

/-- A lookup in a tree without bytes in files: when the result is the entry
that the path names. -/
theorem pathGetDirentry_spec (h : TreeInv root s) (hempty : FilesEmpty s)
    (hcs : ∀ c ∈ cs, (47 : UInt8) ∉ c) {path : U8ArrayList} (hpath : path.contents = pathBytes cs) :
    ∃ s' r, pathGetDirentry s path (some .ok) = .ok (s', r) ∧ TreeInv root s' ∧
      s'.children = s.children ∧ s'.nameOf = s.nameOf ∧
      (Found s root cs r ↔ FirstOnTheWay s root cs) := by
  obtain ⟨s', r, h', hchildren, hname, hlookup, hrun⟩ := pathGetDirentry_lookup h hcs hpath
  obtain ⟨o, rfl, ho⟩ := hlookup.of_filesEmpty hempty
  refine ⟨s', o.getD 0, hrun, h', hchildren, hname, ?_⟩
  unfold FirstOnTheWay
  by_cases hnil : cs = []
  · subst hnil
    rw [if_pos rfl] at ho
    exact iff_of_false (not_found_slash h ho) fun hne => hne.1 rfl
  · rw [if_neg hnil] at ho
    rw [found_iff h ho]
    exact (and_iff_right hnil).symm

/-- **Path lookup.**  In every tree, for every absolute path, the result is
the entry that the path names, or null if it names none, if and only if the
path has a component and the entries named come first among those whose names
begin with its components. -/
theorem lookup_exact {s₀ : Vfs} (hnew : s₀.IsNew) {entry inode : ℕ} (hentry : entry ≠ 0)
    (hinode : inode ≠ 0) {b : Block ℕ}
    (hroom : sizeofVoidPointer * tmpfsDefaultDirAllocSize ≤ b.size) (hsize : b.size < 2 ^ 32)
    (hrun : Relation.ReflTransGen TreeStep (createTmpfsRoot entry inode (some b) s₀) s)
    (hcs : ∀ c ∈ cs, (47 : UInt8) ∉ c) {path : U8ArrayList} (hpath : path.contents = pathBytes cs) :
    ∃ s' r, pathGetDirentry s path (some .ok) = .ok (s', r) ∧
      (Found s entry cs r ↔ FirstOnTheWay s entry cs) := by
  have hinv : TreeInv entry s ∧ FilesEmpty s :=
    Runs.invariant (I := fun s => TreeInv entry s ∧ FilesEmpty s)
      (fun _ _ hs hstep => hs.1.step hs.2 hstep) hrun
      (createTmpfsRoot_treeInv hnew hentry hinode hroom hsize)
  obtain ⟨s', r, hlookup, -, -, -, hiff⟩ := pathGetDirentry_spec hinv.1 hinv.2 hcs hpath
  exact ⟨s', r, hlookup, hiff⟩

/-- The path `/a`. -/
def slashA : U8ArrayList := ⟨2, 2, some ⟨2, fun j => if j = 0 then 47 else 97⟩⟩

/-- The file `a` is found. -/
theorem lookup_exact_one_file : ∃ s s' r, (oneFile [97]).run loneRoot = .ok s ∧
    pathGetDirentry s slashA (some .ok) = .ok (s', r) ∧ Found s 1 [[97]] r := by
  have hname : IsName [97] := ⟨nofun, by decide, by decide⟩
  obtain ⟨s, -, -, -, -, -, hs, -⟩ := TreeOp.spec loneRoot_treeInv.1 (oneFile_allowed hname)
  have hrun : Relation.ReflTransGen TreeStep loneRoot s :=
    .single ⟨oneFile [97], oneFile_allowed hname, hs⟩
  have hpath : slashA.contents = pathBytes [[97]] := rfl
  obtain ⟨s', r, hlookup, hiff⟩ := lookup_exact ⟨rfl, rfl, rfl⟩ Nat.one_ne_zero (Nat.succ_ne_zero 1)
    (Nat.le_refl 16) (show 16 < 2 ^ 32 by decide) hrun (by decide) hpath
  refine ⟨s, s', r, hs, hlookup, hiff.mpr ⟨nofun, .inl ⟨3, ?_⟩⟩⟩
  cases hs
  exact .cons ⟨⟨List.mem_singleton.mpr rfl, rfl⟩, rfl⟩ (.nil 3)

/-- **A prefix is taken for the name**: in a root that holds only `ab`, the
path `/a` leads to it, although it names nothing. -/
theorem lookup_finds_longer_name : ∃ s s', (oneFile [97, 98]).run loneRoot = .ok s ∧
    pathGetDirentry s slashA (some .ok) = .ok (s', 3) ∧ ¬ Found s 1 [[97]] 3 := by
  refine ⟨_, _, rfl, rfl, ?_⟩
  rintro (⟨-, hwalk⟩ | ⟨h, -⟩)
  · obtain ⟨q, ⟨-, hname⟩, hend⟩ := Walk.cons_iff.mp hwalk
    rw [Walk.nil_iff.mp hend] at hname
    cases hname
  · cases h

end CourseOs.Fs
