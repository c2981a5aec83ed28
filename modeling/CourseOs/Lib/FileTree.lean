import CourseOs.Lib.NameWalk
import CourseOs.Lib.SharedFile

/-!
# Trees of files

The meaning of a file system, without blocks, inodes or descriptors.  An entry
has the path that leads to it from the root; behind it is a directory, or a
`SharedFile` with the handles that are open on it.  Entries are added to
directories and files change; nothing moves and nothing is removed, as in a
file system that has neither `rename` nor `unlink`.

## Main definitions

* `FileTree` — the path of each entry, and the file behind it.
* `FileTree.WellFormed` — what makes this a tree: different paths for
  different entries, a directory above each entry but the root, and each
  handle open on one file.
* `FileTree.Along R r` — the paths are the walks along `R` from `r`.

## Main results

A file system in memory has its entries linked by steps along names, from a
root that no step leads to.  `Along` says that the tree is the unfolding of
these links, and `Along.add` that one new link to a new entry adds one leaf to
the tree.  The condition that no step leads out of or into the new entry
before is needed: an entry that already had contents would bring a whole
subtree with it.
-/

/-- The path of each entry and the file behind it, if it is not a directory.
The path is `none` for what is not an entry. -/
@[ext]
structure FileTree (κ ν η α : Type*) where
  path : κ → Option (List ν)
  file : κ → Option (SharedFile η α)

namespace FileTree

variable {κ ν η α : Type*} {t : FileTree κ ν η α} {R S : κ → ν → κ → Prop} {r p q : κ} {c : ν}
  {cs : List ν}

/-- What a lookup of `cs` is to find: the node at that path, or nothing where
there is none. -/
def At (t : FileTree κ ν η α) (cs : List ν) : Option κ → Prop
  | some p => t.path p = some cs
  | none => ∀ p, t.path p ≠ some cs

/-- Entries have different paths, all but the root are in a directory, files
are entries of which no handle stands past the end, and each handle is open on
one file. -/
structure WellFormed (t : FileTree κ ν η α) : Prop where
  injective : ∀ p q cs, t.path p = some cs → t.path q = some cs → p = q
  parent : ∀ p cs c, t.path p = some (cs ++ [c]) → ∃ q, t.path q = some cs ∧ t.file q = none
  entry : ∀ p A, t.file p = some A → ∃ cs, t.path p = some cs
  bounded : ∀ p A, t.file p = some A → A.Bounded
  handle : ∀ p q A B h, t.file p = some A → t.file q = some B → (A.position h).isSome →
    (B.position h).isSome → p = q

section Operations

variable [DecidableEq κ]

/-- A root with nothing in it. -/
def root (r : κ) : FileTree κ ν η α where
  path p := if p = r then some [] else none
  file _ := none

/-- A new entry `q` with the name `c`, in the directory `p`. -/
def add (t : FileTree κ ν η α) (p q : κ) (c : ν) (file : Option (SharedFile η α)) :
    FileTree κ ν η α where
  path := Function.update t.path q ((t.path p).map (· ++ [c]))
  file := Function.update t.file q file

/-- The file of `p` becomes `A`, and no other node changes. -/
def setFile (t : FileTree κ ν η α) (p : κ) (A : SharedFile η α) : FileTree κ ν η α :=
  { t with file := Function.update t.file p (some A) }

@[simp] theorem setFile_path (A : SharedFile η α) : (t.setFile p A).path = t.path := rfl

end Operations

/-! ### Steps along names

A program that looks up paths goes from entry to entry, by a relation of its
own.  The paths of a tree are the walks along this relation, and stay so when
an entry is added as a leaf. -/

/-- The paths of the tree are the walks along `R` from `r`. -/
def Along (t : FileTree κ ν η α) (R : κ → ν → κ → Prop) (r : κ) : Prop :=
  ∀ p cs, t.path p = some cs ↔ Walk R r cs p

theorem Along.root [DecidableEq κ] (hnone : ∀ p c q, ¬R p c q) :
    (root r : FileTree κ ν η α).Along R r := by
  intro p cs
  show (if p = r then some [] else none) = some cs ↔ _
  constructor
  · intro h
    by_cases hp : p = r
    · rw [if_pos hp, Option.some.injEq] at h
      rw [← h, hp]
      exact .nil r
    · rw [if_neg hp] at h
      cases h
  · intro h
    cases h with
    | nil => exact if_pos rfl
    | cons hstep => exact absurd hstep (hnone _ _ _)

/-- **A new entry** is a new leaf: the walks along the new steps are the paths
of the tree with the entry added. -/
theorem Along.add [DecidableEq κ] (h : t.Along R r)
    (hS : ∀ x y z, S x y z ↔ R x y z ∨ x = p ∧ y = c ∧ z = q)
    (hin : ∀ x y, ¬R x y q) (hout : ∀ y z, ¬R q y z) (hpq : p ≠ q) (hrq : r ≠ q)
    (file : Option (SharedFile η α)) : (t.add p q c file).Along S r := by
  intro x cs
  have hq : t.path q = none := by
    refine Option.eq_none_iff_forall_ne_some.mpr fun cs' hcs' => ?_
    rcases ((h q cs').mp hcs').eq_or_step with heq | ⟨y, z, hstep⟩
    · exact hrq heq
    · exact hin y z hstep
  rw [Walk.add_leaf hS hin hout hpq hrq]
  show Function.update t.path q _ x = some cs ↔ _
  by_cases hx : x = q
  · subst hx
    rw [Function.update_self]
    have hold : ¬Walk R r cs x := by
      intro hwalk
      rw [(h x cs).mpr hwalk] at hq
      cases hq
    constructor
    · intro hmap
      obtain ⟨cs', hpath, rfl⟩ := Option.map_eq_some_iff.mp hmap
      exact .inr ⟨cs', rfl, (h p cs').mp hpath, rfl⟩
    · rintro (hwalk | ⟨cs', rfl, hwalk, -⟩)
      · exact absurd hwalk hold
      · rw [(h p cs').mpr hwalk]
        rfl
  · rw [Function.update_of_ne hx, h x cs]
    refine ⟨.inl, ?_⟩
    rintro (hwalk | ⟨-, -, -, heq⟩)
    · exact hwalk
    · exact absurd heq hx

end FileTree
