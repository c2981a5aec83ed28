import CourseOs.Lib.OwnedList
import Mathlib.Data.Set.Card

/-!
# Families of linked lists in one store

The buckets of a hash table are a family of linked lists whose cells come from
one allocator.  `Chains store hd cs` says that for every index `i` following
`next` from `hd i` visits the cells of `cs i`, that no cell is in two of the
lists, and that no other cell is allocated.

## Main results

Each law of `OwnedList.Owned` is one for the list at an index, with the cells
of the other lists for those it has lost (`Chains.owned` and
`Chains.replace`): `push`, `pop`, `set` and `unlink` are obtained in this way.
`Chains.move` takes a cell from the front of one list to the front of another
without freeing it in between, as a table does that is filled again; it is no
composition of the others, since the cell stays allocated all along.

`Chains.sum_nil` and `Chains.of_sum_nil` add a second family of empty lists,
and drop the first when its lists have become empty.  A table that moves all
its cells to new buckets is one family on the way, indexed by a sum.
-/

namespace OwnedList

variable {ι κ α : Type*} [Zero κ]

/-- The lists of `cs`, one for each index, are what is allocated: no cell is
in two of them, and there is no other cell. -/
structure Chains (store : κ → Option (Cell κ α)) (hd : ι → κ) (cs : ι → List (κ × α)) : Prop where
  linked : ∀ i, Linked store (hd i) (cs i)
  nodup : ∀ i, ((cs i).map Prod.fst).Nodup
  apart : ∀ i j k, k ∈ (cs i).map Prod.fst → k ∈ (cs j).map Prod.fst → i = j
  live : ∀ k, store k ≠ none ↔ ∃ i, k ∈ (cs i).map Prod.fst
  finite : {k | store k ≠ none}.Finite

namespace Chains

variable {store store' : κ → Option (Cell κ α)} {hd : ι → κ} {cs : ι → List (κ × α)}
  {i j : ι} {a p h' : κ} {x y : α} {l r cs' : List (κ × α)} {lost : List κ}

/-- Nothing is allocated. -/
theorem empty :
    Chains (fun _ : κ => (none : Option (Cell κ α))) (fun _ : ι => 0) (fun _ => []) where
  linked _ := rfl
  nodup _ := List.nodup_nil
  apart _ _ _ hk _ := absurd hk List.not_mem_nil
  live _ := iff_of_false (fun h => h rfl) fun ⟨_, hk⟩ => List.not_mem_nil hk
  finite := by
    have hnone : {k : κ | (none : Option (Cell κ α)) ≠ none} = ∅ :=
      Set.eq_empty_of_forall_notMem fun _ h => h rfl
    rw [hnone]
    exact Set.finite_empty

/-- The list at one index, with the cells of the others, which it may not
touch, for those it has lost. -/
theorem owned (h : Chains store hd cs) (i : ι) : ∃ lost, Owned store (hd i) (cs i) lost ∧
    ∀ k, k ∈ lost ↔ ∃ j ≠ i, k ∈ (cs j).map Prod.fst := by
  have hfin : {k | ∃ j ≠ i, k ∈ (cs j).map Prod.fst}.Finite := by
    refine h.finite.subset ?_
    rintro k ⟨j, -, hk⟩
    exact (h.live k).mpr ⟨j, hk⟩
  have hlost : ∀ k, k ∈ hfin.toFinset.toList ↔ ∃ j ≠ i, k ∈ (cs j).map Prod.fst := by
    intro k
    rw [Finset.mem_toList, Set.Finite.mem_toFinset]
    rfl
  refine ⟨hfin.toFinset.toList, ⟨h.linked i, ?_, fun k => ?_⟩, hlost⟩
  · refine List.nodup_append.mpr ⟨h.nodup i, Finset.nodup_toList _, ?_⟩
    rintro k hk k' hk' rfl
    obtain ⟨j, hj, hkj⟩ := (hlost k).mp hk'
    exact hj (h.apart j i k hkj hk)
  · rw [h.live k, List.mem_append, hlost k]
    constructor
    · rintro ⟨j, hk⟩
      by_cases hj : j = i
      · exact .inl (hj ▸ hk)
      · exact .inr ⟨j, hj, hk⟩
    · rintro (hk | ⟨j, -, hk⟩)
      · exact ⟨i, hk⟩
      · exact ⟨j, hk⟩

/-- No list has more cells than are allocated. -/
theorem length_le (h : Chains store hd cs) (i : ι) :
    (cs i).length ≤ {k | store k ≠ none}.ncard := by
  classical
  rw [← List.length_map Prod.fst, ← List.toFinset_card_of_nodup (h.nodup i),
    ← Set.ncard_coe_finset]
  refine Set.ncard_le_ncard (fun k hk => ?_) h.finite
  rw [List.coe_toFinset] at hk
  exact (h.live k).mpr ⟨i, hk⟩

/-- The cells of different lists, one after the other. -/
theorem nodup_flatMap (h : Chains store hd cs) {is : List ι} (his : is.Nodup) :
    ((is.flatMap cs).map Prod.fst).Nodup := by
  rw [List.map_flatMap]
  refine List.nodup_flatMap.mpr ⟨fun i _ => h.nodup i, his.imp fun hij k hk hk' => ?_⟩
  exact hij (h.apart _ _ k hk hk')

/-- Lists without cells beside the others, which own nothing and are apart
from all. -/
theorem sum_nil (h : Chains store hd cs) (ι' : Type*) :
    Chains store (Sum.elim hd fun _ : ι' => 0) (Sum.elim cs fun _ => []) where
  linked i := by
    cases i with
    | inl i => exact h.linked i
    | inr i => rfl
  nodup i := by
    cases i with
    | inl i => exact h.nodup i
    | inr i => exact List.nodup_nil
  apart i j k hi hj := by
    cases i with
    | inl i =>
        cases j with
        | inl j => exact congrArg Sum.inl (h.apart i j k hi hj)
        | inr j => exact absurd hj List.not_mem_nil
    | inr i => exact absurd hi List.not_mem_nil
  live k := by
    rw [h.live k]
    constructor
    · rintro ⟨i, hk⟩
      exact ⟨.inl i, hk⟩
    · rintro ⟨i | i, hk⟩
      · exact ⟨i, hk⟩
      · exact absurd hk List.not_mem_nil
  finite := h.finite

/-- The other lists, when those beside them have no cells left. -/
theorem of_sum_nil {ι' : Type*} {hd' : ι' → κ} (h : Chains store (Sum.elim hd' hd)
    (Sum.elim (fun _ => []) cs)) : Chains store hd cs where
  linked i := h.linked (.inr i)
  nodup i := h.nodup (.inr i)
  apart i j k hi hj := Sum.inr.inj (h.apart (.inr i) (.inr j) k hi hj)
  live k := by
    rw [h.live k]
    constructor
    · rintro ⟨i | i, hk⟩
      · exact absurd hk List.not_mem_nil
      · exact ⟨i, hk⟩
    · rintro ⟨i, hk⟩
      exact ⟨.inr i, hk⟩
  finite := h.finite

variable [DecidableEq ι]

/-- One list changed, the others where they were: what a law about one list
gives for the family. -/
theorem replace (h : Chains store hd cs) (hlost : ∀ k, k ∈ lost ↔ ∃ j ≠ i, k ∈ (cs j).map Prod.fst)
    (howned : Owned store' h' cs' lost) (hsame : ∀ k ∈ lost, store' k = store k) :
    Chains store' (Function.update hd i h') (Function.update cs i cs') := by
  obtain ⟨hnodup, -, hdisj⟩ := List.nodup_append.mp howned.nodup
  -- no cell of another list is in the new one
  have hother : ∀ j ≠ i, ∀ k ∈ (cs j).map Prod.fst, k ∉ cs'.map Prod.fst := fun j hj k hk hk' =>
    hdisj k hk' k ((hlost k).mpr ⟨j, hj, hk⟩) rfl
  have hlive : ∀ k, store' k ≠ none ↔ ∃ j, k ∈ (Function.update cs i cs' j).map Prod.fst := by
    intro k
    rw [howned.live k, List.mem_append, hlost k]
    constructor
    · rintro (hk | ⟨j, hj, hk⟩)
      · exact ⟨i, by rwa [Function.update_self]⟩
      · exact ⟨j, by rwa [Function.update_of_ne hj]⟩
    · rintro ⟨j, hk⟩
      by_cases hj : j = i
      · subst hj
        rw [Function.update_self] at hk
        exact .inl hk
      · rw [Function.update_of_ne hj] at hk
        exact .inr ⟨j, hj, hk⟩
  refine ⟨fun j => ?_, fun j => ?_, fun j j' k hk hk' => ?_, hlive, ?_⟩
  · by_cases hj : j = i
    · subst hj
      rw [Function.update_self, Function.update_self]
      exact howned.linked
    · rw [Function.update_of_ne hj, Function.update_of_ne hj]
      refine (h.linked j).congr fun c hc => hsame c.1 ((hlost c.1).mpr ⟨j, hj, ?_⟩)
      exact List.mem_map_of_mem hc
  · by_cases hj : j = i
    · subst hj
      rwa [Function.update_self]
    · rw [Function.update_of_ne hj]
      exact h.nodup j
  · by_cases hj : j = i <;> by_cases hj' : j' = i
    · exact hj.trans hj'.symm
    · subst hj
      rw [Function.update_self] at hk
      rw [Function.update_of_ne hj'] at hk'
      exact absurd hk (hother j' hj' k hk')
    · subst hj'
      rw [Function.update_self] at hk'
      rw [Function.update_of_ne hj] at hk
      exact absurd hk' (hother j hj k hk)
    · rw [Function.update_of_ne hj] at hk
      rw [Function.update_of_ne hj'] at hk'
      exact h.apart j j' k hk hk'
  · have hset : {k | store' k ≠ none} = {k | k ∈ cs'.map Prod.fst ++ lost} := by
      ext k
      exact howned.live k
    rw [hset]
    exact List.finite_toSet _

variable [DecidableEq κ]

/-- Put a new cell in front of one list. -/
theorem push (h : Chains store hd cs) (i : ι) (ha : a ≠ 0) (hfree : store a = none) (x : α) :
    Chains (Function.update store a (some ⟨hd i, x⟩)) (Function.update hd i a)
      (Function.update cs i ((a, x) :: cs i)) := by
  obtain ⟨lost, howned, hlost⟩ := h.owned i
  have hnotin : a ∉ lost := fun hmem => (howned.live a).mpr (List.mem_append_right _ hmem) hfree
  exact h.replace hlost (howned.push ha hfree) fun k hk =>
    Function.update_of_ne (ne_of_mem_of_not_mem hk hnotin) _ _

/-- Drop the first cell of one list and free it. -/
theorem pop (h : Chains store hd cs) (hi : cs i = (a, x) :: r) :
    hd i = a ∧ a ≠ 0 ∧ ∃ n, store a = some ⟨n, x⟩ ∧
      Chains (Function.update store a none) (Function.update hd i n) (Function.update cs i r) := by
  obtain ⟨lost, howned, hlost⟩ := h.owned i
  rw [hi] at howned
  have hnotin : a ∉ lost := fun hmem =>
    (List.nodup_append.mp howned.nodup).2.2 a List.mem_cons_self a hmem rfl
  obtain ⟨hhd, hne, n, hn, hrest⟩ := howned.pop
  exact ⟨hhd, hne, n, hn, h.replace hlost hrest fun k hk =>
    Function.update_of_ne (ne_of_mem_of_not_mem hk hnotin) _ _⟩

/-- Overwrite what a cell holds.  Its link stays, and so do all the chains. -/
theorem set (h : Chains store hd cs) (hi : cs i = l ++ (a, x) :: r) (y : α) :
    a ≠ 0 ∧ ∃ n, store a = some ⟨n, x⟩ ∧
      Chains (Function.update store a (some ⟨n, y⟩)) hd
        (Function.update cs i (l ++ (a, y) :: r)) := by
  obtain ⟨lost, howned, hlost⟩ := h.owned i
  rw [hi] at howned
  have hnotin : a ∉ lost := fun hmem =>
    (List.nodup_append.mp howned.nodup).2.2 a
      (List.mem_map_of_mem (List.mem_append_right l List.mem_cons_self)) a hmem rfl
  obtain ⟨hne, n, hn, hset⟩ := howned.set y
  refine ⟨hne, n, hn, ?_⟩
  have hreplaced := h.replace hlost hset fun k hk =>
    Function.update_of_ne (ne_of_mem_of_not_mem hk hnotin) _ _
  rwa [Function.update_eq_self] at hreplaced

/-- Take out the cell behind `p` and free it.  The cell at `p` now leads to
the one behind it. -/
theorem unlink (h : Chains store hd cs) (hi : cs i = l ++ (p, y) :: (a, x) :: r) :
    p ≠ 0 ∧ a ≠ 0 ∧ p ≠ a ∧ store p = some ⟨a, y⟩ ∧ ∃ n, store a = some ⟨n, x⟩ ∧
      Chains (Function.update (Function.update store p (some ⟨n, y⟩)) a none) hd
        (Function.update cs i (l ++ (p, y) :: r)) := by
  obtain ⟨lost, howned, hlost⟩ := h.owned i
  rw [hi] at howned
  have hnotin : ∀ c ∈ l ++ (p, y) :: (a, x) :: r, c.1 ∉ lost := fun c hc hmem =>
    (List.nodup_append.mp howned.nodup).2.2 c.1 (List.mem_map_of_mem hc) c.1 hmem rfl
  have hp := hnotin (p, y) (List.mem_append_right l List.mem_cons_self)
  have ha := hnotin (a, x) (List.mem_append_right l (List.mem_cons_of_mem _ List.mem_cons_self))
  obtain ⟨hp0, ha0, hpa, hpn, n, hn, hcut⟩ := howned.unlink
  refine ⟨hp0, ha0, hpa, hpn, n, hn, ?_⟩
  have hsame : ∀ k ∈ lost,
      Function.update (Function.update store p (some ⟨n, y⟩)) a none k = store k := by
    intro k hk
    rw [Function.update_of_ne (ne_of_mem_of_not_mem hk ha),
      Function.update_of_ne (ne_of_mem_of_not_mem hk hp)]
  have hreplaced := h.replace hlost hcut hsame
  rwa [Function.update_eq_self] at hreplaced

/-- **A cell moved** from the front of one list to the front of another.  It
is never free in between. -/
theorem move (h : Chains store hd cs) (hi : cs i = (a, x) :: r) (hij : j ≠ i) :
    hd i = a ∧ a ≠ 0 ∧ ∃ n, store a = some ⟨n, x⟩ ∧
      Chains (Function.update store a (some ⟨hd j, x⟩))
        (Function.update (Function.update hd i n) j a)
        (Function.update (Function.update cs i r) j ((a, x) :: cs j)) := by
  obtain ⟨hhd, hne, n, hn, hrest⟩ := h.pop hi
  refine ⟨hhd, hne, n, hn, ?_⟩
  have hpushed := hrest.push j hne (Function.update_self ..) x
  rwa [Function.update_idem, Function.update_of_ne hij, Function.update_of_ne hij] at hpushed

end Chains

end OwnedList
