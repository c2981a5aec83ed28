import Mathlib.Algebra.Order.Group.Multiset
import Mathlib.Data.Multiset.MapFold
import Mathlib.Logic.Function.Basic

/-!
# Heaps described by what was allocated

A heap is a partial function from addresses to what the cells hold.  `Owns
base cells own` says that since the heap was `base` the cells of `own`, each
given with what it holds, have been allocated, and that everything else is as
it was.

What is owned is a multiset, and a sum is the cells a routine works on and its
frame: the role of the separating conjunction is played by `+`, with the
disjointness in `Owns.nodup`.  A structure in the heap is described by the
multiset of its cells, and a routine by how it changes one summand.

## Main results

* `Owns.alloc`, `Owns.set`, `Owns.free` — the three changes, each of one
  summand.
* `Owns.eq_base_iff` — the heap is what it was exactly when nothing is owned.
  A tear-down that is to give everything back is shown to leave the empty
  multiset, and one that does not is seen by the cells that remain.
* `Owns.nodup_map` — structures that each own a cell have these cells at
  different addresses.
-/

namespace SymbolicHeap

variable {K V : Type*}

/-- The addresses of the cells, each as often as it is owned. -/
def addrs (own : Multiset (K × V)) : Multiset K := own.map Prod.fst

variable {base cells : K → Option V} {own own' : Multiset (K × V)} {k : K} {v w : V}

@[simp] theorem addrs_zero : addrs (0 : Multiset (K × V)) = 0 := Multiset.map_zero _

@[simp] theorem addrs_singleton : addrs ({(k, v)} : Multiset (K × V)) = {k} :=
  Multiset.map_singleton _ _

@[simp] theorem addrs_add : addrs (own + own') = addrs own + addrs own' := Multiset.map_add _ _ _

@[simp] theorem addrs_cons : addrs ((k, v) ::ₘ own) = k ::ₘ addrs own := Multiset.map_cons _ _ _

theorem mem_addrs (h : (k, v) ∈ own) : k ∈ addrs own := Multiset.mem_map_of_mem Prod.fst h

theorem exists_of_mem_addrs (h : k ∈ addrs own) : ∃ v, (k, v) ∈ own := by
  obtain ⟨⟨k', v⟩, hmem, rfl⟩ := Multiset.mem_map.mp h
  exact ⟨v, hmem⟩

variable [Zero K]

/-- The cells of `own` are those allocated since the heap was `base`.  They
were free in it, and every other cell is as it was. -/
structure Owns (base cells : K → Option V) (own : Multiset (K × V)) : Prop where
  nodup : (addrs own).Nodup
  ne_zero : ∀ k ∈ addrs own, k ≠ 0
  cell : ∀ k v, (k, v) ∈ own → cells k = some v
  fresh : ∀ k ∈ addrs own, base k = none
  frame : ∀ k, k ∉ addrs own → cells k = base k

namespace Owns

/-- Nothing has been allocated yet. -/
theorem start (base : K → Option V) : Owns base base 0 where
  nodup := Multiset.nodup_zero
  ne_zero k hk := absurd hk (Multiset.notMem_zero k)
  cell k v hk := absurd hk (Multiset.notMem_zero (k, v))
  fresh k hk := absurd hk (Multiset.notMem_zero k)
  frame _ _ := rfl

/-- The first cell is not in the frame. -/
theorem notMem (h : Owns base cells ({(k, v)} + own)) : k ∉ addrs own := by
  have hnodup := h.nodup
  rw [addrs_add, addrs_singleton, Multiset.singleton_add] at hnodup
  exact (Multiset.nodup_cons.mp hnodup).1

/-- Where nothing is allocated, nothing was, and nothing is owned. -/
theorem none_iff (h : Owns base cells own) :
    cells k = none ↔ base k = none ∧ k ∉ addrs own := by
  constructor
  · intro hnone
    have hk : k ∉ addrs own := by
      intro hmem
      obtain ⟨v, hv⟩ := exists_of_mem_addrs hmem
      rw [h.cell k v hv] at hnone
      cases hnone
    exact ⟨h.frame k hk ▸ hnone, hk⟩
  · rintro ⟨hnone, hk⟩
    rw [h.frame k hk, hnone]

/-- **Nothing is left** exactly when the heap is what it was before. -/
theorem eq_base_iff (h : Owns base cells own) : cells = base ↔ own = 0 := by
  constructor
  · rintro rfl
    apply Multiset.eq_zero_iff_forall_notMem.mpr
    rintro ⟨k, v⟩ hmem
    have hcell := h.cell k v hmem
    rw [h.fresh k (mem_addrs hmem)] at hcell
    cases hcell
  · rintro rfl
    funext k
    exact h.frame k (Multiset.notMem_zero k)

/-- Items that own cells have different addresses. -/
theorem nodup_map {ι : Type*} (items : ι → Multiset (K × V)) {addr : ι → K} {xs : List ι}
    (haddr : ∀ x, addr x ∈ addrs (items x)) (h : Owns base cells ((xs.map items).sum + own)) :
    (xs.map addr).Nodup := by
  have hle : ∀ xs : List ι, ((xs.map addr : List K) : Multiset K) ≤ addrs (xs.map items).sum := by
    intro xs
    induction xs with
    | nil => exact le_rfl
    | cons x xs ih =>
        rw [List.map_cons, List.map_cons, List.sum_cons, addrs_add, ← Multiset.cons_coe,
          ← Multiset.singleton_add]
        exact add_le_add (Multiset.singleton_le.mpr (haddr x)) ih
  have hnodup := h.nodup
  rw [addrs_add] at hnodup
  have hsum := Multiset.nodup_of_le (Multiset.le_add_right _ _) hnodup
  exact Multiset.coe_nodup.mp (Multiset.nodup_of_le (hle xs) hsum)

variable [DecidableEq K]

/-- A cell allocated: one more summand, at an address where there was nothing.
The cells that were there are the frame. -/
theorem alloc (h : Owns base cells own) (hk : k ≠ 0) (hnone : cells k = none) (v : V) :
    Owns base (Function.update cells k (some v)) ({(k, v)} + own) := by
  obtain ⟨hbase, hnew⟩ := h.none_iff.mp hnone
  rw [Multiset.singleton_add]
  constructor
  · rw [addrs_cons]
    exact Multiset.nodup_cons.mpr ⟨hnew, h.nodup⟩
  · intro k' hk'
    rw [addrs_cons] at hk'
    rcases Multiset.mem_cons.mp hk' with rfl | hk'
    · exact hk
    · exact h.ne_zero k' hk'
  · intro k' v' hmem
    rcases Multiset.mem_cons.mp hmem with heq | hown
    · cases heq
      exact Function.update_self ..
    · have hne : k' ≠ k := by
        rintro rfl
        exact hnew (mem_addrs hown)
      rw [Function.update_of_ne hne]
      exact h.cell k' v' hown
  · intro k' hk'
    rw [addrs_cons] at hk'
    rcases Multiset.mem_cons.mp hk' with rfl | hk'
    · exact hbase
    · exact h.fresh k' hk'
  · intro k' hk'
    rw [addrs_cons] at hk'
    obtain ⟨hne, hk'⟩ := not_or.mp (Multiset.mem_cons.not.mp hk')
    rw [Function.update_of_ne hne]
    exact h.frame k' hk'

/-- A cell freed: the summand goes, and the rest is the frame.  Its address is
then as it was in the beginning. -/
theorem free (h : Owns base cells ({(k, v)} + own)) :
    Owns base (Function.update cells k none) own := by
  have hnew := h.notMem
  have hmem : ∀ {x}, x ∈ own → x ∈ {(k, v)} + own := fun hx => Multiset.mem_add.mpr (.inr hx)
  have haddr : ∀ {k'}, k' ∈ addrs own → k' ∈ addrs ({(k, v)} + own) := by
    intro k' hk'
    rw [addrs_add]
    exact Multiset.mem_add.mpr (.inr hk')
  constructor
  · have hnodup := h.nodup
    rw [addrs_add, addrs_singleton, Multiset.singleton_add] at hnodup
    exact (Multiset.nodup_cons.mp hnodup).2
  · intro k' hk'
    exact h.ne_zero k' (haddr hk')
  · intro k' v' hown
    have hne : k' ≠ k := by
      rintro rfl
      exact hnew (mem_addrs hown)
    rw [Function.update_of_ne hne]
    exact h.cell k' v' (hmem hown)
  · intro k' hk'
    exact h.fresh k' (haddr hk')
  · intro k' hk'
    by_cases heq : k' = k
    · rw [heq, Function.update_self, h.fresh k]
      rw [addrs_add, addrs_singleton]
      exact Multiset.mem_add.mpr (.inl (Multiset.mem_singleton_self k))
    · rw [Function.update_of_ne heq]
      refine h.frame k' ?_
      rw [addrs_add, addrs_singleton, Multiset.mem_add, Multiset.mem_singleton]
      exact not_or.mpr ⟨heq, hk'⟩

/-- A cell written. -/
theorem set (h : Owns base cells ({(k, v)} + own)) (w : V) :
    Owns base (Function.update cells k (some w)) ({(k, w)} + own) := by
  have hk : k ≠ 0 := by
    apply h.ne_zero k
    rw [addrs_add, addrs_singleton]
    exact Multiset.mem_add.mpr (.inl (Multiset.mem_singleton_self k))
  have hfree := h.free.alloc hk (Function.update_self ..) w
  rwa [Function.update_idem] at hfree

end Owns

end SymbolicHeap
