import Mathlib.Logic.Equiv.Basic
import Mathlib.Order.Lattice

/-!
# Heap order by positions

A binary heap in positions `1, …, count`, the parent of `i` being `i / 2`.
Only the keys at the positions matter here: `k i` is the key at position `i`,
and an exchange of two positions is `k ∘ Equiv.swap i j`.  Nothing is said
about arrays, nodes or where a node finds its own position; a program that
keeps those in step with the keys uses the order of the keys as it is stated
here.

## Main definitions

* `Ordered k count` — the heap order.
* `Near k count hole` — the heap order with one position, the hole, allowed to
  be out of order with its parent and with its children.
* `Above` and `Below` — the hole is in order on one of the two sides.

## Main results

The two sifts of a binary heap repair a heap that is `Near`.  A step of either
(`Near.up`, `Near.down`) moves the hole and leaves it in order on the side it
came from, and a hole in order on both sides is none (`Near.ordered`).  A sift
therefore carries the invariant `Near` together with `Below` on the way up, or
`Above` on the way down, and ends where the missing half holds: at the root,
at a leaf, or where the comparison stops it.

The clause `across` of `Near` is what makes this go through.  When the hole
moves, its old parent becomes the parent of its old children, and without
`across` nothing would be known about that pair.
-/

namespace CourseOs

namespace BinaryHeap

variable {α : Type*} [LinearOrder α] {k : ℕ → α} {count hole c i : ℕ}

/-- Every position is at or after its parent. -/
def Ordered (k : ℕ → α) (count : ℕ) : Prop :=
  ∀ i, 2 ≤ i → i ≤ count → k (i / 2) ≤ k i

/-- In order except where `hole` is concerned: the pairs away from it are in
order, and its children are at or after its parent, so that the hole may be
exchanged with either side. -/
structure Near (k : ℕ → α) (count hole : ℕ) : Prop where
  off : ∀ i, 2 ≤ i → i ≤ count → i ≠ hole → i / 2 ≠ hole → k (i / 2) ≤ k i
  across : 2 ≤ hole → ∀ c, c / 2 = hole → c ≤ count → k (hole / 2) ≤ k c

/-- The hole is at or after its parent, if it has one. -/
def Above (k : ℕ → α) (hole : ℕ) : Prop := 2 ≤ hole → k (hole / 2) ≤ k hole

/-- The hole is at or before its children, those of them that are in the heap. -/
def Below (k : ℕ → α) (count hole : ℕ) : Prop := ∀ c, c / 2 = hole → c ≤ count → k hole ≤ k c

theorem Ordered.near (h : Ordered k count) (hole : ℕ) : Near k count hole where
  off i hi hic _ _ := h i hi hic
  across hh c hc hcc := by
    subst hc
    exact (h (c / 2) hh (by omega)).trans (h c (by omega) hcc)

theorem Ordered.mono {n : ℕ} (h : Ordered k count) (hn : n ≤ count) : Ordered k n :=
  fun i hi hin => h i hi (by omega)

theorem Ordered.above (h : Ordered k count) (hh : hole ≤ count) : Above k hole :=
  fun hole_ge => h hole hole_ge hh

/-- A hole in order on both sides is none: what the two sifts end with. -/
theorem Near.ordered (h : Near k count hole) (ha : Above k hole) (hb : Below k count hole) :
    Ordered k count := by
  intro i hi hic
  by_cases hih : i = hole
  · subst hih
    exact ha hi
  · by_cases hp : i / 2 = hole
    · rw [hp]
      exact hb i hp hic
    · exact h.off i hi hic hih hp

/-- A new last position is the only one that may be out of order. -/
theorem Ordered.near_last (h : Ordered k count) : Near k (count + 1) (count + 1) where
  off i hi hic hne _ := h i hi (by omega)
  across hh c hc hcc := by omega

/-- Nothing is below a position without children in the heap. -/
theorem Below.of_leaf (h : count < 2 * hole) : Below k count hole := by
  intro c hc hcc
  omega

/-- **Sifting up**: the hole goes before its parent and takes its place.  It
is then in order with what is below it, and only its new parent may have to be
looked at. -/
theorem Near.up (h : Near k count hole) (hh : 2 ≤ hole) (hhc : hole ≤ count)
    (hlt : k hole < k (hole / 2)) :
    Near (k ∘ Equiv.swap hole (hole / 2)) count (hole / 2) ∧
      Below (k ∘ Equiv.swap hole (hole / 2)) count (hole / 2) := by
  have hpar : (k ∘ Equiv.swap hole (hole / 2)) (hole / 2) = k hole := by simp
  have hself : (k ∘ Equiv.swap hole (hole / 2)) hole = k (hole / 2) := by simp
  have hrest : ∀ i, i ≠ hole → i ≠ hole / 2 → (k ∘ Equiv.swap hole (hole / 2)) i = k i :=
    fun i h₁ h₂ => congrArg k (Equiv.swap_apply_of_ne_of_ne h₁ h₂)
  -- every child of the parent is at or after the parent
  have hchild : ∀ c, c / 2 = hole / 2 → c ≤ count →
      k (hole / 2) ≤ (k ∘ Equiv.swap hole (hole / 2)) c := by
    intro c hc hcc
    by_cases hch : c = hole
    · rw [hch, hself]
    · rw [hrest c hch (by omega), ← hc]
      exact h.off c (by omega) hcc hch (by omega)
  refine ⟨⟨fun i hi hic hne hpne => ?_, fun hp c hc hcc => ?_⟩, fun c hc hcc => ?_⟩
  · have hih : i ≠ hole := fun hih => hpne (by rw [hih])
    rw [hrest i hih hne]
    by_cases hpi : i / 2 = hole
    · rw [hpi, hself]
      exact h.across hh i hpi hic
    · rw [hrest (i / 2) hpi hpne]
      exact h.off i hi hic hih hpi
  · rw [hrest (hole / 2 / 2) (by omega) (by omega)]
    exact (h.off (hole / 2) hp (by omega) (by omega) (by omega)).trans (hchild c hc hcc)
  · rw [hpar]
    exact hlt.le.trans (hchild c hc hcc)

/-- **Sifting down**: the hole goes after its least child and takes its place.
It is then in order with what is above it, and only its new children may have
to be looked at. -/
theorem Near.down (h : Near k count hole) (hc : c / 2 = hole) (hh : 1 ≤ hole) (hcc : c ≤ count)
    (hlt : k c < k hole) (hmin : ∀ d, d / 2 = hole → d ≤ count → k c ≤ k d) :
    Near (k ∘ Equiv.swap hole c) count c ∧ Above (k ∘ Equiv.swap hole c) c := by
  have hnew : (k ∘ Equiv.swap hole c) c = k hole := by simp
  have hself : (k ∘ Equiv.swap hole c) hole = k c := by simp
  have hrest : ∀ i, i ≠ hole → i ≠ c → (k ∘ Equiv.swap hole c) i = k i :=
    fun i h₁ h₂ => congrArg k (Equiv.swap_apply_of_ne_of_ne h₁ h₂)
  refine ⟨⟨fun i hi hic hne hpne => ?_, fun hc₂ d hd hdc => ?_⟩, fun _ => ?_⟩
  · by_cases hih : i = hole
    · rw [hih, hself, hrest (hole / 2) (by omega) (by omega)]
      exact h.across (by omega) c hc hcc
    · rw [hrest i hih hne]
      by_cases hpi : i / 2 = hole
      · rw [hpi, hself]
        exact hmin i hpi hic
      · rw [hrest (i / 2) hpi hpne]
        exact h.off i hi hic hih hpi
  · rw [hc, hself, hrest d (by omega) (by omega)]
    have := h.off d (by omega) hdc (by omega) (by omega)
    rwa [hd] at this
  · rw [hc, hself, hnew]
    exact hlt.le

/-- The first position of an ordered heap holds a least key, by induction
along the parents. -/
theorem Ordered.head_le (h : Ordered k count) : ∀ i, 1 ≤ i → i ≤ count → k 1 ≤ k i := by
  intro i
  induction i using Nat.strongRecOn with
  | ind i ih =>
      intro hi hic
      by_cases h1 : i = 1
      · rw [h1]
      · exact (ih (i / 2) (by omega) (by omega) (by omega)).trans (h i (by omega) hic)

/-- Keys that agree on the heap order it alike. -/
theorem Ordered.congr {k' : ℕ → α} (h : Ordered k count)
    (heq : ∀ i, 1 ≤ i → i ≤ count → k' i = k i) : Ordered k' count := by
  intro i hi hic
  rw [heq i (by omega) hic, heq (i / 2) (by omega) (by omega)]
  exact h i hi hic

end BinaryHeap

end CourseOs
