import Mathlib.Data.List.Nodup
import Mathlib.Logic.Function.Basic

/-!
# Linked lists that own their cells

A store gives the cells that are allocated, as a partial function: reading a
cell that is not there is an error of the program.  `Linked store hd cs` says
that following `next` from `hd` visits the cells of `cs`, each given by its
address and what it holds, and ends at null.  `Owned store hd cs lost` adds
that besides them only the cells of `lost` are allocated, which no pointer of
the list leads to.

## Main results

* `push`, `pop`, `unlink`, `set` — a cell is put in front, dropped and freed,
  taken out behind another, overwritten.
* `forget` — the first cell is dropped from the list and *not* freed: it goes
  to `lost`.
* `live_iff` — the list is all that is allocated exactly when nothing is lost.

With the lost cells in the statement, the same predicate follows a routine
that leaks and one that does not, and what has leaked can be counted at the
end.
-/

namespace OwnedList

/-- A cell of the list: where the next one is, and what it carries. -/
structure Cell (κ α : Type*) where
  next : κ
  data : α

variable {κ α : Type*} [Zero κ]

/-- The cells reached from `hd`, with what they hold. -/
def Linked (store : κ → Option (Cell κ α)) : κ → List (κ × α) → Prop
  | hd, [] => hd = 0
  | hd, c :: cs => hd = c.1 ∧ c.1 ≠ 0 ∧ ∃ n, store c.1 = some ⟨n, c.2⟩ ∧ Linked store n cs

variable {store store' : κ → Option (Cell κ α)} {hd a p n : κ} {x y : α}
  {cs l r : List (κ × α)} {lost : List κ}

@[simp] theorem linked_nil : Linked store hd [] ↔ hd = 0 := Iff.rfl

@[simp] theorem linked_cons : Linked store hd ((a, x) :: cs) ↔
    hd = a ∧ a ≠ 0 ∧ ∃ n, store a = some ⟨n, x⟩ ∧ Linked store n cs := Iff.rfl

/-- Only the cells of the list matter. -/
theorem Linked.congr (h : Linked store hd cs) (hs : ∀ c ∈ cs, store' c.1 = store c.1) :
    Linked store' hd cs := by
  induction cs generalizing hd with
  | nil => exact h
  | cons c cs ih =>
      obtain ⟨hhd, hne, n, hn, hrest⟩ := h
      refine ⟨hhd, hne, n, (hs c List.mem_cons_self).trans hn, ih hrest fun d hd => ?_⟩
      exact hs d (List.mem_cons_of_mem c hd)

/-- The list of a prefix that is kept, when the rest is replaced from the cell
after it. -/
theorem Linked.replace_tail {cs' : List (κ × α)} (h : Linked store hd (l ++ cs))
    (hl : ∀ c ∈ l, store' c.1 = store c.1)
    (hcs : ∀ hd, Linked store hd cs → Linked store' hd cs') : Linked store' hd (l ++ cs') := by
  induction l generalizing hd with
  | nil => exact hcs hd h
  | cons c l ih =>
      obtain ⟨hhd, hne, n, hn, hrest⟩ := h
      refine ⟨hhd, hne, n, (hl c List.mem_cons_self).trans hn, ih hrest fun d hd => ?_⟩
      exact hl d (List.mem_cons_of_mem c hd)

/-- Every cell is allocated. -/
theorem Linked.cell (h : Linked store hd cs) (hc : (a, x) ∈ cs) :
    a ≠ 0 ∧ ∃ n, store a = some ⟨n, x⟩ := by
  induction cs generalizing hd with
  | nil => cases hc
  | cons c cs ih =>
      obtain ⟨-, hne, n, hn, hrest⟩ := h
      rcases List.mem_cons.mp hc with rfl | hc
      · exact ⟨hne, n, hn⟩
      · exact ih hrest hc

/-- The store determines what is reached. -/
theorem Linked.unique {cs' : List (κ × α)} (h : Linked store hd cs) (h' : Linked store hd cs') :
    cs = cs' := by
  induction cs generalizing hd cs' with
  | nil =>
      cases cs' with
      | nil => rfl
      | cons c' cs' => exact absurd (h'.1.symm.trans h) h'.2.1
  | cons c cs ih =>
      obtain ⟨hhd, hne, n, hn, hrest⟩ := h
      cases cs' with
      | nil => exact absurd (hhd.symm.trans h') hne
      | cons c' cs' =>
          obtain ⟨hhd', -, n', hn', hrest'⟩ := h'
          have hkey : c.1 = c'.1 := hhd.symm.trans hhd'
          rw [hkey, hn', Option.some.injEq, Cell.mk.injEq] at hn
          rw [Prod.ext hkey hn.2.symm, ih (hn.1 ▸ hrest) hrest']

/-- A cell with another behind it points to that one. -/
theorem Linked.next_eq (h : Linked store hd (l ++ (p, y) :: (a, x) :: r)) :
    store p = some ⟨a, y⟩ := by
  induction l generalizing hd with
  | nil =>
      obtain ⟨-, -, n, hn, hna, -⟩ := h
      obtain rfl : n = a := hna
      exact hn
  | cons c l ih =>
      obtain ⟨-, -, n, -, hrest⟩ := h
      exact ih hrest

/-- The list of `cs`, and the cells of `lost`, are what is allocated, each
once. -/
structure Owned (store : κ → Option (Cell κ α)) (hd : κ) (cs : List (κ × α)) (lost : List κ) :
    Prop where
  linked : Linked store hd cs
  nodup : (cs.map Prod.fst ++ lost).Nodup
  live : ∀ k, store k ≠ none ↔ k ∈ cs.map Prod.fst ++ lost

namespace Owned

/-- Exactly the cells of the list are allocated when none is lost. -/
theorem live_iff (h : Owned store hd cs lost) :
    (∀ k, store k ≠ none ↔ k ∈ cs.map Prod.fst) ↔ lost = [] := by
  constructor
  · intro hlive
    apply List.eq_nil_iff_forall_not_mem.mpr
    intro k hk
    have hmem : k ∈ cs.map Prod.fst :=
      (hlive k).mp ((h.live k).mpr (List.mem_append_right _ hk))
    exact (List.nodup_append.mp h.nodup).2.2 k hmem k hk rfl
  · rintro rfl k
    rw [h.live k, List.append_nil]

variable [DecidableEq κ]

/-- Put a new cell in front. -/
theorem push (h : Owned store hd cs lost) (ha : a ≠ 0) (hfree : store a = none) :
    Owned (Function.update store a (some ⟨hd, x⟩)) a ((a, x) :: cs) lost := by
  have hnew : a ∉ cs.map Prod.fst ++ lost := fun hmem => (h.live a).mpr hmem hfree
  refine ⟨⟨rfl, ha, hd, Function.update_self .., h.linked.congr fun c hc => ?_⟩,
    List.nodup_cons.mpr ⟨hnew, h.nodup⟩, fun k => ?_⟩
  · apply Function.update_of_ne
    have hmem : c.1 ∈ cs.map Prod.fst := List.mem_map_of_mem hc
    intro heq
    exact hnew (heq ▸ List.mem_append_left _ hmem)
  · rw [List.map_cons, List.cons_append, List.mem_cons]
    by_cases hk : k = a
    · subst hk
      rw [Function.update_self]
      exact iff_of_true nofun (.inl rfl)
    · rw [Function.update_of_ne hk, h.live k]
      exact (or_iff_right hk).symm

/-- Drop the first cell and free it. -/
theorem pop (h : Owned store hd ((a, x) :: cs) lost) :
    hd = a ∧ a ≠ 0 ∧ ∃ n, store a = some ⟨n, x⟩ ∧
      Owned (Function.update store a none) n cs lost := by
  obtain ⟨hhd, hne, n, hn, hrest⟩ := h.linked
  obtain ⟨hnew, hnodup⟩ := List.nodup_cons.mp h.nodup
  refine ⟨hhd, hne, n, hn, hrest.congr fun c hc => ?_, hnodup, fun k => ?_⟩
  · apply Function.update_of_ne
    have hmem : c.1 ∈ cs.map Prod.fst := List.mem_map_of_mem hc
    intro heq
    exact hnew (heq ▸ List.mem_append_left _ hmem)
  · by_cases hk : k = a
    · subst hk
      rw [Function.update_self]
      exact iff_of_false (fun hne => hne rfl) hnew
    · rw [Function.update_of_ne hk, h.live k, List.map_cons, List.cons_append, List.mem_cons]
      exact or_iff_right hk

omit [DecidableEq κ] in
/-- Drop the first cell and forget it: it stays allocated, and nothing points
at it any more. -/
theorem forget (h : Owned store hd ((a, x) :: cs) lost) :
    hd = a ∧ a ≠ 0 ∧ ∃ n, store a = some ⟨n, x⟩ ∧ Owned store n cs (a :: lost) := by
  obtain ⟨hhd, hne, n, hn, hrest⟩ := h.linked
  have hperm : (((a, x) :: cs).map Prod.fst ++ lost).Perm (cs.map Prod.fst ++ a :: lost) :=
    List.perm_middle.symm
  exact ⟨hhd, hne, n, hn, hrest, hperm.nodup_iff.mp h.nodup,
    fun k => (h.live k).trans hperm.mem_iff⟩

/-- Overwrite what a cell holds.  Its link and all the other cells stay, so
that the list is the same but for the value. -/
theorem set (h : Owned store hd (l ++ (a, x) :: r) lost) (y : α) :
    a ≠ 0 ∧ ∃ n, store a = some ⟨n, x⟩ ∧
      Owned (Function.update store a (some ⟨n, y⟩)) hd (l ++ (a, y) :: r) lost := by
  obtain ⟨hne, n, hn⟩ := h.linked.cell (List.mem_append_right l List.mem_cons_self)
  have hkeys : (l ++ (a, y) :: r).map Prod.fst = (l ++ (a, x) :: r).map Prod.fst := by
    rw [List.map_append, List.map_append]
    rfl
  have hnodup := (List.nodup_append.mp h.nodup).1
  rw [List.map_append] at hnodup
  obtain ⟨-, hr, hdisj⟩ := List.nodup_append.mp hnodup
  refine ⟨hne, n, hn, h.linked.replace_tail (fun c hc => ?_) ?_, hkeys ▸ h.nodup, fun k => ?_⟩
  · exact Function.update_of_ne
      (hdisj c.1 (List.mem_map_of_mem hc) a (List.mem_map_of_mem List.mem_cons_self)) _ _
  · rintro hd ⟨hhd, hne, m, hm, hrest⟩
    obtain rfl : n = m := congrArg Cell.next (Option.some.inj (hn.symm.trans hm))
    refine ⟨hhd, hne, n, Function.update_self .., hrest.congr fun c hc => ?_⟩
    apply Function.update_of_ne
    have hmem : c.1 ∈ r.map Prod.fst := List.mem_map_of_mem hc
    intro heq
    exact (List.nodup_cons.mp hr).1 (heq ▸ hmem)
  · rw [hkeys, ← h.live k]
    by_cases hk : k = a
    · subst hk
      rw [Function.update_self, hn]
      exact iff_of_true nofun nofun
    · rw [Function.update_of_ne hk]

/-- Take out the cell behind `p` and free it.  The lost cells are the same as
before. -/
theorem unlink (h : Owned store hd (l ++ (p, y) :: (a, x) :: r) lost) :
    p ≠ 0 ∧ a ≠ 0 ∧ p ≠ a ∧ store p = some ⟨a, y⟩ ∧ ∃ n, store a = some ⟨n, x⟩ ∧
      Owned (Function.update (Function.update store p (some ⟨n, y⟩)) a none) hd
        (l ++ (p, y) :: r) lost := by
  have hp : (p, y) ∈ l ++ (p, y) :: (a, x) :: r := List.mem_append_right l List.mem_cons_self
  have ha : (a, x) ∈ l ++ (p, y) :: (a, x) :: r :=
    List.mem_append_right l (List.mem_cons_of_mem _ List.mem_cons_self)
  obtain ⟨hp0, -⟩ := h.linked.cell hp
  obtain ⟨ha0, n, hn⟩ := h.linked.cell ha
  -- the other cells are where they were, and apart from these two
  have hperm : ((l ++ (p, y) :: (a, x) :: r).map Prod.fst ++ lost).Perm
      (a :: p :: (l.map Prod.fst ++ (r.map Prod.fst ++ lost))) := by
    rw [List.map_append, List.append_assoc]
    refine List.perm_middle.trans ((List.perm_middle.cons p).trans ?_)
    exact List.Perm.swap a p _
  obtain ⟨hanew, hnodup⟩ := List.nodup_cons.mp (hperm.nodup_iff.mp h.nodup)
  obtain ⟨hpnew, -⟩ := List.nodup_cons.mp hnodup
  have hkeys : ((l ++ (p, y) :: r).map Prod.fst ++ lost).Perm
      (p :: (l.map Prod.fst ++ (r.map Prod.fst ++ lost))) := by
    rw [List.map_append, List.append_assoc]
    exact List.perm_middle
  have hpa : p ≠ a := fun heq => hanew (heq ▸ List.mem_cons_self)
  have hother : ∀ k, k ∈ l.map Prod.fst ++ (r.map Prod.fst ++ lost) →
      Function.update (Function.update store p (some ⟨n, y⟩)) a none k = store k := by
    intro k hk
    have hka : k ≠ a := fun heq => hanew (heq ▸ List.mem_cons_of_mem p hk)
    have hkp : k ≠ p := fun heq => hpnew (heq ▸ hk)
    rw [Function.update_of_ne hka, Function.update_of_ne hkp]
  refine ⟨hp0, ha0, hpa, h.linked.next_eq, n, hn, ?_, hkeys.nodup_iff.mpr hnodup, fun k => ?_⟩
  · refine h.linked.replace_tail (fun c hc => ?_) ?_
    · exact hother c.1 (List.mem_append_left _ (List.mem_map_of_mem hc))
    · rintro hd ⟨hhd, -, m, -, -, -, m', hm', hrest⟩
      obtain rfl : n = m' := congrArg Cell.next (Option.some.inj (hn.symm.trans hm'))
      refine ⟨hhd, hp0, n, ?_, hrest.congr fun c hc => ?_⟩
      · rw [Function.update_of_ne hpa, Function.update_self]
      · exact hother c.1 (List.mem_append_right _
          (List.mem_append_left _ (List.mem_map_of_mem hc)))
  · rw [hkeys.mem_iff]
    by_cases hka : k = a
    · subst hka
      rw [Function.update_self]
      exact iff_of_false (fun hne => hne rfl) hanew
    · rw [Function.update_of_ne hka]
      by_cases hkp : k = p
      · subst hkp
        rw [Function.update_self]
        exact iff_of_true nofun List.mem_cons_self
      · rw [Function.update_of_ne hkp, h.live k, hperm.mem_iff, List.mem_cons]
        exact or_iff_right hka

end Owned

end OwnedList
