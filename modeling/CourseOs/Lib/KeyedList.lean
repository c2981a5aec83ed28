import Mathlib.Data.List.Basic
import Mathlib.Data.List.Perm.Basic

/-!
# Lists of pairs under an equivalence of keys

A list of pairs is looked at through a test `same` of keys, which need not be
equality.  `matching same k L` are the pairs of `L` whose key is the same as
`k`, in order.

## Main definitions

* `matching`, `lookup`, `setFirst`, `erase` — the pairs of a key, the first of
  them, and the list with the first of them replaced or taken out.
* `SameEntries same L L'` — the lists have the same pairs, in the same order,
  for every key.
* `IsEquiv same` — `same` is an equivalence, which most laws need and
  `matching` does not.

## Main results

Looking up, replacing and erasing the first pair of a key only concern its own
`matching` (`matching_setFirst`, `matching_erase`), so that they agree on
lists that are the same for every key.  Such lists are permutations of one
another (`SameEntries.perm`); the order of pairs with different keys is what
they do not say, and what a structure that spreads its pairs over several
chains is free to choose.
-/

namespace KeyedList

variable {K V : Type*} {same : K → K → Bool} {k k' : K} {e x : K × V} {L L' l r : List (K × V)}

/-- The pairs of `L` with the key `k`, in the order of the list.  All that a
lookup, a replacement or a deletion of `k` can see. -/
def matching (same : K → K → Bool) (k : K) (L : List (K × V)) : List (K × V) :=
  L.filter fun e => same e.1 k

/-- The first pair with the key `k`, where the keys are compared by `same`. -/
def lookup (same : K → K → Bool) (k : K) (L : List (K × V)) : Option (K × V) :=
  L.find? fun e => same e.1 k

/-- The first pair with the key `k` replaced by `e`. -/
def setFirst (same : K → K → Bool) (k : K) (e : K × V) : List (K × V) → List (K × V)
  | [] => []
  | x :: L => if same x.1 k then e :: L else x :: setFirst same k e L

/-- The first pair with the key `k` taken out. -/
def erase (same : K → K → Bool) (k : K) (L : List (K × V)) : List (K × V) :=
  L.eraseP fun e => same e.1 k

/-- The lists have the same pairs, in the same order, for every key.  They may
interleave different keys differently. -/
def SameEntries (same : K → K → Bool) (L L' : List (K × V)) : Prop :=
  ∀ k, matching same k L = matching same k L'

/-- `same` is an equivalence. -/
abbrev IsEquiv (same : K → K → Bool) : Prop := Equivalence fun a b => same a b = true

theorem IsEquiv.congr (hsame : IsEquiv same) (h : same k k') (a : K) : same a k = same a k' := by
  rw [Bool.eq_iff_iff]
  exact ⟨fun ha => hsame.trans ha h, fun ha => hsame.trans ha (hsame.symm h)⟩

theorem matching_congr (hsame : IsEquiv same) (h : same k k') :
    matching same k L = matching same k' L :=
  List.filter_congr fun e _ => hsame.congr h e.1

/-! ### What each operation does to the pairs of a key

An operation for the key `k` changes the pairs of `k` and leaves those of
every other key as they are, in the order they had. -/

theorem matching_append : matching same k (l ++ r) = matching same k l ++ matching same k r :=
  List.filter_append ..

theorem matching_reverse : matching same k L.reverse = (matching same k L).reverse :=
  List.filter_reverse ..

theorem matching_cons_of_same (h : same e.1 k) :
    matching same k (e :: L) = e :: matching same k L :=
  List.filter_cons_of_pos h

theorem matching_cons_of_not (h : ¬same e.1 k) : matching same k (e :: L) = matching same k L :=
  List.filter_cons_of_neg h

theorem matching_eq_nil (h : ∀ e ∈ L, ¬same e.1 k) : matching same k L = [] :=
  List.filter_eq_nil_iff.mpr h

theorem same_of_mem_matching (h : e ∈ matching same k L) : same e.1 k := (List.mem_filter.mp h).2

theorem lookup_eq_head? : lookup same k L = (matching same k L).head? := List.head?_filter.symm

theorem setFirst_append_of_not (hl : ∀ e ∈ l, ¬same e.1 k) (hx : same x.1 k) :
    setFirst same k e (l ++ x :: r) = l ++ e :: r := by
  induction l with
  | nil => exact if_pos hx
  | cons y l ih =>
      rw [List.cons_append, setFirst, if_neg (hl y List.mem_cons_self),
        ih fun z hz => hl z (List.mem_cons_of_mem y hz)]
      rfl

theorem erase_append_of_not (hl : ∀ e ∈ l, ¬same e.1 k) (hx : same x.1 k) :
    erase same k (l ++ x :: r) = l ++ r := by
  unfold erase
  rw [List.eraseP_append_right _ hl]
  exact congrArg (l ++ ·) (List.eraseP_cons_of_pos hx)

theorem erase_eq_self (h : ∀ e ∈ L, ¬same e.1 k) : erase same k L = L :=
  List.eraseP_of_forall_not h

/-- The list before and after the first pair of a key. -/
theorem exists_of_lookup (h : lookup same k L = some x) :
    ∃ l r, L = l ++ x :: r ∧ same x.1 k ∧ ∀ e ∈ l, ¬same e.1 k := by
  obtain ⟨hx, l, r, hL, hl⟩ := List.find?_eq_some_iff_append.mp h
  exact ⟨l, r, hL, hx, fun e he => by simpa using hl e he⟩

theorem not_same_of_lookup (h : lookup same k L = none) : ∀ e ∈ L, ¬same e.1 k :=
  List.find?_eq_none.mp h

/-- Replacing a pair by one of the same key changes the pairs of that key, and
no others. -/
theorem matching_setFirst (hsame : IsEquiv same) (he : same e.1 k) :
    matching same k' (setFirst same k e L) =
      if same k k' then setFirst same k e (matching same k' L) else matching same k' L := by
  induction L with
  | nil => split <;> rfl
  | cons x L ih =>
      by_cases hx : same x.1 k
      · rw [setFirst, if_pos hx]
        by_cases hk : same k k'
        · rw [if_pos hk, matching_cons_of_same (hsame.trans he hk),
            matching_cons_of_same (hsame.trans hx hk), setFirst, if_pos hx]
        · have hne : ∀ {y : K}, same y k → ¬same y k' := fun hy hyk =>
            hk (hsame.trans (hsame.symm hy) hyk)
          rw [if_neg hk, matching_cons_of_not (hne he), matching_cons_of_not (hne hx)]
      · rw [setFirst, if_neg hx]
        by_cases hxk : same x.1 k'
        · have hk : ¬same k k' := fun hk => hx (hsame.trans hxk (hsame.symm hk))
          rw [matching_cons_of_same hxk, ih, if_neg hk, if_neg hk, matching_cons_of_same hxk]
        · rw [matching_cons_of_not hxk, ih, matching_cons_of_not hxk]

/-- Taking out a pair shortens the pairs of its key by the first one, and no
others. -/
theorem matching_erase (hsame : IsEquiv same) :
    matching same k' (erase same k L) =
      if same k k' then (matching same k' L).tail else matching same k' L := by
  cases hfind : lookup same k L with
  | none =>
      have hno := not_same_of_lookup hfind
      rw [erase_eq_self hno]
      split
      · rename_i hk
        rw [← matching_congr hsame hk, matching_eq_nil hno]
        rfl
      · rfl
  | some x =>
      obtain ⟨l, r, rfl, hx, hl⟩ := exists_of_lookup hfind
      rw [erase_append_of_not hl hx, matching_append, matching_append]
      by_cases hk : same k k'
      · rw [if_pos hk, ← matching_congr hsame hk, ← matching_congr hsame hk, matching_eq_nil hl,
          ← matching_congr hsame hk, matching_cons_of_same hx]
        rfl
      · have hxk : ¬same x.1 k' := fun hxk => hk (hsame.trans (hsame.symm hx) hxk)
        rw [if_neg hk, matching_cons_of_not hxk]

/-- Pairs of one key are kept by a test that all of them pass. -/
theorem matching_map_filter {ι : Type*} {f : ι → K × V} {test : ι → Bool} {is : List ι}
    (h : ∀ i ∈ is, same (f i).1 k → test i) :
    matching same k ((is.filter test).map f) = matching same k (is.map f) := by
  induction is with
  | nil => rfl
  | cons i is ih =>
      have hrest := ih fun j hj => h j (List.mem_cons_of_mem i hj)
      by_cases hi : test i
      · rw [List.filter_cons_of_pos hi, List.map_cons, List.map_cons]
        by_cases hk : same (f i).1 k
        · rw [matching_cons_of_same hk, matching_cons_of_same hk, hrest]
        · rw [matching_cons_of_not hk, matching_cons_of_not hk, hrest]
      · have hk : ¬same (f i).1 k := fun hk => hi (h i List.mem_cons_self hk)
        rw [List.filter_cons_of_neg hi, List.map_cons, matching_cons_of_not hk, hrest]

/-- Lists laid end to end of which only one is not empty. -/
theorem flatMap_eq_of_nodup {ι α : Type*} {is : List ι} {i : ι} {f : ι → List α} (hnodup : is.Nodup)
    (hi : i ∈ is) (hother : ∀ j ∈ is, j ≠ i → f j = []) : is.flatMap f = f i := by
  induction is with
  | nil => cases hi
  | cons j is ih =>
      obtain ⟨hj, hnodup'⟩ := List.nodup_cons.mp hnodup
      rw [List.flatMap_cons]
      rcases List.mem_cons.mp hi with rfl | hi
      · have hrest : is.flatMap f = [] := List.flatMap_eq_nil_iff.mpr fun k hk =>
          hother k (List.mem_cons_of_mem i hk) fun heq => hj (heq ▸ hk)
        rw [hrest, List.append_nil]
      · have hji : j ≠ i := fun heq => hj (heq ▸ hi)
        rw [hother j List.mem_cons_self hji, List.nil_append]
        exact ih hnodup' hi fun k hk => hother k (List.mem_cons_of_mem j hk)

theorem length_setFirst : (setFirst same k e L).length = L.length := by
  induction L with
  | nil => rfl
  | cons x L ih =>
      rw [setFirst]
      split
      · rfl
      · exact congrArg (· + 1) ih

theorem length_erase (h : lookup same k L = some x) : L.length = (erase same k L).length + 1 := by
  obtain ⟨l, r, rfl, hx, hl⟩ := exists_of_lookup h
  rw [erase_append_of_not hl hx, List.length_append, List.length_append, List.length_cons]
  rfl

/-! ### Lists with the same entries

Two lists that agree for every key have the same pairs as often as each other. -/

namespace SameEntries

/-- **Lists with the same entries** are permutations of each other. -/
theorem perm (hsame : IsEquiv same) (h : SameEntries same L L') : L.Perm L' := by
  classical
  refine List.perm_iff_count.mpr fun e => ?_
  have hcount : ∀ L : List (K × V), L.count e = (matching same e.1 L).count e := fun L =>
    (List.count_filter (p := fun x : K × V => same x.1 e.1) (hsame.refl e.1)).symm
  rw [hcount L, h e.1, ← hcount L']

end SameEntries

end KeyedList
