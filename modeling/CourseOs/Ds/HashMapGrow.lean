import CourseOs.Ds.HashMapOps

/-!
# Growing a hash map

`hashmap_grow` takes every entry from the front of its old chain to the front
of its new one.  While it runs, the chains of the old and of the new buckets
are one family of lists (`Chains` over `ℕ ⊕ ℕ`), and every step is
`Chains.move`.

What comes to a new bucket is in the reverse of the order in which the old
buckets are gone through (`Inv.grow`).  Entries with the same key come from
the same chain, so that their order is reversed by each growth.  With
`HASHMAP_APPEND` a key may have several entries, and then the one that is
found first changes when the map grows.

That the number of buckets does not wrap is `Inv.newCapBits`: entries of
twelve bytes that do not overlap are fewer than 2³⁰, and the map needs at most
2²⁹ buckets for them.
-/

namespace CourseOs

open OwnedList

variable {K V : Type} {t : HashTable K V} {map : HashMap K V} {b nb : Block ℕ}
  {hashFn : K → ℕ} {old : ℕ → ℕ} {cs ncs : ℕ → List (ℕ × K × V)} {l r : List (ℕ × K × V)}
  {bits fuel i n bkt : ℕ}

/-! ### Chains on the move

The loop takes the first entry of an old chain and puts it in front of a new
one, so that a new chain comes out in the reverse of the order in which its
entries were met.  Old and new chains are one family of disjoint lists all the
time, which is why an entry may be relinked without a look at the rest. -/

/-- The new chains, when the entries of `l` have been put in front of them one
after the other: each bucket gets the entries whose hash it is, the last one
in front. -/
def moved (hashFn : K → ℕ) (bits : ℕ) (l : List (ℕ × K × V)) (ncs : ℕ → List (ℕ × K × V)) (i : ℕ) :
    List (ℕ × K × V) :=
  (l.filter fun c => hashBits (hashFn c.2.1) bits = i).reverse ++ ncs i

theorem moved_cons (c : ℕ × K × V) : moved hashFn bits (c :: l) ncs =
    moved hashFn bits l (Function.update ncs (hashBits (hashFn c.2.1) bits)
      (c :: ncs (hashBits (hashFn c.2.1) bits))) := by
  funext i
  unfold moved
  by_cases hi : hashBits (hashFn c.2.1) bits = i
  · rw [List.filter_cons, if_pos (decide_eq_true hi), List.reverse_cons, List.append_assoc, hi,
      Function.update_self]
    rfl
  · rw [List.filter_cons, if_neg (mt of_decide_eq_true hi), Function.update_of_ne (Ne.symm hi)]

theorem moved_append : moved hashFn bits (l ++ r) ncs =
    moved hashFn bits r (moved hashFn bits l ncs) := by
  funext i
  unfold moved
  rw [List.filter_append, List.reverse_append, List.append_assoc]

/-- **The chain of one old bucket** comes to the new ones.  The old buckets
keep their pointers, except for the one whose chain is moved, and the entries
stay where they are. -/
theorem hashmapGrowChain_spec (hb : t.buckets = .block nb) (hbits : bits ≤ 32)
    (hin : ∀ i < 2 ^ bits, sizeofVoidPointer * (i + 1) ≤ nb.size)
    (hchains : Chains t.entries (Sum.elim old nb.heads) (Sum.elim (Function.update cs bkt l) ncs))
    (hfuel : l.length < fuel) :
    ∃ t' nb' old', hashmapGrowChain hashFn bits fuel (old bkt) t = .ok t' ∧
      t'.buckets = .block nb' ∧ nb'.size = nb.size ∧ (∀ j ≠ bkt, old' j = old j) ∧
      Chains t'.entries (Sum.elim old' nb'.heads)
        (Sum.elim (Function.update cs bkt []) (moved hashFn bits l ncs)) ∧
      HashMap.live t' = HashMap.live t := by
  induction l generalizing t nb old ncs fuel with
  | nil =>
      obtain ⟨fuel, rfl⟩ := Nat.exists_eq_add_one_of_ne_zero (Nat.ne_of_gt hfuel)
      have hnull : old bkt = 0 := by
        have hlinked := hchains.linked (.inl bkt)
        rwa [Sum.elim_inl, Sum.elim_inl, Function.update_self] at hlinked
      exact ⟨t, nb, old, if_pos hnull, hb, rfl, fun _ _ => rfl, hchains, rfl⟩
  | cons c r ih =>
      obtain ⟨a, x⟩ := c
      obtain ⟨fuel, rfl⟩ := Nat.exists_eq_add_one_of_ne_zero (Nat.ne_zero_of_lt hfuel)
      have hhead : Sum.elim (Function.update cs bkt ((a, x) :: r)) ncs (.inl bkt) =
          (a, x) :: r := by
        rw [Sum.elim_inl, Function.update_self]
      have hlt := hashBits_lt (hashFn x.1) hbits
      obtain ⟨hold, hne, n, hn, hmoved⟩ :=
        hchains.move (j := .inr (hashBits (hashFn x.1) bits)) hhead nofun
      rw [Sum.elim_inl] at hold
      rw [Sum.elim_inr, Sum.elim_inr, Sum.update_elim_inl, Sum.update_elim_inl,
        Sum.update_elim_inr, Sum.update_elim_inr, Function.update_idem,
        ← Block.heads_setHead (hin _ hlt)] at hmoved
      have hadd := hashmapAddEntry_eq hb (hin _ hlt) hne hn
      obtain ⟨t', nb', old', hrun, hb', hsize, hother, hchains', hlive⟩ := ih
        (t := ⟨.block (nb.setHead (hashBits (hashFn x.1) bits) a), _⟩) rfl hin hmoved
        (Nat.lt_of_succ_lt_succ hfuel)
      refine ⟨t', nb', old', ?_, hb', hsize, fun j hj => ?_, ?_, hlive.trans ?_⟩
      · rw [hashmapGrowChain, hold, if_neg hne, HashTable.entry_eq hne hn, Exec.ok_bind, hadd,
          Exec.ok_bind]
        rwa [Function.update_self] at hrun
      · rw [hother j hj, Function.update_of_ne hj]
      · rwa [moved_cons]
      · ext q
        show Function.update t.entries a _ q ≠ none ↔ t.entries q ≠ none
        by_cases hq : q = a
        · rw [hq, Function.update_self, hn]
          exact iff_of_true nofun nofun
        · rw [Function.update_of_ne hq]

theorem update_of_lt : Function.update (fun j => if j < bkt then [] else cs j) bkt (cs bkt) =
    fun j => if j < bkt then [] else cs j := by
  rw [Function.update_eq_self_iff, if_neg (lt_irrefl bkt)]

/-- One more chain is empty. -/
theorem update_nil_of_lt : Function.update (fun j => if j < bkt then [] else cs j) bkt [] =
    fun j => if j < bkt + 1 then [] else cs j := by
  funext j
  by_cases hj : j = bkt
  · rw [hj, Function.update_self, if_pos (Nat.lt_succ_self bkt)]
  · rw [Function.update_of_ne hj]
    by_cases hlt : j < bkt
    · rw [if_pos hlt, if_pos (Nat.lt_succ_of_lt hlt)]
    · rw [if_neg hlt, if_neg (by omega)]

/-- **The chains of all old buckets** from `bkt` on come to the new ones.  By
induction on the number of buckets left, with `hashmapGrowChain_spec` for
each. -/
theorem hashmapGrowLoop_spec (hb : t.buckets = .block nb) (hbits : bits ≤ 32)
    (hin : ∀ i < 2 ^ bits, sizeofVoidPointer * (i + 1) ≤ nb.size)
    (hold : ∀ j, bkt ≤ j → j < bkt + n → map.bucketsAt j = .ok b ∧ b.cell j = old j)
    (hlength : ∀ j, (cs j).length < map.sz + 1)
    (hchains : Chains t.entries (Sum.elim old nb.heads)
      (Sum.elim (fun j => if j < bkt then [] else cs j) ncs)) :
    ∃ t' nb' old', hashmapGrowLoop map bits n bkt t = .ok t' ∧ t'.buckets = .block nb' ∧
      nb'.size = nb.size ∧
      Chains t'.entries (Sum.elim old' nb'.heads)
        (Sum.elim (fun j => if j < bkt + n then [] else cs j)
          (moved map.hashFn bits ((List.range' bkt n).flatMap cs) ncs)) ∧
      HashMap.live t' = HashMap.live t := by
  induction n generalizing t nb old ncs bkt with
  | zero => exact ⟨t, nb, old, rfl, hb, rfl, hchains, rfl⟩
  | succ n ih =>
      obtain ⟨hat, hcell⟩ := hold bkt le_rfl (Nat.lt_add_of_pos_right n.succ_pos)
      rw [← update_of_lt] at hchains
      obtain ⟨t₁, nb₁, old₁, hrun₁, hb₁, hsize₁, hother₁, hchains₁, hlive₁⟩ :=
        hashmapGrowChain_spec hb hbits hin hchains (hlength bkt)
      rw [update_nil_of_lt] at hchains₁
      have hold₁ : ∀ j, bkt + 1 ≤ j → j < bkt + 1 + n →
          map.bucketsAt j = .ok b ∧ b.cell j = old₁ j := by
        intro j hj hj'
        rw [hother₁ j (by omega)]
        exact hold j (by omega) (by omega)
      obtain ⟨t', nb', old', hrun, hb', hsize, hchains', hlive⟩ :=
        ih hb₁ (by rwa [hsize₁]) hold₁ hchains₁
      refine ⟨t', nb', old', ?_, hb', hsize.trans hsize₁, ?_, hlive.trans hlive₁⟩
      · rw [hashmapGrowLoop, hat, Exec.ok_bind, hcell, hrun₁]
        exact hrun
      · rw [List.range'_succ, List.flatMap_cons, moved_append]
        rwa [Nat.add_assoc, Nat.add_comm 1 n] at hchains'

/-! ### The larger map

The capacity is doubled, with 4 for the least.  Once the loop is over every
entry is in the bucket that its hash has with the new number of bits, and the
old block is freed. -/

/-- The entries, in the order in which the loops over all buckets come to
them. -/
def HashMap.allEntries (map : HashMap K V) (cs : ℕ → List (ℕ × K × V)) : List (ℕ × K × V) :=
  (List.range' 0 map.cap).flatMap cs

/-- The number of buckets when the map grows: twice as many, or four for the
first time. -/
def HashMap.nextCap (cap : ℕ) : ℕ := if cap = 0 then 4 else 2 * cap

namespace HashMap.Inv

/-- The number of bits of the larger map, and that its buckets are as many as
asked for.  The 32-bit sums do not wrap, since there is no room for the
entries of a map of 29 bits. -/
theorem newCapBits (h : map.Inv cs) (hgrow : hashmapNeedsToGrow map = true) :
    ∃ bits, max ((map.capBits + 1) % 2 ^ 32) 2 = bits ∧ 2 ≤ bits ∧ bits ≤ 29 ∧
      nextCap map.cap = 2 ^ bits ∧ (map.sz + 1) * 4 / 3 ≤ 2 ^ bits := by
  have hsz := h.sz_le
  have hload := h.load
  cases h.shape with
  | null _ hcap hbits =>
      refine ⟨2, by rw [hbits]; rfl, le_rfl, by decide, by rw [hcap]; rfl, ?_⟩
      omega
  | block b _ _ hcap hmin hmax =>
      have hfour : 2 ^ 2 ≤ 2 ^ map.capBits := Nat.pow_le_pow_right (by decide) hmin
      have hpos : map.cap ≠ 0 := by omega
      have hfull : map.cap < (map.sz + 1) * 4 / 3 := by
        unfold hashmapNeedsToGrow at hgrow
        rw [decide_eq_true_iff, Nat.mod_eq_of_lt (by omega)] at hgrow
        exact hgrow.resolve_left hpos
      -- with 2²⁹ buckets there is no room for the entries that would fill them
      have hlt : map.capBits < 29 := by
        refine lt_of_le_of_ne hmax fun heq => ?_
        rw [heq] at hcap
        omega
      refine ⟨map.capBits + 1, ?_, by omega, by omega, ?_, ?_⟩
      · rw [Nat.mod_eq_of_lt (by omega)]
        omega
      · rw [nextCap, if_neg hpos, hcap, pow_succ, Nat.mul_comm]
      · rw [pow_succ, ← hcap]
        omega

/-- **The map grown.**  The entries of a new bucket are those that come to it,
in the reverse of the order of the old buckets.  The map has room for one more
entry then. -/
theorem grow (h : map.Inv cs) (hgrow : hashmapNeedsToGrow map = true) :
    ∃ new bits, hashmapGrow true map = .ok (new, 0) ∧ new.hashFn = map.hashFn ∧
      new.equalFn = map.equalFn ∧ new.sz = map.sz ∧ new.cap = nextCap map.cap ∧
      new.capBits = bits ∧ hashmapNeedsToGrow new = false ∧
      live new.toHashTable = live map.toHashTable ∧
      new.Inv (moved map.hashFn bits (map.allEntries cs) fun _ => []) := by
  obtain ⟨bits, hbits, hmin, hmax, hcap, hroom⟩ := h.newCapBits hgrow
  have hpow : 2 ^ bits ≤ 2 ^ 29 := Nat.pow_le_pow_right (by decide) hmax
  have hnewCap : 2 ^ bits % 2 ^ 32 = 2 ^ bits := Nat.mod_eq_of_lt (by omega)
  have hsize : 2 ^ bits * sizeofVoidPointer % 2 ^ 32 = 4 * 2 ^ bits := by
    rw [Nat.mul_comm]
    exact Nat.mod_eq_of_lt (show 4 * 2 ^ bits < 2 ^ 32 by omega)
  have hheads : (⟨4 * 2 ^ bits, fun _ => 0⟩ : Block ℕ).heads = fun _ => 0 := by
    funext i
    exact ite_self _
  have hchains := h.chains.sum_nil ℕ
  rw [← hheads] at hchains
  obtain ⟨b, hb⟩ : ∃ b : Block ℕ, ∀ j, 0 ≤ j → j < 0 + map.cap →
      map.bucketsAt j = .ok b ∧ b.cell j = map.heads j := by
    by_cases hzero : map.cap = 0
    · exact ⟨⟨0, fun _ => 0⟩, fun j _ hj => absurd hj (by omega)⟩
    · obtain ⟨b, hb, hin, hheads, -⟩ := h.buckets_of_pos hzero
      refine ⟨b, fun j _ hj => ⟨HashTable.bucketsAt_eq hb (hin j (by omega)), ?_⟩⟩
      rw [hheads]
      exact (if_pos (hin j (by omega))).symm
  have hstart : cs = fun j => if j < 0 then [] else cs j := rfl
  rw [hstart] at hchains
  obtain ⟨t, nb, old, hrun, hnb, hnbsize, hdone, hlive⟩ := hashmapGrowLoop_spec
    (t := ⟨.block ⟨4 * 2 ^ bits, fun _ => 0⟩, map.entries⟩) rfl (by omega)
    (fun i hi => Nat.mul_le_mul_left 4 hi) hb h.length_lt hchains
  have hall : (fun j => if j < 0 + map.cap then [] else cs j) = fun _ => [] := by
    funext j
    split
    · rfl
    · exact h.nil_of_ge (by omega)
  rw [hall] at hdone
  have hfree : map.freeBuckets = .ok () := by
    unfold HashTable.freeBuckets
    cases h.shape with
    | null hb _ _ => rw [hb]
    | block b hb _ _ _ _ => rw [hb]
  refine ⟨{ map with toHashTable := t, cap := 2 ^ bits, capBits := bits }, bits, ?_, rfl, rfl, rfl,
    hcap.symm, rfl, ?_, hlive, ?_, ?_, ?_, ?_, ?_, ?_⟩
  · unfold hashmapGrow
    rw [if_pos rfl, hbits]
    dsimp only
    rw [hnewCap, hsize, hrun, Exec.ok_bind, hfree]
    rfl
  · have hsz := h.sz_le
    refine decide_eq_false_iff_not.mpr (not_or.mpr ⟨(Nat.two_pow_pos bits).ne', not_lt.mpr ?_⟩)
    show (map.sz + 1) * 4 % 2 ^ 32 / 3 ≤ 2 ^ bits
    rwa [Nat.mod_eq_of_lt (by omega)]
  · have hnew : (HashMap.mk t map.hashFn map.equalFn (2 ^ bits) bits map.sz).heads = nb.heads := by
      funext i
      unfold HashTable.heads
      rw [hnb]
    rw [hnew]
    exact hdone.of_sum_nil
  · intro i c hc
    unfold moved at hc
    rw [List.append_nil, List.mem_reverse] at hc
    exact of_decide_eq_true (List.mem_filter.mp hc).2
  · exact .block nb hnb hnbsize rfl hmin hmax
  · show map.sz = (live t).ncard
    rw [hlive]
    exact h.size
  · have hle : map.sz * 4 / 3 ≤ (map.sz + 1) * 4 / 3 := by omega
    exact hle.trans hroom
  · show Spaced _ _ (live t)
    rw [hlive]
    exact h.spaced

end HashMap.Inv

end CourseOs
