import CourseOs.Ds.HashMap

/-!
# What the operations on a hash map do

`HashMap.Inv map cs` is the invariant: the chain of bucket `h` is `cs h`,
every entry is in the bucket of its hash, and the buckets are a power of two
of which three quarters at most are in use.  Entries are blocks that do not
overlap, so there are too few of them in 32 bits of address space for the
number of buckets to wrap around (`ncard_le_of_spaced`).

Each operation is described by what it does to `cs`:

* a new entry is put in front of its chain (`Inv.add`);
* an entry with the key is found, the first of its chain
  (`Inv.findEntry_some`), or there is none (`Inv.findEntry_none`);
* a pair is replaced where it is (`Inv.set`), or its entry is unlinked and
  freed (`Inv.delete`).

Unlinking is through the pointer that leads to the entry, in the bucket or in
the entry before; `EntrySlot.behind` is that pointer.  How the map grows is in
`CourseOs.Ds.HashMapGrow`.
-/

namespace CourseOs

open OwnedList

variable {K V : Type} {t : HashTable K V} {map : HashMap K V} {b : Block ℕ} {a p q n h : ℕ}
  {x y : K × V} {key : K} {fuel : ℕ}

/-! ### Buckets

A bucket is a word in the block of the buckets.  For a bucket that is not
there `heads` has the null pointer, so that a map without buckets has empty
chains. -/

/-- The entry that bucket `h` leads to; 0 is the null pointer, and stands for
buckets that are not there as well. -/
def Block.heads (b : Block ℕ) (h : ℕ) : ℕ :=
  if sizeofVoidPointer * (h + 1) ≤ b.size then b.cell h else 0

/-- The buckets of a table, as heads of chains.  Without buckets all chains
are empty. -/
def HashTable.heads (t : HashTable K V) (h : ℕ) : ℕ :=
  match t.buckets with
  | .block b => b.heads h
  | _ => 0

/-- Index `h` with `p` in it, and the other buckets as they were. -/
def Block.setHead (b : Block ℕ) (h p : ℕ) : Block ℕ := { b with cell := Function.update b.cell h p }

theorem Block.heads_setHead (hh : sizeofVoidPointer * (h + 1) ≤ b.size) :
    (b.setHead h p).heads = Function.update b.heads h p := by
  funext i
  unfold Block.heads Block.setHead
  dsimp only
  by_cases hi : i = h
  · subst hi
    rw [if_pos hh, Function.update_self, Function.update_self]
  · rw [Function.update_of_ne hi, Function.update_of_ne hi]

namespace HashTable

theorem entry_eq {n : ℕ} (hp : p ≠ 0) (hn : t.entries p = some ⟨n, x⟩) :
    t.entry p = .ok ⟨n, x⟩ := by
  unfold entry
  rw [if_neg hp, hn]

theorem bucketsAt_eq (hb : t.buckets = .block b) (hh : sizeofVoidPointer * (h + 1) ≤ b.size) :
    t.bucketsAt h = .ok b := by
  unfold bucketsAt
  rw [hb]
  exact if_pos hh

theorem load_bucket (hb : t.buckets = .block b) (hh : sizeofVoidPointer * (h + 1) ≤ b.size) :
    t.load (.bucket h) = .ok (b.heads h) := by
  show (t.bucketsAt h >>= fun b => .ok (b.cell h)) = _
  rw [bucketsAt_eq hb hh]
  exact congrArg Except.ok (if_pos hh).symm

theorem store_bucket (hb : t.buckets = .block b) (hh : sizeofVoidPointer * (h + 1) ≤ b.size) :
    t.store p (.bucket h) = .ok ⟨.block (b.setHead h p), t.entries⟩ := by
  show (t.bucketsAt h >>= _) = _
  rw [bucketsAt_eq hb hh]
  rfl

theorem store_next {n : ℕ} (hq : q ≠ 0) (hn : t.entries q = some ⟨n, x⟩) :
    t.store p (.next q) = .ok (t.put q (some ⟨p, x⟩)) := by
  show (t.entry q >>= _) = _
  rw [entry_eq hq hn]
  rfl

end HashTable

/-- An entry put in front of the chain of a bucket. -/
theorem hashmapAddEntry_eq (hb : t.buckets = .block b) (hh : sizeofVoidPointer * (h + 1) ≤ b.size)
    (ha : a ≠ 0) (hn : t.entries a = some ⟨n, x⟩) : hashmapAddEntry t (.bucket h) a =
      .ok ⟨.block (b.setHead h a), Function.update t.entries a (some ⟨b.heads h, x⟩)⟩ := by
  unfold hashmapAddEntry
  rw [HashTable.load_bucket hb hh, Exec.ok_bind, HashTable.entry_eq ha hn, Exec.ok_bind]
  exact HashTable.store_bucket (t := t.put a _) hb hh

/-! ### The invariant

The chains are a ghost: a list of entries for each bucket, of which memory has
the links.  That no chain is a circle and no two share an entry is part of
`Chains`; what is added here is the place of each entry, the shape of the
buckets, and the fields of the map. -/

/-- Blocks of `w` bytes below `N` that do not overlap. -/
structure Spaced (w N : ℕ) (live : Set ℕ) : Prop where
  below : ∀ p ∈ live, p + w ≤ N
  apart : ∀ p ∈ live, ∀ q ∈ live, p ≠ q → p + w ≤ q ∨ q + w ≤ p

/-- **There is room for so many blocks only.**  The blocks are apart, so the
bytes in them are as many as there are blocks times `w`. -/
theorem ncard_le_of_spaced {w N : ℕ} {live : Set ℕ} (hw : 0 < w) (h : Spaced w N live) :
    w * live.ncard ≤ N := by
  have hmaps : ∀ p ∈ live, p / w ∈ (Finset.range (N / w) : Set ℕ) := by
    intro p hp
    have hbelow := Nat.div_le_div_right (c := w) (h.below p hp)
    rw [Nat.add_div_right p hw] at hbelow
    exact Finset.mem_coe.mpr (Finset.mem_range.mpr hbelow)
  have hinj : Set.InjOn (fun p => p / w) live := by
    intro p hp q hq heq
    by_contra hne
    have hp' := Nat.div_add_mod p w
    have hq' := Nat.div_add_mod q w
    have hpm := Nat.mod_lt p hw
    have hqm := Nat.mod_lt q hw
    dsimp only at heq
    rw [heq] at hp'
    have := h.apart p hp q hq hne
    omega
  have hle := Set.ncard_le_ncard_of_injOn (fun p => p / w) hmaps hinj (Finset.finite_toSet _)
  rw [Set.ncard_coe_finset, Finset.card_range] at hle
  exact (Nat.mul_le_mul_left w hle).trans (Nat.mul_div_le N w)

namespace HashMap

/-- The bucket of a key, with the buckets the map has now. -/
def index (map : HashMap K V) (key : K) : ℕ := hashBits (map.hashFn key) map.capBits

/-- The addresses of the entries, on chains or not. -/
def live (t : HashTable K V) : Set ℕ := {p | t.entries p ≠ none}

/-- The buckets: none at all, or a power of two of them, between 4 and 2²⁹.
More would not fit in the address space. -/
inductive Shape (map : HashMap K V) : Prop
  | null (hbuckets : map.buckets = .null) (hcap : map.cap = 0) (hbits : map.capBits = 0)
  | block (b : Block ℕ) (hbuckets : map.buckets = .block b) (hsize : b.size = 4 * map.cap)
      (hcap : map.cap = 2 ^ map.capBits) (hmin : 2 ≤ map.capBits) (hmax : map.capBits ≤ 29)

/-- The invariant: bucket `h` leads to the entries of `cs h`, and there are no
others. -/
structure Inv (map : HashMap K V) (cs : ℕ → List (ℕ × K × V)) : Prop where
  chains : Chains map.entries map.heads cs
  hashed : ∀ h, ∀ c ∈ cs h, map.index c.2.1 = h
  shape : map.Shape
  size : map.sz = (live map.toHashTable).ncard
  /-- Three quarters are filled at most. -/
  load : map.sz * 4 / 3 ≤ map.cap
  spaced : Spaced sizeofHashmapEntry (2 ^ 32) (live map.toHashTable)

end HashMap

theorem hashBits_lt (h : ℕ) {bits : ℕ} (hbits : bits ≤ 32) : hashBits h bits < 2 ^ bits := by
  unfold hashBits
  rw [Nat.div_lt_iff_lt_mul (Nat.two_pow_pos _), ← pow_add, Nat.add_sub_cancel' hbits]
  exact Nat.mod_lt _ (Nat.two_pow_pos _)

namespace HashMap.Inv

variable {cs : ℕ → List (ℕ × K × V)} {l r : List (ℕ × K × V)}

/-- A map that has just been made. -/
theorem new (hashFn : K → ℕ) (equalFn : K → K → Bool) :
    (hashmapNew hashFn equalFn : HashMap K V).Inv fun _ => [] where
  chains := Chains.empty
  hashed _ _ hc := absurd hc List.not_mem_nil
  shape := .null rfl rfl rfl
  size := by
    have hlive : live (hashmapNew hashFn equalFn : HashMap K V).toHashTable = ∅ :=
      Set.eq_empty_of_forall_notMem fun _ hp => hp rfl
    rw [hlive, Set.ncard_empty]
    rfl
  load := show 0 * 4 / 3 ≤ 0 by decide
  spaced := ⟨fun _ hp => absurd rfl hp, fun _ hp => absurd rfl hp⟩

theorem sz_le (h : map.Inv cs) : 12 * map.sz ≤ 2 ^ 32 := by
  rw [h.size]
  exact ncard_le_of_spaced (by decide) h.spaced

theorem length_lt (h : map.Inv cs) (i : ℕ) : (cs i).length < map.sz + 1 := by
  rw [h.size]
  exact Nat.lt_succ_of_le (h.chains.length_le i)

/-- Without buckets there are no entries. -/
theorem nil_of_null (h : map.Inv cs) (hnull : map.buckets = .null) (i : ℕ) : cs i = [] := by
  have hlinked := h.chains.linked i
  have hhead : map.heads i = 0 := by
    unfold HashTable.heads
    rw [hnull]
  cases hcs : cs i with
  | nil => rfl
  | cons c r =>
      rw [hcs, hhead] at hlinked
      exact absurd hlinked.1.symm hlinked.2.1

/-- The buckets are there where the map has any capacity. -/
theorem buckets_of_pos (h : map.Inv cs) (hpos : map.cap ≠ 0) : ∃ b, map.buckets = .block b ∧
    (∀ i < map.cap, sizeofVoidPointer * (i + 1) ≤ b.size) ∧ map.heads = b.heads ∧
    map.cap = 2 ^ map.capBits ∧ map.capBits ≤ 29 := by
  cases h.shape with
  | null _ hcap _ => exact absurd hcap hpos
  | block b hb hsize hcap hmin hmax =>
      refine ⟨b, hb, fun i hi => ?_, ?_, hcap, hmax⟩
      · rw [hsize]
        exact Nat.mul_le_mul_left 4 hi
      · funext i
        unfold HashTable.heads
        rw [hb]

/-- The bucket of a key is one of the buckets. -/
theorem index_lt (h : map.Inv cs) (hpos : map.cap ≠ 0) (key : K) : map.index key < map.cap := by
  obtain ⟨b, -, -, -, hcap, hmax⟩ := h.buckets_of_pos hpos
  rw [hcap]
  exact hashBits_lt _ (by omega)

/-- There are no chains beyond the buckets. -/
theorem nil_of_ge (h : map.Inv cs) (hi : map.cap ≤ n) : cs n = [] := by
  cases hcs : cs n with
  | nil => rfl
  | cons c r =>
      have hc : c ∈ cs n := by
        rw [hcs]
        exact List.mem_cons_self
      cases h.shape with
      | null hnull _ _ => exact absurd (hcs.symm.trans (h.nil_of_null hnull n)) nofun
      | block b _ _ hcap hmin _ =>
          have hpos : map.cap ≠ 0 := by
            rw [hcap]
            exact (Nat.two_pow_pos _).ne'
          have hlt := h.index_lt hpos c.2.1
          rw [h.hashed n c hc] at hlt
          omega

end HashMap.Inv

/-! ### Finding an entry

The loop of `hashmap_find_entry` returns the entry together with the pointer
that leads to it, a bucket or the `next` of the entry before.  With the chain
cut in two at the entry found, this pointer is the end of the first part. -/

/-- The pointer to the entry behind those of `l`, in a chain that `prev` leads
to. -/
def EntrySlot.behind (prev : EntrySlot) : List (ℕ × K × V) → EntrySlot
  | [] => prev
  | c :: l => (EntrySlot.next c.1).behind l

theorem EntrySlot.behind_concat (prev : EntrySlot) (l : List (ℕ × K × V)) (c : ℕ × K × V) :
    prev.behind (l ++ [c]) = .next c.1 := by
  induction l generalizing prev with
  | nil => rfl
  | cons d l ih => exact ih _

section Find

variable {cs : ℕ → List (ℕ × K × V)} {l r : List (ℕ × K × V)} {prev : EntrySlot} {cur : ℕ}

theorem hashmapFindLoop_none (hlinked : Linked map.entries cur l) (hfuel : l.length < fuel)
    (hl : ∀ c ∈ l, ¬map.equalFn c.2.1 key) : hashmapFindLoop map key fuel prev cur = .ok none := by
  induction l generalizing cur prev fuel with
  | nil =>
      obtain ⟨fuel, rfl⟩ := Nat.exists_eq_add_one_of_ne_zero (Nat.ne_of_gt hfuel)
      exact if_pos hlinked
  | cons c l ih =>
      obtain ⟨fuel, rfl⟩ := Nat.exists_eq_add_one_of_ne_zero (Nat.ne_zero_of_lt hfuel)
      obtain ⟨rfl, hne, n, hn, hrest⟩ := hlinked
      rw [hashmapFindLoop, if_neg hne, HashTable.entry_eq hne hn, Exec.ok_bind,
        if_neg (hl c List.mem_cons_self)]
      exact ih hrest (Nat.lt_of_succ_lt_succ hfuel) fun d hd => hl d (List.mem_cons_of_mem c hd)

theorem hashmapFindLoop_some (hlinked : Linked map.entries cur (l ++ (p, x) :: r))
    (hfuel : l.length < fuel) (hl : ∀ c ∈ l, ¬map.equalFn c.2.1 key) (hx : map.equalFn x.1 key) :
    hashmapFindLoop map key fuel prev cur = .ok (some (prev.behind l, p)) := by
  induction l generalizing cur prev fuel with
  | nil =>
      obtain ⟨fuel, rfl⟩ := Nat.exists_eq_add_one_of_ne_zero (Nat.ne_of_gt hfuel)
      obtain ⟨rfl, hne, n, hn, -⟩ := hlinked
      rw [hashmapFindLoop, if_neg hne, HashTable.entry_eq hne hn, Exec.ok_bind, if_pos hx]
      rfl
  | cons c l ih =>
      obtain ⟨fuel, rfl⟩ := Nat.exists_eq_add_one_of_ne_zero (Nat.ne_zero_of_lt hfuel)
      obtain ⟨rfl, hne, n, hn, hrest⟩ := hlinked
      rw [hashmapFindLoop, if_neg hne, HashTable.entry_eq hne hn, Exec.ok_bind,
        if_neg (hl c List.mem_cons_self)]
      exact ih hrest (Nat.lt_of_succ_lt_succ hfuel) fun d hd => hl d (List.mem_cons_of_mem c hd)

namespace HashMap.Inv

/-- The head of the chain of a key. -/
theorem load_index (h : map.Inv cs) (hpos : map.cap ≠ 0) (key : K) :
    map.load (.bucket (map.index key)) = .ok (map.heads (map.index key)) := by
  obtain ⟨b, hb, hin, hheads, -⟩ := h.buckets_of_pos hpos
  rw [hheads]
  exact HashTable.load_bucket hb (hin _ (h.index_lt hpos key))

/-- No entry has the key. -/
theorem findEntry_none (h : map.Inv cs) (hl : ∀ c ∈ cs (map.index key), ¬map.equalFn c.2.1 key) :
    hashmapFindEntry map key (map.index key) = .ok none := by
  unfold hashmapFindEntry
  cases h.shape with
  | null hnull _ _ => rw [hnull]
  | block b hb _ hcap _ _ =>
      have hpos : map.cap ≠ 0 := by
        rw [hcap]
        exact (Nat.two_pow_pos _).ne'
      rw [hb]
      dsimp only
      rw [h.load_index hpos]
      exact hashmapFindLoop_none (h.chains.linked _) (h.length_lt _) hl

/-- The first entry with the key, and the pointer to it, by which a deletion
takes it out of the chain. -/
theorem findEntry_some (h : map.Inv cs) (hcs : cs (map.index key) = l ++ (p, x) :: r)
    (hl : ∀ c ∈ l, ¬map.equalFn c.2.1 key) (hx : map.equalFn x.1 key) :
    hashmapFindEntry map key (map.index key) =
      .ok (some ((EntrySlot.bucket (map.index key)).behind l, p)) := by
  have hlinked := h.chains.linked (map.index key)
  have hlength := h.length_lt (map.index key)
  rw [hcs] at hlinked hlength
  rw [List.length_append] at hlength
  unfold hashmapFindEntry
  cases h.shape with
  | null hnull _ _ =>
      rw [h.nil_of_null hnull] at hcs
      exact absurd hcs.symm (List.append_ne_nil_of_right_ne_nil _ (List.cons_ne_nil _ _))
  | block b hb _ hcap _ _ =>
      have hpos : map.cap ≠ 0 := by
        rw [hcap]
        exact (Nat.two_pow_pos _).ne'
      rw [hb]
      dsimp only
      rw [h.load_index hpos]
      exact hashmapFindLoop_some hlinked (by omega) hl hx

/-- The entry found is there. -/
theorem entry_of_mem (h : map.Inv cs) (hcs : cs n = l ++ (p, x) :: r) :
    p ≠ 0 ∧ ∃ next, map.entries p = some ⟨next, x⟩ := by
  have hlinked := h.chains.linked n
  rw [hcs] at hlinked
  exact hlinked.cell (List.mem_append_right l List.mem_cons_self)

end HashMap.Inv

end Find

/-! ### Changing a chain

Every change concerns one chain: an entry replaced where it is, unlinked
through the pointer that led to it, or put in front.  The blocks of the
entries have to stay apart, and for a new one this is what the allocator is
asked for. -/

/-- What `kmalloc` returns for an entry overlaps no other entry, and is in
memory as a whole. -/
structure HashTable.Fresh (t : HashTable K V) (a : ℕ) : Prop where
  ne_zero : a ≠ 0
  below : a + sizeofHashmapEntry ≤ 2 ^ 32
  apart : ∀ q ∈ HashMap.live t, a + sizeofHashmapEntry ≤ q ∨ q + sizeofHashmapEntry ≤ a

section Change

variable {cs : ℕ → List (ℕ × K × V)} {l r : List (ℕ × K × V)} {value : V}

theorem Spaced.insert {w N : ℕ} {live : Set ℕ} (h : Spaced w N live) (hbelow : a + w ≤ N)
    (hapart : ∀ q ∈ live, a + w ≤ q ∨ q + w ≤ a) : Spaced w N (insert a live) where
  below p hp := by
    rcases hp with rfl | hp
    · exact hbelow
    · exact h.below p hp
  apart p hp q hq hne := by
    rcases hp with rfl | hp <;> rcases hq with rfl | hq
    · exact absurd rfl hne
    · exact hapart q hq
    · exact (hapart p hp).symm
    · exact h.apart p hp q hq hne

theorem Spaced.mono {w N : ℕ} {live live' : Set ℕ} (h : Spaced w N live) (hsub : live' ⊆ live) :
    Spaced w N live' :=
  ⟨fun p hp => h.below p (hsub hp), fun p hp q hq => h.apart p (hsub hp) q (hsub hq)⟩

/-- The entries of one chain replaced. -/
theorem forall_mem_update {P : ℕ → ℕ × K × V → Prop} {i : ℕ} {cs' : List (ℕ × K × V)}
    (h : ∀ j, ∀ c ∈ cs j, P j c) (h' : ∀ c ∈ cs', P i c) :
    ∀ j, ∀ c ∈ Function.update cs i cs' j, P j c := by
  intro j c hc
  by_cases hj : j = i
  · subst hj
    rw [Function.update_self] at hc
    exact h' c hc
  · rw [Function.update_of_ne hj] at hc
    exact h j c hc

namespace HashMap.Inv

/-- The key and the value of an entry replaced by others of the same bucket.
The entry stays where it is, and so do the chains and the number of entries. -/
theorem set (h : map.Inv cs) (hcs : cs (map.index key) = l ++ (p, x) :: r) (value : V) :
    ∃ next, map.entries p = some ⟨next, x⟩ ∧
      HashMap.Inv { map with toHashTable := map.put p (some ⟨next, (key, value)⟩) }
        (Function.update cs (map.index key) (l ++ (p, (key, value)) :: r)) ∧
      live (map.put p (some ⟨next, (key, value)⟩)) = live map.toHashTable := by
  obtain ⟨-, next, hn, hchains⟩ := h.chains.set hcs (key, value)
  have hlive : live (map.put p (some ⟨next, (key, value)⟩)) = live map.toHashTable := by
    ext q
    show Function.update map.entries p _ q ≠ none ↔ map.entries q ≠ none
    by_cases hq : q = p
    · rw [hq, Function.update_self, hn]
      exact iff_of_true nofun nofun
    · rw [Function.update_of_ne hq]
  refine ⟨next, hn, ⟨hchains, ?_, ?_, ?_, h.load, ?_⟩, hlive⟩
  · refine forall_mem_update h.hashed fun c hc => ?_
    rcases List.mem_append.mp hc with hc | hc
    · exact h.hashed _ c (by rw [hcs]; exact List.mem_append_left _ hc)
    · rcases List.mem_cons.mp hc with rfl | hc
      · rfl
      · exact h.hashed _ c (by rw [hcs]; exact List.mem_append_right _ (List.mem_cons_of_mem _ hc))
  · cases h.shape with
    | null hb hcap hbits => exact .null hb hcap hbits
    | block b hb hsize hcap hmin hmax => exact .block b hb hsize hcap hmin hmax
  · show map.sz = _
    rw [hlive]
    exact h.size
  · show Spaced _ _ (live (map.put p _))
    rw [hlive]
    exact h.spaced

/-- The entry unlinked, in front of its chain or behind another entry.
Nothing else of the table changes. -/
theorem delEntry (h : map.Inv cs) (hcs : cs n = l ++ (p, x) :: r) :
    ∃ t b b', hashmapDelEntry map.toHashTable ((EntrySlot.bucket n).behind l) p = .ok t ∧
      map.buckets = .block b ∧ t.buckets = .block b' ∧ b'.size = b.size ∧
      Chains (t.put p none).entries (t.put p none).heads (Function.update cs n (l ++ r)) ∧
      live (t.put p none) = live map.toHashTable \ {p} := by
  have hlt : n < map.cap := by
    by_contra hge
    rw [h.nil_of_ge (not_lt.mp hge)] at hcs
    exact absurd hcs.symm (List.append_ne_nil_of_right_ne_nil _ (List.cons_ne_nil _ _))
  obtain ⟨b, hb, hin, hheads, -, -⟩ := h.buckets_of_pos (Nat.ne_zero_of_lt hlt)
  have hchains := h.chains
  rw [hheads] at hchains
  rcases List.eq_nil_or_concat' l with rfl | ⟨l, ⟨q, y⟩, rfl⟩
  · obtain ⟨-, hne, next, hn, hrest⟩ := hchains.pop hcs
    have hrun : hashmapDelEntry map.toHashTable (.bucket n) p =
        .ok (HashTable.put ⟨.block (b.setHead n next), map.entries⟩ p (some ⟨0, x⟩)) := by
      unfold hashmapDelEntry
      rw [HashTable.entry_eq hne hn, Exec.ok_bind, HashTable.store_bucket hb (hin n hlt)]
      rfl
    refine ⟨_, b, _, hrun, hb, rfl, rfl, ?_, ?_⟩
    · rw [← Block.heads_setHead (hin n hlt)] at hrest
      show Chains (Function.update (Function.update map.entries p _) p none)
        (b.setHead n next).heads _
      rw [Function.update_idem]
      exact hrest
    · ext q
      show Function.update (Function.update map.entries p _) p none q ≠ none ↔ _
      rw [Function.update_idem]
      by_cases hq : q = p
      · rw [hq, Function.update_self]
        exact iff_of_false (fun hno => hno rfl) fun hmem => hmem.2 rfl
      · rw [Function.update_of_ne hq]
        exact (and_iff_left hq).symm
  · have hcons : cs n = l ++ (q, y) :: (p, x) :: r := hcs.trans (List.append_cons l (q, y) _).symm
    obtain ⟨hq0, hne, hqp, hqn, next, hn, hrest⟩ := hchains.unlink hcons
    have hrun : hashmapDelEntry map.toHashTable (.next q) p =
        .ok ((map.put q (some ⟨next, y⟩)).put p (some ⟨0, x⟩)) := by
      unfold hashmapDelEntry
      rw [HashTable.entry_eq hne hn, Exec.ok_bind, HashTable.store_next hq0 hqn]
      rfl
    refine ⟨(map.put q (some ⟨next, y⟩)).put p (some ⟨0, x⟩), b, b, ?_, hb, hb, rfl, ?_, ?_⟩
    · rw [EntrySlot.behind_concat]
      exact hrun
    · show Chains (Function.update (Function.update (Function.update map.entries q _) p _) p none)
        map.heads _
      rw [Function.update_idem, hheads, List.append_assoc]
      exact hrest
    · ext k
      show Function.update (Function.update (Function.update map.entries q _) p _) p none k ≠ none ↔
        _
      rw [Function.update_idem]
      by_cases hk : k = p
      · rw [hk, Function.update_self]
        exact iff_of_false (fun hno => hno rfl) fun hmem => hmem.2 rfl
      · rw [Function.update_of_ne hk]
        refine Iff.trans ?_ (and_iff_left hk).symm
        show Function.update map.entries q _ k ≠ none ↔ map.entries k ≠ none
        by_cases hkq : k = q
        · rw [hkq, Function.update_self, hqn]
          exact iff_of_true nofun nofun
        · rw [Function.update_of_ne hkq]

/-- **An entry taken out** and freed.  The slot that led to it leads to the
next one, and the number of entries goes down with their set. -/
theorem delete (h : map.Inv cs) (hcs : cs n = l ++ (p, x) :: r) :
    ∃ t, hashmapDelEntry map.toHashTable ((EntrySlot.bucket n).behind l) p = .ok t ∧
      HashMap.Inv { map with toHashTable := t.put p none, sz := sub32 map.sz 1 }
        (Function.update cs n (l ++ r)) ∧ live (t.put p none) = live map.toHashTable \ {p} := by
  obtain ⟨t, b, b', hrun, hb, hb', hsize', hchains, hlive⟩ := h.delEntry hcs
  obtain ⟨-, next, hn⟩ := h.entry_of_mem hcs
  have hmem : p ∈ live map.toHashTable := fun hnone => nomatch hn.symm.trans hnone
  have hpos : 0 < map.sz := by
    rw [h.size]
    exact (Set.ncard_pos h.chains.finite).mpr ⟨p, hmem⟩
  have hsz : sub32 map.sz 1 = map.sz - 1 := sub32_of_le hpos (by have := h.sz_le; omega)
  refine ⟨t, hrun, ⟨hchains, ?_, ?_, ?_, ?_, ?_⟩, hlive⟩
  · refine forall_mem_update h.hashed fun c hc => h.hashed n c ?_
    rw [hcs]
    rcases List.mem_append.mp hc with hc | hc
    · exact List.mem_append_left _ hc
    · exact List.mem_append_right _ (List.mem_cons_of_mem _ hc)
  · cases h.shape with
    | null hnull _ _ => exact nomatch hb.symm.trans hnull
    | block b₀ hb₀ hsize hcap hmin hmax =>
        cases hb.symm.trans hb₀
        exact .block b' hb' (hsize'.trans hsize) hcap hmin hmax
  · show sub32 map.sz 1 = (live (t.put p none)).ncard
    rw [hlive, Set.ncard_sdiff_singleton_of_mem hmem, hsz, h.size]
  · show sub32 map.sz 1 * 4 / 3 ≤ map.cap
    have hload := h.load
    omega
  · show Spaced _ _ (live (t.put p none))
    rw [hlive]
    exact h.spaced.mono Set.sdiff_subset

/-- **A new entry** in front of its chain, where the buckets have room for it.
Its block is one that no entry has. -/
theorem add (h : map.Inv cs) (hroom : hashmapNeedsToGrow map = false)
    (hfresh : map.toHashTable.Fresh a) (key : K) (value : V) :
    ∃ t, hashmapAddEntry (map.put a (some ⟨0, (key, value)⟩)) (.bucket (map.index key)) a = .ok t ∧
      HashMap.Inv { map with toHashTable := t, sz := (map.sz + 1) % 2 ^ 32 }
        (Function.update cs (map.index key) ((a, (key, value)) :: cs (map.index key))) ∧
      live t = insert a (live map.toHashTable) := by
  have hsz := h.sz_le
  have hnew : a ∉ live map.toHashTable := by
    intro hmem
    have hapart : a + 12 ≤ a ∨ a + 12 ≤ a := hfresh.apart a hmem
    omega
  have hnone : map.entries a = none := not_not.mp hnew
  obtain ⟨hcap, hload⟩ : map.cap ≠ 0 ∧ (map.sz + 1) * 4 / 3 ≤ map.cap := by
    unfold hashmapNeedsToGrow at hroom
    rw [decide_eq_false_iff_not, not_or, not_lt, Nat.mod_eq_of_lt (by omega)] at hroom
    exact hroom
  obtain ⟨b, hb, hin, hheads, -, -⟩ := h.buckets_of_pos hcap
  have hlt := h.index_lt hcap key
  have hchains := h.chains
  rw [hheads] at hchains
  have hpushed := hchains.push (map.index key) hfresh.ne_zero hnone (key, value)
  rw [← Block.heads_setHead (hin _ hlt)] at hpushed
  have hadd : hashmapAddEntry (map.put a (some ⟨0, (key, value)⟩)) (.bucket (map.index key)) a =
      .ok ⟨.block (b.setHead (map.index key) a),
        Function.update map.entries a (some ⟨b.heads (map.index key), (key, value)⟩)⟩ := by
    have hrun := hashmapAddEntry_eq (t := map.put a (some ⟨0, (key, value)⟩)) hb (hin _ hlt)
      hfresh.ne_zero (Function.update_self ..)
    rw [hrun]
    show Except.ok (HashTable.mk _ (Function.update (Function.update map.entries a _) a _)) = _
    rw [Function.update_idem]
  have hlive : {q | Function.update map.entries a
      (some ⟨b.heads (map.index key), (key, value)⟩) q ≠ none} =
      insert a (live map.toHashTable) := by
    ext q
    show _ ≠ none ↔ q = a ∨ q ∈ live map.toHashTable
    by_cases hq : q = a
    · rw [hq, Function.update_self]
      exact iff_of_true nofun (.inl rfl)
    · rw [Function.update_of_ne hq]
      exact (or_iff_right hq).symm
  refine ⟨_, hadd, ⟨hpushed, ?_, ?_, ?_, ?_, ?_⟩, hlive⟩
  · refine forall_mem_update h.hashed fun c hc => ?_
    rcases List.mem_cons.mp hc with rfl | hc
    · rfl
    · exact h.hashed _ c hc
  · cases h.shape with
    | null _ hnull _ => exact absurd hnull hcap
    | block b₀ hb₀ hsize hcap hmin hmax =>
        cases hb.symm.trans hb₀
        exact .block _ rfl hsize hcap hmin hmax
  · show (map.sz + 1) % 2 ^ 32 = Set.ncard {q | _}
    rw [hlive, Set.ncard_insert_of_notMem hnew h.chains.finite, ← h.size]
    exact Nat.mod_eq_of_lt (by omega)
  · show (map.sz + 1) % 2 ^ 32 * 4 / 3 ≤ map.cap
    rwa [Nat.mod_eq_of_lt (show map.sz + 1 < 2 ^ 32 by omega)]
  · show Spaced _ _ {q | _}
    rw [hlive]
    exact h.spaced.insert hfresh.below hfresh.apart

end HashMap.Inv

end Change

end CourseOs
