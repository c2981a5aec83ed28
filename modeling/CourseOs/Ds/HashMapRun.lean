import CourseOs.Ds.HashMapGrow
import CourseOs.Lib.Calls

/-!
# Runs on a hash map

The reference of a map is the list of its pairs and its capacity
(`HashContents`).  A new pair is put in front, and the first pair of a key is
the one that is found, replaced and deleted; where the map grows, the list is
reversed.  The order of pairs with different keys is not observable.

* `hashmap_refines` — every run returns what it returns on the reference;
* `hashmap_is_map` — without `HASHMAP_APPEND` there is one pair for a key, the
  one last written, and growing is not observable either.

Both rest on two things that the map does not check.  `HashLaws`: `equal_fn`
is an equivalence, and `hash_fn` gives equal keys the same hash.
`HashmapOp.Allowed`: the block that the allocator gives for a new entry
overlaps no entry that the map has.  Whether it gives one at all, and whether
it gives one for new buckets, is left open: an insertion that is refused
returns an error, on the reference as well.

`HashMap.Holds` is the relation.  It does not say which bucket an entry is in,
but only that the chain of each key has the pairs of this key in the order of
the reference, which is what `KeyedList.matching` takes out of a list.
-/

namespace CourseOs

open OwnedList KeyedList

variable {K V : Type}

/-- A call on the map.  An insertion comes with what the allocator returns for
the buckets and for the entry. -/
inductive HashmapOp (K V : Type)
  | insert (granted : Bool) (entry : Option ℕ) (key : K) (value : V)
      (strategy : HashmapInsertStrategy)
  | find (key : K)
  | delete (key : K)
  | forEachKeyEntry (key : K)
  | size
  | capacity

/-- What a call returns.  An insertion returns its error and the pair it has
replaced, if it has; pointers that are not asked for are null in the source. -/
inductive HashmapOutput (K V : Type)
  | inserted (err : ℤ) (old : Option (K × V))
  | found (value : Option V)
  | deleted (old : Option (K × V))
  | entries (pairs : List (K × V))
  | size (n : ℕ)

namespace HashmapOp

/-- The call.  `granted` and `entry` of an insertion are what the allocator
has for new buckets and for the entry. -/
def run : HashmapOp K V → HashMap K V → Exec (HashMap K V × HashmapOutput K V)
  | insert granted entry key value strategy, map => do
      let (map, err, old) ← hashmapInsert granted entry map key value strategy
      .ok (map, .inserted err old)
  | find key, map => do
      let value ← hashmapFind map key
      .ok (map, .found value)
  | delete key, map => do
      let (map, old) ← hashmapDelete map key
      .ok (map, .deleted old)
  | forEachKeyEntry key, map => do
      let pairs ← hashmapForEachKeyEntry map key
      .ok (map, .entries pairs)
  | size, map => .ok (map, .size (hashmapSize map))
  | capacity, map => .ok (map, .size (hashmapCapacity map))

/-- What is promised: a block allocated for an entry overlaps no other entry.
Nothing is promised about what the allocator refuses. -/
def Allowed : HashmapOp K V → HashMap K V → Prop
  | insert _ (some entry) _ _ _, map => map.toHashTable.Fresh entry
  | _, _ => True

/-- The block that the allocator gives for an entry, if the call asks for one
and there is memory. -/
def entry : HashmapOp K V → Option ℕ
  | insert _ entry _ _ _ => entry
  | _ => none

/-- The call does not ask for several pairs with one key. -/
def NoAppend : HashmapOp K V → Prop
  | insert _ _ _ _ strategy => strategy ≠ .append
  | _ => True

end HashmapOp

/-! ### The reference

A list of pairs that a reader can run in the head.  It grows when the map
does, and is reversed then; this is the one thing about it that does not look
like a map, and it is there because a client that appends several pairs to a
key can see it. -/

/-- The pairs of a map, and its capacity.  The capacity is part of the
reference because it decides when the order is reversed. -/
structure HashContents (K V : Type) where
  pairs : List (K × V)
  cap : ℕ

namespace HashContents

/-- The number of pairs does not leave a quarter of the buckets for one more. -/
def needsToGrow (c : HashContents K V) : Bool :=
  c.cap = 0 ∨ c.cap < (c.pairs.length + 1) * 4 / 3

/-- Twice the buckets, with the pairs in reverse.  The entries go to the front
of their new buckets one after the other, so the last one of a key becomes the
first. -/
def grown (c : HashContents K V) : HashContents K V := ⟨c.pairs.reverse, HashMap.nextCap c.cap⟩

/-- The pair in front, where a new entry is put in its chain. -/
def cons (c : HashContents K V) (e : K × V) : HashContents K V := { c with pairs := e :: c.pairs }

/-- A new pair, as far as there is memory for it: for the buckets, if they
have to grow, and for the entry.  The growth is kept even where there is then
no memory for the entry. -/
def addPair (granted : Bool) (entry : Option ℕ) (c : HashContents K V) (e : K × V) :
    HashContents K V × ℤ :=
  if c.needsToGrow && !granted then (c, -1)
  else
    let c := if c.needsToGrow then c.grown else c
    match entry with
    | none => (c, -1)
    | some _ => (c.cons e, 0)

/-- An insertion, by the strategies of the source: a key that is there is
replaced or refused, one that is not is added or refused.  The pair that was
there is returned in either case. -/
def insert (same : K → K → Bool) (granted : Bool) (entry : Option ℕ) (c : HashContents K V)
    (e : K × V) (strategy : HashmapInsertStrategy) : HashContents K V × ℤ × Option (K × V) :=
  match if strategy ≠ .append then lookup same e.1 c.pairs else none with
  | some old =>
      if strategy = .set ∨ strategy = .update then
        ({ c with pairs := setFirst same e.1 e c.pairs }, 0, some old)
      else (c, -1, some old)
  | none =>
      if strategy = .update then (c, -1, none)
      else ((addPair granted entry c e).1, (addPair granted entry c e).2, none)

end HashContents

/-- The call on the reference: a list of pairs, newest first, and the
capacity, which decides when the list is turned around by a growth. -/
def HashmapOp.reference (same : K → K → Bool) :
    HashmapOp K V → HashContents K V → HashContents K V × HashmapOutput K V
  | insert granted entry key value strategy, c =>
      let (c, err, old) := c.insert same granted entry (key, value) strategy
      (c, .inserted err old)
  | find key, c => (c, .found ((lookup same key c.pairs).map Prod.snd))
  | delete key, c =>
      ({ c with pairs := erase same key c.pairs }, .deleted (lookup same key c.pairs))
  | forEachKeyEntry key, c => (c, .entries (matching same key c.pairs))
  | size, c => (c, .size c.pairs.length)
  | capacity, c => (c, .size c.cap)

/-! ### The relation

Chains and reference agree key by key: the pairs of a key, in order, are those
of its entries in the chain of its bucket.  Pairs of different keys may come
in any order on either side.  It is here that `HashLaws` is needed: with keys
that are equal but have different hashes, the pairs of a key would be in two
chains. -/

section Step

variable {map : HashMap K V} {c : HashContents K V} {cs : ℕ → List (ℕ × K × V)} {key k : K}
  {value : V} {hashFn : K → ℕ} {same : K → K → Bool} {l r chain : List (ℕ × K × V)} {p : ℕ}
  {x : K × V} {granted : Bool} {entry : Option ℕ}

/-- `equal_fn` is an equivalence that `hash_fn` respects.  The map relies on
it without a check. -/
structure HashLaws (hashFn : K → ℕ) (same : K → K → Bool) : Prop where
  equiv : IsEquiv same
  hash : ∀ a b, same a b → hashFn a = hashFn b

/-- The chain of each key has the pairs of `c` for this key, in the same
order, and the sizes agree. -/
structure HashMap.Holds (map : HashMap K V) (hashFn : K → ℕ) (same : K → K → Bool)
    (cs : ℕ → List (ℕ × K × V)) (c : HashContents K V) : Prop where
  inv : map.Inv cs
  hashFn : map.hashFn = hashFn
  equalFn : map.equalFn = same
  matching : ∀ key, matching same key ((cs (map.index key)).map Prod.snd) =
    matching same key c.pairs
  size : c.pairs.length = map.sz
  cap : c.cap = map.cap

namespace HashMap.Holds

theorem index_congr (h : map.Holds hashFn same cs c) (hlaws : HashLaws hashFn same)
    (hsame : same key k) : map.index key = map.index k := by
  unfold index
  rw [h.hashFn, hlaws.hash key k hsame]

/-- The first entry of a key is the first pair of the reference. -/
theorem lookup_eq (h : map.Holds hashFn same cs c) (key : K) :
    lookup same key c.pairs =
      ((cs (map.index key)).find? fun e => same e.2.1 key).map Prod.snd := by
  rw [lookup_eq_head?, ← h.matching key, ← lookup_eq_head?]
  exact List.find?_map

/-- Where the key is found, or that it is not: the reference and the loop come
to the same pair. -/
theorem find_cases (h : map.Holds hashFn same cs c) (key : K) :
    (lookup same key c.pairs = none ∧
        hashmapFindEntry map key (map.index key) = .ok none) ∨
      ∃ l p x r, lookup same key c.pairs = some x ∧ cs (map.index key) = l ++ (p, x) :: r ∧
        (∀ e ∈ l, ¬same e.2.1 key) ∧ same x.1 key ∧ hashmapFindEntry map key (map.index key) =
          .ok (some ((EntrySlot.bucket (map.index key)).behind l, p)) := by
  rw [h.lookup_eq key]
  cases hfind : (cs (map.index key)).find? fun e => same e.2.1 key with
  | none =>
      refine .inl ⟨rfl, h.inv.findEntry_none ?_⟩
      rw [h.equalFn]
      exact List.find?_eq_none.mp hfind
  | some e =>
      obtain ⟨he, l, r, hcs, hl⟩ := List.find?_eq_some_iff_append.mp hfind
      have hl' : ∀ d ∈ l, ¬same d.2.1 key := fun d hd => by simpa using hl d hd
      refine .inr ⟨l, e.1, e.2, r, rfl, hcs, hl', he, ?_⟩
      exact h.inv.findEntry_some hcs (by rwa [h.equalFn]) (by rwa [h.equalFn])

/-- The chain of `key` changed to `chain`, and the pairs to `pairs`, alike for
every key that is the same, and not at all for the others. -/
theorem matching_update (h : map.Holds hashFn same cs c) (hlaws : HashLaws hashFn same)
    {F : List (K × V) → List (K × V)} {pairs : List (K × V)}
    (hchain : ∀ k, KeyedList.matching same k (chain.map Prod.snd) = if same key k then
      F (KeyedList.matching same k ((cs (map.index key)).map Prod.snd))
      else KeyedList.matching same k ((cs (map.index key)).map Prod.snd))
    (hpairs : ∀ k, KeyedList.matching same k pairs = if same key k then
      F (KeyedList.matching same k c.pairs) else KeyedList.matching same k c.pairs) (k : K) :
    KeyedList.matching same k
        ((Function.update cs (map.index key) chain (map.index k)).map Prod.snd) =
      KeyedList.matching same k pairs := by
  by_cases hindex : map.index k = map.index key
  · rw [hindex, Function.update_self, hchain, hpairs, ← h.matching k, hindex]
  · have hne : ¬same key k := fun hsame => hindex (h.index_congr hlaws hsame).symm
    rw [Function.update_of_ne hindex, hpairs, if_neg hne, h.matching k]

/-- The pair of an entry replaced.  The entry keeps its place in the chain,
and the pair its place in the list. -/
theorem set (h : map.Holds hashFn same cs c) (hlaws : HashLaws hashFn same)
    (hcs : cs (map.index key) = l ++ (p, x) :: r) (hl : ∀ e ∈ l, ¬same e.2.1 key)
    (hx : same x.1 key) (value : V) : ∃ next, map.entries p = some ⟨next, x⟩ ∧ ∃ cs',
      HashMap.Holds { map with toHashTable := map.put p (some ⟨next, (key, value)⟩) } hashFn same
        cs' { c with pairs := setFirst same key (key, value) c.pairs } ∧
      live (map.put p (some ⟨next, (key, value)⟩)) = live map.toHashTable := by
  obtain ⟨next, hn, hinv, hlive⟩ := h.inv.set hcs value
  have hkey := hlaws.equiv.refl key
  refine ⟨next, hn, _, ⟨hinv, h.hashFn, h.equalFn, ?_, ?_, h.cap⟩, hlive⟩
  · refine h.matching_update hlaws (F := setFirst same key (key, value)) (fun k => ?_)
      fun k => matching_setFirst hlaws.equiv hkey
    rw [← matching_setFirst (e := (key, value)) hlaws.equiv hkey, hcs, List.map_append,
      List.map_append, List.map_cons, List.map_cons, setFirst_append_of_not (fun e he => ?_) hx]
    obtain ⟨d, hd, rfl⟩ := List.mem_map.mp he
    exact hl d hd
  · rw [← h.size]
    exact length_setFirst

/-- An entry deleted.  The pointer to it, from the bucket or from the entry
before, now leads to the one behind it. -/
theorem delete (h : map.Holds hashFn same cs c) (hlaws : HashLaws hashFn same)
    (hcs : cs (map.index key) = l ++ (p, x) :: r) (hl : ∀ e ∈ l, ¬same e.2.1 key)
    (hx : same x.1 key) (hfound : lookup same key c.pairs = some x) :
    ∃ t, hashmapDelEntry map.toHashTable ((EntrySlot.bucket (map.index key)).behind l) p = .ok t ∧
      ∃ cs', HashMap.Holds { map with toHashTable := t.put p none, sz := sub32 map.sz 1 } hashFn
        same cs' { c with pairs := erase same key c.pairs } ∧
      live (t.put p none) ⊆ live map.toHashTable := by
  obtain ⟨t, hrun, hinv, hlive⟩ := h.inv.delete hcs
  refine ⟨t, hrun, _, ⟨hinv, h.hashFn, h.equalFn, ?_, ?_, h.cap⟩, hlive ▸ Set.sdiff_subset⟩
  · refine h.matching_update hlaws (F := List.tail) (fun k => ?_)
      fun k => matching_erase hlaws.equiv
    rw [← matching_erase hlaws.equiv, hcs, List.map_append, List.map_append, List.map_cons,
      erase_append_of_not (fun e he => ?_) hx]
    obtain ⟨d, hd, rfl⟩ := List.mem_map.mp he
    exact hl d hd
  · have hlen := length_erase hfound
    have hsz := h.inv.sz_le
    show (erase same key c.pairs).length = sub32 map.sz 1
    rw [← h.size] at hsz ⊢
    rw [hlen, sub32_of_le (by omega) (by omega), Nat.add_sub_cancel]

/-- An entry added.  It is the first of its chain, and its pair the first of
the list. -/
theorem add (h : map.Holds hashFn same cs c) (hlaws : HashLaws hashFn same)
    (hroom : hashmapNeedsToGrow map = false) {a : ℕ} (hfresh : map.toHashTable.Fresh a) (key : K)
    (value : V) : ∃ t, hashmapAddEntry (map.put a (some ⟨0, (key, value)⟩))
        (.bucket (map.index key)) a = .ok t ∧ ∃ cs',
      HashMap.Holds { map with toHashTable := t, sz := (map.sz + 1) % 2 ^ 32 } hashFn same cs'
        (c.cons (key, value)) ∧ live t = Insert.insert a (live map.toHashTable) := by
  obtain ⟨t, hrun, hinv, hlive⟩ := h.inv.add hroom hfresh key value
  have hcons : ∀ k (L : List (K × V)), KeyedList.matching same k ((key, value) :: L) =
      if same key k then (key, value) :: KeyedList.matching same k L
      else KeyedList.matching same k L := fun k L => List.filter_cons
  refine ⟨t, hrun, _, ⟨hinv, h.hashFn, h.equalFn, ?_, ?_, h.cap⟩, hlive⟩
  · exact h.matching_update hlaws (F := List.cons (key, value)) (fun k => hcons k _)
      fun k => hcons k _
  · have hsz := h.inv.sz_le
    show c.pairs.length + 1 = (map.sz + 1) % 2 ^ 32
    rw [h.size, Nat.mod_eq_of_lt (by omega)]

/-- Only the chain of a key has pairs for it: a pair in another bucket has
another hash, and so another key. -/
theorem matching_allEntries (h : map.Holds hashFn same cs c) (hlaws : HashLaws hashFn same)
    (key : K) : KeyedList.matching same key ((map.allEntries cs).map Prod.snd) =
      KeyedList.matching same key c.pairs := by
  have hother : ∀ i, i ≠ map.index key →
      KeyedList.matching same key ((cs i).map Prod.snd) = [] := by
    intro i hi
    refine matching_eq_nil fun e he hsame => hi ?_
    obtain ⟨d, hd, rfl⟩ := List.mem_map.mp he
    rw [← h.inv.hashed i d hd, h.index_congr hlaws hsame]
  have hmap : ∀ is : List ℕ, KeyedList.matching same key ((is.flatMap cs).map Prod.snd) =
      is.flatMap fun i => KeyedList.matching same key ((cs i).map Prod.snd) := by
    intro is
    induction is with
    | nil => rfl
    | cons i is ih =>
        rw [List.flatMap_cons, List.map_append, matching_append, ih, List.flatMap_cons]
  rw [HashMap.allEntries, hmap, ← h.matching key]
  by_cases hlt : map.index key < map.cap
  · refine flatMap_eq_of_nodup (List.nodup_range' ..) ?_ fun i _ hi => hother i hi
    exact List.mem_range'_1.mpr ⟨Nat.zero_le _, by omega⟩
  · rw [h.inv.nil_of_ge (not_lt.mp hlt)]
    refine List.flatMap_eq_nil_iff.mpr fun i hi => hother i fun heq => hlt ?_
    have hi := List.mem_range'_1.mp hi
    omega

/-- The map and its reference need more buckets at the same time. -/
theorem needsToGrow_eq (h : map.Holds hashFn same cs c) :
    hashmapNeedsToGrow map = c.needsToGrow := by
  have hsz := h.inv.sz_le
  unfold hashmapNeedsToGrow HashContents.needsToGrow
  rw [h.cap, h.size, Nat.mod_eq_of_lt (by omega)]

/-- The map grown.  Each chain is turned around on its way to the new buckets,
and so is the list of the reference. -/
theorem grow (h : map.Holds hashFn same cs c) (hlaws : HashLaws hashFn same)
    (hgrow : hashmapNeedsToGrow map = true) : ∃ new cs', hashmapGrow true map = .ok (new, 0) ∧
      hashmapNeedsToGrow new = false ∧ live new.toHashTable = live map.toHashTable ∧
      new.Holds hashFn same cs' c.grown := by
  obtain ⟨new, bits, hrun, hhash, hequal, hsz, hcap, hbits, hroom, hlive, hinv⟩ := h.inv.grow hgrow
  refine ⟨new, _, hrun, hroom, hlive, hinv, hhash.trans h.hashFn, hequal.trans h.equalFn,
    fun key => ?_, ?_, ?_⟩
  · have hsame : ∀ d ∈ map.allEntries cs, same d.2.1 key →
        decide (hashBits (map.hashFn d.2.1) bits = new.index key) = true := by
      intro d _ hd
      rw [decide_eq_true_iff, index, hhash, hbits, h.hashFn, hlaws.hash _ _ hd]
    unfold moved
    rw [List.append_nil, List.map_reverse, matching_reverse, matching_map_filter hsame,
      h.matching_allEntries hlaws, ← matching_reverse]
    rfl
  · rw [hsz, ← h.size]
    exact List.length_reverse
  · rw [hcap, ← h.cap]
    rfl

end HashMap.Holds

/-! ### The calls

Each call is done on both sides.  An insertion looks for the key, replaces or
refuses, and otherwise grows the map if it has to and adds an entry; the
reference makes the same decisions because both sides count the same pairs and
the same buckets. -/

theorem HashMap.live_subset {t t' : HashTable K V} {a : ℕ}
    (hlive : live t' = Insert.insert a (live t)) :
    live t' ⊆ live t ∪ {b | some a = some b} := by
  rw [hlive]
  rintro q (rfl | hq)
  · exact .inr rfl
  · exact .inl hq

/-- A new entry, in larger buckets where the map needs them.  This is the
second half of `hashmap__insert`, after the key has not been found or need not
be. -/
theorem HashMap.Holds.addPair (h : map.Holds hashFn same cs c) (hlaws : HashLaws hashFn same)
    (granted : Bool) (hentry : ∀ a, entry = some a → map.toHashTable.Fresh a) (key : K)
    (value : V) :
    ∃ map' cs', (do
        let (map, err) ← if hashmapNeedsToGrow map then hashmapGrow granted map else .ok (map, 0)
        if err ≠ 0 then .ok (map, err, (none : Option (K × V)))
        else match entry with
          | none => .ok (map, -1, none)
          | some entry => do
              let t ← hashmapAddEntry (map.put entry (some ⟨0, (key, value)⟩))
                (.bucket (hashBits (map.hashFn key) map.capBits)) entry
              .ok ({ map with toHashTable := t, sz := (map.sz + 1) % 2 ^ 32 }, 0, none) : Exec _) =
          .ok (map', (HashContents.addPair granted entry c (key, value)).2, none) ∧
        map'.Holds hashFn same cs' (HashContents.addPair granted entry c (key, value)).1 ∧
        live map'.toHashTable ⊆ live map.toHashTable ∪ {a | entry = some a} := by
  unfold HashContents.addPair
  rw [← h.needsToGrow_eq]
  cases hgrow : hashmapNeedsToGrow map with
  | false =>
      cases entry with
      | none => exact ⟨map, cs, rfl, h, Set.subset_union_left⟩
      | some a =>
          obtain ⟨t, hadd, cs', h', hlive⟩ := h.add hlaws hgrow (hentry a rfl) key value
          refine ⟨_, cs', ?_, h', live_subset hlive⟩
          rw [if_neg Bool.false_ne_true, Exec.ok_bind]
          show (hashmapAddEntry _ (.bucket (map.index key)) a >>= _) = _
          rw [hadd]
          rfl
  | true =>
      cases granted with
      | false => exact ⟨map, cs, rfl, h, Set.subset_union_left⟩
      | true =>
          obtain ⟨new, cs₁, hrun, hroom, hlive, h₁⟩ := h.grow hlaws hgrow
          rw [if_pos rfl, hrun, Exec.ok_bind]
          cases entry with
          | none => exact ⟨new, cs₁, rfl, h₁, hlive ▸ Set.subset_union_left⟩
          | some a =>
              have hfresh := hentry a rfl
              obtain ⟨t, hadd, cs', h', hlive'⟩ := h₁.add hlaws hroom
                ⟨hfresh.ne_zero, hfresh.below, hlive ▸ hfresh.apart⟩ key value
              rw [hlive] at hlive'
              refine ⟨_, cs', ?_, h', live_subset hlive'⟩
              show (hashmapAddEntry _ (.bucket (new.index key)) a >>= _) = _
              rw [hadd]
              rfl

/-- **`hashmap__insert`** does what it does on the reference, whatever its
strategy and whatever the allocator has.  The only entry that it may add is
the one it was given. -/
theorem HashMap.Holds.insert (h : map.Holds hashFn same cs c) (hlaws : HashLaws hashFn same)
    (granted : Bool) (hentry : ∀ a, entry = some a → map.toHashTable.Fresh a) (key : K) (value : V)
    (strategy : HashmapInsertStrategy) : ∃ map' cs',
      hashmapInsert granted entry map key value strategy =
        .ok (map', (c.insert same granted entry (key, value) strategy).2) ∧
      map'.Holds hashFn same cs' (c.insert same granted entry (key, value) strategy).1 ∧
      live map'.toHashTable ⊆ live map.toHashTable ∪ {a | entry = some a} := by
  obtain ⟨new, cs₁, hadd, h₁⟩ := h.addPair hlaws granted hentry key value
  unfold hashmapInsert HashContents.insert
  by_cases happend : strategy = .append
  · subst happend
    exact ⟨new, cs₁, hadd, h₁⟩
  rw [if_pos happend, if_pos happend]
  rcases h.find_cases key with ⟨hnone, hfind⟩ | ⟨l, p, x, r, hsome, hcs, hl, hx, hfind⟩
  · rw [show lookup same (key, value).1 c.pairs = none from hnone]
    show ∃ map' cs', (hashmapFindEntry map key (map.index key) >>= _) = _ ∧ _
    rw [hfind, Exec.ok_bind]
    by_cases hupdate : strategy = .update
    · dsimp only
      rw [if_pos hupdate, if_pos hupdate]
      exact ⟨map, cs, rfl, h, Set.subset_union_left⟩
    · dsimp only
      rw [if_neg hupdate, if_neg hupdate]
      exact ⟨new, cs₁, hadd, h₁⟩
  · rw [show lookup same (key, value).1 c.pairs = some x from hsome]
    obtain ⟨next, hn, cs', h', hlive⟩ := h.set hlaws hcs hl hx value
    show ∃ map' cs', (hashmapFindEntry map key (map.index key) >>= _) = _ ∧ _
    rw [hfind, Exec.ok_bind]
    dsimp only
    rw [HashTable.entry_eq (h.inv.entry_of_mem hcs).1 hn, Exec.ok_bind]
    by_cases hset : strategy = .set ∨ strategy = .update
    · rw [if_pos hset, if_pos hset]
      exact ⟨_, cs', rfl, h', hlive ▸ Set.subset_union_left⟩
    · rw [if_neg hset, if_neg hset]
      exact ⟨map, cs, rfl, h, Set.subset_union_left⟩

/-- **`hashmap__find`** returns the value of the first pair. -/
theorem HashMap.Holds.find (h : map.Holds hashFn same cs c) (key : K) :
    hashmapFind map key = .ok ((lookup same key c.pairs).map Prod.snd) := by
  show (hashmapFindEntry map key (map.index key) >>= _) = _
  rcases h.find_cases key with ⟨hnone, hfind⟩ | ⟨l, p, x, r, hsome, hcs, -, -, hfind⟩
  · rw [hfind, hnone]
    rfl
  · obtain ⟨hp, next, hn⟩ := h.inv.entry_of_mem hcs
    rw [hfind, hsome, Exec.ok_bind]
    dsimp only
    rw [HashTable.entry_eq hp hn]
    rfl

/-- **`hashmap__delete`** takes out the first pair, if the key has one, and
returns it. -/
theorem HashMap.Holds.hashmapDelete (h : map.Holds hashFn same cs c)
    (hlaws : HashLaws hashFn same) (key : K) : ∃ map' cs',
      CourseOs.hashmapDelete map key = .ok (map', lookup same key c.pairs) ∧
      map'.Holds hashFn same cs' { c with pairs := erase same key c.pairs } ∧
      live map'.toHashTable ⊆ live map.toHashTable := by
  show ∃ map' cs', (hashmapFindEntry map key (map.index key) >>= _) = _ ∧ _
  rcases h.find_cases key with ⟨hnone, hfind⟩ | ⟨l, p, x, r, hsome, hcs, hl, hx, hfind⟩
  · rw [hfind, hnone]
    refine ⟨map, cs, rfl, ?_, subset_rfl⟩
    rwa [erase_eq_self (not_same_of_lookup hnone)]
  · obtain ⟨hp, next, hn⟩ := h.inv.entry_of_mem hcs
    obtain ⟨t, hrun, cs', h', hlive⟩ := h.delete hlaws hcs hl hx hsome
    refine ⟨_, cs', ?_, h', hlive⟩
    rw [hfind, hsome, Exec.ok_bind]
    dsimp only
    rw [HashTable.entry_eq hp hn, Exec.ok_bind, hrun]
    rfl

theorem hashmapForEachKeyLoop_eq {fuel cur : ℕ} (hlinked : Linked map.entries cur l)
    (hfuel : l.length < fuel) : hashmapForEachKeyLoop map key fuel cur =
      .ok (matching map.equalFn key (l.map Prod.snd)) := by
  induction l generalizing cur fuel with
  | nil =>
      obtain ⟨fuel, rfl⟩ := Nat.exists_eq_add_one_of_ne_zero (Nat.ne_of_gt hfuel)
      exact if_pos hlinked
  | cons e l ih =>
      obtain ⟨fuel, rfl⟩ := Nat.exists_eq_add_one_of_ne_zero (Nat.ne_zero_of_lt hfuel)
      obtain ⟨rfl, hne, n, hn, hrest⟩ := hlinked
      rw [hashmapForEachKeyLoop, if_neg hne, HashTable.entry_eq hne hn, Exec.ok_bind,
        ih hrest (Nat.lt_of_succ_lt_succ hfuel), Exec.ok_bind, List.map_cons]
      have hcons : matching map.equalFn key (e.2 :: l.map Prod.snd) =
          if map.equalFn e.2.1 key then e.2 :: matching map.equalFn key (l.map Prod.snd)
          else matching map.equalFn key (l.map Prod.snd) := List.filter_cons
      rw [hcons]

/-- **`hashmap__for_each_key_entry`** comes to all pairs of a key. -/
theorem HashMap.Holds.forEachKeyEntry (h : map.Holds hashFn same cs c) (key : K) :
    hashmapForEachKeyEntry map key = .ok (KeyedList.matching same key c.pairs) := by
  rw [← h.matching key]
  unfold hashmapForEachKeyEntry
  cases h.inv.shape with
  | null hnull _ _ =>
      rw [hnull, h.inv.nil_of_null hnull]
      rfl
  | block b hb _ hcap _ _ =>
      have hpos : map.cap ≠ 0 := by
        rw [hcap]
        exact (Nat.two_pow_pos _).ne'
      rw [hb]
      show (map.load (.bucket (map.index key)) >>= _) = _
      rw [h.inv.load_index hpos, Exec.ok_bind,
        hashmapForEachKeyLoop_eq (h.inv.chains.linked _) (h.inv.length_lt _), h.equalFn]

/-- **Each call** that may be made does what it does on the reference, and
allocates no entry but the one it is given. -/
theorem hashmap_step (h : map.Holds hashFn same cs c) (hlaws : HashLaws hashFn same)
    {op : HashmapOp K V} (hop : op.Allowed map) : ∃ map', op.run map =
        .ok (map', (op.reference same c).2) ∧
      (∃ cs', map'.Holds hashFn same cs' (op.reference same c).1) ∧
      HashMap.live map'.toHashTable ⊆ HashMap.live map.toHashTable ∪ {a | op.entry = some a} := by
  cases op with
  | insert granted entry key value strategy =>
      have hentry : ∀ a, entry = some a → map.toHashTable.Fresh a := by
        rintro a rfl
        exact hop
      obtain ⟨map', cs', hrun, h', hlive⟩ := h.insert hlaws granted hentry key value strategy
      refine ⟨map', ?_, ⟨cs', h'⟩, hlive⟩
      show (hashmapInsert granted entry map key value strategy >>= _) = _
      rw [hrun]
      rfl
  | find key =>
      refine ⟨map, ?_, ⟨cs, h⟩, Set.subset_union_left⟩
      show (hashmapFind map key >>= _) = _
      rw [h.find]
      rfl
  | delete key =>
      obtain ⟨map', cs', hrun, h', hlive⟩ := h.hashmapDelete hlaws key
      refine ⟨map', ?_, ⟨cs', h'⟩, hlive.trans Set.subset_union_left⟩
      show (hashmapDelete map key >>= _) = _
      rw [hrun]
      rfl
  | forEachKeyEntry key =>
      refine ⟨map, ?_, ⟨cs, h⟩, Set.subset_union_left⟩
      show (hashmapForEachKeyEntry map key >>= _) = _
      rw [h.forEachKeyEntry]
      rfl
  | size =>
      refine ⟨map, ?_, ⟨cs, h⟩, Set.subset_union_left⟩
      show Except.ok (map, HashmapOutput.size map.sz) = .ok (map, .size c.pairs.length)
      rw [h.size]
  | capacity =>
      refine ⟨map, ?_, ⟨cs, h⟩, Set.subset_union_left⟩
      show Except.ok (map, HashmapOutput.size map.cap) = .ok (map, .size c.cap)
      rw [h.cap]

end Step

/-! ### Runs

From one call to any number.  What is promised of the allocator is stated in
the state of each call (`Allowed`), and for a run it is enough that all blocks
for entries are apart and within memory (`each_allowed_new`). -/

section Runs

variable {hashFn : K → ℕ} {same : K → K → Bool} {ops : List (HashmapOp K V)}

/-- A new map is empty. -/
theorem HashMap.Holds.new (hashFn : K → ℕ) (same : K → K → Bool) :
    (hashmapNew hashFn same : HashMap K V).Holds hashFn same (fun _ => []) ⟨[], 0⟩ :=
  ⟨.new hashFn same, rfl, rfl, fun _ => rfl, rfl, rfl⟩

/-- What the calls of `ops` return on the reference, and what they make of it. -/
abbrev hashmapReference (same : K → K → Bool) (ops : List (HashmapOp K V)) :
    HashContents K V × List (HashmapOutput K V) :=
  Calls.reference (HashmapOp.reference same) ops ⟨[], 0⟩

theorem hashmap_run (hlaws : HashLaws hashFn same)
    (hops : Calls.Each HashmapOp.run HashmapOp.Allowed ops (hashmapNew hashFn same)) :
    ∃ map, Calls.run HashmapOp.run ops (hashmapNew hashFn same) =
        .ok (map, (hashmapReference same ops).2) ∧
      ∃ cs, map.Holds hashFn same cs (hashmapReference same ops).1 :=
  Calls.simulation (R := fun map c => ∃ cs, HashMap.Holds map hashFn same cs c)
    (fun _ _ _ ⟨_, h⟩ hop => by
      obtain ⟨map', hrun, h', -⟩ := hashmap_step h hlaws hop
      exact ⟨map', hrun, h'⟩) ⟨_, .new hashFn same⟩ hops

/-- An allocator that has blocks apart from each other, and from the entries
there are, for all the entries of a run keeps what is promised in each of its
calls. -/
theorem HashmapOp.each_allowed {map : HashMap K V} {cs : ℕ → List (ℕ × K × V)}
    {c : HashContents K V}
    (h : map.Holds hashFn same cs c) (hlaws : HashLaws hashFn same)
    (hfresh : ∀ op ∈ ops, ∀ a, op.entry = some a → map.toHashTable.Fresh a)
    (hapart : ops.Pairwise fun op op' => ∀ a b, op.entry = some a → op'.entry = some b →
      b + sizeofHashmapEntry ≤ a ∨ a + sizeofHashmapEntry ≤ b) :
    Calls.Each HashmapOp.run HashmapOp.Allowed ops map := by
  induction ops generalizing map cs c with
  | nil => exact trivial
  | cons op ops ih =>
      obtain ⟨hother, hrest⟩ := List.pairwise_cons.mp hapart
      have hop : op.Allowed map := by
        cases op with
        | insert granted entry key value strategy =>
            cases entry with
            | none => exact trivial
            | some a => exact hfresh _ List.mem_cons_self a rfl
        | find key => exact trivial
        | delete key => exact trivial
        | forEachKeyEntry key => exact trivial
        | size => exact trivial
        | capacity => exact trivial
      obtain ⟨map', hrun, ⟨cs', h'⟩, hlive⟩ := hashmap_step h hlaws hop
      refine ⟨hop, fun map₁ out hrun₁ => ?_⟩
      cases hrun.symm.trans hrun₁
      refine ih h' (fun op' hop' b hb => ?_) hrest
      have hold := hfresh op' (List.mem_cons_of_mem op hop') b hb
      refine ⟨hold.ne_zero, hold.below, fun q hq => ?_⟩
      rcases hlive hq with hq | hq
      · exact hold.apart q hq
      · exact hother op' hop' q b hq hb

/-- In a new map no entry is in use.  So blocks that fit in the address space,
and lie apart from each other, are all that the calls of a run need. -/
theorem HashmapOp.each_allowed_new (hlaws : HashLaws hashFn same)
    (hfits : ∀ op ∈ ops, ∀ a, op.entry = some a → a ≠ 0 ∧ a + sizeofHashmapEntry ≤ 2 ^ 32)
    (hapart : ops.Pairwise fun op op' => ∀ a b, op.entry = some a → op'.entry = some b →
      b + sizeofHashmapEntry ≤ a ∨ a + sizeofHashmapEntry ≤ b) :
    Calls.Each HashmapOp.run HashmapOp.Allowed ops (hashmapNew hashFn same) :=
  each_allowed (.new hashFn same) hlaws
    (fun op hop a ha => ⟨(hfits op hop a ha).1, (hfits op hop a ha).2, fun _ hq => absurd rfl hq⟩)
    hapart

/-- **A hash map refines the list of its pairs.**  For an equality and a hash
that meet `HashLaws`, every run on a new map in which each block given for an
entry overlaps no other returns from every call, whatever the allocator
refuses, and returns what it returns on the reference, whose list is reversed
each time the map grows.  Afterwards the entries of each key are the pairs of
this key in the reference, in the same order. -/
theorem hashmap_refines (hlaws : HashLaws hashFn same)
    (hops : Calls.Each HashmapOp.run HashmapOp.Allowed ops (hashmapNew hashFn same)) :
    ∃ map, Calls.run HashmapOp.run ops (hashmapNew hashFn same) =
        .ok (map, (hashmapReference same ops).2) ∧
      (∀ key, hashmapForEachKeyEntry map key =
        .ok (KeyedList.matching same key (hashmapReference same ops).1.pairs)) ∧
      hashmapSize map = (hashmapReference same ops).1.pairs.length ∧
      hashmapCapacity map = (hashmapReference same ops).1.cap := by
  obtain ⟨map, hrun, cs, h⟩ := hashmap_run hlaws hops
  exact ⟨map, hrun, h.forEachKeyEntry, h.size.symm, h.cap.symm⟩

/-- Equality of keys, with any hash. -/
theorem hashLaws_beq (hashFn : ℕ → ℕ) : HashLaws hashFn (· == ·) where
  equiv := ⟨fun _ => beq_self_eq_true _, fun h => beq_iff_eq.mpr (beq_iff_eq.mp h).symm,
    fun h h' => beq_iff_eq.mpr ((beq_iff_eq.mp h).trans (beq_iff_eq.mp h'))⟩
  hash _ _ h := congrArg hashFn (beq_iff_eq.mp h)

/-- Four insertions, the last of which doubles the buckets and hashes the
first three again. -/
def fourInserted : List (HashmapOp ℕ ℕ) :=
  [.insert true (some 16) 1 10 .add, .insert true (some 32) 5 50 .add,
    .insert true (some 48) 9 90 .add, .insert true (some 64) 5 51 .append]

theorem each_allowed_fourInserted :
    Calls.Each HashmapOp.run HashmapOp.Allowed fourInserted (hashmapNew id (· == ·)) :=
  HashmapOp.each_allowed_new (hashLaws_beq id) (by simp [fourInserted, HashmapOp.entry,
    sizeofHashmapEntry]) (by simp [fourInserted, HashmapOp.entry, sizeofHashmapEntry])

/-- A new key, and one that is not there: the first is found with its value,
the deletion of the second finds nothing. -/
theorem hashmap_refines_add : ∃ map : HashMap ℕ ℕ,
    Calls.run HashmapOp.run [.insert true (some 16) 5 42 .add, .find 5, .delete 7]
        (hashmapNew id (· == ·)) =
      .ok (map, [.inserted 0 none, .found (some 42), .deleted none]) ∧ hashmapSize map = 1 := by
  have hops : Calls.Each HashmapOp.run HashmapOp.Allowed
      [.insert true (some 16) 5 42 .add, .find 5, .delete 7]
      (hashmapNew id (· == ·) : HashMap ℕ ℕ) :=
    ⟨⟨by decide, by decide, fun q hq => absurd rfl hq⟩, fun _ _ _ => ⟨trivial, fun _ _ _ =>
      ⟨trivial, fun _ _ _ => trivial⟩⟩⟩
  obtain ⟨map, hrun, -, hsize, -⟩ := hashmap_refines (hashLaws_beq id) hops
  exact ⟨map, hrun, hsize⟩

/-- The fourth entry makes the map grow, and of two values for one key the
first that was appended is found from then on. -/
example : (hashmapReference (K := ℕ) (V := ℕ) (· == ·)
    [.insert true (some 16) 1 10 .append, .insert true (some 32) 1 11 .append, .find 1,
      .insert true (some 48) 2 20 .add, .insert true (some 64) 3 30 .add, .find 1]).2 =
    [.inserted 0 none, .inserted 0 none, .found (some 11), .inserted 0 none, .inserted 0 none,
      .found (some 10)] := rfl

/-! ### Without `HASHMAP_APPEND`

Without the strategy that appends, no key ever has two pairs.  The reversal by
growth is then without effect on what is found, and the map can be described
by the last writes alone. -/

/-- The pair `e` for its key, if the insertion has returned 0. -/
def written (same : K → K → Bool) (f : K → Option (K × V)) (err : ℤ) (e : K × V) (k : K) :
    Option (K × V) :=
  if err = 0 ∧ same e.1 k then some e else f k

/-- No pair for `key`, nor for any key that is the same. -/
def unwritten (same : K → K → Bool) (f : K → Option (K × V)) (key k : K) : Option (K × V) :=
  if same key k then none else f k

/-- The map of keys to pairs, after a call and what it has returned.  An
insertion counts if it returned 0. -/
def HashmapOp.write (same : K → K → Bool) (f : K → Option (K × V)) :
    HashmapOp K V × HashmapOutput K V → K → Option (K × V)
  | (insert _ _ key value _, .inserted err _) => written same f err (key, value)
  | (delete key, _) => unwritten same f key
  | _ => f

/-- The pair last written for each key, and not deleted since.  An insertion
that returned an error has written nothing. -/
def lastWritten (same : K → K → Bool) (calls : List (HashmapOp K V × HashmapOutput K V)) :
    K → Option (K × V) :=
  calls.foldl (HashmapOp.write same) fun _ => none

/-- There is no pair for a key but that of `f`, and that is there once. -/
def HashContents.Unique (same : K → K → Bool) (c : HashContents K V) (f : K → Option (K × V)) :
    Prop :=
  ∀ k, matching same k c.pairs = (f k).toList

section Written

variable {f : K → Option (K × V)} {e : K × V} {k : K}

theorem written_of_same (h : same e.1 k) : written same f 0 e k = some e := if_pos ⟨rfl, h⟩

theorem written_of_not (h : ¬same e.1 k) : written same f 0 e k = f k := if_neg fun hno => h hno.2

theorem written_fail : written same f (-1) e = f :=
  funext fun _ => if_neg fun hno => absurd hno.1 (by decide)

end Written

namespace HashContents.Unique

variable {c : HashContents K V} {f : K → Option (K × V)} {e : K × V}

theorem lookup_eq (h : c.Unique same f) (k : K) : lookup same k c.pairs = f k := by
  rw [lookup_eq_head?, h k]
  cases f k <;> rfl

theorem grown (h : c.Unique same f) : c.grown.Unique same f := by
  intro k
  show KeyedList.matching same k c.pairs.reverse = _
  rw [matching_reverse, h k]
  cases f k <;> rfl

/-- A pair for a new key. -/
theorem cons (h : c.Unique same f) (hsame : IsEquiv same) (hnone : f e.1 = none) :
    (c.cons e).Unique same (written same f 0 e) := by
  intro k
  show KeyedList.matching same k (e :: c.pairs) = _
  by_cases hk : same e.1 k
  · have hempty : KeyedList.matching same k c.pairs = [] := by
      rw [← matching_congr hsame hk, h e.1, hnone]
      rfl
    rw [matching_cons_of_same hk, hempty, written_of_same hk]
    rfl
  · rw [matching_cons_of_not hk, h k, written_of_not hk]

/-- Another pair for a key. -/
theorem set (h : c.Unique same f) (hsame : IsEquiv same) {old : K × V} (hsome : f e.1 = some old) :
    HashContents.Unique same { c with pairs := setFirst same e.1 e c.pairs }
      (written same f 0 e) := by
  intro k
  show KeyedList.matching same k (setFirst same e.1 e c.pairs) = _
  rw [matching_setFirst hsame (hsame.refl e.1)]
  by_cases hk : same e.1 k
  · have hone : KeyedList.matching same k c.pairs = [old] := by
      rw [← matching_congr hsame hk, h e.1, hsome]
      rfl
    have hold : same old.1 e.1 := by
      refine hsame.trans (same_of_mem_matching (L := c.pairs) ?_) (hsame.symm hk)
      rw [hone]
      exact List.mem_singleton_self old
    rw [if_pos hk, written_of_same hk, hone]
    exact if_pos hold
  · rw [if_neg hk, written_of_not hk, h k]

theorem erase (h : c.Unique same f) (hsame : IsEquiv same) (key : K) :
    HashContents.Unique same { c with pairs := KeyedList.erase same key c.pairs }
      (unwritten same f key) := by
  intro k
  show KeyedList.matching same k (KeyedList.erase same key c.pairs) = _
  unfold unwritten
  rw [matching_erase hsame]
  by_cases hk : same key k
  · rw [if_pos hk, if_pos hk, h k]
    cases f k <;> rfl
  · rw [if_neg hk, if_neg hk, h k]

theorem addPair (h : c.Unique same f) (hsame : IsEquiv same) (hnone : f e.1 = none)
    (granted : Bool) (entry : Option ℕ) :
    (HashContents.addPair granted entry c e).1.Unique same
      (written same f (HashContents.addPair granted entry c e).2 e) := by
  unfold HashContents.addPair
  split
  · rwa [written_fail]
  · have hroom : (if c.needsToGrow then c.grown else c).Unique same f := by
      split
      · exact h.grown
      · exact h
    cases entry with
    | none =>
        dsimp only
        rwa [written_fail]
    | some a => exact hroom.cons hsame hnone

/-- **Each call** but those that append keeps one pair for a key.  An
insertion that finds the key replaces the pair or is refused, and one that
does not find it adds the only one. -/
theorem step (h : c.Unique same f) (hsame : IsEquiv same) {op : HashmapOp K V}
    (hop : op.NoAppend) : (op.reference same c).1.Unique same
      (HashmapOp.write same f (op, (op.reference same c).2)) := by
  cases op with
  | insert granted entry key value strategy =>
      show HashContents.Unique same (c.insert same granted entry (key, value) strategy).1
        (written same f (c.insert same granted entry (key, value) strategy).2.1 (key, value))
      have happend : strategy ≠ .append := hop
      unfold HashContents.insert
      rw [if_pos happend, h.lookup_eq]
      dsimp only
      cases hf : f key with
      | some old =>
          dsimp only
          split
          · exact h.set (e := (key, value)) hsame hf
          · rwa [written_fail]
      | none =>
          dsimp only
          split
          · rwa [written_fail]
          · exact h.addPair (e := (key, value)) hsame hf granted entry
  | find key => exact h
  | delete key => exact h.erase hsame key
  | forEachKeyEntry key => exact h
  | size => exact h
  | capacity => exact h

theorem run (h : c.Unique same f) (hsame : IsEquiv same) (hops : ∀ op ∈ ops, op.NoAppend) :
    (Calls.reference (HashmapOp.reference same) ops c).1.Unique same
      ((ops.zip (Calls.reference (HashmapOp.reference same) ops c).2).foldl
        (HashmapOp.write same) f) := by
  induction ops generalizing c f with
  | nil => exact h
  | cons op ops ih =>
      exact ih (h.step hsame (hops op List.mem_cons_self)) fun op' hop' =>
        hops op' (List.mem_cons_of_mem op hop')

end HashContents.Unique

/-- **Without `HASHMAP_APPEND` a hash map is a map.**  After every run without
it, under `HashLaws` and with blocks for entries that overlap no other, each
key has at most one entry, and its pair is the one that was written last by an
insertion that has returned 0, unless it has been deleted since. -/
theorem hashmap_is_map (hlaws : HashLaws hashFn same) (happend : ∀ op ∈ ops, op.NoAppend)
    (hops : Calls.Each HashmapOp.run HashmapOp.Allowed ops (hashmapNew hashFn same)) :
    ∃ map outs, Calls.run HashmapOp.run ops (hashmapNew hashFn same) = .ok (map, outs) ∧
      ∀ key, hashmapForEachKeyEntry map key = .ok (lastWritten same (ops.zip outs) key).toList ∧
        hashmapFind map key = .ok ((lastWritten same (ops.zip outs) key).map Prod.snd) := by
  obtain ⟨map, hrun, cs, h⟩ := hashmap_run hlaws hops
  have hempty : (⟨[], 0⟩ : HashContents K V).Unique same fun _ => none := fun _ => rfl
  have hunique := hempty.run hlaws.equiv happend
  refine ⟨map, _, hrun, fun key => ⟨?_, ?_⟩⟩
  · rw [h.forEachKeyEntry, hunique key]
    rfl
  · rw [h.find, hunique.lookup_eq key]
    rfl

/-- A value is written, replaced and deleted.  The map of the last writes is
read off the calls and their results alone. -/
theorem hashmap_is_map_set : ∃ (map : HashMap ℕ ℕ) (outs : List (HashmapOutput ℕ ℕ)),
    Calls.run HashmapOp.run [.insert true (some 16) 5 42 .add, .insert true none 5 69 .set]
        (hashmapNew id (· == ·)) = .ok (map, outs) ∧
      ∀ key, hashmapForEachKeyEntry map key = .ok (lastWritten (· == ·)
          ([.insert true (some 16) 5 42 .add, .insert true none 5 69 .set].zip outs) key).toList ∧
        hashmapFind map key = .ok ((lastWritten (· == ·)
          ([.insert true (some 16) 5 42 .add, .insert true none 5 69 .set].zip outs) key).map
            Prod.snd) := by
  have hops : Calls.Each HashmapOp.run HashmapOp.Allowed
      [.insert true (some 16) 5 42 .add, .insert true none 5 69 .set]
      (hashmapNew id (· == ·) : HashMap ℕ ℕ) :=
    ⟨⟨by decide, by decide, fun q hq => absurd rfl hq⟩,
      fun _ _ _ => ⟨trivial, fun _ _ _ => trivial⟩⟩
  refine hashmap_is_map (hashLaws_beq id) ?_ hops
  exact List.forall_mem_cons.mpr ⟨nofun, List.forall_mem_cons.mpr ⟨nofun, nofun⟩⟩

end Runs

end CourseOs
