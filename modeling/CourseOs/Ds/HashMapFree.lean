import CourseOs.Ds.HashMapRun

/-!
# The end of a hash map

`hashmap__clear` frees every entry, and calls `freeKey` and `freeData` on its
key and its value, exactly once; `hashmap__free` leaves nothing of the map
(`hashmap_freed`).  The loop goes through all buckets and along each chain,
and reads the next entry before it frees one.

The pointer to the buckets is not reset by `hashmap__clear`.  A map that had
buckets cannot be used again: what follows reads or frees them a second time
(`hashmap_cleared`).  A map that had none is a new map again.

The last section has what holds in every state of a run, of the map itself and
without the reference (`HashMap.WellFormed`): the capacity, the load, the
size, and that each entry is in the chain of its hash and in no other.

As for the runs, keys are compared by `HashLaws`, and blocks given for entries
do not overlap.
-/

namespace CourseOs

open OwnedList KeyedList

variable {K V : Type} {t : HashTable K V} {map : HashMap K V} {b : Block ℕ}
  {cs : ℕ → List (ℕ × K × V)} {hd : ℕ → ℕ} {l : List (ℕ × K × V)} {fuel bkt n : ℕ}

/-! ### What is called for each entry

Clearing goes through the buckets from the first to the last, and along each
chain.  The calls are collected in this order, and the blocks are freed one at
a time; a chain of freed entries is never followed, as the next entry is read
before the one in front of it is freed. -/

/-- What is called for an entry: the two functions of the caller, for its key
and its value, and `kfree` behind them. -/
def freeCalls (e : ℕ × K × V) : List (FreeCall K V) :=
  [.freeKey e.2.1, .freeData e.2.2, .kfree e.1]

theorem hashmapClearChain_spec (hchains : Chains t.entries hd (Function.update cs bkt l))
    (hfuel : l.length < fuel) : ∃ t' hd', hashmapClearChain fuel (hd bkt) t =
        .ok (t', l.flatMap freeCalls) ∧ t'.buckets = t.buckets ∧ (∀ j ≠ bkt, hd' j = hd j) ∧
      Chains t'.entries hd' (Function.update cs bkt []) := by
  induction l generalizing t hd fuel with
  | nil =>
      obtain ⟨fuel, rfl⟩ := Nat.exists_eq_add_one_of_ne_zero (Nat.ne_of_gt hfuel)
      have hnull : hd bkt = 0 := by
        have hlinked := hchains.linked bkt
        rwa [Function.update_self] at hlinked
      exact ⟨t, hd, if_pos hnull, rfl, fun _ _ => rfl, hchains⟩
  | cons e l ih =>
      obtain ⟨p, x⟩ := e
      obtain ⟨fuel, rfl⟩ := Nat.exists_eq_add_one_of_ne_zero (Nat.ne_zero_of_lt hfuel)
      obtain ⟨hhd, hne, next, hn, hrest⟩ := hchains.pop (Function.update_self bkt ((p, x) :: l) cs)
      rw [Function.update_idem] at hrest
      obtain ⟨t', hd', hrun, hbuckets, hother, hchains'⟩ :=
        ih (t := t.put p none) hrest (Nat.lt_of_succ_lt_succ hfuel)
      refine ⟨t', hd', ?_, hbuckets, fun j hj => ?_, hchains'⟩
      · rw [Function.update_self] at hrun
        rw [hashmapClearChain, hhd, if_neg hne, HashTable.entry_eq hne hn, Exec.ok_bind, hrun]
        rfl
      · rw [hother j hj, Function.update_of_ne hj]

/-- The loop over the buckets, from `bkt` on: the entries of each chain are
freed in the order of the chain, and the chains before `bkt` are empty
already.  The induction is on the number of buckets left. -/
theorem hashmapClearLoop_spec (hb : ∀ j, bkt ≤ j → j < bkt + n → t.load (.bucket j) = .ok (hd j))
    (hchains : Chains t.entries hd fun j => if j < bkt then [] else cs j)
    (hlength : ∀ j, (cs j).length < fuel) : ∃ t' hd', hashmapClearLoop fuel n bkt t =
        .ok (t', ((List.range' bkt n).flatMap cs).flatMap freeCalls) ∧ t'.buckets = t.buckets ∧
      Chains t'.entries hd' fun j => if j < bkt + n then [] else cs j := by
  induction n generalizing t hd bkt with
  | zero => exact ⟨t, hd, rfl, rfl, hchains⟩
  | succ n ih =>
      rw [← update_of_lt] at hchains
      obtain ⟨t₁, hd₁, hrun₁, hbuckets₁, hother₁, hchains₁⟩ :=
        hashmapClearChain_spec hchains (hlength bkt)
      rw [update_nil_of_lt] at hchains₁
      have hb₁ : ∀ j, bkt + 1 ≤ j → j < bkt + 1 + n → t₁.load (.bucket j) = .ok (hd₁ j) := by
        intro j hj hj'
        rw [hother₁ j (by omega), ← hb j (by omega) (by omega)]
        show (t₁.bucketsAt j >>= _) = (t.bucketsAt j >>= _)
        unfold HashTable.bucketsAt
        rw [hbuckets₁]
      obtain ⟨t', hd', hrun, hbuckets, hchains'⟩ := ih hb₁ hchains₁
      refine ⟨t', hd', ?_, hbuckets.trans hbuckets₁, ?_⟩
      · rw [hashmapClearLoop, hb bkt le_rfl (Nat.lt_add_of_pos_right n.succ_pos), Exec.ok_bind,
          hrun₁, Exec.ok_bind]
        dsimp only
        rw [hrun, List.range'_succ, List.flatMap_cons, List.flatMap_append]
        rfl
      · rwa [Nat.add_assoc, Nat.add_comm 1 n] at hchains'

namespace HashMap

/-- **`hashmap__clear`** leaves no entry, and frees the buckets.  Every entry
is on a chain of some bucket below the capacity, and the loop has emptied all
of these. -/
theorem Inv.clear (h : map.Inv cs) : ∃ t, hashmapClear map =
      .ok ({ map with toHashTable := t, cap := 0, capBits := 0, sz := 0 },
        (map.allEntries cs).flatMap freeCalls ++ [.kfreeBuckets]) ∧
    t.entries = (fun _ => none) ∧ t.buckets = if map.cap = 0 then .null else .freed := by
  have hb : ∀ j, 0 ≤ j → j < 0 + map.cap → map.load (.bucket j) = .ok (map.heads j) := by
    intro j _ hj
    obtain ⟨b, hb, hin, hheads, -⟩ := h.buckets_of_pos (Nat.ne_zero_of_lt (by omega : j < map.cap))
    rw [hheads]
    exact HashTable.load_bucket hb (hin j (by omega))
  obtain ⟨t, hd, hrun, hbuckets, hchains⟩ :=
    hashmapClearLoop_spec (t := map.toHashTable) hb h.chains h.length_lt
  have hnone : t.entries = fun _ => none := by
    funext p
    by_contra hp
    obtain ⟨j, hj⟩ := (hchains.live p).mp hp
    have hempty : (if j < 0 + map.cap then [] else cs j) = [] := by
      split
      · rfl
      · exact h.nil_of_ge (by omega)
    rw [hempty] at hj
    exact List.not_mem_nil hj
  unfold hashmapClear HashTable.freeBuckets
  rw [hrun, Exec.ok_bind]
  dsimp only
  cases h.shape with
  | null hnull hcap _ =>
      rw [hbuckets, hnull, if_pos hcap]
      exact ⟨⟨.null, t.entries⟩, rfl, hnone, rfl⟩
  | block b hb _ hcap _ _ =>
      have hpos : map.cap ≠ 0 := by
        rw [hcap]
        exact (Nat.two_pow_pos _).ne'
      rw [hbuckets, hb, if_neg hpos]
      exact ⟨⟨.freed, t.entries⟩, rfl, hnone, rfl⟩

/-! ### The calls after a run

Which pairs the calls are about is known from the refinement: the entries of
each key are those of the reference.  Since the two orders differ, what is
compared are lists with the same entries, and these are permutations of each
other. -/

/-- The addresses of the entries that the loops come to. -/
theorem Inv.mem_allEntries (h : map.Inv cs) (p : ℕ) :
    map.entries p ≠ none ↔ p ∈ (map.allEntries cs).map Prod.fst := by
  rw [h.chains.live p, allEntries, List.map_flatMap, List.mem_flatMap]
  constructor
  · rintro ⟨i, hi⟩
    refine ⟨i, List.mem_range'_1.mpr ⟨Nat.zero_le _, ?_⟩, hi⟩
    by_contra hge
    rw [h.nil_of_ge (by omega)] at hi
    exact List.not_mem_nil hi
  · rintro ⟨i, -, hi⟩
    exact ⟨i, hi⟩

end HashMap

section Runs

variable {hashFn : K → ℕ} {same : K → K → Bool} {ops : List (HashmapOp K V)}

/-- **`hashmap__free` frees everything once.**  After any run, under
`HashLaws` and with blocks for entries that overlap no other, it frees each
entry that is allocated, with one call of `freeKey` and of `freeData` for its
pair, then the buckets and the map; the pairs are those of the reference, each
as often as it is there. -/
theorem hashmap_freed (hlaws : HashLaws hashFn same)
    (hops : Calls.Each HashmapOp.run HashmapOp.Allowed ops (hashmapNew hashFn same)) :
    ∃ (map : HashMap K V) (es : List (ℕ × K × V)),
      Calls.run HashmapOp.run ops (hashmapNew hashFn same) =
        .ok (map, (hashmapReference same ops).2) ∧
      hashmapFree map =
        .ok (fun _ => none, es.flatMap freeCalls ++ [.kfreeBuckets, .kfreeMap]) ∧
      (∀ p, map.entries p ≠ none ↔ p ∈ es.map Prod.fst) ∧ (es.map Prod.fst).Nodup ∧
      (es.map Prod.snd).Perm (hashmapReference same ops).1.pairs := by
  obtain ⟨map, hrun, cs, h⟩ := hashmap_run hlaws hops
  obtain ⟨t, hclear, hnone, -⟩ := h.inv.clear
  refine ⟨map, map.allEntries cs, hrun, ?_, h.inv.mem_allEntries,
    h.inv.chains.nodup_flatMap (List.nodup_range' ..), ?_⟩
  · unfold hashmapFree
    rw [hclear, Exec.ok_bind]
    dsimp only
    rw [hnone, List.append_assoc]
    rfl
  · exact SameEntries.perm hlaws.equiv (h.matching_allEntries hlaws)

/-- Four entries, freed after the map has grown.  The entries are freed bucket
by bucket, so that the pairs come in another order than they were inserted in. -/
theorem hashmap_freed_add : ∃ (map : HashMap ℕ ℕ) (es : List (ℕ × ℕ × ℕ)),
    Calls.run HashmapOp.run fourInserted (hashmapNew id (· == ·)) =
      .ok (map, [.inserted 0 none, .inserted 0 none, .inserted 0 none, .inserted 0 none]) ∧
    hashmapFree map = .ok (fun _ => none, es.flatMap freeCalls ++ [.kfreeBuckets, .kfreeMap]) ∧
    (es.map Prod.snd).Perm [(5, 51), (1, 10), (5, 50), (9, 90)] := by
  obtain ⟨map, es, hrun, hfree, -, -, hperm⟩ :=
    hashmap_freed (hashLaws_beq id) each_allowed_fourInserted
  exact ⟨map, es, hrun, hfree, hperm⟩

/-! ### A map that has been cleared

`hashmap__clear` resets the capacity and the size and frees the buckets, but
goes on pointing to them.  Every later call but one follows that pointer, a
lookup to find its bucket and a growth to free the old block. -/

/-- Every use of the map follows the pointer to buckets that have been freed,
but for an entry appended when there is no memory: that one fails before it
looks at them. -/
structure HashMap.Dangling (map : HashMap K V) : Prop where
  find : ∀ key, hashmapFind map key = .error .dangling
  delete : ∀ key, hashmapDelete map key = .error .dangling
  forEachKeyEntry : ∀ key, hashmapForEachKeyEntry map key = .error .dangling
  insert : ∀ granted entry key value strategy,
    hashmapInsert granted entry map key value strategy =
      if strategy = .append ∧ granted = false then .ok (map, -1, none) else .error .dangling
  clear : hashmapClear map = .error .dangling
  free : hashmapFree map = .error .dangling

/-- A map whose buckets were freed: every call reads through the pointer to
them.  With the capacity 0 the calls that insert grow first, and growing frees
the buckets once more. -/
theorem HashMap.Dangling.of_freed (hbuckets : map.buckets = .freed) (hcap : map.cap = 0) :
    map.Dangling := by
  have hload : ∀ h, map.load (.bucket h) = .error .dangling := by
    intro h
    show (map.bucketsAt h >>= _) = _
    unfold HashTable.bucketsAt
    rw [hbuckets]
    rfl
  have hfind : ∀ key hash, hashmapFindEntry map key hash = .error .dangling := by
    intro key hash
    unfold hashmapFindEntry
    rw [hbuckets]
    dsimp only
    rw [hload]
    rfl
  have hfree : map.freeBuckets = .error .dangling := by
    unfold HashTable.freeBuckets
    rw [hbuckets]
  have hgrow : hashmapGrow true map = .error .dangling := by
    unfold hashmapGrow
    rw [if_pos rfl, hcap]
    dsimp only [hashmapGrowLoop]
    rw [Exec.ok_bind, hfree]
    rfl
  have hclear : hashmapClear map = .error .dangling := by
    unfold hashmapClear
    rw [hcap]
    dsimp only [hashmapClearLoop]
    rw [Exec.ok_bind]
    dsimp only
    rw [hfree]
    rfl
  refine ⟨fun key => ?_, fun key => ?_, fun key => ?_, fun granted entry key value strategy => ?_,
    hclear, ?_⟩
  · unfold hashmapFind
    rw [hfind]
    rfl
  · unfold hashmapDelete
    rw [hfind]
    rfl
  · unfold hashmapForEachKeyEntry
    rw [hbuckets]
    dsimp only
    rw [hload]
    rfl
  · have hneeds : hashmapNeedsToGrow map = true := decide_eq_true (.inl hcap)
    unfold hashmapInsert
    by_cases happend : strategy = .append
    · subst happend
      rw [if_neg (not_not.mpr rfl), Exec.ok_bind]
      dsimp only
      rw [if_neg nofun, if_pos hneeds]
      cases granted with
      | false => rfl
      | true =>
          rw [hgrow]
          rfl
    · rw [if_pos happend, hfind]
      exact (if_neg fun hno => happend hno.1).symm
  · unfold hashmapFree
    rw [hclear]
    rfl

/-- **A cleared map is a new one exactly if it had no buckets**; if it had, it
cannot be used, cleared or freed again.  This is after any run, under
`HashLaws` and with blocks for entries that overlap no other. -/
theorem hashmap_cleared (hlaws : HashLaws hashFn same)
    (hops : Calls.Each HashmapOp.run HashmapOp.Allowed ops (hashmapNew hashFn same)) :
    ∃ map cleared calls, Calls.run HashmapOp.run ops (hashmapNew hashFn same) =
        .ok (map, (hashmapReference same ops).2) ∧
      hashmapClear map = .ok (cleared, calls) ∧
      ((hashmapReference same ops).1.cap = 0 → cleared = hashmapNew hashFn same) ∧
      ((hashmapReference same ops).1.cap ≠ 0 → cleared.Dangling) := by
  obtain ⟨map, hrun, cs, h⟩ := hashmap_run hlaws hops
  obtain ⟨t, hclear, hnone, hbuckets⟩ := h.inv.clear
  refine ⟨map, _, _, hrun, hclear, fun hcap => ?_, fun hcap => ?_⟩
  · rw [h.cap] at hcap
    rw [if_pos hcap] at hbuckets
    have ht : t = ⟨.null, fun _ => none⟩ := by
      rw [← hbuckets, ← hnone]
    rw [ht, h.hashFn, h.equalFn]
    rfl
  · rw [h.cap] at hcap
    exact .of_freed (hbuckets.trans (if_neg hcap)) rfl

/-- A map with four entries, cleared after it has grown and used again.  The
lookup follows the pointer to the buckets, which are freed. -/
theorem hashmap_cleared_add : ∃ (map cleared : HashMap ℕ ℕ) (calls : List (FreeCall ℕ ℕ)),
    Calls.run HashmapOp.run fourInserted (hashmapNew id (· == ·)) =
      .ok (map, [.inserted 0 none, .inserted 0 none, .inserted 0 none, .inserted 0 none]) ∧
    hashmapClear map = .ok (cleared, calls) ∧ hashmapFind cleared 5 = .error .dangling := by
  obtain ⟨map, cleared, calls, hrun, hclear, -, hdangling⟩ :=
    hashmap_cleared (hashLaws_beq id) each_allowed_fourInserted
  exact ⟨map, cleared, calls, hrun, hclear, (hdangling (by decide)).find 5⟩

/-! ### Every state of a run

The invariant again, without the ghost chains by which it was carried through
the run. -/

/-- The buckets are as many as the capacity says, a power of two of at most
2²⁹, and no more than three quarters filled.  Every entry is in the chain of
its hash, in no other, and they are as many as the size says; every chain is
one of the buckets. -/
structure HashMap.WellFormed (map : HashMap K V) : Prop where
  capacity : map.cap = 0 ∧ map.buckets = .null ∨
    ∃ b bits, map.buckets = .block b ∧ b.size = 4 * map.cap ∧ map.cap = 2 ^ bits ∧ bits ≤ 29
  load : map.sz * 4 / 3 ≤ map.cap
  size : map.sz = (HashMap.live map.toHashTable).ncard
  chains : ∃ cs : ℕ → List (ℕ × K × V), Chains map.entries map.heads cs ∧
    ∀ i, ∀ e ∈ cs i, map.index e.2.1 = i ∧ i < map.cap

/-- **Every state of a run** is well formed, under `HashLaws` and with blocks
for entries that overlap no other, whatever the allocator refuses. -/
theorem hashmap_wellFormed (hlaws : HashLaws hashFn same)
    (hops : Calls.Each HashmapOp.run HashmapOp.Allowed ops (hashmapNew hashFn same)) :
    Calls.States HashmapOp.run HashMap.WellFormed ops (hashmapNew hashFn same) := by
  have hwell : ∀ (map : HashMap K V) c cs, HashMap.Holds map hashFn same cs c → map.WellFormed := by
    intro map c cs h
    refine ⟨?_, h.inv.load, h.inv.size, cs, h.inv.chains, fun i e he => ⟨h.inv.hashed i e he, ?_⟩⟩
    · cases h.inv.shape with
      | null hnull hcap _ => exact .inl ⟨hcap, hnull⟩
      | block b hb hsize hcap _ hmax => exact .inr ⟨b, map.capBits, hb, hsize, hcap, hmax⟩
    · by_contra hge
      rw [h.inv.nil_of_ge (not_lt.mp hge)] at he
      exact List.not_mem_nil he
  exact Calls.states_of_invariant (I := fun map => ∃ c cs, HashMap.Holds map hashFn same cs c)
    (fun op map map' out ⟨c, cs, h⟩ hop hrun => by
      obtain ⟨map₁, hrun₁, ⟨cs', h'⟩, -⟩ := hashmap_step h hlaws hop
      cases hrun₁.symm.trans hrun
      exact ⟨_, cs', h'⟩)
    (fun map ⟨c, cs, h⟩ => hwell map c cs h) ⟨_, _, .new hashFn same⟩ hops

/-- The states of a run that makes the map grow. -/
theorem hashmap_wellFormed_add :
    Calls.States HashmapOp.run HashMap.WellFormed fourInserted (hashmapNew id (· == ·)) :=
  hashmap_wellFormed (hashLaws_beq id) each_allowed_fourInserted

end Runs

end CourseOs
