import CourseOs.Ds.ListHeapFree

/-!
# Byte lists that are lists of bytes

As long as allocations succeed, any run of calls on any number of lists does
what the same calls do to lists of bytes, one under each pointer: a resize
truncates, a clone is a list of its own.  In every state each list is within
its capacity, and that within its block, and no call reaches past the capacity
(`u8a_refines`).

`Refines h t` is the relation: lists do not share arrays, and the list at each
pointer is sound and holds the bytes that `t` has there.  A call `Simulates`
its reference when its accesses are below the capacity, it returns what the
reference returns, and the relation holds afterwards.  Each call gets one
lemma of this kind, in three parts: what is accessed (the section on
accesses), what the routine does to a list of its own (the section on values),
and that it does so to the list in the heap (`CourseOs.Ds.ListHeapOps`).
-/

namespace CourseOs

open ListHeap

/-- A list in memory that holds the bytes of a pure one, or neither is there. -/
def Matches : Option U8ArrayList → Option (List UInt8) → Prop
  | none, none => True
  | some list, some xs => list.Sound ∧ list.contents = xs
  | _, _ => False

/-- Every list has an array of its own, or none, and holds the bytes under its
pointer. -/
structure ListHeap.Refines (h : ListHeap) (t : ℕ → Option (List UInt8)) : Prop where
  apart : h.Apart
  lists : ∀ p, Matches (h.view p) (t p)

namespace U8aOp

/-- The call on lists of bytes: `t` has the bytes under each pointer, and
nothing where there is no list. -/
def reference (op : U8aOp) (t : ℕ → Option (List UInt8)) :
    (ℕ → Option (List UInt8)) × U8aOutput :=
  let bytes p := (t p).getD []
  match op with
  | create head _ _ => (Function.update t (head.getD 0) (some []), .list (head.getD 0))
  | free p => (Function.update t p none, .done)
  | get p index => (t, .byte ((bytes p).getD index 0))
  | set p index data => (Function.update t p (some ((bytes p).set index data)), .done)
  | push _ p data => (Function.update t p (some (bytes p ++ [data])), .size ((bytes p).length + 1))
  | pushString _ p data =>
      (Function.update t p (some (bytes p ++ data)), .size ((bytes p).length + data.length))
  | pop _ p => (Function.update t p (some (bytes p).dropLast), .byte ((bytes p).getLastD 0))
  | resize _ p newSize => (Function.update t p (some ((bytes p).take newSize)), .done)
  | clone head _ p => (Function.update t (head.getD 0) (some (bytes p)), .list (head.getD 0))
  | pathFromString head _ _ str =>
      (Function.update t (head.getD 0) (some str), .list (head.getD 0))

/-- No access is past the capacity, in any array that the call touches. -/
def Inside (op : U8aOp) (h : ListHeap) : Prop := Logged.Within (· = 0) (op.run h)

/-- Allocations succeed, the list is there, indices are below its length, and
sizes are below 2^31. -/
def Allowed : U8aOp → ListHeap → Prop
  | create head mem _, _ => head.isSome ∧ mem.isSome
  | free p, h | pop _ p, h => (h.lists p).isSome
  | get p index, h | set p index _, h => ∃ l, h.lists p = some l ∧ index < l.length
  | push mem p _, h | resize mem p _, h => (h.lists p).isSome ∧ mem.isSome
  | pushString mem p data, h =>
      mem.isSome ∧ ∃ l, h.lists p = some l ∧ l.length + data.length < 2 ^ 31
  | clone head mem p, h => (h.lists p).isSome ∧ head.isSome ∧ mem.isSome
  | pathFromString head mem mem' str, _ =>
      head.isSome ∧ mem.isSome ∧ mem'.isSome ∧ str.length < 2 ^ 31

end U8aOp

variable {op : U8aOp} {h h' : ListHeap} {t : ℕ → Option (List UInt8)} {p q n i k : ℕ}
  {l : ListHeader} {list list' arr : U8ArrayList} {xs data : List UInt8} {x : UInt8}
  {kept : Prop} {b : Block UInt8} {mem : Option (Block UInt8)}

namespace ListHeap.Refines

theorem turns (hr : h.Refines t) (ht : Turns h h' p (some list) kept) (hsound : list.Sound)
    (hcontents : list.contents = xs) : h'.Refines (Function.update t p (some xs)) where
  apart := ht.apart
  lists q := by
    rw [ht.view]
    by_cases hqp : q = p
    · subst hqp
      rw [Function.update_self, Function.update_self]
      exact ⟨hsound, hcontents⟩
    · rw [Function.update_of_ne hqp, Function.update_of_ne hqp]
      exact hr.lists q

theorem free (hr : h.Refines t) (ht : Turns h h' p none kept) :
    h'.Refines (Function.update t p none) where
  apart := ht.apart
  lists q := by
    rw [ht.view]
    by_cases hqp : q = p
    · subst hqp
      rw [Function.update_self, Function.update_self]
      trivial
    · rw [Function.update_of_ne hqp, Function.update_of_ne hqp]
      exact hr.lists q

/-- The list at a pointer. -/
theorem bytes (hr : h.Refines t) (hl : h.lists p = some l) :
    ∃ xs, t p = some xs ∧ (seen h.arrays l).Sound ∧ (seen h.arrays l).contents = xs := by
  have hmatches := hr.lists p
  rw [view_of_lists hl] at hmatches
  cases hxs : t p with
  | none =>
      rw [hxs] at hmatches
      exact hmatches.elim
  | some xs =>
      rw [hxs] at hmatches
      exact ⟨xs, rfl, hmatches⟩

end ListHeap.Refines

/-! ### Accesses

The log of a call has, for each access to an array, how far it is past the
capacity of the list.  A call stays inside when all these distances are zero;
the capacity is the one the list has at the time, so that a store after a
resize is measured against the new one. -/

namespace ListHeap

theorem arrayAt_within (hi : i < l.capacity) : Logged.Within (· = 0) (h.arrayAt l i) :=
  Logged.Within.access (Nat.sub_eq_zero_of_le hi)

theorem get_within (hv : h.view p = some list) (hi : i < list.capacity) :
    Logged.Within (· = 0) (h.u8aGet p i) := by
  obtain ⟨l, hload, -, hcapacity, -⟩ := header_of_view hv
  refine Logged.Within.bind Logged.Within.quiet fun l' hl' => ?_
  cases hload.symm.trans hl'
  exact Logged.Within.bind (arrayAt_within (hcapacity ▸ hi)) fun _ _ => Logged.Within.pure

theorem set_within (hv : h.view p = some list) (hi : i < list.capacity) :
    Logged.Within (· = 0) (h.u8aSet p i x) := by
  obtain ⟨l, hload, -, hcapacity, -⟩ := header_of_view hv
  refine Logged.Within.bind Logged.Within.quiet fun l' hl' => ?_
  cases hload.symm.trans hl'
  exact Logged.Within.bind (arrayAt_within (hcapacity ▸ hi)) fun _ _ => Logged.Within.pure

theorem store_within (hv : h.view p = some list) (hlt : list.length < list.capacity) :
    Logged.Within (· = 0) (h.u8aStore p x) := by
  obtain ⟨l, hload, hlength, hcapacity, -⟩ := header_of_view hv
  refine Logged.Within.bind Logged.Within.quiet fun l' hl' => ?_
  cases hload.symm.trans hl'
  refine Logged.Within.bind (arrayAt_within ?_) fun _ _ => Logged.Within.pure
  rw [hlength, hcapacity]
  exact hlt

/-- The list after a store, where it returns: one byte longer, or as long as
before, with the same capacity. -/
theorem Apart.store_ok (hap : h.Apart) (hv : h.view p = some list)
    (hrun : (h.u8aStore p x).result = .ok h') :
    ∃ list', Turns h h' p (some list') True ∧ list'.length ≤ list.length + 1 ∧
      list'.capacity = list.capacity := by
  obtain ⟨list', hok, ht⟩ := (hap.store_follows hv x).of_ok hrun
  obtain ⟨b, b', -, -, -, rfl⟩ := U8ArrayList.store_ok hok
  exact ⟨_, ht, Nat.mod_le _ _, rfl⟩

theorem Apart.storeAll_within (hap : h.Apart) (hv : h.view p = some list)
    (hle : list.length + data.length ≤ list.capacity) :
    Logged.Within (· = 0) (u8aStoreAll p data h) := by
  induction data generalizing h list with
  | nil => exact Logged.Within.pure
  | cons x xs ih =>
      rw [List.length_cons] at hle
      refine Logged.Within.bind (store_within hv (by omega)) fun h' hrun => ?_
      obtain ⟨list', ht, hlength, hcapacity⟩ := hap.store_ok hv hrun
      exact ih ht.apart ht.view_self (by omega)

theorem Apart.copy_within (hap : h.Apart) (hp : h.view p = some arr) (hq : h.view q = some list)
    (hne : p ≠ q) (hi : i + k ≤ arr.capacity) (hle : list.length + k ≤ list.capacity) :
    Logged.Within (· = 0) (u8aCopy p q k i h) := by
  induction k generalizing h list i with
  | zero => exact Logged.Within.pure
  | succ k ih =>
      refine Logged.Within.bind (get_within hp (by omega)) fun x _ => ?_
      refine Logged.Within.bind (store_within hq (by omega)) fun h' hrun => ?_
      obtain ⟨list', ht, hlength, hcapacity⟩ := hap.store_ok hq hrun
      exact ih ht.apart ((ht.view_ne hne).trans hp) ht.view_self (by omega) (by omega)

theorem Apart.push_within {mem : ArrayAnswer} (hap : h.Apart) (hv : h.view p = some list)
    (hfresh : Fresh mem h) (hle : list.length ≤ list.capacity) :
    Logged.Within (· = 0) (h.u8aPush mem p x) := by
  obtain ⟨l, hload, hlength, hcapacity, -⟩ := header_of_view hv
  refine Logged.Within.bind Logged.Within.quiet fun l' hl' => ?_
  cases hload.symm.trans hl'
  rw [hlength, hcapacity]
  refine Logged.Within.ite (fun hgrow => ?_) fun hroom => store_within hv (by omega)
  refine Logged.Within.ite (fun _ => Logged.Within.fail) fun hwrap => ?_
  refine Logged.Within.bind Logged.Within.quiet fun h' hrun => ?_
  obtain ⟨list', hok, ht⟩ := (hap.recapacitate_follows hv hfresh _).of_ok hrun
  cases hok
  exact store_within ht.view_self (Nat.lt_of_le_of_lt hle (Nat.not_le.mp hwrap))

theorem Apart.pushString_within {mem : ArrayAnswer} (hap : h.Apart) (hv : h.view p = some list)
    (hfresh : Fresh mem h) (hlt : list.length + data.length < 2 ^ 32) :
    Logged.Within (· = 0) (h.u8aPushString mem p data) := by
  obtain ⟨l, hload, hlength, hcapacity, -⟩ := header_of_view hv
  refine Logged.Within.bind Logged.Within.quiet fun l' hl' => ?_
  cases hload.symm.trans hl'
  refine Logged.Within.bind Logged.Within.quiet fun h' hrun => ?_
  rw [hlength, Nat.mod_eq_of_lt hlt] at hrun
  obtain ⟨list', hok, ht⟩ := (hap.resize_follows hv hfresh _).of_ok hrun
  cases hok
  refine ht.apart.storeAll_within ht.view_self ?_
  show (if list.length + data.length < list.length then _ else _) + _ ≤ _
  rw [if_neg (by omega)]
  exact Nat.le_refl _

theorem pop_within {mem : ArrayAnswer} (hv : h.view p = some list)
    (hle : list.length ≤ list.capacity) : Logged.Within (· = 0) (h.u8aPop mem p) := by
  obtain ⟨l, hload, hlength, hcapacity, -⟩ := header_of_view hv
  refine Logged.Within.bind Logged.Within.quiet fun l' hl' => ?_
  cases hload.symm.trans hl'
  refine Logged.Within.ite (fun _ => Logged.Within.pure) fun hpos => ?_
  refine Logged.Within.bind (arrayAt_within (by omega)) fun b _ => ?_
  refine Logged.Within.ite (fun _ => ?_) fun _ => Logged.Within.pure
  exact Logged.Within.bind Logged.Within.quiet fun _ _ => Logged.Within.pure

end ListHeap

/-! ### Values

What the calls do to the contents, when memory is granted.  A list of bytes is
all a client sees; the block behind the length, and where the block is, are
not part of it. -/

namespace U8ArrayList

theorem sound_create (hmem : Grants mem n) (hsome : mem.isSome) : (u8aCreate mem n).Sound := by
  obtain ⟨b, rfl⟩ := Option.isSome_iff_exists.mp hsome
  exact ⟨Nat.zero_le _, (hmem b rfl).1, (hmem b rfl).2⟩

/-- A list with room for the bytes stores them. -/
theorem storeAll_returns (harray : list.array = some b) (hsize : b.size < 2 ^ 31)
    (hle : list.length + data.length ≤ b.size) : ∃ list', u8aStoreAll list data = .ok list' := by
  induction data generalizing list b with
  | nil => exact ⟨list, rfl⟩
  | cons x xs ih =>
      rw [List.length_cons] at hle
      obtain ⟨b', hstore, hsize', -⟩ := store_eq (x := x) harray (by omega) hsize
      unfold u8aStoreAll
      rw [hstore]
      refine ih (b := b') rfl (hsize'.trans_lt hsize) ?_
      show list.length + 1 + xs.length ≤ b'.size
      omega

/-- **`u8a_resize`** truncates. -/
theorem Sound.resize (h : list.Sound) (hmem : Grants mem n) (hsome : mem.isSome) :
    (u8aResize mem list n).Sound ∧ (u8aResize mem list n).contents = list.contents.take n := by
  have hfit := h.fit.resize hmem
  have hlength : (u8aResize mem list n).length = min n list.length := by
    show (if n < list.length then n else list.length) = _
    rcases Nat.lt_or_ge n list.length with hlt | hge
    · rw [if_pos hlt, Nat.min_eq_left hlt.le]
    · rw [if_neg hge.not_gt, Nat.min_eq_right hge]
  have hlt := room_lt_of_block fun b hb => (hfit.block b hb).2
  by_cases hn : n = 0
  · have hzero : (u8aResize mem list n).length = 0 := by
      rw [hlength, hn]
      exact Nat.zero_min _
    refine ⟨⟨hfit.length_le, hn.le.trans (Nat.zero_le _), hlt⟩, ?_⟩
    rw [contents_of_length hzero, hn]
    rfl
  · rcases h.krealloc hmem hn with ⟨b, hb, hle, -, hcells⟩ | ⟨-, hnone, -⟩
    · have harray : (u8aResize mem list n).array = some b := hb
      refine ⟨⟨hfit.length_le, hle.trans_eq (room_of_some harray).symm, hlt⟩, ?_⟩
      rw [contents_of_some harray, hlength, ← hcells, ← List.map_take, List.take_range]
    · rw [hnone] at hsome
      cases hsome

/-- **`u8a_push_string`** returns when there is memory.  What it has done then
is `Sound.pushString`. -/
theorem Sound.pushString_returns (h : list.Sound)
    (hmem : Grants mem ((list.length + data.length) % 2 ^ 32)) (hsome : mem.isSome)
    (hlt : list.length + data.length < 2 ^ 31) :
    ∃ list', u8aPushString mem list data = .ok list' := by
  have hmod : (list.length + data.length) % 2 ^ 32 = list.length + data.length :=
    Nat.mod_eq_of_lt (by omega)
  unfold u8aPushString
  rw [hmod] at hmem ⊢
  by_cases hzero : list.length + data.length = 0
  · rw [List.eq_nil_of_length_eq_zero (Nat.add_eq_zero_iff.mp hzero).2]
    exact ⟨_, rfl⟩
  · rcases h.krealloc hmem hzero with ⟨b, hb, hle, hsize, -⟩ | ⟨-, hnone, -⟩
    · have harray : (u8aResize mem list (list.length + data.length)).array = some b := hb
      refine storeAll_returns harray hsize ?_
      show (if _ then _ else _) + _ ≤ _
      rw [if_neg (by omega)]
      exact hle
    · rw [hnone] at hsome
      cases hsome

/-- A byte of the list. -/
theorem Sound.byteAt (h : list.Sound) (hi : i < list.length) :
    ∃ b, list.array = some b ∧ ListHeap.byteAt list i = .ok b ∧
      b.cell i = list.contents.getD i 0 := by
  obtain ⟨b, harray⟩ := h.exists_block (Nat.ne_zero_of_lt hi)
  refine ⟨b, harray, byteAt_some harray (hi.trans_le (h.length_le_size harray)), ?_⟩
  rw [contents_of_some harray, List.getD_eq_getElem _ _ (by
    rw [List.length_map, List.length_range]; exact hi), List.getElem_map, List.getElem_range]

/-- A byte written. -/
theorem Sound.set (h : list.Sound) (harray : list.array = some b) (i : ℕ) (x : UInt8) :
    U8ArrayList.Sound { list with array := some { b with cell := Function.update b.cell i x } } ∧
      U8ArrayList.contents
          { list with array := some { b with cell := Function.update b.cell i x } } =
        list.contents.set i x := by
  refine ⟨⟨h.length_le, ?_, ?_⟩, ?_⟩
  · show list.capacity ≤ b.size
    exact h.capacity_le.trans_eq (room_of_some harray)
  · show b.size < 2 ^ 31
    exact h.size_lt harray
  · rw [contents_of_some harray]
    show (List.range list.length).map (Function.update b.cell i x) = _
    apply List.ext_getElem
    · rw [List.length_set, List.length_map, List.length_map]
    · intro j hj hj'
      rw [List.getElem_map, List.getElem_range, List.getElem_set, List.getElem_map,
        List.getElem_range]
      by_cases hij : i = j
      · rw [if_pos hij, hij, Function.update_self]
      · rw [if_neg hij, Function.update_of_ne (Ne.symm hij)]

end U8ArrayList

/-- The loop of a clone stores the bytes of the list, from index `i` on. -/
theorem copyAll_eq (harray : arr.array = some b) (hle : i + k ≤ b.size) :
    copyAll arr k i list = u8aStoreAll list ((List.range' i k).map b.cell) := by
  induction k generalizing list i with
  | zero => rfl
  | succ k ih =>
      unfold copyAll
      rw [byteAt_some harray (by omega), Exec.ok_bind]
      show u8aStore list (b.cell i) >>= _ = u8aStore list (b.cell i) >>= _
      congr 1
      funext list'
      exact ih (by omega)

/-- A clone of a list is one of its bytes, and returns when there is memory.
The stores fill the new list up to its capacity and not beyond. -/
theorem U8ArrayList.Sound.copyAll (h : arr.Sound) (hmem : Grants mem arr.length)
    (hsome : mem.isSome) :
    ∃ list', ListHeap.copyAll arr arr.length 0 (u8aCreate mem arr.length) = .ok list' ∧
      list'.Sound ∧ list'.contents = arr.contents := by
  have hclone :
      ListHeap.copyAll arr arr.length 0 (u8aCreate mem arr.length) = u8aClone mem arr := by
    unfold u8aClone
    by_cases hzero : arr.length = 0
    · rw [contents_of_length hzero, hzero]
      rfl
    · obtain ⟨b, harray⟩ := h.exists_block hzero
      rw [copyAll_eq harray (by rw [Nat.zero_add]; exact h.length_le_size harray),
        contents_of_some harray, List.range_eq_range']
  obtain ⟨b, rfl⟩ := Option.isSome_iff_exists.mp hsome
  obtain ⟨hle, hlt⟩ := hmem b rfl
  obtain ⟨list', hrun⟩ : ∃ list', u8aClone (some b) arr = .ok list' := by
    refine storeAll_returns rfl hlt ?_
    rw [h.length_contents]
    show 0 + _ ≤ _
    rw [Nat.zero_add]
    exact hle
  rw [hclone]
  exact ⟨list', hrun, h.clone hmem hrun⟩

/-! ### Each call

The two halves put together for each call: the view of the list follows the
pure list, the answer is the same, and no access is past a capacity. -/

namespace U8aOp

/-- A call does to the heap what it does to lists of bytes, and stays within
the capacities. -/
def Simulates (op : U8aOp) (h : ListHeap) (t : ℕ → Option (List UInt8)) : Prop :=
  op.Inside h ∧ ∃ h', op.result h = .ok (h', (op.reference t).2) ∧ h'.Refines (op.reference t).1

variable {head : Option ℕ} {mem mem' : ArrayAnswer}

theorem isSome_snd (hsome : mem.isSome) : (mem.map Prod.snd).isSome := by
  rw [Option.isSome_map]
  exact hsome

theorem create_simulates (hr : h.Refines t) (hop : (create head mem n).Answered h)
    (hallowed : (create head mem n).Allowed h) : (create head mem n).Simulates h t := by
  obtain ⟨hnew, hfresh, hgrants⟩ := hop
  obtain ⟨hhead, hsome⟩ := hallowed
  obtain ⟨p, rfl⟩ := Option.isSome_iff_exists.mp hhead
  obtain ⟨h', hcreate, ht⟩ := hr.apart.create_turns (hnew p rfl) hfresh n
  refine ⟨Logged.Within.bind Logged.Within.quiet fun _ _ => Logged.Within.pure, h', ?_,
    hr.turns ht (U8ArrayList.sound_create hgrants (isSome_snd hsome))
      (U8ArrayList.contents_of_length rfl)⟩
  show ListHeap.u8aCreate (some p) mem h n >>= _ = _
  rw [hcreate]
  rfl

theorem free_simulates (hr : h.Refines t) (hl : h.lists p = some l) : (free p).Simulates h t := by
  obtain ⟨h', hfree, ht⟩ := hr.apart.free_turns (view_of_lists hl)
  refine ⟨Logged.Within.bind Logged.Within.quiet fun _ _ => Logged.Within.pure, h', ?_,
    hr.free ht⟩
  show h.u8aFree p >>= _ = _
  rw [hfree]
  rfl

theorem get_simulates (hr : h.Refines t) (hl : h.lists p = some l) (hi : i < l.length) :
    (get p i).Simulates h t := by
  obtain ⟨xs, hxs, hsound, hcontents⟩ := hr.bytes hl
  obtain ⟨b, -, hat, hcell⟩ := hsound.byteAt hi
  have hwithin := get_within (view_of_lists hl) (Nat.lt_of_lt_of_le hi hsound.length_le)
  refine ⟨Logged.Within.bind hwithin fun _ _ => Logged.Within.pure, h, ?_, hr⟩
  show (h.u8aGet p i).result >>= _ = .ok (h, U8aOutput.byte (((t p).getD []).getD i 0))
  rw [hr.apart.get_eq (view_of_lists hl), hat, hxs, Exec.ok_bind, hcell, hcontents]
  rfl

theorem set_simulates (hr : h.Refines t) (hl : h.lists p = some l) (hi : i < l.length)
    (x : UInt8) : (set p i x).Simulates h t := by
  obtain ⟨xs, hxs, hsound, hcontents⟩ := hr.bytes hl
  obtain ⟨b, harray, hat, -⟩ := hsound.byteAt hi
  have hwithin := set_within (x := x) (view_of_lists hl)
    (Nat.lt_of_lt_of_le hi hsound.length_le)
  have hfollows := hr.apart.set_follows (view_of_lists hl) i x
  rw [hat] at hfollows
  obtain ⟨h', hset, ht⟩ := hfollows
  obtain ⟨hsound', hcontents'⟩ := hsound.set harray i x
  refine ⟨Logged.Within.bind hwithin fun _ _ => Logged.Within.pure, h', ?_, ?_⟩
  · show (h.u8aSet p i x).result >>= _ = _
    rw [hset]
    rfl
  · show h'.Refines (Function.update t p (some (((t p).getD []).set i x)))
    rw [hxs]
    exact hr.turns ht hsound' (hcontents'.trans (congrArg (fun xs => xs.set i x) hcontents))

/-- What a push returns. -/
theorem load_length (ht : Turns h h' p (some list) kept) (hsound : list.Sound)
    (hcontents : list.contents = xs) : ∃ l, h'.load p = .ok l ∧ l.length = xs.length := by
  obtain ⟨l, hload, hlength, -⟩ := header_of_view ht.view_self
  exact ⟨l, hload, by rw [hlength, ← hsound.length_contents, hcontents]⟩

/-- A push on the heap is the push of the list alone, which the byte list's
own theorem is about, and the other lists do not notice. -/
theorem push_simulates (hr : h.Refines t) (hl : h.lists p = some l)
    (hop : (push mem p x).Answered h) (hsome : mem.isSome) : (push mem p x).Simulates h t := by
  obtain ⟨hfresh, hgrants⟩ := hop l hl
  obtain ⟨xs, hxs, hsound, hcontents⟩ := hr.bytes hl
  have hv := view_of_lists hl
  have hwithin := hr.apart.push_within (x := x) hv hfresh hsound.length_le
  have hgrown : U8ArrayList.pushRequest l.capacity = U8ArrayList.grown l.capacity := by
    have hcap : l.capacity < 2 ^ 31 := hsound.capacity_le.trans_lt hsound.room_lt
    unfold U8ArrayList.pushRequest U8ArrayList.grown
    rw [Nat.mod_eq_of_lt (by omega), Nat.mod_eq_of_lt (by omega)]
  have hgrants' : Grants (mem.map Prod.snd) (U8ArrayList.grown l.capacity) := hgrown ▸ hgrants
  rcases hsound.push hgrants' x with ⟨list', hok, hsound', hcontents'⟩ | ⟨-, hnone⟩
  · obtain ⟨h', hpush, ht⟩ := (hr.apart.push_follows hv hfresh x).returns hok
    rw [hcontents] at hcontents'
    obtain ⟨l', hload, hlength⟩ := load_length ht hsound' hcontents'
    refine ⟨Logged.Within.bind hwithin fun _ _ => Logged.Within.bind Logged.Within.quiet
      fun _ _ => Logged.Within.pure, h', ?_, ?_⟩
    · show (h.u8aPush mem p x).result >>= _ =
        .ok (h', U8aOutput.size (((t p).getD []).length + 1))
      rw [hpush, Exec.ok_bind]
      show h'.load p >>= _ = _
      rw [hload, hxs, Exec.ok_bind]
      show Except.ok (h', U8aOutput.size l'.length) = _
      rw [hlength, List.length_append]
      rfl
    · show h'.Refines (Function.update t p (some ((t p).getD [] ++ [x])))
      rw [hxs]
      exact hr.turns ht hsound' hcontents'
  · have hsome' := isSome_snd hsome
    rw [hnone] at hsome'
    cases hsome'

/-- A string pushed to a list with memory for it.  No access is past the
capacity, and the old array is lost only if it would have been moved without a
block. -/
theorem pushString_spec (hap : h.Apart) (hv : h.view p = some list) (hsound : list.Sound)
    (hmem : Answers mem h ((list.length + data.length) % 2 ^ 32)) (hsome : mem.isSome)
    (hlt : list.length + data.length < 2 ^ 31) :
    Logged.Within (· = 0) (h.u8aPushString mem p data) ∧
      ∃ h' list', (h.u8aPushString mem p data).result = .ok h' ∧
        Turns h h' p (some list')
          (¬Loses mem list ((list.length + data.length) % 2 ^ 32)) ∧
        list'.Sound ∧ list'.contents = list.contents ++ data := by
  obtain ⟨hfresh, hgrants⟩ := hmem
  obtain ⟨list', hok⟩ := hsound.pushString_returns hgrants (isSome_snd hsome) hlt
  obtain ⟨h', hpush, ht⟩ := (hap.pushString_follows hv hfresh data).returns hok
  exact ⟨hap.pushString_within hv hfresh (by omega), h', list', hpush, ht,
    hsound.pushString hgrants hok⟩

theorem pushString_simulates (hr : h.Refines t) (hl : h.lists p = some l)
    (hop : (pushString mem p data).Answered h) (hsome : mem.isSome)
    (hlt : l.length + data.length < 2 ^ 31) : (pushString mem p data).Simulates h t := by
  obtain ⟨xs, hxs, hsound, hcontents⟩ := hr.bytes hl
  obtain ⟨hwithin, h', list', hpush, ht, hsound', hcontents'⟩ :=
    pushString_spec hr.apart (view_of_lists hl) hsound (hop l hl) hsome hlt
  rw [hcontents] at hcontents'
  obtain ⟨l', hload, hlength⟩ := load_length ht hsound' hcontents'
  refine ⟨Logged.Within.bind hwithin fun _ _ => Logged.Within.bind Logged.Within.quiet
    fun _ _ => Logged.Within.pure, h', ?_, ?_⟩
  · show (h.u8aPushString mem p data).result >>= _ =
      .ok (h', U8aOutput.size (((t p).getD []).length + data.length))
    rw [hpush, Exec.ok_bind]
    show h'.load p >>= _ = _
    rw [hload, hxs, Exec.ok_bind]
    show Except.ok (h', U8aOutput.size l'.length) = _
    rw [hlength, List.length_append]
    rfl
  · show h'.Refines (Function.update t p (some ((t p).getD [] ++ data)))
    rw [hxs]
    exact hr.turns ht hsound' hcontents'

/-- A pop returns the last byte, or 0 of an empty list, and leaves the others. -/
theorem pop_simulates (hr : h.Refines t) (hl : h.lists p = some l)
    (hop : (pop mem p).Answered h) : (pop mem p).Simulates h t := by
  obtain ⟨hfresh, -⟩ := hop l hl
  obtain ⟨xs, hxs, hsound, hcontents⟩ := hr.bytes hl
  have hv := view_of_lists hl
  have hwithin : Logged.Within (· = 0) (h.u8aPop mem p) := pop_within hv hsound.length_le
  obtain ⟨h', x, hpop, href, hx⟩ : ∃ h' x, (h.u8aPop mem p).result = .ok (h', x) ∧
      h'.Refines (Function.update t p (some xs.dropLast)) ∧ x = xs.getLastD 0 := by
    by_cases hzero : l.length = 0
    · have hnil : xs = [] := hcontents.symm.trans (U8ArrayList.contents_of_length hzero)
      subst hnil
      refine ⟨h, 0, by rw [pop_empty hv hzero]; rfl, ?_, rfl⟩
      have hsame : Function.update t p (some ([] : List UInt8).dropLast) = t := by
        rw [List.dropLast_nil, ← hxs, Function.update_eq_self]
      rw [hsame]
      exact hr
    · obtain ⟨b, harray⟩ := hsound.exists_block hzero
      have hroom := U8ArrayList.room_of_some harray
      have hcap := hsound.capacity_le.trans_eq hroom
      obtain ⟨h', capacity, hpop, ht, hle, hle'⟩ :=
        hr.apart.pop_some hv hfresh hzero harray hsound.length_le hcap
      obtain ⟨k, hk⟩ := Nat.exists_eq_add_one_of_ne_zero (show l.length ≠ 0 from hzero)
      have hlast : xs = (List.range k).map b.cell ++ [b.cell k] := by
        rw [← hcontents, U8ArrayList.contents_of_some harray]
        show (List.range l.length).map b.cell = _
        rw [hk, List.range_succ, List.map_append]
        rfl
      refine ⟨h', _, hpop, hr.turns ht ⟨hle, hle'.trans hcap, hsound.size_lt harray⟩ ?_, ?_⟩
      · show (List.range (l.length - 1)).map b.cell = _
        rw [hlast, List.dropLast_concat, hk, Nat.add_sub_cancel]
      · show b.cell (l.length - 1) = _
        rw [hlast, List.getLastD_concat, hk, Nat.add_sub_cancel]
  refine ⟨Logged.Within.bind hwithin fun _ _ => Logged.Within.pure, h', ?_, ?_⟩
  · show (h.u8aPop mem p).result >>= _ = .ok (h', U8aOutput.byte (((t p).getD []).getLastD 0))
    rw [hpop, hxs, hx]
    rfl
  · show h'.Refines (Function.update t p (some ((t p).getD []).dropLast))
    rw [hxs]
    exact href

theorem resize_simulates (hr : h.Refines t) (hl : h.lists p = some l)
    (hop : (resize mem p n).Answered h) (hsome : mem.isSome) : (resize mem p n).Simulates h t := by
  obtain ⟨hfresh, hgrants⟩ := hop l hl
  obtain ⟨xs, hxs, hsound, hcontents⟩ := hr.bytes hl
  obtain ⟨h', hresize, ht⟩ := hr.apart.resize_follows (view_of_lists hl) hfresh n
  obtain ⟨hsound', hcontents'⟩ := hsound.resize hgrants (isSome_snd hsome)
  refine ⟨Logged.Within.bind Logged.Within.quiet fun _ _ => Logged.Within.pure, h', ?_, ?_⟩
  · show h.u8aResize mem p n >>= _ = _
    rw [hresize]
    rfl
  · show h'.Refines (Function.update t p (some (((t p).getD []).take n)))
    rw [hxs]
    exact hr.turns ht hsound' (hcontents'.trans (congrArg (List.take n) hcontents))

/-- A clone is a new list, in a block of its own, and the copy reads the old
list without changing it. -/
theorem clone_simulates (hr : h.Refines t) (hl : h.lists p = some l)
    (hop : (clone head mem p).Answered h) (hhead : head.isSome) (hsome : mem.isSome) :
    (clone head mem p).Simulates h t := by
  obtain ⟨hnew, hmem⟩ := hop
  obtain ⟨hfresh, hgrants⟩ := hmem l hl
  obtain ⟨xs, hxs, hsound, hcontents⟩ := hr.bytes hl
  obtain ⟨q, rfl⟩ := Option.isSome_iff_exists.mp hhead
  have hv := view_of_lists hl
  obtain ⟨r, hrun, hfollows⟩ := hr.apart.clone_follows hv (hnew q rfl) hfresh
  obtain ⟨list', hok, hsound', hcontents'⟩ := hsound.copyAll hgrants (isSome_snd hsome)
  obtain ⟨h', hcopy, ht⟩ := hfollows.returns hok
  have hwithin : Logged.Within (· = 0) (h.u8aClone (some q) mem p) := by
    refine Logged.Within.bind Logged.Within.quiet fun l' hl' => ?_
    cases (load_some hl).symm.trans hl'
    refine Logged.Within.bind Logged.Within.quiet fun r hcreate => ?_
    obtain ⟨h₁, hcreate', ht₁⟩ := hr.apart.create_turns (hnew q rfl) hfresh l.length
    cases hcreate'.symm.trans hcreate
    have hne : p ≠ q := by
      rintro rfl
      cases hl.symm.trans (hnew p rfl)
    refine Logged.Within.bind ?_ fun _ _ => Logged.Within.pure
    refine ht₁.apart.copy_within ((ht₁.view_ne hne).trans hv) ht₁.view_self hne ?_ ?_
    · rw [Nat.zero_add]
      exact hsound.length_le
    · exact Nat.le_of_eq (Nat.zero_add _)
  refine ⟨Logged.Within.bind hwithin fun _ _ => Logged.Within.pure, h', ?_, ?_⟩
  · show (h.u8aClone (some q) mem p).result >>= _ = _
    rw [hrun, hcopy]
    rfl
  · show h'.Refines (Function.update t q (some ((t p).getD [])))
    rw [hxs]
    exact hr.turns ht hsound' (hcontents'.trans hcontents)

theorem pathFromString_simulates (hr : h.Refines t)
    (hop : (pathFromString head mem mem' data).Answered h)
    (hallowed : (pathFromString head mem mem' data).Allowed h) :
    (pathFromString head mem mem' data).Simulates h t := by
  obtain ⟨hnew, ⟨hfresh, hgrants⟩, hmem'⟩ := hop
  obtain ⟨hhead, hsome, hsome', hlt⟩ := hallowed
  obtain ⟨p, rfl⟩ := Option.isSome_iff_exists.mp hhead
  obtain ⟨h₁, hcreate, ht⟩ := hr.apart.create_turns (hnew p rfl) hfresh 1
  have hlength : (u8aCreate (mem.map Prod.snd) 1).length + data.length = data.length :=
    Nat.zero_add _
  obtain ⟨hwithin, h', list', hpush, ht', hsound', hcontents'⟩ :=
    pushString_spec ht.apart ht.view_self (U8ArrayList.sound_create hgrants (isSome_snd hsome))
      (by rw [hlength]; exact hmem' h₁ p hcreate) hsome' (hlength.trans_lt hlt)
  refine ⟨Logged.Within.bind (Logged.Within.bind Logged.Within.quiet fun r hrun => ?_)
    fun _ _ => Logged.Within.pure, h', ?_, hr.turns (ht.trans ht') hsound' ?_⟩
  · cases hcreate.symm.trans hrun
    exact Logged.Within.bind hwithin fun _ _ => Logged.Within.pure
  · show (ListHeap.pathFromString (some p) mem mem' h data).result >>= _ = _
    unfold ListHeap.pathFromString
    rw [Logged.result_bind, Logged.result_quiet, hcreate, Exec.ok_bind, Logged.result_bind, hpush]
    rfl
  · rw [hcontents', U8ArrayList.contents_of_length rfl]
    rfl

/-- **A call** does what it does to lists of bytes, and stays within the
capacities.  There is one case for each call, and its lemma above. -/
theorem simulates (hr : h.Refines t) (hop : op.Answered h) (hallowed : op.Allowed h) :
    op.Simulates h t := by
  cases op with
  | create head mem n => exact create_simulates hr hop hallowed
  | free p =>
      obtain ⟨l, hl⟩ := Option.isSome_iff_exists.mp hallowed
      exact free_simulates hr hl
  | get p index =>
      obtain ⟨l, hl, hi⟩ := hallowed
      exact get_simulates hr hl hi
  | set p index data =>
      obtain ⟨l, hl, hi⟩ := hallowed
      exact set_simulates hr hl hi data
  | push mem p data =>
      obtain ⟨l, hl⟩ := Option.isSome_iff_exists.mp hallowed.1
      exact push_simulates hr hl hop hallowed.2
  | pushString mem p data =>
      obtain ⟨hsome, l, hl, hlt⟩ := hallowed
      exact pushString_simulates hr hl hop hsome hlt
  | pop mem p =>
      obtain ⟨l, hl⟩ := Option.isSome_iff_exists.mp hallowed
      exact pop_simulates hr hl hop
  | resize mem p newSize =>
      obtain ⟨l, hl⟩ := Option.isSome_iff_exists.mp hallowed.1
      exact resize_simulates hr hl hop hallowed.2
  | clone head mem p =>
      obtain ⟨l, hl⟩ := Option.isSome_iff_exists.mp hallowed.1
      exact clone_simulates hr hl hop hallowed.2.1 hallowed.2.2
  | pathFromString head mem mem' str => exact pathFromString_simulates hr hop hallowed

end U8aOp

/-! ### Runs

The relation is a simulation, and holds in every state of every run. -/

/-- **Byte lists are lists of bytes.**  In any run of calls on any number of
lists, from a heap without lists, with allocations that succeed, indices below
the lengths, and sizes below 2^31: every call returns what it returns on lists
of bytes; in every state each list holds the bytes that are under its pointer,
has an array of its own, is within its capacity, and that within its block;
and no call reaches past a capacity. -/
theorem u8a_refines (ops : List U8aOp)
    (hops : Calls.Each U8aOp.result (fun op h => op.Answered h ∧ op.Allowed h) ops
      ListHeap.empty) :
    Calls.Faithful U8aOp.result U8aOp.reference ListHeap.Refines U8aOp.Inside ops ListHeap.empty
      (fun _ => none) := by
  refine Calls.faithful (fun op h t hr hop => op.simulates hr hop.1 hop.2) ?_ hops
  exact ⟨sane_empty.apart, fun _ => trivial⟩

/-- The run theorem, of a list that is cloned and then written.  The clone
does not see the write. -/
theorem u8a_refines_clone :
    Calls.Faithful U8aOp.result U8aOp.reference ListHeap.Refines U8aOp.Inside
      [.create (some 8) (some (16, ⟨4, fun _ => 0⟩)) 4, .push (some (32, ⟨8, fun _ => 0⟩)) 8 7,
        .clone (some 24) (some (40, ⟨1, fun _ => 0⟩)) 8, .set 8 0 9, .get 24 0]
      ListHeap.empty (fun _ => none) := by
  refine u8a_refines _ ⟨⟨⟨fun _ _ => rfl, ?_, ?_⟩, rfl, rfl⟩, ?_⟩
  · rintro a b ⟨⟩
    exact ⟨by decide, rfl⟩
  · rintro b ⟨⟩
    exact ⟨by decide, by decide⟩
  rintro h₁ out ⟨⟩
  refine ⟨⟨?_, rfl, rfl⟩, ?_⟩
  · rintro l ⟨⟩
    refine ⟨?_, ?_⟩
    · rintro a b ⟨⟩
      exact ⟨by decide, rfl⟩
    · rintro b ⟨⟩
      exact ⟨by decide, by decide⟩
  rintro h₂ out ⟨⟩
  refine ⟨⟨⟨?_, ?_⟩, rfl, rfl, rfl⟩, ?_⟩
  · rintro q ⟨⟩
    rfl
  · rintro l ⟨⟩
    refine ⟨?_, ?_⟩
    · rintro a b ⟨⟩
      exact ⟨by decide, rfl⟩
    · rintro b ⟨⟩
      exact ⟨by decide, by decide⟩
  rintro h₃ out ⟨⟩
  refine ⟨⟨trivial, _, rfl, by decide⟩, ?_⟩
  rintro h₄ out ⟨⟩
  exact ⟨⟨trivial, _, rfl, by decide⟩, fun _ _ _ => trivial⟩

end CourseOs
