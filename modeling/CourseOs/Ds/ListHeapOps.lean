import CourseOs.Ds.ListHeap
import CourseOs.Lib.Calls

/-!
# What the routines on byte lists do to the heap

Each routine of `CourseOs.Ds.ListHeap` does to its list what the routine on a
list of its own does, and leaves the others alone.  There is one lemma for
each, an instance of `Follows` or of `Turns`; a routine that is two routines
in a row is put together by `Follows.bind`.

No array is lost but by a resize that finds no memory, and by a `u8a_free` of
a list without a capacity that has an array all the same.  A push that finds
none loses the array too, but then stores through the null pointer, so that
nothing comes after it.

The paths of the file system are byte lists: `path_from_string` is a creation
and a string pushed, and `path_clone` and `path_free` are `u8a_clone` and
`u8a_free`.  `U8aOp` has all the calls.
-/

namespace CourseOs

namespace ListHeap

variable {h h' h'' : ListHeap} {p q a i n k : ℕ} {l : ListHeader} {b : Block UInt8}
  {list list' arr : U8ArrayList} {mem : ArrayAnswer} {kept kept' : Prop} {x : UInt8}
  {r : Exec ListHeap} {r' : Exec U8ArrayList}

/-- **A push** is one to the list.  The array lost by a push that is refused
does not count, because the call does not return. -/
theorem Apart.push_follows (hap : h.Apart) (hv : h.view p = some list) (hfresh : Fresh mem h)
    (x : UInt8) :
    Follows h p True (h.u8aPush mem p x).result (CourseOs.u8aPush (mem.map Prod.snd) list x) := by
  obtain ⟨l, hload, hlength, hcapacity, -⟩ := header_of_view hv
  unfold u8aPush CourseOs.u8aPush
  rw [Logged.result_bind, Logged.result_quiet, hload, Exec.ok_bind, Logged.result_ite, hlength,
    hcapacity]
  by_cases hgrow : list.capacity = 0 ∨ list.capacity - 1 ≤ list.length
  · rw [if_pos hgrow, if_pos hgrow]
    dsimp only
    rw [Logged.result_ite]
    by_cases hwrap : max ((list.capacity + list.capacity / 4) % 2 ^ 32)
        ((list.capacity + 2) % 2 ^ 32) ≤ list.capacity
    · rw [if_pos hwrap, if_pos hwrap]
      rfl
    · rw [if_neg hwrap, if_neg hwrap, Logged.result_bind, Logged.result_quiet]
      refine Follows.congr ((hap.recapacitate_follows hv hfresh _).andThen fun h' _ ht =>
        ht.apart.store_follows ht.view_self x) fun list' hok =>
        iff_of_true (fun hloses => ?_) trivial
      -- a list that has lost its array takes no byte
      rw [hloses.krealloc_eq] at hok
      cases hok
  · rw [if_neg hgrow, if_neg hgrow]
    exact hap.store_follows hv x

/-- **A resize** is one of the list.  The old array is lost if `krealloc` has
to move it and gets no block. -/
theorem Apart.resize_follows (hap : h.Apart) (hv : h.view p = some list) (hfresh : Fresh mem h)
    (n : ℕ) :
    Follows h p (¬Loses mem list n) (h.u8aResize mem p n)
      (.ok (CourseOs.u8aResize (mem.map Prod.snd) list n)) := by
  refine (hap.recapacitate_follows hv hfresh n).andThen fun h' _ ht => ?_
  obtain ⟨l, hl, hseen⟩ := view_eq_some.mp ht.view_self
  have hresized : CourseOs.u8aResize (mem.map Prod.snd) list n = { seen h'.arrays l with
      length := if n < (seen h'.arrays l).length then n else (seen h'.arrays l).length } := by
    rw [hseen]
    rfl
  rw [load_some hl, hresized]
  exact ⟨_, rfl, ht.apart.keep hl _ l.capacity⟩

/-- **A string pushed** is one pushed to the list.  The resize in front of the
stores is the only part that may lose the array. -/
theorem Apart.pushString_follows (hap : h.Apart) (hv : h.view p = some list)
    (hfresh : Fresh mem h) (data : List UInt8) :
    Follows h p (¬Loses mem list ((list.length + data.length) % 2 ^ 32))
      (h.u8aPushString mem p data).result
      (CourseOs.u8aPushString (mem.map Prod.snd) list data) := by
  obtain ⟨l, hl, rfl⟩ := view_eq_some.mp hv
  unfold u8aPushString
  rw [Logged.result_bind, Logged.result_quiet, load_some hl, Exec.ok_bind, Logged.result_bind,
    Logged.result_quiet]
  exact (hap.resize_follows hv hfresh _).andThen fun h' _ ht =>
    ht.apart.storeAll_follows ht.view_self data

theorem Apart.get_eq (hap : h.Apart) (hv : h.view p = some list) (i : ℕ) :
    (h.u8aGet p i).result = byteAt list i >>= fun b => .ok (b.cell i) := by
  obtain ⟨l, hl, rfl⟩ := view_eq_some.mp hv
  unfold u8aGet
  rw [Logged.result_bind, Logged.result_quiet, load_some hl, Exec.ok_bind, Logged.result_bind]
  unfold arrayAt
  rw [Logged.result_access, hap.blockAt_eq hl]
  rfl

/-- A byte of the list written. -/
theorem Apart.set_follows (hap : h.Apart) (hv : h.view p = some list) (i : ℕ) (x : UInt8) :
    Follows h p True (h.u8aSet p i x).result (byteAt list i >>= fun b =>
      .ok { list with array := some { b with cell := Function.update b.cell i x } }) := by
  obtain ⟨l, hl, rfl⟩ := view_eq_some.mp hv
  have hrun : (h.u8aSet p i x).result = byteAt (seen h.arrays l) i >>= fun b => .ok
      ⟨h.lists, Function.update h.arrays l.array
        (some { b with cell := Function.update b.cell i x })⟩ := by
    unfold u8aSet
    rw [Logged.result_bind, Logged.result_quiet, load_some hl, Exec.ok_bind, Logged.result_bind]
    unfold arrayAt
    rw [Logged.result_access, hap.blockAt_eq hl]
    rfl
  rw [hrun]
  cases hb : byteAt (seen h.arrays l) i with
  | error t => rfl
  | ok b =>
      refine ⟨_, rfl, ?_⟩
      have hwrite := hap.write hl (byteAt_ok hb).1 { b with cell := Function.update b.cell i x }
        l.length
      have hsame : Function.update h.lists p (some l) = h.lists := by
        rw [← hl, Function.update_eq_self]
      rwa [hsame] at hwrite

/-- **A list created.**  There is a header for it, and an array if `kmalloc`
has one; without one the list has the capacity all the same. -/
theorem Apart.create_turns (hap : h.Apart) (hp : h.lists p = none) (hfresh : Fresh mem h)
    (initialCap : ℕ) :
    ∃ h', u8aCreate (some p) mem h initialCap = .ok (h', p) ∧
      Turns h h' p (some (CourseOs.u8aCreate (mem.map Prod.snd) initialCap)) True := by
  have htarget : h.target p = 0 := by
    unfold target
    rw [hp]
    rfl
  exact ⟨_, rfl, hap.fresh htarget hfresh 0 initialCap⟩

/-- **A list freed**, and its array with it if it has a capacity.  If it has
none, its array is lost where there is one. -/
theorem Apart.free_turns (hap : h.Apart) (hv : h.view p = some list) :
    ∃ h', h.u8aFree p = .ok h' ∧
      Turns h h' p none (list.capacity = 0 → list.array = none) := by
  obtain ⟨l, hl, rfl⟩ := view_eq_some.mp hv
  have htarget := target_some hl
  have hassign : ∀ arrays, arrays 0 = none → (∀ c, c ≠ l.array → arrays c = h.arrays c) →
      Handles.Assigns h.target h.arrays p (pointer none) arrays := fun arrays hnull hframe =>
    ⟨hnull, fun c hc _ => hframe c (htarget ▸ hc), fun hne => absurd rfl hne,
      fun hne => absurd rfl hne⟩
  unfold u8aFree
  rw [load_some hl, Exec.ok_bind]
  by_cases hkeep : l.capacity = 0 ∨ l.array = 0
  · have hrest : h.freeArray l = .ok h := by
      unfold freeArray
      by_cases hcap : l.capacity = 0
      · rw [if_pos hcap]
      · rw [if_neg hcap]
        exact if_pos (hkeep.resolve_left hcap)
    rw [hrest]
    refine ⟨_, rfl, (hap.turns none (hassign h.arrays hap.null fun _ _ => rfl)).congr ?_⟩
    rw [htarget]
    show 0 = l.array ∨ h.arrays l.array = none ↔ (l.capacity = 0 → h.arrays l.array = none)
    constructor
    · rintro (hzero | hnone) _
      · rw [← hzero]
        exact hap.null
      · exact hnone
    · exact fun himp => hkeep.elim (fun hcap => .inr (himp hcap)) fun hzero => .inl hzero.symm
  · obtain ⟨hcap, hzero⟩ := not_or.mp hkeep
    obtain ⟨b, hb⟩ := Option.isSome_iff_exists.mp (htarget ▸ hap.live p (htarget ▸ hzero))
    have hrest : h.freeArray l = .ok { h with arrays := Function.update h.arrays l.array none } :=
      (if_neg hcap).trans (kfree_some hzero hb)
    rw [hrest]
    refine ⟨_, rfl, (hap.turns none (hassign (Function.update h.arrays l.array none) ?_ ?_)).congr
      (iff_of_true (.inr ?_) fun hcap' => absurd hcap' hcap)⟩
    · rw [Function.update_of_ne (Ne.symm hzero)]
      exact hap.null
    · exact fun c hc => Function.update_of_ne hc _ _
    · rw [htarget, Function.update_self]

/-! ### Popping

A pop may halve the capacity.  The block has room for half of what it had room
for, so `krealloc` returns it as it is, and the pop neither moves nor loses an
array. -/

theorem pop_empty (hv : h.view p = some list) (hzero : list.length = 0) :
    h.u8aPop mem p = Logged.ret (h, 0) := by
  obtain ⟨l, hload, hlength, -⟩ := header_of_view hv
  unfold u8aPop
  rw [hload, show Logged.quiet (Except.ok l : Exec ListHeader) = Logged.ret l from rfl]
  show (if l.length = 0 then Logged.ret (h, 0) else _) = _
  exact if_pos (hlength.trans hzero)

/-- The element read before the list shrinks, and the array made smaller where
less than half of the capacity is in use. -/
theorem Apart.pop_eq (hap : h.Apart) (hl : h.lists p = some l) (hpos : l.length ≠ 0)
    (mem : ArrayAnswer) :
    (h.u8aPop mem p).result = byteAt (seen h.arrays l) (l.length - 1) >>= fun b =>
      (if l.length - 1 < l.capacity / 2 then
        (h.store p { l with length := l.length - 1 }).recapacitate mem p (l.capacity / 2)
      else .ok (h.store p { l with length := l.length - 1 })) >>= fun h' =>
        .ok (h', b.cell (l.length - 1)) := by
  unfold u8aPop
  rw [Logged.result_bind, Logged.result_quiet, load_some hl, Exec.ok_bind, if_neg hpos]
  dsimp only
  unfold arrayAt
  rw [Logged.result_bind, Logged.result_access]
  show h.blockAt l.array (l.length - 1) >>= _ = _
  rw [hap.blockAt_eq hl]
  congr 1
  funext b
  rw [Logged.result_ite]
  by_cases hshrink : l.length - 1 < l.capacity / 2
  · rw [if_pos hshrink, if_pos hshrink]
    rfl
  · rw [if_neg hshrink, if_neg hshrink]
    rfl

/-- **A pop** from a list that is not empty: the block stays where it is,
since the halved capacity fits in it. -/
theorem Apart.pop_some (hap : h.Apart) (hv : h.view p = some list) (hfresh : Fresh mem h)
    (hpos : list.length ≠ 0) (harray : list.array = some b) (hle : list.length ≤ list.capacity)
    (hsize : list.capacity ≤ b.size) :
    ∃ h' capacity, (h.u8aPop mem p).result = .ok (h', b.cell (list.length - 1)) ∧
      Turns h h' p (some ⟨list.length - 1, capacity, some b⟩) True ∧
      list.length - 1 ≤ capacity ∧ capacity ≤ list.capacity := by
  obtain ⟨l, hl, rfl⟩ := view_eq_some.mp hv
  have hb : h.arrays l.array = some b := harray
  have hkeep := hap.keep hl (l.length - 1) l.capacity
  rw [hb] at hkeep
  have hat : byteAt (seen h.arrays l) (l.length - 1) = .ok b :=
    byteAt_some harray (by have : l.length ≠ 0 := hpos; have : l.length ≤ l.capacity := hle
                           have : l.capacity ≤ b.size := hsize; omega)
  rw [hap.pop_eq hl hpos, hat, Exec.ok_bind]
  by_cases hshrink : l.length - 1 < l.capacity / 2
  · have hfresh' : Fresh mem (h.store p { l with length := l.length - 1 }) := hfresh
    have hcap : l.capacity ≤ b.size := hsize
    have hle' : l.capacity / 2 ≤ b.size := by omega
    obtain ⟨h', hrun, ht⟩ :=
      hkeep.apart.recapacitate_follows hkeep.view_self hfresh' (l.capacity / 2)
    have hsame : CourseOs.krealloc 1 (mem.map Prod.snd) (some b) (l.capacity / 2) = some b :=
      (if_neg (by omega)).trans (if_pos hle')
    rw [hsame] at ht
    rw [if_pos hshrink, hrun]
    refine ⟨h', l.capacity / 2, rfl, (hkeep.trans ht).congr (iff_of_true ⟨trivial, ?_⟩ trivial),
      Nat.le_of_lt hshrink, Nat.div_le_self _ _⟩
    rintro ⟨b', hb', hlt, -⟩
    cases hb'
    exact absurd hle' (Nat.not_le.mpr hlt)
  · rw [if_neg hshrink]
    exact ⟨_, l.capacity, rfl, hkeep, Nat.le_trans (Nat.sub_le _ _) hle, Nat.le_refl _⟩

/-- A list without an array has no byte to pop. -/
theorem Apart.pop_none (hap : h.Apart) (hv : h.view p = some list) (hpos : list.length ≠ 0)
    (harray : list.array = none) : (h.u8aPop mem p).result = .error .nullDereference := by
  obtain ⟨l, hl, rfl⟩ := view_eq_some.mp hv
  rw [hap.pop_eq hl hpos]
  unfold byteAt
  rw [harray]
  rfl

/-! ### Copying

A clone reads one list and stores to another.  The list it reads stays the
same under the stores because the two arrays are apart, which is why the loop
can be described by the list as it was at the start. -/

/-- The loop of `u8a_clone`, on lists of their own: the bytes of `arr` from
index `i` on are stored to `list`. -/
def copyAll (arr : U8ArrayList) : ℕ → ℕ → U8ArrayList → Exec U8ArrayList
  | 0, _, list => .ok list
  | left + 1, i, list => do
      let b ← byteAt arr i
      let list ← CourseOs.u8aStore list (b.cell i)
      copyAll arr left (i + 1) list

theorem Apart.copy_follows (hap : h.Apart) (hp : h.view p = some arr) (hq : h.view q = some list)
    (hne : p ≠ q) (k i : ℕ) :
    Follows h q True (u8aCopy p q k i h).result (copyAll arr k i list) := by
  induction k generalizing h list i with
  | zero =>
      refine ⟨h, rfl, hap, ?_, (and_iff_left trivial).symm⟩
      rw [← hq, Function.update_eq_self]
  | succ k ih =>
      unfold u8aCopy copyAll
      rw [Logged.result_bind, hap.get_eq hp]
      cases hb : byteAt arr i with
      | error t => rfl
      | ok b =>
          rw [Exec.ok_bind, Exec.ok_bind, Exec.ok_bind, Logged.result_bind]
          refine (hap.store_follows hq (b.cell i)).bind fun h' list' _ _ ht => ?_
          exact ih ht.apart ((ht.view_ne hne).trans hp) ht.view_self (i + 1)

/-- **A clone** is a new list with the bytes of the other, which stays as it
is: the two arrays are apart. -/
theorem Apart.clone_follows (hap : h.Apart) (hv : h.view p = some arr) (hq : h.lists q = none)
    (hfresh : Fresh mem h) :
    ∃ r, (h.u8aClone (some q) mem p).result = r >>= (fun h' => .ok (h', q)) ∧
      Follows h q True r
        (copyAll arr arr.length 0 (CourseOs.u8aCreate (mem.map Prod.snd) arr.length)) := by
  obtain ⟨l, hload, hlength, -⟩ := header_of_view hv
  obtain ⟨h', hcreate, ht⟩ := hap.create_turns hq hfresh arr.length
  have hne : p ≠ q := by
    rintro rfl
    unfold view at hv
    rw [hq] at hv
    cases hv
  refine ⟨.ok h' >>= fun h' => (u8aCopy p q arr.length 0 h').result, ?_, ?_⟩
  · unfold u8aClone
    rw [Logged.result_bind, Logged.result_quiet, hload, Exec.ok_bind, hlength,
      Logged.result_bind, Logged.result_quiet, hcreate]
    rfl
  · refine Follows.andThen ⟨h', rfl, ht⟩ ?_
    rintro _ ⟨⟩ _
    exact ht.apart.copy_follows ((ht.view_ne hne).trans hv) ht.view_self hne arr.length 0

/-- **A path from a string** is a new list.  It is made with room for one byte
and resized to the string, so that its first array may be lost. -/
theorem Apart.pathFromString_follows {mem' : ArrayAnswer} (hap : h.Apart) (hp : h.lists p = none)
    (hfresh : Fresh mem h)
    (hfresh' : ∀ h', u8aCreate (some p) mem h 1 = .ok (h', p) → Fresh mem' h')
    (str : List UInt8) :
    ∃ r, (pathFromString (some p) mem mem' h str).result = r >>= (fun h' => .ok (h', p)) ∧
      Follows h p
        (¬Loses mem' (CourseOs.u8aCreate (mem.map Prod.snd) 1) ((0 + str.length) % 2 ^ 32)) r
        (CourseOs.u8aPushString (mem'.map Prod.snd)
          (CourseOs.u8aCreate (mem.map Prod.snd) 1) str) := by
  obtain ⟨h', hcreate, ht⟩ := hap.create_turns hp hfresh 1
  have hpush := ht.apart.pushString_follows ht.view_self (hfresh' h' hcreate) str
  refine ⟨(h'.u8aPushString mem' p str).result, ?_, ?_⟩
  · unfold pathFromString
    rw [Logged.result_bind, Logged.result_quiet, hcreate]
    rfl
  · exact ht.before hpush

end ListHeap

/-! ### Calls

The calls of a run, with what each of them returns.  What `kmalloc` will
answer is part of the call, so that a run is determined by its calls and its
first state. -/

/-- A call.  What `kmalloc` returns, if it is called, is part of it.
`path_clone` and `path_free` are `u8a_clone` and `u8a_free`. -/
inductive U8aOp
  | create (head : Option ℕ) (mem : ArrayAnswer) (initialCap : ℕ)
  | free (p : ℕ)
  | get (p index : ℕ)
  | set (p index : ℕ) (data : UInt8)
  | push (mem : ArrayAnswer) (p : ℕ) (data : UInt8)
  | pushString (mem : ArrayAnswer) (p : ℕ) (data : List UInt8)
  | pop (mem : ArrayAnswer) (p : ℕ)
  | resize (mem : ArrayAnswer) (p newSize : ℕ)
  | clone (head : Option ℕ) (mem : ArrayAnswer) (p : ℕ)
  | pathFromString (head : Option ℕ) (mem mem' : ArrayAnswer) (str : List UInt8)

/-- What a call returns.  `list` is the pointer to a list that has been made. -/
inductive U8aOutput
  | list (p : ℕ)
  | byte (x : UInt8)
  | size (n : ℕ)
  | done
  deriving DecidableEq

namespace U8aOp

open ListHeap

/-- The call, with its accesses.  Only accesses to arrays are logged, each
with how far it is past the list's capacity. -/
def run : U8aOp → ListHeap → Logged Trap (ListHeap × U8aOutput)
  | create head mem initialCap, h => do
      let (h, p) ← Logged.quiet (ListHeap.u8aCreate head mem h initialCap)
      Logged.ret (h, .list p)
  | free p, h => do
      let h ← Logged.quiet (h.u8aFree p)
      Logged.ret (h, .done)
  | get p index, h => do
      let x ← h.u8aGet p index
      Logged.ret (h, .byte x)
  | set p index data, h => do
      let h ← h.u8aSet p index data
      Logged.ret (h, .done)
  | push mem p data, h => do
      let h ← h.u8aPush mem p data
      let l ← Logged.quiet (h.load p)
      Logged.ret (h, .size l.length)
  | pushString mem p data, h => do
      let h ← h.u8aPushString mem p data
      let l ← Logged.quiet (h.load p)
      Logged.ret (h, .size l.length)
  | pop mem p, h => do
      let (h, x) ← h.u8aPop mem p
      Logged.ret (h, .byte x)
  | resize mem p newSize, h => do
      let h ← Logged.quiet (h.u8aResize mem p newSize)
      Logged.ret (h, .done)
  | clone head mem p, h => do
      let (h, q) ← h.u8aClone head mem p
      Logged.ret (h, .list q)
  | pathFromString head mem mem' str, h => do
      let (h, p) ← ListHeap.pathFromString head mem mem' h str
      Logged.ret (h, .list p)

/-- The call without its accesses, for statements about what it does. -/
def result (op : U8aOp) (h : ListHeap) : Exec (ListHeap × U8aOutput) := (op.run h).result

end U8aOp

end CourseOs
