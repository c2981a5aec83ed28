import CourseOs.Ds.ByteList
import CourseOs.Lib.AccessLog
import CourseOs.Lib.Handles

/-!
# Byte lists on the heap

`ds/u8_array_list.c` again, with the lists and their arrays where they are: a
`U8ArrayList` is reached through its pointer, and holds a pointer to its
array.  `kmalloc` returns a pointer to a block, and `kfree` takes one; what is
freed is no longer there.  What `kmalloc` returns, if it is called, is an
argument of each routine.

`CourseOs.Ds.ByteList` has the same routines on one list whose array is part
of it, which is enough for what a list holds, and not for what becomes of the
arrays: whether one is lost, freed twice, or shared by two lists.  That is
what this module is for.

A list seen with what its array holds is a `CourseOs.U8ArrayList`
(`ListHeap.view`).  As long as no two lists share an array (`Apart`), each
routine does to its list what the routine on such lists does, and leaves the
others alone (`Follows`).  `Turns` is one step of this kind; it also says
whether an array is lost, which is that no list points to it any more
(`Tight`).  The rules are those of `Handles`: owners with one cell each, that
are assigned one at a time.

Accesses to an array are logged, each with how far it is past the list's
capacity.
-/

namespace CourseOs

/-- `U8ArrayList`, with the pointer to its array.  The header is a block of
its own, and the array another one. -/
structure ListHeader where
  length : ℕ
  capacity : ℕ
  array : ℕ

/-- The lists and the arrays that are allocated, by their addresses. -/
structure ListHeap where
  lists : ℕ → Option ListHeader
  arrays : ℕ → Option (Block UInt8)

/-- What `kmalloc` returns for an array: a pointer and the block there, or
null. -/
abbrev ArrayAnswer := Option (ℕ × Block UInt8)

namespace ListHeap

/-- A heap without lists, which is where runs start. -/
def empty : ListHeap := ⟨fun _ => none, fun _ => none⟩

/-- The list at `p`.  A list that has been freed, or was never made, stops the
kernel. -/
def load (h : ListHeap) (p : ℕ) : Exec ListHeader :=
  match h.lists p with
  | none => .error .dangling
  | some l => .ok l

/-- The list at `p` written; its array is not touched. -/
def store (h : ListHeap) (p : ℕ) (l : ListHeader) : ListHeap :=
  { h with lists := Function.update h.lists p (some l) }

/-- The block at `a`, when index `i` is in it.  Null, an array that has been
freed and an index past the block are told apart. -/
def blockAt (h : ListHeap) (a i : ℕ) : Exec (Block UInt8) :=
  if a = 0 then .error .nullDereference
  else match h.arrays a with
    | none => .error .dangling
    | some b => if i < b.size then .ok b else .error .outOfBounds

/-- An access to index `i` of a list's array, logged with how far it is past
the capacity: 0 when it is below. -/
def arrayAt (h : ListHeap) (l : ListHeader) (i : ℕ) : Logged Trap (Block UInt8) :=
  Logged.access (h.blockAt l.array i) (i + 1 - l.capacity)

/-- `kmalloc`, of an array.  Where there is no memory nothing is allocated and
null is returned. -/
def kmalloc (mem : ArrayAnswer) (h : ListHeap) : ListHeap × ℕ :=
  match mem with
  | none => (h, 0)
  | some (a, b) => ({ h with arrays := Function.update h.arrays a (some b) }, a)

/-- `kfree`, of an array.  Freeing what is not allocated stops the kernel. -/
def kfree (h : ListHeap) (a : ℕ) : Exec ListHeap :=
  if a = 0 then .ok h
  else match h.arrays a with
    | none => .error .dangling
    | some _ => .ok { h with arrays := Function.update h.arrays a none }

/-- `krealloc`, of an array: it stays where it is when it is large enough, and
is copied and freed when it is not.  A request of no bytes frees it. -/
def krealloc (mem : ArrayAnswer) (h : ListHeap) (ptr newsize : ℕ) : Exec (ListHeap × ℕ) :=
  if ptr = 0 then .ok (kmalloc mem h)
  else match h.arrays ptr with
    | none => .error .dangling
    | some old =>
        if newsize = 0 then do
          let h ← h.kfree ptr
          .ok (h, 0)
        else if newsize ≤ old.size then .ok (h, ptr)
        else match mem with
          | none => .ok (h, 0)
          | some (newptr, new) => do
              let cell := fun i => if i + 1 ≤ old.size then old.cell i else new.cell i
              let (h, newptr) := kmalloc (some (newptr, { new with cell })) h
              let h ← h.kfree ptr
              .ok (h, newptr)

/-- `list->capacity = newSize`, and `list->array` reallocated to that. -/
def recapacitate (mem : ArrayAnswer) (h : ListHeap) (p newSize : ℕ) : Exec ListHeap := do
  let l ← h.load p
  let (h, array) ← h.krealloc mem l.array newSize
  .ok (h.store p ⟨l.length, newSize, array⟩)

/-- `u8a_create`, with what `kmalloc` returns for the list. -/
def u8aCreate (head : Option ℕ) (mem : ArrayAnswer) (h : ListHeap) (initialCap : ℕ) :
    Exec (ListHeap × ℕ) :=
  match head with
  | none => .error .nullDereference
  | some p =>
      let (h, array) := kmalloc mem h
      .ok (h.store p ⟨0, initialCap, array⟩, p)

/-- The array of a list freed, if the list has a capacity.  A list without one
may have an array all the same. -/
def freeArray (h : ListHeap) (l : ListHeader) : Exec ListHeap :=
  if l.capacity = 0 then .ok h else h.kfree l.array

/-- `u8a_free`: the array is freed where the list has a capacity, and the list
always. -/
def u8aFree (h : ListHeap) (p : ℕ) : Exec ListHeap := do
  let l ← h.load p
  let h ← h.freeArray l
  .ok { h with lists := Function.update h.lists p none }

/-- `u8a_get`.  The index is not compared with the length. -/
def u8aGet (h : ListHeap) (p index : ℕ) : Logged Trap UInt8 := do
  let l ← Logged.quiet (h.load p)
  let b ← h.arrayAt l index
  Logged.ret (b.cell index)

/-- `u8a_set`.  The length stays, also where the index is past it. -/
def u8aSet (h : ListHeap) (p index : ℕ) (data : UInt8) : Logged Trap ListHeap := do
  let l ← Logged.quiet (h.load p)
  let b ← h.arrayAt l index
  let b := { b with cell := Function.update b.cell index data }
  Logged.ret { h with arrays := Function.update h.arrays l.array (some b) }

/-- `list->array[list->length++] = data`, with the length in 32 bits. -/
def u8aStore (h : ListHeap) (p : ℕ) (data : UInt8) : Logged Trap ListHeap := do
  let l ← Logged.quiet (h.load p)
  let b ← h.arrayAt l l.length
  let b := { b with cell := Function.update b.cell l.length data }
  let h := h.store p { l with length := (l.length + 1) % 2 ^ 32 }
  Logged.ret { h with arrays := Function.update h.arrays l.array (some b) }

/-- The loop of `u8a_push_string`, through the pointer to the list. -/
def u8aStoreAll (p : ℕ) : List UInt8 → ListHeap → Logged Trap ListHeap
  | [], h => Logged.ret h
  | x :: xs, h => do
      let h ← h.u8aStore p x
      u8aStoreAll p xs h

/-- `u8a_push`.  The array grows once the length is the capacity less one,
before the byte is stored; that the new size is larger is asserted. -/
def u8aPush (mem : ArrayAnswer) (h : ListHeap) (p : ℕ) (data : UInt8) : Logged Trap ListHeap := do
  let l ← Logged.quiet (h.load p)
  if l.capacity = 0 ∨ l.capacity - 1 ≤ l.length then
    let newSize := max ((l.capacity + l.capacity / 4) % 2 ^ 32) ((l.capacity + 2) % 2 ^ 32)
    if newSize ≤ l.capacity then Logged.fail .assertion
    else do
      let h ← Logged.quiet (h.recapacitate mem p newSize)
      h.u8aStore p data
  else h.u8aStore p data

/-- `u8a_resize`.  The length is cut where the new size is smaller, and
otherwise stays. -/
def u8aResize (mem : ArrayAnswer) (h : ListHeap) (p newSize : ℕ) : Exec ListHeap := do
  let h ← h.recapacitate mem p newSize
  let l ← h.load p
  .ok (h.store p { l with length := if newSize < l.length then newSize else l.length })

/-- `u8a_push_string`: a resize to just the length of both, and then the bytes
one by one. -/
def u8aPushString (mem : ArrayAnswer) (h : ListHeap) (p : ℕ) (data : List UInt8) :
    Logged Trap ListHeap := do
  let l ← Logged.quiet (h.load p)
  let h ← Logged.quiet (h.u8aResize mem p ((l.length + data.length) % 2 ^ 32))
  u8aStoreAll p data h

/-- `u8a_pop`.  An empty list gives the byte 0.  The array is halved once less
than half of it is used. -/
def u8aPop (mem : ArrayAnswer) (h : ListHeap) (p : ℕ) : Logged Trap (ListHeap × UInt8) := do
  let l ← Logged.quiet (h.load p)
  if l.length = 0 then Logged.ret (h, 0)
  else do
    let length := l.length - 1
    let h := h.store p { l with length }
    let b ← h.arrayAt l length
    if length < l.capacity / 2 then do
      let h ← Logged.quiet (h.recapacitate mem p (l.capacity / 2))
      Logged.ret (h, b.cell length)
    else Logged.ret (h, b.cell length)

/-- The loop of `u8a_clone`, from index `i` on, with `left` bytes to go.  It
reads one list and stores to the other. -/
def u8aCopy (p q : ℕ) : ℕ → ℕ → ListHeap → Logged Trap ListHeap
  | 0, _, h => Logged.ret h
  | left + 1, i, h => do
      let x ← h.u8aGet p i
      let h ← h.u8aStore q x
      u8aCopy p q left (i + 1) h

/-- `u8a_clone`: a list with the length of the other for its capacity, filled
byte by byte. -/
def u8aClone (head : Option ℕ) (mem : ArrayAnswer) (h : ListHeap) (p : ℕ) :
    Logged Trap (ListHeap × ℕ) := do
  let l ← Logged.quiet (h.load p)
  let (h, q) ← Logged.quiet (h.u8aCreate head mem l.length)
  let h ← u8aCopy p q l.length 0 h
  Logged.ret (h, q)

/-- `path_from_string`: a list of capacity 1, to which the string is pushed. -/
def pathFromString (head : Option ℕ) (mem mem' : ArrayAnswer) (h : ListHeap) (str : List UInt8) :
    Logged Trap (ListHeap × ℕ) := do
  let (h, p) ← Logged.quiet (h.u8aCreate head mem 1)
  let h ← h.u8aPushString mem' p str
  Logged.ret (h, p)

/-! ### Lists with their arrays

Seen from outside, a list is its header together with the block that its
pointer leads to (`view`).  `Follows` says that a routine on the heap does to
the view of one list what the routine of the pure model does to a list of its
own; it is composed along the routines of the source, and is how the two
models are compared. -/

/-- The pointer of a list to its array; null where there is no list. -/
def pointer : Option ListHeader → ℕ
  | none => 0
  | some l => l.array

/-- The pointer of the list at `p` to its array, by which the list owns it. -/
def target (h : ListHeap) (p : ℕ) : ℕ := pointer (h.lists p)

/-- The list at `p` with what is in its array: what the routine would find if
the list were alone. -/
def view (h : ListHeap) (p : ℕ) : Option U8ArrayList :=
  (h.lists p).map fun l => ⟨l.length, l.capacity, h.arrays l.array⟩

/-- Every list has an array of its own, or none.  It does not say that every
array has a list. -/
def Apart (h : ListHeap) : Prop := Handles.Apart h.target h.arrays

/-- Every array is that of a list: none is lost.  Runs are about whether this
holds in the end. -/
def Tight (h : ListHeap) : Prop := Handles.Tight h.target h.arrays

/-- The list at `p` becomes `list'`, and nothing happens to the others.  If
`kept`, no array is lost that was not before. -/
structure Turns (h h' : ListHeap) (p : ℕ) (list' : Option U8ArrayList) (kept : Prop) : Prop where
  apart : h'.Apart
  view : h'.view = Function.update h.view p list'
  tight : h'.Tight ↔ h.Tight ∧ kept

/-- A routine does to the list at `p` what another one does to a list of its
own: it stops where that one stops, and turns the list to what that one
returns. -/
def Follows (h : ListHeap) (p : ℕ) (kept : Prop) (r : Exec ListHeap) : Exec U8ArrayList → Prop
  | .error t => r = .error t
  | .ok list' => ∃ h', r = .ok h' ∧ Turns h h' p (some list') kept

variable {h h' h'' : ListHeap} {p q a i n : ℕ} {l : ListHeader} {b : Block UInt8}
  {list list' : U8ArrayList} {mem : ArrayAnswer} {kept kept' : Prop} {x : UInt8}
  {r : Exec ListHeap} {r' : Exec U8ArrayList} {o o' : Option U8ArrayList}

/-- The list that the header `l` makes, with the arrays there are. -/
def seen (arrays : ℕ → Option (Block UInt8)) (l : ListHeader) : U8ArrayList :=
  ⟨l.length, l.capacity, arrays l.array⟩

theorem view_eq_some : h.view p = some list ↔
    ∃ l, h.lists p = some l ∧ seen h.arrays l = list := Option.map_eq_some_iff

/-- The header of a list. -/
theorem header_of_view (hv : h.view p = some list) : ∃ l, h.load p = .ok l ∧
    l.length = list.length ∧ l.capacity = list.capacity ∧ h.arrays l.array = list.array := by
  obtain ⟨l, hl, rfl⟩ := view_eq_some.mp hv
  refine ⟨l, ?_, rfl, rfl, rfl⟩
  unfold load
  rw [hl]

theorem target_some (hl : h.lists p = some l) : h.target p = l.array := by
  unfold target
  rw [hl]
  rfl

theorem load_some (hl : h.lists p = some l) : h.load p = .ok l := by
  unfold load
  rw [hl]

theorem target_update (arrays : ℕ → Option (Block UInt8)) (o : Option ListHeader) :
    target ⟨Function.update h.lists p o, arrays⟩ =
      Function.update h.target p (pointer o) := by
  funext q
  unfold target
  by_cases hq : q = p
  · subst hq
    dsimp only
    rw [Function.update_self, Function.update_self]
  · dsimp only
    rw [Function.update_of_ne hq, Function.update_of_ne hq]

theorem load_none (hl : h.lists p = none) : h.load p = .error .dangling := by
  unfold load
  rw [hl]

theorem view_of_lists (hl : h.lists p = some l) : h.view p = some (seen h.arrays l) :=
  view_eq_some.mpr ⟨l, hl, rfl⟩

/-- **A change of one list**, and of its array: lists stay apart, and the
array the list pointed to before is lost unless it is still the list's or has
been freed. -/
theorem Apart.turns (hap : h.Apart) (o : Option ListHeader) {arrays : ℕ → Option (Block UInt8)}
    (hassign : Handles.Assigns h.target h.arrays p (pointer o) arrays) :
    Turns h ⟨Function.update h.lists p o, arrays⟩ p (o.map (seen arrays))
      (pointer o = h.target p ∨ arrays (h.target p) = none) where
  apart := by
    unfold Apart
    rw [target_update]
    exact Handles.Apart.assign hap hassign
  view := by
    funext q
    by_cases hq : q = p
    · subst hq
      show (Function.update h.lists q o q).map (seen arrays) = _
      rw [Function.update_self, Function.update_self]
    · rw [Function.update_of_ne hq]
      show (Function.update h.lists p o q).map (seen arrays) = (h.lists q).map (seen h.arrays)
      rw [Function.update_of_ne hq]
      cases hl : h.lists q with
      | none => rfl
      | some l =>
          have hother := Handles.Apart.assign_other hap hassign hq
          rw [target_some hl] at hother
          show some (U8ArrayList.mk l.length l.capacity (arrays l.array)) = some ⟨_, _, _⟩
          rw [hother]
  tight := by
    unfold Tight
    rw [target_update]
    exact Handles.Apart.tight_assign_iff hap hassign

theorem Turns.trans (ht : Turns h h' p o kept) (ht' : Turns h' h'' p o' kept') :
    Turns h h'' p o' (kept ∧ kept') where
  apart := ht'.apart
  view := by rw [ht'.view, ht.view, Function.update_idem]
  tight := by rw [ht'.tight, ht.tight, and_assoc]

theorem Turns.congr (ht : Turns h h' p o kept) (hiff : kept ↔ kept') : Turns h h' p o kept' :=
  ⟨ht.apart, ht.view, ht.tight.trans (and_congr_right' hiff)⟩

/-- A header written, and the cells at its old and its new pointer.  No array
is lost exactly if the old one is still the list's, or has been freed. -/
theorem Apart.assigned {arrays : ℕ → Option (Block UInt8)} {cell : Option (Block UInt8)}
    {length capacity : ℕ} (hap : h.Apart) (hassign : Handles.Assigns h.target h.arrays p a arrays)
    (hcell : arrays a = cell) (hkept : a = h.target p ∨ arrays (h.target p) = none ↔ kept) :
    Turns h ⟨Function.update h.lists p (some ⟨length, capacity, a⟩), arrays⟩ p
      (some ⟨length, capacity, cell⟩) kept := by
  have hturns := hap.turns (some ⟨length, capacity, a⟩) hassign
  have hseen : seen arrays ⟨length, capacity, a⟩ = ⟨length, capacity, cell⟩ :=
    congrArg (U8ArrayList.mk length capacity) hcell
  rw [Option.map_some, hseen] at hturns
  exact hturns.congr hkept

theorem Turns.view_self (ht : Turns h h' p o kept) : h'.view p = o := by
  rw [ht.view, Function.update_self]

theorem Turns.view_ne (ht : Turns h h' p o kept) (hq : q ≠ p) : h'.view q = h.view q := by
  rw [ht.view, Function.update_of_ne hq]

/-- A second part that loses nothing.  What the first part loses is lost by
both together. -/
theorem Follows.bind {f : ListHeap → Exec ListHeap} {f' : U8ArrayList → Exec U8ArrayList}
    (hr : Follows h p kept r r')
    (hf : ∀ h' list', r = .ok h' → r' = .ok list' → Turns h h' p (some list') kept →
      Follows h' p True (f h') (f' list')) : Follows h p kept (r >>= f) (r' >>= f') := by
  cases hr' : r' with
  | error t =>
      rw [hr'] at hr
      rw [show r = .error t from hr]
      rfl
  | ok list' =>
      rw [hr'] at hr
      obtain ⟨h', hrun, ht⟩ := hr
      have hnext := hf h' list' hrun hr' ht
      rw [hrun, Exec.ok_bind, Exec.ok_bind]
      cases hf' : f' list' with
      | error t =>
          rw [hf'] at hnext
          exact hnext
      | ok list'' =>
          rw [hf'] at hnext
          obtain ⟨h'', hrun', ht'⟩ := hnext
          exact ⟨h'', hrun', (ht.trans ht').congr (and_iff_left trivial)⟩

/-- A first part that returns. -/
theorem Follows.andThen {f : ListHeap → Exec ListHeap} (hr : Follows h p kept r (.ok list))
    (hf : ∀ h', r = .ok h' → Turns h h' p (some list) kept → Follows h' p True (f h') r') :
    Follows h p kept (r >>= f) r' := by
  have hbind := hr.bind fun h' list' hrun hok ht =>
    hf h' hrun (Except.ok.inj hok ▸ ht)
  exact hbind

theorem Follows.congr (hr : Follows h p kept r r')
    (hiff : ∀ list', r' = .ok list' → (kept ↔ kept')) : Follows h p kept' r r' := by
  cases r' with
  | error t => exact hr
  | ok list' =>
      obtain ⟨h', hrun, ht⟩ := hr
      exact ⟨h', hrun, ht.congr (hiff list' rfl)⟩

theorem Follows.returns (hr : Follows h p kept r r') (hok : r' = .ok list') :
    ∃ h', r = .ok h' ∧ Turns h h' p (some list') kept := by
  rw [hok] at hr
  exact hr

/-- What the list has become where the routine returns. -/
theorem Follows.of_ok (hr : Follows h p kept r r') (hrun : r = .ok h') :
    ∃ list', r' = .ok list' ∧ Turns h h' p (some list') kept := by
  cases r' with
  | error t => cases (show r = .error t from hr).symm.trans hrun
  | ok list' =>
      obtain ⟨h'', hrun', ht⟩ := hr
      cases hrun.symm.trans hrun'
      exact ⟨list', rfl, ht⟩

/-- What comes before and loses nothing. -/
theorem Turns.before (ht : Turns h h' p o True) (hr : Follows h' p kept r r') :
    Follows h p kept r r' := by
  cases r' with
  | error t => exact hr
  | ok list' =>
      obtain ⟨h'', hrun, ht'⟩ := hr
      exact ⟨h'', hrun, (ht.trans ht').congr (and_iff_right trivial)⟩

/-! ### Arrays

A store goes through the header to the array.  As long as every list has an
array of its own, it changes one view and no other. -/

/-- The block of a list, when index `i` is in it: the access of a list on its
own. -/
def byteAt (list : U8ArrayList) (i : ℕ) : Exec (Block UInt8) :=
  match list.array with
  | none => .error .nullDereference
  | some b => if i < b.size then .ok b else .error .outOfBounds

theorem byteAt_ok (hb : byteAt list i = .ok b) : list.array = some b ∧ i < b.size := by
  unfold byteAt at hb
  cases harray : list.array with
  | none =>
      rw [harray] at hb
      cases hb
  | some b' =>
      rw [harray] at hb
      dsimp only at hb
      by_cases hi : i < b'.size
      · cases (if_pos hi).symm.trans hb
        exact ⟨rfl, hi⟩
      · cases (if_neg hi).symm.trans hb

theorem byteAt_some (harray : list.array = some b) (hi : i < b.size) : byteAt list i = .ok b := by
  unfold byteAt
  rw [harray]
  exact if_pos hi

theorem u8aStore_eq : CourseOs.u8aStore list x = byteAt list list.length >>= fun b =>
    .ok ⟨(list.length + 1) % 2 ^ 32, list.capacity,
      some { b with cell := Function.update b.cell list.length x }⟩ := by
  unfold CourseOs.u8aStore byteAt
  cases list.array with
  | none => rfl
  | some b =>
      dsimp only
      by_cases hi : list.length < b.size
      · rw [if_pos hi, if_pos hi]
        rfl
      · rw [if_neg hi, if_neg hi]
        rfl

theorem Apart.blockAt_eq (hap : h.Apart) (hl : h.lists p = some l) (i : ℕ) :
    h.blockAt l.array i = byteAt (seen h.arrays l) i := by
  unfold blockAt byteAt seen
  by_cases hzero : l.array = 0
  · rw [if_pos hzero, hzero]
    dsimp only
    rw [show h.arrays 0 = none from hap.null]
  · have hlive := hap.live p (target_some hl ▸ hzero)
    rw [target_some hl] at hlive
    obtain ⟨b, hb⟩ := Option.isSome_iff_exists.mp hlive
    rw [if_neg hzero]
    dsimp only
    rw [hb]

theorem Apart.array_eq_none_iff (hap : h.Apart) (hl : h.lists p = some l) :
    h.arrays l.array = none ↔ l.array = 0 := by
  constructor
  · intro hnone
    by_contra hzero
    have hlive := hap.live p (target_some hl ▸ hzero)
    rw [target_some hl, hnone] at hlive
    cases hlive
  · intro hzero
    rw [hzero]
    exact hap.null

/-- A list's block written.  The pointer stays, so that nothing is lost and
the other lists do not see it. -/
theorem Apart.write (hap : h.Apart) (hl : h.lists p = some l) (hb : h.arrays l.array = some b)
    (b' : Block UInt8) (length : ℕ) :
    Turns h ⟨Function.update h.lists p (some { l with length }),
        Function.update h.arrays l.array (some b')⟩ p
      (some ⟨length, l.capacity, some b'⟩) True := by
  have htarget := target_some hl
  have hzero : l.array ≠ 0 := by
    intro hzero
    rw [hzero, show h.arrays 0 = none from hap.null] at hb
    cases hb
  have hself : Function.update h.arrays l.array (some b') l.array = some b' :=
    Function.update_self ..
  refine hap.assigned ⟨?_, ?_, ?_, ?_⟩ hself (iff_of_true (.inl htarget.symm) trivial)
  · rw [Function.update_of_ne hzero.symm]
    exact hap.null
  · exact fun c _ hc => Function.update_of_ne hc _ _
  · exact fun _ => Option.isSome_iff_exists.mpr ⟨b', hself⟩
  · exact fun _ hne => absurd htarget.symm hne

/-- **A store** is one to the list. -/
theorem Apart.store_follows (hap : h.Apart) (hv : h.view p = some list) (x : UInt8) :
    Follows h p True (h.u8aStore p x).result (CourseOs.u8aStore list x) := by
  obtain ⟨l, hl, rfl⟩ := view_eq_some.mp hv
  have hrun : (h.u8aStore p x).result = byteAt (seen h.arrays l) l.length >>= fun b => .ok
      ⟨Function.update h.lists p (some { l with length := (l.length + 1) % 2 ^ 32 }),
        Function.update h.arrays l.array
          (some { b with cell := Function.update b.cell l.length x })⟩ := by
    unfold u8aStore
    rw [Logged.result_bind, Logged.result_quiet, load_some hl, Exec.ok_bind, Logged.result_bind]
    unfold arrayAt
    rw [Logged.result_access, hap.blockAt_eq hl]
    rfl
  rw [hrun, u8aStore_eq]
  cases hb : byteAt (seen h.arrays l) (seen h.arrays l).length with
  | error t =>
      rw [show byteAt (seen h.arrays l) l.length = .error t from hb]
      rfl
  | ok b =>
      rw [show byteAt (seen h.arrays l) l.length = .ok b from hb]
      exact ⟨_, rfl, hap.write hl (byteAt_ok hb).1 _ _⟩

theorem Apart.storeAll_follows (hap : h.Apart) (hv : h.view p = some list) (data : List UInt8) :
    Follows h p True (u8aStoreAll p data h).result (CourseOs.u8aStoreAll list data) := by
  induction data generalizing h list with
  | nil =>
      refine ⟨h, rfl, hap, ?_, (and_iff_left trivial).symm⟩
      rw [← hv, Function.update_eq_self]
  | cons x xs ih =>
      refine (hap.store_follows hv x).bind fun h' list' _ _ ht => ?_
      exact ih ht.apart ht.view_self

/-! ### Reallocation

`krealloc` may leave an array where it is, move it, or fail; when it fails the
array stays allocated and the caller overwrites its only pointer to it.  Each
of the three is a change of one list, and the last is the one that loses an
array. -/

/-- `krealloc` has no block to move to: the array is too small, and `kmalloc`
refuses. -/
def Loses (mem : ArrayAnswer) (list : U8ArrayList) (newSize : ℕ) : Prop :=
  ∃ b, list.array = some b ∧ b.size < newSize ∧ mem = none

theorem Loses.krealloc_eq (hloses : Loses mem list n) :
    CourseOs.krealloc 1 (mem.map Prod.snd) list.array n = none := by
  obtain ⟨b, hb, hlt, rfl⟩ := hloses
  rw [hb]
  exact (if_neg (Nat.ne_zero_of_lt hlt)).trans (if_neg (Nat.not_le.mpr hlt))

/-- What `kmalloc` returns is not allocated, and is not the null pointer. -/
def Fresh (mem : ArrayAnswer) (h : ListHeap) : Prop :=
  ∀ a b, mem = some (a, b) → a ≠ 0 ∧ h.arrays a = none

/-- A pointer cleared, of a list whose array may be lost. -/
theorem Apart.clear (hap : h.Apart) (p length capacity : ℕ) :
    Turns h (h.store p ⟨length, capacity, 0⟩) p (some ⟨length, capacity, none⟩)
      (h.arrays (h.target p) = none) := by
  refine hap.assigned ⟨hap.null, fun _ _ _ => rfl, fun hne => absurd rfl hne,
    fun hne => absurd rfl hne⟩ hap.null (or_iff_right_of_imp fun hzero => ?_)
  rw [← hzero]
  exact hap.null

/-- A fresh array, for a list that has none.  No other list has it, because
nothing is at its address. -/
theorem Apart.fresh (hap : h.Apart) (htarget : h.target p = 0) (hfresh : Fresh mem h)
    (length capacity : ℕ) :
    Turns h ((kmalloc mem h).1.store p ⟨length, capacity, (kmalloc mem h).2⟩) p
      (some ⟨length, capacity, mem.map Prod.snd⟩) True := by
  have hnull : h.arrays (h.target p) = none := by
    rw [htarget]
    exact hap.null
  cases mem with
  | none => exact (hap.clear p length capacity).congr (iff_of_true hnull trivial)
  | some answer =>
      obtain ⟨a, b⟩ := answer
      obtain ⟨hzero, hnone⟩ := hfresh a b rfl
      have hself : Function.update h.arrays a (some b) a = some b := Function.update_self ..
      have hnull' : Function.update h.arrays a (some b) 0 = none := by
        rw [Function.update_of_ne hzero.symm]
        exact hap.null
      refine hap.assigned ⟨hnull', ?_, ?_, ?_⟩ hself (iff_of_true (.inr ?_) trivial)
      · exact fun c _ hc => Function.update_of_ne hc _ _
      · exact fun _ => Option.isSome_iff_exists.mpr ⟨b, hself⟩
      · exact fun _ _ => hnone
      · rw [htarget]
        exact hnull'

/-- A header that points where it did. -/
theorem Apart.keep (hap : h.Apart) (hl : h.lists p = some l) (length capacity : ℕ) :
    Turns h (h.store p ⟨length, capacity, l.array⟩) p
      (some ⟨length, capacity, h.arrays l.array⟩) True := by
  have htarget := target_some hl
  refine hap.assigned ⟨hap.null, fun _ _ _ => rfl, ?_, ?_⟩ rfl
    (iff_of_true (.inl htarget.symm) trivial)
  · rw [← htarget]
    exact hap.live p
  · exact fun _ hne => absurd htarget.symm hne

/-- An array freed, and the pointer to it cleared.  The list is then without
an array, and none is lost. -/
theorem Apart.freed (hap : h.Apart) (hl : h.lists p = some l) (length capacity : ℕ) :
    Turns h ⟨Function.update h.lists p (some ⟨length, capacity, 0⟩),
        Function.update h.arrays l.array none⟩ p
      (some ⟨length, capacity, none⟩) True := by
  have htarget := target_some hl
  have hnull : Function.update h.arrays l.array none 0 = none := by
    by_cases hzero : 0 = l.array
    · rw [hzero, Function.update_self]
    · rw [Function.update_of_ne hzero]
      exact hap.null
  refine hap.assigned ⟨hnull, ?_, fun hne => absurd rfl hne, fun hne => absurd rfl hne⟩ hnull
    (iff_of_true (.inr ?_) trivial)
  · exact fun c hc _ => Function.update_of_ne (htarget ▸ hc) _ _
  · rw [htarget, Function.update_self]

/-- A list moved to a fresh array, and the old one freed, as `krealloc` does
it. -/
theorem Apart.move (hap : h.Apart) (hl : h.lists p = some l) (hzero : a ≠ 0)
    (hfresh : h.arrays a = none) (hne : a ≠ l.array) (length capacity : ℕ) (b : Block UInt8) :
    Turns h ⟨Function.update h.lists p (some ⟨length, capacity, a⟩),
        Function.update (Function.update h.arrays a (some b)) l.array none⟩ p
      (some ⟨length, capacity, some b⟩) True := by
  have htarget := target_some hl
  have hself : Function.update (Function.update h.arrays a (some b)) l.array none a = some b := by
    rw [Function.update_of_ne hne, Function.update_self]
  refine hap.assigned ⟨?_, ?_, ?_, ?_⟩ hself (iff_of_true (.inr ?_) trivial)
  · by_cases hl0 : 0 = l.array
    · rw [hl0, Function.update_self]
    · rw [Function.update_of_ne hl0, Function.update_of_ne hzero.symm]
      exact hap.null
  · intro c hc hca
    rw [Function.update_of_ne (htarget ▸ hc), Function.update_of_ne hca]
  · exact fun _ => Option.isSome_iff_exists.mpr ⟨b, hself⟩
  · exact fun _ _ => hfresh
  · rw [htarget, Function.update_self]

theorem kfree_some (hzero : a ≠ 0) (hb : h.arrays a = some b) :
    h.kfree a = .ok { h with arrays := Function.update h.arrays a none } := by
  unfold kfree
  rw [if_neg hzero, hb]

/-- **A reallocation** is one of the list's block, and loses the block when
there is none to move to: the pointer is overwritten with the null pointer
`krealloc` returns. -/
theorem Apart.recapacitate_follows (hap : h.Apart) (hv : h.view p = some list)
    (hfresh : Fresh mem h) (n : ℕ) :
    Follows h p (¬Loses mem list n) (h.recapacitate mem p n)
      (.ok ⟨list.length, n, CourseOs.krealloc 1 (mem.map Prod.snd) list.array n⟩) := by
  obtain ⟨l, hl, rfl⟩ := view_eq_some.mp hv
  have htarget := target_some hl
  have hload : h.recapacitate mem p n = h.krealloc mem l.array n >>= fun r =>
      .ok (r.1.store p ⟨l.length, n, r.2⟩) := by
    unfold recapacitate
    rw [load_some hl]
    rfl
  rw [hload]
  show Follows h p (¬Loses mem ⟨l.length, l.capacity, h.arrays l.array⟩ n) _
    (.ok ⟨l.length, n, CourseOs.krealloc 1 (mem.map Prod.snd) (h.arrays l.array) n⟩)
  unfold krealloc
  by_cases hzero : l.array = 0
  · have hnull : h.arrays l.array = none := by
      rw [hzero]
      exact hap.null
    rw [if_pos hzero, hnull]
    refine ⟨_, rfl, (hap.fresh (htarget.trans hzero) hfresh l.length n).congr ?_⟩
    exact iff_of_true trivial fun hloses => nomatch hloses.choose_spec.1
  · obtain ⟨old, hold⟩ := Option.isSome_iff_exists.mp (htarget ▸ hap.live p (htarget ▸ hzero))
    have hloses : Loses mem ⟨l.length, l.capacity, some old⟩ n ↔ old.size < n ∧ mem = none :=
      ⟨fun ⟨b, hb, h⟩ => Option.some.inj hb ▸ h, fun h => ⟨old, rfl, h⟩⟩
    rw [if_neg hzero, hold]
    dsimp only
    by_cases hn : n = 0
    · subst hn
      rw [if_pos rfl, kfree_some hzero hold]
      refine ⟨_, rfl, (hap.freed hl l.length 0).congr ?_⟩
      exact iff_of_true trivial fun hlost => Nat.not_lt_zero _ (hloses.mp hlost).1
    · rw [if_neg hn]
      by_cases hle : n ≤ old.size
      · rw [if_pos hle, show CourseOs.krealloc 1 (mem.map Prod.snd) (some old) n = some old from
          (if_neg hn).trans (if_pos hle)]
        refine ⟨_, rfl, ((hold ▸ hap.keep hl l.length n).congr ?_)⟩
        exact iff_of_true trivial fun hlost => absurd hle (Nat.not_le.mpr (hloses.mp hlost).1)
      · have hmoved : CourseOs.krealloc 1 (mem.map Prod.snd) (some old) n = _ :=
          (if_neg hn).trans (if_neg hle)
        rw [if_neg hle, hmoved]
        cases mem with
        | none =>
            refine ⟨_, rfl, (hap.clear p l.length n).congr ?_⟩
            rw [htarget, hold]
            exact iff_of_false nofun fun hkept => hkept (hloses.mpr ⟨Nat.not_le.mp hle, rfl⟩)
        | some answer =>
            obtain ⟨a, new⟩ := answer
            obtain ⟨ha, hnone⟩ := hfresh a new rfl
            have hne : a ≠ l.array := by
              rintro rfl
              rw [hold] at hnone
              cases hnone
            have hmove := hap.move hl ha hnone hne l.length n
              { new with
                cell := fun i => if 1 * (i + 1) ≤ old.size then old.cell i else new.cell i }
            refine ⟨_, ?_, hmove.congr (iff_of_true trivial fun hlost => ?_)⟩
            · have hstill : Function.update h.arrays a (some { new with
                  cell := fun i => if i + 1 ≤ old.size then old.cell i else new.cell i })
                  l.array = some old := by
                rw [Function.update_of_ne hne.symm]
                exact hold
              unfold kmalloc
              dsimp only
              rw [kfree_some hzero hstill]
              simp only [Nat.one_mul]
              rfl
            · cases (hloses.mp hlost).2

end ListHeap

end CourseOs
