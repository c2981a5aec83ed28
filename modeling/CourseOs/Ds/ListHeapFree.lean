import CourseOs.Ds.ListHeapOps

/-!
# Byte lists and paths that are freed

`u8a_free` frees the array of a list that has a capacity.  A list without a
capacity may have an array all the same: `kmalloc(0)` returns one, to
`u8a_create(0)`, to a clone of an empty list, and to a resize of a list that
has lost its array.  And a resize that finds no memory clears the pointer to
an array that is still allocated.

In any run, and for any of the lists made in it, these are the only ways in
which an array is lost (`u8a_leaks_exact`).  The run need not return: a call
that stops the kernel is the last one, and loses nothing that counts
(`keeps_of_stop`).

`Sane` is the invariant: lists do not share arrays, and each is within the
array it has (`U8ArrayList.Fit`).  It does not ask that allocations succeed,
so a list may be without its array.  `Leaves` is what a call makes of the
heap: sane again, and without a lost array exactly when there was none and the
call meets `U8aOp.Keeps`.
-/

namespace CourseOs

namespace ListHeap

variable {h h' h'' : ListHeap} {p q a i n k : ℕ} {l : ListHeader} {b : Block UInt8}
  {list list' arr : U8ArrayList} {mem : Option (Block UInt8)} {x : UInt8} {data : List UInt8}

/-! ### Lists within their blocks

What the calls ask of `kmalloc`, and the condition under which they lose
nothing, both stated on the state before the call.  The invariant `Sane` holds
in every run, also in those that lose arrays. -/

theorem fit_copyAll (h : list.Fit) (hle : list.length + k ≤ list.capacity)
    (hok : copyAll arr k i list = .ok list') : list'.Fit := by
  induction k generalizing list i with
  | zero =>
      cases hok
      exact h
  | succ k ih =>
      obtain ⟨b, -, hok⟩ := Exec.bind_eq_ok.mp hok
      obtain ⟨list₁, hstore, hrest⟩ := Exec.bind_eq_ok.mp hok
      obtain ⟨h₁, hlength, hcapacity⟩ := h.store (by omega) hstore
      exact ih h₁ (by omega) hrest

/-- A string is only pushed when no array is lost. -/
theorem pushString_keeps {answer : ArrayAnswer} (h : list.Fit)
    (hok : CourseOs.u8aPushString (answer.map Prod.snd) list data = .ok list') :
    ¬Loses answer list ((list.length + data.length) % 2 ^ 32) := by
  intro hloses
  have hnone : (CourseOs.u8aResize (answer.map Prod.snd) list
      ((list.length + data.length) % 2 ^ 32)).array = none := hloses.krealloc_eq
  obtain ⟨rfl, -⟩ := U8ArrayList.storeAll_none hnone hok
  obtain ⟨b, hb, hlt, -⟩ := hloses
  have hblock := h.block b hb
  have hle := h.length_le
  rw [List.length_nil, Nat.add_zero, Nat.mod_eq_of_lt (by omega)] at hlt
  omega

/-- What `kmalloc` returns for `n` bytes is not allocated, and of that size at
least. -/
def Answers (mem : ArrayAnswer) (h : ListHeap) (n : ℕ) : Prop :=
  Fresh mem h ∧ Grants (mem.map Prod.snd) n

/-- What `kmalloc` returns for a list is not allocated. -/
def NewList (head : Option ℕ) (h : ListHeap) : Prop := ∀ p, head = some p → h.lists p = none

end ListHeap

open ListHeap

namespace U8aOp

/-- The bytes that the call asks for, if it does, for the array of the list
`l`.  A call that asks for none has 0 here. -/
def request : U8aOp → ListHeader → ℕ
  | create _ _ initialCap, _ => initialCap
  | push _ _ _, l => U8ArrayList.pushRequest l.capacity
  | pushString _ _ data, l => (l.length + data.length) % 2 ^ 32
  | pop _ _, l => l.capacity / 2
  | resize _ _ newSize, _ => newSize
  | clone _ _ _, l => l.length
  | _, _ => 0

/-- What `kmalloc` returns, in the state in which it is called: a list or an
array that is not allocated, of the size asked for at least. -/
def Answered : U8aOp → ListHeap → Prop
  | create head mem initialCap, h => NewList head h ∧ Answers mem h initialCap
  | op@(push mem p _), h | op@(pushString mem p _), h | op@(pop mem p), h
  | op@(resize mem p _), h => ∀ l, h.lists p = some l → Answers mem h (op.request l)
  | op@(clone head mem p), h => NewList head h ∧
      ∀ l, h.lists p = some l → Answers mem h (op.request l)
  | pathFromString head mem mem' str, h => NewList head h ∧ Answers mem h 1 ∧
      ∀ h' p, ListHeap.u8aCreate head mem h 1 = .ok (h', p) → Answers mem' h' (str.length % 2 ^ 32)
  | _, _ => True

/-- No array is lost: a list that is freed without a capacity has none, and a
resize that has to move an array finds the memory for it. -/
def Keeps : U8aOp → ListHeap → Prop
  | free p, h => ∀ l, h.lists p = some l → l.capacity = 0 → l.array = 0
  | resize mem p newSize, h => ∀ l b, h.lists p = some l → h.arrays l.array = some b →
      b.size < newSize → mem ≠ none
  | _, _ => True

end U8aOp

variable {op : U8aOp} {out : U8aOutput} {o : Option U8ArrayList} {kept : Prop}
  {h h' : ListHeap} {p q n : ℕ} {l : ListHeader} {list list' : U8ArrayList}

/-- Every list has an array of its own, or none, and is within it.  This holds
in every state of every run. -/
structure ListHeap.Sane (h : ListHeap) : Prop where
  apart : h.Apart
  fit : ∀ p list, h.view p = some list → list.Fit

namespace ListHeap

theorem Sane.turns (hs : h.Sane) (ht : Turns h h' p o kept)
    (hfit : ∀ list', o = some list' → list'.Fit) : h'.Sane where
  apart := ht.apart
  fit q list hq := by
    by_cases hqp : q = p
    · subst hqp
      exact hfit list (ht.view_self.symm.trans hq)
    · exact hs.fit q list ((ht.view_ne hqp).symm.trans hq)

theorem sane_empty : empty.Sane :=
  ⟨⟨rfl, fun _ hne => absurd rfl hne, fun _ _ _ hne => absurd rfl hne⟩, nofun⟩

/-- What a call makes of the heap: it loses no array exactly if `kept`. -/
def Leaves (h h' : ListHeap) (kept : Prop) : Prop := h'.Sane ∧ (h'.Tight ↔ h.Tight ∧ kept)

theorem Sane.leaves (hs : h.Sane) (ht : Turns h h' p o kept)
    (hfit : ∀ list', o = some list' → list'.Fit) : Leaves h h' kept :=
  ⟨hs.turns ht hfit, ht.tight⟩

theorem Sane.leaves_follows {r : Exec ListHeap} {r' : Exec U8ArrayList} (hs : h.Sane)
    (hr : Follows h p kept r r') (hrun : r = .ok h')
    (hfit : ∀ list', r' = .ok list' → list'.Fit) : Leaves h h' kept := by
  obtain ⟨list', hok, ht⟩ := hr.of_ok hrun
  refine hs.leaves ht ?_
  rintro _ ⟨⟩
  exact hfit list' hok

theorem Sane.same (hs : h.Sane) : Leaves h h True := ⟨hs, (and_iff_left trivial).symm⟩

end ListHeap

namespace U8aOp

/-- The list that a call is made on.  The two calls that make a list have
none. -/
def subject : U8aOp → Option ℕ
  | free p | get p _ | set p _ _ | push _ p _ | pushString _ p _ | pop _ p | resize _ p _
  | clone _ _ p => some p
  | create _ _ _ | pathFromString _ _ _ _ => none

/-- A list that is not there stops the kernel. -/
theorem result_of_no_list (hsubject : op.subject = some p) (hp : h.lists p = none) :
    op.result h = .error .dangling := by
  have hload := load_none hp
  cases op <;> cases hsubject <;>
    simp only [result, run, u8aFree, u8aGet, ListHeap.u8aSet, ListHeap.u8aPush,
      ListHeap.u8aPushString, ListHeap.u8aPop, ListHeap.u8aResize, recapacitate, ListHeap.u8aClone,
      Logged.result_bind, Logged.result_quiet, hload, Exec.error_bind]

/-! ### Each call

One lemma for each call: it loses no array exactly under the condition.  For
most of them there is nothing to lose; the two that matter are `u8a_free` and
`u8a_resize`.  A push that would lose an array does not return, as its store
comes to the null pointer. -/

theorem create_leaves {head : Option ℕ} {mem : ArrayAnswer} (hs : h.Sane)
    (hop : (create head mem n).Answered h) (hrun : (create head mem n).result h = .ok (h', out)) :
    Leaves h h' True := by
  obtain ⟨hnew, hfresh, hgrants⟩ := hop
  obtain ⟨⟨h₁, p⟩, hcreate, hret⟩ := Exec.bind_eq_ok.mp hrun
  cases hret
  cases head with
  | none => cases hcreate
  | some p =>
      obtain ⟨h₂, hcreate', ht⟩ := hs.apart.create_turns (hnew p rfl) hfresh n
      cases hcreate.symm.trans hcreate'
      refine hs.leaves ht ?_
      rintro _ ⟨⟩
      exact .of_create hgrants

theorem free_leaves (hs : h.Sane) (hl : h.lists p = some l)
    (hrun : (free p).result h = .ok (h', out)) : Leaves h h' ((free p).Keeps h) := by
  obtain ⟨h₁, hfree, hret⟩ := Exec.bind_eq_ok.mp hrun
  cases hret
  obtain ⟨h₂, hfree', ht⟩ := hs.apart.free_turns (view_of_lists hl)
  cases hfree.symm.trans hfree'
  refine hs.leaves (ht.congr ?_) nofun
  show (l.capacity = 0 → h.arrays l.array = none) ↔ _
  rw [hs.apart.array_eq_none_iff hl]
  constructor
  · intro himp l' hl'
    cases hl.symm.trans hl'
    exact himp
  · exact fun hkeeps => hkeeps l hl

theorem set_leaves {data : UInt8} {index : ℕ} (hs : h.Sane) (hl : h.lists p = some l)
    (hrun : (set p index data).result h = .ok (h', out)) : Leaves h h' True := by
  obtain ⟨h₁, hset, hret⟩ := Exec.bind_eq_ok.mp hrun
  cases hret
  have hv := view_of_lists hl
  refine hs.leaves_follows (hs.apart.set_follows hv index data) hset fun list' hok => ?_
  obtain ⟨b, hb, hret⟩ := Exec.bind_eq_ok.mp hok
  cases hret
  have hfit := hs.fit p _ hv
  refine ⟨hfit.length_le, hfit.length_lt, ?_⟩
  rintro _ ⟨⟩
  exact hfit.block b (byteAt_ok hb).1

theorem push_leaves {mem : ArrayAnswer} {data : UInt8} (hs : h.Sane) (hl : h.lists p = some l)
    (hop : (push mem p data).Answered h) (hrun : (push mem p data).result h = .ok (h', out)) :
    Leaves h h' True := by
  obtain ⟨hfresh, hgrants⟩ := hop l hl
  obtain ⟨h₁, hpush, hrest⟩ := Exec.bind_eq_ok.mp hrun
  obtain ⟨l', -, hret⟩ := Exec.bind_eq_ok.mp hrest
  cases hret
  have hv := view_of_lists hl
  exact hs.leaves_follows (hs.apart.push_follows hv hfresh data) hpush
    fun list' hok => (hs.fit p _ hv).push hgrants hok

theorem pushString_leaves {mem : ArrayAnswer} {data : List UInt8} (hs : h.Sane)
    (hv : h.view p = some list) (hfresh : Fresh mem h)
    (hgrants : Grants (mem.map Prod.snd) ((list.length + data.length) % 2 ^ 32))
    (hrun : (h.u8aPushString mem p data).result = .ok h') : Leaves h h' True := by
  have hfit := hs.fit p _ hv
  refine hs.leaves_follows ((hs.apart.pushString_follows hv hfresh data).congr fun list' hok =>
    iff_of_true (pushString_keeps hfit hok) trivial) hrun fun list' hok => ?_
  exact hfit.pushString hgrants hok

/-- A pop leaves everything as it was but the list it pops from, whose array
shrinks or stays. -/
theorem pop_leaves {mem : ArrayAnswer} (hs : h.Sane) (hl : h.lists p = some l)
    (hop : (pop mem p).Answered h) (hrun : (pop mem p).result h = .ok (h', out)) :
    Leaves h h' True := by
  obtain ⟨hfresh, -⟩ := hop l hl
  obtain ⟨⟨h₁, x⟩, hpop, hret⟩ := Exec.bind_eq_ok.mp hrun
  cases hret
  have hv := view_of_lists hl
  have hfit := hs.fit p _ hv
  by_cases hzero : l.length = 0
  · rw [pop_empty hv hzero] at hpop
    cases hpop
    exact hs.same
  · cases harray : h.arrays l.array with
    | none => cases (hs.apart.pop_none hv hzero harray).symm.trans hpop
    | some b =>
        obtain ⟨hcap, hsize⟩ := hfit.block b harray
        obtain ⟨h₂, capacity, hpop', ht, hle, hle'⟩ :=
          hs.apart.pop_some hv hfresh hzero harray hfit.length_le hcap
        cases hpop.symm.trans hpop'
        refine hs.leaves ht ?_
        rintro _ ⟨⟩
        refine ⟨hle, Nat.lt_of_le_of_lt (Nat.sub_le _ _) hfit.length_lt, ?_⟩
        rintro _ ⟨⟩
        exact ⟨Nat.le_trans hle' hcap, hsize⟩

theorem resize_leaves {mem : ArrayAnswer} (hs : h.Sane) (hl : h.lists p = some l)
    (hop : (resize mem p n).Answered h) (hrun : (resize mem p n).result h = .ok (h', out)) :
    Leaves h h' ((resize mem p n).Keeps h) := by
  obtain ⟨hfresh, hgrants⟩ := hop l hl
  obtain ⟨h₁, hresize, hret⟩ := Exec.bind_eq_ok.mp hrun
  cases hret
  have hv := view_of_lists hl
  refine hs.leaves_follows ((hs.apart.resize_follows hv hfresh n).congr fun _ _ => ?_) hresize ?_
  · constructor
    · rintro hkept l' b hl' hb hlt rfl
      cases hl.symm.trans hl'
      exact hkept ⟨b, hb, hlt, rfl⟩
    · rintro hkeeps ⟨b, hb, hlt, hnone⟩
      exact hkeeps l b hl hb hlt hnone
  · rintro _ ⟨⟩
    exact (hs.fit p _ hv).resize hgrants

theorem clone_leaves {head : Option ℕ} {mem : ArrayAnswer} (hs : h.Sane) (hl : h.lists p = some l)
    (hop : (clone head mem p).Answered h) (hrun : (clone head mem p).result h = .ok (h', out)) :
    Leaves h h' True := by
  obtain ⟨hnew, hmem⟩ := hop
  obtain ⟨hfresh, hgrants⟩ := hmem l hl
  obtain ⟨⟨h₁, q⟩, hclone, hret⟩ := Exec.bind_eq_ok.mp hrun
  cases hret
  have hv := view_of_lists hl
  cases head with
  | none =>
      unfold ListHeap.u8aClone at hclone
      rw [Logged.result_bind, Logged.result_quiet, load_some hl] at hclone
      cases hclone
  | some q =>
      obtain ⟨r, hr, hfollows⟩ := hs.apart.clone_follows hv (hnew q rfl) hfresh
      obtain ⟨h₂, hcopy, hret⟩ := Exec.bind_eq_ok.mp (hr.symm.trans hclone)
      cases hret
      refine hs.leaves_follows hfollows hcopy fun list' hok => ?_
      exact fit_copyAll (.of_create hgrants) (Nat.le_of_eq (Nat.zero_add _)) hok

theorem pathFromString_leaves {head : Option ℕ} {mem mem' : ArrayAnswer} {str : List UInt8}
    (hs : h.Sane) (hop : (pathFromString head mem mem' str).Answered h)
    (hrun : (pathFromString head mem mem' str).result h = .ok (h', out)) : Leaves h h' True := by
  obtain ⟨hnew, ⟨hfresh, hgrants⟩, hmem'⟩ := hop
  obtain ⟨⟨h₁, p⟩, hpath, hret⟩ := Exec.bind_eq_ok.mp hrun
  cases hret
  obtain ⟨⟨h₂, p'⟩, hcreate, hrest⟩ := Exec.bind_eq_ok.mp hpath
  obtain ⟨h₃, hpush, hret⟩ := Exec.bind_eq_ok.mp hrest
  cases hret
  obtain ⟨hfresh', hgrants'⟩ := hmem' h₂ p hcreate
  cases head with
  | none => cases hcreate
  | some p =>
      obtain ⟨h₂', hcreate', ht⟩ := hs.apart.create_turns (hnew p rfl) hfresh 1
      cases hcreate.symm.trans hcreate'
      have hs₂ := hs.turns ht (by rintro _ ⟨⟩; exact .of_create hgrants)
      obtain ⟨hs₃, htight⟩ := pushString_leaves hs₂ ht.view_self hfresh'
        (by rw [show (u8aCreate (mem.map Prod.snd) 1).length = 0 from rfl, Nat.zero_add]
            exact hgrants') hpush
      exact ⟨hs₃, htight.trans (by rw [ht.tight, and_true])⟩

/-- **A call** loses no array exactly if it meets the condition.  One case for
each call, with what it does from `CourseOs.Ds.ListHeapOps`. -/
theorem leaves (hs : h.Sane) (hop : op.Answered h) (hrun : op.result h = .ok (h', out)) :
    Leaves h h' (op.Keeps h) := by
  have hlist : ∀ p, op.subject = some p → ∃ l, h.lists p = some l := fun p hp => by
    cases hl : h.lists p with
    | none => cases (result_of_no_list hp hl).symm.trans hrun
    | some l => exact ⟨l, rfl⟩
  cases op with
  | create head mem initialCap => exact create_leaves hs hop hrun
  | free p =>
      obtain ⟨l, hl⟩ := hlist p rfl
      exact free_leaves hs hl hrun
  | get p index =>
      obtain ⟨x, -, hret⟩ := Exec.bind_eq_ok.mp hrun
      cases hret
      exact hs.same
  | set p index data =>
      obtain ⟨l, hl⟩ := hlist p rfl
      exact set_leaves hs hl hrun
  | push mem p data =>
      obtain ⟨l, hl⟩ := hlist p rfl
      exact push_leaves hs hl hop hrun
  | pushString mem p data =>
      obtain ⟨l, hl⟩ := hlist p rfl
      obtain ⟨hfresh, hgrants⟩ := hop l hl
      obtain ⟨h₁, hpush, hrest⟩ := Exec.bind_eq_ok.mp hrun
      obtain ⟨l', -, hret⟩ := Exec.bind_eq_ok.mp hrest
      cases hret
      exact pushString_leaves hs (view_of_lists hl) hfresh hgrants hpush
  | pop mem p =>
      obtain ⟨l, hl⟩ := hlist p rfl
      exact pop_leaves hs hl hop hrun
  | resize mem p newSize =>
      obtain ⟨l, hl⟩ := hlist p rfl
      exact resize_leaves hs hl hop hrun
  | clone head mem p =>
      obtain ⟨l, hl⟩ := hlist p rfl
      exact clone_leaves hs hl hop hrun
  | pathFromString head mem mem' str => exact pathFromString_leaves hs hop hrun

/-- A call that stops the kernel loses no array. -/
theorem keeps_of_stop (hs : h.Sane) (hop : op.Answered h) (hstop : ∀ r, op.result h ≠ .ok r) :
    op.Keeps h := by
  cases op with
  | free p =>
      intro l hl
      obtain ⟨h', hfree, -⟩ := hs.apart.free_turns (view_of_lists hl)
      refine absurd ?_ (hstop (h', .done))
      show h.u8aFree p >>= _ = _
      rw [hfree]
      rfl
  | resize mem p newSize =>
      intro l b hl
      obtain ⟨h', hresize, -⟩ := hs.apart.resize_follows (view_of_lists hl) (hop l hl).1 newSize
      refine absurd ?_ (hstop (h', .done))
      show h.u8aResize mem p newSize >>= _ = _
      rw [hresize]
      rfl
  | create | get | set | push | pushString | pop | clone | pathFromString => trivial

end U8aOp

/-! ### Runs

An array that is lost stays lost, since no later call has a pointer to it.  So
a run has lost nothing in any state exactly if none of its calls has. -/

/-- A `u8a_free` returns, and leaves of the list neither itself nor the array
it frees. -/
theorem ListHeap.Apart.free_eq (hap : h.Apart) (hl : h.lists p = some l) :
    h.u8aFree p = .ok ⟨Function.update h.lists p none,
      if l.capacity = 0 then h.arrays else Function.update h.arrays l.array none⟩ := by
  unfold u8aFree freeArray
  rw [load_some hl, Exec.ok_bind]
  by_cases hcap : l.capacity = 0
  · rw [if_pos hcap, if_pos hcap]
    rfl
  · rw [if_neg hcap, if_neg hcap]
    by_cases hzero : l.array = 0
    · have hnull : Function.update h.arrays l.array none = h.arrays := by
        rw [← (hap.array_eq_none_iff hl).mpr hzero, Function.update_eq_self]
      rw [show h.kfree l.array = .ok h from if_pos hzero, hnull]
      rfl
    · cases hb : h.arrays l.array with
      | none => exact absurd ((hap.array_eq_none_iff hl).mp hb) hzero
      | some b =>
          rw [kfree_some hzero hb]
          rfl

/-- **No array is lost** in any run of calls on lists and paths, each array
allocated being that of a list not yet freed, in every state exactly when each
list that is freed without a capacity has no array, and each resize that has
to move an array finds the memory for it.  And in each state that is reached,
whatever the run, each list can be freed: its array, if it has a capacity, and
the list are then gone, and nothing else. -/
theorem u8a_leaks_exact (ops : List U8aOp)
    (hops : Calls.Each U8aOp.result U8aOp.Answered ops ListHeap.empty) :
    (Calls.States U8aOp.result ListHeap.Tight ops ListHeap.empty ↔
      Calls.Each U8aOp.result U8aOp.Keeps ops ListHeap.empty) ∧
    ∀ h outs, Calls.run U8aOp.result ops ListHeap.empty = .ok (h, outs) →
      ∀ p l, h.lists p = some l →
        (l.array ≠ 0 → (h.arrays l.array).isSome) ∧
        h.u8aFree p = .ok ⟨Function.update h.lists p none,
          if l.capacity = 0 then h.arrays else Function.update h.arrays l.array none⟩ := by
  constructor
  · refine Calls.states_iff_each (I := ListHeap.Sane) (fun op h h' out hs htight hop hrun => ?_)
      (fun op h hs _ hop hstop => op.keeps_of_stop hs hop hstop) sane_empty nofun hops
    obtain ⟨hs', hiff⟩ := op.leaves hs hop hrun
    exact ⟨hs', hiff.trans (and_iff_right htight)⟩
  · intro h outs hrun p l hl
    have hs : h.Sane := Calls.preserved
      (fun op h h' out hs hop hrun => (op.leaves hs hop hrun).1) sane_empty hops hrun
    refine ⟨fun hzero => ?_, hs.apart.free_eq hl⟩
    have hlive := hs.apart.live p (target_some hl ▸ hzero)
    rwa [target_some hl] at hlive

/-- The run theorem, of a list of two bytes that is freed. -/
theorem u8a_leaks_exact_freed :
    Calls.States U8aOp.result ListHeap.Tight [.create (some 8) (some (16, ⟨2, fun _ => 0⟩)) 2,
      .set 8 0 7, .free 8] ListHeap.empty := by
  refine (u8a_leaks_exact _ ?_).1.mpr ?_
  · refine ⟨⟨fun _ _ => rfl, ?_, ?_⟩, ?_⟩
    · rintro a b ⟨⟩
      exact ⟨by decide, rfl⟩
    · rintro b ⟨⟩
      exact ⟨by decide, by decide⟩
    · rintro h₁ out ⟨⟩
      exact ⟨trivial, fun _ _ _ => ⟨trivial, fun _ _ _ => trivial⟩⟩
  · refine ⟨trivial, ?_⟩
    rintro h₁ out ⟨⟩
    refine ⟨trivial, ?_⟩
    rintro h₂ out ⟨⟩
    refine ⟨?_, fun _ _ _ => trivial⟩
    rintro l ⟨⟩ hcap
    cases hcap

/-- **An array that is lost.**  A list is created without a capacity, and
freed: its array is still allocated, and no list has it.  So it is with the
clone of an empty list. -/
theorem u8aFree_leaks :
    (∃ h outs, Calls.run U8aOp.result [.create (some 8) (some (16, ⟨8, fun _ => 0⟩)) 0, .free 8]
        ListHeap.empty = .ok (h, outs) ∧
      h.lists 8 = none ∧ (h.arrays 16).isSome ∧ ¬h.Tight) ∧
    ∃ h outs, Calls.run U8aOp.result [.create (some 8) (some (16, ⟨8, fun _ => 0⟩)) 4,
        .clone (some 24) (some (32, ⟨8, fun _ => 0⟩)) 8, .free 24, .free 8]
        ListHeap.empty = .ok (h, outs) ∧
      h.lists 24 = none ∧ (h.arrays 32).isSome := by
  refine ⟨⟨_, _, rfl, rfl, rfl, fun htight => ?_⟩, _, _, rfl, rfl, rfl⟩
  obtain ⟨p, hp⟩ := htight 16 rfl
  by_cases hp8 : p = 8
  · subst hp8
    cases hp
  · change pointer (Function.update (Function.update (fun _ => none) 8
      (some (⟨0, 0, 16⟩ : ListHeader))) 8 none p) = 16 at hp
    rw [Function.update_of_ne hp8, Function.update_of_ne hp8] at hp
    cases hp

end CourseOs
