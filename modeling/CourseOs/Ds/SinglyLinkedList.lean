import CourseOs.Lib.Calls
import CourseOs.Lib.OwnedList
import CourseOs.Machine
import Mathlib.Data.List.Range
import Mathlib.Data.List.Perm.Subperm

/-!
# Singly linked lists

`ds/vp_singly_linked_list.c`.  The links are blocks of the heap, given by
their addresses; the address of a new one is an argument of the push that asks
for it.  A list of links is a path in the memory from `head` to the null
pointer, `OwnedList.Linked`, and the blocks that are allocated are the links
of the path and those of `lost`, `OwnedList.Owned`.

Each call is right on the contents: it does what `VpsllOp.reference` does on
the list of the elements (`vpsll_step`), and so does a run (`vpsll_run`).
Each is right on the blocks too, except for one.  `vpsll_remove` frees the
link it takes out unless it is the first one, and then nothing points to that
link any more.  `vpsll_exact` has it that the blocks held are the links of the
list, and are all freed by `vpsll_free`, exactly when no removal has matched
the first element.

The comparison of `vpsll_remove` and `vpsll_contains` is a function the caller
gives, and is any function here.
-/

namespace CourseOs

open OwnedList

/-- `VPSinglyLinkedListLink`: the address of the next link, and the element. -/
abbrev VPSinglyLinkedListLink := Cell ℕ ℕ

/-- `VPSinglyLinkedList`, with the blocks that are allocated for links.  A
link that is lost is allocated, and not reached from `head`. -/
structure VPSinglyLinkedList where
  head : ℕ
  length : ℕ
  links : ℕ → Option VPSinglyLinkedListLink

/-- `vpsll_create`: no link and no length. -/
def vpsllCreate : VPSinglyLinkedList := ⟨0, 0, fun _ => none⟩

namespace VPSinglyLinkedList

/-- `*p`, for a link.  Null and a link that has been freed stop the kernel. -/
def link (lst : VPSinglyLinkedList) (p : ℕ) : Exec VPSinglyLinkedListLink :=
  if p = 0 then .error .nullDereference
  else match lst.links p with
    | some l => .ok l
    | none => .error .dangling

/-- The link at `p` becomes `l`, or is freed. -/
def put (lst : VPSinglyLinkedList) (p : ℕ) (l : Option VPSinglyLinkedListLink) :
    VPSinglyLinkedList :=
  { lst with links := Function.update lst.links p l }

end VPSinglyLinkedList

/-- `vpsll_push`, with the link at `node`.  That there was memory for it is
not asked, so that a null `node` stops the kernel. -/
def vpsllPush (node : ℕ) (lst : VPSinglyLinkedList) (data : ℕ) : Exec VPSinglyLinkedList :=
  if node = 0 then .error .nullDereference
  else .ok ⟨node, (lst.length + 1) % 2 ^ 32,
    Function.update lst.links node (some ⟨lst.head, data⟩)⟩

/-- `vpsll_pop`.  The link is freed and its element returned; an empty list
stops the kernel, as its head is followed. -/
def vpsllPop (lst : VPSinglyLinkedList) : Exec (VPSinglyLinkedList × ℕ) := do
  let oldhead ← lst.link lst.head
  .ok (⟨oldhead.next, sub32 lst.length 1, Function.update lst.links lst.head none⟩, oldhead.data)

/-- `VPSLL_FOREACH` up to the first item that passes a test: the link before
it and its own.  The macro counts nothing; a list that is not linked in a
circle has fewer links than the turns allowed. -/
def vpsllForeach (lst : VPSinglyLinkedList) (test : ℕ → Bool) : ℕ → ℕ → ℕ →
    Exec (Option (ℕ × ℕ))
  | 0, _, _ => .error .diverged
  | fuel + 1, prev, i =>
      if i = 0 then .ok none
      else do
        let l ← lst.link i
        if test l.data then .ok (some (prev, i)) else vpsllForeach lst test fuel i l.next

/-- `vpsll_remove`: the first element that the comparison accepts is taken
out.  Its link is freed where there is a link before it. -/
def vpsllRemove (lst : VPSinglyLinkedList) (data : ℕ) (compf : ℕ → ℕ → Bool) :
    Exec (VPSinglyLinkedList × ℕ) := do
  let found ← vpsllForeach lst (fun x => compf x data) (lst.length + 1) 0 lst.head
  match found with
  | none => .ok (lst, 0)
  | some (prev, i) => do
      let l ← lst.link i
      if prev = 0 then .ok ({ lst with head := l.next, length := sub32 lst.length 1 }, l.data)
      else do
        let p ← lst.link prev
        let lst := (lst.put prev (some { p with next := l.next })).put i none
        .ok ({ lst with length := sub32 lst.length 1 }, l.data)

/-- The loop of `__link_at_index`: null where the list is too short. -/
def linkAtIndexLoop (lst : VPSinglyLinkedList) : ℕ → ℕ → ℕ → Exec ℕ
  | 0, _, _ => .error .diverged
  | fuel + 1, i, index =>
      if i = 0 then .ok 0
      else if index = 0 then .ok i
      else do
        let l ← lst.link i
        linkAtIndexLoop lst fuel l.next (index - 1)

/-- `__link_at_index`, which lets the length itself pass as an index and then
runs off the list to the null pointer. -/
def linkAtIndex (lst : VPSinglyLinkedList) (index : ℕ) : Exec ℕ :=
  if lst.length < index then .ok 0 else linkAtIndexLoop lst (lst.length + 1) lst.head index

/-- `vpsll_get`.  An index past the end leads to the null pointer, which is
followed. -/
def vpsllGet (lst : VPSinglyLinkedList) (index : ℕ) : Exec ℕ := do
  let p ← linkAtIndex lst index
  let l ← lst.link p
  .ok l.data

/-- `vpsll_set`, which returns the element that was there.  An index past the
end changes nothing and returns null. -/
def vpsllSet (lst : VPSinglyLinkedList) (index value : ℕ) : Exec (VPSinglyLinkedList × ℕ) := do
  let p ← linkAtIndex lst index
  if p = 0 then .ok (lst, 0)
  else do
    let l ← lst.link p
    .ok (lst.put p (some { l with data := value }), l.data)

/-- `vpsll_contains`: whether the comparison accepts an element, tried from
the first on. -/
def vpsllContains (lst : VPSinglyLinkedList) (value : ℕ) (compf : ℕ → ℕ → Bool) : Exec Bool := do
  let found ← vpsllForeach lst (fun x => compf x value) (lst.length + 1) 0 lst.head
  .ok found.isSome

/-- The loop of `vpsll_free`: the blocks left, and what `freef` is called on.
The successor of a link is read before the link is freed. -/
def vpsllFreeLoop (freef : Bool) : ℕ → (ℕ → Option VPSinglyLinkedListLink) → ℕ →
    Exec ((ℕ → Option VPSinglyLinkedListLink) × List ℕ)
  | 0, _, _ => .error .diverged
  | fuel + 1, links, curr =>
      if curr = 0 then .ok (links, [])
      else match links curr with
        | none => .error .dangling
        | some l => do
            let (links, freed) ← vpsllFreeLoop freef fuel (Function.update links curr none) l.next
            .ok (links, if freef then l.data :: freed else freed)

/-- `vpsll_free`, with or without a function for the data. -/
def vpsllFree (lst : VPSinglyLinkedList) (freef : Bool) :
    Exec ((ℕ → Option VPSinglyLinkedListLink) × List ℕ) :=
  vpsllFreeLoop freef (lst.length + 1) lst.links lst.head

/-- A call on the list.  A push comes with the address of its new link. -/
inductive VpsllOp
  | push (node data : ℕ)
  | pop
  | remove (data : ℕ) (compf : ℕ → ℕ → Bool)
  | set (index value : ℕ)
  | get (index : ℕ)
  | contains (value : ℕ) (compf : ℕ → ℕ → Bool)
  | length

/-- What a call returns.  A null pointer is the element 0. -/
inductive VpsllOutput
  | done
  | data (p : ℕ)
  | bool (b : Bool)
  | size (n : ℕ)
  deriving DecidableEq

namespace VpsllOp

/-- The call.  What it returns is an element, a number, or whether there is
one that the comparison accepts. -/
def run : VpsllOp → VPSinglyLinkedList → Exec (VPSinglyLinkedList × VpsllOutput)
  | push node data, lst => do
      let lst ← vpsllPush node lst data
      .ok (lst, .done)
  | pop, lst => do
      let (lst, x) ← vpsllPop lst
      .ok (lst, .data x)
  | remove data compf, lst => do
      let (lst, x) ← vpsllRemove lst data compf
      .ok (lst, .data x)
  | set index value, lst => do
      let (lst, x) ← vpsllSet lst index value
      .ok (lst, .data x)
  | get index, lst => do
      let x ← vpsllGet lst index
      .ok (lst, .data x)
  | contains value compf, lst => do
      let b ← vpsllContains lst value compf
      .ok (lst, .bool b)
  | length, lst => .ok (lst, .size lst.length)

/-- The call on a list of the elements, first element first.  A push puts its
element in front, and a removal takes out the first one that the comparison
accepts. -/
def reference : VpsllOp → List ℕ → List ℕ × VpsllOutput
  | push _ data, ys => (data :: ys, .done)
  | pop, ys => (ys.tail, .data (ys.headD 0))
  | remove data compf, ys =>
      (ys.eraseP fun x => compf x data, .data ((ys.find? fun x => compf x data).getD 0))
  | set index value, ys => (ys.set index value, .data (ys[index]?.getD 0))
  | get index, ys => (ys, .data (ys[index]?.getD 0))
  | contains value compf, ys => (ys, .bool (ys.any fun x => compf x value))
  | length, ys => (ys, .size ys.length)

/-- When the call may be made: `kmalloc` gives a block that is not in use,
there is an element to pop, and an element at the index to get. -/
def Allowed : VpsllOp → VPSinglyLinkedList → Prop
  | push node _, lst => node ≠ 0 ∧ node < 2 ^ 32 ∧ lst.links node = none
  | pop, lst => lst.length ≠ 0
  | get index, lst => index < lst.length
  | _, _ => True

/-- The call removes the first element by a comparison.  This is the case in
which `vpsll_remove` forgets the link. -/
def RemovesHead : VpsllOp → List ℕ → Prop
  | remove data compf, y :: _ => compf y data
  | _, _ => False

end VpsllOp

/-- No call removes the first element by a comparison, of the list as it is
when the call is made. -/
def KeepsHead : List VpsllOp → List ℕ → Prop
  | [], _ => True
  | op :: ops, ys => ¬op.RemovesHead ys ∧ KeepsHead ops (op.reference ys).1

/-! ### Traversals

The loops of the macro and of `__link_at_index` along a path of links that is
known.  A removal needs the link before the one found, and the loop keeps it. -/

variable {lst lst' : VPSinglyLinkedList} {cs l r : List (ℕ × ℕ)} {lost : List ℕ}
  {i prev a x fuel index : ℕ} {test : ℕ → Bool} {ys : List ℕ} {freef : Bool}

theorem VPSinglyLinkedList.link_eq {n : ℕ} (ha : a ≠ 0) (h : lst.links a = some ⟨n, x⟩) :
    lst.link a = .ok ⟨n, x⟩ := by
  unfold VPSinglyLinkedList.link
  rw [if_neg ha, h]

/-- One turn of the loop. -/
theorem vpsllForeach_cons (h : Linked lst.links i ((a, x) :: cs)) (fuel : ℕ) :
    ∃ n, Linked lst.links n cs ∧ vpsllForeach lst test (fuel + 1) prev i =
      if test x then .ok (some (prev, a)) else vpsllForeach lst test fuel a n := by
  obtain ⟨rfl, hne, n, hn, hrest⟩ := h
  refine ⟨n, hrest, ?_⟩
  show (if i = 0 then _ else lst.link i >>= _) = _
  rw [if_neg hne, VPSinglyLinkedList.link_eq hne hn]
  rfl

theorem vpsllForeach_none (h : Linked lst.links i cs) (hfuel : cs.length < fuel)
    (htest : ∀ c ∈ cs, ¬test c.2) : vpsllForeach lst test fuel prev i = .ok none := by
  induction cs generalizing i prev fuel with
  | nil =>
      obtain ⟨fuel, rfl⟩ := Nat.exists_eq_add_one_of_ne_zero (Nat.ne_of_gt hfuel)
      exact if_pos h
  | cons c cs ih =>
      obtain ⟨fuel, rfl⟩ := Nat.exists_eq_add_one_of_ne_zero (Nat.ne_zero_of_lt hfuel)
      obtain ⟨n, hn, hstep⟩ := vpsllForeach_cons (x := c.2) h fuel
      rw [hstep, if_neg (htest c List.mem_cons_self)]
      exact ih hn (Nat.lt_of_succ_lt_succ hfuel) fun d hd => htest d (List.mem_cons_of_mem c hd)

/-- The first item that passes, and the link before it. -/
theorem vpsllForeach_some (h : Linked lst.links i (l ++ (a, x) :: r))
    (hfuel : (l ++ (a, x) :: r).length < fuel) (hl : ∀ c ∈ l, ¬test c.2) (hx : test x) :
    vpsllForeach lst test fuel prev i = .ok (some ((l.map Prod.fst).getLastD prev, a)) := by
  induction l generalizing i prev fuel with
  | nil =>
      obtain ⟨fuel, rfl⟩ := Nat.exists_eq_add_one_of_ne_zero (Nat.ne_zero_of_lt hfuel)
      obtain ⟨n, -, hstep⟩ := vpsllForeach_cons h fuel
      rw [hstep, if_pos hx]
      rfl
  | cons c l ih =>
      obtain ⟨fuel, rfl⟩ := Nat.exists_eq_add_one_of_ne_zero (Nat.ne_zero_of_lt hfuel)
      obtain ⟨n, hn, hstep⟩ := vpsllForeach_cons (x := c.2) h fuel
      rw [hstep, if_neg (hl c List.mem_cons_self), ih hn (Nat.lt_of_succ_lt_succ hfuel)
        fun d hd => hl d (List.mem_cons_of_mem c hd), List.map_cons, List.getLastD_cons]

theorem linkAtIndexLoop_eq (h : Linked lst.links i cs) (hfuel : cs.length < fuel) :
    linkAtIndexLoop lst fuel i index = .ok (((cs.map Prod.fst)[index]?).getD 0) := by
  induction cs generalizing i fuel index with
  | nil =>
      obtain ⟨fuel, rfl⟩ := Nat.exists_eq_add_one_of_ne_zero (Nat.ne_of_gt hfuel)
      exact if_pos h
  | cons c cs ih =>
      obtain ⟨fuel, rfl⟩ := Nat.exists_eq_add_one_of_ne_zero (Nat.ne_zero_of_lt hfuel)
      obtain ⟨rfl, hne, n, hn, hrest⟩ := h
      show (if c.1 = 0 then _ else if index = 0 then _ else lst.link c.1 >>= _) = _
      rw [if_neg hne]
      cases index with
      | zero => rfl
      | succ index =>
          rw [if_neg (Nat.succ_ne_zero index), VPSinglyLinkedList.link_eq hne hn]
          exact ih hrest (Nat.lt_of_succ_lt_succ hfuel)

/-! ### What a list keeps

A list is a path of links from its head together with the set of links that
are allocated.  The links that are allocated and not on the path are lost; a
call may add to these, and none ever takes one away. -/

/-- The list has the elements of `cs` and their number, and owns its links
except for those of `lost`.  Links are at addresses of 32 bits, so their
number is one of 32 bits too. -/
structure VPSinglyLinkedList.Inv (lst : VPSinglyLinkedList) (cs : List (ℕ × ℕ))
    (lost : List ℕ) : Prop where
  owned : Owned lst.links lst.head cs lost
  length : lst.length = cs.length
  bounded : ∀ p, lst.links p ≠ none → p < 2 ^ 32

/-- There are fewer links than addresses. -/
theorem owned_length_lt {links : ℕ → Option VPSinglyLinkedListLink} {head : ℕ}
    (h : Owned links head cs lost) (hbounded : ∀ p, links p ≠ none → p < 2 ^ 32) :
    cs.length < 2 ^ 32 := by
  have hmem : ∀ p ∈ cs.map Prod.fst, p ≠ 0 ∧ links p ≠ none := by
    intro p hp
    obtain ⟨c, hc, rfl⟩ := List.mem_map.mp hp
    exact ⟨(h.linked.cell hc).1, (h.live c.1).mpr (List.mem_append_left _ hp)⟩
  have hnodup : (0 :: cs.map Prod.fst).Nodup :=
    List.nodup_cons.mpr ⟨fun h0 => (hmem 0 h0).1 rfl, (List.nodup_append.mp h.nodup).1⟩
  have hsub : 0 :: cs.map Prod.fst ⊆ List.range (2 ^ 32) := by
    intro p hp
    rw [List.mem_range]
    rcases List.mem_cons.mp hp with rfl | hp
    · decide
    · exact hbounded p (hmem p hp).2
  have hle := (List.subperm_of_subset hnodup hsub).length_le
  rwa [List.length_cons, List.length_map, List.length_range] at hle

/-- A change of one block keeps the blocks below a bound. -/
theorem forall_block_update {links : ℕ → Option VPSinglyLinkedListLink} {p n : ℕ}
    (h : ∀ q, links q ≠ none → q < n) {v : Option VPSinglyLinkedListLink}
    (hv : v ≠ none → p < n) : ∀ q, Function.update links p v q ≠ none → q < n := by
  intro q hq
  by_cases hqp : q = p
  · rw [hqp, Function.update_self] at hq
    exact hqp ▸ hv hq
  · rw [Function.update_of_ne hqp] at hq
    exact h q hq

namespace VPSinglyLinkedList.Inv

theorem foreach_none (h : lst.Inv cs lost) (htest : ∀ c ∈ cs, ¬test c.2) :
    vpsllForeach lst test (lst.length + 1) 0 lst.head = .ok none :=
  vpsllForeach_none h.owned.linked (h.length ▸ Nat.lt_succ_self _) htest

theorem foreach_some (h : lst.Inv (l ++ (a, x) :: r) lost) (hl : ∀ c ∈ l, ¬test c.2)
    (hx : test x) : vpsllForeach lst test (lst.length + 1) 0 lst.head =
      .ok (some ((l.map Prod.fst).getLastD 0, a)) :=
  vpsllForeach_some h.owned.linked (h.length ▸ Nat.lt_succ_self _) hl hx

theorem linkAtIndex_eq (h : lst.Inv cs lost) (index : ℕ) :
    linkAtIndex lst index = .ok (((cs.map Prod.fst)[index]?).getD 0) := by
  unfold linkAtIndex
  by_cases hlt : lst.length < index
  · rw [if_pos hlt, List.getElem?_eq_none (by rw [List.length_map, ← h.length]; omega)]
    rfl
  · rw [if_neg hlt]
    exact linkAtIndexLoop_eq h.owned.linked (h.length ▸ Nat.lt_succ_self _)

/-- The length after a link has been taken out. -/
theorem sub_length (h : lst.Inv (l ++ (a, x) :: r) lost) :
    sub32 lst.length 1 = (l ++ r).length := by
  have hlt := owned_length_lt h.owned h.bounded
  have hlength := h.length
  rw [List.length_append, List.length_cons] at hlt hlength
  rw [sub32_of_le (by omega) (by omega), List.length_append]
  omega

theorem push (h : lst.Inv cs lost) {node data : ℕ}
    (hnode : (VpsllOp.push node data).Allowed lst) :
    ∃ lst', vpsllPush node lst data = .ok lst' ∧ lst'.Inv ((node, data) :: cs) lost := by
  obtain ⟨hne, hlt, hfree⟩ := hnode
  have howned := h.owned.push (x := data) hne hfree
  have hbounded := forall_block_update (v := some ⟨lst.head, data⟩) h.bounded fun _ => hlt
  have hlength := owned_length_lt howned hbounded
  refine ⟨_, if_neg hne, ⟨howned, ?_, hbounded⟩⟩
  show (lst.length + 1) % 2 ^ 32 = _
  rw [h.length]
  exact Nat.mod_eq_of_lt hlength

theorem pop (h : lst.Inv ((a, x) :: cs) lost) :
    ∃ lst', vpsllPop lst = .ok (lst', x) ∧ lst'.Inv cs lost := by
  obtain ⟨hhd, hne, n, hn, howned⟩ := h.owned.pop
  have hlink : lst.link lst.head = .ok ⟨n, x⟩ := by
    rw [hhd]
    exact link_eq hne hn
  refine ⟨⟨n, sub32 lst.length 1, Function.update lst.links lst.head none⟩, ?_, ?_, ?_, ?_⟩
  · unfold vpsllPop
    rw [hlink]
    rfl
  · exact hhd ▸ howned
  · exact h.sub_length (l := [])
  · exact forall_block_update h.bounded fun hno => absurd rfl hno

/-- `vpsll_remove` of the first element forgets its link. -/
theorem remove_head (h : lst.Inv ((a, x) :: r) lost) {data : ℕ} {compf : ℕ → ℕ → Bool}
    (hx : compf x data) :
    ∃ lst', vpsllRemove lst data compf = .ok (lst', x) ∧ lst'.Inv r (a :: lost) := by
  obtain ⟨-, hne, n, hn, howned⟩ := h.owned.forget
  have hfind : vpsllForeach lst (fun y => compf y data) (lst.length + 1) 0 lst.head = _ :=
    h.foreach_some (l := []) nofun hx
  refine ⟨{ lst with head := n, length := sub32 lst.length 1 }, ?_, howned,
    h.sub_length (l := []), h.bounded⟩
  unfold vpsllRemove
  rw [hfind, Exec.ok_bind]
  show (lst.link a >>= _) = _
  rw [link_eq hne hn]
  rfl

/-- `vpsll_remove` of another element frees its link. -/
theorem remove_inner {p y : ℕ} (h : lst.Inv (l ++ (p, y) :: (a, x) :: r) lost) {data : ℕ}
    {compf : ℕ → ℕ → Bool} (hl : ∀ c ∈ l ++ [(p, y)], ¬compf c.2 data) (hx : compf x data) :
    ∃ lst', vpsllRemove lst data compf = .ok (lst', x) ∧ lst'.Inv (l ++ (p, y) :: r) lost := by
  obtain ⟨hp0, ha0, hpa, hp, n, hn, howned⟩ := h.owned.unlink
  rw [List.append_cons] at h
  have hfind : vpsllForeach lst (fun y => compf y data) (lst.length + 1) 0 lst.head = _ :=
    h.foreach_some hl hx
  rw [List.map_append, List.map_singleton, List.getLastD_concat] at hfind
  refine ⟨{ (lst.put p (some ⟨n, y⟩)).put a none with length := sub32 lst.length 1 }, ?_, howned,
    ?_, ?_⟩
  · unfold vpsllRemove
    rw [hfind, Exec.ok_bind]
    show (lst.link a >>= _) = _
    rw [link_eq ha0 hn, Exec.ok_bind]
    show (if p = 0 then _ else lst.link p >>= _) = _
    rw [if_neg hp0, link_eq hp0 hp]
    rfl
  · have hlength := h.sub_length
    rwa [List.append_assoc] at hlength
  · refine forall_block_update (forall_block_update h.bounded fun _ => ?_) fun hno => absurd rfl hno
    exact h.bounded p (by rw [hp]; exact nofun)

/-- `vpsll_set` of an element that is there. -/
theorem set_of_lt (h : lst.Inv (l ++ (a, x) :: r) lost) (value : ℕ) :
    ∃ lst', vpsllSet lst l.length value = .ok (lst', x) ∧
      lst'.Inv (l ++ (a, value) :: r) lost := by
  obtain ⟨hne, n, hn, howned⟩ := h.owned.set value
  have hindex : linkAtIndex lst l.length = .ok a := by
    rw [h.linkAtIndex_eq, List.map_append, List.getElem?_append_right (by rw [List.length_map]),
      List.length_map, Nat.sub_self]
    rfl
  refine ⟨lst.put a (some ⟨n, value⟩), ?_, howned, ?_, ?_⟩
  · unfold vpsllSet
    rw [hindex, Exec.ok_bind, if_neg hne, link_eq hne hn]
    rfl
  · have hlength := h.length
    rwa [List.length_append, List.length_cons] at hlength ⊢
  · exact forall_block_update h.bounded fun _ => h.bounded a (by rw [hn]; exact nofun)

end VPSinglyLinkedList.Inv

/-! ### Each call

Contents and ownership are proved side by side.  Every call does the right
thing to the elements, whatever is lost; that one of them forgets a link is a
matter of ownership only. -/

/-- The elements before and after an index. -/
theorem exists_append_of_lt (h : index < cs.length) :
    ∃ l a x r, cs = l ++ (a, x) :: r ∧ l.length = index := by
  refine ⟨cs.take index, (cs[index]).1, (cs[index]).2, cs.drop (index + 1), ?_, ?_⟩
  · exact (List.take_append_drop index cs).symm.trans (congrArg _ (List.drop_eq_getElem_cons h))
  · exact List.length_take_of_le (Nat.le_of_lt h)

/-- The call does what it does on the list of the elements, and loses a link
exactly when it removes the first element by a comparison. -/
def VpsllOp.Steps (op : VpsllOp) (lst : VPSinglyLinkedList) (cs : List (ℕ × ℕ))
    (lost : List ℕ) : Prop :=
  ∃ lst' cs' lost', op.run lst = .ok (lst', (op.reference (cs.map Prod.snd)).2) ∧
    lst'.Inv cs' lost' ∧ cs'.map Prod.snd = (op.reference (cs.map Prod.snd)).1 ∧
    (lost' = [] ↔ lost = [] ∧ ¬op.RemovesHead (cs.map Prod.snd))

namespace VPSinglyLinkedList.Inv

variable {data value : ℕ} {compf : ℕ → ℕ → Bool}

/-- A call that loses no link: the links lost before are still the only ones. -/
theorem steps {op : VpsllOp} {lst' : VPSinglyLinkedList} {cs' : List (ℕ × ℕ)}
    (h' : lst'.Inv cs' lost)
    (hrun : op.run lst = .ok (lst', (op.reference (cs.map Prod.snd)).2))
    (hcs : cs'.map Prod.snd = (op.reference (cs.map Prod.snd)).1)
    (hhead : ¬op.RemovesHead (cs.map Prod.snd)) : op.Steps lst cs lost :=
  ⟨lst', cs', lost, hrun, h', hcs, (and_iff_left hhead).symm⟩

/-- Nothing matches. -/
theorem remove_none (h : lst.Inv cs lost) (hnone : ∀ c ∈ cs, ¬compf c.2 data) :
    (VpsllOp.remove data compf).Steps lst cs lost := by
  have hnone' : ∀ y ∈ cs.map Prod.snd, ¬compf y data := by
    intro y hy
    obtain ⟨c, hc, rfl⟩ := List.mem_map.mp hy
    exact hnone c hc
  have href : (VpsllOp.remove data compf).reference (cs.map Prod.snd) =
      (cs.map Prod.snd, .data 0) := by
    show (List.eraseP _ _, VpsllOutput.data (Option.getD (List.find? _ _) 0)) = _
    rw [List.eraseP_of_forall_not hnone', List.find?_eq_none.mpr hnone']
    rfl
  refine h.steps ?_ (by rw [href]) ?_
  · show (vpsllRemove lst data compf >>= _) = _
    unfold vpsllRemove
    have hfind : vpsllForeach lst (fun y => compf y data) (lst.length + 1) 0 lst.head = .ok none :=
      h.foreach_none hnone
    rw [hfind, href]
    rfl
  · cases cs with
    | nil => exact id
    | cons c cs => exact hnone c List.mem_cons_self

/-- The first match is `(a, x)`.  At the head the link is unhooked and not
freed; behind it the link before it is changed, and the one taken out is
freed. -/
theorem remove_some (h : lst.Inv (l ++ (a, x) :: r) lost) (hl : ∀ c ∈ l, ¬compf c.2 data)
    (hx : compf x data) :
    (VpsllOp.remove data compf).Steps lst (l ++ (a, x) :: r) lost := by
  have hl' : ∀ y ∈ l.map Prod.snd, ¬compf y data := by
    intro y hy
    obtain ⟨c, hc, rfl⟩ := List.mem_map.mp hy
    exact hl c hc
  have href : (VpsllOp.remove data compf).reference ((l ++ (a, x) :: r).map Prod.snd) =
      ((l ++ r).map Prod.snd, .data x) := by
    show (List.eraseP _ _, VpsllOutput.data (Option.getD (List.find? _ _) 0)) = _
    rw [List.map_append, List.map_cons, List.eraseP_append_right _ hl',
      List.eraseP_cons_of_pos (p := fun y => compf y data) hx, List.find?_append,
      List.find?_eq_none.mpr hl', List.find?_cons_of_pos (p := fun y => compf y data) hx,
      List.map_append]
    rfl
  rcases List.eq_nil_or_concat' l with rfl | ⟨l, ⟨p, y⟩, rfl⟩
  · obtain ⟨lst', hrun, h'⟩ := h.remove_head hx
    refine ⟨lst', r, a :: lost, ?_, h', by rw [href]; rfl, ?_⟩
    · show (vpsllRemove lst data compf >>= _) = _
      rw [hrun, href]
      rfl
    · exact iff_of_false (List.cons_ne_nil a lost) fun hno => hno.2 hx
  · have hcons : l ++ [(p, y)] ++ (a, x) :: r = l ++ (p, y) :: (a, x) :: r :=
      (List.append_cons l (p, y) _).symm
    obtain ⟨lst', hrun, h'⟩ := remove_inner (hcons ▸ h) hl hx
    refine h'.steps ?_ ?_ ?_
    · show (vpsllRemove lst data compf >>= _) = _
      rw [hrun, href]
      rfl
    · rw [href, List.append_assoc]
      rfl
    · cases l with
      | nil => exact hl _ List.mem_cons_self
      | cons c l => exact hl c List.mem_cons_self

/-- `vpsll_set` replaces what the link at the index holds and returns what it
held, or does nothing where there is no such link. -/
theorem set_steps (h : lst.Inv cs lost) (index value : ℕ) :
    (VpsllOp.set index value).Steps lst cs lost := by
  by_cases hindex : index < cs.length
  · obtain ⟨l, a, x, r, rfl, rfl⟩ := exists_append_of_lt hindex
    obtain ⟨lst', hrun, h'⟩ := h.set_of_lt value
    have href : (VpsllOp.set l.length value).reference ((l ++ (a, x) :: r).map Prod.snd) =
        ((l ++ (a, value) :: r).map Prod.snd, .data x) := by
      show (List.set _ _ _, VpsllOutput.data (Option.getD _ 0)) = _
      rw [List.map_append, List.map_append, List.set_append_right _ _ (by rw [List.length_map]),
        List.getElem?_append_right (by rw [List.length_map]), List.length_map, Nat.sub_self]
      rfl
    refine h'.steps ?_ (by rw [href]) id
    show (vpsllSet lst l.length value >>= _) = _
    rw [hrun, href]
    rfl
  · have href : (VpsllOp.set index value).reference (cs.map Prod.snd) =
        (cs.map Prod.snd, .data 0) := by
      show (List.set _ _ _, VpsllOutput.data (Option.getD _ 0)) = _
      rw [List.set_eq_of_length_le (by rw [List.length_map]; omega),
        List.getElem?_eq_none (by rw [List.length_map]; omega)]
      rfl
    refine h.steps ?_ (by rw [href]) id
    have hnull : linkAtIndex lst index = .ok 0 := by
      rw [h.linkAtIndex_eq, List.getElem?_eq_none (by rw [List.length_map]; omega)]
      rfl
    show (vpsllSet lst index value >>= _) = _
    unfold vpsllSet
    rw [hnull, href]
    rfl

theorem get_steps (h : lst.Inv cs lost) (hindex : index < cs.length) :
    (VpsllOp.get index).Steps lst cs lost := by
  refine h.steps ?_ rfl id
  obtain ⟨l, a, x, r, rfl, rfl⟩ := exists_append_of_lt hindex
  obtain ⟨hne, n, hn⟩ := h.owned.linked.cell (List.mem_append_right l List.mem_cons_self)
  have hlink : linkAtIndex lst l.length = .ok a := by
    rw [h.linkAtIndex_eq, List.map_append, List.getElem?_append_right (by rw [List.length_map]),
      List.length_map, Nat.sub_self]
    rfl
  have hx : ((l ++ (a, x) :: r).map Prod.snd)[l.length]? = some x := by
    rw [List.map_append, List.getElem?_append_right (by rw [List.length_map]), List.length_map,
      Nat.sub_self]
    rfl
  show (vpsllGet lst l.length >>= _) = .ok (lst, VpsllOutput.data (Option.getD _ 0))
  unfold vpsllGet
  rw [hlink, Exec.ok_bind, link_eq hne hn, hx]
  rfl

theorem contains_steps (h : lst.Inv cs lost) (value : ℕ) (compf : ℕ → ℕ → Bool) :
    (VpsllOp.contains value compf).Steps lst cs lost := by
  refine h.steps ?_ rfl id
  have hany : ((cs.map Prod.snd).any fun y => compf y value) =
      (cs.find? fun c => compf c.2 value).isSome := by
    rw [List.any_map, ← List.isSome_find?]
    rfl
  show (vpsllContains lst value compf >>= _) = .ok (lst, VpsllOutput.bool _)
  rw [hany]
  unfold vpsllContains
  cases hfind : cs.find? fun c => compf c.2 value with
  | none =>
      have hnone : vpsllForeach lst (fun y => compf y value) (lst.length + 1) 0 lst.head =
          .ok none := h.foreach_none (List.find?_eq_none.mp hfind)
      rw [hnone]
      rfl
  | some c =>
      obtain ⟨hc, l, r, rfl, hl⟩ := List.find?_eq_some_iff_append.mp hfind
      have hsome : vpsllForeach lst (fun y => compf y value) (lst.length + 1) 0 lst.head = _ :=
        h.foreach_some (fun d hd => by simpa using hl d hd) hc
      rw [hsome]
      rfl

end VPSinglyLinkedList.Inv

/-- **Each call** that may be made does what it does on the list of the
elements, and loses a link exactly when it removes the first one by a
comparison. -/
theorem vpsll_step (h : lst.Inv cs lost) {op : VpsllOp} (hop : op.Allowed lst) :
    op.Steps lst cs lost := by
  cases op with
  | push node data =>
      obtain ⟨lst', hrun, h'⟩ := h.push hop
      refine h'.steps ?_ rfl id
      show (vpsllPush node lst data >>= _) = _
      rw [hrun]
      rfl
  | pop =>
      cases cs with
      | nil => exact absurd h.length hop
      | cons c cs =>
          obtain ⟨lst', hrun, h'⟩ := h.pop
          refine h'.steps ?_ rfl id
          show (vpsllPop lst >>= _) = _
          rw [hrun]
          rfl
  | remove data compf =>
      cases hfind : cs.find? fun c => compf c.2 data with
      | none => exact h.remove_none (List.find?_eq_none.mp hfind)
      | some c =>
          obtain ⟨hc, l, r, rfl, hl⟩ := List.find?_eq_some_iff_append.mp hfind
          exact h.remove_some (fun d hd => by simpa using hl d hd) hc
  | set index value => exact h.set_steps index value
  | get index => exact h.get_steps (Nat.lt_of_lt_of_eq hop h.length)
  | contains value compf => exact h.contains_steps value compf
  | length =>
      refine h.steps ?_ rfl id
      show Except.ok (lst, VpsllOutput.size lst.length) =
        .ok (lst, VpsllOutput.size (cs.map Prod.snd).length)
      rw [h.length, List.length_map]

/-! ### Runs

The elements follow the pure list in every run.  The links are all freed at
the end exactly if no call removed the first element by a comparison. -/

/-- The elements of the list are `ys`, and their number is right. -/
def VPSinglyLinkedList.Holds (lst : VPSinglyLinkedList) (ys : List ℕ) : Prop :=
  ∃ cs, Linked lst.links lst.head cs ∧ cs.map Prod.snd = ys ∧ lst.length = ys.length

/-- The blocks allocated are the links of the list, and `vpsll_free` leaves
none of them. -/
def VPSinglyLinkedList.OwnsItsLinks (lst : VPSinglyLinkedList) : Prop :=
  (∃ cs, Linked lst.links lst.head cs ∧ ∀ p, lst.links p ≠ none ↔ p ∈ cs.map Prod.fst) ∧
    ∀ freef, ∃ links freed, vpsllFree lst freef = .ok (links, freed) ∧ ∀ p, links p = none

theorem vpsllFreeLoop_eq {links : ℕ → Option VPSinglyLinkedListLink}
    (h : Owned links i cs lost) (hfuel : cs.length < fuel) :
    ∃ links', vpsllFreeLoop freef fuel links i =
        .ok (links', if freef then cs.map Prod.snd else []) ∧
      ∀ p, links' p ≠ none ↔ p ∈ lost := by
  induction cs generalizing links i fuel with
  | nil =>
      obtain ⟨fuel, rfl⟩ := Nat.exists_eq_add_one_of_ne_zero (Nat.ne_of_gt hfuel)
      refine ⟨links, ?_, h.live⟩
      show (if i = 0 then _ else _) = _
      rw [if_pos (show i = 0 from h.linked), List.map_nil, ite_self]
  | cons c cs ih =>
      obtain ⟨fuel, rfl⟩ := Nat.exists_eq_add_one_of_ne_zero (Nat.ne_zero_of_lt hfuel)
      obtain ⟨rfl, hne, n, hn, howned⟩ := h.pop (x := c.2)
      obtain ⟨links', hloop, hlive⟩ := ih howned (Nat.lt_of_succ_lt_succ hfuel)
      refine ⟨links', ?_, hlive⟩
      show (if c.1 = 0 then _ else _) = _
      rw [if_neg hne, hn]
      show (vpsllFreeLoop freef fuel (Function.update links c.1 none) n >>= _) = _
      rw [hloop]
      cases freef <;> rfl

/-- **`vpsll_free`** frees every link and calls `freef` on every element, in
order; the links that were lost stay allocated. -/
theorem vpsllFree_eq (h : lst.Inv cs lost) (freef : Bool) :
    ∃ links', vpsllFree lst freef = .ok (links', if freef then cs.map Prod.snd else []) ∧
      ∀ p, links' p ≠ none ↔ p ∈ lost :=
  vpsllFreeLoop_eq h.owned (h.length ▸ Nat.lt_succ_self _)

theorem VPSinglyLinkedList.Inv.ownsItsLinks_iff (h : lst.Inv cs lost) :
    lst.OwnsItsLinks ↔ lost = [] := by
  constructor
  · rintro ⟨⟨cs', hcs', hlive⟩, -⟩
    rw [← h.owned.linked.unique hcs'] at hlive
    exact h.owned.live_iff.mp hlive
  · rintro rfl
    refine ⟨⟨cs, h.owned.linked, h.owned.live_iff.mpr rfl⟩, fun freef => ?_⟩
    obtain ⟨links', hfree, hlive⟩ := vpsllFree_eq h freef
    exact ⟨links', _, hfree, fun p => not_not.mp fun hp => List.not_mem_nil ((hlive p).mp hp)⟩

/-- A run from any list: it has lost no link exactly when it had lost none and
no call of the run loses one.  By induction on the calls, with `vpsll_step`
for each. -/
theorem vpsll_run (h : lst.Inv cs lost) (ops : List VpsllOp)
    (hops : Calls.Each VpsllOp.run VpsllOp.Allowed ops lst) :
    ∃ lst' cs' lost', Calls.run VpsllOp.run ops lst =
        .ok (lst', (Calls.reference VpsllOp.reference ops (cs.map Prod.snd)).2) ∧
      lst'.Inv cs' lost' ∧
      cs'.map Prod.snd = (Calls.reference VpsllOp.reference ops (cs.map Prod.snd)).1 ∧
      (lost' = [] ↔ lost = [] ∧ KeepsHead ops (cs.map Prod.snd)) := by
  induction ops generalizing lst cs lost with
  | nil => exact ⟨lst, cs, lost, rfl, h, rfl, (and_iff_left trivial).symm⟩
  | cons op ops ih =>
      obtain ⟨hop, hrest⟩ := hops
      obtain ⟨lst₁, cs₁, lost₁, hrun, h₁, hcs, hlost⟩ := vpsll_step h hop
      obtain ⟨lst', cs', lost', hrun', h', hcs', hlost'⟩ := ih h₁ (hrest lst₁ _ hrun)
      rw [hcs] at hrun' hcs' hlost'
      refine ⟨lst', cs', lost', Calls.run_cons hrun hrun', h', hcs', ?_⟩
      rw [hlost', hlost, and_assoc]
      rfl

/-- **Over any run** the list has the elements of the pure list and the calls
return what they return on it, and `vpsll_free` is called on those elements;
the blocks held are the links of the list, and all freed by `vpsll_free`,
exactly when no call has removed the first element by a comparison. -/
theorem vpsll_exact (ops : List VpsllOp)
    (hops : Calls.Each VpsllOp.run VpsllOp.Allowed ops vpsllCreate) :
    ∃ lst', Calls.run VpsllOp.run ops vpsllCreate =
        .ok (lst', (Calls.reference VpsllOp.reference ops []).2) ∧
      lst'.Holds (Calls.reference VpsllOp.reference ops []).1 ∧
      (∃ links, vpsllFree lst' true =
        .ok (links, (Calls.reference VpsllOp.reference ops []).1)) ∧
      (lst'.OwnsItsLinks ↔ KeepsHead ops []) := by
  have hempty : vpsllCreate.Inv [] [] :=
    ⟨⟨rfl, List.nodup_nil, fun _ => iff_of_false (fun h => h rfl) List.not_mem_nil⟩, rfl,
      fun _ h => absurd rfl h⟩
  obtain ⟨lst', cs', lost', hrun, h', hcs, hlost⟩ := vpsll_run hempty ops hops
  refine ⟨lst', hrun, ⟨cs', h'.owned.linked, hcs, ?_⟩, ?_, ?_⟩
  · rw [h'.length, ← List.length_map Prod.snd, hcs]
    rfl
  · obtain ⟨links, hfree, -⟩ := vpsllFree_eq h' true
    exact ⟨links, hfree.trans (by rw [if_pos rfl, hcs]; rfl)⟩
  · rw [h'.ownsItsLinks_iff, hlost]
    exact and_iff_right rfl

/-- The run theorem, of two elements and the removal of the second.  There is
a link before it, so that its own is freed. -/
theorem vpsll_exact_inner :
    ∃ lst', Calls.run VpsllOp.run [.push 8 3, .push 16 5, .remove 3 (· == ·)] vpsllCreate =
        .ok (lst', [.done, .done, .data 3]) ∧ lst'.Holds [5] ∧
      (∃ links, vpsllFree lst' true = .ok (links, [5])) ∧
      (lst'.OwnsItsLinks ↔ KeepsHead [.push 8 3, .push 16 5, .remove 3 (· == ·)] []) := by
  refine vpsll_exact [.push 8 3, .push 16 5, .remove 3 (· == ·)] ?_
  refine ⟨⟨by decide, by decide, rfl⟩, ?_⟩
  rintro lst₁ out ⟨⟩
  refine ⟨⟨by decide, by decide, rfl⟩, ?_⟩
  rintro lst₂ out ⟨⟩
  exact ⟨trivial, fun _ _ _ => trivial⟩

/-- One element is pushed and removed.  The list is empty, and its link is
still allocated, also after `vpsll_free`. -/
theorem vpsll_head_lost :
    ∃ lst' links, Calls.run VpsllOp.run [.push 8 3, .remove 3 (· == ·)] vpsllCreate =
        .ok (lst', [.done, .data 3]) ∧ lst'.head = 0 ∧ lst'.links 8 ≠ none ∧
      vpsllFree lst' true = .ok (links, []) ∧ links 8 ≠ none ∧ ¬lst'.OwnsItsLinks := by
  refine ⟨_, _, rfl, rfl, nofun, rfl, nofun, ?_⟩
  rintro ⟨-, hfree⟩
  obtain ⟨links, freed, hrun, hnone⟩ := hfree true
  cases hrun
  cases hnone 8

end CourseOs
