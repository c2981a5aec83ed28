import Mathlib.Data.List.Nodup
import Mathlib.Data.List.Infix

/-!
# Linked lists threaded through a store

A store gives every node a successor (`next`) and a predecessor (`prev`); the
null pointer is `0`.  The predicates say which list of nodes a head pointer
reaches.  They describe the store and do not change it: a program that writes
a pointer has a new `next` or `prev`, and a law says which list is reached
then.

## Main definitions

* `Segment next hd xs tl` — following `next` from `hd` visits exactly `xs` and
  arrives at `tl`;
* `Chain next hd xs` — the segment ends in null;
* `BackLinked prev p xs` — the predecessors run backwards through `xs`, the
  first one being `p`;
* `DList next prev hd xs` — a doubly linked list whose head has a null
  predecessor;
* `LooseList next prev hd xs` — the same, but nothing is known about the
  predecessor of the head, as in code that does not keep it up to date.

## Main results

The update laws (`DList.push`, `DList.pop`, `DList.remove`,
`LooseList.insert`, `LooseList.unlink`) are stated pointwise: they ask only
what the new `next` and `prev` are at the nodes of the list, so they apply to
whatever store the program writes to, and to several lists in one store.

Most of them ask that the list has no node twice.  A null-terminated list
never has, but users know it from elsewhere, usually because the nodes of
several lists are told apart at the same time.
-/

namespace LinkedList

variable {α : Type*} [Zero α]
variable {next prev next' prev' : α → α} {hd tl p e : α} {xs ys l r : List α}

/-- Following `next` from `hd` visits `xs` in order and ends at `tl`.  None of
the nodes visited is null. -/
def Segment (next : α → α) : α → List α → α → Prop
  | hd, [], tl => hd = tl
  | hd, x :: xs, tl => hd = x ∧ x ≠ 0 ∧ Segment next (next x) xs tl

/-- The null-terminated list reached from `hd`. -/
def Chain (next : α → α) (hd : α) (xs : List α) : Prop := Segment next hd xs 0

/-- The predecessors along `xs`, starting from `p`. -/
def BackLinked (prev : α → α) : α → List α → Prop
  | _, [] => True
  | p, x :: xs => prev x = p ∧ BackLinked prev x xs

@[simp] theorem segment_nil : Segment next hd [] tl ↔ hd = tl := Iff.rfl

@[simp] theorem segment_cons {x : α} :
    Segment next hd (x :: xs) tl ↔ hd = x ∧ x ≠ 0 ∧ Segment next (next x) xs tl := Iff.rfl

@[simp] theorem chain_nil : Chain next hd [] ↔ hd = 0 := Iff.rfl

@[simp] theorem chain_cons {x : α} :
    Chain next hd (x :: xs) ↔ hd = x ∧ x ≠ 0 ∧ Chain next (next x) xs := Iff.rfl

omit [Zero α] in
@[simp] theorem backLinked_nil : BackLinked prev p [] := trivial

omit [Zero α] in
@[simp] theorem backLinked_cons {x : α} :
    BackLinked prev p (x :: xs) ↔ prev x = p ∧ BackLinked prev x xs := Iff.rfl

/-! ### Segments

A segment leads from one node to another, and lists are put together from
segments when they are cut in the middle. -/

theorem segment_append : ∀ {l : List α} {hd : α},
    Segment next hd (l ++ r) tl ↔ ∃ mid, Segment next hd l mid ∧ Segment next mid r tl
  | [], hd => by simp
  | x :: l, hd => by
      simp only [List.cons_append, segment_cons, segment_append (l := l)]
      constructor
      · rintro ⟨rfl, hx, mid, h, h'⟩
        exact ⟨mid, ⟨rfl, hx, h⟩, h'⟩
      · rintro ⟨mid, ⟨rfl, hx, h⟩, h'⟩
        exact ⟨rfl, hx, mid, h, h'⟩

omit [Zero α] in
theorem backLinked_append : ∀ {l : List α} {p : α},
    BackLinked prev p (l ++ r) ↔ BackLinked prev p l ∧ BackLinked prev (l.getLastD p) r
  | [], p => by simp
  | x :: l, p => by
      simp only [List.cons_append, backLinked_cons, backLinked_append (l := l),
        List.getLastD_cons, and_assoc]

/-- A segment only depends on the successors of its own nodes; whatever else
is written leaves it. -/
theorem Segment.congr : ∀ {xs : List α} {hd : α}, Segment next hd xs tl →
    (∀ x ∈ xs, next' x = next x) → Segment next' hd xs tl
  | [], _, h, _ => h
  | x :: xs, _, ⟨hhd, hx, h⟩, hn => by
      refine ⟨hhd, hx, ?_⟩
      rw [hn x List.mem_cons_self]
      exact h.congr fun y hy => hn y (List.mem_cons_of_mem x hy)

omit [Zero α] in
theorem BackLinked.congr : ∀ {xs : List α} {p : α}, BackLinked prev p xs →
    (∀ x ∈ xs, prev' x = prev x) → BackLinked prev' p xs
  | [], _, _, _ => trivial
  | x :: _, _, ⟨hx, h⟩, hp =>
      ⟨(hp x List.mem_cons_self).trans hx, h.congr fun y hy => hp y (List.mem_cons_of_mem x hy)⟩

theorem Segment.ne_zero : ∀ {xs : List α} {hd : α}, Segment next hd xs tl →
    ∀ x ∈ xs, x ≠ 0
  | [], _, _, _, hx => by cases hx
  | y :: ys, _, ⟨_, hy, h⟩, x, hx => by
      rcases List.mem_cons.mp hx with rfl | hx
      · exact hy
      · exact h.ne_zero x hx

/-- The list a head pointer reaches is determined by the store, so two
descriptions of one list are the same description. -/
theorem Chain.unique : ∀ {xs ys : List α} {hd : α}, Chain next hd xs → Chain next hd ys →
    xs = ys
  | [], [], _, _, _ => rfl
  | [], y :: ys, _, h, ⟨h1, h2, _⟩ => absurd (h1.symm.trans h) h2
  | x :: xs, [], _, ⟨h1, h2, _⟩, h => absurd (h1.symm.trans h) h2
  | x :: xs, y :: ys, _, ⟨hx, _, h⟩, ⟨hy, _, h'⟩ => by
      obtain rfl : x = y := hx.symm.trans hy
      rw [Chain.unique h h']

theorem Chain.head_eq (h : Chain next hd xs) : hd = xs.headD 0 := by
  cases xs with
  | nil => exact h
  | cons x xs => exact h.1

theorem Chain.eq_nil_iff (h : Chain next hd xs) : hd = 0 ↔ xs = [] := by
  cases xs with
  | nil => simpa using h
  | cons x xs =>
      obtain ⟨rfl, hx, -⟩ := h
      simp [hx]

/-! ### Doubly linked lists

The laws of pushing, popping and unlinking.  An operation changes the links of
at most three nodes, and what is known of all others comes from the nodes of a
list being different. -/

/-- A null-terminated doubly linked list whose head has a null predecessor. -/
structure DList (next prev : α → α) (hd : α) (xs : List α) : Prop where
  chain : Chain next hd xs
  back : BackLinked prev 0 xs

namespace DList

@[simp] theorem nil_iff : DList next prev hd [] ↔ hd = 0 :=
  ⟨fun h => h.chain, fun h => ⟨h, trivial⟩⟩

theorem congr (h : DList next prev hd xs) (hn : ∀ x ∈ xs, next' x = next x)
    (hp : ∀ x ∈ xs, prev' x = prev x) : DList next' prev' hd xs :=
  ⟨Segment.congr h.chain hn, h.back.congr hp⟩

theorem ne_zero (h : DList next prev hd xs) {x : α} (hx : x ∈ xs) : x ≠ 0 :=
  Segment.ne_zero h.chain x hx

/-- What a node in the middle of the list points to. -/
theorem middle (h : DList next prev hd (l ++ e :: r)) :
    next e = r.headD 0 ∧ prev e = l.getLastD 0 := by
  obtain ⟨mid, -, hmid⟩ := segment_append.mp h.chain
  exact ⟨Chain.head_eq hmid.2.2, (backLinked_append.mp h.back).2.1⟩

/-- A successor is null or a node of the list. -/
theorem next_mem (h : DList next prev hd xs) (he : e ∈ xs) : next e = 0 ∨ next e ∈ xs := by
  obtain ⟨l, r, rfl⟩ := List.append_of_mem he
  rw [h.middle.1]
  cases r with
  | nil => exact Or.inl rfl
  | cons y r => exact Or.inr (by simp)

/-- A predecessor is null or a node of the list. -/
theorem prev_mem (h : DList next prev hd xs) (he : e ∈ xs) : prev e = 0 ∨ prev e ∈ xs := by
  obtain ⟨l, r, rfl⟩ := List.append_of_mem he
  rw [h.middle.2]
  rcases List.eq_nil_or_concat' l with rfl | ⟨l, y, rfl⟩
  · exact Or.inl rfl
  · exact Or.inr (by simp)

/-- Put a fresh node in front.  Its own pointers are set, and the predecessor
of the node that was first; no other pointer of the list changes. -/
theorem push [DecidableEq α] (h : DList next prev hd xs) (hnd : xs.Nodup) (he : e ≠ 0)
    (hen : next' e = hd) (hep : prev' e = 0) (hn : ∀ x ∈ xs, next' x = next x)
    (hp : ∀ x ∈ xs, prev' x = if x = hd then e else prev x) :
    DList next' prev' e (e :: xs) := by
  refine ⟨⟨rfl, he, ?_⟩, hep, ?_⟩
  · rw [hen]
    exact Segment.congr h.chain hn
  · cases xs with
    | nil => trivial
    | cons y ys =>
        obtain ⟨rfl, -, -⟩ := h.chain
        refine ⟨by simpa using hp hd List.mem_cons_self, h.back.2.congr fun x hx => ?_⟩
        have hne : x ≠ hd := fun heq => (List.nodup_cons.mp hnd).1 (heq ▸ hx)
        rw [hp x (List.mem_cons_of_mem _ hx), if_neg hne]

/-- Drop the first node.  The predecessor of the node behind it becomes null,
and the node itself may be used for something else. -/
theorem pop [DecidableEq α] {x : α} (h : DList next prev hd (x :: xs)) (hnd : xs.Nodup)
    (hn : ∀ y ∈ xs, next' y = next y)
    (hp : ∀ y ∈ xs, prev' y = if y = next x then 0 else prev y) :
    DList next' prev' (next x) xs := by
  obtain ⟨-, -, hchain⟩ := h.chain
  refine ⟨Segment.congr hchain hn, ?_⟩
  cases xs with
  | nil => trivial
  | cons y ys =>
      have hy : next x = y := hchain.1
      refine ⟨by simp [hp y List.mem_cons_self, hy], h.back.2.2.congr fun z hz => ?_⟩
      have hne : z ≠ next x := fun heq => (List.nodup_cons.mp hnd).1 (hy ▸ heq ▸ hz)
      rw [hp z (List.mem_cons_of_mem _ hz), if_neg hne]

/-- Unlinking `e` leaves the successors running through the other nodes.  The
head moves if `e` was the first. -/
theorem chain_unlink [DecidableEq α] (h : DList next prev hd (l ++ e :: r))
    (hnd : (l ++ e :: r).Nodup)
    (hn : ∀ y ∈ l ++ r, next' y = if y = prev e then next e else next y) :
    Chain next' (if prev e = 0 then next e else hd) (l ++ r) := by
  have hnodup := List.nodup_append.mp hnd
  obtain ⟨mid, hseg, rfl, -, hr⟩ := segment_append.mp h.chain
  have hprev : prev mid = l.getLastD 0 := h.middle.2
  have hchain : Segment next' (next mid) r 0 := Segment.congr hr fun z hz => by
    have hne : z ≠ prev mid := by
      rw [hprev]
      rcases List.eq_nil_or_concat' l with rfl | ⟨l, y, rfl⟩
      · exact Segment.ne_zero hr z hz
      · exact fun heq => hnodup.2.2 y (by simp) z (by simp [hz]) (by simpa using heq.symm)
    rw [hn z (by simp [hz]), if_neg hne]
  rcases List.eq_nil_or_concat' l with rfl | ⟨l, y, rfl⟩
  · have h0 : prev mid = 0 := by simpa using hprev
    rw [if_pos h0]
    exact hchain
  · obtain ⟨w, hsegl, rfl, hw0, hwn⟩ := segment_append.mp hseg
    have hw : prev mid = w := by simpa using hprev
    rw [if_neg (hw ▸ hw0)]
    refine segment_append.mpr ⟨next mid, segment_append.mpr ⟨w, ?_, rfl, hw0, ?_⟩, hchain⟩
    · refine Segment.congr hsegl fun z hz => ?_
      have hzw : z ≠ prev mid := by
        rw [hw]
        exact (List.nodup_append.mp hnodup.1).2.2 z hz w (by simp)
      rw [hn z (by simp [hz]), if_neg hzw]
    · rw [segment_nil, hn w (by simp), if_pos hw.symm]

/-- Unlinking `e` leaves the predecessors running back through the other
nodes, to null. -/
theorem backLinked_unlink [DecidableEq α] (h : DList next prev hd (l ++ e :: r))
    (hnd : (l ++ e :: r).Nodup)
    (hp : ∀ y ∈ l ++ r, prev' y = if y = next e then prev e else prev y) :
    BackLinked prev' 0 (l ++ r) := by
  have hnodup := List.nodup_append.mp hnd
  obtain ⟨hback, -, hbackr⟩ := backLinked_append.mp h.back
  obtain ⟨hnext, hprev⟩ := h.middle
  refine backLinked_append.mpr ⟨hback.congr fun z hz => ?_, ?_⟩
  · have hne : z ≠ next e := by
      rw [hnext]
      cases r with
      | nil => exact h.ne_zero (by simp [hz])
      | cons y r => exact hnodup.2.2 z hz y (by simp)
    rw [hp z (by simp [hz]), if_neg hne]
  · -- the first node behind `e` now skips back over it
    cases r with
    | nil => trivial
    | cons y r =>
        have hy : next e = y := hnext
        refine ⟨by rw [hp y (by simp), if_pos hy.symm, hprev], hbackr.2.congr fun z hz => ?_⟩
        have hne : z ≠ next e := by
          rw [hy]
          rintro rfl
          exact (List.nodup_cons.mp (List.nodup_cons.mp hnodup.2.1).2).1 hz
        rw [hp z (by simp [hz]), if_neg hne]

/-- Unlink a node from anywhere in the list: the successor of its predecessor
and the predecessor of its successor are set, and the head when it was the
first. -/
theorem remove [DecidableEq α] (h : DList next prev hd xs) (hnd : xs.Nodup) (he : e ∈ xs)
    (hn : ∀ y ∈ xs, y ≠ e → next' y = if y = prev e then next e else next y)
    (hp : ∀ y ∈ xs, y ≠ e → prev' y = if y = next e then prev e else prev y) :
    DList next' prev' (if prev e = 0 then next e else hd) (xs.erase e) := by
  obtain ⟨l, r, rfl⟩ := List.append_of_mem he
  have hnodup := List.nodup_append.mp hnd
  have hel : e ∉ l := fun hl => hnodup.2.2 e hl e List.mem_cons_self rfl
  have her : e ∉ r := (List.nodup_cons.mp hnodup.2.1).1
  have hmem : ∀ y ∈ l ++ r, y ∈ l ++ e :: r ∧ y ≠ e := by
    intro y hy
    rcases List.mem_append.mp hy with hy | hy
    · exact ⟨by simp [hy], fun heq => hel (heq ▸ hy)⟩
    · exact ⟨by simp [hy], fun heq => her (heq ▸ hy)⟩
  rw [List.erase_append_right _ hel, List.erase_cons_head]
  exact ⟨chain_unlink h hnd fun y hy => hn y (hmem y hy).1 (hmem y hy).2,
    backLinked_unlink h hnd fun y hy => hp y (hmem y hy).1 (hmem y hy).2⟩

end DList

/-! ### Lists whose first back pointer is stale

A routine that drops the head of a list without a look at its successor leaves
a back pointer to a node that is gone.  As long as nobody follows it the list
is as good as any. -/

/-- A null-terminated list with back pointers, except that the `prev` of its
first node is not kept up to date.  A program that only uses `prev` of nodes
that are not first needs no more. -/
structure LooseList (next prev : α → α) (hd : α) (xs : List α) : Prop where
  chain : Chain next hd xs
  back : BackLinked prev (xs.headD 0) xs.tail

namespace LooseList

/-- The list only depends on the pointers of its own nodes. -/
theorem congr (h : LooseList next prev hd xs) (hn : ∀ x ∈ xs, next' x = next x)
    (hp : ∀ x ∈ xs, prev' x = prev x) : LooseList next' prev' hd xs :=
  ⟨Segment.congr h.chain hn, h.back.congr fun x hx => hp x (List.mem_of_mem_tail hx)⟩

theorem ne_zero (h : LooseList next prev hd xs) {x : α} (hx : x ∈ xs) : x ≠ 0 :=
  Segment.ne_zero h.chain x hx

/-- The back pointers behind the first node, cut after a node `w`. -/
theorem tail_append {w : α} : BackLinked prev ((l ++ [w] ++ r).headD 0) (l ++ [w] ++ r).tail ↔
    BackLinked prev ((l ++ [w]).headD 0) (l ++ [w]).tail ∧ BackLinked prev w r := by
  cases l with
  | nil => simp
  | cons x l => simp [backLinked_append, and_assoc]

/-- A node that is not the first knows its neighbours. -/
theorem middle {y : α} (h : LooseList next prev hd (l ++ y :: e :: r)) :
    next e = r.headD 0 ∧ prev e = y ∧ next y = e := by
  obtain ⟨mid, -, -, -, hmid⟩ := segment_append.mp h.chain
  refine ⟨Chain.head_eq hmid.2.2, ?_, hmid.1⟩
  have hback := h.back
  cases l with
  | nil => exact hback.1
  | cons x l => exact (backLinked_append.mp hback).2.2.1

/-- Insert the fresh node `e` between `l` and `r`, either of which may be
empty.  The hypotheses say for each node what has been written to it. -/
theorem insert [DecidableEq α] (h : LooseList next prev hd (l ++ r)) (hnd : (l ++ r).Nodup)
    (he : e ≠ 0) (hen : next' e = r.headD 0)
    (hn : ∀ x ∈ l ++ r, next' x = if l ≠ [] ∧ x = l.getLastD 0 then e else next x)
    (hep : l ≠ [] → prev' e = l.getLastD 0)
    (hp : ∀ x ∈ l ++ r, prev' x = if x = r.headD 0 then e else prev x) :
    LooseList next' prev' (if l = [] then e else hd) (l ++ e :: r) := by
  have hnodup := List.nodup_append.mp hnd
  obtain ⟨mid, hsegl, hsegr⟩ := segment_append.mp h.chain
  have hmid : mid = r.headD 0 := Chain.head_eq hsegr
  -- nodes behind `e` keep their successor, and only the first of them a new predecessor
  have hchain : Segment next' (next' e) r 0 := by
    rw [hen, ← hmid]
    refine Segment.congr hsegr fun z hz => ?_
    rw [hn z (by simp [hz]), if_neg]
    rintro ⟨hl, rfl⟩
    rcases List.eq_nil_or_concat' l with rfl | ⟨l, y, rfl⟩
    · exact hl rfl
    · exact hnodup.2.2 y (by simp) y (by simpa using hz) rfl
  have hbackr : ∀ p, BackLinked prev p r → BackLinked prev' e r := by
    intro p hpr
    cases r with
    | nil => trivial
    | cons y r =>
        refine ⟨by rw [hp y (by simp)]; simp, hpr.2.congr fun z hz => ?_⟩
        rw [hp z (by simp [hz]), if_neg]
        rintro rfl
        exact (List.nodup_cons.mp hnodup.2.1).1 hz
  have hkeep : ∀ z ∈ l, prev' z = prev z := by
    intro z hz
    rw [hp z (by simp [hz]), if_neg]
    rintro rfl
    cases r with
    | nil => exact h.ne_zero (by simpa using hz) rfl
    | cons y r => exact hnodup.2.2 y (by simpa using hz) y (by simp) rfl
  rcases List.eq_nil_or_concat' l with rfl | ⟨l, y, rfl⟩
  · rw [if_pos rfl]
    refine ⟨⟨rfl, he, hchain⟩, ?_⟩
    cases r with
    | nil => trivial
    | cons y r => exact hbackr (prev y) ⟨rfl, h.back⟩
  · rw [if_neg (by simp)]
    have hlast : (l ++ [y]).getLastD 0 = y := by simp
    obtain ⟨w, hsegw, rfl, hw0, hwn⟩ := segment_append.mp hsegl
    refine ⟨segment_append.mpr ⟨e, segment_append.mpr ⟨w, ?_, rfl, hw0, ?_⟩, rfl, he, hchain⟩, ?_⟩
    · refine Segment.congr hsegw fun z hz => ?_
      rw [hn z (by simp [hz]), if_neg]
      rintro ⟨-, rfl⟩
      rw [hlast] at hz
      exact (List.nodup_append.mp hnodup.1).2.2 w hz w (by simp) rfl
    · rw [segment_nil, hn w (by simp), if_pos ⟨by simp, hlast.symm⟩]
    · have hback := h.back
      rw [tail_append] at hback ⊢
      refine ⟨hback.1.congr fun z hz => hkeep z (List.mem_of_mem_tail hz), ?_, hbackr w hback.2⟩
      rw [hep (by simp), hlast]

/-- Unlink the node `e` between `l` and `r`, either of which may be empty.
What is asked of the new links is what a client would write: the one before
`e`, or the head, leads to the one behind it, and back. -/
theorem unlink [DecidableEq α] (h : LooseList next prev hd (l ++ e :: r))
    (hnd : (l ++ e :: r).Nodup)
    (hn : ∀ x ∈ l ++ r, next' x = if l ≠ [] ∧ x = l.getLastD 0 then r.headD 0 else next x)
    (hp : ∀ x ∈ l ++ r, prev' x = if l ≠ [] ∧ x = r.headD 0 then l.getLastD 0 else prev x) :
    LooseList next' prev' (if l = [] then r.headD 0 else hd) (l ++ r) := by
  have hnodup := List.nodup_append.mp hnd
  obtain ⟨mid, hsegl, rfl, -, hsegr⟩ := segment_append.mp h.chain
  have hmid : next mid = r.headD 0 := Chain.head_eq hsegr
  have hchain : Segment next' (next mid) r 0 := by
    refine Segment.congr hsegr fun z hz => ?_
    rw [hn z (by simp [hz]), if_neg]
    rintro ⟨hl, rfl⟩
    rcases List.eq_nil_or_concat' l with rfl | ⟨l, y, rfl⟩
    · exact hl rfl
    · exact hnodup.2.2 y (by simp) y (by simp only [List.getLastD_concat] at hz; simp [hz]) rfl
  rcases List.eq_nil_or_concat' l with rfl | ⟨l, y, rfl⟩
  · rw [if_pos rfl, ← hmid]
    refine ⟨hchain, ?_⟩
    cases r with
    | nil => trivial
    | cons y r =>
        refine h.back.2.congr fun z hz => ?_
        rw [hp z (by simpa using Or.inr hz), if_neg (by simp)]
  · rw [if_neg (by simp)]
    have hlast : (l ++ [y]).getLastD 0 = y := by simp
    obtain ⟨w, hsegw, rfl, hw0, hwn⟩ := segment_append.mp hsegl
    refine ⟨segment_append.mpr ⟨next mid, segment_append.mpr ⟨w, ?_, rfl, hw0, ?_⟩, hchain⟩, ?_⟩
    · refine Segment.congr hsegw fun z hz => ?_
      rw [hn z (by simp [hz]), if_neg]
      rintro ⟨-, rfl⟩
      rw [hlast] at hz
      exact (List.nodup_append.mp hnodup.1).2.2 w hz w (by simp) rfl
    · rw [segment_nil, hn w (by simp), if_pos ⟨by simp, hlast.symm⟩, hmid]
    · have hback := h.back
      rw [tail_append] at hback ⊢
      refine ⟨hback.1.congr fun z hz => ?_, ?_⟩
      · have hzl : z ∈ l ++ [w] := List.mem_of_mem_tail hz
        rw [hp z (List.mem_append_left r hzl), if_neg]
        rintro ⟨-, rfl⟩
        cases r with
        | nil => exact h.ne_zero (List.mem_append_left _ hzl) rfl
        | cons y r => exact hnodup.2.2 y hzl y (by simp) rfl
      · cases r with
        | nil => trivial
        | cons y r =>
            refine ⟨by rw [hp y (by simp), if_pos ⟨by simp, rfl⟩, hlast],
              hback.2.2.2.congr fun z hz => ?_⟩
            rw [hp z (by simp [hz]), if_neg]
            rintro ⟨-, rfl⟩
            exact (List.nodup_cons.mp (List.nodup_cons.mp hnodup.2.1).2).1 hz

end LooseList

end LinkedList
