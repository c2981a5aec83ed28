import CourseOs.Allocator.Heap
import CourseOs.Lib.LinkedList
import Mathlib.Data.Finset.Card
import Mathlib.Data.Finset.Range

/-!
# The bins

`BinAt m hd xs sz` says that the bin with head `hd` holds the nodes `xs`,
sorted by `sz`.  The sizes are those the bin was sorted by: `heap_alloc`
shrinks a node while it is still in its bin.  The back pointer of the first
node is stale after `remove_node` has removed the head, so the list is a
`LooseList`.

`add_node` and `remove_node` read and write nothing but the nodes of one bin
and the node they are given, and change only `next` and `prev` words
(`LinkFrame`).  The nodes do not overlap (`NodesApart`), so a bin has fewer
nodes than there are addresses, and the loops over it end.

* `insertLoop_spec`, `reachLoop_spec`, `bestFitLoop_spec` — the three loops,
  by induction on the list they go through;
* `addNode_spec` — a node put in its place, first, last or between two others;
* `removeNode_spec` — a node taken out, wherever it is.
-/

namespace CourseOs.Heap

open ByteMemory LinkedList

variable {m m' m'' : ByteMemory} {n n' v k hd e bin size fuel : ℕ} {f f' : NodeField}
  {xs l r : List ℕ} {sz : ℕ → ℕ} {s : HeapState} {A : ℕ → Prop}

/-! ### Nodes

A list operation writes links of the nodes of one list and nothing else.
`LinkFrame` states this once, for all of them: as it is closed under
composition, the frame of a routine that makes four stores is that of each
store, and whoever needs to know that a header or a payload has kept its bytes
only has to know that it is no link of a node in the set. -/

theorem NodeField.offset_le (f : NodeField) : f.offset + 4 ≤ 16 := by
  cases f <;> decide

theorem NodeField.offset_apart (h : f ≠ f') :
    f.offset + 4 ≤ f'.offset ∨ f'.offset + 4 ≤ f.offset := by
  cases f <;> cases f' <;> first | exact absurd rfl h | decide

/-- The addresses of nodes that do not overlap and lie in the address space. -/
structure NodesApart (A : ℕ → Prop) : Prop where
  disjoint : ∀ a b, A a → A b → a ≠ b → a + 16 ≤ b ∨ b + 16 ≤ a
  bounded : ∀ a, A a → a + 16 ≤ 2 ^ 32

theorem NodesApart.lt (h : NodesApart A) (hn : A n) : n < 2 ^ 32 := by
  have := h.bounded n hn
  omega

theorem node_setNode (h : NodesApart A) (hn : A n) (hn' : A n') :
    node (setNode m n f v) n' f' = if n' = n ∧ f' = f then v % 2 ^ 32 else node m n' f' := by
  have hf := f.offset_le
  have hf' := f'.offset_le
  by_cases heq : n' = n ∧ f' = f
  · rw [if_pos heq, heq.1, heq.2]
    exact readWord_writeWord_self m _ v
  · rw [if_neg heq]
    refine readWord_writeWord_of_disjoint ?_
    by_cases hne : n' = n
    · have hoff := NodeField.offset_apart fun h => heq ⟨hne, h⟩
      omega
    · have := h.disjoint n' n hn' hn hne
      omega

/-- Nothing but `next` and `prev` words of the nodes `A` differs. -/
def LinkFrame (A : ℕ → Prop) (m m' : ByteMemory) : Prop :=
  ∀ x, (∀ a, A a → x < a + 8 ∨ a + 16 ≤ x) → m' x = m x

namespace LinkFrame

theorem refl (A : ℕ → Prop) (m : ByteMemory) : LinkFrame A m m := fun _ _ => rfl

theorem trans (h : LinkFrame A m m') (h' : LinkFrame A m' m'') : LinkFrame A m m'' :=
  fun x hx => (h' x hx).trans (h x hx)

theorem mono {B : ℕ → Prop} (h : LinkFrame A m m') (hAB : ∀ a, A a → B a) : LinkFrame B m m' :=
  fun x hx => h x fun a ha => hx a (hAB a ha)

theorem setNode (hn : A n) (hf : f = .next ∨ f = .prev) :
    LinkFrame A m (setNode m n f v) := by
  intro x hx
  have hxn := hx n hn
  refine writeWord_apply_of_notMem ?_
  rcases hf with rfl | rfl
  · show x < n + 8 ∨ n + 8 + 4 ≤ x
    omega
  · show x < n + 12 ∨ n + 12 + 4 ≤ x
    omega

end LinkFrame

/-! ### Bins

A bin is the linked list of its nodes together with the fact that it is sorted
and without repetitions.  Both are needed at once: `get_best_fit` is only
right on a sorted list, and the loop of `remove_node` only finds its node, and
stops, where no node occurs twice. -/

/-- The bin holds the nodes `xs`, sorted by `sz`, each once.  `sz` is apart
from the memory, so that the size word of a node can be written without the
bin being touched. -/
structure BinAt (m : ByteMemory) (hd : ℕ) (xs : List ℕ) (sz : ℕ → ℕ) : Prop where
  list : LooseList (node m · .next) (node m · .prev) hd xs
  nodup : xs.Nodup
  sorted : xs.Pairwise fun a b => sz a ≤ sz b

namespace BinAt

/-- A bin does not notice changes outside the links of its nodes. -/
theorem congr (h : BinAt m hd xs sz) (hn : ∀ a ∈ xs, node m' a .next = node m a .next)
    (hp : ∀ a ∈ xs, node m' a .prev = node m a .prev) : BinAt m' hd xs sz :=
  ⟨h.list.congr hn hp, h.nodup, h.sorted⟩

/-- A bin has fewer nodes than there are addresses. -/
theorem length_lt (h : BinAt m hd xs sz) (hA : NodesApart A) (hxs : ∀ a ∈ xs, A a) :
    xs.length < maxNodes := by
  have hsub : xs.toFinset ⊆ (Finset.range (2 ^ 32)).erase 0 := by
    intro a ha
    rw [List.mem_toFinset] at ha
    exact Finset.mem_erase.mpr ⟨h.list.ne_zero ha, Finset.mem_range.mpr (hA.lt (hxs a ha))⟩
  have hcard := Finset.card_le_card hsub
  rw [List.toFinset_card_of_nodup h.nodup,
    Finset.card_erase_of_mem (Finset.mem_range.mpr (by decide)), Finset.card_range] at hcard
  unfold maxNodes
  omega

end BinAt

/-! ### The loops

Each loop of `llist.c` is described by the list it runs over.  The fuel plays
no part in these statements: it is more than the nodes that fit in the address
space, and the nodes of a bin are different addresses, so that a search always
ends before it. -/

/-- The search for the place of a node: the list is cut into `l`, which stays
in front, and `r`.  What is in `l` is no larger than the node, and what `r`
starts with is larger. -/
theorem insertLoop_spec (m : ByteMemory) (size : ℕ) : ∀ (r l : List ℕ) (fuel : ℕ), r.length < fuel →
    Chain (node m · .next) (r.headD 0) r → (∀ a ∈ l, node m a .size ≤ size) →
    ∃ l' r', l' ++ r' = l ++ r ∧
      insertLoop m size fuel (r.headD 0) (l.getLastD 0) = .ok (l'.getLastD 0, r'.headD 0) ∧
      (∀ a ∈ l', node m a .size ≤ size) ∧ ∀ a, r'.head? = some a → size < node m a .size := by
  intro r
  induction r with
  | nil =>
      intro l fuel hfuel _ hl
      obtain ⟨fuel, rfl⟩ : ∃ k, fuel = k + 1 := ⟨fuel - 1, by simp at hfuel; omega⟩
      refine ⟨l, [], by simp, ?_, hl, by simp⟩
      simp [insertLoop]
  | cons y r ih =>
      intro l fuel hfuel hchain hl
      obtain ⟨fuel, rfl⟩ : ∃ k, fuel = k + 1 := ⟨fuel - 1, by simp at hfuel; omega⟩
      obtain ⟨-, hy0, hrest⟩ := hchain
      by_cases hle : node m y .size ≤ size
      · have hnext : node m y .next = r.headD 0 := Chain.head_eq hrest
        obtain ⟨l', r', happ, hloop, hl', hr'⟩ := ih (l ++ [y]) fuel
          (by simpa using hfuel) (hnext ▸ hrest) (by
            intro a ha
            rcases List.mem_append.mp ha with ha | ha
            · exact hl a ha
            · rw [List.mem_singleton.mp ha]
              exact hle)
        refine ⟨l', r', by simpa using happ, ?_, hl', hr'⟩
        unfold insertLoop
        rw [if_pos ⟨hy0, hle⟩]
        simpa [hnext] using hloop
      · refine ⟨l, y :: r, rfl, ?_, hl, ?_⟩
        · unfold insertLoop
          rw [if_neg fun h => hle h.2]
        · intro a ha
          obtain rfl : y = a := by simpa using ha
          omega

/-- Whether a node is reached from the head of a list. -/
theorem reachLoop_spec (m : ByteMemory) (n : ℕ) : ∀ (xs : List ℕ) (fuel : ℕ), xs.length < fuel →
    Chain (node m · .next) (xs.headD 0) xs →
    reachLoop m n fuel (xs.headD 0) = .ok (decide (n ∈ xs)) := by
  intro xs
  induction xs with
  | nil =>
      intro fuel hfuel _
      obtain ⟨fuel, rfl⟩ : ∃ k, fuel = k + 1 := ⟨fuel - 1, by simp at hfuel; omega⟩
      simp [reachLoop]
  | cons y xs ih =>
      intro fuel hfuel hchain
      obtain ⟨fuel, rfl⟩ : ∃ k, fuel = k + 1 := ⟨fuel - 1, by simp at hfuel; omega⟩
      obtain ⟨-, hy0, hrest⟩ := hchain
      have hnext : node m y .next = xs.headD 0 := Chain.head_eq hrest
      unfold reachLoop
      show (if y = 0 then _ else _) = _
      rw [if_neg hy0]
      by_cases hyn : y = n
      · simp [hyn]
      · show (if y = n then _ else reachLoop m n fuel (node m y .next)) = _
        rw [if_neg hyn, hnext, ih fuel (by simpa using hfuel) (hnext ▸ hrest)]
        simp [Ne.symm hyn]

/-- The best fit is the first node of the list that is large enough, or null
if none is.  As a bin is sorted, this is one of the smallest. -/
theorem bestFitLoop_spec (m : ByteMemory) (size : ℕ) :
    ∀ (xs : List ℕ) (fuel : ℕ), xs.length < fuel →
    Chain (node m · .next) (xs.headD 0) xs →
    bestFitLoop m size fuel (xs.headD 0) =
      .ok ((xs.find? fun a => size ≤ node m a .size).getD 0) := by
  intro xs
  induction xs with
  | nil =>
      intro fuel hfuel _
      obtain ⟨fuel, rfl⟩ : ∃ k, fuel = k + 1 := ⟨fuel - 1, by simp at hfuel; omega⟩
      simp [bestFitLoop]
  | cons y xs ih =>
      intro fuel hfuel hchain
      obtain ⟨fuel, rfl⟩ : ∃ k, fuel = k + 1 := ⟨fuel - 1, by simp at hfuel; omega⟩
      obtain ⟨-, hy0, hrest⟩ := hchain
      have hnext : node m y .next = xs.headD 0 := Chain.head_eq hrest
      unfold bestFitLoop
      show (if y = 0 then _ else _) = _
      rw [if_neg hy0]
      by_cases hfit : size ≤ node m y .size
      · simp [hfit]
      · show (if size ≤ node m y .size then _ else bestFitLoop m size fuel (node m y .next)) = _
        rw [if_neg hfit, hnext, ih fuel (by simpa using hfuel) (hnext ▸ hrest)]
        simp [hfit]

/-- `get_best_fit` searches the whole bin. -/
theorem getBestFit_spec (size : ℕ) (h : BinAt s.mem (s.bins bin) xs sz) (hA : NodesApart A)
    (hxs : ∀ a ∈ xs, A a) :
    getBestFit s bin size = .ok ((xs.find? fun a => size ≤ node s.mem a .size).getD 0) := by
  have hhead := Chain.head_eq h.list.chain
  have hloop := bestFitLoop_spec s.mem size xs maxNodes (h.length_lt hA hxs)
    (hhead ▸ h.list.chain)
  unfold getBestFit
  by_cases h0 : s.bins bin = 0
  · rw [if_pos h0]
    have hnil : xs = [] := (Chain.eq_nil_iff h.list.chain).mp h0
    simp [hnil]
  · rw [if_neg h0, hhead]
    exact hloop

/-! ### `add_node`

There are four places a node can go to: an empty bin, the front, the back, and
between two nodes.  The source has a branch for each, and each writes another
choice of links; the lemmas below have one branch each, and `addNode_spec`
puts them together.  In all of them the node goes behind the nodes that are
smaller. -/

/-- The first two writes of `add_node`. -/
theorem node_clearLinks (hA : NodesApart A) (he : A e) {a : ℕ} (ha : A a) (f : NodeField) :
    node (setNode (setNode m e .next 0) e .prev 0) a f =
      if a = e ∧ (f = .next ∨ f = .prev) then 0 else node m a f := by
  rw [node_setNode hA he ha, node_setNode hA he ha]
  by_cases hae : a = e
  · cases f <;> simp [hae]
  · simp [hae]

/-- A node goes between the smaller nodes and the larger ones, and the list
stays sorted and without repetitions.  Nodes of the same size come in front of
it. -/
theorem sorted_insert {l r : List ℕ} (hnd : (l ++ r).Nodup)
    (hsorted : (l ++ r).Pairwise fun a b => sz a ≤ sz b) (hne : e ∉ l ++ r)
    (hl : ∀ a ∈ l, sz a ≤ sz e) (hr : ∀ a, r.head? = some a → sz e < sz a) :
    (l ++ e :: r).Nodup ∧ (l ++ e :: r).Pairwise fun a b => sz a ≤ sz b := by
  have hsp := List.pairwise_append.mp hsorted
  constructor
  · rw [List.nodup_middle]
    exact List.nodup_cons.mpr ⟨hne, hnd⟩
  · refine List.pairwise_append.mpr ⟨hsp.1, List.pairwise_cons.mpr ⟨fun b hb => ?_, hsp.2.1⟩,
      fun a ha b hb => ?_⟩
    · cases r with
      | nil => cases hb
      | cons y r =>
          have hy := hr y rfl
          rcases List.mem_cons.mp hb with rfl | hb
          · exact hy.le
          · exact hy.le.trans ((List.pairwise_cons.mp hsp.2.1).1 b hb)
    · rcases List.mem_cons.mp hb with rfl | hb
      · exact hl a ha
      · exact hsp.2.2 a ha b hb

section Link

variable {l r : List ℕ} {y z : ℕ}

/-- A node put in front of the head: its `next` and the `prev` of the old head
are written, and it becomes the head. -/
theorem link_first (hA : NodesApart A) (hxs : ∀ a ∈ z :: r, A a) (he : A e) (hne : e ∉ z :: r)
    (he0 : e ≠ 0) (hnd : (z :: r).Nodup)
    (h : LooseList (node m · .next) (node m · .prev) hd (z :: r)) :
    LooseList (node (setNode (setNode m e .next z) z .prev e) · .next)
      (node (setNode (setNode m e .next z) z .prev e) · .prev) e (e :: z :: r) := by
  have hzA : A z := hxs z List.mem_cons_self
  have hother : ∀ a ∈ z :: r, a ≠ e := fun a ha heq => hne (heq ▸ ha)
  refine LooseList.insert (l := []) h hnd he0 ?_ (fun a ha => ?_) (fun h => absurd rfl h)
    fun a ha => ?_
  · show node _ e .next = z
    rw [node_setNode hA hzA he, if_neg (by simp), node_setNode hA he he, if_pos ⟨rfl, rfl⟩,
      Nat.mod_eq_of_lt (hA.lt hzA)]
  · show node _ a .next = _
    rw [node_setNode hA hzA (hxs a ha), if_neg (by simp), node_setNode hA he (hxs a ha),
      if_neg fun h => hother a ha h.1, if_neg (by simp)]
  · show node _ a .prev = if a = z then e else _
    rw [node_setNode hA hzA (hxs a ha), node_setNode hA he (hxs a ha),
      Nat.mod_eq_of_lt (hA.lt he)]
    by_cases haz : a = z
    · rw [if_pos ⟨haz, rfl⟩, if_pos haz]
    · rw [if_neg fun h => haz h.1, if_neg (by simp), if_neg haz]

/-- A node put behind the last one.  Its `next` is expected to be null
already, and is not written. -/
theorem link_last (hA : NodesApart A) (hxs : ∀ a ∈ l ++ [y], A a) (he : A e) (hne : e ∉ l ++ [y])
    (he0 : e ≠ 0) (hnd : (l ++ [y]).Nodup) (hnext : node m e .next = 0)
    (h : LooseList (node m · .next) (node m · .prev) hd (l ++ [y])) :
    LooseList (node (setNode (setNode m y .next e) e .prev y) · .next)
      (node (setNode (setNode m y .next e) e .prev y) · .prev) hd (l ++ [y] ++ [e]) := by
  have hy : y ∈ l ++ [y] := by simp
  have hyA : A y := hxs y hy
  have hother : ∀ a ∈ l ++ [y], a ≠ e := fun a ha heq => hne (heq ▸ ha)
  have hlast : (l ++ [y]).getLastD 0 = y := by simp
  have hhead : hd = if l ++ [y] = [] then e else hd := (if_neg (by simp)).symm
  rw [hhead]
  refine LooseList.insert (r := []) (by rwa [List.append_nil]) (by rwa [List.append_nil]) he0 ?_
    (fun a ha => ?_) (fun _ => ?_) fun a ha => ?_
  · show node _ e .next = 0
    rw [node_setNode hA he he, if_neg (by simp), node_setNode hA hyA he,
      if_neg fun h => hother y hy h.1.symm, hnext]
  · rw [List.append_nil] at ha
    show node _ a .next = _
    rw [node_setNode hA he (hxs a ha), if_neg (by simp), node_setNode hA hyA (hxs a ha), hlast,
      Nat.mod_eq_of_lt (hA.lt he)]
    by_cases hay : a = y
    · simp [hay]
    · simp [hay]
  · show node _ e .prev = _
    rw [node_setNode hA he he, if_pos ⟨rfl, rfl⟩, hlast, Nat.mod_eq_of_lt (hA.lt hyA)]
  · rw [List.append_nil] at ha
    have ha0 : a ≠ 0 := h.ne_zero ha
    show node _ a .prev = if a = 0 then e else _
    rw [node_setNode hA he (hxs a ha), if_neg fun h => hother a ha h.1,
      node_setNode hA hyA (hxs a ha), if_neg (by simp), if_neg ha0]

/-- A node put between two others, by the four stores of `add_node`, in the
order of the source. -/
theorem link_between (hA : NodesApart A) (hxs : ∀ a ∈ l ++ [y] ++ z :: r, A a) (he : A e)
    (hne : e ∉ l ++ [y] ++ z :: r) (he0 : e ≠ 0) (hnd : (l ++ [y] ++ z :: r).Nodup)
    (h : LooseList (node m · .next) (node m · .prev) hd (l ++ [y] ++ z :: r)) :
    LooseList
      (node (setNode (setNode (setNode (setNode m e .next z) y .next e) e .prev y) z .prev e) ·
        .next)
      (node (setNode (setNode (setNode (setNode m e .next z) y .next e) e .prev y) z .prev e) ·
        .prev)
      hd (l ++ [y] ++ e :: z :: r) := by
  have hy : y ∈ l ++ [y] ++ z :: r := by simp
  have hz : z ∈ l ++ [y] ++ z :: r := by simp
  have hyA : A y := hxs y hy
  have hzA : A z := hxs z hz
  have hother : ∀ a ∈ l ++ [y] ++ z :: r, a ≠ e := fun a ha heq => hne (heq ▸ ha)
  have hlast : (l ++ [y]).getLastD 0 = y := by simp
  let m₁ := setNode (setNode m e .next z) y .next e
  have hm₁ : ∀ a, A a → ∀ f, node m₁ a f =
      if a = y ∧ f = .next then e else if a = e ∧ f = .next then z else node m a f := by
    intro a ha f
    show node (setNode (setNode m e .next z) y .next e) a f = _
    rw [node_setNode hA hyA ha, node_setNode hA he ha, Nat.mod_eq_of_lt (hA.lt he),
      Nat.mod_eq_of_lt (hA.lt hzA)]
  have hhead : hd = if l ++ [y] = [] then e else hd := (if_neg (by simp)).symm
  rw [hhead]
  refine LooseList.insert h hnd he0 ?_ (fun a ha => ?_) (fun _ => ?_) fun a ha => ?_
  · show node _ e .next = z
    rw [node_setNode hA hzA he, if_neg (by simp), node_setNode hA he he, if_neg (by simp),
      hm₁ e he, if_neg fun h => hother y hy h.1.symm, if_pos ⟨rfl, rfl⟩]
  · show node _ a .next = _
    rw [node_setNode hA hzA (hxs a ha), if_neg (by simp), node_setNode hA he (hxs a ha),
      if_neg (by simp), hm₁ a (hxs a ha), hlast]
    simp [hother a ha]
  · show node _ e .prev = _
    rw [node_setNode hA hzA he, if_neg fun h => hother z hz h.1.symm, node_setNode hA he he,
      if_pos ⟨rfl, rfl⟩, hlast, Nat.mod_eq_of_lt (hA.lt hyA)]
  · show node _ a .prev = if a = z then e else _
    rw [node_setNode hA hzA (hxs a ha), node_setNode hA he (hxs a ha), hm₁ a (hxs a ha),
      Nat.mod_eq_of_lt (hA.lt he)]
    by_cases haz : a = z
    · rw [if_pos ⟨haz, rfl⟩, if_pos haz]
    · rw [if_neg fun h => haz h.1, if_neg fun h => hother a ha h.1, if_neg (by simp),
        if_neg (by simp), if_neg haz]

end Link

/-- **`add_node`** puts a node in its place: the bin is sorted again, with the
node between `l` and `r`. -/
theorem addNode_spec (h : BinAt s.mem (s.bins bin) xs sz) (hA : NodesApart A)
    (hxs : ∀ a ∈ xs, A a) (he : A e) (hne : e ∉ xs) (he0 : e ≠ 0)
    (hsz : ∀ a ∈ e :: xs, node s.mem a .size = sz a) :
    ∃ s' l r, l ++ r = xs ∧ addNode s bin e = .ok s' ∧
      BinAt s'.mem (s'.bins bin) (l ++ e :: r) sz ∧
      LinkFrame (fun a => a = e ∨ a ∈ xs) s.mem s'.mem ∧
      (∀ i, i ≠ bin → s'.bins i = s.bins i) ∧ s'.start = s.start ∧
      s'.endAddress = s.endAddress := by
  let m := setNode (setNode s.mem e .next 0) e .prev 0
  have hm : ∀ a, A a → ∀ f, node m a f =
      if a = e ∧ (f = .next ∨ f = .prev) then 0 else node s.mem a f := fun a ha f =>
    node_clearLinks hA he ha f
  have hlink : LinkFrame (fun a => a = e ∨ a ∈ xs) s.mem m :=
    (LinkFrame.setNode (Or.inl rfl) (Or.inl rfl)).trans
      (LinkFrame.setNode (Or.inl rfl) (Or.inr rfl))
  have hnode : ∀ a ∈ xs, ∀ f, node m a f = node s.mem a f := by
    intro a ha f
    rw [hm a (hxs a ha) f, if_neg]
    rintro ⟨rfl, -⟩
    exact hne ha
  have hnext : node m e .next = 0 := by
    rw [hm e he, if_pos ⟨rfl, Or.inl rfl⟩]
  have hlist : LooseList (node m · .next) (node m · .prev) (s.bins bin) xs :=
    h.list.congr (fun a ha => hnode a ha _) fun a ha => hnode a ha _
  have hhead := Chain.head_eq hlist.chain
  have hsize : node m e .size = sz e := by
    rw [hm e he, if_neg (by simp), hsz e List.mem_cons_self]
  have hsizes : ∀ a ∈ xs, node m a .size = sz a := by
    intro a ha
    rw [hnode a ha, hsz a (List.mem_cons_of_mem _ ha)]
  have hnodup := h.nodup
  have hpairs := h.sorted
  by_cases h0 : s.bins bin = 0
  · obtain rfl : xs = [] := (Chain.eq_nil_iff hlist.chain).mp h0
    refine ⟨(s.withMem m).setBin bin e, [], [], rfl, ?_, ⟨⟨⟨?_, he0, hnext⟩, trivial⟩,
      List.nodup_singleton e, List.pairwise_singleton _ e⟩, hlink, ?_, rfl, rfl⟩
    · unfold addNode
      rw [if_pos h0]
    · simp
    · intro i hi
      exact Function.update_of_ne hi _ _
  · obtain ⟨l, r, happ, hloop, hl, hr⟩ := insertLoop_spec m (node m e .size) xs [] maxNodes
      (h.length_lt hA hxs) (hhead ▸ hlist.chain) (by simp)
    replace hloop : insertLoop m (node m e .size) maxNodes (s.bins bin) 0 =
        .ok (l.getLastD 0, r.headD 0) := by
      rw [hhead]
      exact hloop
    have hrun : addNode s bin e = insertLoop m (node m e .size) maxNodes (s.bins bin) 0 >>= _ :=
      if_neg h0
    rw [hloop, Exec.ok_bind] at hrun
    obtain rfl : l ++ r = xs := happ
    obtain ⟨hnd, hsorted⟩ := sorted_insert hnodup hpairs hne
      (fun a ha => by
        rw [← hsizes a (List.mem_append_left _ ha), ← hsize]
        exact hl a ha)
      (fun a ha => by
        rw [← hsizes a (List.mem_append_right _ (List.mem_of_head? ha)), ← hsize]
        exact hr a ha)
    rcases List.eq_nil_or_concat' l with rfl | ⟨l, y, rfl⟩
    · -- in front of the head
      obtain ⟨z, r, rfl⟩ : ∃ z r', r = z :: r' := by
        cases r with
        | nil => exact absurd hhead h0
        | cons z r => exact ⟨z, r, rfl⟩
      have hz : s.bins bin = z := hhead
      have hz0 : z ≠ 0 := hz ▸ h0
      refine ⟨(s.withMem (setNode (setNode m e .next z) z .prev e)).setBin bin e, [], z :: r,
        rfl, ?_, ⟨?_, hnd, hsorted⟩, ?_, ?_, rfl, rfl⟩
      · rw [hrun]
        simp [hz, hz0, m]
      · simpa using link_first hA hxs he hne he0 hnodup hlist
      · exact hlink.trans ((LinkFrame.setNode (Or.inl rfl) (Or.inl rfl)).trans
          (LinkFrame.setNode (Or.inr List.mem_cons_self) (Or.inr rfl)))
      · intro i hi
        exact Function.update_of_ne hi _ _
    · have hy : y ∈ l ++ [y] ++ r := by simp
      have hy0 : y ≠ 0 := hlist.ne_zero hy
      cases r with
      | nil =>
          -- behind the last node
          rw [List.append_nil] at hxs hne hnodup hlist
          refine ⟨s.withMem (setNode (setNode m y .next e) e .prev y), l ++ [y], [], rfl, ?_,
            ⟨link_last hA hxs he hne he0 hnodup hnext hlist, hnd, hsorted⟩, ?_,
            fun _ _ => rfl, rfl, rfl⟩
          · rw [hrun]
            simp [hy0, m]
          · exact hlink.trans ((LinkFrame.setNode (Or.inr hy) (Or.inl rfl)).trans
              (LinkFrame.setNode (Or.inl rfl) (Or.inr rfl)))
      | cons z r =>
          -- between two nodes
          have hz : z ∈ l ++ [y] ++ z :: r := by simp
          have hz0 : z ≠ 0 := hlist.ne_zero hz
          refine ⟨s.withMem
            (setNode (setNode (setNode (setNode m e .next z) y .next e) e .prev y) z .prev e),
            l ++ [y], z :: r, rfl, ?_,
            ⟨link_between hA hxs he hne he0 hnodup hlist, hnd, hsorted⟩, ?_,
            fun _ _ => rfl, rfl, rfl⟩
          · rw [hrun]
            simp [hy0, hz0, m]
          · exact hlink.trans (((LinkFrame.setNode (Or.inl rfl) (Or.inl rfl)).trans
              (LinkFrame.setNode (Or.inr hy) (Or.inl rfl))).trans
              ((LinkFrame.setNode (Or.inl rfl) (Or.inr rfl)).trans
              (LinkFrame.setNode (Or.inr hz) (Or.inr rfl))))

/-! ### `remove_node`

Taking out the head writes one field of the heap and no memory at all, so that
the back pointer of the new head goes on pointing to a node that is no longer
there.  This is why the bins are loose lists: nothing in the allocator follows
the back pointer of a head. -/

/-- **`remove_node`** takes a node out of its bin, and leaves the other bins
alone.  What it writes are links of nodes of the same bin (`LinkFrame`). -/
theorem removeNode_spec (h : BinAt s.mem (s.bins bin) xs sz) (hA : NodesApart A)
    (hxs : ∀ a ∈ xs, A a) (he : e ∈ xs) :
    ∃ s', removeNode s bin e = .ok s' ∧ BinAt s'.mem (s'.bins bin) (xs.erase e) sz ∧
      LinkFrame (· ∈ xs) s.mem s'.mem ∧ (∀ i, i ≠ bin → s'.bins i = s.bins i) ∧
      s'.start = s.start ∧ s'.endAddress = s.endAddress := by
  obtain ⟨l, r, rfl⟩ := List.append_of_mem he
  have hlist := h.list
  have hnodup := List.nodup_append.mp h.nodup
  have hel : e ∉ l := fun hl => hnodup.2.2 e hl e List.mem_cons_self rfl
  have her : e ∉ r := (List.nodup_cons.mp hnodup.2.1).1
  have herase : (l ++ e :: r).erase e = l ++ r := by
    rw [List.erase_append_right _ hel, List.erase_cons_head]
  have hsub : (l ++ r).Sublist (l ++ e :: r) :=
    List.Sublist.append_left (List.sublist_cons_self e r) l
  have hhead := Chain.head_eq hlist.chain
  rw [herase]
  cases l with
  | nil =>
      have hhe : s.bins bin = e := hhead
      have he0 : e ≠ 0 := hlist.ne_zero he
      refine ⟨s.setBin bin (node s.mem e .next), ?_, ⟨?_, h.nodup.sublist hsub,
        h.sorted.sublist hsub⟩, LinkFrame.refl _ _, fun i hi => Function.update_of_ne hi _ _,
        rfl, rfl⟩
      · unfold removeNode
        simp [hhe, he0]
      · have hnext : node s.mem e .next = r.headD 0 := Chain.head_eq hlist.chain.2.2
        have hun : LooseList (node s.mem · .next) (node s.mem · .prev)
            (if ([] : List ℕ) = [] then r.headD 0 else s.bins bin) ([] ++ r) :=
          hlist.unlink h.nodup (fun x _ => by simp) (fun x _ => by simp)
        simpa [hnext] using hun
  | cons x l =>
      obtain ⟨l', y, hly⟩ : ∃ l' y, x :: l = l' ++ [y] := by
        rcases List.eq_nil_or_concat' (x :: l) with h | h
        · cases h
        · exact h
      have hhx : s.bins bin = x := hhead
      have hx0 : x ≠ 0 := hlist.ne_zero (by simp)
      have hxe : x ≠ e := fun heq => hel (by simp [heq])
      have hmid : node s.mem e .next = r.headD 0 ∧ node s.mem e .prev = y ∧
          node s.mem y .next = e := by
        have := hlist
        rw [hly, List.append_assoc] at this
        exact this.middle
      obtain ⟨hnext, hprev, -⟩ := hmid
      have hy : y ∈ x :: l ++ e :: r := by rw [hly]; simp
      have hyA : A y := hxs y hy
      have hy0 : y ≠ 0 := hlist.ne_zero hy
      have heA : A e := hxs e he
      have hlast : (x :: l).getLastD 0 = y := by rw [hly]; simp
      have hye : y ≠ e := by
        rintro rfl
        exact hel (by rw [hly]; simp)
      have hreach : reachLoop s.mem e maxNodes (node s.mem x .next) = .ok true := by
        have htail : node s.mem x .next = (l ++ e :: r).headD 0 := Chain.head_eq hlist.chain.2.2
        have hlen := h.length_lt hA hxs
        rw [htail, reachLoop_spec s.mem e (l ++ e :: r) maxNodes
          (by simp only [List.cons_append, List.length_cons] at hlen; omega)
          (htail ▸ hlist.chain.2.2)]
        simp
      have hstep : removeNode s bin e =
          (if node s.mem e .prev = 0 then .error .nullDereference
          else if node s.mem e .next = 0 then
            .ok (s.withMem (setNode s.mem (node s.mem e .prev) .next 0))
          else
            let m := setNode s.mem (node s.mem e .prev) .next (node s.mem e .next)
            .ok (s.withMem (setNode m (node m e .next) .prev (node m e .prev)))) := by
        unfold removeNode
        simp [hhx, hx0, hxe, hreach]
      rw [hprev, if_neg hy0] at hstep
      have hmem : ∀ a ∈ x :: l ++ r, a ∈ x :: l ++ e :: r ∧ a ≠ e := by
        intro a ha
        rcases List.mem_append.mp ha with ha | ha
        · exact ⟨List.mem_append_left _ ha, fun heq => hel (heq ▸ ha)⟩
        · exact ⟨List.mem_append_right _ (List.mem_cons_of_mem e ha), fun heq => her (heq ▸ ha)⟩
      cases r with
      | nil =>
          have hnext0 : node s.mem e .next = 0 := hnext
          rw [if_pos hnext0] at hstep
          refine ⟨_, hstep, ⟨?_, h.nodup.sublist hsub, h.sorted.sublist hsub⟩,
            LinkFrame.setNode hy (Or.inl rfl), fun _ _ => rfl, rfl, rfl⟩
          have hun : LooseList (node (setNode s.mem y .next 0) · .next)
              (node (setNode s.mem y .next 0) · .prev)
              (if x :: l = [] then ([] : List ℕ).headD 0 else s.bins bin) (x :: l ++ []) :=
            hlist.unlink h.nodup
            (fun a ha => by
              rw [node_setNode hA hyA (hxs a (hmem a ha).1), hlast]
              simp)
            (fun a ha => by
              have ha0 : a ≠ 0 := hlist.ne_zero (hmem a ha).1
              rw [node_setNode hA hyA (hxs a (hmem a ha).1), if_neg (by simp)]
              simp [ha0])
          simpa using hun
      | cons z r =>
          have hz : z ∈ x :: l ++ e :: z :: r := by simp
          have hzA : A z := hxs z hz
          have hz0 : z ≠ 0 := hlist.ne_zero hz
          have hnextz : node s.mem e .next = z := hnext
          rw [hnextz, if_neg hz0] at hstep
          have hkeep : ∀ f, node (setNode s.mem y .next z) e f = node s.mem e f := by
            intro f
            rw [node_setNode hA hyA heA, if_neg fun h => hye h.1.symm]
          dsimp only at hstep
          rw [hkeep, hkeep, hnextz, hprev] at hstep
          refine ⟨_, hstep, ⟨?_, h.nodup.sublist hsub, h.sorted.sublist hsub⟩,
            (LinkFrame.setNode hy (Or.inl rfl)).trans (LinkFrame.setNode hz (Or.inr rfl)),
            fun _ _ => rfl, rfl, rfl⟩
          have hun : LooseList (node (setNode (setNode s.mem y .next z) z .prev y) · .next)
              (node (setNode (setNode s.mem y .next z) z .prev y) · .prev)
              (if x :: l = [] then (z :: r).headD 0 else s.bins bin) (x :: l ++ z :: r) :=
            hlist.unlink h.nodup
            (fun a ha => by
              rw [node_setNode hA hzA (hxs a (hmem a ha).1), if_neg (by simp),
                node_setNode hA hyA (hxs a (hmem a ha).1), hlast, Nat.mod_eq_of_lt (hA.lt hzA)]
              simp)
            (fun a ha => by
              rw [node_setNode hA hzA (hxs a (hmem a ha).1),
                node_setNode hA hyA (hxs a (hmem a ha).1), hlast, Nat.mod_eq_of_lt (hA.lt hyA)]
              simp)
          simpa using hun

end CourseOs.Heap
