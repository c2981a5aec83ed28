import CourseOs.Lib.AccessLog
import CourseOs.Allocator.HeapRequest

/-!
# The words `heap_free` reads and writes

`heap_free` and the routines it calls, with every access to a header or footer
recorded; each returns what the routine does (`result_heapFreeLogged`).
`heap_t` and its bins lie outside the heap and are no such access.

The routines are written a second time because the accesses of a routine are
not determined by what it returns.  That the two versions agree is proved for
each of them, and the lemmas are simp lemmas, so a statement about the
recorded routine is one about the routine.

For the list routines the accesses are known from the bin: the node given, and
the nodes of the bin (`addNodeLogged_within`, `removeNodeLogged_within`).  `R`
is any set of addresses that has the words of these nodes.
-/

namespace CourseOs.Heap

open ByteMemory LinkedList

/-- Access to one word of the node at `n`, which is read. -/
def nodeLogged (m : ByteMemory) (n : ℕ) (f : NodeField) : Logged Trap ℕ :=
  Logged.readWord m (n + f.offset)

/-- Access to one word of the node at `n`, which becomes `v`. -/
def setNodeLogged (m : ByteMemory) (n : ℕ) (f : NodeField) (v : ℕ) : Logged Trap ByteMemory :=
  Logged.writeWord m (n + f.offset) v

/-- `get_foot`, which reads the size of the block, and not the footer itself. -/
def getFootLogged (m : ByteMemory) (n : ℕ) : Logged Trap ℕ := do
  let size ← nodeLogged m n .size
  pure (n + sizeofNode + size)

/-- The `while` loop of `add_node`.  In each round the sizes of two nodes are
read, and the link of one. -/
def insertLoopLogged (m : ByteMemory) (n : ℕ) : ℕ → ℕ → ℕ → Logged Trap (ℕ × ℕ)
  | 0, _, _ => .fail .diverged
  | fuel + 1, current, previous =>
      if current = 0 then pure (previous, current)
      else do
        let size ← nodeLogged m current .size
        let limit ← nodeLogged m n .size
        if size ≤ limit then do
          let next ← nodeLogged m current .next
          insertLoopLogged m n fuel next current
        else pure (previous, current)

/-- `add_node`.  The links of the node are cleared before the bin is looked
at, and both are written again where the node has neighbours. -/
def addNodeLogged (s : HeapState) (bin n : ℕ) : Logged Trap HeapState := do
  let m ← setNodeLogged s.mem n .next 0
  let m ← setNodeLogged m n .prev 0
  let head := s.bins bin
  if head = 0 then pure ((s.withMem m).setBin bin n)
  else do
    let place ← insertLoopLogged m n maxNodes head 0
    if place.2 = 0 then
      if place.1 = 0 then
        .fail (.fatal "BUG: previous shouldn't be null, this is probably a bug!")
      else do
        let m ← setNodeLogged m place.1 .next n
        let m ← setNodeLogged m n .prev place.1
        pure (s.withMem m)
    else if place.1 ≠ 0 then do
      let m ← setNodeLogged m n .next place.2
      let m ← setNodeLogged m place.1 .next n
      let m ← setNodeLogged m n .prev place.1
      let m ← setNodeLogged m place.2 .prev n
      pure (s.withMem m)
    else do
      let m ← setNodeLogged m n .next head
      let m ← setNodeLogged m head .prev n
      pure ((s.withMem m).setBin bin n)

/-- The `while` loop of `remove_node`, which reads a link in each round. -/
def reachLoopLogged (m : ByteMemory) (n : ℕ) : ℕ → ℕ → Logged Trap Bool
  | 0, _ => .fail .diverged
  | fuel + 1, temp =>
      if temp = 0 then pure false
      else if temp = n then pure true
      else do
        let next ← nodeLogged m temp .next
        reachLoopLogged m n fuel next

/-- `remove_node`.  The head is taken out with one read; for any other node
the list is followed up to it, and its two neighbours are written. -/
def removeNodeLogged (s : HeapState) (bin n : ℕ) : Logged Trap HeapState :=
  let head := s.bins bin
  if head = 0 then pure s
  else if head = n then do
    let next ← nodeLogged s.mem head .next
    pure (s.setBin bin next)
  else do
    let first ← nodeLogged s.mem head .next
    let found ← reachLoopLogged s.mem n maxNodes first
    if found then do
      let next ← nodeLogged s.mem n .next
      let previous ← nodeLogged s.mem n .prev
      if previous = 0 then .fail .nullDereference
      else if next = 0 then do
        let m ← setNodeLogged s.mem previous .next 0
        pure (s.withMem m)
      else do
        let m ← setNodeLogged s.mem previous .next next
        let previous ← nodeLogged m n .prev
        let next ← nodeLogged m n .next
        let m ← setNodeLogged m next .prev previous
        pure (s.withMem m)
    else pure s

/-- The first `if` of `heap_free` about a neighbour.  The sizes are read again
after the block before has left its bin, as in the source. -/
def coalescePrevLogged (s : HeapState) (prev head : ℕ) : Logged Trap (HeapState × ℕ) := do
  let hole ← nodeLogged s.mem prev .hole
  if hole ≠ 0 then do
    let size ← nodeLogged s.mem prev .size
    let s ← removeNodeLogged s (getBinIndex size) prev
    let size ← nodeLogged s.mem prev .size
    let behind ← nodeLogged s.mem head .size
    let m ← setNodeLogged s.mem prev .size (size + overhead + behind)
    let foot ← getFootLogged m head
    let m ← Logged.writeWord m foot prev
    pure (s.withMem m, prev)
  else pure (s, head)

/-- The second `if` of `heap_free` about a neighbour.  It reads the flag of
`next` whatever lies there, which is what a last block is about. -/
def coalesceNextLogged (s : HeapState) (next head : ℕ) : Logged Trap HeapState := do
  let hole ← nodeLogged s.mem next .hole
  if hole ≠ 0 then do
    let size ← nodeLogged s.mem next .size
    let s ← removeNodeLogged s (getBinIndex size) next
    let size ← nodeLogged s.mem head .size
    let behind ← nodeLogged s.mem next .size
    let m ← setNodeLogged s.mem head .size (size + overhead + behind)
    let foot ← getFootLogged m next
    let m ← Logged.writeWord m foot 0
    let m ← setNodeLogged m next .size 0
    let m ← setNodeLogged m next .hole 0
    let foot ← getFootLogged m head
    let m ← Logged.writeWord m foot head
    pure (s.withMem m)
  else pure s

/-- The end of `heap_free`: the flag is written, the size read, and the block
put in the bin of its size. -/
def binBlockLogged (s : HeapState) (head : ℕ) : Logged Trap HeapState := do
  let m ← setNodeLogged s.mem head .hole 1
  let size ← nodeLogged m head .size
  addNodeLogged (s.withMem m) (getBinIndex size) head

/-- `heap_free`.  The two neighbours are found by one read each, before
anything is written. -/
def heapFreeLogged (s : HeapState) (p : ℕ) : Logged Trap HeapState :=
  if p = 0 then pure s
  else
    let head := sub32 p offset
    if head = s.start then binBlockLogged s head
    else do
      let foot ← getFootLogged s.mem head
      let next := foot + sizeofFooter
      let prev ← Logged.readWord s.mem (sub32 head sizeofFooter)
      let merged ← coalescePrevLogged s prev head
      let s ← coalesceNextLogged merged.1 next merged.2
      binBlockLogged s merged.2

variable {m : ByteMemory} {s : HeapState} {R : ℕ → Prop} {n bin size fuel e : ℕ} {xs : List ℕ}
  {sz : ℕ → ℕ} {A : ℕ → Prop}

/-! ### The recorded routines return what the routines do

One lemma for each routine, by the structure of its body.  They are what ties
the log to the program: whatever is proved of the accesses below is proved of
the routines of which the rest of the development speaks. -/

@[simp] theorem result_nodeLogged (m : ByteMemory) (n : ℕ) (f : NodeField) :
    (nodeLogged m n f).result = .ok (node m n f) := rfl

@[simp] theorem result_setNodeLogged (m : ByteMemory) (n : ℕ) (f : NodeField) (v : ℕ) :
    (setNodeLogged m n f v).result = .ok (setNode m n f v) := rfl

@[simp] theorem result_getFootLogged (m : ByteMemory) (n : ℕ) :
    (getFootLogged m n).result = .ok (getFoot m n) := rfl

@[simp] theorem result_insertLoopLogged (m : ByteMemory) (n : ℕ) :
    ∀ fuel current previous, (insertLoopLogged m n fuel current previous).result =
      insertLoop m (node m n .size) fuel current previous := by
  intro fuel
  induction fuel with
  | zero => exact fun _ _ => rfl
  | succ fuel ih =>
      intro current previous
      unfold insertLoopLogged insertLoop
      by_cases h0 : current = 0
      · rw [if_pos h0, if_neg fun h => h.1 h0]
        rfl
      · rw [if_neg h0]
        by_cases hle : node m current .size ≤ node m n .size
        · rw [if_pos ⟨h0, hle⟩, ← ih]
          simp [hle]
        · rw [if_neg fun h => hle h.2]
          simp [hle]

@[simp] theorem result_addNodeLogged (s : HeapState) (bin n : ℕ) :
    (addNodeLogged s bin n).result = addNode s bin n := by
  unfold addNodeLogged addNode
  simp only [Logged.result_bind, result_setNodeLogged, Exec.ok_bind, Logged.result_ite,
    Logged.result_pure, result_insertLoopLogged, Logged.result_fail]

@[simp] theorem result_reachLoopLogged (m : ByteMemory) (n : ℕ) :
    ∀ fuel temp, (reachLoopLogged m n fuel temp).result = reachLoop m n fuel temp := by
  intro fuel
  induction fuel with
  | zero => exact fun _ => rfl
  | succ fuel ih =>
      intro temp
      unfold reachLoopLogged reachLoop
      simp only [Logged.result_ite, Logged.result_bind, Logged.result_pure, result_nodeLogged,
        Exec.ok_bind, ih]

@[simp] theorem result_removeNodeLogged (s : HeapState) (bin n : ℕ) :
    (removeNodeLogged s bin n).result = removeNode s bin n := by
  unfold removeNodeLogged removeNode
  simp only [Logged.result_bind, result_setNodeLogged, result_nodeLogged, Exec.ok_bind,
    Logged.result_ite, Logged.result_pure, result_reachLoopLogged, Logged.result_fail]

@[simp] theorem result_coalescePrevLogged (s : HeapState) (prev head : ℕ) :
    (coalescePrevLogged s prev head).result = coalescePrev s prev head := by
  unfold coalescePrevLogged coalescePrev
  simp only [Logged.result_bind, result_setNodeLogged, result_nodeLogged, Exec.ok_bind,
    Logged.result_ite, Logged.result_pure, result_removeNodeLogged, result_getFootLogged,
    Logged.result_writeWord]

@[simp] theorem result_coalesceNextLogged (s : HeapState) (next head : ℕ) :
    (coalesceNextLogged s next head).result = coalesceNext s next head := by
  unfold coalesceNextLogged coalesceNext
  simp only [Logged.result_bind, result_setNodeLogged, result_nodeLogged, Exec.ok_bind,
    Logged.result_ite, Logged.result_pure, result_removeNodeLogged, result_getFootLogged,
    Logged.result_writeWord]

@[simp] theorem result_binBlockLogged (s : HeapState) (head : ℕ) :
    (binBlockLogged s head).result = binBlock s head := by
  unfold binBlockLogged binBlock
  simp only [Logged.result_bind, result_setNodeLogged, result_nodeLogged, Exec.ok_bind,
    result_addNodeLogged]

/-- **The recorded `heap_free` is `heap_free`.** -/
theorem result_heapFreeLogged (s : HeapState) (p : ℕ) :
    (heapFreeLogged s p).result = heapFree s p := by
  unfold heapFreeLogged heapFree
  simp only [Logged.result_ite, Logged.result_bind, Logged.result_pure, result_getFootLogged,
    Exec.ok_bind, Logged.result_readWord, result_coalescePrevLogged, result_coalesceNextLogged,
    result_binBlockLogged]

/-! ### The accesses of the list routines

A list routine only looks at its node and at the nodes of one bin.  The set
`R` of words that may be accessed is left open here; it becomes the range of
the heap where the bins are known to hold blocks. -/

/-- All words of the node at `n` satisfy `R`. -/
def Covers (R : ℕ → Prop) (n : ℕ) : Prop := ∀ f : NodeField, R (n + f.offset)

theorem insertLoopLogged_within (hn : Covers R n) :
    ∀ fuel xs current previous, Chain (node m · .next) current xs → (∀ a ∈ xs, Covers R a) →
      Logged.Within R (insertLoopLogged m n fuel current previous) := by
  intro fuel
  induction fuel with
  | zero => exact fun _ _ _ _ _ => Logged.Within.fail
  | succ fuel ih =>
      intro xs current previous hchain hxs
      refine Logged.Within.ite (fun _ => Logged.Within.pure) fun h0 => ?_
      cases xs with
      | nil => exact absurd hchain h0
      | cons x xs =>
          obtain ⟨rfl, -, hrest⟩ := hchain
          have hx := hxs current List.mem_cons_self
          refine Logged.Within.bind (Logged.Within.readWord (hx .size)) fun _ _ => ?_
          refine Logged.Within.bind (Logged.Within.readWord (hn .size)) fun _ _ => ?_
          refine Logged.Within.ite (fun _ => ?_) fun _ => Logged.Within.pure
          refine Logged.Within.bind (Logged.Within.readWord (hx .next)) ?_
          rintro _ ⟨⟩
          exact ih xs _ _ hrest fun a ha => hxs a (List.mem_cons_of_mem _ ha)

/-- The loop stops at nodes of the list, or at the null pointer before or
behind them. -/
theorem insertLoop_mem {place : ℕ × ℕ} :
    ∀ fuel xs current previous, Chain (node m · .next) current xs →
      insertLoop m size fuel current previous = .ok place →
      (place.1 = previous ∨ place.1 ∈ xs) ∧ (place.2 = 0 ∨ place.2 ∈ xs) := by
  intro fuel
  induction fuel with
  | zero =>
      intro xs current previous _ h
      cases h
  | succ fuel ih =>
      intro xs current previous hchain h
      unfold insertLoop at h
      cases xs with
      | nil =>
          obtain rfl : current = 0 := hchain
          rw [if_neg fun h => h.1 rfl] at h
          cases h
          exact ⟨Or.inl rfl, Or.inl rfl⟩
      | cons x xs =>
          obtain ⟨rfl, -, hrest⟩ := hchain
          split at h
          · obtain ⟨h1, h2⟩ := ih xs _ _ hrest h
            exact ⟨Or.inr (h1.elim (fun h => h ▸ List.mem_cons_self) (List.mem_cons_of_mem _)),
              h2.imp_right (List.mem_cons_of_mem _)⟩
          · cases h
            exact ⟨Or.inl rfl, Or.inr List.mem_cons_self⟩

/-- **`add_node`** accesses the node and those of the bin.  The insertion loop
ends at two nodes of the bin, or at null, and the writes go to these and to
the new node. -/
theorem addNodeLogged_within (h : BinAt s.mem (s.bins bin) xs sz) (hA : NodesApart A)
    (hxs : ∀ a ∈ xs, A a) (he : A e) (hne : e ∉ xs) (hR : ∀ a, a = e ∨ a ∈ xs → Covers R a) :
    Logged.Within R (addNodeLogged s bin e) := by
  have heR := hR e (Or.inl rfl)
  have hxR : ∀ a ∈ xs, Covers R a := fun a ha => hR a (Or.inr ha)
  unfold addNodeLogged
  refine Logged.Within.bind (Logged.Within.writeWord (heR .next)) ?_
  rintro _ ⟨⟩
  refine Logged.Within.bind (Logged.Within.writeWord (heR .prev)) ?_
  rintro _ ⟨⟩
  let m := setNode (setNode s.mem e .next 0) e .prev 0
  have hchain : Chain (node m · .next) (s.bins bin) xs := by
    refine h.list.chain.congr fun a ha => ?_
    refine (node_clearLinks hA he (hxs a ha) .next).trans (if_neg ?_)
    rintro ⟨rfl, -⟩
    exact hne ha
  refine Logged.Within.ite (fun _ => Logged.Within.pure) fun h0 => ?_
  have hheadR : Covers R (s.bins bin) := by
    cases xs with
    | nil => exact absurd hchain h0
    | cons x xs => exact hchain.1 ▸ hxR x List.mem_cons_self
  refine Logged.Within.bind (insertLoopLogged_within heR _ _ _ _ hchain hxR) fun place hplace => ?_
  rw [result_insertLoopLogged] at hplace
  obtain ⟨hprev, hcur⟩ := insertLoop_mem _ _ _ _ hchain hplace
  refine Logged.Within.ite (fun _ => ?_) fun hc0 => ?_
  · refine Logged.Within.ite (fun _ => Logged.Within.fail) fun hp0 => ?_
    have hpR := hxR _ (hprev.resolve_left hp0)
    exact Logged.Within.bind (Logged.Within.writeWord (hpR .next)) fun _ _ =>
      Logged.Within.bind (Logged.Within.writeWord (heR .prev)) fun _ _ => Logged.Within.pure
  · have hcR := hxR _ (hcur.resolve_left hc0)
    refine Logged.Within.ite (fun hp0 => ?_) fun _ => ?_
    · have hpR := hxR _ (hprev.resolve_left hp0)
      exact Logged.Within.bind (Logged.Within.writeWord (heR .next)) fun _ _ =>
        Logged.Within.bind (Logged.Within.writeWord (hpR .next)) fun _ _ =>
        Logged.Within.bind (Logged.Within.writeWord (heR .prev)) fun _ _ =>
        Logged.Within.bind (Logged.Within.writeWord (hcR .prev)) fun _ _ => Logged.Within.pure
    · exact Logged.Within.bind (Logged.Within.writeWord (heR .next)) fun _ _ =>
        Logged.Within.bind (Logged.Within.writeWord (hheadR .prev)) fun _ _ => Logged.Within.pure

theorem reachLoopLogged_within :
    ∀ fuel xs temp, Chain (node m · .next) temp xs → (∀ a ∈ xs, Covers R a) →
      Logged.Within R (reachLoopLogged m n fuel temp) := by
  intro fuel
  induction fuel with
  | zero => exact fun _ _ _ _ => Logged.Within.fail
  | succ fuel ih =>
      intro xs temp hchain hxs
      refine Logged.Within.ite (fun _ => Logged.Within.pure) fun h0 => ?_
      refine Logged.Within.ite (fun _ => Logged.Within.pure) fun _ => ?_
      cases xs with
      | nil => exact absurd hchain h0
      | cons x xs =>
          obtain ⟨rfl, -, hrest⟩ := hchain
          refine Logged.Within.bind (Logged.Within.readWord (hxs temp List.mem_cons_self .next)) ?_
          rintro _ ⟨⟩
          exact ih xs _ hrest fun a ha => hxs a (List.mem_cons_of_mem _ ha)

/-- **`remove_node`** accesses the nodes of the bin.  At the head there is one
read; behind it the loop reaches the node, and its neighbours are nodes of the
bin because the links of a bin lead from one to the next. -/
theorem removeNodeLogged_within (h : BinAt s.mem (s.bins bin) xs sz) (hA : NodesApart A)
    (hxs : ∀ a ∈ xs, A a) (he : e ∈ xs) (hR : ∀ a ∈ xs, Covers R a) :
    Logged.Within R (removeNodeLogged s bin e) := by
  have hchain := h.list.chain
  unfold removeNodeLogged
  refine Logged.Within.ite (fun _ => Logged.Within.pure) fun h0 => ?_
  obtain ⟨l, r, rfl⟩ := List.append_of_mem he
  cases l with
  | nil =>
      have hhead : s.bins bin = e := hchain.1
      refine Logged.Within.ite (fun _ => ?_) fun hne => absurd hhead hne
      exact Logged.Within.bind (Logged.Within.readWord (hhead ▸ hR e he .next)) fun _ _ =>
        Logged.Within.pure
  | cons x l =>
      obtain ⟨hhead, -, hrest⟩ := hchain
      have hxR := hR x (by simp)
      refine Logged.Within.ite (fun _ => ?_) fun _ => ?_
      · exact Logged.Within.bind (Logged.Within.readWord (hhead ▸ hxR .next)) fun _ _ =>
          Logged.Within.pure
      refine Logged.Within.bind (Logged.Within.readWord (hhead ▸ hxR .next)) ?_
      rintro _ ⟨⟩
      refine Logged.Within.bind (reachLoopLogged_within _ (l ++ e :: r) _ (hhead ▸ hrest)
        fun a ha => hR a (List.mem_cons_of_mem x ha)) fun _ _ => ?_
      refine Logged.Within.ite (fun _ => ?_) fun _ => Logged.Within.pure
      -- the neighbours of the node are nodes of the bin, too
      obtain ⟨l', y, hly⟩ : ∃ l' y, x :: l = l' ++ [y] :=
        (List.eq_nil_or_concat' (x :: l)).resolve_left (List.cons_ne_nil x l)
      obtain ⟨hnext, hprev, -⟩ : node s.mem e .next = r.headD 0 ∧ node s.mem e .prev = y ∧
          node s.mem y .next = e := by
        have hlist := h.list
        rw [hly, List.append_assoc] at hlist
        exact hlist.middle
      have hy : y ∈ x :: l ++ e :: r := by rw [hly]; simp
      have hye : e ≠ y := by
        rintro rfl
        have hnd := h.nodup
        rw [hly] at hnd
        exact (List.nodup_append.mp hnd).2.2 e (by simp) e List.mem_cons_self rfl
      have heR := hR e he
      refine Logged.Within.bind (Logged.Within.readWord (heR .next)) ?_
      rintro _ ⟨⟩
      refine Logged.Within.bind (Logged.Within.readWord (heR .prev)) ?_
      rintro _ ⟨⟩
      have hyR : Covers R (node s.mem e .prev) := hprev ▸ hR y hy
      refine Logged.Within.ite (fun _ => Logged.Within.fail) fun _ => ?_
      refine Logged.Within.ite (fun _ => ?_) fun hn0 => ?_
      · exact Logged.Within.bind (Logged.Within.writeWord (hyR .next)) fun _ _ =>
          Logged.Within.pure
      refine Logged.Within.bind (Logged.Within.writeWord (hyR .next)) ?_
      rintro _ ⟨⟩
      refine Logged.Within.bind (Logged.Within.readWord (heR .prev)) fun _ _ => ?_
      refine Logged.Within.bind (Logged.Within.readWord (heR .next)) ?_
      rintro _ ⟨⟩
      have hkeep : node (setNode s.mem (node s.mem e .prev) .next (node s.mem e .next)) e .next =
          node s.mem e .next := by
        rw [hprev, node_setNode hA (hxs y hy) (hxs e he), if_neg fun h => hye h.1]
      have hzR : Covers R (node s.mem e .next) := by
        replace hn0 : ¬node s.mem e .next = 0 := hn0
        rw [hnext] at hn0 ⊢
        cases r with
        | nil => exact absurd rfl hn0
        | cons z r => exact hR z (by simp)
      refine Logged.Within.bind (Logged.Within.writeWord ?_) fun _ _ => Logged.Within.pure
      show R (node (setNode s.mem (node s.mem e .prev) .next (node s.mem e .next)) e .next + _)
      rw [hkeep]
      exact hzR .prev

end CourseOs.Heap
