import CourseOs.Allocator.HeapAccess

/-!
# `heap_free` inside the heap

`heap_free` finds the header behind a block from the block's size.  Of the
last block there is none: unless the block is also the first, `heap_free`
reads the word at `heap->end` (`LooksInside`).  All other words it reads and
writes are headers and footers of blocks.

`Grown` is the run invariant.  Runs are not restricted to requests that leave
the heap's end alone: when `expand` has been refused, a block is in use that
nobody holds, and when it has been granted, a page lies between the last block
and `heap->end`.  That page is still zero, so the word behind the last block
is inside the heap then, and says "no hole".

`heap_free` and the placement of a request do not look at `heap->end`
(`heapFreeLogged_withEnd`, `placeBlock_withEnd`).  So a grown heap can be
treated as the well-formed heap it is up to the end of its blocks; the results
of the modules before, which ask that the blocks reach `heap->end`, apply to
it with another end.

`heapFree_inside` is an equivalence in every state of every run of requests of
any size, and frees that look inside.
-/

namespace CourseOs.Heap

open ByteMemory LinkedList

variable {m m' : ByteMemory} {s s' : HeapState} {blocks pre post : List Block}
  {b c cur prev next head found : Block} {start stop hi e size : ℕ} {H : Set Block} {sz : ℕ → ℕ}
  {R : ℕ → Prop} {live : List ℕ}

/-- The word at `a` lies in `[lo, hi)`, with all of its four bytes. -/
def Inside (lo hi a : ℕ) : Prop := lo ≤ a ∧ a + 4 ≤ hi

/-- **`heap_free` stays inside the heap**: all words it reads and writes lie
in it. -/
def StaysInside (s : HeapState) (p : ℕ) : Prop :=
  ∀ a ∈ (heapFreeLogged s p).log, Inside s.start s.endAddress a

namespace WellTiled

theorem covers (h : WellTiled m start stop blocks) (hle : stop ≤ hi) (hb : b ∈ blocks) :
    Covers (Inside start hi) b.addr := by
  intro f
  have hbounds := h.tiles.bounds hb
  have hf := f.offset_le
  rw [b.next_eq] at hbounds
  show start ≤ b.addr + f.offset ∧ b.addr + f.offset + 4 ≤ hi
  omega

theorem foot_inside (h : WellTiled m start stop blocks) (hle : stop ≤ hi) (hb : b ∈ blocks) :
    Inside start hi (b.addr + sizeofNode + b.size) := by
  have hbounds := h.tiles.bounds hb
  rw [b.next_eq] at hbounds
  show start ≤ b.addr + 16 + b.size ∧ b.addr + 16 + b.size + 4 ≤ hi
  omega

end WellTiled

theorem getFootLogged_within {n : ℕ} (h : Covers R n) : Logged.Within R (getFootLogged m n) :=
  Logged.Within.bind (Logged.Within.readWord (h .size)) fun _ _ => Logged.Within.pure

namespace Binned

theorem addNodeLogged_within (h : Binned s.mem s.bins H sz) (hsep : Separate (insert c H))
    (hc : c ∉ H) (hR : ∀ b ∈ insert c H, Covers R b.addr) :
    Logged.Within R (addNodeLogged s (getBinIndex c.size) c.addr) := by
  obtain ⟨xs, hbin, hxs⟩ := h.bin _ (getBinIndex_lt c.size)
  have hin : ∀ a ∈ xs, ∃ b ∈ H, b.addr = a := by
    intro a ha
    obtain ⟨b, hb, hba, -⟩ := (hxs a).mp ha
    exact ⟨b, hb, hba⟩
  refine Heap.addNodeLogged_within hbin hsep.nodesApart (fun a ha => ?_)
    ⟨c, Set.mem_insert c H, rfl⟩ (fun hmem => ?_) fun a ha => ?_
  · obtain ⟨b, hb, rfl⟩ := hin a ha
    exact ⟨b, Set.mem_insert_of_mem c hb, rfl⟩
  · obtain ⟨b, hb, hba⟩ := hin _ hmem
    have hbc := hsep.addr_inj (Set.mem_insert_of_mem c hb) (Set.mem_insert c H) hba
    exact hc (hbc ▸ hb)
  · rcases ha with rfl | ha
    · exact hR c (Set.mem_insert c H)
    · obtain ⟨b, hb, rfl⟩ := hin a ha
      exact hR b (Set.mem_insert_of_mem c hb)

theorem removeNodeLogged_within (h : Binned s.mem s.bins H sz) (hsep : Separate H) (hb : b ∈ H)
    (hR : ∀ c ∈ H, Covers R c.addr) :
    Logged.Within R (removeNodeLogged s (getBinIndex b.size) b.addr) := by
  obtain ⟨xs, hbin, hxs⟩ := h.bin _ (getBinIndex_lt b.size)
  refine Heap.removeNodeLogged_within hbin hsep.nodesApart (fun a ha => ?_)
    ((hxs b.addr).mpr ⟨b, hb, rfl, rfl⟩) fun a ha => ?_
  · obtain ⟨c, hc, hca, -⟩ := (hxs a).mp ha
    exact ⟨c, hc, hca⟩
  · obtain ⟨c, hc, rfl, -⟩ := (hxs a).mp ha
    exact hR c hc

end Binned

namespace Pending

theorem covers (h : Pending s pre cur post) (hle : s.endAddress ≤ hi) :
    ∀ b ∈ holes (pre ++ post), Covers (Inside s.start hi) b.addr :=
  fun _ hb => h.tiled.covers hle (mem_insert_middle hb.1)

/-- The accesses of the first merge: header and footer of the two blocks, and,
where the one in front is a hole, the nodes of its bin. -/
theorem coalescePrevLogged_within (h : Pending s (pre ++ [prev]) cur post)
    (hle : s.endAddress ≤ hi) :
    Logged.Within (Inside s.start hi) (coalescePrevLogged s prev.addr cur.addr) := by
  have hrep := h.tiled.represents prev (by simp)
  have hprev := h.tiled.covers hle (b := prev) (by simp)
  have hcur := h.tiled.covers hle (b := cur) (by simp)
  unfold coalescePrevLogged
  refine Logged.Within.bind (Logged.Within.readWord (hprev .hole)) ?_
  rintro _ ⟨⟩
  refine Logged.Within.ite (fun hne => ?_) fun _ => Logged.Within.pure
  have hhole : prev.hole = true :=
    Bool.eq_true_of_not_eq_false (mt hrep.node_hole_eq_zero.mpr hne)
  refine Logged.Within.bind (Logged.Within.readWord (hprev .size)) ?_
  rintro _ ⟨⟩
  obtain ⟨sz, hbin⟩ := h.binned
  obtain ⟨s₁, -, hrem, -, htiled, -, -, -⟩ :=
    h.unbin (by simp : pre ++ [prev] ++ post = pre ++ prev :: post) hhole
  have hmem : prev ∈ holes (pre ++ [prev] ++ post) := ⟨by simp, hhole⟩
  have hwithin := hbin.removeNodeLogged_within h.separate hmem (h.covers hle)
  have hsize : readWord s.mem (prev.addr + NodeField.size.offset) = prev.size := hrep.size
  rw [hsize]
  refine Logged.Within.bind hwithin fun t ht => ?_
  obtain rfl : s₁ = t := by
    rw [result_removeNodeLogged, hrem] at ht
    cases ht
    rfl
  refine Logged.Within.bind (Logged.Within.readWord (hprev .size)) fun size hs => ?_
  refine Logged.Within.bind (Logged.Within.readWord (hcur .size)) fun behind hb => ?_
  refine Logged.Within.bind (Logged.Within.writeWord (hprev .size)) ?_
  rintro _ ⟨⟩
  refine Logged.Within.bind (getFootLogged_within hcur) ?_
  rintro _ ⟨⟩
  have htiled' : WellTiled s₁.mem s₁.start s₁.endAddress (pre ++ prev :: cur :: post) := by
    simpa using htiled
  have hfoot := htiled'.getFoot_setSize (size + overhead + behind)
  refine Logged.Within.bind (Logged.Within.writeWord ?_) fun _ _ => Logged.Within.pure
  show Inside s.start hi
    (getFoot (setNode s₁.mem prev.addr .size (size + overhead + behind)) cur.addr)
  rw [hfoot]
  exact h.tiled.foot_inside hle (by simp)

/-- The accesses of the second merge with a block: those of the two blocks and
of the bin of the one behind, whose header is cleared at the end. -/
theorem coalesceNextLogged_cons (h : Pending s pre cur (next :: post)) (hle : s.endAddress ≤ hi) :
    Logged.Within (Inside s.start hi) (coalesceNextLogged s next.addr cur.addr) := by
  have hrep := h.tiled.represents next (by simp)
  have hnext := h.tiled.covers hle (b := next) (by simp)
  have hcur := h.tiled.covers hle (b := cur) (by simp)
  have hfootIn := h.tiled.foot_inside hle (b := next) (by simp)
  unfold coalesceNextLogged
  refine Logged.Within.bind (Logged.Within.readWord (hnext .hole)) ?_
  rintro _ ⟨⟩
  refine Logged.Within.ite (fun hne => ?_) fun _ => Logged.Within.pure
  have hhole : next.hole = true :=
    Bool.eq_true_of_not_eq_false (mt hrep.node_hole_eq_zero.mpr hne)
  refine Logged.Within.bind (Logged.Within.readWord (hnext .size)) ?_
  rintro _ ⟨⟩
  obtain ⟨sz, hbin⟩ := h.binned
  obtain ⟨s₁, -, hrem, -, htiled, -, -, -⟩ :=
    h.unbin (rfl : pre ++ next :: post = pre ++ next :: post) hhole
  have hmem : next ∈ holes (pre ++ next :: post) := ⟨by simp, hhole⟩
  have hwithin := hbin.removeNodeLogged_within h.separate hmem (h.covers hle)
  have hsize : readWord s.mem (next.addr + NodeField.size.offset) = next.size := hrep.size
  rw [hsize]
  refine Logged.Within.bind hwithin fun t ht => ?_
  obtain rfl : s₁ = t := by
    rw [result_removeNodeLogged, hrem] at ht
    cases ht
    rfl
  have hcur₁ : readWord s₁.mem (cur.addr + NodeField.size.offset) = cur.size :=
    (htiled.represents cur (by simp)).size
  have hnext₁ : readWord s₁.mem (next.addr + NodeField.size.offset) = next.size :=
    (htiled.represents next (by simp)).size
  refine Logged.Within.bind (Logged.Within.readWord (hcur .size)) ?_
  rintro _ ⟨⟩
  refine Logged.Within.bind (Logged.Within.readWord (hnext .size)) ?_
  rintro _ ⟨⟩
  rw [hcur₁, hnext₁]
  refine Logged.Within.bind (Logged.Within.writeWord (hcur .size)) ?_
  rintro _ ⟨⟩
  refine Logged.Within.bind (getFootLogged_within hnext) fun foot hfoot => ?_
  obtain rfl : next.addr + sizeofNode + next.size = foot := by
    rw [← htiled.getFoot_setSize (cur.size + overhead + next.size)]
    exact Except.ok.inj hfoot
  refine Logged.Within.bind (Logged.Within.writeWord hfootIn) ?_
  rintro _ ⟨⟩
  refine Logged.Within.bind (Logged.Within.writeWord (hnext .size)) ?_
  rintro _ ⟨⟩
  refine Logged.Within.bind (Logged.Within.writeWord (hnext .hole)) ?_
  rintro _ ⟨⟩
  refine Logged.Within.bind (getFootLogged_within hcur) fun foot hfoot => ?_
  obtain rfl : next.addr + sizeofNode + next.size = foot := by
    rw [← htiled.getFoot_cleared]
    exact Except.ok.inj hfoot
  exact Logged.Within.bind (Logged.Within.writeWord hfootIn) fun _ _ => Logged.Within.pure

/-- The accesses of the second merge: behind the last block there has to be
another word of the heap. -/
theorem coalesceNextLogged_within (h : Pending s pre cur post) (hle : s.endAddress ≤ hi)
    (hbehind : post = [] →
      s.endAddress + 4 ≤ hi ∧ node s.mem s.endAddress .hole = 0) :
    Logged.Within (Inside s.start hi) (coalesceNextLogged s cur.next cur.addr) := by
  obtain ⟨mid, -, -, htail⟩ := tiles_append.mp h.tiled.tiles
  cases post with
  | nil =>
      obtain ⟨hroom, hzero⟩ := hbehind rfl
      have hend : cur.next = s.endAddress := htail
      have hstart := (h.tiled.tiles.bounds (b := cur) (by simp)).1
      have hnext := cur.next_eq
      rw [hend] at hnext
      rw [hend]
      unfold coalesceNextLogged
      refine Logged.Within.bind (Logged.Within.readWord ⟨?_, hroom⟩) ?_
      · show s.start ≤ s.endAddress + 0
        omega
      · rintro _ ⟨⟩
        exact Logged.Within.ite (fun hne => absurd hzero hne) fun _ => Logged.Within.pure
  | cons next post =>
      rw [← htail.1]
      exact h.coalesceNextLogged_cons hle

/-- The accesses of the end of `heap_free`. -/
theorem binBlockLogged_within (h : Pending s pre cur post) (hle : s.endAddress ≤ hi) :
    Logged.Within (Inside s.start hi) (binBlockLogged s cur.addr) := by
  have hcur := h.tiled.covers hle (b := cur) (by simp)
  unfold binBlockLogged
  refine Logged.Within.bind (Logged.Within.writeWord (hcur .hole)) ?_
  rintro _ ⟨⟩
  refine Logged.Within.bind (Logged.Within.readWord (hcur .size)) fun size hsize => ?_
  obtain rfl : cur.size = size :=
    ((h.tiled.represents cur (by simp)).setHole true).size.symm.trans (Except.ok.inj hsize)
  obtain ⟨sz, hbin₁⟩ := h.binned_marked
  have hnotMem : cur ∉ holes (pre ++ post) := fun hin =>
    (List.mem_append.mp hin.1).elim h.cur_notMem.1 h.cur_notMem.2
  have hsep : Separate (insert cur (holes (pre ++ post))) := by
    refine h.tiled.separate.mono fun b hb => ?_
    rcases Set.mem_insert_iff.mp hb with rfl | hb
    · show b ∈ pre ++ b :: post
      simp
    · exact mem_insert_middle hb.1
  refine hbin₁.addNodeLogged_within hsep hnotMem fun b hb => ?_
  rcases Set.mem_insert_iff.mp hb with rfl | hb
  · exact hcur
  · exact h.covers hle b hb

end Pending

/-! ### `heap_free`

The accesses of the whole routine, put together from those of its merges.  The
upper bound `hi` is not yet the end of the heap: it is the end of the blocks,
with one word more where the forward merge looks behind the last of them. -/

/-- **The words `heap_free` reads and writes** lie between the start of the
heap and `hi`, if `hi` leaves room for a word that says "no hole" behind a
last block. -/
theorem heapFreeLogged_within (h : HeapInv s (pre ++ head :: post)) (hlive : head.hole = false)
    (hle : s.endAddress ≤ hi)
    (hbehind : pre ≠ [] → post = [] →
      s.endAddress + 4 ≤ hi ∧ node s.mem s.endAddress .hole = 0) :
    Logged.Within (Inside s.start hi) (heapFreeLogged s head.payload) := by
  have hpend := Pending.of_inv h hlive
  have hhead := h.tiled.covers hle (b := head) (by simp)
  unfold heapFreeLogged
  rw [if_neg payload_ne_zero, sub32_payload h.tiled (by simp)]
  refine Logged.Within.ite (fun _ => hpend.binBlockLogged_within hle) fun hfirst => ?_
  rcases List.eq_nil_or_concat' pre with rfl | ⟨pre, prev, rfl⟩
  · exact absurd h.tiled.tiles.1 hfirst
  have htiled : WellTiled s.mem s.start s.endAddress (pre ++ prev :: head :: post) := by
    simpa using h.tiled
  refine Logged.Within.bind (getFootLogged_within hhead) fun foot hfoot => ?_
  obtain rfl : getFoot s.mem head.addr = foot := Except.ok.inj hfoot
  have hfooter := htiled.footer_before
  refine Logged.Within.bind (Logged.Within.readWord ?_) fun prev' hprev' => ?_
  · rw [hfooter]
    exact htiled.foot_inside hle (by simp)
  obtain rfl : prev.addr = prev' := by
    rw [← (htiled.represents prev (by simp)).foot, ← hfooter]
    exact Except.ok.inj hprev'
  obtain ⟨s₁, hco, hpend₁, hkeep₁, hs₁, he₁⟩ := coalescePrev_spec hpend
  refine Logged.Within.bind (hpend.coalescePrevLogged_within hle) fun merged hmerged => ?_
  obtain rfl : (s₁, (mergePrev pre prev head).2.addr) = merged := by
    rw [result_coalescePrevLogged, hco] at hmerged
    exact Except.ok.inj hmerged
  have hbehind₁ : post = [] → s₁.endAddress + 4 ≤ hi ∧ node s₁.mem s₁.endAddress .hole = 0 := by
    intro hpost
    obtain ⟨hroom, hzero⟩ := hbehind (by simp) hpost
    rw [he₁, ← hzero]
    exact ⟨hroom, readWord_congr fun x hx _ => hkeep₁.behind x hx⟩
  rw [htiled.getFoot_next (by simp), ← mergePrev_next pre htiled.tiles.adjacent]
  obtain ⟨s₂, hcn, hpend₂, -, hs₂, he₂⟩ :=
    coalesceNext_spec hpend₁ fun hpost => (hbehind₁ hpost).2
  refine Logged.Within.bind ?_ fun t ht => ?_
  · rw [← hs₁]
    exact hpend₁.coalesceNextLogged_within (he₁ ▸ hle) hbehind₁
  obtain rfl : s₂ = t := by
    rw [result_coalesceNextLogged, hcn] at ht
    exact Except.ok.inj ht
  have hbin := hpend₂.binBlockLogged_within (show s₂.endAddress ≤ hi by rw [he₂, he₁]; exact hle)
  rw [mergeNext_addr, hs₂, hs₁] at hbin
  exact hbin

/-- Another `heap->end`, with memory and bins as they are.  It is used for the
heap as it was before it was expanded. -/
def HeapState.withEnd (s : HeapState) (e : ℕ) : HeapState := { s with endAddress := e }

@[simp] theorem HeapState.withEnd_mem (s : HeapState) (e : ℕ) : (s.withEnd e).mem = s.mem := rfl

@[simp] theorem HeapState.withEnd_start (s : HeapState) (e : ℕ) :
    (s.withEnd e).start = s.start := rfl

@[simp] theorem HeapState.withEnd_endAddress (s : HeapState) (e : ℕ) :
    (s.withEnd e).endAddress = e := rfl

open Logged in
theorem addNodeLogged_withEnd (s : HeapState) (e bin n : ℕ) :
    Alike (·.withEnd e) (addNodeLogged s bin n) (addNodeLogged (s.withEnd e) bin n) := by
  unfold addNodeLogged
  refine Alike.bind_same fun m => Alike.bind_same fun m => Alike.ite (Alike.pure rfl) ?_
  refine Alike.bind_same fun place => Alike.ite (Alike.ite Alike.fail ?_) (Alike.ite ?_ ?_)
  · exact Alike.bind_same fun _ => Alike.bind_same fun _ => Alike.pure rfl
  · exact Alike.bind_same fun _ => Alike.bind_same fun _ => Alike.bind_same fun _ =>
      Alike.bind_same fun _ => Alike.pure rfl
  · exact Alike.bind_same fun _ => Alike.bind_same fun _ => Alike.pure rfl

open Logged in
theorem removeNodeLogged_withEnd (s : HeapState) (e bin n : ℕ) :
    Alike (·.withEnd e) (removeNodeLogged s bin n) (removeNodeLogged (s.withEnd e) bin n) := by
  unfold removeNodeLogged
  refine Alike.ite (Alike.pure rfl) (Alike.ite (Alike.bind_same fun _ => Alike.pure rfl) ?_)
  refine Alike.bind_same fun _ => Alike.bind_same fun _ => Alike.ite ?_ (Alike.pure rfl)
  refine Alike.bind_same fun _ => Alike.bind_same fun _ => Alike.ite Alike.fail ?_
  refine Alike.ite (Alike.bind_same fun _ => Alike.pure rfl) ?_
  exact Alike.bind_same fun _ => Alike.bind_same fun _ => Alike.bind_same fun _ =>
    Alike.bind_same fun _ => Alike.pure rfl

open Logged in
theorem coalescePrevLogged_withEnd (s : HeapState) (e p n : ℕ) :
    Alike (fun r => (r.1.withEnd e, r.2)) (coalescePrevLogged s p n)
      (coalescePrevLogged (s.withEnd e) p n) := by
  unfold coalescePrevLogged
  refine Alike.bind_same fun _ => Alike.ite ?_ (Alike.pure rfl)
  refine Alike.bind_same fun _ => Alike.bind (removeNodeLogged_withEnd s e _ _) fun t => ?_
  exact Alike.bind_same fun _ => Alike.bind_same fun _ => Alike.bind_same fun _ =>
    Alike.bind_same fun _ => Alike.bind_same fun _ => Alike.pure rfl

open Logged in
theorem coalesceNextLogged_withEnd (s : HeapState) (e p n : ℕ) :
    Alike (·.withEnd e) (coalesceNextLogged s p n) (coalesceNextLogged (s.withEnd e) p n) := by
  unfold coalesceNextLogged
  refine Alike.bind_same fun _ => Alike.ite ?_ (Alike.pure rfl)
  refine Alike.bind_same fun _ => Alike.bind (removeNodeLogged_withEnd s e _ _) fun t => ?_
  exact Alike.bind_same fun _ => Alike.bind_same fun _ => Alike.bind_same fun _ =>
    Alike.bind_same fun _ => Alike.bind_same fun _ => Alike.bind_same fun _ =>
    Alike.bind_same fun _ => Alike.bind_same fun _ => Alike.bind_same fun _ => Alike.pure rfl

open Logged in
theorem binBlockLogged_withEnd (s : HeapState) (e n : ℕ) :
    Alike (·.withEnd e) (binBlockLogged s n) (binBlockLogged (s.withEnd e) n) := by
  unfold binBlockLogged
  exact Alike.bind_same fun m => Alike.bind_same fun _ => addNodeLogged_withEnd (s.withMem m) e _ _

open Logged in
/-- **`heap_free` does not look at `heap->end`.** -/
theorem heapFreeLogged_withEnd (s : HeapState) (e p : ℕ) :
    Alike (·.withEnd e) (heapFreeLogged s p) (heapFreeLogged (s.withEnd e) p) := by
  unfold heapFreeLogged
  refine Alike.ite (Alike.pure rfl) (Alike.ite (binBlockLogged_withEnd s e _) ?_)
  refine Alike.bind_same fun _ => Alike.bind_same fun _ => ?_
  refine Alike.bind (coalescePrevLogged_withEnd s e _ _) fun merged => ?_
  exact Alike.bind (coalesceNextLogged_withEnd merged.1 e _ _) fun t => binBlockLogged_withEnd t e _

theorem heapFree_withEnd (s : HeapState) (e p : ℕ) :
    heapFree (s.withEnd e) p = (heapFree s p).map (·.withEnd e) := by
  rw [← result_heapFreeLogged, ← result_heapFreeLogged]
  exact (heapFreeLogged_withEnd s e p).result

theorem addNode_withEnd (s : HeapState) (e bin n : ℕ) :
    addNode (s.withEnd e) bin n = (addNode s bin n).map (·.withEnd e) := by
  rw [← result_addNodeLogged, ← result_addNodeLogged]
  exact (addNodeLogged_withEnd s e bin n).result

theorem removeNode_withEnd (s : HeapState) (e bin n : ℕ) :
    removeNode (s.withEnd e) bin n = (removeNode s bin n).map (·.withEnd e) := by
  rw [← result_removeNodeLogged, ← result_removeNodeLogged]
  exact (removeNodeLogged_withEnd s e bin n).result

theorem searchBins_withEnd (s : HeapState) (e size : ℕ) :
    ∀ fuel index, searchBins (s.withEnd e) size fuel index = searchBins s size fuel index := by
  intro fuel
  induction fuel with
  | zero => exact fun _ => rfl
  | succ fuel ih =>
      intro index
      unfold searchBins
      rw [ih]
      rfl

theorem splitBlock_withEnd (s : HeapState) (e found size : ℕ) :
    splitBlock (s.withEnd e) found size = (splitBlock s found size).map (·.withEnd e) := by
  unfold splitBlock
  dsimp only [HeapState.withEnd_mem]
  generalize hm : createFoot _ _ = m₁
  rw [show (s.withEnd e).withMem m₁ = (s.withMem m₁).withEnd e from rfl, addNode_withEnd]
  cases addNode (s.withMem m₁) _ _ <;> rfl

/-- **Placement does not look at `heap->end`** either: with another end it
finds the same block and splits it in the same way. -/
theorem placeBlock_withEnd (s : HeapState) (e size : ℕ) :
    placeBlock (s.withEnd e) size =
      (placeBlock s size).map (Option.map fun r => (r.1.withEnd e, r.2)) := by
  unfold placeBlock
  rw [searchBins_withEnd]
  rcases searchBins s size binCount (getBinIndex size) with t | _ | ⟨found, index⟩
  · rfl
  · rfl
  have hstep : ∀ t : HeapState,
      (removeNode ((t.withEnd e).withMem (setNode (t.withEnd e).mem found .hole 0)) index found >>=
        fun s => (.ok (some (s, found)) : Exec (Option (HeapState × ℕ)))) =
      (removeNode (t.withMem (setNode t.mem found .hole 0)) index found >>=
        fun s => (.ok (some (s, found)) : Exec (Option (HeapState × ℕ)))).map
          (Option.map fun r => (r.1.withEnd e, r.2)) := by
    intro t
    rw [show (t.withEnd e).withMem (setNode (t.withEnd e).mem found .hole 0) =
      (t.withMem (setNode t.mem found .hole 0)).withEnd e from rfl, removeNode_withEnd]
    cases removeNode (t.withMem (setNode t.mem found .hole 0)) index found <;> rfl
  rw [Exec.ok_bind, Exec.ok_bind]
  dsimp only
  by_cases hcut : overhead + minAllocSz < sub32 (node s.mem found .size) size
  · have hcut' : overhead + minAllocSz < sub32 (node (s.withEnd e).mem found .size) size := hcut
    rw [if_pos hcut, if_pos hcut', splitBlock_withEnd]
    cases splitBlock s found size with
    | error t => rfl
    | ok t =>
        rw [show (Except.ok t : Exec HeapState).map (·.withEnd e) = .ok (t.withEnd e) from rfl,
          Exec.ok_bind, Exec.ok_bind]
        exact hstep t
  · have hcut' : ¬overhead + minAllocSz < sub32 (node (s.withEnd e).mem found .size) size := hcut
    rw [if_neg hcut, if_neg hcut']
    exact hstep s

/-! ### Runs

The heap of a run has been expanded at most once.  After that its last word is
zero, `get_wilderness` gives the null pointer, and every further request that
finds a hole ends there (`heapAlloc_error`).  So the invariant `Grown` has two
cases only: the heap as it was set up, and the same with one page of zeros
behind its blocks. -/

/-- Any request; a free that looks at no word behind the heap; or clients
writing into the blocks they hold. -/
inductive InsideStep : InUse → InUse → Prop
  | alloc {u : InUse} {s' : HeapState} {p : ℕ} (granted : Bool) (size : ℕ)
      (h : heapAlloc granted u.state size = .ok (s', p)) :
      InsideStep u ⟨s', if p = 0 then u.live else p :: u.live⟩
  | free {u : InUse} {s' : HeapState} {p : ℕ} (hp : p ∈ u.live) (hin : LooksInside u.state p)
      (h : heapFree u.state p = .ok s') : InsideStep u ⟨s', u.live.erase p⟩
  | freeNull {u : InUse} {s' : HeapState} (h : heapFree u.state 0 = .ok s') :
      InsideStep u ⟨s', u.live⟩
  | write {u : InUse} (m : ByteMemory)
      (h : ∀ x, (∀ p ∈ u.live, x < p ∨ p + getAllocSize u.state.mem p ≤ x) →
        m x = u.state.mem x) : InsideStep u ⟨u.state.withMem m, u.live⟩

/-- The pointers are payloads of blocks in use, without repetitions; there may
be blocks in use that nobody holds. -/
structure Held (live : List ℕ) (blocks : List Block) : Prop where
  mem : ∀ p ∈ live, ∃ b ∈ blocks, b.hole = false ∧ b.payload = p
  nodup : live.Nodup

/-- The run invariant: blocks tile the range that `create_heap` set up, and
the heap ends there or one page further on, which is still zero. -/
structure InUse.Grown (start : ℕ) (u : InUse) (blocks : List Block) : Prop where
  heap : HeapInv (u.state.withEnd (start + heapInitSize)) blocks
  held : Held u.live blocks
  start_eq : u.state.start = start
  ends : u.state.endAddress = start + heapInitSize ∨
    (u.state.endAddress = start + heapInitSize + pageSize ∧
      ∀ x, start + heapInitSize ≤ x → x < start + heapInitSize + pageSize → u.state.mem x = 0)

/-- The blocks after a request: as they were where no hole is large enough,
and with the block found placed elsewhere. -/
inductive Served (s : HeapState) (size p : ℕ) : List Block → List Block → Prop
  | none {blocks : List Block} (hp : p = 0)
      (h : searchBins s size binCount (getBinIndex size) = .ok none) : Served s size p blocks blocks
  | placed {pre post : List Block} {found : Block} {index : ℕ} (hhole : found.hole = true)
      (hfits : size ≤ found.size)
      (h : searchBins s size binCount (getBinIndex size) = .ok (some (found.addr, index)))
      (hp : p = 0 ∨ p = found.payload) :
      Served s size p (pre ++ found :: post) (placed pre found post size)

namespace Held

/-- Placement leaves the other blocks in use where they are. -/
theorem placed (h : Held live (pre ++ found :: post)) (hhole : found.hole = true) :
    Held live (placed pre found post size) where
  mem p hp := by
    obtain ⟨b, hb, hl, rfl⟩ := h.mem p hp
    refine ⟨b, ?_, hl, rfl⟩
    have hne := ne_of_hole hl hhole
    simp only [List.mem_append, List.mem_cons] at hb
    simp only [Heap.placed, List.mem_append, List.mem_cons]
    tauto
  nodup := h.nodup

/-- The block placed is handed out. -/
theorem alloc (h : Held live (pre ++ found :: post))
    (htiles : Tiles start (pre ++ found :: post) stop) (hhole : found.hole = true) :
    Held (found.payload :: live) (Heap.placed pre found post size) where
  mem p hp := by
    rcases List.mem_cons.mp hp with rfl | hp
    · exact ⟨⟨found.addr, kept found size, false⟩, by simp [Heap.placed], rfl, rfl⟩
    · exact (h.placed hhole).mem p hp
  nodup := by
    refine List.nodup_cons.mpr ⟨fun hin => ?_, h.nodup⟩
    obtain ⟨b, hb, hl, heq⟩ := h.mem _ hin
    exact ne_of_hole hl hhole (htiles.payload_inj hb (by simp) heq)

theorem free (h : Held live (pre ++ head :: post))
    (hmem : ∀ b, b.hole = false → (b ∈ blocks ↔ b ∈ pre ++ post)) :
    Held (live.erase head.payload) blocks where
  mem p hp := by
    obtain ⟨hne, hp⟩ := h.nodup.mem_erase_iff.mp hp
    obtain ⟨b, hb, hl, rfl⟩ := h.mem p hp
    refine ⟨b, (hmem b hl).mpr ?_, hl, rfl⟩
    simp only [List.mem_append, List.mem_cons] at hb ⊢
    rcases hb with hb | rfl | hb
    · exact Or.inl hb
    · exact absurd rfl hne
    · exact Or.inr hb
  nodup := h.nodup.erase _

end Held

namespace InUse.Grown

variable {u u' : InUse} {p : ℕ}

/-- The range the blocks tile. -/
theorem tiled_end (h : u.Grown start blocks) :
    start + heapInitSize ≤ u.state.endAddress ∧
      u.state.endAddress ≤ start + heapInitSize + pageSize := by
  rcases h.ends with he | ⟨he, -⟩ <;> rw [he] <;> exact ⟨by omega, by omega⟩

theorem getAllocSize_eq (h : u.Grown start blocks) (hb : b ∈ blocks) :
    getAllocSize u.state.mem b.payload = b.size := h.heap.tiled.getAllocSize_eq hb

theorem behind_eq (h : u.Grown start blocks) (hb : b ∈ blocks) :
    behind u.state b.payload = b.next :=
  Heap.behind_eq (s := u.state) h.heap.tiled hb

/-- A last block has a word behind it that says "no hole", if there is one at
all: the heap has grown, and the page that came with it was zero and is not
written to. -/
theorem behind_last (h : u.Grown start (pre ++ head :: post))
    (hin : LooksInside u.state head.payload) (hpre : pre ≠ []) (hpost : post = []) :
    start + heapInitSize + 4 ≤ u.state.endAddress ∧
      node u.state.mem (start + heapInitSize) .hole = 0 := by
  have hfirst : sub32 head.payload offset ≠ u.state.start := by
    rw [sub32_payload h.heap.tiled (by simp)]
    exact mt (addr_eq_start_iff h.heap).mp hpre
  have hnext : head.next = start + heapInitSize := (next_eq_end_iff h.heap).mpr hpost
  have hne := hin.resolve_left hfirst
  rw [h.behind_eq (by simp), hnext] at hne
  rcases h.ends with he | ⟨he, hzero⟩
  · exact absurd he.symm hne
  · refine ⟨by rw [he]; unfold pageSize; omega, readWord_eq_zero fun x hx hx' => ?_⟩
    replace hx : start + heapInitSize ≤ x := hx
    replace hx' : x < start + heapInitSize + 4 := hx'
    exact hzero x hx (by unfold pageSize; omega)

/-- **`heap_free` of a live block that looks inside the heap** stays inside. -/
theorem staysInside (h : u.Grown start blocks) (hp : p ∈ u.live) (hin : LooksInside u.state p) :
    StaysInside u.state p := by
  obtain ⟨head, hhead, hlive, rfl⟩ := h.held.mem p hp
  obtain ⟨pre, post, rfl⟩ := List.append_of_mem hhead
  have hwithin := heapFreeLogged_within h.heap hlive h.tiled_end.1 (h.behind_last hin)
  intro a ha
  refine hwithin a ?_
  rw [(heapFreeLogged_withEnd u.state _ _).log]
  exact ha

/-- What a free that looks inside does to the invariant. -/
theorem free (h : u.Grown start blocks) (hp : p ∈ u.live) (hin : LooksInside u.state p) :
    ∃ s' blocks', heapFree u.state p = .ok s' ∧ Grown start ⟨s', u.live.erase p⟩ blocks' ∧
      ∀ d, d ∣ overhead → (∀ b ∈ blocks, d ∣ b.size) → ∀ b ∈ blocks', d ∣ b.size := by
  obtain ⟨head, hhead, hlive, rfl⟩ := h.held.mem p hp
  obtain ⟨pre, post, rfl⟩ := List.append_of_mem hhead
  obtain ⟨t, blocks', hfree, hinv, hkeep, hmem, -, hdvd, hs, he⟩ :=
    heapFree_spec h.heap hlive fun hpre hpost => (h.behind_last hin hpre hpost).2
  have hfree' : heapFree u.state head.payload = .ok (t.withEnd u.state.endAddress) := by
    have heq := heapFree_withEnd (u.state.withEnd (start + heapInitSize)) u.state.endAddress
      head.payload
    rw [hfree] at heq
    exact heq
  refine ⟨_, blocks', hfree', ⟨?_, h.held.free hmem, hs.trans h.start_eq, ?_⟩, hdvd⟩
  · show HeapInv (t.withEnd (start + heapInitSize)) blocks'
    have ht : t.withEnd (start + heapInitSize) = t := by
      rw [show start + heapInitSize = t.endAddress from he.symm]
      rfl
    rw [ht]
    exact hinv
  · refine h.ends.imp_right fun hzero => ⟨hzero.1, fun x hx hx' => ?_⟩
    exact (hkeep.behind x hx).trans (hzero.2 x hx hx')

/-- Memory that was zero behind the blocks is, whatever a block in use
receives. -/
theorem zero_handOut {t : HeapState} (ht : HeapInv t blocks) (hb : b ∈ blocks) {x : ℕ}
    (hx : t.endAddress ≤ x) : (handOut t b.addr).1.mem x = t.mem x := by
  have hbound := (ht.tiled.tiles.bounds hb).2
  rw [b.next_eq] at hbound
  show writeWord (writeWord t.mem (b.addr + 12) 0) (b.addr + 8) 0 x = _
  rw [writeWord_apply_of_notMem (by omega), writeWord_apply_of_notMem (by omega)]

/-- With a page of zeros at its end the heap has no wilderness, and placing a
request ends at the null pointer.  A heap that has been expanded serves no
request any more. -/
theorem heapAlloc_error {t : HeapState} {a stop : ℕ} (granted : Bool)
    (hplace : placeBlock s size = .ok (some (t, a))) (hstop : t.endAddress = stop + pageSize)
    (hbound : stop + pageSize < 2 ^ 32)
    (hzero : ∀ x, stop ≤ x → x < stop + pageSize → t.mem x = 0) :
    heapAlloc granted s size = .error .nullDereference := by
  have hwild : getWilderness t = 0 := by
    unfold getWilderness
    rw [hstop]
    unfold pageSize sizeofFooter at *
    rw [sub32_of_le (by omega) hbound]
    exact readWord_eq_zero fun x hx hx' => hzero x (by omega) (by omega)
  unfold heapAlloc
  rw [hplace, Exec.ok_bind]
  dsimp only
  rw [if_pos hwild]

/-- The page that `expand` adds lies behind all blocks and is zero; the blocks
are those of the heap without it. -/
theorem expand_inv {t : HeapState} (ht : HeapInv t blocks) (hb : b ∈ blocks)
    (hlive : b.hole = false) (hbound : t.endAddress + pageSize < 2 ^ 32) :
    HeapInv ((handOut (expand true t).1 b.addr).1.withEnd t.endAddress) blocks ∧
      (handOut (expand true t).1 b.addr).1.endAddress = t.endAddress + pageSize ∧
      ∀ x, t.endAddress ≤ x → x < t.endAddress + pageSize →
        (handOut (expand true t).1 b.addr).1.mem x = 0 := by
  have hfill : HeapInv (t.withMem (fill t.mem t.endAddress pageSize 0)) blocks :=
    ht.of_payload fun x hx _ => fill_apply_of_notMem (Or.inl hx)
  refine ⟨hfill.handOut hb hlive, Nat.mod_eq_of_lt hbound, fun x hx hx' => ?_⟩
  exact (zero_handOut hfill hb hx).trans (fill_apply_of_mem hx hx')

/-- **Any request** keeps the invariant, if it returns, whether it ends
quietly, is refused a page or gets one.  The end of the heap never moves down. -/
theorem alloc {s' : HeapState} (h : u.Grown start blocks)
    (hend : start + heapInitSize + pageSize < 2 ^ 32) (granted : Bool)
    (halloc : heapAlloc granted u.state size = .ok (s', p)) :
    ∃ blocks', Grown start ⟨s', if p = 0 then u.live else p :: u.live⟩ blocks' ∧
      Served u.state size p blocks blocks' ∧ u.state.endAddress ≤ s'.endAddress := by
  have hplace := placeBlock_withEnd (u.state.withEnd (start + heapInitSize)) u.state.endAddress size
  rw [show (u.state.withEnd (start + heapInitSize)).withEnd u.state.endAddress = u.state from rfl]
    at hplace
  have hsearch :=
    searchBins_withEnd (u.state.withEnd (start + heapInitSize)) u.state.endAddress size
    binCount (getBinIndex size)
  rw [show (u.state.withEnd (start + heapInitSize)).withEnd u.state.endAddress = u.state from rfl]
    at hsearch
  rcases placeBlock_spec h.heap size with ⟨hnone, hempty⟩ |
    ⟨pre, found, post, t, rfl, hhole, hfits, hfound, hsome, hinv, hframe, hs, he⟩
  · rw [hnone] at hplace
    obtain ⟨rfl, rfl⟩ : s' = u.state ∧ p = 0 := by
      rw [heapAlloc_none granted hplace] at halloc
      simpa using halloc.symm
    exact ⟨blocks, h, .none rfl (hsearch.trans hempty), le_refl _⟩
  rw [hsome] at hplace
  replace hplace : placeBlock u.state size =
    .ok (some (t.withEnd u.state.endAddress, found.addr)) := hplace
  replace he : t.endAddress = start + heapInitSize := he
  replace hs : t.start = start := hs.trans h.start_eq
  have hserved : p = 0 ∨ p = found.payload →
      Served u.state size p (pre ++ found :: post) (Heap.placed pre found post size) := fun hp =>
    .placed hhole hfits (hsearch.trans hfound) hp
  have hbehind : ∀ x, start + heapInitSize ≤ x → t.mem x = u.state.mem x := by
    intro x hx
    refine hframe x (Or.inr ((h.heap.tiled.tiles.bounds (b := found) (by simp)).2.trans hx)) ?_
    intro c hc
    have := (h.heap.tiled.tiles.bounds hc.1).2
    rw [c.next_eq] at this
    replace this : c.addr + 20 + c.size ≤ start + heapInitSize := this
    omega
  rcases h.ends with hends | ⟨hends, hzero⟩
  · -- the blocks tile the whole heap
    have ht : t.withEnd u.state.endAddress = t := by
      rw [hends, ← he]
      rfl
    rw [ht] at hplace
    obtain ⟨init, last, hblocks⟩ := hinv.exists_last (by rw [he, hs]; unfold heapInitSize; omega)
    have hplaced := heapAlloc_placed granted hplace (hblocks ▸ hinv)
    let taken : Block := ⟨found.addr, kept found size, false⟩
    have htaken : taken ∈ Heap.placed pre found post size := by simp [Heap.placed, taken]
    have htend : t.withEnd (start + heapInitSize) = t := by
      rw [← he]
      rfl
    have hheld : Held u.live (Heap.placed pre found post size) := h.held.placed hhole
    have hheld' : Held (found.payload :: u.live) (Heap.placed pre found post size) :=
      h.held.alloc h.heap.tiled.tiles hhole
    have hlast : ¬maxWilderness < last.size := by
      have hb := hinv.tiled.tiles.bounds (b := last) (by simp [hblocks])
      rw [last.next_eq, he, hs] at hb
      unfold maxWilderness
      unfold heapInitSize at hb
      omega
    by_cases hmin : last.size < minWilderness
    · rw [if_pos hmin] at hplaced
      cases granted with
      | false =>
          obtain ⟨rfl, rfl⟩ : s' = t ∧ p = 0 := by
            rw [hplaced] at halloc
            simpa using halloc.symm
          refine ⟨_, ⟨?_, hheld, hs, Or.inl he⟩, hserved (.inl rfl), (hends.trans he.symm).le⟩
          show HeapInv (s'.withEnd (start + heapInitSize)) (Heap.placed pre found post size)
          rw [htend]
          exact hinv
      | true =>
          obtain ⟨rfl, rfl⟩ :
              s' = (handOut (expand true t).1 found.addr).1 ∧ p = found.payload := by
            rw [hplaced] at halloc
            cases halloc
            exact ⟨rfl, rfl⟩
          have hroom : t.endAddress + pageSize < 2 ^ 32 := by
            rw [he]
            exact hend
          obtain ⟨hinv', hend', hzero⟩ := expand_inv (b := taken) hinv htaken rfl hroom
          rw [he] at hinv' hend' hzero
          rw [if_neg payload_ne_zero]
          refine ⟨_, ⟨hinv', hheld', hs, Or.inr ⟨hend', hzero⟩⟩, hserved (.inr rfl), ?_⟩
          rw [hends, hend']
          exact Nat.le_add_right _ _
    · rw [if_neg hmin, if_neg hlast] at hplaced
      obtain ⟨rfl, rfl⟩ : s' = (handOut t found.addr).1 ∧ p = found.payload := by
        rw [hplaced] at halloc
        cases halloc
        exact ⟨rfl, rfl⟩
      rw [if_neg payload_ne_zero]
      refine ⟨_, ⟨?_, hheld', hs, Or.inl he⟩, hserved (.inr rfl), (hends.trans he.symm).le⟩
      have hout := hinv.handOut (b := taken) htaken rfl
      show HeapInv ((handOut t found.addr).1.withEnd (start + heapInitSize)) _
      rw [← he]
      exact hout
  · -- a page was added before
    have herror := heapAlloc_error granted hplace hends hend fun x hx hx' =>
      (hbehind x hx).trans (hzero x hx hx')
    rw [halloc] at herror
    cases herror

/-- Clients write into the blocks they hold. -/
theorem write (h : u.Grown start blocks)
    (hm : ∀ x, (∀ p ∈ u.live, x < p ∨ p + getAllocSize u.state.mem p ≤ x) →
      m x = u.state.mem x) : Grown start ⟨u.state.withMem m, u.live⟩ blocks := by
  have hkeep : ∀ x, (∀ b ∈ blocks, b.hole = false →
      x < b.addr + 8 ∨ b.addr + 16 + b.size ≤ x) → m x = u.state.mem x := by
    refine fun x hx => hm x fun p hp => ?_
    obtain ⟨b, hb, hl, rfl⟩ := h.held.mem p hp
    have := hx b hb hl
    rw [h.getAllocSize_eq hb]
    show x < b.addr + 8 ∨ b.addr + 8 + b.size ≤ x
    omega
  refine ⟨h.heap.of_payload fun x _ hx => hkeep x hx, h.held, h.start_eq,
    h.ends.imp_right fun hzero => ⟨hzero.1, fun x hx hx' => ?_⟩⟩
  refine (hkeep x fun b hb _ => Or.inr ?_).trans (hzero.2 x hx hx')
  have := (h.heap.tiled.tiles.bounds hb).2
  rw [b.next_eq] at this
  replace this : b.addr + 20 + b.size ≤ start + heapInitSize := this
  omega

/-- **Every step** keeps the invariant. -/
theorem step (h : u.Grown start blocks) (hend : start + heapInitSize + pageSize < 2 ^ 32)
    (hstep : InsideStep u u') : ∃ blocks', u'.Grown start blocks' := by
  cases hstep with
  | alloc granted size halloc =>
      obtain ⟨blocks', h', -⟩ := h.alloc hend granted halloc
      exact ⟨blocks', h'⟩
  | free hp hin hfree =>
      obtain ⟨s', blocks', hfree', h', -⟩ := h.free hp hin
      rw [hfree] at hfree'
      cases hfree'
      exact ⟨blocks', h'⟩
  | freeNull hfree =>
      unfold heapFree at hfree
      rw [if_pos rfl] at hfree
      cases hfree
      exact ⟨blocks, h⟩
  | write m hm => exact ⟨blocks, h.write hm⟩

end InUse.Grown

/-- The fresh heap has not grown yet, and satisfies the invariant of a heap
that may have. -/
theorem grown_createHeap (m : ByteMemory) (hstart : 0 < start)
    (hend : start + heapInitSize < 2 ^ 32) :
    ∃ s, createHeap m (fun _ => 0) start = .ok s ∧
      HeapInv s [firstBlock start] ∧ InUse.Grown start ⟨s, []⟩ [firstBlock start] := by
  obtain ⟨s, hcreate, hinv, hs, he⟩ := createHeap_spec m start hstart hend
  refine ⟨s, hcreate, hinv, ?_, ⟨fun p hp => absurd hp List.not_mem_nil, List.nodup_nil⟩, hs,
    Or.inl he⟩
  show HeapInv (s.withEnd (start + heapInitSize)) _
  rw [← he]
  exact hinv

end CourseOs.Heap
