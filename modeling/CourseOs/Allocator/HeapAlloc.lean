import CourseOs.Allocator.HeapInvariant

/-!
# What `heap_alloc` does to the blocks

`placeBlock` takes a hole that is large enough out of its bin.  If much is
left over, the block is cut in two first: `kept` is the size the block keeps
and `rest` the list with the hole that is split off, if any.

* `searchBins_spec` — the search returns a smallest hole that fits, or there
  is none from the given bin on;
* `carve_spec` — the first `if` of `heap_alloc`: while the block found is
  still in its bin, the rest is already in its own;
* `placeBlock_spec` — the heap after placement, in terms of its blocks.

Between the cut and the removal from the bin the heap is not well formed: the
block found is in the bin of the size it had.  `Carved` describes that state,
with the bins for the sizes they were sorted by, and `take_spec` leads from it
to `placed`, the blocks after the request.
-/

namespace CourseOs.Heap

open ByteMemory LinkedList

variable {m m' : ByteMemory} {s : HeapState} {blocks pre post : List Block} {b c found : Block}
  {size : ℕ} {H : Set Block} {sz : ℕ → ℕ}

/-! ### The search

Two orders work together: `get_bin_index` is monotone, and each bin is sorted.
So the first bin that has a hole that fits has a smallest one, and the first
hole of this bin that fits is it. -/

theorem getBinIndex_mono {a b : ℕ} (h : a ≤ b) : getBinIndex a ≤ getBinIndex b := by
  have hle : (if a < 4 then 4 else a) ≤ (if b < 4 then 4 else b) := by
    split <;> split <;> omega
  have ha : (if a < 4 then 4 else a) ≠ 0 := by
    split <;> omega
  have hb : (if b < 4 then 4 else b) ≠ 0 := by
    split <;> omega
  have hlog : (if a < 4 then 4 else a).log2 ≤ (if b < 4 then 4 else b).log2 :=
    (Nat.le_log2 hb).mpr ((Nat.log2_self_le ha).trans hle)
  show (if 8 < Nat.log2 _ - 2 then 8 else Nat.log2 _ - 2) ≤
    (if 8 < Nat.log2 _ - 2 then 8 else Nat.log2 _ - 2)
  generalize (if a < 4 then 4 else a).log2 = i at hlog ⊢
  generalize (if b < 4 then 4 else b).log2 = j at hlog ⊢
  split <;> split <;> omega

/-- In a sorted list the first node that fits is a smallest one that does. -/
theorem le_of_find?_sorted {xs : List ℕ} {f : ℕ → ℕ} (hsorted : xs.Pairwise fun a b => f a ≤ f b)
    {a x : ℕ} (hfind : (xs.find? fun a => decide (size ≤ f a)) = some a) (hx : x ∈ xs)
    (hfit : size ≤ f x) : f a ≤ f x := by
  obtain ⟨-, l, r, rfl, hl⟩ := List.find?_eq_some_iff_append.mp hfind
  rcases List.mem_append.mp hx with hx | hx
  · have := hl x hx
    simp only [Bool.not_eq_eq_eq_not, Bool.not_true, decide_eq_false_iff_not] at this
    exact absurd hfit this
  · rcases List.mem_cons.mp hx with rfl | hx
    · exact le_refl _
    · exact (List.pairwise_cons.mp (List.pairwise_append.mp hsorted).2.1).1 x hx

/-- From a bin on, the search finds a smallest hole that fits, or there is
none.  Holes in later bins are larger, so the first bin with a hole that fits
has the smallest. -/
theorem searchBins_spec (h : Binned s.mem s.bins H sz) (hsep : Separate H)
    (hmem : ∀ b ∈ H, node s.mem b.addr .size = b.size) (size : ℕ) :
    ∀ fuel index, index < binCount → binCount ≤ index + fuel →
      (searchBins s size fuel index = .ok none ∧
        ∀ b ∈ H, index ≤ getBinIndex b.size → b.size < size) ∨
      ∃ b ∈ H, size ≤ b.size ∧
        (∀ c ∈ H, index ≤ getBinIndex c.size → size ≤ c.size → b.size ≤ c.size) ∧
        searchBins s size fuel index = .ok (some (b.addr, getBinIndex b.size)) := by
  intro fuel
  induction fuel with
  | zero =>
      intro index hlt hle
      omega
  | succ fuel ih =>
      intro index hlt hle
      obtain ⟨xs, hbin, hxs⟩ := h.bin index hlt
      have hA : ∀ a ∈ xs, addrs H a := by
        intro a ha
        obtain ⟨b, hb, hba, -⟩ := (hxs a).mp ha
        exact ⟨b, hb, hba⟩
      have hbest := getBestFit_spec size hbin hsep.nodesApart hA
      unfold searchBins
      rw [hbest, Exec.ok_bind]
      cases hfind : xs.find? fun a => size ≤ node s.mem a .size with
      | some a =>
          have ha : a ∈ xs := List.mem_of_find?_eq_some hfind
          have hfit : size ≤ node s.mem a .size := by simpa using List.find?_some hfind
          obtain ⟨b, hb, rfl, hbi⟩ := (hxs a).mp ha
          have h0 : b.addr ≠ 0 := Nat.pos_iff_ne_zero.mp (hsep.pos b hb)
          have hsorted : xs.Pairwise fun a b => node s.mem a .size ≤ node s.mem b .size := by
            refine hbin.sorted.imp_of_mem fun {x y} hx hy hle => ?_
            obtain ⟨c, hc, rfl, -⟩ := (hxs x).mp hx
            obtain ⟨d, hd, rfl, -⟩ := (hxs y).mp hy
            rwa [h.size_eq c hc, h.size_eq d hd, ← hmem c hc, ← hmem d hd] at hle
          refine Or.inr ⟨b, hb, hmem b hb ▸ hfit, fun c hc hge hcfit => ?_, ?_⟩
          · -- a hole that were smaller would be in the same bin, and come first there
            by_contra hlt'
            have hci : getBinIndex c.size = index :=
              le_antisymm (hbi ▸ getBinIndex_mono (not_le.mp hlt').le) hge
            have hle' := le_of_find?_sorted hsorted hfind ((hxs c.addr).mpr ⟨c, hc, rfl, hci⟩)
              (hmem c hc ▸ hcfit)
            rw [hmem b hb, hmem c hc] at hle'
            exact hlt' hle'
          · rw [Option.getD_some, if_pos h0, hbi]
      | none =>
          have hnone : ∀ b ∈ H, getBinIndex b.size = index → b.size < size := by
            intro b hb hbi
            have := List.find?_eq_none.mp hfind b.addr ((hxs b.addr).mpr ⟨b, hb, rfl, hbi⟩)
            rw [hmem b hb] at this
            simpa using this
          rw [Option.getD_none, if_neg (by simp)]
          by_cases hlast : binCount ≤ index + 1
          · rw [if_pos hlast]
            refine Or.inl ⟨rfl, fun b hb hle => hnone b hb ?_⟩
            have := getBinIndex_lt b.size
            omega
          · rw [if_neg hlast]
            rcases ih (index + 1) (by omega) (by omega) with ⟨hs, hno⟩ | ⟨b, hb, hfit, hleast, hs⟩
            · refine Or.inl ⟨hs, fun b hb hle => ?_⟩
              by_cases heq : getBinIndex b.size = index
              · exact hnone b hb heq
              · exact hno b hb (by omega)
            · refine Or.inr ⟨b, hb, hfit, fun c hc hge hcfit => ?_, hs⟩
              by_cases heq : getBinIndex c.size = index
              · exact absurd (hnone c hc heq) (not_lt.mpr hcfit)
              · exact hleast c hc (by omega) hcfit

/-! ### Splitting

The hole that is split off is written and put in its bin while the block it
was cut from is still in its own bin, with its old size.  `Carved` describes
this intermediate state: the tiling is the new one already, and the bins are
those of the old holes and the new one, sorted by sizes that memory no longer
has. -/

/-- The size a block keeps when it is taken for a request of `size` bytes: all
of it, where what is left would be too small for a block. -/
def kept (found : Block) (size : ℕ) : ℕ :=
  if overhead + minAllocSz < found.size - size then size else found.size

/-- The hole split off, if any.  It has the bytes left, less the overhead of a
block. -/
def rest (found : Block) (size : ℕ) : List Block :=
  if overhead + minAllocSz < found.size - size then
    [⟨found.addr + overhead + size, found.size - size - overhead, true⟩]
  else []

theorem le_kept (h : size ≤ found.size) : size ≤ kept found size := by
  unfold kept
  split <;> omega

/-- The block taken and the rest tile what the block found did. -/
theorem tiles_kept {u v : ℕ} (size : ℕ) (hole : Bool) (h : Tiles u [found] v) :
    Tiles u (⟨found.addr, kept found size, hole⟩ :: rest found size) v := by
  obtain ⟨rfl, hv⟩ := h
  unfold kept rest
  by_cases hsplit : overhead + minAllocSz < found.size - size
  · rw [if_pos hsplit, if_pos hsplit]
    refine ⟨rfl, rfl, ?_⟩
    show _ + 20 + _ = v
    replace hv : found.addr + 20 + found.size = v := hv
    unfold overhead minAllocSz sizeofFooter sizeofNode at *
    dsimp only
    omega
  · rw [if_neg hsplit, if_neg hsplit]
    exact ⟨rfl, hv⟩

theorem hole_of_mem_rest (h : b ∈ rest found size) : b.hole = true := by
  unfold rest at h
  split at h
  · rw [List.mem_singleton.mp h]
  · cases h

theorem eq_of_mem_rest (hb : b ∈ rest found size) (hc : c ∈ rest found size) : b = c := by
  by_cases hsplit : overhead + minAllocSz < found.size - size
  · rw [rest, if_pos hsplit, List.mem_singleton] at hb hc
    rw [hb, hc]
  · rw [rest, if_neg hsplit] at hb
    cases hb

/-- A hole split off lies behind the block's node, up to the end of the block. -/
theorem bounds_of_mem_rest (h : b ∈ rest found size) :
    found.addr + 20 ≤ b.addr ∧ b.next = found.next := by
  unfold rest at h
  by_cases hsplit : overhead + minAllocSz < found.size - size
  · rw [if_pos hsplit] at h
    rw [List.mem_singleton.mp h, Block.next_eq, Block.next_eq]
    unfold overhead minAllocSz sizeofFooter sizeofNode at *
    dsimp only
    omega
  · rw [if_neg hsplit] at h
    cases h

/-- What is known of the heap once the block found has been cut to size but is
still in its bin. -/
structure Carved (s s' : HeapState) (blocks : List Block) (found : Block) (size : ℕ) : Prop where
  binned : ∃ sz, Binned s'.mem s'.bins {b | b ∈ rest found size ∨ b ∈ holes blocks} sz
  represents : Represents s'.mem ⟨found.addr, kept found size, true⟩
  represents_rest : ∀ b ∈ rest found size, Represents s'.mem b
  frame : BlockFrame found (holes blocks) s.mem s'.mem
  start_eq : s'.start = s.start
  endAddress_eq : s'.endAddress = s.endAddress

/-- The holes keep clear of each other and of the hole split off, which lies
inside the block that was found. -/
theorem separate_rest (size : ℕ) (h : HeapInv s blocks) (hfound : found ∈ holes blocks) :
    Separate {b | b ∈ rest found size ∨ b ∈ holes blocks} := by
  have hsep := h.tiled.separate_holes
  by_cases hsplit : overhead + minAllocSz < found.size - size
  · have hrest : ∀ b, b ∈ rest found size ↔
        b = ⟨found.addr + overhead + size, found.size - size - overhead, true⟩ := by
      intro b
      rw [rest, if_pos hsplit, List.mem_singleton]
    have hset : {b | b ∈ rest found size ∨ b ∈ holes blocks} =
        insert ⟨found.addr + overhead + size, found.size - size - overhead, true⟩
          (holes blocks) := by
      ext b
      rw [Set.mem_ofPred_eq, hrest b, Set.mem_insert_iff]
    have hnext := (h.tiled.tiles.bounds hfound.1).2
    have hbound := h.tiled.bounded
    rw [found.next_eq] at hnext
    rw [hset]
    unfold overhead minAllocSz sizeofFooter sizeofNode at *
    refine hsep.insert ?_ ?_ fun b hb => ?_
    · show 0 < found.addr + _ + size
      omega
    · show found.addr + _ + size + 16 ≤ 2 ^ 32
      omega
    · show b.addr + 16 ≤ found.addr + _ + size ∨ found.addr + _ + size + 16 ≤ b.addr
      by_cases hbf : b = found
      · subst hbf
        omega
      · have := h.tiled.tiles.separate hb.1 hfound.1 hbf
        simp only [Block.next_eq] at this
        omega
  · refine hsep.mono fun b hb => ?_
    rcases hb with hb | hb
    · rw [rest, if_neg hsplit] at hb
      cases hb
    · exact hb

/-- Another hole keeps clear of the block found. -/
theorem HeapInv.clear (h : HeapInv s blocks) (hfound : found ∈ holes blocks)
    (hb : b ∈ holes blocks) : b = found ∨ b.next ≤ found.addr ∨ found.next ≤ b.addr := by
  by_cases hbf : b = found
  · exact Or.inl hbf
  · exact Or.inr (h.tiled.tiles.separate hb.1 hfound.1 hbf)

/-- The node and the footer of a hole are written, and then represent it.  The
links and everything outside of the block keep their bytes. -/
theorem writeHole_spec (m : ByteMemory) (hhole : b.hole = true) (hlt : b.next < 2 ^ 32) :
    Represents (createFoot (setNode (setNode m b.addr .size b.size) b.addr .hole 1) b.addr) b ∧
      ∀ x, (x < b.addr ∨ (b.addr + 8 ≤ x ∧ x < b.addr + 16) ∨ b.next ≤ x) →
        createFoot (setNode (setNode m b.addr .size b.size) b.addr .hole 1) b.addr x = m x := by
  rw [b.next_eq] at hlt
  let m₁ := setNode (setNode m b.addr .size b.size) b.addr .hole 1
  have hsize : node m₁ b.addr .size = b.size := by
    show readWord (writeWord (writeWord m (b.addr + 4) b.size) (b.addr + 0) 1) (b.addr + 4) = _
    rw [readWord_writeWord_of_disjoint (by omega), readWord_writeWord_self,
      Nat.mod_eq_of_lt (by omega)]
  have hone : node m₁ b.addr .hole = 1 := readWord_writeWord_self _ _ _
  have hfoot : getFoot m₁ b.addr = b.addr + 16 + b.size := by
    unfold getFoot
    rw [hsize]
  refine ⟨represents_createFoot (by rw [hhole, if_pos rfl]; exact hone) hsize (by omega), ?_⟩
  intro x hx
  rw [b.next_eq] at hx
  show writeWord m₁ (getFoot m₁ b.addr) b.addr x = _
  rw [hfoot, writeWord_apply_of_notMem (by omega)]
  show writeWord (writeWord m (b.addr + 4) b.size) (b.addr + 0) 1 x = _
  rw [writeWord_apply_of_notMem (by omega), writeWord_apply_of_notMem (by omega)]

/-- The size of a block is changed, and its footer written.  The flag, the
links and all that lies outside of the block as it is now keep their bytes. -/
theorem resize_spec (hhole : node m b.addr .hole = if b.hole then 1 else 0)
    (hlt : b.next < 2 ^ 32) :
    Represents (createFoot (setNode m b.addr .size b.size) b.addr) b ∧
      ∀ x, (x < b.addr + 4 ∨ (b.addr + 8 ≤ x ∧ x < b.addr + 16) ∨ b.next ≤ x) →
        createFoot (setNode m b.addr .size b.size) b.addr x = m x := by
  rw [b.next_eq] at hlt
  let m₁ := setNode m b.addr .size b.size
  have hsize : node m₁ b.addr .size = b.size := by
    show readWord (writeWord m (b.addr + 4) b.size) (b.addr + 4) = _
    rw [readWord_writeWord_self, Nat.mod_eq_of_lt (by omega)]
  have hhole₁ : node m₁ b.addr .hole = node m b.addr .hole := by
    refine readWord_writeWord_of_disjoint ?_
    show b.addr + 4 + 4 ≤ b.addr + 0 ∨ b.addr + 0 + 4 ≤ b.addr + 4
    omega
  have hfoot : getFoot m₁ b.addr = b.addr + 16 + b.size := by
    unfold getFoot
    rw [hsize]
  refine ⟨represents_createFoot (hhole₁.trans hhole) hsize (by omega), ?_⟩
  intro x hx
  rw [b.next_eq] at hx
  show writeWord m₁ (getFoot m₁ b.addr) b.addr x = _
  rw [hfoot, writeWord_apply_of_notMem (by omega)]
  show writeWord m (b.addr + 4) b.size x = _
  rw [writeWord_apply_of_notMem (by omega)]

/-- A hole at the end of the block found is written and put in its bin.  Apart
from the links of holes, only the size word of the block found and what lies
from the new hole on is written. -/
theorem addHole_spec (h : HeapInv s blocks) (hfound : found ∈ holes blocks) {split : Block}
    (hhole : split.hole = true) (haddr : found.addr + 20 ≤ split.addr)
    (hend : split.next = found.next) (hsep : Separate (insert split (holes blocks))) :
    ∃ s' sz, addNode (s.withMem (createFoot (setNode (setNode s.mem split.addr .size split.size)
          split.addr .hole 1) split.addr)) (getBinIndex split.size) split.addr = .ok s' ∧
      Binned s'.mem s'.bins (insert split (holes blocks)) sz ∧ Represents s'.mem split ∧
      (∀ x, x < found.addr + 8 ∨ (found.addr + 16 ≤ x ∧ x < split.addr) ∨ found.next ≤ x →
        (∀ b ∈ holes blocks, x < b.addr + 8 ∨ b.addr + 16 ≤ x) → s'.mem x = s.mem x) ∧
      s'.start = s.start ∧ s'.endAddress = s.endAddress := by
  have hnext := (h.tiled.tiles.bounds hfound.1).2
  have hbound := h.tiled.bounded
  have hsn := split.next_eq
  have hfn := found.next_eq
  obtain ⟨hrep, hsame⟩ := writeHole_spec s.mem hhole (by omega)
  generalize createFoot (setNode (setNode s.mem split.addr .size split.size) split.addr .hole 1)
    split.addr = m at hrep hsame ⊢
  obtain ⟨sz, hbin⟩ := h.binned
  -- holes do not meet the part of the block that is split off
  have hkeep : ∀ b ∈ holes blocks, ∀ x, b.addr ≤ x → x < b.addr + 16 → m x = s.mem x := by
    intro b hb x hx hx'
    refine hsame x ?_
    rcases h.clear hfound hb with rfl | hc | hc
    · omega
    · rw [b.next_eq] at hc
      omega
    · omega
  have hbin' : Binned (s.withMem m).mem (s.withMem m).bins (holes blocks) sz :=
    hbin.of_agree fun b hb x hx hx' => hkeep b hb x (by omega) hx'
  have hnew : split ∉ holes blocks := by
    intro hin
    rcases h.clear hfound hin with heq | hc | hc
    · rw [heq] at haddr
      omega
    · omega
    · omega
  have hsizes : ∀ b ∈ insert split (holes blocks),
      node (s.withMem m).mem b.addr .size = b.size := by
    intro b hb
    rcases Set.mem_insert_iff.mp hb with rfl | hb
    · exact hrep.size
    · rw [← (h.tiled.represents b hb.1).size]
      refine readWord_congr fun x hx hx' => ?_
      replace hx : b.addr + 4 ≤ x := hx
      replace hx' : x < b.addr + 4 + 4 := hx'
      exact hkeep b hb x (by omega) (by omega)
  obtain ⟨s', sz', hadd, hbinned, hlink, hstart, hend'⟩ := hbin'.add hsep hnew hsizes
  refine ⟨s', sz', hadd, hbinned, hrep.of_linkFrame hlink ?_, fun x hx hl => ?_, hstart, hend'⟩
  · rintro _ ⟨b, hb, rfl⟩
    rcases Set.mem_insert_iff.mp hb with rfl | hb
    · exact Or.inl rfl
    · rcases h.clear hfound hb with rfl | hc | hc
      · exact Or.inr (Or.inr (by omega))
      · rw [b.next_eq] at hc
        exact Or.inr (Or.inr (by omega))
      · exact Or.inr (Or.inl (by omega))
  · refine (hlink x ?_).trans (hsame x (by omega))
    rintro _ ⟨b, hb, rfl⟩
    rcases Set.mem_insert_iff.mp hb with rfl | hb
    · omega
    · exact hl b hb

/-- **`split_block`** cuts the block found to size and puts the rest in its
bin.  The rest is written and binned first, and the block is resized last;
what the resize writes is its own header and the footer in front of the rest,
so that neither the bins nor the rest see it. -/
theorem splitBlock_spec (h : HeapInv s blocks) (hfound : found ∈ holes blocks)
    (hsize : size ≤ found.size) (hsplit : overhead + minAllocSz < found.size - size) :
    ∃ s', splitBlock s found.addr size = .ok s' ∧ Carved s s' blocks found size := by
  have hrep := h.tiled.represents found hfound.1
  have hnext := (h.tiled.tiles.bounds hfound.1).2
  have hbound := h.tiled.bounded
  have hfn := found.next_eq
  have hsub : sub32 (node s.mem found.addr .size) size = found.size - size := by
    rw [hrep.size]
    exact sub32_of_le hsize (by omega)
  have hrest : rest found size =
      [⟨found.addr + overhead + size, found.size - size - overhead, true⟩] := if_pos hsplit
  have hkept : kept found size = size := if_pos hsplit
  have hsep := separate_rest size h hfound
  have hset : {b | b ∈ rest found size ∨ b ∈ holes blocks} =
      insert ⟨found.addr + overhead + size, found.size - size - overhead, true⟩
        (holes blocks) := by
    ext b
    rw [Set.mem_ofPred_eq, hrest, List.mem_singleton, Set.mem_insert_iff]
  rw [hset] at hsep
  generalize hsp : (⟨found.addr + overhead + size, found.size - size - overhead, true⟩ : Block)
    = split at *
  have hsa : split.addr = found.addr + 20 + size := hsp ▸ rfl
  have hss : split.size = found.size - size - 20 := hsp ▸ rfl
  have hlarge : 24 < found.size - size := hsplit
  have hsn : split.next = found.next := by
    rw [Block.next_eq, Block.next_eq, hsa, hss]
    omega
  obtain ⟨s₃, sz, hadd, hbinned, hrep₃, hlinks, hstart, hend⟩ :=
    addHole_spec h hfound (hsp ▸ rfl) (by omega) hsn hsep
  -- the links written are no part of the block's own hole word
  have hhole : node s₃.mem found.addr .hole = 1 := by
    have hold : node s.mem found.addr .hole = 1 := by rw [hrep.hole, hfound.2, if_pos rfl]
    rw [← hold]
    refine readWord_congr fun x hx hx' => ?_
    replace hx : found.addr ≤ x := hx
    replace hx' : x < found.addr + 4 := hx'
    refine hlinks x (by omega) fun b hb => ?_
    rcases h.clear hfound hb with rfl | hc | hc
    · omega
    · rw [b.next_eq] at hc
      omega
    · omega
  have hnext' : (⟨found.addr, size, true⟩ : Block).next = split.addr := hsa ▸ rfl
  obtain ⟨hrep', hframe⟩ :=
    resize_spec (b := ⟨found.addr, size, true⟩) (hhole.trans (if_pos rfl).symm) (by omega)
  have hsame : ∀ x, (x < found.addr + 4 ∨ (found.addr + 8 ≤ x ∧ x < found.addr + 16) ∨
      split.addr ≤ x) → createFoot (setNode s₃.mem found.addr .size size) found.addr x =
        s₃.mem x := by
    rw [← hnext']
    exact hframe
  refine ⟨s₃.withMem (createFoot (setNode s₃.mem found.addr .size size) found.addr), ?_,
    ⟨sz, ?_⟩, ?_, ?_, ?_, hstart, hend⟩
  · have hfoot := (writeHole_spec s.mem (b := split) (hsp ▸ rfl) (by omega)).1.size
    unfold splitBlock
    dsimp only
    rw [hsub, show found.addr + overhead + size = split.addr from hsa.symm,
      show found.size - size - overhead = split.size from hss.symm, hfoot, hadd]
    rfl
  · rw [hset]
    refine hbinned.of_agree fun b hb x hx hx' => hsame x ?_
    rcases Set.mem_insert_iff.mp hb with rfl | hb
    · omega
    · rcases h.clear hfound hb with rfl | hc | hc
      · omega
      · rw [b.next_eq] at hc
        omega
      · omega
  · rw [hkept]
    exact hrep'
  · rw [hrest]
    intro b hb
    rw [List.mem_singleton.mp hb]
    exact hrep₃.of_agree fun x hx _ _ => hsame x (by omega)
  · intro x hx hl
    exact (hsame x (by omega)).trans (hlinks x (by omega) hl)

/-- **The first `if` of `heap_alloc`.**  A block that is large enough for
another one is split, and any other is taken as it is; both are what `Carved`
says. -/
theorem carve_spec (h : HeapInv s blocks) (hfound : found ∈ holes blocks)
    (hsize : size ≤ found.size) :
    ∃ s', (if overhead + minAllocSz < sub32 (node s.mem found.addr .size) size then
        splitBlock s found.addr size else .ok s) = .ok s' ∧ Carved s s' blocks found size := by
  have hrep := h.tiled.represents found hfound.1
  have hnext := (h.tiled.tiles.bounds hfound.1).2
  have hbound := h.tiled.bounded
  rw [found.next_eq] at hnext
  have hsub : sub32 (node s.mem found.addr .size) size = found.size - size := by
    rw [hrep.size]
    exact sub32_of_le hsize (by omega)
  rw [hsub]
  by_cases hsplit : overhead + minAllocSz < found.size - size
  · rw [if_pos hsplit]
    exact splitBlock_spec h hfound hsize hsplit
  · rw [if_neg hsplit]
    have hrest : rest found size = [] := if_neg hsplit
    have hkept : kept found size = found.size := if_neg hsplit
    obtain ⟨sz, hbin⟩ := h.binned
    refine ⟨s, rfl, ⟨sz, ?_⟩, ?_, ?_, fun _ _ _ => rfl, rfl, rfl⟩
    · rw [hrest]
      simpa using hbin
    · rw [hkept, ← hfound.2]
      exact hrep
    · rw [hrest]
      intro b hb
      cases hb

/-! ### Placement

With the block taken out of its bin the two views agree again, and the heap is
well formed with the blocks `placed`.  What follows in `heap_alloc` only looks
at the last block. -/

/-- The blocks after a request of `size` bytes has been served from `found`. -/
def placed (pre : List Block) (found : Block) (post : List Block) (size : ℕ) : List Block :=
  pre ++ ⟨found.addr, kept found size, false⟩ :: rest found size ++ post

/-- Where the holes and the hole split off lie, seen from the block found. -/
theorem clear_of_mem (size : ℕ) (h : HeapInv s blocks) (hfound : found ∈ holes blocks)
    (hb : b ∈ rest found size ∨ b ∈ holes blocks) :
    b = found ∨ b ∈ rest found size ∨ b.next ≤ found.addr ∨ found.next ≤ b.addr := by
  rcases hb with hb | hb
  · exact Or.inr (Or.inl hb)
  · exact (h.clear hfound hb).imp_right Or.inr

theorem holes_placed (hnd : (pre ++ found :: post).Nodup) (hfound : found.hole = true)
    (hrest : found ∉ rest found size) :
    holes (placed pre found post size) =
      {b | b ∈ rest found size ∨ b ∈ holes (pre ++ found :: post)} \ {found} := by
  have hnd' := List.nodup_append.mp hnd
  have hpre : found ∉ pre := fun h => hnd'.2.2 found h found List.mem_cons_self rfl
  have hpost : found ∉ post := (List.nodup_cons.mp hnd'.2.1).1
  ext b
  simp only [holes, placed, Set.mem_ofPred_eq, Set.mem_sdiff, Set.mem_singleton_iff,
    List.mem_append, List.mem_cons]
  constructor
  · rintro ⟨((hb | rfl | hb) | hb), hhole⟩
    · exact ⟨Or.inr ⟨Or.inl hb, hhole⟩, fun heq => hpre (heq ▸ hb)⟩
    · cases hhole
    · exact ⟨Or.inl hb, fun heq => hrest (heq ▸ hb)⟩
    · exact ⟨Or.inr ⟨Or.inr (Or.inr hb), hhole⟩, fun heq => hpost (heq ▸ hb)⟩
  · rintro ⟨hb | ⟨hb | rfl | hb, hhole⟩, hne⟩
    · exact ⟨Or.inl (Or.inr (Or.inr hb)), hole_of_mem_rest hb⟩
    · exact ⟨Or.inl (Or.inl hb), hhole⟩
    · exact absurd rfl hne
    · exact ⟨Or.inr hb, hhole⟩

/-- **Taking the block found out of its bin.**  The heap is well formed then,
and nothing but bytes of that block and links of holes has changed. -/
theorem take_spec {s₁ : HeapState} (h : HeapInv s (pre ++ found :: post))
    (hfound : found.hole = true) (hc : Carved s s₁ (pre ++ found :: post) found size) :
    ∃ s₂, removeNode (s₁.withMem (setNode s₁.mem found.addr .hole 0)) (getBinIndex found.size)
        found.addr = .ok s₂ ∧
      HeapInv s₂ (placed pre found post size) ∧
      BlockFrame found (holes (pre ++ found :: post)) s.mem s₂.mem ∧
      s₂.start = s.start ∧ s₂.endAddress = s.endAddress := by
  have hin : found ∈ holes (pre ++ found :: post) := ⟨by simp, hfound⟩
  have hsep := separate_rest size h hin
  obtain ⟨sz, hbin⟩ := hc.binned
  have hrest : found ∉ rest found size := fun hmem => by
    have := (bounds_of_mem_rest hmem).1
    omega
  have hclear := fun b hb => clear_of_mem (b := b) size h hin hb
  let m₁ := setNode s₁.mem found.addr .hole 0
  have hm₁ : ∀ x, (x < found.addr ∨ found.addr + 4 ≤ x) → m₁ x = s₁.mem x := fun x hx =>
    writeWord_apply_of_notMem hx
  have hbin₁ : Binned (s₁.withMem m₁).mem (s₁.withMem m₁).bins
      {b | b ∈ rest found size ∨ b ∈ holes (pre ++ found :: post)} sz := by
    refine hbin.of_agree fun b hb x hx hx' => hm₁ x ?_
    rcases hclear b hb with rfl | hb | hb | hb
    · omega
    · have := (bounds_of_mem_rest hb).1
      omega
    · rw [b.next_eq] at hb
      omega
    · rw [found.next_eq] at hb
      omega
  obtain ⟨s₂, hrem, hbin₂, hlink, hstart, hend⟩ := hbin₁.remove hsep (Or.inr hin)
  have hframe : BlockFrame found (holes (pre ++ found :: post)) s.mem s₂.mem := by
    have hinside : BlockFrame found (holes (pre ++ found :: post)) s₁.mem m₁ := by
      refine BlockFrame.of_inside fun x hx => hm₁ x ?_
      rw [found.next_eq] at hx
      omega
    refine (hc.frame.trans hinside).trans fun x hx hl => hlink x ?_
    rintro _ ⟨b, hb | hb, rfl⟩
    · have hb' := bounds_of_mem_rest hb
      have hnext := b.next_eq
      omega
    · exact hl b hb
  have hother : ∀ c ∈ pre ++ found :: post, c ≠ found → Represents s₂.mem c := fun c hc hne =>
    h.tiled.represents_of_frame hframe (by simp) hc hne
  have htaken : Represents s₂.mem ⟨found.addr, kept found size, false⟩ := by
    have hrep₁ : Represents m₁ ⟨found.addr, kept found size, false⟩ := hc.represents.setHole false
    refine hrep₁.of_linkFrame hlink ?_
    rintro _ ⟨b, hb, rfl⟩
    show b.addr = found.addr ∨ found.addr + 20 + kept found size ≤ b.addr ∨
      b.addr + 16 ≤ found.addr
    have hkept : kept found size ≤ found.size := by
      unfold kept
      split <;> omega
    rcases hclear b hb with rfl | hb | hb | hb
    · exact Or.inl rfl
    · have htile := tiles_kept size true
        (show Tiles found.addr [found] found.next from ⟨rfl, rfl⟩)
      have hle := (htile.2.bounds hb).1
      rw [Block.next_eq] at hle
      exact Or.inr (Or.inl hle)
    · rw [b.next_eq] at hb
      omega
    · rw [found.next_eq] at hb
      omega
  have htakenrest : ∀ b ∈ rest found size, Represents s₂.mem b := by
    intro b hb
    have hb' := bounds_of_mem_rest hb
    have hrep₁ : Represents m₁ b :=
      (hc.represents_rest b hb).of_agree fun x hx _ _ => hm₁ x (by omega)
    refine hrep₁.of_linkFrame hlink ?_
    rintro _ ⟨c, hc, rfl⟩
    rcases hclear c hc with rfl | hc | hc | hc
    · exact Or.inr (Or.inr (by omega))
    · exact Or.inl (congrArg Block.addr (eq_of_mem_rest hc hb))
    · rw [c.next_eq] at hc
      exact Or.inr (Or.inr (by omega))
    · exact Or.inr (Or.inl (by omega))
  have htiles : Tiles s.start (placed pre found post size) s.endAddress := by
    have h' : Tiles s.start (pre ++ [found] ++ post) s.endAddress := by simpa using h.tiled.tiles
    have hkept := h'.replace fun u v huv => tiles_kept size false huv
    simpa [placed] using hkept
  refine ⟨s₂, hrem, ⟨⟨?_, ?_, ?_, ?_⟩, sz, ?_⟩, hframe, hstart.trans hc.start_eq,
    hend.trans hc.endAddress_eq⟩
  · rw [hstart, hend]
    show Tiles s₁.start _ s₁.endAddress
    rw [hc.start_eq, hc.endAddress_eq]
    exact htiles
  · intro b hb
    simp only [placed, List.mem_append, List.mem_cons] at hb
    have hnd := List.nodup_append.mp h.tiled.tiles.nodup
    rcases hb with (hb | rfl | hb) | hb
    · exact hother b (by simp [hb]) fun heq =>
        hnd.2.2 b hb found List.mem_cons_self heq
    · exact htaken
    · exact htakenrest b hb
    · exact hother b (by simp [hb]) fun heq => (List.nodup_cons.mp hnd.2.1).1 (heq ▸ hb)
  · rw [hstart]
    exact hc.start_eq ▸ h.tiled.pos
  · rw [hend]
    exact hc.endAddress_eq ▸ h.tiled.bounded
  · rw [holes_placed h.tiled.tiles.nodup hfound hrest]
    exact hbin₂

/-- **`heap_alloc` up to the wilderness check.**  Either no hole is large
enough, or one that is serves the request.  The search is the same in both
cases, so that what it finds can be referred to before the call. -/
theorem placeBlock_spec (h : HeapInv s blocks) (size : ℕ) :
    (placeBlock s size = .ok none ∧
        searchBins s size binCount (getBinIndex size) = .ok none) ∨
      ∃ pre found post s', blocks = pre ++ found :: post ∧ found.hole = true ∧
        size ≤ found.size ∧
        searchBins s size binCount (getBinIndex size) =
          .ok (some (found.addr, getBinIndex found.size)) ∧
        placeBlock s size = .ok (some (s', found.addr)) ∧
        HeapInv s' (placed pre found post size) ∧
        BlockFrame found (holes blocks) s.mem s'.mem ∧
        s'.start = s.start ∧ s'.endAddress = s.endAddress := by
  obtain ⟨sz, hbin⟩ := h.binned
  have hindex := getBinIndex_lt size
  rcases searchBins_spec hbin h.tiled.separate_holes
      (fun b hb => (h.tiled.represents b hb.1).size) size binCount (getBinIndex size) hindex
      (by omega) with ⟨hnone, -⟩ | ⟨found, hfound, hfit, -, hsome⟩
  · refine Or.inl ⟨?_, hnone⟩
    unfold placeBlock
    rw [hnone]
    rfl
  · obtain ⟨pre, post, rfl⟩ := List.append_of_mem hfound.1
    obtain ⟨s₁, hcarve, hc⟩ := carve_spec h hfound hfit
    obtain ⟨s₂, hrem, hinv, hframe, hstart, hend⟩ := take_spec h hfound.2 hc
    refine Or.inr ⟨pre, found, post, s₂, rfl, hfound.2, hfit, hsome, ?_, hinv, hframe, hstart,
      hend⟩
    unfold placeBlock
    rw [hsome, Exec.ok_bind]
    dsimp only
    by_cases hcut : overhead + minAllocSz < sub32 (node s.mem found.addr .size) size
    · rw [if_pos hcut] at hcarve ⊢
      rw [hcarve, Exec.ok_bind, hrem]
      rfl
    · rw [if_neg hcut] at hcarve ⊢
      rw [hcarve, Exec.ok_bind, hrem]
      rfl

end CourseOs.Heap
