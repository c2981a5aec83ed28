import CourseOs.Allocator.HeapAlloc

/-!
# What `heap_free` does to the blocks

While `heap_free` runs, one block is in no bin: `Pending s pre cur post` says
that the blocks `pre ++ cur :: post` tile the heap and that the bins hold the
holes among `pre` and `post`.  Merging with the block before and the block
behind keeps it, with a larger `cur` (`coalescePrev_spec`,
`coalesceNext_spec`), and `binBlock` ends it (`binBlock_spec`).  `freed` is
the list of blocks that comes out.  No step touches a block in use other than
the one being freed, nor memory behind the heap (`Keeps`).

The two merges write different words: the first leaves the header of the block
it merges where it is, the second clears it.  `Merged` is what they have in
common, the words that make one block of two.

Two cases of the source are not like the others.  The block at the start of
the heap is put in its bin without any merging (`heapFree_first`).  And of the
last block `heap_free` takes the word behind the heap for the header of
another one: if that word is not 0, it merges with what is no block.  The
lemmas ask that it be 0 there (`hbehind`); what becomes of the calls for which
it is not is not said.
-/

namespace CourseOs.Heap

open ByteMemory LinkedList

variable {m m' m'' : ByteMemory} {s s' : HeapState} {blocks pre post l l' : List Block}
  {b c cur prev next head : Block} {H : Set Block} {sz : ℕ → ℕ} {start stop e : ℕ}

/-! ### Blocks that stay as they are

A free changes words of the block freed, of the holes beside it, and links of
the other holes.  What clients rely on is the negative of this: `Keeps` says
that no byte of the blocks in use in a given list differs, and nothing from
`e` on.  It is transitive, and is proved step by step. -/

/-- No byte of a block in use changes, header and footer included. -/
def KeepsLive (blocks : List Block) (m m' : ByteMemory) : Prop :=
  ∀ b ∈ blocks, b.hole = false → ∀ x, b.addr ≤ x → x < b.next → m' x = m x

/-- No byte of a block in use changes, header and footer included, and none
from `e` on. -/
structure Keeps (blocks : List Block) (e : ℕ) (m m' : ByteMemory) : Prop where
  live : KeepsLive blocks m m'
  behind : ∀ x, e ≤ x → m' x = m x

namespace Keeps

theorem refl : Keeps blocks e m m := ⟨fun _ _ _ _ _ _ => rfl, fun _ _ => rfl⟩

theorem trans (h : Keeps blocks e m m') (h' : Keeps blocks e m' m'') : Keeps blocks e m m'' where
  live b hb hl x hx hx' := (h'.live b hb hl x hx hx').trans (h.live b hb hl x hx hx')
  behind x hx := (h'.behind x hx).trans (h.behind x hx)

theorem mono {blocks' : List Block} (h : Keeps blocks e m m')
    (hsub : ∀ b ∈ blocks', b.hole = false → b ∈ blocks) : Keeps blocks' e m m' where
  live b hb hl := h.live b (hsub b hb hl) hl
  behind := h.behind

end Keeps

theorem mem_insert_middle (h : b ∈ pre ++ post) : b ∈ pre ++ cur :: post := by
  rcases List.mem_append.mp h with h | h
  · exact List.mem_append_left _ h
  · exact List.mem_append_right _ (List.mem_cons_of_mem _ h)

namespace WellTiled

/-- Relinking holes leaves the tiling alone. -/
theorem of_linkFrame (h : WellTiled m start stop blocks)
    (hf : LinkFrame (addrs (holes blocks)) m m') : WellTiled m' start stop blocks where
  tiles := h.tiles
  represents b hb := by
    refine (h.represents b hb).of_linkFrame hf ?_
    rintro _ ⟨c, hc, rfl⟩
    by_cases hcb : c = b
    · exact Or.inl (congrArg Block.addr hcb)
    · have := h.tiles.separate hc.1 hb hcb
      rw [c.next_eq] at this
      omega
  pos := h.pos
  bounded := h.bounded

theorem keeps_of_linkFrame (h : WellTiled m start stop blocks)
    (hf : LinkFrame (addrs (holes blocks)) m m') : Keeps blocks stop m m' := by
  refine ⟨fun b hb hlive x hx hx' => hf x ?_, fun x hx => hf x ?_⟩
  · rintro _ ⟨c, hc, rfl⟩
    have hcb : c ≠ b := by
      rintro rfl
      rw [hc.2] at hlive
      cases hlive
    have := h.tiles.separate hc.1 hb hcb
    rw [c.next_eq] at this
    omega
  · rintro _ ⟨c, hc, rfl⟩
    have := (h.tiles.bounds hc.1).2
    rw [c.next_eq] at this
    omega

/-- Some consecutive blocks are replaced by others that fill the same space;
only their bytes change.  The blocks before and behind keep their place and
their words. -/
theorem replace (h : WellTiled m start stop (pre ++ l ++ post))
    (hl : ∀ u v, Tiles u l v → Tiles u l' v) (hrep : ∀ b ∈ l', Represents m' b)
    (hm : ∀ x, (∀ b ∈ l, x < b.addr ∨ b.next ≤ x) → m' x = m x) :
    WellTiled m' start stop (pre ++ l' ++ post) where
  tiles := h.tiles.replace hl
  represents b hb := by
    have hnd := List.nodup_append.mp h.tiles.nodup
    have hpl := List.nodup_append.mp hnd.1
    have hkeep : b ∈ pre ++ l ++ post → b ∉ l → Represents m' b := by
      intro hin hnl
      refine (h.represents b hin).of_agree fun x hx hx' _ => hm x fun c hc => ?_
      have := h.tiles.separate hin (c := c) (by simp [hc]) fun heq => hnl (heq ▸ hc)
      omega
    simp only [List.mem_append] at hb
    rcases hb with (hb | hb) | hb
    · exact hkeep (by simp [hb]) fun hbl => hpl.2.2 b hb b hbl rfl
    · exact hrep b hb
    · exact hkeep (by simp [hb]) fun hbl => hnd.2.2 b (by simp [hbl]) b hb rfl
  pos := h.pos
  bounded := h.bounded

end WellTiled

/-! ### Two neighbours as one block

A merge only has to make two words right, the size of the first block and the
back pointer of the second one's footer.  The words between them were a footer
and a header and are payload of the merged block, so that it does not matter
what they hold; `Merged` leaves them open, and covers both ways in which
`heap_free` merges. -/

/-- Two neighbours as one block: it starts where the first does, and has the
overhead of the second for payload as well. -/
def Block.merge (b c : Block) : Block := ⟨b.addr, b.size + overhead + c.size, b.hole⟩

theorem Block.merge_next (h : b.next = c.addr) : (b.merge c).next = c.next := by
  rw [b.next_eq] at h
  show b.addr + 20 + (b.size + 20 + c.size) = c.addr + 20 + c.size
  omega

theorem tiles_merge {u v : ℕ} (h : Tiles u [b, c] v) : Tiles u [b.merge c] v := by
  obtain ⟨rfl, hc, hv⟩ := h
  exact ⟨rfl, (Block.merge_next hc.symm).trans hv⟩

theorem Tiles.adjacent {u v : ℕ} (h : Tiles u (pre ++ b :: c :: post) v) : b.next = c.addr := by
  obtain ⟨_, -, -, hc⟩ := tiles_append.mp h
  exact hc.1.symm

/-- Apart from the words that describe `b` and `c` as two blocks, only the
size of `b` and the footer of `c` differ, and these describe them as one. -/
structure Merged (b c : Block) (m m' : ByteMemory) : Prop where
  size : node m' b.addr .size = b.size + overhead + c.size
  foot : readWord m' (c.addr + sizeofNode + c.size) = b.addr
  other : ∀ x, (x < b.addr + 4 ∨ (b.addr + 8 ≤ x ∧ x < c.addr) ∨
    (c.addr + 8 ≤ x ∧ x < c.addr + 16 + c.size) ∨ c.next ≤ x) → m' x = m x

theorem Merged.represents (h : Merged b c m m') (hadj : b.next = c.addr)
    (hb : Represents m b) : Represents m' (b.merge c) := by
  refine ⟨?_, h.size, ?_⟩
  · show node m' b.addr .hole = if b.hole then 1 else 0
    rw [← hb.hole]
    exact readWord_congr fun x _ hx' => h.other x (Or.inl hx')
  · have haddr : b.addr + sizeofNode + (b.size + overhead + c.size) =
        c.addr + sizeofNode + c.size := by
      rw [b.next_eq] at hadj
      show b.addr + 16 + (b.size + 20 + c.size) = c.addr + 16 + c.size
      omega
    show readWord m' (b.addr + sizeofNode + (b.size + overhead + c.size)) = b.addr
    rw [haddr]
    exact h.foot

/-- Outside the two blocks nothing differs. -/
theorem Merged.outside (h : Merged b c m m') {x : ℕ} (hx : x < b.addr ∨ c.next ≤ x) :
    m' x = m x := by
  refine h.other x ?_
  rcases hx with hx | hx
  · exact Or.inl (by omega)
  · exact Or.inr (Or.inr (Or.inr hx))

/-- **Two neighbours become one block.** -/
theorem WellTiled.merge (h : WellTiled m start stop (pre ++ b :: c :: post))
    (hm : Merged b c m m') : WellTiled m' start stop (pre ++ b.merge c :: post) := by
  have hadj := h.tiles.adjacent
  have h' : WellTiled m start stop (pre ++ [b, c] ++ post) := by simpa using h
  have hmerge : WellTiled m' start stop (pre ++ [b.merge c] ++ post) := by
    refine h'.replace (fun u v => tiles_merge) ?_ fun x hx => hm.outside ?_
    · intro d hd
      rw [List.mem_singleton.mp hd]
      exact hm.represents hadj (h.represents b (by simp))
    · have hxb := hx b (by simp)
      have hxc := hx c (by simp)
      omega
  simpa using hmerge

/-- One hole fewer. -/
theorem holes_sdiff (hnd : (pre ++ b :: post).Nodup) :
    holes (pre ++ b :: post) \ {b} = holes (pre ++ post) := by
  have hpre : b ∉ pre := fun hb => (List.nodup_append.mp hnd).2.2 b hb b List.mem_cons_self rfl
  have hpost : b ∉ post := (List.nodup_cons.mp (List.nodup_append.mp hnd).2.1).1
  ext d
  simp only [holes, Set.mem_ofPred_eq, Set.mem_sdiff, Set.mem_singleton_iff, List.mem_append,
    List.mem_cons]
  constructor
  · rintro ⟨⟨hd | rfl | hd, hh⟩, hne⟩
    · exact ⟨Or.inl hd, hh⟩
    · exact absurd rfl hne
    · exact ⟨Or.inr hd, hh⟩
  · rintro ⟨hd | hd, hh⟩
    · exact ⟨⟨Or.inl hd, hh⟩, fun heq => hpre (heq ▸ hd)⟩
    · exact ⟨⟨Or.inr (Or.inr hd), hh⟩, fun heq => hpost (heq ▸ hd)⟩

/-! ### A block in no bin

Between its first and its last step `heap_free` has a block that is in use by
nobody and in no bin yet.  Each merge takes a hole out of its bin first and
joins the two then, so that at no time a bin holds a block that is about to
change its size. -/

/-- The blocks tile the heap and all holes but `cur` are in their bins. -/
structure Pending (s : HeapState) (pre : List Block) (cur : Block) (post : List Block) : Prop where
  tiled : WellTiled s.mem s.start s.endAddress (pre ++ cur :: post)
  binned : ∃ sz, Binned s.mem s.bins (holes (pre ++ post)) sz

namespace Pending

theorem of_inv (h : HeapInv s (pre ++ cur :: post)) (hlive : cur.hole = false) :
    Pending s pre cur post where
  tiled := h.tiled
  binned := by
    have hset : holes (pre ++ post) = holes (pre ++ cur :: post) := by
      ext b
      simp only [holes, Set.mem_ofPred_eq, List.mem_append, List.mem_cons]
      constructor
      · rintro ⟨hb | hb, hh⟩
        · exact ⟨Or.inl hb, hh⟩
        · exact ⟨Or.inr (Or.inr hb), hh⟩
      · rintro ⟨hb | rfl | hb, hh⟩
        · exact ⟨Or.inl hb, hh⟩
        · rw [hlive] at hh
          cases hh
        · exact ⟨Or.inr hb, hh⟩
    rw [hset]
    exact h.binned

theorem cur_notMem (h : Pending s pre cur post) : cur ∉ pre ∧ cur ∉ post := by
  have hnd := List.nodup_append.mp h.tiled.tiles.nodup
  exact ⟨fun hin => hnd.2.2 cur hin cur List.mem_cons_self rfl, (List.nodup_cons.mp hnd.2.1).1⟩

/-- The other blocks keep clear of `cur`. -/
theorem clear (h : Pending s pre cur post) (hb : b ∈ pre ++ post) :
    b.next ≤ cur.addr ∨ cur.next ≤ b.addr := by
  have hne : b ≠ cur := by
    rintro rfl
    rcases List.mem_append.mp hb with hb | hb
    · exact h.cur_notMem.1 hb
    · exact h.cur_notMem.2 hb
  refine h.tiled.tiles.separate ?_ (by simp) hne
  rcases List.mem_append.mp hb with hb | hb <;> simp [hb]

theorem separate (h : Pending s pre cur post) : Separate (holes (pre ++ post)) :=
  h.tiled.separate.mono fun _ hb => mem_insert_middle hb.1

theorem nodup (h : Pending s pre cur post) : (pre ++ post).Nodup :=
  h.tiled.tiles.nodup.sublist ((List.sublist_cons_self cur post).append_left pre)

/-- Taking a hole next to `cur` out of its bin, which is how each merge
starts.  The tiling is as before, and the block is in no bin any more. -/
theorem unbin (h : Pending s pre cur post) (hl : pre ++ post = l ++ b :: l')
    (hhole : b.hole = true) :
    ∃ s' sz, removeNode s (getBinIndex b.size) b.addr = .ok s' ∧
      Binned s'.mem s'.bins (holes (l ++ l')) sz ∧
      WellTiled s'.mem s'.start s'.endAddress (pre ++ cur :: post) ∧
      Keeps (pre ++ post) s.endAddress s.mem s'.mem ∧
      s'.start = s.start ∧ s'.endAddress = s.endAddress := by
  obtain ⟨sz, hbin⟩ := h.binned
  have hb : b ∈ pre ++ post := by simp [hl]
  obtain ⟨s', hrem, hbin', hlink, hstart, hend⟩ := hbin.remove h.separate ⟨hb, hhole⟩
  rw [hl, holes_sdiff (hl ▸ h.nodup)] at hbin'
  have hlink' : LinkFrame (addrs (holes (pre ++ cur :: post))) s.mem s'.mem := by
    refine hlink.mono ?_
    rintro _ ⟨c, ⟨hc, hch⟩, rfl⟩
    exact ⟨c, ⟨mem_insert_middle hc, hch⟩, rfl⟩
  have hkeep := (h.tiled.keeps_of_linkFrame hlink').mono fun c hc _ => mem_insert_middle hc
  refine ⟨s', sz, hrem, hbin', ?_, hkeep, hstart, hend⟩
  rw [hstart, hend]
  exact h.tiled.of_linkFrame hlink'

/-- Merging two neighbours while neither is in a bin. -/
theorem merge {t : HeapState} (ht : WellTiled t.mem t.start t.endAddress (pre ++ b :: c :: post))
    (hbin : Binned t.mem t.bins (holes (pre ++ post)) sz) (hm : Merged b c t.mem m') :
    Pending (t.withMem m') pre (b.merge c) post ∧ Keeps (pre ++ post) t.endAddress t.mem m' := by
  have htiled := ht.merge hm
  have hclear : ∀ d ∈ pre ++ post, d.next ≤ b.addr ∨ c.next ≤ d.addr := by
    intro d hd
    rw [← Block.merge_next ht.tiles.adjacent]
    obtain ⟨hpre, hpost⟩ := htiled.tiles.around
    exact (List.mem_append.mp hd).imp (hpre d) (hpost d)
  refine ⟨⟨htiled, sz, hbin.of_agree fun d hd x hx hx' => hm.outside ?_⟩, ?_, fun x hx => ?_⟩
  · have := hclear d hd.1
    rw [d.next_eq] at this
    omega
  · intro d hd _ x hx hx'
    have := hclear d hd
    exact hm.outside (by omega)
  · have := (ht.tiles.bounds (b := c) (by simp)).2
    exact hm.outside (Or.inr (by omega))

end Pending

/-! ### Merging

Backward and forward.  The backward merge finds the hole before `cur` through
the footer in front of its header; the forward merge finds the block behind
through the size of `cur`.  They are not mirror images: the forward merge
clears the header of the block it swallows, and it is the one that may look
behind the heap. -/

/-- The blocks before `cur` and `cur` itself, merged with the hole right
before it. -/
def mergePrev (pre : List Block) (prev cur : Block) : List Block × Block :=
  if prev.hole then (pre, prev.merge cur) else (pre ++ [prev], cur)

/-- `cur` and the blocks behind it, merged with the hole right behind it. -/
def mergeNext (cur : Block) : List Block → Block × List Block
  | [] => (cur, [])
  | next :: post => if next.hole then (cur.merge next, post) else (cur, next :: post)

theorem mergePrev_of_hole (h : prev.hole = true) : mergePrev pre prev cur = (pre, prev.merge cur) :=
  if_pos h

theorem mergePrev_of_live (h : prev.hole = false) : mergePrev pre prev cur = (pre ++ [prev], cur) :=
  if_neg (by simp [h])

theorem mergeNext_of_hole (h : next.hole = true) :
    mergeNext cur (next :: post) = (cur.merge next, post) := if_pos h

theorem mergeNext_of_live (h : next.hole = false) :
    mergeNext cur (next :: post) = (cur, next :: post) := if_neg (by simp [h])

@[simp] theorem mergeNext_addr : (mergeNext cur post).1.addr = cur.addr := by
  cases post with
  | nil => rfl
  | cons next post =>
      cases hnext : next.hole with
      | false => rw [mergeNext_of_live hnext]
      | true =>
          rw [mergeNext_of_hole hnext]
          rfl

theorem ne_of_hole (hb : b.hole = false) (hc : c.hole = true) : b ≠ c := by
  rintro rfl
  rw [hb] at hc
  cases hc

theorem mem_mergePrev (hb : b.hole = false) :
    b ∈ (mergePrev pre prev cur).1 ↔ b ∈ pre ++ [prev] := by
  cases hprev : prev.hole with
  | false => rw [mergePrev_of_live hprev]
  | true =>
      rw [mergePrev_of_hole hprev]
      simp [ne_of_hole hb hprev]

theorem mem_mergeNext (hb : b.hole = false) : b ∈ (mergeNext cur post).2 ↔ b ∈ post := by
  cases post with
  | nil => rfl
  | cons next post =>
      cases hnext : next.hole with
      | false => rw [mergeNext_of_live hnext]
      | true =>
          rw [mergeNext_of_hole hnext]
          simp [ne_of_hole hb hnext]

theorem Represents.node_hole_eq_zero (h : Represents m b) :
    node m b.addr .hole = 0 ↔ b.hole = false := by
  rw [h.hole]
  cases b.hole <;> simp

/-- The footer of a block, once the block before it has been given another
size. -/
theorem WellTiled.getFoot_setSize (h : WellTiled m start stop (pre ++ b :: c :: post)) (v : ℕ) :
    getFoot (setNode m b.addr .size v) c.addr = c.addr + sizeofNode + c.size := by
  have hadj := h.tiles.adjacent
  rw [b.next_eq] at hadj
  have hsize : node (setNode m b.addr .size v) c.addr .size = c.size := by
    rw [← (h.represents c (by simp)).size]
    refine readWord_writeWord_of_disjoint ?_
    show b.addr + 4 + 4 ≤ c.addr + 4 ∨ c.addr + 4 + 4 ≤ b.addr + 4
    omega
  unfold getFoot
  rw [hsize]

/-- The memory of `coalesceNext` before its last write: `b` has the new size,
and the footer and the words of `c` are cleared. -/
def cleared (m : ByteMemory) (b c : Block) : ByteMemory :=
  setNode (setNode (writeWord (setNode m b.addr .size (b.size + overhead + c.size))
    (c.addr + sizeofNode + c.size) 0) c.addr .size 0) c.addr .hole 0

theorem cleared_apply {x : ℕ} (hx : x < c.addr ∨ (c.addr + 8 ≤ x ∧ x < c.addr + 16 + c.size) ∨
    c.next ≤ x) : cleared m b c x = setNode m b.addr .size (b.size + overhead + c.size) x := by
  rw [c.next_eq] at hx
  show writeWord (writeWord (writeWord _ (c.addr + 16 + c.size) 0) (c.addr + 4) 0)
    (c.addr + 0) 0 x = _
  rw [writeWord_apply_of_notMem (by omega), writeWord_apply_of_notMem (by omega),
    writeWord_apply_of_notMem (by omega)]

theorem WellTiled.node_cleared (h : WellTiled m start stop (pre ++ b :: c :: post)) :
    node (cleared m b c) b.addr .size = b.size + overhead + c.size := by
  have hadj := h.tiles.adjacent
  have hbound := (h.tiles.bounds (b := c) (by simp)).2
  have hstop := h.bounded
  rw [b.next_eq] at hadj
  rw [c.next_eq] at hbound
  have heq : node (cleared m b c) b.addr .size =
      node (setNode m b.addr .size (b.size + overhead + c.size)) b.addr .size := by
    refine readWord_congr fun x hx hx' => cleared_apply (Or.inl ?_)
    replace hx' : x < b.addr + 4 + 4 := hx'
    omega
  rw [heq]
  show readWord (writeWord m (b.addr + 4) (b.size + 20 + c.size)) (b.addr + 4) =
    b.size + 20 + c.size
  rw [readWord_writeWord_self, Nat.mod_eq_of_lt (by omega)]

theorem WellTiled.getFoot_cleared (h : WellTiled m start stop (pre ++ b :: c :: post)) :
    getFoot (cleared m b c) b.addr = c.addr + sizeofNode + c.size := by
  have hadj := h.tiles.adjacent
  rw [b.next_eq] at hadj
  unfold getFoot
  rw [h.node_cleared]
  show b.addr + 16 + (b.size + 20 + c.size) = c.addr + 16 + c.size
  omega

/-- **Merging with the block before.**  If that is a hole, the two become one
block at its address; if not, nothing changes.  `mergePrev` has the block and
the blocks before it. -/
theorem coalescePrev_spec (h : Pending s (pre ++ [prev]) cur post) :
    ∃ s', coalescePrev s prev.addr cur.addr = .ok (s', (mergePrev pre prev cur).2.addr) ∧
      Pending s' (mergePrev pre prev cur).1 (mergePrev pre prev cur).2 post ∧
      Keeps (pre ++ [prev] ++ post) s.endAddress s.mem s'.mem ∧
      s'.start = s.start ∧ s'.endAddress = s.endAddress := by
  have hrep := h.tiled.represents prev (by simp)
  unfold coalescePrev
  cases hhole : prev.hole with
  | false =>
      rw [mergePrev_of_live hhole]
      rw [if_neg (not_not.mpr (hrep.node_hole_eq_zero.mpr hhole))]
      exact ⟨s, rfl, h, Keeps.refl, rfl, rfl⟩
  | true =>
      rw [mergePrev_of_hole hhole, if_pos (mt hrep.node_hole_eq_zero.mp (by simp [hhole])),
        hrep.size]
      obtain ⟨s₁, sz, hrem, hbin, htiled, hkeep, hstart, hend⟩ :=
        h.unbin (by simp : pre ++ [prev] ++ post = pre ++ prev :: post) hhole
      rw [hrem, Exec.ok_bind]
      have htiled' : WellTiled s₁.mem s₁.start s₁.endAddress (pre ++ prev :: cur :: post) := by
        simpa using htiled
      have hprev₁ := htiled.represents prev (by simp)
      have hcur₁ := htiled.represents cur (by simp)
      have hbound := (htiled.tiles.bounds (b := cur) (by simp)).2
      have hstop := htiled.bounded
      have hadj := htiled'.tiles.adjacent
      rw [prev.next_eq] at hadj
      rw [cur.next_eq] at hbound
      let m₂ := setNode s₁.mem prev.addr .size (prev.size + overhead + cur.size)
      have hfoot : getFoot m₂ cur.addr = cur.addr + sizeofNode + cur.size :=
        htiled'.getFoot_setSize _
      have hmerged : Merged prev cur s₁.mem (writeWord m₂ (getFoot m₂ cur.addr) prev.addr) := by
        rw [hfoot]
        refine ⟨?_, ?_, fun x hx => ?_⟩
        · show readWord (writeWord m₂ (cur.addr + 16 + cur.size) prev.addr) (prev.addr + 4) = _
          rw [readWord_writeWord_of_disjoint (by omega)]
          show readWord (writeWord s₁.mem (prev.addr + 4) (prev.size + 20 + cur.size))
            (prev.addr + 4) = prev.size + 20 + cur.size
          rw [readWord_writeWord_self, Nat.mod_eq_of_lt (by omega)]
        · rw [readWord_writeWord_self, Nat.mod_eq_of_lt (by omega)]
        · rw [cur.next_eq] at hx
          show writeWord (writeWord s₁.mem (prev.addr + 4) _) (cur.addr + 16 + cur.size) _ x = _
          rw [writeWord_apply_of_notMem (by omega), writeWord_apply_of_notMem (by omega)]
      obtain ⟨hpend, hkeep'⟩ := Pending.merge htiled' hbin hmerged
      rw [hend] at hkeep'
      have hlive : ∀ b ∈ pre ++ [prev] ++ post, b.hole = false → b ∈ pre ++ post := by
        intro b hb hl
        simpa [ne_of_hole hl hhole] using hb
      dsimp only
      rw [hprev₁.size, hcur₁.size]
      exact ⟨_, rfl, hpend, hkeep.trans (hkeep'.mono hlive), hstart, hend⟩

/-- **Merging with the block behind.**  If that is a hole, the block grows
over it, and the hole leaves its bin; if not, nothing changes. -/
theorem coalesceNext_cons (h : Pending s pre cur (next :: post)) :
    ∃ s', coalesceNext s next.addr cur.addr = .ok s' ∧
      Pending s' pre (mergeNext cur (next :: post)).1 (mergeNext cur (next :: post)).2 ∧
      Keeps (pre ++ next :: post) s.endAddress s.mem s'.mem ∧
      s'.start = s.start ∧ s'.endAddress = s.endAddress := by
  have hrep := h.tiled.represents next (by simp)
  unfold coalesceNext
  cases hhole : next.hole with
  | false =>
      rw [mergeNext_of_live hhole]
      rw [if_neg (not_not.mpr (hrep.node_hole_eq_zero.mpr hhole))]
      exact ⟨s, rfl, h, Keeps.refl, rfl, rfl⟩
  | true =>
      rw [mergeNext_of_hole hhole, if_pos (mt hrep.node_hole_eq_zero.mp (by simp [hhole])),
        hrep.size]
      obtain ⟨s₁, sz, hrem, hbin, htiled, hkeep, hstart, hend⟩ :=
        h.unbin (rfl : pre ++ next :: post = pre ++ next :: post) hhole
      rw [hrem, Exec.ok_bind]
      have hnext₁ := htiled.represents next (by simp)
      have hcur₁ := htiled.represents cur (by simp)
      have hbound := (htiled.tiles.bounds (b := next) (by simp)).2
      have hstop := htiled.bounded
      have hadj := htiled.tiles.adjacent
      rw [cur.next_eq] at hadj
      rw [next.next_eq] at hbound
      let m₂ := setNode s₁.mem cur.addr .size (cur.size + overhead + next.size)
      have hfoot : getFoot m₂ next.addr = next.addr + sizeofNode + next.size :=
        htiled.getFoot_setSize _
      have hmerged : Merged cur next s₁.mem
          (writeWord (cleared s₁.mem cur next) (getFoot (cleared s₁.mem cur next) cur.addr)
            cur.addr) := by
        rw [htiled.getFoot_cleared]
        refine ⟨?_, ?_, fun x hx => ?_⟩
        · rw [← htiled.node_cleared]
          refine readWord_writeWord_of_disjoint ?_
          show next.addr + 16 + next.size + 4 ≤ cur.addr + 4 ∨
            cur.addr + 4 + 4 ≤ next.addr + 16 + next.size
          omega
        · rw [readWord_writeWord_self, Nat.mod_eq_of_lt (by omega)]
        · have hnext := next.next_eq
          rw [writeWord_apply_of_notMem (by unfold sizeofNode; omega), cleared_apply (by omega)]
          refine writeWord_apply_of_notMem ?_
          show x < cur.addr + 4 ∨ cur.addr + 4 + 4 ≤ x
          omega
      obtain ⟨hpend, hkeep'⟩ := Pending.merge htiled hbin hmerged
      rw [hend] at hkeep'
      have hlive : ∀ b ∈ pre ++ next :: post, b.hole = false → b ∈ pre ++ post := by
        intro b hb hl
        simpa [ne_of_hole hl hhole] using hb
      dsimp only
      rw [hcur₁.size, hnext₁.size, hfoot]
      exact ⟨_, rfl, hpend, hkeep.trans (hkeep'.mono hlive), hstart, hend⟩

/-- The block behind `cur`, or what looks like one behind the heap.  At the
end of the heap the word behind it has to read as "no hole"; nothing else is
asked of it. -/
theorem coalesceNext_spec (h : Pending s pre cur post)
    (hbehind : post = [] → node s.mem s.endAddress .hole = 0) :
    ∃ s', coalesceNext s cur.next cur.addr = .ok s' ∧
      Pending s' pre (mergeNext cur post).1 (mergeNext cur post).2 ∧
      Keeps (pre ++ post) s.endAddress s.mem s'.mem ∧
      s'.start = s.start ∧ s'.endAddress = s.endAddress := by
  obtain ⟨mid, -, -, htail⟩ := tiles_append.mp h.tiled.tiles
  cases post with
  | nil =>
      have hend : cur.next = s.endAddress := htail
      refine ⟨s, ?_, h, Keeps.refl, rfl, rfl⟩
      unfold coalesceNext
      rw [hend, if_neg (not_not.mpr (hbehind rfl))]
  | cons next post =>
      have hnext : cur.next = next.addr := htail.1.symm
      rw [hnext]
      exact coalesceNext_cons h

/-- The flag of the block is no word of a hole's node that the bins use. -/
theorem Pending.binned_marked (h : Pending s pre cur post) :
    ∃ sz, Binned (s.withMem (setNode s.mem cur.addr .hole 1)).mem s.bins
      (holes (pre ++ post)) sz := by
  obtain ⟨sz, hbin⟩ := h.binned
  refine ⟨sz, hbin.of_agree fun b hb x hx hx' => writeWord_apply_of_notMem ?_⟩
  show x < cur.addr ∨ cur.addr + 4 ≤ x
  have hclear := h.clear hb.1
  rw [b.next_eq, cur.next_eq] at hclear
  omega

/-- **Into the bin.**  The merged block is marked as a hole, its footer is
written, and it is added to the bin of its size; none of this lies in a block
in use. -/
theorem binBlock_spec (h : Pending s pre cur post) :
    ∃ s', binBlock s cur.addr = .ok s' ∧
      HeapInv s' (pre ++ { cur with hole := true } :: post) ∧
      Keeps (pre ++ post) s.endAddress s.mem s'.mem ∧
      s'.start = s.start ∧ s'.endAddress = s.endAddress := by
  let m₁ := setNode s.mem cur.addr .hole 1
  have hm₁ : ∀ x, (x < cur.addr ∨ cur.addr + 4 ≤ x) → m₁ x = s.mem x := fun x hx =>
    writeWord_apply_of_notMem hx
  have hcur₁ : Represents m₁ { cur with hole := true } :=
    (h.tiled.represents cur (by simp)).setHole true
  obtain ⟨sz, hbin₁⟩ := h.binned_marked
  have htiled₁ :
      WellTiled m₁ s.start s.endAddress (pre ++ [{ cur with hole := true }] ++ post) := by
    have htiled' : WellTiled s.mem s.start s.endAddress (pre ++ [cur] ++ post) := by
      simpa using h.tiled
    refine htiled'.replace (fun u v huv => huv) ?_ fun x hx => hm₁ x ?_
    · intro b hb
      rw [List.mem_singleton.mp hb]
      exact hcur₁
    · have := hx cur (by simp)
      rw [cur.next_eq] at this
      omega
  have hset : holes (pre ++ [{ cur with hole := true }] ++ post) =
      insert { cur with hole := true } (holes (pre ++ post)) := by
    ext b
    simp only [holes, Set.mem_ofPred_eq, Set.mem_insert_iff, List.mem_append, List.mem_singleton]
    constructor
    · rintro ⟨(hb | hb) | hb, hh⟩
      · exact Or.inr ⟨Or.inl hb, hh⟩
      · exact Or.inl hb
      · exact Or.inr ⟨Or.inr hb, hh⟩
    · rintro (rfl | ⟨hb | hb, hh⟩)
      · exact ⟨Or.inl (Or.inr rfl), rfl⟩
      · exact ⟨Or.inl (Or.inl hb), hh⟩
      · exact ⟨Or.inr hb, hh⟩
  have hnew : ({ cur with hole := true } : Block) ∉ holes (pre ++ post) := by
    intro hin
    have := h.clear hin.1
    rw [Block.next_eq, Block.next_eq] at this
    dsimp only at this
    omega
  obtain ⟨s₂, sz₂, hadd, hbin₂, hlink, hstart, hend⟩ := hbin₁.add
    (by rw [← hset]; exact htiled₁.separate_holes) hnew (by
      intro b hb
      rw [← hset] at hb
      exact (htiled₁.represents b hb.1).size)
  rw [← hset] at hbin₂ hlink
  have htiled₂ := htiled₁.of_linkFrame hlink
  refine ⟨s₂, ?_, ⟨?_, sz₂, by simpa using hbin₂⟩, ?_, hstart, hend⟩
  · unfold binBlock
    show addNode (s.withMem m₁) (getBinIndex (node m₁ cur.addr .size)) cur.addr = _
    rw [hcur₁.size]
    exact hadd
  · rw [hstart, hend]
    simpa using htiled₂
  · have hkeep₁ : Keeps (pre ++ post) s.endAddress s.mem m₁ := by
      refine ⟨fun b hb hl x hx hx' => hm₁ x ?_, fun x hx => hm₁ x ?_⟩
      · have := h.clear hb
        rw [cur.next_eq] at this
        omega
      · have := (h.tiled.tiles.bounds (b := cur) (by simp)).2
        rw [cur.next_eq] at this
        omega
    have hkeep₂ := htiled₁.keeps_of_linkFrame hlink
    exact hkeep₁.trans (hkeep₂.mono fun b hb _ => by simpa using mem_insert_middle hb)

/-! ### `heap_free`

The steps together.  `heapFree_first` and `heapFree_inner` are the two
branches of the source, and `heapFree_spec` is what callers use: the block
goes, the last block is still a hole if it was one, and all that is in use is
as it was. -/

/-- The blocks after `heap_free` of `head`, which is not the first one: merged
with the holes beside it, and a hole. -/
def freed (pre : List Block) (prev head : Block) (post : List Block) : List Block :=
  let (pre, cur) := mergePrev pre prev head
  let (cur, post) := mergeNext cur post
  pre ++ { cur with hole := true } :: post

theorem mem_freed (hb : b.hole = false) :
    b ∈ freed pre prev head post ↔ b ∈ pre ++ [prev] ++ post := by
  unfold freed
  dsimp only
  rw [List.mem_append, List.mem_cons, or_iff_right (ne_of_hole hb rfl), mem_mergePrev hb,
    mem_mergeNext hb, ← List.mem_append]

theorem sub32_payload (h : WellTiled m start stop blocks) (hb : b ∈ blocks) :
    sub32 b.payload offset = b.addr := by
  have hbounds := (h.tiles.bounds hb).2
  have hstop := h.bounded
  rw [b.next_eq] at hbounds
  show sub32 (b.addr + 8) 8 = b.addr
  rw [sub32_of_le (by omega) (by omega), Nat.add_sub_cancel]

theorem payload_ne_zero : b.payload ≠ 0 := by
  show b.addr + 8 ≠ 0
  omega

/-- The header behind a block. -/
theorem WellTiled.getFoot_next (h : WellTiled m start stop blocks) (hb : b ∈ blocks) :
    getFoot m b.addr + sizeofFooter = b.next := by
  unfold getFoot
  rw [(h.represents b hb).size, b.next_eq]
  show b.addr + 16 + b.size + 4 = b.addr + 20 + b.size
  omega

/-- The footer before a block. -/
theorem WellTiled.footer_before (h : WellTiled m start stop (pre ++ b :: c :: post)) :
    sub32 c.addr sizeofFooter = b.addr + sizeofNode + b.size := by
  have hadj := h.tiles.adjacent
  have hbound := (h.tiles.bounds (b := c) (by simp)).2
  have hstop := h.bounded
  rw [b.next_eq] at hadj
  rw [c.next_eq] at hbound
  unfold sizeofFooter sizeofNode
  rw [sub32_of_le (by omega) (by omega)]
  omega

theorem mergePrev_next (pre : List Block) (h : prev.next = cur.addr) :
    (mergePrev pre prev cur).2.next = cur.next := by
  cases hhole : prev.hole with
  | false => rw [mergePrev_of_live hhole]
  | true =>
      rw [mergePrev_of_hole hhole]
      exact Block.merge_next h

/-- **`heap_free` of the first block** only puts it in its bin. -/
theorem heapFree_first (h : HeapInv s (head :: post)) (hlive : head.hole = false) :
    ∃ s', heapFree s head.payload = .ok s' ∧
      HeapInv s' ({ head with hole := true } :: post) ∧ Keeps post s.endAddress s.mem s'.mem ∧
      s'.start = s.start ∧ s'.endAddress = s.endAddress := by
  have hpend : Pending s [] head post := Pending.of_inv h hlive
  have hstart : head.addr = s.start := h.tiled.tiles.1
  obtain ⟨s', hbin, hinv, hkeep, hs, he⟩ := binBlock_spec hpend
  refine ⟨s', ?_, hinv, hkeep, hs, he⟩
  unfold heapFree
  rw [if_neg payload_ne_zero, sub32_payload h.tiled (by simp), if_pos hstart]
  exact hbin

/-- **`heap_free` of a later block** merges it with the holes beside it.  Of
the last block it takes the word behind the heap for the header of another
one. -/
theorem heapFree_inner (h : HeapInv s (pre ++ [prev] ++ head :: post)) (hlive : head.hole = false)
    (hbehind : post = [] → node s.mem s.endAddress .hole = 0) :
    ∃ s', heapFree s head.payload = .ok s' ∧ HeapInv s' (freed pre prev head post) ∧
      Keeps (pre ++ [prev] ++ post) s.endAddress s.mem s'.mem ∧
      s'.start = s.start ∧ s'.endAddress = s.endAddress := by
  have hpend : Pending s (pre ++ [prev]) head post := Pending.of_inv h hlive
  have htiled : WellTiled s.mem s.start s.endAddress (pre ++ prev :: head :: post) := by
    simpa using h.tiled
  have hprev : readWord s.mem (sub32 head.addr sizeofFooter) = prev.addr := by
    rw [htiled.footer_before]
    exact (htiled.represents prev (by simp)).foot
  have hnext : getFoot s.mem head.addr + sizeofFooter = head.next :=
    htiled.getFoot_next (by simp)
  have hnotFirst : ¬head.addr = s.start := by
    have hadj := htiled.tiles.adjacent
    have hbound := (htiled.tiles.bounds (b := prev) (by simp)).1
    rw [prev.next_eq] at hadj
    omega
  obtain ⟨s₁, hco, hpend₁, hkeep₁, hs₁, he₁⟩ := coalescePrev_spec hpend
  have hcur := mergePrev_next pre htiled.tiles.adjacent
  have hbehind₁ : post = [] → node s₁.mem s₁.endAddress .hole = 0 := by
    intro hpost
    rw [← hbehind hpost, he₁]
    exact readWord_congr fun x hx _ => hkeep₁.behind x hx
  obtain ⟨s₂, hcn, hpend₂, hkeep₂, hs₂, he₂⟩ := coalesceNext_spec hpend₁ hbehind₁
  obtain ⟨s₃, hbin, hinv, hkeep₃, hs₃, he₃⟩ := binBlock_spec hpend₂
  rw [he₁] at hkeep₂
  rw [he₂, he₁] at hkeep₃
  rw [mergeNext_addr] at hbin
  rw [hcur] at hcn
  refine ⟨s₃, ?_, hinv, ?_, hs₃.trans (hs₂.trans hs₁), he₃.trans (he₂.trans he₁)⟩
  · unfold heapFree
    rw [if_neg payload_ne_zero, sub32_payload h.tiled (by simp), if_neg hnotFirst]
    dsimp only
    rw [hprev, hnext, hco, Exec.ok_bind]
    dsimp only
    rw [hcn, Exec.ok_bind]
    exact hbin
  · refine hkeep₁.trans ((hkeep₂.mono fun b hb hl => ?_).trans (hkeep₃.mono fun b hb hl => ?_))
    · rw [List.mem_append, mem_mergePrev hl]
      exact List.mem_append.mp hb
    · rw [List.mem_append, mem_mergePrev hl, mem_mergeNext hl]
      exact List.mem_append.mp hb

/-- The last block is a hole of at least `n` bytes.  A free keeps it, since
the last block can only be merged into. -/
def LastHole (blocks : List Block) (n : ℕ) : Prop :=
  ∃ last, blocks.getLast? = some last ∧ last.hole = true ∧ n ≤ last.size

theorem LastHole.mono {n k : ℕ} (h : LastHole blocks n) (hle : k ≤ n) : LastHole blocks k := by
  obtain ⟨last, hlast, hhole, hn⟩ := h
  exact ⟨last, hlast, hhole, hle.trans hn⟩

theorem lastHole_append_cons {n : ℕ} :
    LastHole (pre ++ b :: post) n ↔ LastHole (b :: post) n := by
  unfold LastHole
  rw [List.getLast?_append_of_ne_nil pre (List.cons_ne_nil b post)]

theorem lastHole_cons_cons {n : ℕ} :
    LastHole (b :: c :: post) n ↔ LastHole (c :: post) n := by
  unfold LastHole
  rw [List.getLast?_cons_cons]

/-- A hole at the end only grows. -/
theorem lastHole_freed {n : ℕ} (hlast : LastHole (head :: next :: post) n) :
    LastHole (freed pre prev head (next :: post)) n := by
  rw [lastHole_cons_cons] at hlast
  unfold freed
  dsimp only
  rw [lastHole_append_cons]
  cases hnext : next.hole with
  | false =>
      rw [mergeNext_of_live hnext]
      exact lastHole_cons_cons.mpr hlast
  | true =>
      rw [mergeNext_of_hole hnext]
      cases post with
      | nil =>
          obtain ⟨last, hl, -, hsize⟩ := hlast
          obtain rfl : next = last := by simpa using hl
          exact ⟨_, rfl, rfl, hsize.trans (Nat.le_add_left _ _)⟩
      | cons c post => exact lastHole_cons_cons.mpr (lastHole_cons_cons.mp hlast)

/-- Merged blocks have sizes that are sums of sizes and overheads, so that a
divisor of all of these still divides them. -/
theorem dvd_size_freed {d : ℕ} (hd : d ∣ overhead)
    (h : ∀ b ∈ pre ++ [prev] ++ head :: post, d ∣ b.size) :
    ∀ b ∈ freed pre prev head post, d ∣ b.size := by
  have hmerge : ∀ b c : Block, d ∣ b.size → d ∣ c.size → d ∣ (b.merge c).size := fun b c hb hc =>
    Nat.dvd_add (Nat.dvd_add hb hd) hc
  obtain ⟨hpre, hcur⟩ : (∀ b ∈ (mergePrev pre prev head).1, d ∣ b.size) ∧
      d ∣ (mergePrev pre prev head).2.size := by
    have hprev := h prev (by simp)
    have hhead := h head (by simp)
    cases hhole : prev.hole with
    | false =>
        rw [mergePrev_of_live hhole]
        exact ⟨fun b hb => h b (List.mem_append_left _ hb), hhead⟩
    | true =>
        rw [mergePrev_of_hole hhole]
        exact ⟨fun b hb => h b (List.mem_append_left _ (List.mem_append_left _ hb)),
          hmerge _ _ hprev hhead⟩
  have hpost : ∀ b ∈ post, d ∣ b.size := fun b hb => h b (by simp [hb])
  obtain ⟨hboth, hrest⟩ : d ∣ (mergeNext (mergePrev pre prev head).2 post).1.size ∧
      ∀ b ∈ (mergeNext (mergePrev pre prev head).2 post).2, d ∣ b.size := by
    cases post with
    | nil => exact ⟨hcur, fun b hb => absurd hb List.not_mem_nil⟩
    | cons next post =>
        have hnext := hpost next List.mem_cons_self
        cases hhole : next.hole with
        | false =>
            rw [mergeNext_of_live hhole]
            exact ⟨hcur, hpost⟩
        | true =>
            rw [mergeNext_of_hole hhole]
            exact ⟨hmerge _ _ hcur hnext, fun b hb => hpost b (List.mem_cons_of_mem _ hb)⟩
  intro b hb
  unfold freed at hb
  dsimp only at hb
  rcases List.mem_append.mp hb with hb | hb
  · exact hpre b hb
  · rcases List.mem_cons.mp hb with rfl | hb
    · exact hboth
    · exact hrest b hb

/-- **`heap_free`** of a block in use: the block goes, and no other block in
use is touched.  Behind a last block there has to be a word that says "no
hole". -/
theorem heapFree_spec (h : HeapInv s (pre ++ head :: post)) (hlive : head.hole = false)
    (hbehind : pre ≠ [] → post = [] → node s.mem s.endAddress .hole = 0) :
    ∃ s' blocks', heapFree s head.payload = .ok s' ∧ HeapInv s' blocks' ∧
      Keeps (pre ++ post) s.endAddress s.mem s'.mem ∧
      (∀ b, b.hole = false → (b ∈ blocks' ↔ b ∈ pre ++ post)) ∧
      (post ≠ [] → ∀ n, LastHole (pre ++ head :: post) n → LastHole blocks' n) ∧
      (∀ d, d ∣ overhead → (∀ b ∈ pre ++ head :: post, d ∣ b.size) → ∀ b ∈ blocks', d ∣ b.size) ∧
      s'.start = s.start ∧ s'.endAddress = s.endAddress := by
  rcases List.eq_nil_or_concat' pre with rfl | ⟨pre, prev, rfl⟩
  · obtain ⟨s', hfree, hinv, hkeep, hs, he⟩ := heapFree_first h hlive
    refine ⟨s', _, hfree, hinv, hkeep, fun b hb => ?_, fun hpost n hn => ?_,
      fun d _ hall b hb => ?_, hs, he⟩
    · rw [List.mem_cons, List.nil_append]
      exact or_iff_right (ne_of_hole hb rfl)
    · obtain ⟨next, post, rfl⟩ := List.exists_cons_of_ne_nil hpost
      rw [List.nil_append, lastHole_cons_cons] at hn
      exact lastHole_cons_cons.mpr hn
    · rcases List.mem_cons.mp hb with rfl | hb
      · exact hall head List.mem_cons_self
      · exact hall b (List.mem_cons_of_mem _ hb)
  · obtain ⟨s', hfree, hinv, hkeep, hs, he⟩ := heapFree_inner h hlive (hbehind (by simp))
    refine ⟨s', _, hfree, hinv, hkeep, fun b hb => mem_freed hb, fun hpost n hn => ?_,
      fun d hd hall => dvd_size_freed hd hall, hs, he⟩
    obtain ⟨next, post, rfl⟩ := List.exists_cons_of_ne_nil hpost
    exact lastHole_freed (lastHole_append_cons.mp hn)

end CourseOs.Heap
