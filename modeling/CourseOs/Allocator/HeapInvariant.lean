import CourseOs.Allocator.Bins
import Mathlib.Data.Set.Insert

/-!
# Well-formed heaps

The abstract view of the heap is a list of blocks.  `HeapInv s blocks` says
that

* the blocks tile the heap, one after the other, from `start` to `end`
  (`Tiles`), and every header and footer is as the block says (`Represents`);
* the holes among the blocks are the nodes of the bins, each in the bin
  `get_bin_index` gives for its size (`Binned`).

The bins are stated for a set of holes of their own, because during an
operation a block can be in a bin and already have another size, or have been
taken out of its bin and not yet be merged.

There are three frames, from small to large.  `LinkFrame` allows changes of
the links of some nodes, which no header and no footer is part of
(`Represents.of_linkFrame`).  `BlockFrame` allows changes of one block
besides; the other blocks stay represented (`WellTiled.represents_of_frame`).
And clients may write anything between the header and the footer of the blocks
in use (`HeapInv.of_payload`).
-/

namespace CourseOs.Heap

open ByteMemory LinkedList

/-- A block of the heap: where its node is, the size of its payload, and
whether it is free. -/
structure Block where
  addr : ℕ
  size : ℕ
  hole : Bool
  deriving DecidableEq, Repr

/-- Where the next block starts, or where the heap ends if this is the last
one. -/
def Block.next (b : Block) : ℕ := b.addr + overhead + b.size

theorem Block.next_eq (b : Block) : b.next = b.addr + 20 + b.size := rfl

/-- The payload handed to the client, who knows a block by this address only. -/
def Block.payload (b : Block) : ℕ := b.addr + offset

/-- The blocks follow each other from `a` to `e`, without gaps and without
overlaps. -/
def Tiles : ℕ → List Block → ℕ → Prop
  | a, [], e => a = e
  | a, b :: bs, e => b.addr = a ∧ Tiles b.next bs e

/-- Header and footer in memory are those of the block: the flag, the size,
and the pointer back to the node. -/
structure Represents (m : ByteMemory) (b : Block) : Prop where
  hole : node m b.addr .hole = if b.hole then 1 else 0
  size : node m b.addr .size = b.size
  foot : readWord m (b.addr + sizeofNode + b.size) = b.addr

/-- The blocks that are holes.  They are a set, as their order in the heap is
not the one they have in the bins. -/
def holes (blocks : List Block) : Set Block := {b | b ∈ blocks ∧ b.hole = true}

/-- The bins hold exactly the nodes of the blocks `H`, each in the bin of its
size.  `sz` is the size of the block at an address, by which the bins are
sorted. -/
structure Binned (m : ByteMemory) (bins : ℕ → ℕ) (H : Set Block) (sz : ℕ → ℕ) : Prop where
  size_eq : ∀ b ∈ H, sz b.addr = b.size
  bin : ∀ i < binCount, ∃ xs, BinAt m (bins i) xs sz ∧
    ∀ a, a ∈ xs ↔ ∃ b ∈ H, b.addr = a ∧ getBinIndex b.size = i

/-- The blocks tile the heap and memory represents them.  The heap does not
start at the null pointer, and ends below 2³². -/
structure WellTiled (m : ByteMemory) (start e : ℕ) (blocks : List Block) : Prop where
  tiles : Tiles start blocks e
  represents : ∀ b ∈ blocks, Represents m b
  pos : 0 < start
  bounded : e < 2 ^ 32

/-- A well-formed heap with these blocks: they tile it, memory has their
headers and footers, and the bins have the holes among them.  The sizes by
which the bins are sorted are left to be found. -/
structure HeapInv (s : HeapState) (blocks : List Block) : Prop where
  tiled : WellTiled s.mem s.start s.endAddress blocks
  binned : ∃ sz, Binned s.mem s.bins (holes blocks) sz

variable {m m' : ByteMemory} {s : HeapState} {blocks pre post : List Block} {b c e : Block}
  {a z start stop : ℕ} {H H' : Set Block} {sz : ℕ → ℕ} {bins : ℕ → ℕ}

/-- A node gets its footer. -/
theorem represents_createFoot (hhole : node m b.addr .hole = if b.hole then 1 else 0)
    (hsize : node m b.addr .size = b.size) (hlt : b.addr < 2 ^ 32) :
    Represents (createFoot m b.addr) b := by
  have hfoot : getFoot m b.addr = b.addr + 16 + b.size := by
    unfold getFoot
    rw [hsize]
  refine ⟨?_, ?_, ?_⟩
  · rw [← hhole]
    refine readWord_writeWord_of_disjoint ?_
    show getFoot m b.addr + 4 ≤ b.addr + 0 ∨ b.addr + 0 + 4 ≤ getFoot m b.addr
    omega
  · rw [← hsize]
    refine readWord_writeWord_of_disjoint ?_
    show getFoot m b.addr + 4 ≤ b.addr + 4 ∨ b.addr + 4 + 4 ≤ getFoot m b.addr
    omega
  · show readWord (writeWord m (getFoot m b.addr) b.addr) (b.addr + 16 + b.size) = _
    rw [← hfoot, readWord_writeWord_self, Nat.mod_eq_of_lt hlt]

/-- The flag of a block is set or cleared. -/
theorem Represents.setHole (h : Represents m b) (hole : Bool) :
    Represents (setNode m b.addr .hole (if hole then 1 else 0)) { b with hole } := by
  refine ⟨?_, ?_, ?_⟩
  · refine (readWord_writeWord_self _ _ _).trans ?_
    cases hole <;> rfl
  · refine Eq.trans (readWord_writeWord_of_disjoint ?_) h.size
    show b.addr + 0 + 4 ≤ b.addr + 4 ∨ b.addr + 4 + 4 ≤ b.addr + 0
    omega
  · refine Eq.trans (readWord_writeWord_of_disjoint ?_) h.foot
    show b.addr + 0 + 4 ≤ b.addr + 16 + b.size ∨ b.addr + 16 + b.size + 4 ≤ b.addr + 0
    omega

theorem getBinIndex_lt (n : ℕ) : getBinIndex n < binCount := by
  show (if 8 < Nat.log2 _ - 2 then 8 else Nat.log2 _ - 2) < 9
  generalize Nat.log2 _ - 2 = index
  split <;> omega

/-! ### Tiling

What follows from blocks lying one behind the other, without a word about
memory: they stay in their range, keep clear of each other, and part of a
tiling may be replaced by another one of the same range. -/

theorem tiles_append : ∀ {l : List Block} {a : ℕ},
    Tiles a (l ++ post) z ↔ ∃ mid, Tiles a l mid ∧ Tiles mid post z
  | [], a => by simp [Tiles]
  | b :: l, a => by
      simp only [List.cons_append, Tiles, tiles_append (l := l), and_assoc, exists_and_left]

theorem Tiles.le : ∀ {l : List Block} {a : ℕ}, Tiles a l z → a ≤ z
  | [], _, h => le_of_eq h
  | b :: l, _, ⟨h, ht⟩ => by
      have := ht.le
      unfold Block.next at this
      omega

/-- Blocks lie in the range they tile. -/
theorem Tiles.bounds (h : Tiles a blocks z) (hb : b ∈ blocks) : a ≤ b.addr ∧ b.next ≤ z := by
  obtain ⟨l, r, rfl⟩ := List.append_of_mem hb
  obtain ⟨mid, hl, rfl, hr⟩ := tiles_append.mp h
  exact ⟨hl.le, hr.le⟩

/-- A block keeps clear of those before and behind it. -/
theorem Tiles.around (h : Tiles a (pre ++ b :: post) z) :
    (∀ c ∈ pre, c.next ≤ b.addr) ∧ ∀ c ∈ post, b.next ≤ c.addr := by
  obtain ⟨mid, hl, rfl, hr⟩ := tiles_append.mp h
  exact ⟨fun c hc => (hl.bounds hc).2, fun c hc => (hr.bounds hc).1⟩

/-- Different blocks keep clear of each other. -/
theorem Tiles.separate (h : Tiles a blocks z) (hb : b ∈ blocks) (hc : c ∈ blocks) (hne : b ≠ c) :
    b.next ≤ c.addr ∨ c.next ≤ b.addr := by
  obtain ⟨l, r, rfl⟩ := List.append_of_mem hb
  obtain ⟨hpre, hpost⟩ := h.around
  rcases List.mem_append.mp hc with hc | hc
  · exact Or.inr (hpre c hc)
  · rcases List.mem_cons.mp hc with rfl | hc
    · exact absurd rfl hne
    · exact Or.inl (hpost c hc)

theorem Tiles.nodup (h : Tiles a blocks z) : blocks.Nodup := by
  induction blocks generalizing a with
  | nil => exact List.nodup_nil
  | cons b l ih =>
      obtain ⟨rfl, ht⟩ := h
      refine List.nodup_cons.mpr ⟨fun hb => ?_, ih ht⟩
      have := (ht.bounds hb).1
      rw [b.next_eq] at this
      omega

/-- Replacing part of a tiling by another tiling of the same range.  Splitting
and merging are of this form. -/
theorem Tiles.replace {l l' : List Block} (h : Tiles a (pre ++ l ++ post) z)
    (hl : ∀ u v, Tiles u l v → Tiles u l' v) : Tiles a (pre ++ l' ++ post) z := by
  obtain ⟨mid', hpl, hpost⟩ := tiles_append.mp h
  obtain ⟨mid, hpre, hmid⟩ := tiles_append.mp hpl
  exact tiles_append.mpr ⟨mid', tiles_append.mpr ⟨mid, hpre, hl mid mid' hmid⟩, hpost⟩

/-! ### Representation

A block is represented by four words: its flag and its size in front, and the
pointer back in its footer, which is where its size says.  Anything that
leaves these alone leaves the block represented, in particular whatever is
done to links of holes and to payloads of blocks in use. -/

/-- A block is represented as long as its header words and its footer stay;
its links and its payload may change. -/
theorem Represents.congr (h : Represents m b) (hh : node m' b.addr .hole = node m b.addr .hole)
    (hs : node m' b.addr .size = node m b.addr .size)
    (hf : readWord m' (b.addr + sizeofNode + b.size) =
      readWord m (b.addr + sizeofNode + b.size)) : Represents m' b :=
  ⟨hh.trans h.hole, hs.trans h.size, hf.trans h.foot⟩

/-- A block is represented as long as no byte of it changes but payload. -/
theorem Represents.of_agree (h : Represents m b)
    (hm : ∀ x, b.addr ≤ x → x < b.next → (x < b.addr + 8 ∨ b.addr + 16 + b.size ≤ x) →
      m' x = m x) : Represents m' b := by
  have hnext := b.next_eq
  refine h.congr ?_ ?_ ?_
  · exact readWord_congr fun x hx hx' => by
      replace hx : b.addr ≤ x := hx
      replace hx' : x < b.addr + 4 := hx'
      exact hm x (by omega) (by omega) (by omega)
  · exact readWord_congr fun x hx hx' => by
      replace hx : b.addr + 4 ≤ x := hx
      replace hx' : x < b.addr + 4 + 4 := hx'
      exact hm x (by omega) (by omega) (by omega)
  · refine readWord_congr fun x hx hx' => ?_
    unfold sizeofNode at hx hx'
    exact hm x (by omega) (by omega) (by omega)

/-- Links of holes are no part of what represents a block. -/
theorem Represents.of_linkFrame (h : Represents m b) {A : ℕ → Prop} (hf : LinkFrame A m m')
    (hA : ∀ a, A a → a = b.addr ∨ b.next ≤ a ∨ a + 16 ≤ b.addr) : Represents m' b := by
  have hnext := b.next_eq
  refine h.of_agree fun x hx hx' hout => hf x fun a ha => ?_
  have := hA a ha
  omega

/-! ### Holes as nodes

The bins know nothing of tilings.  All they need is that the nodes of
different holes do not overlap (`Separate`), which is weaker, and holds while
a merge is under way as well. -/

/-- Blocks whose nodes keep clear of each other, above address 0 and below the
top.  This is all that the bins need to know about the tiling. -/
structure Separate (H : Set Block) : Prop where
  apart : ∀ b ∈ H, ∀ c ∈ H, b ≠ c → b.addr + 16 ≤ c.addr ∨ c.addr + 16 ≤ b.addr
  pos : ∀ b ∈ H, 0 < b.addr
  bounded : ∀ b ∈ H, b.addr + 16 ≤ 2 ^ 32

/-- The addresses of the blocks, which are the nodes that the bins are to
hold. -/
def addrs (H : Set Block) (a : ℕ) : Prop := ∃ b ∈ H, b.addr = a

namespace Separate

theorem mono (h : Separate H) (hsub : H' ⊆ H) : Separate H' where
  apart b hb c hc := h.apart b (hsub hb) c (hsub hc)
  pos b hb := h.pos b (hsub hb)
  bounded b hb := h.bounded b (hsub hb)

theorem addr_inj (h : Separate H) (hb : b ∈ H) (hc : c ∈ H) (heq : b.addr = c.addr) : b = c := by
  by_contra hne
  have := h.apart b hb c hc hne
  omega

theorem nodesApart (h : Separate H) : NodesApart (addrs H) where
  disjoint := by
    rintro _ _ ⟨b, hb, rfl⟩ ⟨c, hc, rfl⟩ hne
    exact h.apart b hb c hc fun heq => hne (congrArg Block.addr heq)
  bounded := by
    rintro _ ⟨b, hb, rfl⟩
    exact h.bounded b hb

/-- One more block that keeps clear of the others. -/
theorem insert (h : Separate H) (hpos : 0 < e.addr) (hbound : e.addr + 16 ≤ 2 ^ 32)
    (hapart : ∀ b ∈ H, b.addr + 16 ≤ e.addr ∨ e.addr + 16 ≤ b.addr) :
    Separate (insert e H) where
  apart := by
    intro b hb c hc hne
    rcases Set.mem_insert_iff.mp hb with rfl | hb'
    · rcases Set.mem_insert_iff.mp hc with rfl | hc'
      · exact absurd rfl hne
      · exact (hapart c hc').symm
    · rcases Set.mem_insert_iff.mp hc with rfl | hc'
      · exact hapart b hb'
      · exact h.apart b hb' c hc' hne
  pos := by
    intro b hb
    rcases Set.mem_insert_iff.mp hb with rfl | hb
    · exact hpos
    · exact h.pos b hb
  bounded := by
    intro b hb
    rcases Set.mem_insert_iff.mp hb with rfl | hb
    · exact hbound
    · exact h.bounded b hb

end Separate

namespace WellTiled

theorem separate (h : WellTiled m start stop blocks) : Separate {b | b ∈ blocks} where
  apart b hb c hc hne := by
    have := h.tiles.separate hb hc hne
    simp only [Block.next_eq] at this
    omega
  pos _ hb := lt_of_lt_of_le h.pos (h.tiles.bounds hb).1
  bounded b hb := by
    have := (h.tiles.bounds hb).2
    have := h.bounded
    simp only [Block.next_eq] at *
    omega

theorem separate_holes (h : WellTiled m start stop blocks) : Separate (holes blocks) :=
  h.separate.mono fun _ hb => hb.1

end WellTiled

/-! ### Bins and holes

A hole enters or leaves the bin of its size while all the other bins stay as
they are.  The bin is found from a size, and the lists are sorted by sizes;
both are those of the blocks, `sz`, and not the words of memory, since a size
in memory may already have been changed. -/

/-- The other bins keep their nodes when one bin is relinked, since the nodes
of the two lie apart. -/
theorem BinAt.of_other {A : ℕ → Prop} {i j hd : ℕ} {ys xs : List ℕ}
    (hbin : BinAt m hd xs sz) (hys : ∀ a, a ∈ ys ↔ ∃ b ∈ H, b.addr = a ∧ getBinIndex b.size = i)
    (hxs : ∀ a, a ∈ xs ↔ ∃ b ∈ H, b.addr = a ∧ getBinIndex b.size = j)
    (hsep : Separate H) (hij : j ≠ i)
    (hA : ∀ a, A a → a ∈ ys ∨ ∀ b ∈ H, b.addr + 16 ≤ a ∨ a + 16 ≤ b.addr) (hf : LinkFrame A m m') :
    BinAt m' hd xs sz := by
  have hword : ∀ a ∈ xs, ∀ x, a + 8 ≤ x → x < a + 16 → m' x = m x := by
    intro a ha x hx hx'
    obtain ⟨b, hb, rfl, hbj⟩ := (hxs a).mp ha
    refine hf x fun a' ha' => ?_
    rcases hA a' ha' with hin | hout
    · obtain ⟨c, hc, rfl, hci⟩ := (hys a').mp hin
      have hne : b ≠ c := by
        rintro rfl
        exact hij (hbj.symm.trans hci)
      have := hsep.apart b hb c hc hne
      omega
    · have := hout b hb
      omega
  refine hbin.congr ?_ ?_
  · intro a ha
    refine readWord_congr fun x hx hx' => ?_
    replace hx : a + 8 ≤ x := hx
    replace hx' : x < a + 8 + 4 := hx'
    exact hword a ha x (by omega) (by omega)
  · intro a ha
    refine readWord_congr fun x hx hx' => ?_
    replace hx : a + 12 ≤ x := hx
    replace hx' : x < a + 12 + 4 := hx'
    exact hword a ha x (by omega) (by omega)

namespace Binned

theorem congr (h : Binned m bins H sz)
    (hn : ∀ b ∈ H, node m' b.addr .next = node m b.addr .next)
    (hp : ∀ b ∈ H, node m' b.addr .prev = node m b.addr .prev) : Binned m' bins H sz where
  size_eq := h.size_eq
  bin i hi := by
    obtain ⟨xs, hbin, hxs⟩ := h.bin i hi
    refine ⟨xs, hbin.congr ?_ ?_, hxs⟩
    · intro a ha
      obtain ⟨b, hb, rfl, -⟩ := (hxs a).mp ha
      exact hn b hb
    · intro a ha
      obtain ⟨b, hb, rfl, -⟩ := (hxs a).mp ha
      exact hp b hb

/-- The bins do not notice changes outside the links of their nodes. -/
theorem of_agree (h : Binned m bins H sz)
    (hm : ∀ b ∈ H, ∀ x, b.addr + 8 ≤ x → x < b.addr + 16 → m' x = m x) : Binned m' bins H sz := by
  refine h.congr ?_ ?_
  · intro b hb
    refine readWord_congr fun x hx hx' => ?_
    replace hx : b.addr + 8 ≤ x := hx
    replace hx' : x < b.addr + 8 + 4 := hx'
    exact hm b hb x (by omega) (by omega)
  · intro b hb
    refine readWord_congr fun x hx hx' => ?_
    replace hx : b.addr + 12 ≤ x := hx
    replace hx' : x < b.addr + 12 + 4 := hx'
    exact hm b hb x (by omega) (by omega)

/-- **A hole enters its bin.**  The other bins keep their nodes, and only
links are written. -/
theorem add (h : Binned s.mem s.bins H sz) (hsep : Separate (insert e H)) (he : e ∉ H)
    (hsize : ∀ b ∈ insert e H, node s.mem b.addr .size = b.size) :
    ∃ s' sz', addNode s (getBinIndex e.size) e.addr = .ok s' ∧
      Binned s'.mem s'.bins (insert e H) sz' ∧
      LinkFrame (addrs (insert e H)) s.mem s'.mem ∧
      s'.start = s.start ∧ s'.endAddress = s.endAddress := by
  have hmem : e ∈ insert e H := Set.mem_insert e H
  have hsub : H ⊆ insert e H := Set.subset_insert e H
  have hfresh : ∀ b ∈ H, b.addr ≠ e.addr := fun b hb heq =>
    he (hsep.addr_inj (hsub hb) hmem heq ▸ hb)
  let sz' := Function.update sz e.addr e.size
  have hsz' : ∀ b ∈ insert e H, sz' b.addr = b.size := by
    intro b hb
    rcases Set.mem_insert_iff.mp hb with rfl | hb
    · exact Function.update_self _ _ _
    · exact (Function.update_of_ne (hfresh b hb) _ _).trans (h.size_eq b hb)
  -- the bins are sorted by the extended size function, too
  have hbins : ∀ i < binCount, ∃ xs, BinAt s.mem (s.bins i) xs sz' ∧
      ∀ a, a ∈ xs ↔ ∃ b ∈ H, b.addr = a ∧ getBinIndex b.size = i := by
    intro i hi
    obtain ⟨xs, hbin, hxs⟩ := h.bin i hi
    refine ⟨xs, ⟨hbin.list, hbin.nodup, hbin.sorted.imp_of_mem fun {a a'} ha ha' hle => ?_⟩, hxs⟩
    obtain ⟨b, hb, rfl, -⟩ := (hxs a).mp ha
    obtain ⟨b', hb', rfl, -⟩ := (hxs a').mp ha'
    rw [hsz' b (hsub hb), hsz' b' (hsub hb')]
    rwa [h.size_eq b hb, h.size_eq b' hb'] at hle
  obtain ⟨ys, hybin, hys⟩ := hbins _ (getBinIndex_lt e.size)
  have hyA : ∀ a ∈ ys, addrs (insert e H) a := by
    intro a ha
    obtain ⟨b, hb, hba, -⟩ := (hys a).mp ha
    exact ⟨b, hsub hb, hba⟩
  have hey : e.addr ∉ ys := by
    intro hin
    obtain ⟨b, hb, hba, -⟩ := (hys _).mp hin
    exact hfresh b hb hba
  have hszmem : ∀ a ∈ e.addr :: ys, node s.mem a .size = sz' a := by
    intro a ha
    obtain ⟨b, hb, rfl⟩ : addrs (insert e H) a := by
      rcases List.mem_cons.mp ha with rfl | ha
      · exact ⟨e, hmem, rfl⟩
      · exact hyA a ha
    rw [hsz' b hb, hsize b hb]
  obtain ⟨s', l, r, happ, hadd, hbin', hframe, hother, hstart, hend⟩ :=
    addNode_spec hybin hsep.nodesApart hyA ⟨e, hmem, rfl⟩ hey
      (Nat.pos_iff_ne_zero.mp (hsep.pos e hmem)) hszmem
  have hframe' : LinkFrame (addrs (insert e H)) s.mem s'.mem := by
    refine hframe.mono fun a ha => ?_
    rcases ha with rfl | ha
    · exact ⟨e, hmem, rfl⟩
    · exact hyA a ha
  refine ⟨s', sz', hadd, ⟨hsz', fun i hi => ?_⟩, hframe', hstart, hend⟩
  by_cases hie : i = getBinIndex e.size
  · subst hie
    refine ⟨l ++ e.addr :: r, hbin', fun a => ?_⟩
    have hl : a ∈ l ++ e.addr :: r ↔ a = e.addr ∨ a ∈ ys := by
      rw [← happ]
      simp only [List.mem_append, List.mem_cons]
      tauto
    rw [hl, hys a]
    constructor
    · rintro (rfl | ⟨b, hb, hba, hbi⟩)
      · exact ⟨e, hmem, rfl, rfl⟩
      · exact ⟨b, hsub hb, hba, hbi⟩
    · rintro ⟨b, hb, hba, hbi⟩
      rcases Set.mem_insert_iff.mp hb with rfl | hb
      · exact Or.inl hba.symm
      · exact Or.inr ⟨b, hb, hba, hbi⟩
  · obtain ⟨xs, hbin, hxs⟩ := hbins i hi
    refine ⟨xs, ?_, fun a => ?_⟩
    · rw [hother i hie]
      refine hbin.of_other hys hxs (hsep.mono hsub) hie (fun a ha => ?_) hframe
      rcases ha with rfl | ha
      · exact Or.inr fun b hb => hsep.apart b (hsub hb) e hmem fun heq => he (heq ▸ hb)
      · exact Or.inl ha
    · rw [hxs a]
      constructor
      · rintro ⟨b, hb, hba⟩
        exact ⟨b, hsub hb, hba⟩
      · rintro ⟨b, hb, hba, hbi⟩
        rcases Set.mem_insert_iff.mp hb with rfl | hb
        · exact absurd hbi.symm hie
        · exact ⟨b, hb, hba, hbi⟩

/-- **A hole leaves its bin.**  Its size in memory plays no part, so it may
have been changed before. -/
theorem remove (h : Binned s.mem s.bins H sz) (hsep : Separate H) (he : e ∈ H) :
    ∃ s', removeNode s (getBinIndex e.size) e.addr = .ok s' ∧
      Binned s'.mem s'.bins (H \ {e}) sz ∧ LinkFrame (addrs H) s.mem s'.mem ∧
      s'.start = s.start ∧ s'.endAddress = s.endAddress := by
  obtain ⟨ys, hybin, hys⟩ := h.bin _ (getBinIndex_lt e.size)
  have hyA : ∀ a ∈ ys, addrs H a := by
    intro a ha
    obtain ⟨b, hb, hba, -⟩ := (hys a).mp ha
    exact ⟨b, hb, hba⟩
  obtain ⟨s', hrem, hbin', hframe, hother, hstart, hend⟩ :=
    removeNode_spec hybin hsep.nodesApart hyA ((hys e.addr).mpr ⟨e, he, rfl, rfl⟩)
  refine ⟨s', hrem, ⟨fun b hb => h.size_eq b hb.1, fun i hi => ?_⟩, hframe.mono hyA, hstart, hend⟩
  have hdiff : ∀ a, (∃ b ∈ H \ {e}, b.addr = a ∧ getBinIndex b.size = i) ↔
      (∃ b ∈ H, b.addr = a ∧ getBinIndex b.size = i) ∧ a ≠ e.addr := by
    intro a
    constructor
    · rintro ⟨b, ⟨hb, hbe⟩, rfl, hbi⟩
      exact ⟨⟨b, hb, rfl, hbi⟩, fun heq => hbe (hsep.addr_inj hb he heq)⟩
    · rintro ⟨⟨b, hb, rfl, hbi⟩, hne⟩
      exact ⟨b, ⟨hb, fun heq => hne (congrArg Block.addr heq)⟩, rfl, hbi⟩
  by_cases hie : i = getBinIndex e.size
  · subst hie
    refine ⟨ys.erase e.addr, hbin', fun a => ?_⟩
    rw [hybin.nodup.mem_erase_iff, hys a, hdiff a, and_comm]
  · obtain ⟨xs, hbin, hxs⟩ := h.bin i hi
    refine ⟨xs, ?_, fun a => ?_⟩
    · rw [hother i hie]
      exact hbin.of_other hys hxs hsep hie (fun a ha => Or.inl ha) hframe
    · rw [hxs a, hdiff a]
      refine ⟨fun hin => ⟨hin, ?_⟩, fun hin => hin.1⟩
      rintro rfl
      obtain ⟨b, hb, hba, hbi⟩ := hin
      exact hie (hsep.addr_inj hb he hba ▸ hbi.symm)

end Binned

/-! ### What an operation may change

The frame of a whole operation: links of holes, and bytes of one block.  Every
other block then stays represented, and its payload keeps its bytes. -/

/-- Only the links of the holes `H` and bytes of the block `b` differ. -/
def BlockFrame (b : Block) (H : Set Block) (m m' : ByteMemory) : Prop :=
  ∀ x, (x < b.addr ∨ b.next ≤ x) → (∀ c ∈ H, x < c.addr + 8 ∨ c.addr + 16 ≤ x) → m' x = m x

theorem BlockFrame.trans {m'' : ByteMemory} (h : BlockFrame b H m m')
    (h' : BlockFrame b H m' m'') : BlockFrame b H m m'' :=
  fun x hx hl => (h' x hx hl).trans (h x hx hl)

theorem BlockFrame.of_inside (h : ∀ x, (x < b.addr ∨ b.next ≤ x) → m' x = m x) :
    BlockFrame b H m m' := fun x hx _ => h x hx

namespace WellTiled

/-- A byte of another block that is no link of a hole does not change. -/
theorem frame_eq (h : WellTiled m start stop blocks) (hf : BlockFrame b (holes blocks) m m')
    (hb : b ∈ blocks) (hc : c ∈ blocks) (hne : c ≠ b) {x : ℕ} (hx : c.addr ≤ x) (hx' : x < c.next)
    (hl : c.hole = true → x < c.addr + 8 ∨ c.addr + 16 ≤ x) : m' x = m x := by
  have hcb := h.tiles.separate hc hb hne
  refine hf x (by omega) fun d hd => ?_
  by_cases hdc : d = c
  · subst hdc
    exact hl hd.2
  · have := h.tiles.separate hd.1 hc hdc
    rw [d.next_eq] at this
    omega

/-- The other blocks stay represented. -/
theorem represents_of_frame (h : WellTiled m start stop blocks)
    (hf : BlockFrame b (holes blocks) m m') (hb : b ∈ blocks) (hc : c ∈ blocks) (hne : c ≠ b) :
    Represents m' c := by
  have hnext := c.next_eq
  refine (h.represents c hc).of_agree fun x hx hx' hout => ?_
  exact h.frame_eq hf hb hc hne hx hx' fun _ => by omega

end WellTiled

/-- Between header and footer of blocks in use, and behind the heap, anything
may be written. -/
theorem HeapInv.of_payload (h : HeapInv s blocks)
    (hm : ∀ x < s.endAddress,
      (∀ b ∈ blocks, b.hole = false → x < b.addr + 8 ∨ b.addr + 16 + b.size ≤ x) →
        m x = s.mem x) : HeapInv (s.withMem m) blocks where
  tiled :=
    { tiles := h.tiled.tiles
      represents := fun b hb => by
        have hnext := b.next_eq
        have hbound := (h.tiled.tiles.bounds hb).2
        refine (h.tiled.represents b hb).of_agree fun x hx hx' hout =>
          hm x (by omega) fun c hc _ => ?_
        by_cases hcb : c = b
        · subst hcb
          omega
        · have := h.tiled.tiles.separate hc hb hcb
          rw [c.next_eq] at this
          omega
      pos := h.tiled.pos
      bounded := h.tiled.bounded }
  binned := by
    obtain ⟨sz, hbin⟩ := h.binned
    refine ⟨sz, hbin.of_agree fun b hb x hx hx' => hm x ?_ fun c hc hlive => ?_⟩
    · have hbound := (h.tiled.tiles.bounds hb.1).2
      rw [b.next_eq] at hbound
      omega
    have hcb : c ≠ b := by
      rintro rfl
      rw [hb.2] at hlive
      cases hlive
    have := h.tiled.tiles.separate hc hb.1 hcb
    simp only [Block.next_eq] at this
    omega

end CourseOs.Heap
