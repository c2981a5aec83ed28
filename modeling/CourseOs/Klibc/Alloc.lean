import CourseOs.Allocator.HeapRequest

/-!
# The C interface of the heap

`klibc/alloc.c`: `kmalloc` and `kfree` are `heap_alloc` and `heap_free`;
`kcalloc` clears what it allocates, and `krealloc` moves a block that is too
small.  All of them work on the one kernel heap, whose state is passed along,
and a request comes with what `vm2_allocate_page` would answer.

## Main results

* `kcalloc_full` — `kcalloc` forms its size in 32 bits, so that what it
  returns has room for `n` elements exactly where the product fits, or nothing
  is returned.  `kcalloc_short` is the smallest case of the other kind: 2³⁰
  elements of 4 bytes are granted as no bytes at all.
* `krealloc_contract` — what a client may rely on, for every block in use and
  every size: the new block has room for what was asked, begins with what the
  old one held, and the old one is freed; a refusal leaves the block as it
  was; all other blocks keep their size and their bytes.

## Design notes

The contract of `krealloc` is a structure, `Reallocated`, with a field for
each of its clauses.  It speaks about blocks by their payload addresses and
about their bytes in memory, and not about headers, so that it can be read by
somebody who does not know the heap.

`krealloc` copies before it frees.  The copy goes into a block that has just
been taken out of the bins, and keeps the invariant of the heap because it
stays inside of its payload (`HeapInv.copyInto`); what the merge in
`heap_free` writes afterwards lies in headers, footers and holes, and so not
in the copied bytes (`HeapInv.copyFree`).  The hypothesis on the wilderness,
that its hole stays within bounds, is there because a heap without one takes
its next request through a null pointer.
-/

namespace CourseOs.Heap

open ByteMemory

/-- `memcpy`, one byte after the other, from the first on. -/
def memcpy (m : ByteMemory) (dest src : ℕ) : ℕ → ByteMemory
  | 0 => m
  | count + 1 => memcpy (writeByte m dest (m src)) (dest + 1) (src + 1) count

/-- `memset`: `count` bytes from `dest` on become `val`. -/
def memset (m : ByteMemory) (dest : ℕ) (val : UInt8) (count : ℕ) : ByteMemory :=
  fill m dest count val

/-- `kfree`.  The null pointer may be freed, and nothing happens then. -/
def kfree (s : HeapState) (ptr : ℕ) : Exec HeapState := heapFree s ptr

/-- `kmalloc`; 0 is `NULL`.  `granted` is what `vm2_allocate_page` would
answer if it came to that. -/
def kmalloc (granted : Bool) (s : HeapState) (size : ℕ) : Exec (HeapState × ℕ) :=
  heapAlloc granted s size

/-- `kcalloc`.  The number of bytes is formed in 32 bits, and it is what is
asked for and what is cleared. -/
def kcalloc (granted : Bool) (s : HeapState) (n size : ℕ) : Exec (HeapState × ℕ) := do
  let totalSize := n * size % 2 ^ 32
  let (s, block) ← kmalloc granted s totalSize
  if block = 0 then .ok (s, 0) else .ok (s.withMem (memset s.mem block 0 totalSize), block)

/-- `kmalloc_size`: the size in the header of the block, which may be more
than was asked for. -/
def kmallocSize (s : HeapState) (ptr : ℕ) : ℕ := getAllocSize s.mem ptr

/-- `krealloc`.  The null pointer makes it a request and the size 0 a free.  A
block that is large enough stays where it is; otherwise all of it is copied to
a new one, and where there is none the old block is left alone. -/
def krealloc (granted : Bool) (s : HeapState) (ptr newsize : ℕ) : Exec (HeapState × ℕ) :=
  if ptr = 0 then kmalloc granted s newsize
  else
    let oldsize := kmallocSize s ptr
    if newsize = 0 then do
      let s ← kfree s ptr
      .ok (s, 0)
    else if newsize ≤ oldsize then .ok (s, ptr)
    else do
      let (s, newptr) ← kmalloc granted s newsize
      if newptr ≠ 0 then do
        let s ← kfree (s.withMem (memcpy s.mem newptr ptr oldsize)) ptr
        .ok (s, newptr)
      else .ok (s, 0)

variable {m : ByteMemory} {s s' : HeapState} {blocks : List Block} {b : Block} {live : List ℕ}
  {n size p q : ℕ} {granted : Bool}

/-! ### Clearing

`kcalloc` asks for the product of its arguments and clears as many bytes, but
the product is formed in 32 bits.  Whether the block has room for all elements
depends on nothing else. -/

/-- The block at `p` has room for `n` elements of `size` bytes, all of which
are zero.  The products are those of natural numbers. -/
structure Full (s : HeapState) (p n size : ℕ) : Prop where
  room : n * size ≤ kmallocSize s p
  zero : ∀ x, p ≤ x → x < p + n * size → s.mem x = 0
  element : ∀ i < n, i * size + size ≤ kmallocSize s p

theorem Full.of_room (hroom : n * size ≤ kmallocSize s p)
    (hzero : ∀ x, p ≤ x → x < p + n * size → s.mem x = 0) : Full s p n size where
  room := hroom
  zero := hzero
  element i hi := by
    rw [← Nat.succ_mul]
    exact (Nat.mul_le_mul_right size hi).trans hroom

/-- The size of a block does not depend on its payload. -/
theorem kmallocSize_of_represents (hrep : Represents m b) (hnext : b.next < 2 ^ 32)
    (hm : ∀ x, x < b.payload → s.mem x = m x) : kmallocSize s b.payload = b.size := by
  have hhead : sub32 b.payload offset = b.addr := by
    rw [b.next_eq] at hnext
    show sub32 (b.addr + 8) 8 = b.addr
    rw [sub32_of_le (Nat.le_add_left 8 _) (by omega), Nat.add_sub_cancel]
  unfold kmallocSize getAllocSize
  rw [hhead, ← hrep.size]
  exact readWord_congr fun x _ hx => hm x hx

/-- **`kcalloc`** returns a block with room for all elements, and all of them
zero, exactly where the number of bytes is below 2³²; elsewhere it may only
return `NULL`.  `Refused` is the condition under which the request for the
reduced size has no block. -/
theorem kcalloc_full (h : HeapInv s blocks) (granted : Bool) (n size : ℕ) :
    ∃ s' p, kcalloc granted s n size = .ok (s', p) ∧
      ((p ≠ 0 → Full s' p n size) ↔
        n * size < 2 ^ 32 ∨ Refused granted s (n * size % 2 ^ 32)) := by
  obtain ⟨s₁, p, halloc, hnull, hroom⟩ := heapAlloc_room h granted (n * size % 2 ^ 32)
  have hrun : kcalloc granted s n size =
      if p = 0 then .ok (s₁, 0)
      else .ok (s₁.withMem (memset s₁.mem p 0 (n * size % 2 ^ 32)), p) := by
    unfold kcalloc kmalloc
    dsimp only
    rw [halloc, Exec.ok_bind]
  by_cases hp : p = 0
  · rw [if_pos hp] at hrun
    exact ⟨s₁, 0, hrun, iff_of_true (fun hne => absurd rfl hne) (.inr (hnull.mp hp))⟩
  · rw [if_neg hp] at hrun
    obtain ⟨b, rfl, hnext, hfits, hrep⟩ := hroom hp
    refine ⟨_, b.payload, hrun, fun hfull => .inl ?_, fun hcond _ => ?_⟩
    · -- the recorded size is a word
      exact (hfull hp).room.trans_lt (readWord_lt _ _)
    · have hlt : n * size < 2 ^ 32 := hcond.resolve_right fun href => hp (hnull.mpr href)
      rw [Nat.mod_eq_of_lt hlt] at hfits ⊢
      refine Full.of_room ?_ fun x hx hx' => fill_apply_of_mem hx hx'
      rw [kmallocSize_of_represents hrep hnext fun x hx => fill_apply_of_notMem (.inl hx)]
      exact hfits

/-- A first request for 100 elements of 4 bytes, whose product fits in 32
bits. -/
theorem kcalloc_full_at_64KiB :
    ∃ s, createHeap ⟨fun _ => 0⟩ (fun _ => 0) 0x10000 = .ok s ∧
      ∃ s' p, kcalloc true s 100 4 = .ok (s', p) ∧
        ((p ≠ 0 → Full s' p 100 4) ↔
          100 * 4 < 2 ^ 32 ∨ Refused true s (100 * 4 % 2 ^ 32)) := by
  obtain ⟨s, hcreate, hinv, -⟩ := createHeap_spec ⟨fun _ => 0⟩ 0x10000 (by decide) (by decide)
  exact ⟨s, hcreate, kcalloc_full hinv true 100 4⟩

/-- 2³⁰ elements of 4 bytes are granted as no bytes at all. -/
theorem kcalloc_short :
    ∃ s s' p, createHeap ⟨fun _ => 0⟩ (fun _ => 0) 0x10000 = .ok s ∧
      kcalloc true s 0x40000000 4 = .ok (s', p) ∧ p ≠ 0 ∧ ¬Full s' p 0x40000000 4 := by
  obtain ⟨s, hcreate, hinv, -⟩ := createHeap_spec ⟨fun _ => 0⟩ 0x10000 (by decide) (by decide)
  obtain ⟨s₁, p, halloc, hnull, -⟩ := heapAlloc_room hinv true 0
  obtain ⟨index, hsome⟩ := searchBins_fresh hinv (Nat.zero_le _)
  have hp : p ≠ 0 := by
    refine fun hp => (hnull.mp hp).elim (fun hnone => ?_) fun hneed => nomatch hneed.2
    cases hsome.symm.trans hnone
  refine ⟨s, s₁.withMem (memset s₁.mem p 0 0), p, hcreate, ?_, hp, fun hfull => ?_⟩
  · unfold kcalloc kmalloc
    show (heapAlloc true s 0 >>= _) = _
    rw [halloc, Exec.ok_bind]
    exact if_neg hp
  · exact absurd (hfull.room.trans_lt (readWord_lt _ _)) (by decide)

/-! ### Copying

`memcpy` copies from the first byte on, one by one.  For ranges that share no
byte the order does not matter, and blocks of the heap are such ranges. -/

/-- The bytes a copy leaves alone. -/
theorem memcpy_apply_of_notMem {dest src count x : ℕ} (h : x < dest ∨ dest + count ≤ x) :
    memcpy m dest src count x = m x := by
  induction count generalizing m dest src with
  | zero => rfl
  | succ count ih =>
      rw [memcpy, ih (by omega)]
      exact writeByte_apply_of_ne (by omega)

/-- **A copy** between ranges that have no byte in common. -/
theorem memcpy_apply_of_mem {dest src count i : ℕ} (h : RangesDisjoint dest count src count)
    (hi : i < count) : memcpy m dest src count (dest + i) = m (src + i) := by
  induction count generalizing m dest src i with
  | zero => exact absurd hi (Nat.not_lt_zero i)
  | succ count ih =>
      unfold RangesDisjoint at h
      rw [memcpy]
      cases i with
      | zero =>
          refine (memcpy_apply_of_notMem (.inl (Nat.lt_add_one dest))).trans ?_
          exact if_pos rfl
      | succ i =>
          have hrest : RangesDisjoint (dest + 1) count (src + 1) count := by
            unfold RangesDisjoint
            omega
          rw [Nat.add_comm i 1, ← Nat.add_assoc, ← Nat.add_assoc, ih hrest (by omega)]
          exact writeByte_apply_of_ne (by omega)

/-! ### Moving a block

`krealloc` is a request, a copy and a free, each of which may touch other
blocks.  The contract therefore speaks about two sets of blocks: the one
resized, whose bytes are kept up to the smaller of both sizes, and all the
others, which stay as they are. -/

/-- The block at `p` has its size and its bytes, seen through its pointer in
either state. -/
structure SameBlock (s s' : HeapState) (p : ℕ) : Prop where
  size : kmallocSize s' p = kmallocSize s p
  byte : ∀ i < kmallocSize s p, s'.mem (p + i) = s.mem (p + i)

/-- Blocks in use that no call touches are the same. -/
theorem HeapInv.sameBlock (h : HeapInv s blocks) (hb : b ∈ blocks)
    (hkeep : ∀ x, b.addr ≤ x → x < b.next → s'.mem x = s.mem x) : SameBlock s s' b.payload := by
  have hsize : kmallocSize s b.payload = b.size := h.tiled.getAllocSize_eq hb
  have hnext := b.next_eq
  refine ⟨?_, fun i hi => ?_⟩
  · unfold kmallocSize getAllocSize
    rw [sub32_payload h.tiled hb]
    refine readWord_congr fun x hx hx' => ?_
    change b.addr + 4 ≤ x at hx
    change x < b.addr + 4 + 4 at hx'
    exact hkeep x (by omega) (by omega)
  · rw [hsize] at hi
    refine hkeep _ ?_ ?_
    · show b.addr ≤ b.addr + 8 + i
      omega
    · show b.addr + 8 + i < b.next
      omega

theorem SameBlock.trans {s'' : HeapState} (h : SameBlock s s' p) (h' : SameBlock s' s'' p) :
    SameBlock s s'' p where
  size := h'.size.trans h.size
  byte i hi := (h'.byte i (h.size.symm ▸ hi)).trans (h.byte i hi)

/-- The contract of `krealloc`: what holds of the pointer `q` it returns for
`p`, and of the blocks in use before (`live`) and after (`live'`). -/
structure Reallocated (s s' : HeapState) (live live' : List ℕ) (p newsize q : ℕ) : Prop where
  freed : newsize = 0 → q = 0 ∧ p ∉ live'
  moved : newsize ≠ 0 → q ≠ 0 → q ∈ live' ∧ newsize ≤ kmallocSize s' q ∧
    (∀ i < min (kmallocSize s p) newsize, s'.mem (q + i) = s.mem (p + i)) ∧ (p ∉ live' ↔ q ≠ p)
  failed : newsize ≠ 0 → q = 0 → p ∈ live' ∧ SameBlock s s' p
  others : ∀ r ∈ live, r ≠ p → r ∈ live' ∧ SameBlock s s' r
  only : ∀ r ∈ live', r ∈ live ∨ r = q

/-- The payload of `b` is copied into the larger block `taken`.  Headers,
footers and the other payloads are as they were. -/
theorem HeapInv.copyInto {taken : Block} (h : HeapInv s blocks) (ht : taken ∈ blocks)
    (hused : taken.hole = false) (hb : b ∈ blocks) (hne : taken ≠ b) (hle : b.size ≤ taken.size) :
    HeapInv (s.withMem (memcpy s.mem taken.payload b.payload b.size)) blocks ∧
      (∀ i < b.size, memcpy s.mem taken.payload b.payload b.size (taken.payload + i) =
        s.mem (b.payload + i)) ∧
      ∀ c ∈ blocks, c ≠ taken → ∀ x, c.addr ≤ x → x < c.next →
        memcpy s.mem taken.payload b.payload b.size x = s.mem x := by
  have hpayload : taken.payload = taken.addr + 8 := rfl
  refine ⟨h.of_payload fun x _ hx => memcpy_apply_of_notMem ?_, fun i hi =>
    memcpy_apply_of_mem ?_ hi, fun c hc hct x hx hx' => memcpy_apply_of_notMem ?_⟩
  · have := hx taken ht hused
    omega
  · have hsep := h.tiled.tiles.separate ht hb hne
    rw [taken.next_eq, b.next_eq] at hsep
    show taken.addr + 8 + b.size ≤ b.addr + 8 ∨ b.addr + 8 + b.size ≤ taken.addr + 8
    omega
  · have hsep := h.tiled.tiles.separate hc ht hct
    rw [taken.next_eq] at hsep
    omega

/-- The end of `krealloc`: the payload of `b` is copied into the larger block
`taken`, and `b` is freed.  What was copied survives the merge. -/
theorem HeapInv.copyFree {taken : Block} (h : HeapInv s blocks)
    (hlive : LiveBlocks (taken.payload :: live) blocks) (hlast : LastHole blocks n)
    (ht : taken ∈ blocks) (htused : taken.hole = false) (hb : b ∈ blocks)
    (hp : b.payload ∈ live) (hle : b.size ≤ taken.size) :
    ∃ s' blocks', kfree (s.withMem (memcpy s.mem taken.payload b.payload b.size)) b.payload =
        .ok s' ∧ HeapInv s' blocks' ∧ LiveBlocks ((taken.payload :: live).erase b.payload) blocks' ∧
      LastHole blocks' n ∧ kmallocSize s' taken.payload = taken.size ∧
      (∀ i < b.size, s'.mem (taken.payload + i) = s.mem (b.payload + i)) ∧
      ∀ c ∈ blocks, c.hole = false → c ≠ taken → c ≠ b → SameBlock s s' c.payload := by
  have hne : taken.payload ≠ b.payload := fun heq =>
    (List.nodup_cons.mp hlive.nodup).1 (heq ▸ hp)
  obtain ⟨h₂, hcopied, hcopy⟩ := h.copyInto ht htused hb (fun heq => hne (heq ▸ rfl)) hle
  obtain ⟨s', blocks', pre, hfree, hinv, hlive', hlast', hkeep, hpre, -⟩ :=
    h₂.release hlive hlast (List.mem_cons_of_mem _ hp)
  have hafter : ∀ c ∈ blocks, c.hole = false → c.payload ≠ b.payload →
      SameBlock (s.withMem (memcpy s.mem taken.payload b.payload b.size)) s' c.payload :=
    fun c hc hcused hcb => h₂.sameBlock hc (hkeep c (hpre c hc hcused hcb).1 hcused)
  have htsize : kmallocSize (s.withMem (memcpy s.mem taken.payload b.payload b.size))
      taken.payload = taken.size := h₂.tiled.getAllocSize_eq ht
  have htsame := hafter taken ht htused hne
  refine ⟨s', blocks', hfree, hinv, hlive', hlast', htsame.size.trans htsize, fun i hi => ?_,
    fun c hc hcused hct hcb => ?_⟩
  · exact (htsame.byte i (htsize.symm ▸ hi.trans_le hle)).trans (hcopied i hi)
  · have hpayload : c.payload ≠ b.payload := fun heq => hcb (h.tiled.tiles.payload_inj hc hb heq)
    exact (h.sameBlock hc (hcopy c hc hct)).trans (hafter c hc hcused hpayload)

/-- The contract, where the block is freed: `krealloc` to a size of 0 is
`kfree`, and returns null. -/
theorem HeapInv.reallocated_zero (h : HeapInv s blocks) (hlive : LiveBlocks live blocks)
    (hlast : LastHole blocks 0) (hp : p ∈ live) :
    ∃ s' blocks', kfree s p = .ok s' ∧ HeapInv s' blocks' ∧ LiveBlocks (live.erase p) blocks' ∧
      LastHole blocks' 0 ∧ Reallocated s s' live (live.erase p) p 0 0 := by
  obtain ⟨s', blocks', pre, hfree, hinv, hlive', hlast', hkeep, hpre, -⟩ :=
    h.release hlive hlast hp
  refine ⟨s', blocks', hfree, hinv, hlive', hlast',
    { freed := fun _ => ⟨rfl, hlive.nodup.not_mem_erase⟩
      moved := fun hne => absurd rfl hne
      failed := fun hne => absurd rfl hne
      others := fun r hr hrp => ⟨(List.mem_erase_of_ne hrp).mpr hr, ?_⟩
      only := fun r hr => .inl (List.mem_of_mem_erase hr) }⟩
  obtain ⟨c, hc, hcused, rfl⟩ := (hlive.live_iff r).mp hr
  exact h.sameBlock hc (hkeep c (hpre c hc hcused hrp).1 hcused)

/-- The contract, where nothing changes. -/
theorem Reallocated.of_same {newsize : ℕ} (hp : p ∈ live) (hpos : newsize ≠ 0)
    (hq : q = 0 ∨ q = p ∧ newsize ≤ kmallocSize s p) : Reallocated s s live live p newsize q where
  freed heq := absurd heq hpos
  moved _ hne := by
    obtain ⟨rfl, hle⟩ := hq.resolve_left hne
    exact ⟨hp, hle, fun _ _ => rfl, iff_of_false (not_not_intro hp) (not_not_intro rfl)⟩
  failed _ _ := ⟨hp, rfl, fun _ _ => rfl⟩
  others r hr _ := ⟨hr, rfl, fun _ _ => rfl⟩
  only r hr := .inl hr

/-- **The contract of `krealloc`**, on a heap whose last block is a hole and
stays one within bounds, whatever is allocated on the way; and `krealloc` of
the null pointer is `kmalloc`. -/
theorem krealloc_contract (h : HeapInv s blocks) (hlive : LiveBlocks live blocks)
    (hlast : LastHole blocks 0) (granted : Bool) (newsize : ℕ) :
    krealloc granted s 0 newsize = kmalloc granted s newsize ∧
      ∀ p ∈ live, (kmallocSize s p < newsize → ∀ s₁ found,
          placeBlock s newsize = .ok (some (s₁, found)) → WildernessFree s₁) →
        ∃ s' q live' blocks', krealloc granted s p newsize = .ok (s', q) ∧ HeapInv s' blocks' ∧
          LiveBlocks live' blocks' ∧ LastHole blocks' 0 ∧
          Reallocated s s' live live' p newsize q := by
  refine ⟨if_pos rfl, fun p hp hwild => ?_⟩
  obtain ⟨b, hb, hused, rfl⟩ := (hlive.live_iff p).mp hp
  have hsize : kmallocSize s b.payload = b.size := h.tiled.getAllocSize_eq hb
  unfold krealloc
  rw [if_neg payload_ne_zero]
  dsimp only
  by_cases hzero : newsize = 0
  · subst hzero
    obtain ⟨s', blocks', hfree, hinv, hlive', hlast', hre⟩ := h.reallocated_zero hlive hlast hp
    refine ⟨s', 0, _, blocks', ?_, hinv, hlive', hlast', hre⟩
    rw [if_pos rfl, hfree, Exec.ok_bind]
  · rw [if_neg hzero]
    by_cases hle : newsize ≤ kmallocSize s b.payload
    · rw [if_pos hle]
      exact ⟨s, b.payload, live, blocks, rfl, h, hlive, hlast, .of_same hp hzero (.inr ⟨rfl, hle⟩)⟩
    · rw [if_neg hle]
      rcases h.allocate hlive granted (hwild (not_le.mp hle)) with hnull |
        ⟨s₁, taken, blocks₁, halloc, h₁, ht, htused, hfits, hstay, hlive₁, hlast₁, hkeep, -⟩
      · refine ⟨s, 0, live, blocks, ?_, h, hlive, hlast, .of_same hp hzero (.inl rfl)⟩
        rw [kmalloc, hnull, Exec.ok_bind]
        exact if_neg (not_not_intro rfl)
      · rw [hsize] at hle ⊢
        have hfresh := (List.nodup_cons.mp hlive₁.nodup).1
        have htaken : taken.payload ≠ b.payload := fun heq => hfresh (heq ▸ hp)
        have hgrown : b.size ≤ taken.size := (not_le.mp hle).le.trans hfits
        obtain ⟨s₃, blocks₃, hfree, h₃, hlive₃, hlast₃, htsize, hcopied, hsame⟩ :=
          h₁.copyFree hlive₁ hlast₁ ht htused (hstay b hb hused) hp hgrown
        refine ⟨s₃, taken.payload, _, blocks₃, ?_, h₃, hlive₃, hlast₃.mono (Nat.zero_le _),
          { freed := fun heq => absurd heq hzero
            moved := fun _ _ => ⟨(List.mem_erase_of_ne htaken).mpr List.mem_cons_self,
              htsize.symm ▸ hfits, fun i hi => ?_, iff_of_true hlive₁.nodup.not_mem_erase htaken⟩
            failed := fun _ heq => absurd heq payload_ne_zero
            others := fun r hr hrp =>
              ⟨(List.mem_erase_of_ne hrp).mpr (List.mem_cons_of_mem _ hr), ?_⟩
            only := fun r hr =>
              (List.mem_cons.mp (List.mem_of_mem_erase hr)).symm }⟩
        · rw [kmalloc, halloc, Exec.ok_bind]
          dsimp only
          rw [if_pos payload_ne_zero, hfree, Exec.ok_bind]
        · -- copied from the old block, which the allocation did not touch
          have hi' : i < kmallocSize s b.payload := (lt_min_iff.mp hi).1
          rw [hcopied i (hsize ▸ hi')]
          exact (h.sameBlock hb (hkeep b hb hused)).byte i hi'
        · obtain ⟨c, hc, hcused, rfl⟩ := (hlive.live_iff r).mp hr
          refine (h.sameBlock hc (hkeep c hc hcused)).trans
            (hsame c (hstay c hc hcused) hcused ?_ fun heq => hrp (heq ▸ rfl))
          rintro rfl
          exact hfresh hr

theorem wildernessFree_of_last {init : List Block} {last : Block} (h : HeapInv s (init ++ [last]))
    (hhole : last.hole = true) (hmin : minWilderness ≤ last.size)
    (hmax : last.size ≤ maxWilderness) : WildernessFree s := by
  have hrep := h.tiled.represents last (by simp)
  unfold WildernessFree
  rw [getWilderness_eq h, hrep.hole, hrep.size, if_pos hhole]
  exact ⟨rfl, hmin, hmax⟩

/-- A block of 16 bytes at the beginning of a fresh heap is moved behind
itself, since it is too small for 32. -/
theorem krealloc_contract_at_64KiB :
    ∃ s s₁ p, createHeap ⟨fun _ => 0⟩ (fun _ => 0) 0x10000 = .ok s ∧
      kmalloc true s 16 = .ok (s₁, p) ∧ ∃ s' q live' blocks',
        krealloc true s₁ p 32 = .ok (s', q) ∧ HeapInv s' blocks' ∧ LiveBlocks live' blocks' ∧
        LastHole blocks' 0 ∧ Reallocated s₁ s' [p] live' p 32 q := by
  obtain ⟨s, hcreate, hinv, -⟩ := createHeap_spec ⟨fun _ => 0⟩ 0x10000 (by decide) (by decide)
  obtain ⟨s₁, p, halloc, hnull, -, hserved⟩ :=
    heapAlloc_best_fit hinv true 16 ((steady_iff hinv).mpr (quiet_fresh hinv (by decide)))
  have hp : p ≠ 0 := fun h0 =>
    absurd (hnull.mp h0 (firstBlock 0x10000) List.mem_cons_self rfl) (by decide)
  obtain ⟨pre, found, post, hblocks, -, rfl, hcut, -⟩ := hserved hp
  obtain ⟨rfl, rfl, rfl⟩ := singleton_eq_append hblocks
  let used : Block := ⟨0x10000, 16, false⟩
  let behind : Block := ⟨0x10024, 65480, true⟩
  have h₁ : HeapInv s₁ [used, behind] := hcut (by decide)
  have hlive : LiveBlocks [used.payload] [used, behind] := by
    refine ⟨fun r => ?_, List.nodup_singleton _⟩
    rw [List.mem_singleton]
    constructor
    · rintro rfl
      exact ⟨used, List.mem_cons_self, rfl, rfl⟩
    · rintro ⟨b, hb, hl, rfl⟩
      rcases List.mem_cons.mp hb with rfl | hb
      · rfl
      · rw [List.mem_singleton.mp hb] at hl
        cases hl
  refine ⟨s, s₁, used.payload, hcreate, halloc, ?_⟩
  refine (krealloc_contract h₁ hlive ⟨behind, rfl, rfl, Nat.zero_le _⟩ true 32).2 used.payload
    List.mem_cons_self fun _ s₂ found hplace => ?_
  rcases placeBlock_spec h₁ 32 with ⟨hnone, -⟩ |
    ⟨pre, found, post, s₂', hblocks, hhole, -, -, hplace', h₂, -⟩
  · cases hnone.symm.trans hplace
  · cases hplace.symm.trans hplace'
    -- the hole behind is the only one
    obtain ⟨rfl, rfl, rfl⟩ : pre = [used] ∧ found = behind ∧ post = [] := by
      rcases List.cons_eq_append_iff.mp hblocks with ⟨-, heq⟩ | ⟨pre, rfl, heq⟩
      · cases (List.cons.inj heq).1
        cases hhole
      · obtain ⟨rfl, rfl, rfl⟩ := singleton_eq_append heq
        exact ⟨rfl, rfl, rfl⟩
    have h₃ : HeapInv s₂ ([used, ⟨0x10024, 32, false⟩] ++ [⟨0x10024 + 52, 65428, true⟩]) := h₂
    exact wildernessFree_of_last h₃ rfl (by decide) (by decide)

end CourseOs.Heap
