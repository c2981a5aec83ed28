import CourseOs.Klibc.Alloc
import CourseOs.Allocator.HeapInside

/-!
# Where the words of the heap lie

A block starts where the one before it ends, and `heap_alloc` ends the block
it hands out after exactly the bytes asked for.  So a request whose size is no
multiple of the word size puts a footer, and the header behind it, at an
address that is none either, unless the block found is handed out whole
(`WholeWords`).

`WordAligned` is kept by a request exactly where it meets this condition, and
by every run of calls that do (`heap_aligned`).  The calls are `kmalloc`,
`kfree` and `krealloc`, with the null pointer or a live one.  Merging adds
sizes and overheads of blocks, which are multiples of the word size, so a free
does not come into it.

What a run asks for beside the sizes is that no call reads the word behind the
heap.  For `krealloc` that word matters in the state in which the old block is
freed, which is behind the copy to the new one (`FreesInside`).
-/

namespace CourseOs.Heap

open ByteMemory

variable {s s' : HeapState} {blocks blocks' : List Block} {b : Block} {start stop a size p q : ℕ}
  {u u' : InUse} {granted : Bool}

/-- `sizeof(uint32_t)`. -/
abbrev wordSize : ℕ := 4

/-- Every header and every footer of the heap is at a multiple of the word
size, and so is every pointer that has been handed out. -/
structure WordAligned (start : ℕ) (u : InUse) : Prop where
  exists_blocks : ∃ blocks, Tiles start blocks (start + heapInitSize) ∧
    (∀ b ∈ blocks, Represents u.state.mem b) ∧
    ∀ b ∈ blocks, wordSize ∣ b.addr ∧ wordSize ∣ b.addr + sizeofNode + b.size
  pointer : ∀ p ∈ u.live, wordSize ∣ p

/-- The request is for whole words, or the block found for it is not split.  A
request for which there is no hole meets the condition too. -/
def WholeWords (s : HeapState) (size : ℕ) : Prop :=
  wordSize ∣ size ∨ ∀ found index,
    searchBins s size binCount (getBinIndex size) = .ok (some (found, index)) →
      ¬overhead + minAllocSz < sub32 (node s.mem found .size) size

/-! ### Sizes and addresses

Blocks follow one another, so that the address of a block is the start of the
heap plus the sizes and overheads of those before it.  The overhead is a whole
number of words, and therefore whole sizes and aligned addresses are the same
thing (`wordAligned_iff`).  A request changes at most the size of one block,
to the number of bytes asked for. -/

/-- With whole words in all blocks, all blocks start at words. -/
theorem Tiles.dvd_addr (h : Tiles a blocks stop) (ha : wordSize ∣ a)
    (hsize : ∀ b ∈ blocks, wordSize ∣ b.size) : ∀ b ∈ blocks, wordSize ∣ b.addr := by
  induction blocks generalizing a with
  | nil => exact fun b hb => absurd hb List.not_mem_nil
  | cons b blocks ih =>
      obtain ⟨rfl, hrest⟩ := h
      have hnext : wordSize ∣ b.next :=
        Nat.dvd_add (Nat.dvd_add ha (by decide)) (hsize b List.mem_cons_self)
      intro c hc
      rcases List.mem_cons.mp hc with rfl | hc
      · exact ha
      · exact ih hrest hnext (fun c hc => hsize c (List.mem_cons_of_mem _ hc)) c hc

/-- Alignment is about the sizes of the blocks: the heap starts at a multiple
of the word, and header and footer are multiples too.  The blocks can be read
off the headers, so that there is only one list of them to speak of. -/
theorem InUse.Grown.wordAligned_iff (h : u.Grown start blocks) (hstart : wordSize ∣ start) :
    WordAligned start u ↔ ∀ b ∈ blocks, wordSize ∣ b.size := by
  have htiles : Tiles start blocks (start + heapInitSize) := h.start_eq ▸ h.heap.tiled.tiles
  have hrep : ∀ b ∈ blocks, Represents u.state.mem b := h.heap.tiled.represents
  constructor
  · rintro ⟨⟨blocks', htiles', hrep', haligned⟩, -⟩
    -- the headers determine the blocks
    obtain ⟨r, rfl, hr⟩ := htiles'.prefix_of_le htiles hrep' hrep (le_refl _)
    obtain rfl : r = [] := by
      cases r with
      | nil => rfl
      | cons c r =>
          have hbounds := hr.bounds (b := c) List.mem_cons_self
          rw [c.next_eq] at hbounds
          omega
    rw [List.append_nil]
    intro b hb
    obtain ⟨haddr, hfoot⟩ := haligned b hb
    exact (Nat.dvd_add_right (Nat.dvd_add haddr (by decide))).mp hfoot
  · intro hsize
    have haddr := htiles.dvd_addr hstart hsize
    refine ⟨⟨blocks, htiles, hrep, fun b hb => ⟨haddr b hb, ?_⟩⟩, fun p hp => ?_⟩
    · exact Nat.dvd_add (Nat.dvd_add (haddr b hb) (by decide)) (hsize b hb)
    · obtain ⟨b, hb, -, rfl⟩ := h.held.mem p hp
      exact Nat.dvd_add (haddr b hb) (by decide)

/-- **A request** keeps the sizes of the blocks whole exactly where it meets
the condition. -/
theorem Served.dvd_iff (h : Served s size p blocks blocks')
    (hrep : ∀ b ∈ blocks, Represents s.mem b) (hbound : ∀ b ∈ blocks, b.next < 2 ^ 32)
    (hsize : ∀ b ∈ blocks, wordSize ∣ b.size) :
    (∀ b ∈ blocks', wordSize ∣ b.size) ↔ WholeWords s size := by
  cases h with
  | none hnull hnone =>
      refine iff_of_true hsize (.inr fun found index hsome => ?_)
      cases hnone.symm.trans hsome
  | @placed pre post found index hhole hfits hsome hp =>
      have hfound : found ∈ pre ++ found :: post := by simp
      have hleft : sub32 (node s.mem found.addr .size) size = found.size - size := by
        have hnext := hbound found hfound
        rw [found.next_eq] at hnext
        rw [(hrep found hfound).size]
        exact sub32_of_le hfits (by omega)
      have hwords : WholeWords s size ↔
          wordSize ∣ size ∨ ¬overhead + minAllocSz < found.size - size := by
        unfold WholeWords
        rw [← hleft]
        refine or_congr_right ⟨fun hall => hall _ _ hsome, fun hno found' index' hsome' => ?_⟩
        cases hsome.symm.trans hsome'
        exact hno
      have hother : ∀ b, b ∈ pre ∨ b ∈ post → wordSize ∣ b.size := fun b hb =>
        hsize b (by rcases hb with hb | hb <;> simp [hb])
      rw [hwords]
      unfold Heap.placed kept rest
      by_cases hcut : overhead + minAllocSz < found.size - size
      · rw [if_pos hcut, if_pos hcut, or_iff_left (not_not_intro hcut)]
        constructor
        · intro hall
          exact hall ⟨found.addr, size, false⟩ (by simp)
        · intro hword b hb
          simp only [List.mem_append, List.mem_cons, List.not_mem_nil, or_false] at hb
          rcases hb with (hb | rfl | rfl) | hb
          · exact hother b (.inl hb)
          · exact hword
          · exact Nat.dvd_sub (Nat.dvd_sub (hsize found hfound) hword) (by decide)
          · exact hother b (.inr hb)
      · rw [if_neg hcut, if_neg hcut]
        refine iff_of_true (fun b hb => ?_) (.inr hcut)
        simp only [List.mem_append, List.mem_cons, List.not_mem_nil, or_false] at hb
        rcases hb with (hb | rfl) | hb
        · exact hother b (.inl hb)
        · exact hsize found hfound
        · exact hother b (.inr hb)

/-- A request that is served gets a block with room for it. -/
theorem Served.taken (h : Served s size p blocks blocks') (hp : p ≠ 0) :
    ∃ b ∈ blocks', size ≤ b.size ∧ b.payload = p := by
  cases h with
  | none hnull hnone => exact absurd hnull hp
  | @placed pre post found index hhole hfits hsome hpayload =>
      refine ⟨⟨found.addr, kept found size, false⟩, ?_, le_kept hfits,
        (hpayload.resolve_left hp).symm⟩
      simp [Heap.placed]

/-! ### Runs

Sizes are kept whole by requests for whole words, and also by those that take
a hole as it is.  `krealloc` is a request and a free; of the free only
`LooksInside` has to be asked, in the state in which `krealloc` comes to it,
as merging adds whole sizes to whole sizes. -/

/-- The pointers that are live after `krealloc` of `p` has returned `q`. -/
def liveAfter (live : List ℕ) (p newsize q : ℕ) : List ℕ :=
  if newsize = 0 then live.erase p
  else if q = 0 ∨ q = p then live
  else (q :: live).erase p

/-- Where `krealloc` frees the block at `p`, `heap_free` looks at words of the
heap only.  The block is freed as it is for the size 0, and behind the copy to
a new block where there is one; where the block is kept, or `kmalloc` returns
`NULL`, nothing is freed. -/
structure FreesInside (granted : Bool) (s : HeapState) (p newsize : ℕ) : Prop where
  released : newsize = 0 → LooksInside s p
  moved : kmallocSize s p < newsize → ∀ s₁ q, kmalloc granted s newsize = .ok (s₁, q) → q ≠ 0 →
    LooksInside (s₁.withMem (memcpy s₁.mem q p (kmallocSize s p))) p

/-- Calls of `kmalloc`, `krealloc` and `kfree` that meet the condition, and
clients writing into the blocks they hold. -/
inductive WordStep : InUse → InUse → Prop
  | kmalloc {u : InUse} {s' : HeapState} {p : ℕ} (granted : Bool) (size : ℕ)
      (hwords : WholeWords u.state size) (h : kmalloc granted u.state size = .ok (s', p)) :
      WordStep u ⟨s', if p = 0 then u.live else p :: u.live⟩
  | kfree {u : InUse} {s' : HeapState} {p : ℕ} (hp : p ∈ u.live) (hin : LooksInside u.state p)
      (h : kfree u.state p = .ok s') : WordStep u ⟨s', u.live.erase p⟩
  | kfreeNull {u : InUse} {s' : HeapState} (h : kfree u.state 0 = .ok s') :
      WordStep u ⟨s', u.live⟩
  | krealloc {u : InUse} {s' : HeapState} {p q : ℕ} (granted : Bool) (newsize : ℕ)
      (hp : p ∈ u.live) (hin : FreesInside granted u.state p newsize)
      (hwords : kmallocSize u.state p < newsize → WholeWords u.state newsize)
      (h : krealloc granted u.state p newsize = .ok (s', q)) :
      WordStep u ⟨s', liveAfter u.live p newsize q⟩
  | kreallocNull {u : InUse} {s' : HeapState} {p : ℕ} (granted : Bool) (newsize : ℕ)
      (hwords : WholeWords u.state newsize)
      (h : krealloc granted u.state 0 newsize = .ok (s', p)) :
      WordStep u ⟨s', if p = 0 then u.live else p :: u.live⟩
  | write {u : InUse} (m : ByteMemory)
      (h : ∀ x, (∀ p ∈ u.live, x < p ∨ p + kmallocSize u.state p ≤ x) →
        m x = u.state.mem x) : WordStep u ⟨u.state.withMem m, u.live⟩

/-- The run invariant: blocks of whole words, from a start at a word. -/
structure InUse.Words (start : ℕ) (u : InUse) (blocks : List Block) : Prop where
  grown : u.Grown start blocks
  size : ∀ b ∈ blocks, wordSize ∣ b.size

namespace InUse.Words

/-- The blocks lie below the top of the address space. -/
theorem next_lt (h : u.Words start blocks) (hb : b ∈ blocks) : b.next < 2 ^ 32 :=
  (h.grown.heap.tiled.tiles.bounds hb).2.trans_lt h.grown.heap.tiled.bounded

/-- What a request does. -/
theorem dvd_iff (h : u.Words start blocks) (hserved : Served u.state size p blocks blocks') :
    (∀ b ∈ blocks', wordSize ∣ b.size) ↔ WholeWords u.state size :=
  hserved.dvd_iff h.grown.heap.tiled.represents (fun _ hb => h.next_lt hb) h.size

theorem kmalloc (h : u.Words start blocks) (hend : start + heapInitSize + pageSize < 2 ^ 32)
    (hwords : WholeWords u.state size) (halloc : Heap.kmalloc granted u.state size = .ok (s', p)) :
    ∃ blocks', Words start ⟨s', if p = 0 then u.live else p :: u.live⟩ blocks' ∧
      Served u.state size p blocks blocks' := by
  obtain ⟨blocks', hgrown, hserved, -⟩ := h.grown.alloc hend granted halloc
  exact ⟨blocks', ⟨hgrown, (h.dvd_iff hserved).mpr hwords⟩, hserved⟩

theorem kfree (h : u.Words start blocks) (hp : p ∈ u.live) (hin : LooksInside u.state p)
    (hfree : Heap.kfree u.state p = .ok s') :
    ∃ blocks', Words start ⟨s', u.live.erase p⟩ blocks' := by
  obtain ⟨s₁, blocks', hfree', hgrown, hdvd⟩ := h.grown.free hp hin
  cases hfree.symm.trans hfree'
  exact ⟨blocks', hgrown, hdvd wordSize (by decide) h.size⟩

theorem write (h : u.Words start blocks) {m : ByteMemory}
    (hm : ∀ x, (∀ p ∈ u.live, x < p ∨ p + kmallocSize u.state p ≤ x) → m x = u.state.mem x) :
    Words start ⟨u.state.withMem m, u.live⟩ blocks := ⟨h.grown.write hm, h.size⟩

/-- `krealloc` in its branches: a free, a block that stays, a request that is
refused, and a new block that the old one is copied to before it is freed.
The copy is a write of a client to the new block. -/
theorem krealloc {newsize : ℕ} (h : u.Words start blocks)
    (hend : start + heapInitSize + pageSize < 2 ^ 32) (hp : p ∈ u.live)
    (hin : FreesInside granted u.state p newsize)
    (hwords : kmallocSize u.state p < newsize → WholeWords u.state newsize)
    (hre : Heap.krealloc granted u.state p newsize = .ok (s', q)) :
    ∃ blocks', Words start ⟨s', liveAfter u.live p newsize q⟩ blocks' := by
  obtain ⟨b, -, -, rfl⟩ := h.grown.held.mem p hp
  unfold Heap.krealloc at hre
  rw [if_neg payload_ne_zero] at hre
  dsimp only at hre
  unfold liveAfter
  by_cases hzero : newsize = 0
  · rw [if_pos hzero] at hre ⊢
    obtain ⟨s₁, hfree, hret⟩ := Exec.bind_eq_ok.mp hre
    cases hret
    exact h.kfree hp (hin.released hzero) hfree
  rw [if_neg hzero] at hre ⊢
  by_cases hle : newsize ≤ kmallocSize u.state b.payload
  · rw [if_pos hle] at hre
    cases hre
    rw [if_pos (.inr rfl)]
    exact ⟨blocks, h⟩
  rw [if_neg hle] at hre
  have hlt := not_le.mp hle
  obtain ⟨⟨s₁, newptr⟩, halloc, hre⟩ := Exec.bind_eq_ok.mp hre
  dsimp only at hre
  obtain ⟨blocks₁, h₁, hserved⟩ := h.kmalloc hend (hwords hlt) halloc
  by_cases hnew : newptr = 0
  · rw [if_neg (not_not_intro hnew)] at hre
    cases hre
    rw [if_pos hnew] at h₁
    rw [if_pos (.inl rfl)]
    exact ⟨blocks₁, h₁⟩
  · rw [if_pos hnew] at hre
    rw [if_neg hnew] at h₁
    obtain ⟨s₂, hfree, hret⟩ := Exec.bind_eq_ok.mp hre
    cases hret
    -- the copy stays inside the new block
    have h₂ := h₁.write (m := memcpy s₁.mem q b.payload (kmallocSize u.state b.payload))
      fun x hx => by
        have hclear := hx q List.mem_cons_self
        obtain ⟨taken, htaken, hfits, rfl⟩ := hserved.taken hnew
        have hsize : kmallocSize s₁ taken.payload = taken.size := h₁.grown.getAllocSize_eq htaken
        refine memcpy_apply_of_notMem ?_
        rw [hsize] at hclear
        omega
    have hlook := hin.moved hlt s₁ q halloc hnew
    obtain ⟨blocks₃, h₃⟩ := h₂.kfree (List.mem_cons_of_mem _ hp) hlook hfree
    refine ⟨blocks₃, ?_⟩
    have hmoved : ¬(q = 0 ∨ q = b.payload) := by
      refine not_or.mpr ⟨hnew, fun heq => ?_⟩
      exact (List.nodup_cons.mp h₁.grown.held.nodup).1 (heq ▸ hp)
    rw [if_neg hmoved]
    exact h₃

/-- **Every step** keeps the invariant. -/
theorem step (h : u.Words start blocks) (hend : start + heapInitSize + pageSize < 2 ^ 32)
    (hstep : WordStep u u') : ∃ blocks', u'.Words start blocks' := by
  cases hstep with
  | kmalloc granted size hwords halloc =>
      obtain ⟨blocks', h', -⟩ := h.kmalloc hend hwords halloc
      exact ⟨blocks', h'⟩
  | kfree hp hin hfree => exact h.kfree hp hin hfree
  | kfreeNull hfree =>
      unfold Heap.kfree heapFree at hfree
      rw [if_pos rfl] at hfree
      cases hfree
      exact ⟨blocks, h⟩
  | krealloc granted newsize hp hin hwords hre => exact h.krealloc hend hp hin hwords hre
  | kreallocNull granted newsize hwords hre =>
      unfold Heap.krealloc at hre
      rw [if_pos rfl] at hre
      obtain ⟨blocks', h', -⟩ := h.kmalloc hend hwords hre
      exact ⟨blocks', h'⟩
  | write m hm => exact ⟨blocks, h.write hm⟩

end InUse.Words

/-- The fresh heap has its only block at the start of the heap, a whole number
of words long. -/
theorem words_createHeap (m : ByteMemory) (hstart : 0 < start)
    (hend : start + heapInitSize < 2 ^ 32) :
    ∃ s, createHeap m (fun _ => 0) start = .ok s ∧ HeapInv s [firstBlock start] ∧
      InUse.Words start ⟨s, []⟩ [firstBlock start] := by
  obtain ⟨s, hcreate, hinv, hgrown⟩ := grown_createHeap m hstart hend
  refine ⟨s, hcreate, hinv, hgrown, fun b hb => ?_⟩
  rw [List.mem_singleton.mp hb]
  show 4 ∣ 65516
  decide

/-- **The words of the heap are aligned** in every state of every run from a
fresh heap whose requests meet the condition; a further request leaves them so
if and only if it does. -/
theorem heap_aligned (m : ByteMemory) (hstart : 0 < start) (hword : wordSize ∣ start)
    (hend : start + heapInitSize + pageSize < 2 ^ 32) :
    ∃ s, createHeap m (fun _ => 0) start = .ok s ∧
      ∀ u, Relation.ReflTransGen WordStep ⟨s, []⟩ u → WordAligned start u ∧
        ∀ granted size s' p, kmalloc granted u.state size = .ok (s', p) →
          (WordAligned start ⟨s', if p = 0 then u.live else p :: u.live⟩ ↔
            WholeWords u.state size) := by
  obtain ⟨s, hcreate, -, hinit⟩ := words_createHeap m hstart (by omega)
  refine ⟨s, hcreate, fun u hrun => ?_⟩
  obtain ⟨blocks, h⟩ := Runs.invariant (I := fun u => ∃ blocks, u.Words start blocks)
    (fun _ _ ⟨_, h⟩ hstep => h.step hend hstep) hrun ⟨_, hinit⟩
  refine ⟨(h.grown.wordAligned_iff hword).mpr h.size, fun granted size s' p halloc => ?_⟩
  obtain ⟨blocks', hgrown, hserved, -⟩ := h.grown.alloc hend granted halloc
  rw [hgrown.wordAligned_iff hword, h.dvd_iff hserved]

/-- The heap at 64 KiB, in memory that is all zero.  Runs from there that
request whole words only hand out aligned addresses, and the next request does
so exactly if it is of whole words too. -/
theorem heap_aligned_at_64KiB :
    ∃ s, createHeap ⟨fun _ => 0⟩ (fun _ => 0) 0x10000 = .ok s ∧
      ∀ u, Relation.ReflTransGen WordStep ⟨s, []⟩ u → WordAligned 0x10000 u ∧
        ∀ granted size s' p, kmalloc granted u.state size = .ok (s', p) →
          (WordAligned 0x10000 ⟨s', if p = 0 then u.live else p :: u.live⟩ ↔
            WholeWords u.state size) :=
  heap_aligned ⟨fun _ => 0⟩ (by decide) (by decide) (by decide)

/-- After a first request for one byte there are a footer and a header at odd
addresses. -/
theorem one_byte_misaligns :
    ∃ s s' p, createHeap ⟨fun _ => 0⟩ (fun _ => 0) 0x10000 = .ok s ∧
      kmalloc true s 1 = .ok (s', p) ∧ p ≠ 0 ∧ ¬WordAligned 0x10000 ⟨s', [p]⟩ := by
  obtain ⟨s, hcreate, hinv, h⟩ :=
    words_createHeap ⟨fun _ => 0⟩ (by decide : 0 < 0x10000) (by decide)
  obtain ⟨index, hsome⟩ := searchBins_fresh hinv (by decide : 1 ≤ (firstBlock 0x10000).size)
  obtain ⟨s', p, halloc, hnull, -⟩ := heapAlloc_room hinv true 1
  have hp : p ≠ 0 := by
    refine fun hp => (hnull.mp hp).elim (fun hnone => ?_) fun hneed => nomatch hneed.2
    cases hsome.symm.trans hnone
  obtain ⟨blocks', hgrown, hserved, -⟩ := h.grown.alloc (by decide) true halloc
  rw [if_neg hp] at hgrown
  refine ⟨s, s', p, hcreate, halloc, hp, fun haligned => ?_⟩
  rw [hgrown.wordAligned_iff (by decide), h.dvd_iff hserved] at haligned
  refine haligned.resolve_left (by decide) _ _ hsome ?_
  have hsize : node s.mem 0x10000 .size = 65516 :=
    (hinv.tiled.represents (firstBlock 0x10000) List.mem_cons_self).size
  rw [hsize]
  decide

end CourseOs.Heap
