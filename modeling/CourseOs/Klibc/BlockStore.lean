import CourseOs.Klibc.Alloc
import CourseOs.Lib.Calls

/-!
# The heap as a store of blocks

For its clients the kernel heap is a `BlockStore`: some addresses have a
block, and a block has bytes.  `HeapCall.Spec` says what the functions of
`alloc.c`, and the clients' own reads and writes, do to it: which addresses
are handed out is left open, but not what becomes of the bytes.

The store is what the refinement mapping `InUse.store` finds in memory: for
every pointer that is in use, the bytes of its block.  That a request, or a
write of a client, changes no other block is then a fact about memory
(`SameBlock`), which `store_insert` and `store_write` turn into updates of the
store at one address.

## Main definitions

* `HeapCall`, `HeapOutput` — what a client does, and what it sees.
* `HeapCall.Spec` — the calls on a store of blocks, as a relation.
* `HeapCall.Allowed` — what clients keep to.
* `InUse.store` — the blocks of a heap in use, with their bytes.

## Main results

* `Sound.kmalloc` and `Sound.kfree` are the two primitive operations on a heap
  in use; the functions of `alloc.c` are made of them, of `memset` and of
  `memcpy` (`follows_kcalloc`, `follows_moved`).
* `heapCall_step`: an allowed call returns, and is one that `HeapCall.Spec`
  allows.
* `kernel_heap_is_store`: so does every run of allowed calls on a fresh heap.

## What a run has to keep to

The heap of the source has no answer to a request that uses up its last block,
the wilderness, and the theorem is about runs that do not make one
(`HeapCall.Bounded`).  Inside of this bound it is never grown or shrunk, so
what `vm2_allocate_page` would answer is a parameter of every request and
plays no part in the result.

`kcalloc` clears as many bytes as the 32-bit product says, and `HeapCall.Spec`
promises no more: that this is less than the client asked for when the product
overflows is said beside `kcalloc`, and not repeated here.
-/

namespace CourseOs.Heap

open ByteMemory

/-- The blocks there are, with their bytes.  An address without a block is one
that nobody holds. -/
abbrev BlockStore := ℕ → Option (List UInt8)

/-- What a client of the heap does.  A request comes with what
`vm2_allocate_page` would grant.  Reads and writes are of one byte of a block,
by its index there. -/
inductive HeapCall
  | kmalloc (granted : Bool) (size : ℕ)
  | kcalloc (granted : Bool) (n size : ℕ)
  | krealloc (granted : Bool) (ptr newsize : ℕ)
  | kfree (ptr : ℕ)
  | kmallocSize (ptr : ℕ)
  | write (ptr i : ℕ) (b : UInt8)
  | read (ptr i : ℕ)

/-- What it sees of a call.  A pointer may be null; a write and a free return
nothing. -/
inductive HeapOutput
  | pointer (p : ℕ)
  | size (n : ℕ)
  | byte (b : UInt8)
  | done
  deriving DecidableEq

namespace HeapCall

/-- The pointers in use when a request has returned `p`. -/
def taking (live : List ℕ) (p : ℕ) : List ℕ := if p = 0 then live else p :: live

theorem taking_of_ne {live : List ℕ} {p : ℕ} (hp : p ≠ 0) : taking live p = p :: live := if_neg hp

/-- The call.  What a client holds changes with it: a block that is handed out
is added, and one that is freed is taken off. -/
def run : HeapCall → InUse → Exec (InUse × HeapOutput)
  | kmalloc granted size, u => do
      let (s, p) ← Heap.kmalloc granted u.state size
      .ok (⟨s, taking u.live p⟩, .pointer p)
  | kcalloc granted n size, u => do
      let (s, p) ← Heap.kcalloc granted u.state n size
      .ok (⟨s, taking u.live p⟩, .pointer p)
  | krealloc granted ptr newsize, u => do
      let (s, p) ← Heap.krealloc granted u.state ptr newsize
      let live :=
        if ptr = 0 then taking u.live p
        else if newsize = 0 then u.live.erase ptr
        else if p = 0 ∨ p = ptr then u.live
        else p :: u.live.erase ptr
      .ok (⟨s, live⟩, .pointer p)
  | kfree ptr, u => do
      let s ← Heap.kfree u.state ptr
      .ok (⟨s, u.live.erase ptr⟩, .done)
  | kmallocSize ptr, u => .ok (u, .size (Heap.kmallocSize u.state ptr))
  | write ptr i b, u => .ok (⟨u.state.withMem (writeByte u.state.mem (ptr + i) b), u.live⟩, .done)
  | read ptr i, u => .ok (u, .byte (u.state.mem (ptr + i)))

/-- A request of this size leaves the wilderness a hole within bounds. -/
def Bounded (s : HeapState) (size : ℕ) : Prop :=
  ∀ s₁ found, placeBlock s size = .ok (some (s₁, found)) → WildernessFree s₁

/-- What is promised: clients use the blocks they hold, within their bounds,
and requests leave the wilderness within its.  `krealloc` makes a request
where the block there is is too small, and `kcalloc` asks for the product of
its arguments in 32 bits. -/
def Allowed : HeapCall → InUse → Prop
  | kmalloc _ size, u => Bounded u.state size
  | kcalloc _ n size, u => Bounded u.state (n * size % 2 ^ 32)
  | krealloc _ ptr newsize, u => (ptr = 0 ∧ Bounded u.state newsize) ∨
      ptr ∈ u.live ∧ (Heap.kmallocSize u.state ptr < newsize → Bounded u.state newsize)
  | kfree ptr, u => ptr ∈ u.live
  | kmallocSize ptr, u => ptr ∈ u.live
  | write ptr i _, u => ptr ∈ u.live ∧ i < Heap.kmallocSize u.state ptr
  | read ptr i, u => ptr ∈ u.live ∧ i < Heap.kmallocSize u.state ptr

end HeapCall

/-! ### The store

A block is a list of bytes at an address.  The store forgets where blocks lie
in memory, what is between them, and in which order they will be handed out
again; addresses are names that are given out and taken back. -/

/-- A request is granted a block that nobody holds, of at least `size` bytes
that satisfy `P`; or it is refused, and nothing changes.  The address, and how
many bytes more, are left open. -/
inductive Granted (size : ℕ) (P : List UInt8 → Prop) (t : BlockStore) : ℕ → BlockStore → Prop
  | refused : Granted size P t 0 t
  | block {p : ℕ} {bytes : List UInt8} (hp : p ≠ 0) (hfree : t p = none)
      (hsize : size ≤ bytes.length) (hP : P bytes) :
      Granted size P t p (Function.update t p (some bytes))

/-- What the calls do to the store: a request puts a block where there was
none, a free takes one away, a write changes a byte of one, and nothing else
changes. -/
inductive HeapCall.Spec : HeapCall → BlockStore → HeapOutput → BlockStore → Prop
  | kmalloc {granted : Bool} {size p : ℕ} {t t' : BlockStore}
      (h : Granted size (fun _ => True) t p t') : Spec (.kmalloc granted size) t (.pointer p) t'
  | kcalloc {granted : Bool} {n size p : ℕ} {t t' : BlockStore}
      (h : Granted (n * size % 2 ^ 32)
        (fun bytes => ∀ b ∈ bytes.take (n * size % 2 ^ 32), b = 0) t p t') :
      Spec (.kcalloc granted n size) t (.pointer p) t'
  | kreallocNull {granted : Bool} {newsize p : ℕ} {t t' : BlockStore}
      (h : Granted newsize (fun _ => True) t p t') :
      Spec (.krealloc granted 0 newsize) t (.pointer p) t'
  | kreallocZero {granted : Bool} {ptr : ℕ} {bytes : List UInt8} {t : BlockStore}
      (h : t ptr = some bytes) :
      Spec (.krealloc granted ptr 0) t (.pointer 0) (Function.update t ptr none)
  | kreallocKept {granted : Bool} {ptr newsize : ℕ} {bytes : List UInt8} {t : BlockStore}
      (h : t ptr = some bytes) (hne : newsize ≠ 0) (hle : newsize ≤ bytes.length) :
      Spec (.krealloc granted ptr newsize) t (.pointer ptr) t
  | kreallocRefused {granted : Bool} {ptr newsize : ℕ} {bytes : List UInt8} {t : BlockStore}
      (h : t ptr = some bytes) (hlt : bytes.length < newsize) :
      Spec (.krealloc granted ptr newsize) t (.pointer 0) t
  | kreallocMoved {granted : Bool} {ptr newsize q : ℕ} {bytes : List UInt8} {t t' : BlockStore}
      (h : t ptr = some bytes) (hlt : bytes.length < newsize) (hq : q ≠ 0)
      (hgranted : Granted newsize (bytes <+: ·) t q t') :
      Spec (.krealloc granted ptr newsize) t (.pointer q) (Function.update t' ptr none)
  | kfree {ptr : ℕ} {bytes : List UInt8} {t : BlockStore} (h : t ptr = some bytes) :
      Spec (.kfree ptr) t .done (Function.update t ptr none)
  | kmallocSize {ptr : ℕ} {bytes : List UInt8} {t : BlockStore} (h : t ptr = some bytes) :
      Spec (.kmallocSize ptr) t (.size bytes.length) t
  | write {ptr i : ℕ} {b : UInt8} {bytes : List UInt8} {t : BlockStore} (h : t ptr = some bytes)
      (hi : i < bytes.length) :
      Spec (.write ptr i b) t .done (Function.update t ptr (some (bytes.set i b)))
  | read {ptr i : ℕ} {bytes : List UInt8} {t : BlockStore} (h : t ptr = some bytes)
      (hi : i < bytes.length) : Spec (.read ptr i) t (.byte bytes[i]) t

/-- The bytes of the block at `p`, as many as its header says. -/
def contents (s : HeapState) (p : ℕ) : List UInt8 :=
  (List.range (kmallocSize s p)).map fun i => s.mem (p + i)

/-- The blocks in use, with their bytes: what a client can know of the heap. -/
def InUse.store (u : InUse) : BlockStore :=
  fun p => if p ∈ u.live then some (contents u.state p) else none

@[simp] theorem length_contents (s : HeapState) (p : ℕ) :
    (contents s p).length = kmallocSize s p := by
  simp [contents]

@[simp] theorem getElem_contents {s : HeapState} {p i : ℕ} (hi : i < (contents s p).length) :
    (contents s p)[i] = s.mem (p + i) := by
  simp [contents]

/-! ### One call

The operations of the heap, restated for the store.  Each of them changes the
store at one address, and what has to be shown is that the bytes of all other
blocks are read from the same places as before (`SameBlock.contents_eq`). -/

section Step

variable {s s' : HeapState} {u u' : InUse} {blocks : List Block} {b : Block} {live live' : List ℕ}
  {m : ByteMemory} {n size p q : ℕ} {granted : Bool} {c : HeapCall} {bytes : List UInt8}

theorem InUse.store_of_mem (hp : p ∈ u.live) : u.store p = some (contents u.state p) := if_pos hp

theorem InUse.store_of_notMem (hp : p ∉ u.live) : u.store p = none := if_neg hp

theorem SameBlock.contents_eq (h : SameBlock s s' p) : contents s' p = contents s p := by
  refine List.ext_getElem (by simp [h.size]) fun i hi hi' => ?_
  rw [length_contents] at hi'
  rw [getElem_contents, getElem_contents]
  exact h.byte i hi'

/-- What holds between the calls: the heap satisfies its invariant, the
pointers in use are those of its used blocks, and its last block is a hole. -/
def Sound (u : InUse) : Prop :=
  ∃ blocks, HeapInv u.state blocks ∧ LiveBlocks u.live blocks ∧ LastHole blocks 0

/-- A block that was not in use comes into use, and the others are the same. -/
theorem store_insert (hsame : ∀ r ∈ u.live, SameBlock u.state s' r) :
    InUse.store ⟨s', q :: u.live⟩ = Function.update u.store q (some (contents s' q)) := by
  funext r
  by_cases hr : r = q
  · rw [hr, Function.update_self]
    exact if_pos List.mem_cons_self
  · rw [Function.update_of_ne hr]
    by_cases hlive : r ∈ u.live
    · rw [InUse.store_of_mem hlive, ← (hsame r hlive).contents_eq]
      exact if_pos (List.mem_cons_of_mem q hlive)
    · rw [InUse.store_of_notMem hlive]
      exact if_neg fun hin => (List.mem_cons.mp hin).elim hr hlive

/-- A block goes out of use. -/
theorem store_erase (hnodup : u.live.Nodup) (hsame : ∀ r ∈ u.live, r ≠ p → SameBlock u.state s' r) :
    InUse.store ⟨s', u.live.erase p⟩ = Function.update u.store p none := by
  funext r
  by_cases hr : r = p
  · rw [hr, Function.update_self]
    exact if_neg hnodup.not_mem_erase
  · rw [Function.update_of_ne hr]
    by_cases hlive : r ∈ u.live
    · rw [InUse.store_of_mem hlive, ← (hsame r hlive hr).contents_eq]
      exact if_pos ((List.mem_erase_of_ne hr).mpr hlive)
    · rw [InUse.store_of_notMem hlive]
      exact if_neg fun hin => hlive (List.mem_of_mem_erase hin)

/-- The bytes of a block are written. -/
theorem store_write (hp : p ∈ u.live) (hsame : ∀ r ∈ u.live, r ≠ p → SameBlock u.state s' r) :
    InUse.store ⟨s', u.live⟩ = Function.update u.store p (some (contents s' p)) := by
  funext r
  by_cases hr : r = p
  · rw [hr, Function.update_self]
    exact if_pos hp
  · rw [Function.update_of_ne hr]
    by_cases hlive : r ∈ u.live
    · rw [InUse.store_of_mem hlive, ← (hsame r hlive hr).contents_eq]
      exact if_pos hlive
    · rw [InUse.store_of_notMem hlive]
      exact if_neg hlive

/-- **A request.**  It is refused, and nothing changes, or there is one more
block in use, which was not in use before; the others keep their sizes and
their bytes. -/
theorem Sound.kmalloc (h : Sound u) (hbounded : HeapCall.Bounded u.state size) (granted : Bool) :
    Heap.kmalloc granted u.state size = .ok (u.state, 0) ∨
      ∃ s' taken blocks', Heap.kmalloc granted u.state size = .ok (s', taken.payload) ∧
        HeapInv s' blocks' ∧ LiveBlocks (taken.payload :: u.live) blocks' ∧ LastHole blocks' 0 ∧
        taken ∈ blocks' ∧ taken.hole = false ∧ size ≤ taken.size ∧ taken.payload ∉ u.live ∧
        ∀ r ∈ u.live, SameBlock u.state s' r := by
  obtain ⟨blocks, hinv, hlive, -⟩ := h
  refine (hinv.allocate hlive granted hbounded).imp id ?_
  rintro ⟨s', taken, blocks', halloc, hinv', ht, hused, hfits, -, hlive', hlast', hkeep, -⟩
  refine ⟨s', taken, blocks', halloc, hinv', hlive', hlast'.mono (Nat.zero_le _), ht, hused, hfits,
    (List.nodup_cons.mp hlive'.nodup).1, fun r hr => ?_⟩
  obtain ⟨b, hb, hbused, rfl⟩ := (hlive.live_iff r).mp hr
  exact hinv.sameBlock hb (hkeep b hb hbused)

/-- **A free.** -/
theorem Sound.kfree (h : Sound u) (hp : p ∈ u.live) :
    ∃ s', Heap.kfree u.state p = .ok s' ∧ Sound ⟨s', u.live.erase p⟩ ∧
      InUse.store ⟨s', u.live.erase p⟩ = Function.update u.store p none := by
  obtain ⟨blocks, hinv, hlive, hlast⟩ := h
  obtain ⟨s', blocks', pre, hfree, hinv', hlive', hlast', hkeep, hpre, -⟩ :=
    hinv.release hlive hlast hp
  refine ⟨s', hfree, ⟨blocks', hinv', hlive', hlast'⟩, store_erase hlive.nodup fun r hr hne => ?_⟩
  obtain ⟨b, hb, hbused, rfl⟩ := (hlive.live_iff r).mp hr
  exact hinv.sameBlock hb (hkeep b (hpre b hb hbused hne).1 hbused)

/-- **A write into a block** changes no other, nor any header. -/
theorem Sound.write (h : Sound u) (hp : p ∈ u.live)
    (hm : ∀ x, (x < p ∨ p + kmallocSize u.state p ≤ x) → m x = u.state.mem x) :
    Sound ⟨u.state.withMem m, u.live⟩ ∧
      kmallocSize (u.state.withMem m) p = kmallocSize u.state p ∧
      ∀ r ∈ u.live, r ≠ p → SameBlock u.state (u.state.withMem m) r := by
  obtain ⟨blocks, hinv, hlive, hlast⟩ := h
  obtain ⟨b, hb, hused, rfl⟩ := (hlive.live_iff p).mp hp
  have hsize : kmallocSize u.state b.payload = b.size := hinv.tiled.getAllocSize_eq hb
  have hpayload : b.payload = b.addr + 8 := rfl
  rw [hsize] at hm ⊢
  have hinv' : HeapInv (u.state.withMem m) blocks := hinv.of_payload fun x _ hx => hm x (by
    have := hx b hb hused
    omega)
  refine ⟨⟨blocks, hinv', hlive, hlast⟩, hinv'.tiled.getAllocSize_eq hb, fun r hr hne => ?_⟩
  obtain ⟨c, hc, hcused, rfl⟩ := (hlive.live_iff r).mp hr
  have hsep := hinv.tiled.tiles.separate hc hb fun heq => hne (heq ▸ rfl)
  rw [b.next_eq] at hsep
  exact hinv.sameBlock hc fun x hx hx' => hm x (by omega)

/-- Two blocks in use have no byte in common. -/
theorem Sound.apart (h : Sound u) (hp : p ∈ u.live) (hq : q ∈ u.live) (hne : p ≠ q) :
    RangesDisjoint p (kmallocSize u.state p) q (kmallocSize u.state q) := by
  obtain ⟨blocks, hinv, hlive, -⟩ := h
  obtain ⟨b, hb, -, rfl⟩ := (hlive.live_iff p).mp hp
  obtain ⟨c, hc, -, rfl⟩ := (hlive.live_iff q).mp hq
  have hsize : kmallocSize u.state b.payload = b.size := hinv.tiled.getAllocSize_eq hb
  have hsize' : kmallocSize u.state c.payload = c.size := hinv.tiled.getAllocSize_eq hc
  have hsep := hinv.tiled.tiles.separate hb hc fun heq => hne (heq ▸ rfl)
  rw [b.next_eq, c.next_eq] at hsep
  rw [hsize, hsize']
  show b.addr + 8 + b.size ≤ c.addr + 8 ∨ c.addr + 8 + c.size ≤ b.addr + 8
  omega

theorem Sound.ne_zero (h : Sound u) (hp : p ∈ u.live) : p ≠ 0 := by
  obtain ⟨blocks, -, hlive, -⟩ := h
  obtain ⟨b, -, -, rfl⟩ := (hlive.live_iff p).mp hp
  exact payload_ne_zero

/-- The block handed out, with the memory it comes with or other bytes in it,
as `kcalloc` and `krealloc` leave it. -/
theorem Sound.request (h : Sound u) (hbounded : HeapCall.Bounded u.state size) (granted : Bool) :
    Heap.kmalloc granted u.state size = .ok (u.state, 0) ∨
      ∃ s' q, Heap.kmalloc granted u.state size = .ok (s', q) ∧ q ≠ 0 ∧ q ∉ u.live ∧
        size ≤ kmallocSize s' q ∧ Sound ⟨s', q :: u.live⟩ ∧
        (∀ r ∈ u.live, SameBlock u.state s' r) ∧
        ∀ m, (∀ x, (x < q ∨ q + kmallocSize s' q ≤ x) → m x = s'.mem x) →
          Sound ⟨s'.withMem m, q :: u.live⟩ ∧ kmallocSize (s'.withMem m) q = kmallocSize s' q ∧
          InUse.store ⟨s'.withMem m, q :: u.live⟩ =
            Function.update u.store q (some (contents (s'.withMem m) q)) := by
  refine (h.kmalloc hbounded granted).imp id ?_
  rintro ⟨s', taken, blocks', halloc, hinv, hlive, hlast, ht, hused, hfits, hfresh, hsame⟩
  have hsize : kmallocSize s' taken.payload = taken.size := hinv.tiled.getAllocSize_eq ht
  have hsound : Sound ⟨s', taken.payload :: u.live⟩ := ⟨blocks', hinv, hlive, hlast⟩
  refine ⟨s', taken.payload, halloc, payload_ne_zero, hfresh, hsize.symm ▸ hfits, hsound, hsame,
    fun m hm => ?_⟩
  obtain ⟨hsound', hsize', hsame'⟩ := hsound.write List.mem_cons_self hm
  refine ⟨hsound', hsize', store_insert fun r hr => (hsame r hr).trans ?_⟩
  exact hsame' r (List.mem_cons_of_mem _ hr) fun heq => hfresh (heq ▸ hr)

/-- The store after a request, with what `m` has in the block handed out. -/
theorem Granted.of_block {P : List UInt8 → Prop} (hq : q ≠ 0) (hfresh : q ∉ u.live)
    (hsize : size ≤ kmallocSize s' q) (hP : P (contents s' q)) :
    Granted size P u.store q (Function.update u.store q (some (contents s' q))) :=
  .block hq (InUse.store_of_notMem hfresh) (by rwa [length_contents]) hP

/-- The copy that `krealloc` makes begins with what the block held, and
nothing else changes. -/
theorem Sound.copied (h : Sound u) (hp : p ∈ u.live) (hq : q ∈ u.live) (hne : p ≠ q)
    (hle : kmallocSize u.state p ≤ kmallocSize u.state q) :
    (∀ x, (x < q ∨ q + kmallocSize u.state q ≤ x) →
        memcpy u.state.mem q p (kmallocSize u.state p) x = u.state.mem x) ∧
      contents u.state p <+:
        contents (u.state.withMem (memcpy u.state.mem q p (kmallocSize u.state p))) q := by
  have hm : ∀ x, (x < q ∨ q + kmallocSize u.state q ≤ x) →
      memcpy u.state.mem q p (kmallocSize u.state p) x = u.state.mem x :=
    fun x hx => memcpy_apply_of_notMem (by omega)
  have hsize := (h.write hq hm).2.1
  have hapart : RangesDisjoint q (kmallocSize u.state p) p (kmallocSize u.state p) := by
    have := h.apart hp hq hne
    unfold RangesDisjoint at *
    omega
  refine ⟨hm, ?_⟩
  rw [List.prefix_iff_eq_take]
  refine List.ext_getElem (by simp [hsize, hle]) fun i hi hi' => ?_
  rw [length_contents] at hi
  rw [List.getElem_take, getElem_contents, getElem_contents]
  exact (memcpy_apply_of_mem hapart hi).symm

/-! ### The calls

`kcalloc` and `krealloc` are made of the operations above, with bytes of the
new block written before the pointer is returned.  As nobody else can see the
block by then, the store goes from one state to the next without those in
between. -/

/-- One call, that keeps what holds between the calls and that the store
allows. -/
def Follows (c : HeapCall) (u : InUse) : Prop :=
  ∃ u' out, c.run u = .ok (u', out) ∧ Sound u' ∧ c.Spec u.store out u'.store

theorem Sound.follows_kmalloc (h : Sound u) (hbounded : HeapCall.Bounded u.state size)
    (granted : Bool) : Follows (.kmalloc granted size) u := by
  rcases h.request hbounded granted with hnull |
    ⟨s', q, halloc, hq, hfresh, hfits, hsound, hsame, -⟩
  · refine ⟨u, .pointer 0, ?_, h, .kmalloc .refused⟩
    rw [HeapCall.run, hnull]
    rfl
  · refine ⟨⟨s', q :: u.live⟩, .pointer q, ?_, hsound, .kmalloc ?_⟩
    · rw [HeapCall.run, halloc, Exec.ok_bind]
      dsimp only
      rw [HeapCall.taking_of_ne hq]
    · rw [store_insert hsame]
      exact .of_block hq hfresh hfits trivial

/-- `kcalloc`, on as many bytes as the product comes to in 32 bits.  The
clearing is a write to the new block, which no other block sees. -/
theorem Sound.follows_kcalloc (h : Sound u)
    (hbounded : HeapCall.Bounded u.state (n * size % 2 ^ 32)) (granted : Bool) :
    Follows (.kcalloc granted n size) u := by
  rcases h.request hbounded granted with hnull |
    ⟨s', q, halloc, hq, hfresh, hfits, -, -, hwritten⟩
  · refine ⟨u, .pointer 0, ?_, h, .kcalloc .refused⟩
    rw [HeapCall.run, Heap.kcalloc]
    dsimp only
    rw [hnull]
    rfl
  · obtain ⟨hsound, hsize, hstore⟩ :=
      hwritten (memset s'.mem q 0 (n * size % 2 ^ 32)) fun x hx => fill_apply_of_notMem (by omega)
    refine ⟨⟨s'.withMem (memset s'.mem q 0 (n * size % 2 ^ 32)), q :: u.live⟩, .pointer q, ?_,
      hsound, .kcalloc ?_⟩
    · rw [HeapCall.run, Heap.kcalloc]
      dsimp only
      rw [halloc, Exec.ok_bind]
      dsimp only
      rw [if_neg hq, Exec.ok_bind]
      dsimp only
      rw [HeapCall.taking_of_ne hq]
    · rw [hstore]
      refine .of_block hq hfresh (by rwa [hsize]) fun b hb => ?_
      obtain ⟨i, hi, rfl⟩ := List.getElem_of_mem hb
      rw [List.length_take] at hi
      rw [List.getElem_take, getElem_contents]
      exact fill_apply_of_mem (Nat.le_add_right _ _) (by omega)

/-- `krealloc` of a block that is too small.  Where there is no memory nothing
changes; otherwise the new block is filled from the old one, and the old one
is freed after that. -/
theorem Sound.follows_moved (h : Sound u) (hp : p ∈ u.live)
    (hlt : kmallocSize u.state p < size) (hbounded : HeapCall.Bounded u.state size)
    (granted : Bool) : Follows (.krealloc granted p size) u := by
  have hp0 := h.ne_zero hp
  have hsize0 : size ≠ 0 := Nat.ne_zero_of_lt hlt
  have hstore := InUse.store_of_mem hp
  have hlength : (contents u.state p).length < size := by rwa [length_contents]
  rcases h.request hbounded granted with hnull |
    ⟨s', q, halloc, hq, hfresh, hfits, hsound, hsame, hwritten⟩
  · refine ⟨u, .pointer 0, ?_, h, .kreallocRefused hstore hlength⟩
    rw [HeapCall.run, krealloc, if_neg hp0]
    dsimp only
    rw [if_neg hsize0, if_neg (not_le.mpr hlt), hnull, Exec.ok_bind, if_neg (not_not_intro rfl),
      Exec.ok_bind, if_neg hp0, if_neg hsize0, if_pos (.inl rfl)]
  · have hne : p ≠ q := fun heq => hfresh (heq ▸ hp)
    have hpq : p ∈ q :: u.live := List.mem_cons_of_mem q hp
    have hold := (hsame p hp).size
    obtain ⟨hm, hprefix⟩ := hsound.copied hpq List.mem_cons_self hne (by
      show kmallocSize s' p ≤ kmallocSize s' q
      omega)
    dsimp only at hm hprefix
    rw [hold, (hsame p hp).contents_eq] at hprefix
    rw [hold] at hm
    obtain ⟨hsound₁, hsize₁, hstore₁⟩ := hwritten _ hm
    obtain ⟨s₂, hfree, hsound₂, hstore₂⟩ := hsound₁.kfree hpq
    have herase : (q :: u.live).erase p = q :: u.live.erase p :=
      List.erase_cons_tail (by simpa using hne.symm)
    refine ⟨⟨s₂, q :: u.live.erase p⟩, .pointer q, ?_, herase ▸ hsound₂, ?_⟩
    · rw [HeapCall.run, krealloc, if_neg hp0]
      dsimp only
      rw [if_neg hsize0, if_neg (not_le.mpr hlt), halloc, Exec.ok_bind]
      dsimp only
      rw [if_pos hq, hfree, Exec.ok_bind, Exec.ok_bind]
      dsimp only
      rw [if_neg hp0, if_neg hsize0, if_neg (not_or.mpr ⟨hq, hne.symm⟩)]
    · rw [← herase, hstore₂, hstore₁]
      exact .kreallocMoved hstore hlength hq (.of_block hq hfresh (by rwa [hsize₁]) hprefix)

/-- **A call** is one on the store: if it is allowed, it returns, and what it
returns and does to the blocks is among what `HeapCall.Spec` allows. -/
theorem heapCall_step (c : HeapCall) (u : InUse) (h : Sound u) (hc : c.Allowed u) :
    Follows c u := by
  cases c with
  | kmalloc granted size => exact h.follows_kmalloc hc granted
  | kcalloc granted n size => exact h.follows_kcalloc hc granted
  | krealloc granted ptr newsize =>
      rcases hc with ⟨rfl, hbounded⟩ | ⟨hp, hbounded⟩
      · obtain ⟨u', out, hrun, hsound, hspec⟩ := h.follows_kmalloc hbounded granted
        cases hspec with
        | kmalloc hgranted =>
            refine ⟨u', _, ?_, hsound, .kreallocNull hgranted⟩
            rw [HeapCall.run, krealloc, if_pos rfl]
            exact hrun
      · have hp0 := h.ne_zero hp
        have hstore := InUse.store_of_mem hp
        by_cases hzero : newsize = 0
        · subst hzero
          obtain ⟨s', hfree, hsound, hstore'⟩ := h.kfree hp
          refine ⟨⟨s', u.live.erase ptr⟩, .pointer 0, ?_, hsound, ?_⟩
          · rw [HeapCall.run, krealloc, if_neg hp0]
            dsimp only
            rw [if_pos rfl, hfree, Exec.ok_bind, Exec.ok_bind]
            dsimp only
            rw [if_neg hp0, if_pos rfl]
          · rw [hstore']
            exact .kreallocZero hstore
        · by_cases hle : newsize ≤ kmallocSize u.state ptr
          · refine ⟨u, .pointer ptr, ?_, h, .kreallocKept hstore hzero (by rwa [length_contents])⟩
            rw [HeapCall.run, krealloc, if_neg hp0]
            dsimp only
            rw [if_neg hzero, if_pos hle, Exec.ok_bind, if_neg hp0, if_neg hzero,
              if_pos (.inr rfl)]
          · exact h.follows_moved hp (not_le.mp hle) (hbounded (not_le.mp hle)) granted
  | kfree ptr =>
      obtain ⟨s', hfree, hsound, hstore'⟩ := h.kfree hc
      refine ⟨⟨s', u.live.erase ptr⟩, .done, ?_, hsound, ?_⟩
      · rw [HeapCall.run, hfree]
        rfl
      · rw [hstore']
        exact .kfree (InUse.store_of_mem hc)
  | kmallocSize ptr =>
      refine ⟨u, _, rfl, h, ?_⟩
      rw [← length_contents]
      exact .kmallocSize (InUse.store_of_mem hc)
  | write ptr i b =>
      obtain ⟨hp, hi⟩ := hc
      obtain ⟨hsound, hsize, hsame⟩ := h.write hp (m := writeByte u.state.mem (ptr + i) b)
        fun x hx => writeByte_apply_of_ne (by omega)
      refine ⟨_, .done, rfl, hsound, ?_⟩
      have hcontents : contents (u.state.withMem (writeByte u.state.mem (ptr + i) b)) ptr =
          (contents u.state ptr).set i b := by
        refine List.ext_getElem (by simp [hsize]) fun j hj hj' => ?_
        rw [getElem_contents, List.getElem_set]
        by_cases hji : i = j
        · rw [if_pos hji, ← hji]
          exact if_pos rfl
        · rw [if_neg hji, getElem_contents]
          exact writeByte_apply_of_ne (by omega)
      rw [store_write hp hsame, hcontents]
      exact .write (InUse.store_of_mem hp) (by rwa [length_contents])
  | read ptr i =>
      obtain ⟨hp, hi⟩ := hc
      have hi' : i < (contents u.state ptr).length := by rwa [length_contents]
      refine ⟨u, _, rfl, h, ?_⟩
      rw [← getElem_contents hi']
      exact .read (InUse.store_of_mem hp) hi'

end Step

/-! ### Runs

The simulation of single calls, lifted to runs.  The conditions on the calls
are checked in the state in which a call is made, so that they may depend on
everything the run has done up to there. -/

/-- **The kernel heap is a store of blocks.**  On a fresh heap every run of
calls that are allowed, in any order, returns from every call, and is one on
the store, which is empty at the start and holds the blocks in use, with their
bytes, at the end.

`HeapCall.Allowed` has two parts.  Clients free, resize, measure, read and
write only blocks that they hold, and read and write within their sizes.  And
every request leaves the wilderness a hole of between `MIN_WILDERNESS` and
`MAX_WILDERNESS` bytes (`HeapCall.Bounded`).  Requests that do not are not
covered: after `kmalloc(0xE000)` the wilderness is used up, and the next
request looks for its size behind a null pointer.  The size of a request of
`kcalloc` is the product of 32 bits, and only so many bytes are zero. -/
theorem kernel_heap_is_store {start : ℕ} (m : ByteMemory) (hstart : 0 < start)
    (hend : start + heapInitSize < 2 ^ 32) :
    ∃ s, createHeap m (fun _ => 0) start = .ok s ∧ ∀ calls : List HeapCall,
      Calls.Each HeapCall.run HeapCall.Allowed calls ⟨s, []⟩ →
        ∃ u outs, Calls.run HeapCall.run calls ⟨s, []⟩ = .ok (u, outs) ∧
          Calls.Accepts HeapCall.Spec calls (fun _ => none) outs u.store := by
  obtain ⟨s, hcreate, hinv⟩ := inv_createHeap m hstart hend
  have hsound : Sound ⟨s, []⟩ := ⟨_, hinv.heap, hinv.liveBlocks, hinv.last.mono (Nat.zero_le _)⟩
  refine ⟨s, hcreate, fun calls hcalls => ?_⟩
  obtain ⟨u, outs, hrun, -, haccepts⟩ :=
    Calls.mapped (fun c u hu hc => heapCall_step c u hu hc) hsound hcalls
  exact ⟨u, outs, hrun, haccepts⟩

/-- A first request for 16 bytes.  The store is empty before, and has the
block after it. -/
theorem kernel_heap_is_store_at_64KiB :
    ∃ s u outs, createHeap ⟨fun _ => 0⟩ (fun _ => 0) 0x10000 = .ok s ∧
      Calls.run HeapCall.run [.kmalloc true 16] ⟨s, []⟩ = .ok (u, outs) ∧
      Calls.Accepts HeapCall.Spec [.kmalloc true 16] (fun _ => none) outs u.store := by
  obtain ⟨s, hcreate, hinv, -⟩ := createHeap_spec ⟨fun _ => 0⟩ 0x10000 (by decide) (by decide)
  obtain ⟨s', hcreate', hstore⟩ :=
    kernel_heap_is_store ⟨fun _ => 0⟩ (by decide : 0 < 0x10000) (by decide)
  cases hcreate.symm.trans hcreate'
  have hbounded : HeapCall.Bounded s 16 := by
    intro s₁ found hplace
    rcases placeBlock_spec hinv 16 with ⟨hnone, -⟩ |
      ⟨pre, first, post, s₁', hblocks, -, -, -, hplace', h₁, -⟩
    · cases hnone.symm.trans hplace
    · cases hplace.symm.trans hplace'
      obtain ⟨rfl, rfl, rfl⟩ := singleton_eq_append hblocks
      have h₂ : HeapInv s₁ ([⟨0x10000, 16, false⟩] ++ [⟨0x10024, 65480, true⟩]) := h₁
      exact wildernessFree_of_last h₂ rfl (by decide) (by decide)
  obtain ⟨u, outs, hrun, haccepts⟩ := hstore [.kmalloc true 16] ⟨hbounded, fun _ _ _ => trivial⟩
  exact ⟨s, u, outs, hcreate, hrun, haccepts⟩

end CourseOs.Heap
