import CourseOs.Ds.ArrayList
import CourseOs.Lib.KeyedList
import CourseOs.Lib.OwnedChains

/-!
# Hash maps

`ds/bpf/HashMap.c`.  The entries of a map are blocks of the heap, given by
their addresses, and linked to a chain for each bucket; the buckets are a
block of their own, which is replaced by one twice as large when the map is
three quarters full.  Keys and values are pointers that the map does not
follow itself: `hash_fn` and `equal_fn`, with their context, are fields of the
map, and are any functions here.

The address of a new entry, and whether the allocator has room for new
buckets, are arguments of the insertion that asks for them.

* `hashmapInsert`, `hashmapFind`, `hashmapDelete`, `hashmapForEachKeyEntry` —
  the operations;
* `hashmapGrow` — the larger buckets, and the move of every entry to them;
* `hashmapClear`, `hashmapFree` — the end of the entries and of the map.

A chain is walked by a loop that ends at the null pointer.  The loops have as
many turns as the map has entries, and one more; a chain that is longer, or
closed in a circle, would stop them with `Trap.diverged`.  Numbers wrap at 32
bits as in the source, and the product of `hash_bits` at 64.
-/

namespace CourseOs

open OwnedList

variable {K V : Type}

/-- `struct hashmap_entry`, with the pair of its key and its value, and the
address of the next entry of the chain. -/
abbrev HashmapEntry (K V : Type) := Cell ℕ (K × V)

/-- `sizeof(struct hashmap_entry)`: the pointers to the key, to the value and
to the next entry. -/
abbrev sizeofHashmapEntry : ℕ := 12

/-- What the pointer to the buckets leads to.  `hashmap__clear` frees the
block and keeps the pointer, so that "freed" is a third case beside null and a
block. -/
inductive Buckets
  | null
  | block (b : Block ℕ)
  /-- The block has been freed, and the pointer is still there. -/
  | freed

/-- The buckets and the entries: the part of the map that chains are about. -/
structure HashTable (K V : Type) where
  buckets : Buckets
  entries : ℕ → Option (HashmapEntry K V)

/-- `struct HashMap`, with the blocks that are allocated for entries.  The
context of the two functions is part of them here. -/
structure HashMap (K V : Type) extends HashTable K V where
  hashFn : K → ℕ
  equalFn : K → K → Bool
  cap : ℕ
  capBits : ℕ
  sz : ℕ

/-- `hash_bits`: the upper bits of a multiplicative hash.  The product has 64
bits and is cut down to a `size_t`. -/
def hashBits (h bits : ℕ) : ℕ := h * 11400714819323198485 % 2 ^ 64 % 2 ^ 32 / 2 ^ (32 - bits)

/-- A pointer to where the address of an entry is stored: `&buckets[h]` or
`&p->next`.  The routines that link and unlink an entry work on either. -/
inductive EntrySlot
  | bucket (h : ℕ)
  | next (p : ℕ)

namespace HashTable

/-- `*p`, for an entry.  Null and an entry that has been freed stop the
kernel. -/
def entry (t : HashTable K V) (p : ℕ) : Exec (HashmapEntry K V) :=
  if p = 0 then .error .nullDereference
  else match t.entries p with
    | some e => .ok e
    | none => .error .dangling

/-- The entry at `p` becomes `e`, or is freed. -/
def put (t : HashTable K V) (p : ℕ) (e : Option (HashmapEntry K V)) : HashTable K V :=
  { t with entries := Function.update t.entries p e }

/-- The block of the buckets, when index `h` is in it. -/
def bucketsAt (t : HashTable K V) (h : ℕ) : Exec (Block ℕ) :=
  match t.buckets with
  | .null => .error .nullDereference
  | .freed => .error .dangling
  | .block b => if sizeofVoidPointer * (h + 1) ≤ b.size then .ok b else .error .outOfBounds

/-- `*slot`.  A slot is where a chain is entered: the bucket itself, or the
`next` of an entry. -/
def load (t : HashTable K V) : EntrySlot → Exec ℕ
  | .bucket h => do
      let b ← t.bucketsAt h
      .ok (b.cell h)
  | .next p => do
      let e ← t.entry p
      .ok e.next

/-- `*slot = p`.  The bucket or the entry has to be there still. -/
def store (t : HashTable K V) (p : ℕ) : EntrySlot → Exec (HashTable K V)
  | .bucket h => do
      let b ← t.bucketsAt h
      .ok { t with buckets := .block { b with cell := Function.update b.cell h p } }
  | .next q => do
      let e ← t.entry q
      .ok (t.put q (some { e with next := p }))

/-- `kfree` of the buckets; of the null pointer it does nothing. -/
def freeBuckets (t : HashTable K V) : Exec Unit :=
  match t.buckets with
  | .freed => .error .dangling
  | _ => .ok ()

end HashTable

/-- `hashmap_add_entry`: the entry is linked in where `pprev` points, in front
of what was there. -/
def hashmapAddEntry (t : HashTable K V) (pprev : EntrySlot) (entry : ℕ) :
    Exec (HashTable K V) := do
  let next ← t.load pprev
  let e ← t.entry entry
  (t.put entry (some { e with next := next })).store entry pprev

/-- `hashmap_del_entry`: what `pprev` points to becomes the next entry.  The
entry taken out is not freed here. -/
def hashmapDelEntry (t : HashTable K V) (pprev : EntrySlot) (entry : ℕ) :
    Exec (HashTable K V) := do
  let e ← t.entry entry
  let t ← t.store e.next pprev
  .ok (t.put entry (some { e with next := 0 }))

/-- `hashmap__new`, where there is memory for it: a map without buckets, which
come with the first entry. -/
def hashmapNew (hashFn : K → ℕ) (equalFn : K → K → Bool) : HashMap K V :=
  ⟨⟨.null, fun _ => none⟩, hashFn, equalFn, 0, 0, 0⟩

/-- `hashmap_needs_to_grow`: there are no buckets, or one more entry would
fill more than three quarters of them. -/
def hashmapNeedsToGrow (map : HashMap K V) : Bool :=
  map.cap = 0 ∨ map.cap < (map.sz + 1) * 4 % 2 ^ 32 / 3

/-- The chain of one bucket in the loop of `hashmap_grow`: each entry goes to
the front of its new bucket, which turns the order of a chain around. -/
def hashmapGrowChain (hashFn : K → ℕ) (newCapBits : ℕ) : ℕ → ℕ → HashTable K V →
    Exec (HashTable K V)
  | 0, _, _ => .error .diverged
  | fuel + 1, cur, new =>
      if cur = 0 then .ok new
      else do
        let e ← new.entry cur
        let new ← hashmapAddEntry new (.bucket (hashBits (hashFn e.data.1) newCapBits)) cur
        hashmapGrowChain hashFn newCapBits fuel e.next new

/-- The loop of `hashmap_grow` over `n` buckets from `bkt` on.  Each chain of
the old buckets is moved to the new ones, entry by entry. -/
def hashmapGrowLoop (map : HashMap K V) (newCapBits : ℕ) : ℕ → ℕ → HashTable K V →
    Exec (HashTable K V)
  | 0, _, new => .ok new
  | n + 1, bkt, new => do
      let b ← map.bucketsAt bkt
      let new ← hashmapGrowChain map.hashFn newCapBits (map.sz + 1) (b.cell bkt) new
      hashmapGrowLoop map newCapBits n (bkt + 1) new

/-- `hashmap_grow`; `granted` is whether `kcalloc` returns a block.  The old
buckets are freed once every entry has been moved. -/
def hashmapGrow (granted : Bool) (map : HashMap K V) : Exec (HashMap K V × ℤ) :=
  let newCapBits := max ((map.capBits + 1) % 2 ^ 32) 2
  let newCap := 2 ^ newCapBits % 2 ^ 32
  if granted then do
    let newBuckets : Block ℕ := ⟨newCap * sizeofVoidPointer % 2 ^ 32, fun _ => 0⟩
    let new ← hashmapGrowLoop map newCapBits map.cap 0 ⟨.block newBuckets, map.entries⟩
    map.freeBuckets
    .ok ({ map with toHashTable := new, cap := newCap, capBits := newCapBits }, 0)
  else .ok (map, -1)

/-- The loop of `hashmap_find_entry`: the first entry of the chain whose key
is equal. -/
def hashmapFindLoop (map : HashMap K V) (key : K) : ℕ → EntrySlot → ℕ →
    Exec (Option (EntrySlot × ℕ))
  | 0, _, _ => .error .diverged
  | fuel + 1, prev, cur =>
      if cur = 0 then .ok none
      else do
        let e ← map.entry cur
        if map.equalFn e.data.1 key then .ok (some (prev, cur))
        else hashmapFindLoop map key fuel (.next cur) e.next

/-- `hashmap_find_entry`: the entry, and the pointer that leads to it. -/
def hashmapFindEntry (map : HashMap K V) (key : K) (hash : ℕ) :
    Exec (Option (EntrySlot × ℕ)) :=
  match map.buckets with
  | .null => .ok none
  | _ => do
      let cur ← map.load (.bucket hash)
      hashmapFindLoop map key (map.sz + 1) (.bucket hash) cur

/-- `enum hashmap_insert_strategy`: what an insertion does with a key that is
there already, and with one that is not. -/
inductive HashmapInsertStrategy
  | add
  | set
  | update
  | append
  deriving DecidableEq, Repr

/-- `hashmap__insert`, with what it stores at `old_key` and `old_value`;
`entry` is what `kmalloc` returns.  An entry that is found is replaced or
refused, by the strategy; a new one goes to the front of its bucket, after the
map has grown if it has to. -/
def hashmapInsert (granted : Bool) (entry : Option ℕ) (map : HashMap K V) (key : K) (value : V)
    (strategy : HashmapInsertStrategy) : Exec (HashMap K V × ℤ × Option (K × V)) := do
  let found ← if strategy ≠ .append then
      hashmapFindEntry map key (hashBits (map.hashFn key) map.capBits)
    else .ok none
  match found with
  | some (_, p) => do
      let e ← map.entry p
      if strategy = .set ∨ strategy = .update then
        .ok ({ map with toHashTable := map.put p (some { e with data := (key, value) }) }, 0,
          some e.data)
      else .ok (map, -1, some e.data)
  | none =>
      if strategy = .update then .ok (map, -1, none)
      else do
        let (map, err) ← if hashmapNeedsToGrow map then hashmapGrow granted map else .ok (map, 0)
        if err ≠ 0 then .ok (map, err, none)
        else match entry with
          | none => .ok (map, -1, none)
          | some entry => do
              -- `next` is set when the entry is added
              let t ← hashmapAddEntry (map.put entry (some ⟨0, (key, value)⟩))
                (.bucket (hashBits (map.hashFn key) map.capBits)) entry
              .ok ({ map with toHashTable := t, sz := (map.sz + 1) % 2 ^ 32 }, 0, none)

/-- `hashmap__find`: the value of the first entry with the key, in its bucket,
or that there is none. -/
def hashmapFind (map : HashMap K V) (key : K) : Exec (Option V) := do
  let found ← hashmapFindEntry map key (hashBits (map.hashFn key) map.capBits)
  match found with
  | none => .ok none
  | some (_, p) => do
      let e ← map.entry p
      .ok (some e.data.2)

/-- `hashmap__delete`, with what it stores at `old_key` and `old_value`. -/
def hashmapDelete (map : HashMap K V) (key : K) : Exec (HashMap K V × Option (K × V)) := do
  let found ← hashmapFindEntry map key (hashBits (map.hashFn key) map.capBits)
  match found with
  | none => .ok (map, none)
  | some (pprev, p) => do
      let e ← map.entry p
      let t ← hashmapDelEntry map.toHashTable pprev p
      .ok ({ map with toHashTable := t.put p none, sz := sub32 map.sz 1 }, some e.data)

/-- The loop of `hashmap__for_each_key_entry`: the pairs of one chain that
have the key, in the order of the chain. -/
def hashmapForEachKeyLoop (map : HashMap K V) (key : K) : ℕ → ℕ → Exec (List (K × V))
  | 0, _ => .error .diverged
  | fuel + 1, cur =>
      if cur = 0 then .ok []
      else do
        let e ← map.entry cur
        let rest ← hashmapForEachKeyLoop map key fuel e.next
        .ok (if map.equalFn e.data.1 key then e.data :: rest else rest)

/-- `hashmap__for_each_key_entry`: the pairs its body is run for, in order.
The chain holds entries with other keys too, which are left out. -/
def hashmapForEachKeyEntry (map : HashMap K V) (key : K) : Exec (List (K × V)) :=
  match map.buckets with
  | .null => .ok []
  | _ => do
      let cur ← map.load (.bucket (hashBits (map.hashFn key) map.capBits))
      hashmapForEachKeyLoop map key (map.sz + 1) cur

/-- `hashmap__size`: the number of entries, as the map counts them. -/
def hashmapSize (map : HashMap K V) : ℕ := map.sz

/-- `hashmap__capacity`: the number of buckets. -/
def hashmapCapacity (map : HashMap K V) : ℕ := map.cap

/-- A call made while a map is cleared, in the order in which they are made.
The first two are the functions that the caller gives for keys and values. -/
inductive FreeCall (K V : Type)
  | freeKey (key : K)
  | freeData (value : V)
  | kfree (entry : ℕ)
  | kfreeBuckets
  | kfreeMap

/-- The chain of one bucket in the loop of `hashmap__clear`.  The successor of
an entry is read before the entry is freed. -/
def hashmapClearChain : ℕ → ℕ → HashTable K V → Exec (HashTable K V × List (FreeCall K V))
  | 0, _, _ => .error .diverged
  | fuel + 1, cur, t =>
      if cur = 0 then .ok (t, [])
      else do
        let e ← t.entry cur
        let (t, calls) ← hashmapClearChain fuel e.next (t.put cur none)
        .ok (t, .freeKey e.data.1 :: .freeData e.data.2 :: .kfree cur :: calls)

/-- The loop of `hashmap__clear` over `n` buckets from `bkt` on, with the
calls it makes. -/
def hashmapClearLoop (fuel : ℕ) : ℕ → ℕ → HashTable K V →
    Exec (HashTable K V × List (FreeCall K V))
  | 0, _, t => .ok (t, [])
  | n + 1, bkt, t => do
      let cur ← t.load (.bucket bkt)
      let (t, calls) ← hashmapClearChain fuel cur t
      let (t, rest) ← hashmapClearLoop fuel n (bkt + 1) t
      .ok (t, calls ++ rest)

/-- `hashmap__clear`.  The pointer to the buckets is not reset. -/
def hashmapClear (map : HashMap K V) : Exec (HashMap K V × List (FreeCall K V)) := do
  let (t, calls) ← hashmapClearLoop (map.sz + 1) map.cap 0 map.toHashTable
  t.freeBuckets
  let buckets := match t.buckets with
    | .null => .null
    | _ => .freed
  .ok ({ map with buckets := buckets, entries := t.entries, cap := 0, capBits := 0, sz := 0 },
    calls ++ [.kfreeBuckets])

/-- `hashmap__free` of a map that is not null: the blocks left for entries,
and the calls. -/
def hashmapFree (map : HashMap K V) :
    Exec ((ℕ → Option (HashmapEntry K V)) × List (FreeCall K V)) := do
  let (map, calls) ← hashmapClear map
  .ok (map.entries, calls ++ [.kfreeMap])

end CourseOs
