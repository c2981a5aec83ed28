import CourseOs.Lib.StoreLog
import CourseOs.Machine

/-!
# Bounded copies

`strlen` and `strncpy` of `klibc/string.c`.  A source is a block of its own
with its terminator; the destination is a pointer into memory, and the memory
keeps a record of its stores.

The loop of `strncpy` is `while ((*d++ = *s++) && n--)`: it stores a byte
before it looks at the bound, so that it stores one byte more than the bound
wherever the source is that long.  The bytes below the bound are those of the
source in every case, and the terminator is among them when the source is
shorter.

## Main results

* `strlen_eq` — the length of a string that lies in the address space; the
  counter is a `size_t` and would wrap around on a longer one.
* `strncpyLoop_spec` — what the loop stores, whatever the bound is.
* `strncpy_exact` — the bytes behind the bound stay exactly where the source
  is shorter than the bound, or where the byte at the bound happens to be the
  source's already.

The second alternative of the last is needed for an equivalence: a copy that
stores a byte that is there already has not changed memory.
-/

namespace CourseOs

/-- Read the byte a pointer into a block is at; the block ends behind its
terminator. -/
def deref : List UInt8 → Exec UInt8
  | [] => .error .outOfBounds
  | c :: _ => .ok c

/-- The loop of `strlen`, whose counter has 32 bits.  It stops the model where
the block ends without a terminator. -/
def strlenLoop : List UInt8 → ℕ → Exec ℕ
  | [], _ => .error .outOfBounds
  | c :: str, i => if c = 0 then .ok i else strlenLoop str ((i + 1) % 2 ^ 32)

/-- `strlen`, of a string in a block of its own. -/
def strlen (str : List UInt8) : Exec ℕ := strlenLoop str 0

/-- The loop of `strncpy`: `n--` is reached where the byte is not the
terminator, and tests the old value.  A bound of zero therefore stores one
byte. -/
def strncpyLoop : List UInt8 → Stores → ℤ → ℕ → Exec Stores
  | [], _, _, _ => .error .outOfBounds
  | c :: s, o, d, n =>
      if c ≠ 0 ∧ n ≠ 0 then strncpyLoop s (o.store d c) (d + 1) (n - 1)
      else .ok (o.store d c)

/-- `strncpy`, which returns its destination.  There is no padding behind a
short string. -/
def strncpy (o : Stores) (dest : ℤ) (src : List UInt8) (n : ℕ) : Exec (Stores × ℤ) := do
  let o ← strncpyLoop src o dest n
  .ok (o, dest)

variable {o o' : Stores} {d p : ℤ} {s : List UInt8} {n : ℕ} {c : UInt8}

theorem strlenLoop_eq (hs : (0 : UInt8) ∉ s) {i : ℕ} (hfit : i + s.length < 2 ^ 32) :
    strlenLoop (s ++ [0]) i = .ok (i + s.length) := by
  induction s generalizing i with
  | nil => rfl
  | cons c s ih =>
      have hc : c ≠ 0 := fun h => hs (h ▸ List.mem_cons_self)
      have hrest : (0 : UInt8) ∉ s := fun h => hs (List.mem_cons_of_mem c h)
      rw [List.length_cons] at hfit ⊢
      rw [List.cons_append, strlenLoop, if_neg hc, Nat.mod_eq_of_lt (by omega), ih hrest (by omega)]
      congr 1
      omega

/-- `strlen` of a string that lies in the address space. -/
theorem strlen_eq (hs : (0 : UInt8) ∉ s) (hfit : s.length < 2 ^ 32) :
    strlen (s ++ [0]) = .ok s.length := by
  have h := strlenLoop_eq (i := 0) hs (by omega)
  rwa [Nat.zero_add] at h

/-- The loop copies `n` bytes or the whole string, and the byte behind them as
well: the next byte of the source, or its terminator. -/
theorem strncpyLoop_spec (hs : (0 : UInt8) ∉ s) (hfit : n < 2 ^ 32) :
    ∃ o', strncpyLoop (s ++ [0]) o d n = .ok o' ∧ Puts o o' d (s.take n) ∧
      (s ++ [0])[(s.take n).length]? = some (o'.mem (address (d + (s.take n).length))) ∧
      address d ∈ o'.written := by
  induction s generalizing o d n with
  | nil =>
      refine ⟨o.store d 0, if_neg (fun h => h.1 rfl), ?_, ?_, ?_⟩
      · rw [List.take_nil]
        exact Puts.slack o d 0
      · rw [List.take_nil, List.length_nil, Puts.address_zero, Stores.store_apply_self]
        rfl
      · exact Stores.mem_written_store o d 0
  | cons c s ih =>
      have hc : c ≠ 0 := fun h => hs (h ▸ List.mem_cons_self)
      have hrest : (0 : UInt8) ∉ s := fun h => hs (List.mem_cons_of_mem c h)
      cases n with
      | zero =>
          refine ⟨o.store d c, if_neg (fun h => h.2 rfl), Puts.slack o d c, ?_, ?_⟩
          · rw [List.take_zero, List.length_nil, Puts.address_zero, Stores.store_apply_self]
            rfl
          · exact Stores.mem_written_store o d c
      | succ n =>
          obtain ⟨o', hrun, hputs, hlast, -⟩ := ih (o := o.store d c) (d := d + 1) hrest
            (n := n) (by omega)
          have hlength : (s.take n).length ≤ n := List.length_take_le n s
          have hall : Puts o o' d (c :: s.take n) := by
            refine (Puts.store o d c).append hputs ?_
            rw [List.length_singleton]
            omega
          refine ⟨o', ?_, hall, ?_, ?_⟩
          · rw [List.cons_append, strncpyLoop, if_pos ⟨hc, Nat.succ_ne_zero n⟩]
            exact hrun
          · rw [List.take_succ_cons, List.length_cons, List.cons_append, List.getElem?_cons_succ,
              hlast, Nat.cast_succ, add_comm ((s.take n).length : ℤ) 1, add_assoc]
          · exact hall.mem_written (List.cons_ne_nil _ _)

/-- What is asked of a bounded copy: the bytes from the bound on stay, those
below it are the source's, its terminator included.  Bytes are compared, and
not stores. -/
structure WithinBound (o o' : Stores) (dest : ℤ) (src : List UInt8) (n : ℕ) : Prop where
  unchanged : ∀ i : ℕ, n ≤ i → i < 2 ^ 32 →
    o'.mem (address (dest + i)) = o.mem (address (dest + i))
  copied : ∀ i : ℕ, i < min n (src.length + 1) →
    (src ++ [0])[i]? = some (o'.mem (address (dest + i)))

/-- **`strncpy`** always makes the bytes below the bound those of the source.
It leaves the others alone exactly where the source is shorter than the bound,
or where the byte at the bound is the source's already. -/
theorem strncpy_exact (o : Stores) (dest : ℤ) (src : List UInt8) (hsrc : (0 : UInt8) ∉ src)
    (n : ℕ) (hn : n < 2 ^ 32) :
    ∃ o', strncpy o dest (src ++ [0]) n = .ok (o', dest) ∧
      (∀ i : ℕ, i < min n (src.length + 1) →
        (src ++ [0])[i]? = some (o'.mem (address (dest + i)))) ∧
      (WithinBound o o' dest src n ↔
        src.length < n ∨ (src ++ [0])[n]? = some (o.mem (address (dest + n)))) := by
  obtain ⟨o', hrun, hputs, hlast, -⟩ := strncpyLoop_spec (o := o) (d := dest) hsrc hn
  have hlength : (src.take n).length = min n src.length := List.length_take
  have hcopied : ∀ i : ℕ, i < min n (src.length + 1) →
      (src ++ [0])[i]? = some (o'.mem (address (dest + i))) := by
    intro i hi
    by_cases hit : i < (src.take n).length
    · rw [hputs.bytes i hit, List.getElem_take, List.getElem?_append_left (by omega),
        List.getElem?_eq_getElem (by omega)]
    · -- the terminator
      obtain rfl : i = (src.take n).length := by omega
      exact hlast
  refine ⟨o', ?_, hcopied, ?_⟩
  · unfold strncpy
    rw [hrun, Exec.ok_bind]
  constructor
  · intro h
    by_cases hshort : src.length < n
    · exact .inl hshort
    · right
      have hat : (src.take n).length = n := by omega
      rw [hat] at hlast
      rw [hlast, h.unchanged n le_rfl hn]
  · intro h
    refine ⟨fun i hi hlt => ?_, hcopied⟩
    by_cases hmore : (src.take n).length < i
    · refine hputs.frame _ fun j hj => ?_
      rw [ne_eq, address_inj hlt (by omega)]
      omega
    · -- only the byte at the bound is left
      obtain rfl : i = n := by omega
      have hat : (src.take i).length = i := by omega
      rw [hat] at hlast
      rcases h with h | h
      · omega
      · exact Option.some.inj (hlast.symm.trans h)

/-- Three bytes of "ab" into a cleared buffer. -/
theorem strncpy_exact_ab :
    ∃ o', strncpy ⟨⟨fun _ => 0⟩, []⟩ 0x8000 ([0x61, 0x62] ++ [0]) 3 = .ok (o', 0x8000) ∧
      WithinBound ⟨⟨fun _ => 0⟩, []⟩ o' 0x8000 [0x61, 0x62] 3 := by
  obtain ⟨o', hrun, -, hiff⟩ :=
    strncpy_exact ⟨⟨fun _ => 0⟩, []⟩ 0x8000 [0x61, 0x62] (by decide) 3 (by decide)
  exact ⟨o', hrun, hiff.mpr (.inl (by decide))⟩

/-- A bound of one byte, and two are stored. -/
theorem strncpy_exceeds :
    ∃ o', strncpy ⟨⟨fun _ => 0⟩, []⟩ 0x8000 ([0x61, 0x62] ++ [0]) 1 = .ok (o', 0x8000) ∧
      ¬WithinBound ⟨⟨fun _ => 0⟩, []⟩ o' 0x8000 [0x61, 0x62] 1 := by
  refine ⟨_, rfl, fun h => ?_⟩
  have hstays := h.unchanged 1 le_rfl (by decide)
  revert hstays
  decide

end CourseOs
