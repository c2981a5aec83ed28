import CourseOs.Lib.ByteMemory
import Mathlib.Algebra.Ring.Int.Defs
import Mathlib.Data.List.Basic

/-!
# Memory with a record of its stores

`Stores` is a memory together with the addresses stored to, in order.
Pointers are integers, so that they may be moved back and forth; the access
reduces them to an address of 32 bits.

`Puts o o' p bs` is the effect of a routine that writes the bytes `bs` from
`p` on and may leave anything in the byte behind them: a formatter that
terminates every piece it writes is of this kind.  Such routines compose
(`Puts.append`): what one of them leaves behind its last byte, the next one
overwrites.  The record of stores says at the same time that nothing else was
written, and that each of the bytes really was, even with the value it had
before.

The lengths have to fit the address space, since a pointer that wraps around
would come back to bytes already written; that is the hypothesis of
`Puts.append`.
-/

/-- A memory and the addresses that were stored to, the same address as often
as it was. -/
structure Stores where
  mem : ByteMemory
  written : List ℕ

/-- The address a pointer stands for, in a space of 32 bits. -/
def address (p : ℤ) : ℕ := (p % 2 ^ 32).toNat

namespace Stores

/-- Store one byte. -/
def store (o : Stores) (p : ℤ) (b : UInt8) : Stores where
  mem := o.mem.writeByte (address p) b
  written := o.written ++ [address p]

@[simp] theorem store_apply_self (o : Stores) (p : ℤ) (b : UInt8) :
    (o.store p b).mem (address p) = b := if_pos rfl

theorem mem_written_store (o : Stores) (p : ℤ) (b : UInt8) : address p ∈ (o.store p b).written :=
  List.mem_append_right _ (List.mem_singleton_self _)

end Stores

/-- Different offsets below 2³² are different addresses. -/
theorem address_inj {p : ℤ} {i j : ℕ} (hi : i < 2 ^ 32) (hj : j < 2 ^ 32) :
    address (p + i) = address (p + j) ↔ i = j := by
  unfold address
  omega

/-- The bytes `bs` were stored from `p` on, and at most one byte more,
directly behind them. -/
structure Puts (o o' : Stores) (p : ℤ) (bs : List UInt8) : Prop where
  bytes : ∀ i (h : i < bs.length), o'.mem (address (p + i)) = bs[i]
  frame : ∀ a, (∀ i ≤ bs.length, a ≠ address (p + i)) → o'.mem a = o.mem a
  stored : ∃ l, o'.written = o.written ++ l ∧
    (∀ a ∈ l, ∃ i ≤ bs.length, a = address (p + i)) ∧
    ∀ i < bs.length, address (p + i) ∈ l

namespace Puts

variable {o o' o'' : Stores} {p : ℤ} {bs cs : List UInt8} {b : UInt8}

/-- Nothing. -/
theorem nil (o : Stores) (p : ℤ) : Puts o o p [] where
  bytes i h := absurd h (Nat.not_lt_zero i)
  frame _ _ := rfl
  stored := ⟨[], (List.append_nil _).symm, fun _ h => absurd h List.not_mem_nil,
    fun i h => absurd h (Nat.not_lt_zero i)⟩

theorem address_zero : address (p + (0 : ℕ)) = address p := by
  rw [Nat.cast_zero, add_zero]

/-- One byte. -/
theorem store (o : Stores) (p : ℤ) (b : UInt8) : Puts o (o.store p b) p [b] where
  bytes i h := by
    obtain rfl : i = 0 := Nat.lt_one_iff.mp h
    rw [address_zero]
    exact if_pos rfl
  frame a ha := by
    have hne := ha 0 (Nat.zero_le _)
    rw [address_zero] at hne
    exact ByteMemory.writeByte_apply_of_ne hne
  stored := by
    refine ⟨[address p], rfl, fun a ha => ⟨0, Nat.zero_le _, ?_⟩, fun i h => ?_⟩
    · rw [address_zero]
      exact List.mem_singleton.mp ha
    · obtain rfl : i = 0 := Nat.lt_one_iff.mp h
      rw [address_zero]
      exact List.mem_singleton_self _

/-- The byte behind the last one may be stored to as well. -/
theorem slack (o : Stores) (p : ℤ) (b : UInt8) : Puts o (o.store p b) p [] where
  bytes i h := absurd h (Nat.not_lt_zero i)
  frame a ha := by
    have hne := ha 0 le_rfl
    rw [address_zero] at hne
    exact ByteMemory.writeByte_apply_of_ne hne
  stored := by
    refine ⟨[address p], rfl, fun a ha => ⟨0, le_rfl, ?_⟩, fun i h => absurd h (Nat.not_lt_zero i)⟩
    rw [address_zero]
    exact List.mem_singleton.mp ha

/-- Routines that write one behind the other: the byte that the first left
behind its own is the first of the second. -/
theorem append (h : Puts o o' p bs) (h' : Puts o' o'' (p + bs.length) cs)
    (hfit : bs.length + cs.length < 2 ^ 32) : Puts o o'' p (bs ++ cs) := by
  have hpointer : ∀ j : ℕ, p + bs.length + j = p + ((bs.length + j : ℕ) : ℤ) := by
    intro j
    rw [Nat.cast_add, add_assoc]
  have hlength : (bs ++ cs).length = bs.length + cs.length := List.length_append
  constructor
  · intro i hi
    rw [hlength] at hi
    by_cases hib : i < bs.length
    · have hother : ∀ j ≤ cs.length, address (p + i) ≠ address (p + bs.length + j) := by
        intro j hj
        rw [hpointer, ne_eq, address_inj (by omega) (by omega)]
        omega
      rw [h'.frame _ hother, h.bytes i hib, List.getElem_append_left hib]
    · obtain ⟨j, rfl⟩ := Nat.exists_eq_add_of_le (Nat.le_of_not_lt hib)
      rw [← hpointer, h'.bytes j (by omega), List.getElem_append_right (by omega)]
      simp only [Nat.add_sub_cancel_left]
  · intro a ha
    rw [hlength] at ha
    have ha' : ∀ j ≤ cs.length, a ≠ address (p + bs.length + j) := by
      intro j hj
      rw [hpointer]
      exact ha _ (Nat.add_le_add_left hj _)
    rw [h'.frame a ha', h.frame a fun i hi => ha i (Nat.le_add_right_of_le hi)]
  · obtain ⟨l, hl, hinside, hall⟩ := h.stored
    obtain ⟨l', hl', hinside', hall'⟩ := h'.stored
    refine ⟨l ++ l', by rw [hl', hl, List.append_assoc], fun a ha => ?_, fun i hi => ?_⟩
    · rw [hlength]
      rcases List.mem_append.mp ha with ha | ha
      · obtain ⟨i, hi, heq⟩ := hinside a ha
        exact ⟨i, Nat.le_add_right_of_le hi, heq⟩
      · obtain ⟨j, hj, heq⟩ := hinside' a ha
        exact ⟨bs.length + j, Nat.add_le_add_left hj _, by rw [heq, hpointer]⟩
    · rw [hlength] at hi
      by_cases hib : i < bs.length
      · exact List.mem_append_left _ (hall i hib)
      · obtain ⟨j, rfl⟩ := Nat.exists_eq_add_of_le (Nat.le_of_not_lt hib)
        rw [← hpointer]
        exact List.mem_append_right _ (hall' j (by omega))

/-- The first byte goes to where the pointer is. -/
theorem mem_written (h : Puts o o' p bs) (hne : bs ≠ []) : address p ∈ o'.written := by
  obtain ⟨l, hl, -, hall⟩ := h.stored
  have hmem := hall 0 (List.length_pos_of_ne_nil hne)
  rw [address_zero] at hmem
  rw [hl]
  exact List.mem_append_right _ hmem

/-- The record is only added to. -/
theorem written_subset (h : Puts o o' p bs) {a : ℕ} (ha : a ∈ o.written) : a ∈ o'.written := by
  obtain ⟨l, hl, -, -⟩ := h.stored
  rw [hl]
  exact List.mem_append_left _ ha

end Puts
