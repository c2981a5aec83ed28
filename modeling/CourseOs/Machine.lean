import Mathlib.Algebra.GroupWithZero.Nat

/-!
# The machine the kernel runs on

Addresses and `size_t` values are natural numbers below `2 ^ 32`; where the
source can wrap around, the model takes the remainder explicitly, at the
operation that wraps (`sub32`).

A kernel routine that dereferences the null pointer, or that reaches `FATAL`
or a failing `assert`, does not return.  `Exec` is the type of such routines:
either a result or the `Trap` that stopped the kernel.  What would follow an
access through the null pointer is not determined by the program, so the model
stops there.  A theorem that a routine returns says that it does none of this,
and a theorem that it stops says where.

The traps tell the causes apart.  `nullDereference` and `dangling` are
pointers that lead to no structure, `outOfBounds` and `wrongMember` are
accesses beside the data, `fatal` and `assertion` are the checks of the source
itself, and `diverged` and `outOfMemory` stand for loops that cannot end and
requests that no memory can meet.
-/

namespace CourseOs

/-- `PAGE_SIZE`, in bytes: what the page tables map and the heap grows by. -/
abbrev pageSize : ℕ := 4096

/-- 32-bit subtraction. -/
def sub32 (a b : ℕ) : ℕ := (a + 2 ^ 32 - b) % 2 ^ 32

theorem sub32_of_le {a b : ℕ} (h : b ≤ a) (ha : a < 2 ^ 32) : sub32 a b = a - b := by
  unfold sub32
  omega

/-- Why the kernel stopped.  A routine that does not return stops with exactly
one of these. -/
inductive Trap
  /-- A structure was reached through the null pointer. -/
  | nullDereference
  /-- `FATAL` was reached with this message. -/
  | fatal (message : String)
  /-- An `assert` failed. -/
  | assertion
  /-- An array was indexed at or past its end. -/
  | outOfBounds
  /-- A loop ran for longer than its data allows. -/
  | diverged
  /-- A pointer was followed to a structure that is not allocated. -/
  | dangling
  /-- The member of a union was read that was not the last one written. -/
  | wrongMember
  /-- A request was for as many bytes as there are addresses, or more. -/
  | outOfMemory
  deriving DecidableEq, Repr

/-- A routine that returns a value or stops the kernel. -/
abbrev Exec := Except Trap

namespace Exec

variable {α β : Type}

/-- A sequence of two routines returns exactly when both do. -/
theorem bind_eq_ok {x : Exec α} {f : α → Exec β} {b : β} :
    x >>= f = .ok b ↔ ∃ a, x = .ok a ∧ f a = .ok b := by
  cases x with
  | error t => simp [bind, Except.bind]
  | ok a => simp [bind, Except.bind]

@[simp] theorem ok_bind (a : α) (f : α → Exec β) : (Except.ok a : Exec α) >>= f = f a := rfl

@[simp] theorem error_bind (t : Trap) (f : α → Exec β) :
    (Except.error t : Exec α) >>= f = .error t := rfl

@[simp] theorem pure_eq_ok (a : α) : (pure a : Exec α) = .ok a := rfl

end Exec

end CourseOs
