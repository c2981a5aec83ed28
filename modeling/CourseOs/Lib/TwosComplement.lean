import Mathlib.Data.Int.ModEq

/-!
# Signed 32-bit arithmetic

The operations of a signed 32-bit type are those of the integers followed by
`int32`, the reduction to the representative in `[-2³¹, 2³¹)`.  `int32` only
depends on the residue (`int32_eq_iff`), so it can be taken once at the end of
a computation, and it changes nothing that is in range (`int32_of_isInt32`).

Values are integers and not bit vectors, because the programs that use them
compare with lengths and addresses, which are natural numbers, and the
overflow is usually in one place that the statement should show.
-/

/-- The values of a signed 32-bit type. -/
def IsInt32 (x : ℤ) : Prop := -2 ^ 31 ≤ x ∧ x < 2 ^ 31

instance (x : ℤ) : Decidable (IsInt32 x) := inferInstanceAs (Decidable (_ ∧ _))

/-- The signed 32-bit value with the residue of `x`. -/
def int32 (x : ℤ) : ℤ := (x + 2 ^ 31) % 2 ^ 32 - 2 ^ 31

variable {x y : ℤ}

theorem isInt32_int32 (x : ℤ) : IsInt32 (int32 x) := by
  unfold IsInt32 int32
  omega

/-- What is in range stays. -/
theorem int32_of_isInt32 (h : IsInt32 x) : int32 x = x := by
  unfold IsInt32 at h
  unfold int32
  omega

theorem int32_natCast {n : ℕ} (h : n < 2 ^ 31) : int32 n = n :=
  int32_of_isInt32 ⟨by omega, by omega⟩

/-- The upper half of the unsigned values is negative. -/
theorem int32_natCast_of_le {n : ℕ} (h : 2 ^ 31 ≤ n) (h' : n < 2 ^ 32) : int32 n = n - 2 ^ 32 := by
  unfold int32
  omega

@[simp] theorem int32_zero : int32 0 = 0 := rfl

theorem int32_modEq (x : ℤ) : int32 x ≡ x [ZMOD 2 ^ 32] := by
  unfold Int.ModEq int32
  omega

/-- The residue is all that counts: two integers have the same 32-bit value
just when they differ by a multiple of 2³². -/
theorem int32_eq_iff : int32 x = int32 y ↔ x ≡ y [ZMOD 2 ^ 32] := by
  unfold Int.ModEq int32
  omega

theorem int32_congr (h : x ≡ y [ZMOD 2 ^ 32]) : int32 x = int32 y := int32_eq_iff.mpr h

/-- An operand of a product may be reduced first. -/
theorem int32_mul_int32 (x y : ℤ) : int32 (x * int32 y) = int32 (x * y) :=
  int32_congr ((int32_modEq y).mul_left x)

/-- One more digit of a number: both operations are reduced, or neither. -/
theorem int32_shift (x b d : ℤ) : int32 (int32 (int32 x * b) + d) = int32 (x * b + d) := by
  apply int32_congr
  exact ((int32_modEq _).trans ((int32_modEq x).mul_right b)).add_right d
