import CourseOs.Lib.TwosComplement
import Mathlib.Data.Nat.Digits.Lemmas

/-!
# Numerals as bytes

`numeral a b n` is `n` in base `b`, most significant digit first, with the
letters from `a` on for the digits above nine; the numeral of zero has no
digits, as in a routine that divides until nothing is left.  `value` reads
decimal digits.

## Main results

* `value_numeral` — what `numeral` writes in base ten is read back, also
  behind any number of zeros (`value_zeros_append`).
* `numeral_eq` — the digit that a division by the base gives comes last, which
  is the step of a routine that writes digits from the end.
* `foldl_addDigit` — a reader with 32-bit arithmetic, which reduces after
  every multiplication and every addition, comes to the same residue as one
  that reduces once in the end.
* `numeral_length_le` — a numeral has no more digits than the number has bits,
  which bounds the buffer of a routine that writes one.
-/

namespace Numerals

/-- The byte of a digit; those from ten on are letters, from `a` on. -/
def digitByte (a : UInt8) (d : ℕ) : UInt8 :=
  if d < 10 then UInt8.ofNat (0x30 + d) else a + UInt8.ofNat (d - 10)

/-- The digits of `n` in base `b`, most significant first; zero has none. -/
def numeral (a : UInt8) (b n : ℕ) : List UInt8 := ((Nat.digits b n).map (digitByte a)).reverse

/-- A decimal digit. -/
def IsDigit (c : UInt8) : Prop := 0x30 ≤ c ∧ c ≤ 0x39

instance (c : UInt8) : Decidable (IsDigit c) := inferInstanceAs (Decidable (_ ∧ _))

/-- What a decimal digit stands for, as the subtraction of the code gives it. -/
def digit (c : UInt8) : ℤ := c.toNat - 0x30

/-- Read on at `x`: each digit is behind what was read before. -/
def readFrom (x : ℤ) (ds : List UInt8) : ℤ := ds.foldl (fun x c => x * 10 + digit c) x

/-- The number that decimal digits stand for. -/
def value (ds : List UInt8) : ℤ := readFrom 0 ds

/-- One more digit, in 32-bit arithmetic that wraps after each step. -/
def addDigit (x : ℤ) (c : UInt8) : ℤ := int32 (int32 (x * 10) + digit c)

variable {a c : UInt8} {b n d : ℕ} {ds es : List UInt8} {x : ℤ}

/-! ### Reading

Digits are read from the left, by multiplying and adding.  Signed arithmetic
of 32 bits gives the value reduced to 32 bits, however many digits there are. -/

theorem readFrom_append : readFrom x (ds ++ es) = readFrom (readFrom x ds) es := List.foldl_append

/-- Zeros in front do not count. -/
theorem readFrom_zeros (k : ℕ) : readFrom 0 (List.replicate k 0x30) = 0 := by
  induction k with
  | zero => rfl
  | succ k ih => exact ih

theorem addDigit_int32 (x : ℤ) (c : UInt8) : addDigit (int32 x) c = int32 (x * 10 + digit c) :=
  int32_shift x 10 (digit c)

/-- Reading with 32-bit arithmetic is reading, reduced in the end, because
every operation only depends on the residue of what came before. -/
theorem foldl_addDigit (x : ℤ) (ds : List UInt8) :
    ds.foldl addDigit (int32 x) = int32 (readFrom x ds) := by
  induction ds generalizing x with
  | nil => rfl
  | cons c ds ih =>
      rw [List.foldl_cons, addDigit_int32, ih]
      rfl

theorem digit_nonneg (h : IsDigit c) : 0 ≤ digit c := by
  have hc : (0x30 : UInt8).toNat ≤ c.toNat := h.1
  unfold digit
  have h30 : (0x30 : UInt8).toNat = 0x30 := rfl
  omega

theorem readFrom_nonneg (hx : 0 ≤ x) (h : ∀ c ∈ ds, IsDigit c) : 0 ≤ readFrom x ds := by
  induction ds generalizing x with
  | nil => exact hx
  | cons c ds ih =>
      have hc := digit_nonneg (h c List.mem_cons_self)
      have hnext : 0 ≤ x * 10 + digit c := by omega
      exact ih hnext fun d hd => h d (List.mem_cons_of_mem c hd)

/-! ### Writing

Digits are written from the right, the last one first, and there are none for
zero. -/

@[simp] theorem numeral_zero (a : UInt8) (b : ℕ) : numeral a b 0 = [] := by
  unfold numeral
  rw [Nat.digits_zero]
  rfl

/-- The last digit comes last. -/
theorem numeral_eq (hb : 1 < b) (hn : 0 < n) :
    numeral a b n = numeral a b (n / b) ++ [digitByte a (n % b)] := by
  unfold numeral
  rw [Nat.digits_def' hb hn, List.map_cons, List.reverse_cons]

theorem numeral_ne_nil (hn : n ≠ 0) : numeral a b n ≠ [] := by
  unfold numeral
  rw [ne_eq, List.reverse_eq_nil_iff, List.map_eq_nil_iff]
  exact Nat.digits_ne_nil_iff_ne_zero.mpr hn

theorem numeral_length_le (hb : 2 ≤ b) {k : ℕ} (h : n < 2 ^ k) : (numeral a b n).length ≤ k := by
  unfold numeral
  rw [List.length_reverse, List.length_map]
  exact (Nat.digits_length_le_iff (by omega) n).mpr (h.trans_le (Nat.pow_le_pow_left hb k))

theorem digitByte_of_lt (h : d < 10) : digitByte a d = UInt8.ofNat (0x30 + d) := if_pos h

theorem toNat_digitByte (h : d < 10) : (digitByte a d).toNat = 0x30 + d := by
  rw [digitByte_of_lt h, UInt8.toNat_ofNat']
  omega

theorem isDigit_digitByte (h : d < 10) : IsDigit (digitByte a d) := by
  have heq := toNat_digitByte (a := a) h
  constructor
  · show (0x30 : UInt8).toNat ≤ (digitByte a d).toNat
    rw [heq]
    exact Nat.le_add_right _ _
  · show (digitByte a d).toNat ≤ (0x39 : UInt8).toNat
    rw [heq]
    show 0x30 + d ≤ 0x39
    omega

theorem digit_digitByte (h : d < 10) : digit (digitByte a d) = d := by
  unfold digit
  rw [toNat_digitByte h]
  omega

/-- A decimal numeral is made of decimal digits. -/
theorem isDigit_of_mem_numeral (h : c ∈ numeral a 10 n) : IsDigit c := by
  unfold numeral at h
  obtain ⟨d, hd, rfl⟩ := List.mem_map.mp (List.mem_reverse.mp h)
  exact isDigit_digitByte (Nat.digits_lt_base (by decide) hd)

/-- **What `numeral` writes is read back**, whatever letters it would have
used above nine. -/
theorem value_numeral (a : UInt8) (n : ℕ) : value (numeral a 10 n) = n := by
  induction n using Nat.strong_induction_on with
  | _ n ih =>
      by_cases hn : n = 0
      · subst hn
        rw [numeral_zero]
        rfl
      · have hlt : n / 10 < n := Nat.div_lt_self (Nat.pos_of_ne_zero hn) (by decide)
        rw [numeral_eq (by decide) (Nat.pos_of_ne_zero hn)]
        unfold value
        rw [readFrom_append]
        have hih : readFrom 0 (numeral a 10 (n / 10)) = (n / 10 : ℕ) := ih _ hlt
        rw [hih]
        show ((n / 10 : ℕ) : ℤ) * 10 + digit (digitByte a (n % 10)) = n
        rw [digit_digitByte (Nat.mod_lt n (by decide))]
        omega

/-- Zeros in front of a numeral do not change what it stands for. -/
theorem value_zeros_append (k : ℕ) (ds : List UInt8) :
    value (List.replicate k 0x30 ++ ds) = value ds := by
  unfold value
  rw [readFrom_append, readFrom_zeros]

end Numerals
