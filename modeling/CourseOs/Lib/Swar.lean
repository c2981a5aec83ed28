import Mathlib.Data.List.Basic
import Mathlib.Data.Nat.Bitwise
import Mathlib.Tactic.Ring

/-!
# Bytes within a word

A word of `k` bytes is the number `ofBytes bs`, its least significant byte
first.  `hasZero k` is the well-known test for a byte that is zero by one
subtraction and two conjunctions, `(x - ones) & ~x & highs`.

## Main results

* `hasZero_iff` — the test is exact: it gives something other than zero just
  when one of the bytes is zero.
* `hasZero_xor_iff` — a byte `c` is found as a zero byte of the exclusive or
  with `c` in every place.

Subtracting one from every byte borrows from none as long as none is zero, and
then sets the top bit only of bytes that had it set; the first zero byte has
its top bit set and was without.  The induction is on the bytes from the least
significant on, which is the way the borrow goes: behind the first zero byte
nothing is claimed about the single bits.
-/

namespace Swar

/-- A word, byte by byte, the lowest byte first. -/
def ofBytes : List UInt8 → ℕ
  | [] => 0
  | b :: bs => b.toNat + 256 * ofBytes bs

/-- The word of `k` bytes that are 1, which spreads a byte over a word when it
is multiplied by it. -/
def ones : ℕ → ℕ
  | 0 => 0
  | k + 1 => 1 + 256 * ones k

/-- The test for a zero byte: `(x - ones) & ~x & highs`, where the subtraction
wraps around. -/
def hasZero (k x : ℕ) : ℕ :=
  ((x + 256 ^ k - ones k) % 256 ^ k) &&& (256 ^ k - 1 - x) &&& (128 * ones k)

variable {bs : List UInt8} {b c : UInt8} {k x y d e : ℕ}

theorem ofBytes_lt (bs : List UInt8) : ofBytes bs < 256 ^ bs.length := by
  induction bs with
  | nil => exact Nat.one_pos
  | cons b bs ih =>
      have hb := b.toNat_lt
      rw [ofBytes, List.length_cons, Nat.pow_succ]
      omega

theorem ones_lt (k : ℕ) : 2 * ones k < 256 ^ k := by
  induction k with
  | zero => exact Nat.one_pos
  | succ k ih =>
      rw [ones, Nat.pow_succ]
      omega

/-! ### Digits

A word is cut into its lowest byte and the rest, on which the bitwise
operations work independently. -/

theorem testBit_digit (hd : d < 256) (j : ℕ) :
    (d + 256 * x).testBit j = if j < 8 then d.testBit j else x.testBit (j - 8) := by
  rw [Nat.add_comm, show 256 = 2 ^ 8 from rfl]
  exact Nat.testBit_two_pow_mul_add x hd j

theorem digit_land (hd : d < 256) (he : e < 256) :
    (d + 256 * x) &&& (e + 256 * y) = (d &&& e) + 256 * (x &&& y) := by
  have hde : d &&& e < 2 ^ 8 := Nat.and_lt_two_pow d he
  apply Nat.eq_of_testBit_eq
  intro j
  rw [Nat.testBit_and, testBit_digit hd, testBit_digit he, testBit_digit hde]
  split
  · rw [Nat.testBit_and]
  · rw [Nat.testBit_and]

theorem digit_xor (hd : d < 256) (he : e < 256) :
    (d + 256 * x) ^^^ (e + 256 * y) = (d ^^^ e) + 256 * (x ^^^ y) := by
  have hde : d ^^^ e < 2 ^ 8 := Nat.xor_lt_two_pow hd he
  apply Nat.eq_of_testBit_eq
  intro j
  rw [Nat.testBit_xor, testBit_digit hd, testBit_digit he, testBit_digit hde]
  split
  · rw [Nat.testBit_xor]
  · rw [Nat.testBit_xor]

/-! ### The test

By induction on the bytes of the word: only the subtraction carries from one
byte to the next, and it does so behind a zero byte, which has been found by
then. -/

/-- A byte that is not zero sets no bit, as one less than it has the top bit
set only if it has itself. -/
theorem byte_land_eq_zero : ∀ d < 256, d ≠ 0 → (d - 1) &&& (255 - d) &&& 128 = 0 := by
  decide +kernel

/-- A first byte that is not zero leaves the test to the others. -/
theorem hasZero_of_ne (hd : d < 256) (hne : d ≠ 0) (hx : x < 256 ^ k) :
    hasZero (k + 1) (d + 256 * x) = 256 * hasZero k x := by
  have hones := ones_lt k
  have hsub : (d + 256 * x + 256 ^ (k + 1) - ones (k + 1)) % 256 ^ (k + 1) =
      (d - 1) + 256 * ((x + 256 ^ k - ones k) % 256 ^ k) := by
    have hsum : d + 256 * x + 256 ^ (k + 1) - ones (k + 1) =
        (d - 1) + 256 * (x + 256 ^ k - ones k) := by
      rw [ones, Nat.pow_succ]
      omega
    rw [hsum, Nat.pow_succ, Nat.mul_comm (256 ^ k) 256, Nat.mod_mul, Nat.add_mul_mod_self_left,
      Nat.mod_eq_of_lt (show d - 1 < 256 by omega), Nat.add_mul_div_left _ _ (by decide : 0 < 256),
      Nat.div_eq_of_lt (show d - 1 < 256 by omega), Nat.zero_add]
  have hneg : 256 ^ (k + 1) - 1 - (d + 256 * x) = (255 - d) + 256 * (256 ^ k - 1 - x) := by
    rw [Nat.pow_succ]
    omega
  have hhigh : 128 * ones (k + 1) = 128 + 256 * (128 * ones k) := by
    rw [ones]
    ring
  unfold hasZero
  rw [hsub, hneg, hhigh, digit_land (by omega) (by omega),
    digit_land (Nat.and_lt_two_pow (n := 8) _ (by omega)) (by omega), byte_land_eq_zero d hd hne,
    Nat.zero_add]

/-- A first byte that is zero is found. -/
theorem hasZero_of_zero (hx : x < 256 ^ k) : hasZero (k + 1) (256 * x) ≠ 0 := by
  have hones := ones_lt k
  have hsub : (256 * x + 256 ^ (k + 1) - ones (k + 1)) % 256 ^ (k + 1) =
      255 + 256 * ((x + 256 ^ k - ones k - 1) % 256 ^ k) := by
    have hsum : 256 * x + 256 ^ (k + 1) - ones (k + 1) =
        255 + 256 * (x + 256 ^ k - ones k - 1) := by
      rw [ones, Nat.pow_succ]
      omega
    rw [hsum, Nat.pow_succ, Nat.mul_comm (256 ^ k) 256, Nat.mod_mul, Nat.add_mul_mod_self_left,
      Nat.mod_eq_of_lt (by decide : 255 < 256), Nat.add_mul_div_left _ _ (by decide : 0 < 256),
      Nat.div_eq_of_lt (by decide : 255 < 256), Nat.zero_add]
  have hneg : 256 ^ (k + 1) - 1 - 256 * x = 255 + 256 * (256 ^ k - 1 - x) := by
    rw [Nat.pow_succ]
    omega
  have hhigh : 128 * ones (k + 1) = 128 + 256 * (128 * ones k) := by
    rw [ones]
    ring
  have hbyte : (255 &&& 255 &&& 128 : ℕ) = 128 := rfl
  unfold hasZero
  rw [hsub, hneg, hhigh, digit_land (by decide) (by decide), digit_land (by decide) (by decide),
    hbyte]
  omega

/-- **The test** finds out whether one of the bytes is zero, and never says so
without cause. -/
theorem hasZero_iff (bs : List UInt8) : hasZero bs.length (ofBytes bs) ≠ 0 ↔ 0 ∈ bs := by
  induction bs with
  | nil => exact iff_of_false (fun h => h rfl) List.not_mem_nil
  | cons b bs ih =>
      rw [List.length_cons, ofBytes, List.mem_cons, ← ih]
      by_cases hb : b = 0
      · subst hb
        refine iff_of_true ?_ (.inl rfl)
        rw [UInt8.toNat_zero, Nat.zero_add]
        exact hasZero_of_zero (ofBytes_lt bs)
      · have hne : b.toNat ≠ 0 := fun h => hb (UInt8.toNat_inj.mp h)
        rw [hasZero_of_ne b.toNat_lt hne (ofBytes_lt bs), or_iff_right fun h => hb h.symm]
        exact not_congr (Nat.mul_eq_zero.trans (or_iff_right (by decide)))

/-- The exclusive or with a byte in every place. -/
theorem ofBytes_xor (bs : List UInt8) (c : UInt8) :
    ofBytes bs ^^^ (ones bs.length * c.toNat) = ofBytes (bs.map (· ^^^ c)) := by
  induction bs with
  | nil => rw [List.length_nil, ones, Nat.zero_mul, ofBytes, Nat.xor_zero, List.map_nil, ofBytes]
  | cons b bs ih =>
      have hones : ones (bs.length + 1) * c.toNat = c.toNat + 256 * (ones bs.length * c.toNat) := by
        rw [ones]
        ring
      rw [List.length_cons, hones, ofBytes, digit_xor b.toNat_lt c.toNat_lt, ih, List.map_cons,
        ofBytes, UInt8.toNat_xor]

/-- **A byte `c`** is one that is zero after an exclusive or with `c` in every
place. -/
theorem hasZero_xor_iff (bs : List UInt8) (c : UInt8) :
    hasZero bs.length (ofBytes bs ^^^ (ones bs.length * c.toNat)) ≠ 0 ↔ c ∈ bs := by
  have h := hasZero_iff (bs.map (· ^^^ c))
  rw [List.length_map] at h
  rw [ofBytes_xor, h, List.mem_map]
  constructor
  · rintro ⟨b, hb, hxor⟩
    rwa [← UInt8.xor_eq_zero_iff.mp hxor]
  · intro hc
    exact ⟨c, hc, UInt8.xor_self⟩

end Swar
