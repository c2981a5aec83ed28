import CourseOs.Lib.Numerals
import CourseOs.Lib.StoreLog
import CourseOs.Machine

/-!
# Printing an integer

`print_int` of `klibc/printf.c`: the sign, the padding, the digits and the
lone zero are stored one byte after the other, and the routine returns as soon
as the room is used up.  There are five such places.

They do not matter: the routine stores one text, `intText`, up to the room
there is (`printInt_eq`), and returns how much of it (`printInt_spec`).  The
reason is that a loop that has used up the room leaves `max_len` at zero, and
every later loop is guarded by that, so that two loops one after the other are
one loop over the two texts (`putLoop_append`).

## Main definitions

* `printInt` — the routine, with its early returns.
* `intText` — the text it stores when there is room for all of it.
* `padded`, `digitsOf` — the reference: a sign, zeros up to the width, and the
  digits of a number, at least one.

## Main results

* `printInt_spec` — with room, the text is stored as far as there is room for
  it.
* `intText_eq` — padded with zeros, the text is the reference.

The source negates a negative value before it takes its digits.  The least
value has no negative as an `int`, but the result is used as an unsigned one,
and there it is right (`magnitude_signed`).  A lone zero is printed only
without padding, since a padded zero has been filled up already;
`not_negated_of_magnitude` is why no minus comes before it.
-/

namespace CourseOs

open Numerals

/-- `lower_case_digits`. -/
def lowerCaseDigits : List UInt8 :=
  [0x30, 0x31, 0x32, 0x33, 0x34, 0x35, 0x36, 0x37, 0x38, 0x39, 0x61, 0x62, 0x63, 0x64, 0x65, 0x66]

/-- `upper_case_digits`. -/
def upperCaseDigits : List UInt8 :=
  [0x30, 0x31, 0x32, 0x33, 0x34, 0x35, 0x36, 0x37, 0x38, 0x39, 0x41, 0x42, 0x43, 0x44, 0x45, 0x46]

/-- The table the digits are taken from, for hexadecimal numbers of either
kind and for all others. -/
def digitTable (isUppercase : Bool) : List UInt8 :=
  if isUppercase then upperCaseDigits else lowerCaseDigits

/-- The loop that fills `tmp_buf`, which has room for `n` more digits, with
the digits of `temp`, the last one first.  A base for which the digits do not
fit stops the model. -/
def tmpLoop (table : List UInt8) (base : ℕ) : ℕ → ℕ → Exec (List UInt8)
  | 0, temp => if temp = 0 then .ok [] else .error .outOfBounds
  | n + 1, temp =>
      if temp = 0 then .ok []
      else
        match table[temp % base]? with
        | none => .error .outOfBounds
        | some c => do
            let tmp ← tmpLoop table base n (temp / base)
            .ok (c :: tmp)

/-- `buf` and `max_len`, with the memory: where the next byte goes, and for
how many there is room. -/
structure Cursor where
  out : Stores
  buf : ℤ
  maxLen : ℤ

/-- The body of the output loops, for each byte they store: they return once
`max_len` is zero, after the byte has been stored. -/
def putLoop : List UInt8 → Cursor → Cursor
  | [], p => p
  | c :: cs, p =>
      let p : Cursor := ⟨p.out.store p.buf c, p.buf + 1, int32 (p.maxLen - 1)⟩
      if p.maxLen = 0 then p else putLoop cs p

/-- `val < 0 && !is_unsigned`: a sign is printed. -/
def negated (val : ℤ) (isUnsigned : Bool) : Bool := val < 0 ∧ isUnsigned = false

/-- `temp`: the value, negated where a sign is printed, as an unsigned
integer. -/
def magnitude (val : ℤ) (isUnsigned : Bool) : ℕ :=
  ((if negated val isUnsigned then int32 (-val) else val) % 2 ^ 32).toNat

/-- `print_int`: the memory and the number of bytes stored. -/
def printInt (o : Stores) (buf buflen val : ℤ) (base : ℕ) (isUnsigned : Bool) (padding : ℤ)
    (padChar : UInt8) (isUppercase : Bool) : Exec (Stores × ℤ) :=
  let negate := negated val isUnsigned
  if buflen = 0 then .ok (o, 0)
  else
    let p := if negate then putLoop [0x2d] ⟨o, buf, buflen⟩ else ⟨o, buf, buflen⟩
    if p.maxLen = 0 then .ok (p.out, buflen)
    else do
      let tmp ← tmpLoop (digitTable isUppercase) base 64 (magnitude val isUnsigned)
      let fill := int32 (padding - tmp.length - (if negate then 1 else 0))
      let p := if padding > 0 then putLoop (List.replicate fill.toNat padChar) p else p
      if p.maxLen = 0 then .ok (p.out, buflen)
      else
        let p := putLoop tmp.reverse p
        if p.maxLen = 0 then .ok (p.out, buflen)
        else
          let p := if tmp.length = 0 ∧ padding ≤ 0 then putLoop [0x30] p else p
          if p.maxLen = 0 then .ok (p.out, buflen) else .ok (p.out, int32 (buflen - p.maxLen))

/-! ### Digits

The digits come out last first, in a buffer of 64 characters.  A number of 32
bits has at most 32 digits in a base from 2 on, so the buffer is never full,
and reversed they are the numeral of the number. -/

/-- The letter that stands for ten; the other letters come behind it. -/
def letter (isUppercase : Bool) : UInt8 := if isUppercase then 0x41 else 0x61

theorem digitTable_getElem? {d : ℕ} (isUppercase : Bool) (h : d < 16) :
    (digitTable isUppercase)[d]? = some (digitByte (letter isUppercase) d) := by
  revert d
  cases isUppercase <;> decide

/-- The digits of `temp`, as many as 64 of them, the last digit first, as the
source collects them. -/
theorem tmpLoop_eq (isUppercase : Bool) {base : ℕ} (hbase : 2 ≤ base) (hbase' : base ≤ 16) {n : ℕ} :
    ∀ {temp : ℕ}, temp < 2 ^ n →
      tmpLoop (digitTable isUppercase) base n temp =
        .ok (numeral (letter isUppercase) base temp).reverse := by
  induction n with
  | zero =>
      intro temp h
      obtain rfl : temp = 0 := by omega
      rw [numeral_zero]
      rfl
  | succ n ih =>
      intro temp h
      by_cases h0 : temp = 0
      · subst h0
        rw [numeral_zero]
        rfl
      · have hmod : temp % base < 16 := (Nat.mod_lt temp (by omega)).trans_le hbase'
        have hdiv : temp / base < 2 ^ n := by
          rw [Nat.div_lt_iff_lt_mul (by omega)]
          calc temp < 2 ^ n * 2 := h
            _ ≤ 2 ^ n * base := Nat.mul_le_mul_left _ hbase
        rw [tmpLoop, if_neg h0, digitTable_getElem? isUppercase hmod]
        dsimp only
        rw [ih hdiv, Exec.ok_bind, numeral_eq (by omega) (Nat.pos_of_ne_zero h0),
          List.reverse_append]
        rfl

/-! ### Output

The room `max_len` is tested after each byte that has been stored.  Two loops
in a row are then the same as one loop over both texts, which is why the five
places from which the routine returns need not be looked at one by one. -/

variable {cs ds : List UInt8} {p : Cursor}

/-- Two loops one after the other are one, where the second runs unless the
first returned. -/
theorem putLoop_append (h : p.maxLen ≠ 0) :
    putLoop (cs ++ ds) p =
      if (putLoop cs p).maxLen = 0 then putLoop cs p else putLoop ds (putLoop cs p) := by
  induction cs generalizing p with
  | nil => exact (if_neg h).symm
  | cons c cs ih =>
      rw [List.cons_append, putLoop, putLoop]
      dsimp only
      split
      · rfl
      · exact ih ‹_›

/-- The bytes that there is room for are stored, one behind the other, and the
room is less by as many. -/
theorem putLoop_spec (cs : List UInt8) (p : Cursor) (hpos : 0 < p.maxLen)
    (hmax : p.maxLen < 2 ^ 31) :
    Puts p.out (putLoop cs p).out p.buf (cs.take p.maxLen.toNat) ∧
      (putLoop cs p).maxLen = p.maxLen - (cs.take p.maxLen.toNat).length := by
  induction cs generalizing p with
  | nil =>
      rw [List.take_nil]
      exact ⟨Puts.nil _ _, (sub_zero _).symm⟩
  | cons c cs ih =>
      have hless : int32 (p.maxLen - 1) = p.maxLen - 1 := int32_of_isInt32 ⟨by omega, by omega⟩
      obtain ⟨n, hn⟩ : ∃ n, p.maxLen.toNat = n + 1 := ⟨p.maxLen.toNat - 1, by omega⟩
      have hstore := Puts.store p.out p.buf c
      rw [hn, List.take_succ_cons, putLoop, List.length_cons]
      dsimp only
      rw [hless]
      by_cases h0 : p.maxLen - 1 = 0
      · obtain rfl : n = 0 := by omega
        rw [if_pos h0, List.take_zero]
        exact ⟨hstore, rfl⟩
      · obtain ⟨hputs, hlen⟩ := ih (p := ⟨p.out.store p.buf c, p.buf + 1, p.maxLen - 1⟩)
          (by show 0 < p.maxLen - 1; omega) (by show p.maxLen - 1 < 2 ^ 31; omega)
        have hn' : (p.maxLen - 1).toNat = n := by omega
        dsimp only at hputs hlen
        rw [hn'] at hputs hlen
        have htake : (cs.take n).length ≤ n := List.length_take_le n cs
        rw [if_neg h0]
        refine ⟨hstore.append hputs ?_, ?_⟩
        · rw [List.length_singleton]
          omega
        · rw [hlen]
          push_cast
          omega

theorem ite_putLoop (b : Prop) [Decidable b] (cs : List UInt8) (p : Cursor) :
    (if b then putLoop cs p else p) = putLoop (if b then cs else []) p := by
  split <;> rfl

/-! ### The text

What the routine means to print: sign, padding, digits, and the zero for a
magnitude that has no digits.  The padding is counted with the sign, but the
sign is printed before it, so that a number padded with blanks has its sign in
front of the blanks. -/

/-- The padding in front of the digits `ds`.  Its length is a 32-bit
difference, and nothing is printed where it is negative. -/
def fillText (ds : List UInt8) (negative : Bool) (padding : ℤ) (padChar : UInt8) : List UInt8 :=
  if padding > 0 then
    List.replicate (int32 (padding - ds.length - (if negative then 1 else 0))).toNat padChar
  else []

/-- The sign, the padding, the digits and the lone zero. -/
def intText (val : ℤ) (base : ℕ) (isUnsigned : Bool) (padding : ℤ) (padChar : UInt8)
    (isUppercase : Bool) : List UInt8 :=
  let ds := numeral (letter isUppercase) base (magnitude val isUnsigned)
  (if negated val isUnsigned then [0x2d] else []) ++
    (fillText ds (negated val isUnsigned) padding padChar ++
      (ds ++ if ds.length = 0 ∧ padding ≤ 0 then [0x30] else []))

theorem magnitude_lt (val : ℤ) (isUnsigned : Bool) : magnitude val isUnsigned < 2 ^ 64 := by
  unfold magnitude
  omega

theorem negated_signed (val : ℤ) : negated val false = decide (val < 0) :=
  decide_eq_decide.mpr (and_iff_left rfl)

theorem negated_unsigned (val : ℤ) : negated val true = false :=
  decide_eq_false fun h => nomatch h.2

theorem magnitude_unsigned (val : ℤ) : magnitude val true = (val % 2 ^ 32).toNat := by
  unfold magnitude
  rw [negated_unsigned, if_neg Bool.false_ne_true]

/-- The magnitude of a signed value, the least one included. -/
theorem magnitude_signed {val : ℤ} (h : IsInt32 val) : magnitude val false = val.natAbs := by
  unfold IsInt32 at h
  unfold magnitude int32
  rw [negated_signed]
  by_cases hneg : val < 0
  · rw [if_pos (decide_eq_true hneg)]
    omega
  · rw [if_neg (fun hd => hneg (of_decide_eq_true hd))]
    omega

variable {o : Stores} {buf buflen val padding : ℤ} {base : ℕ} {isUnsigned isUppercase : Bool}
  {padChar : UInt8}

/-- **`print_int`** stores its text, as far as there is room: all of its loops
are one. -/
theorem printInt_eq (hbase : 2 ≤ base) (hbase' : base ≤ 16) (h0 : buflen ≠ 0)
    (hlen : IsInt32 buflen) :
    printInt o buf buflen val base isUnsigned padding padChar isUppercase =
      let p := putLoop (intText val base isUnsigned padding padChar isUppercase) ⟨o, buf, buflen⟩
      .ok (p.out, int32 (buflen - p.maxLen)) := by
  have hall : int32 (buflen - 0) = buflen := by rw [sub_zero, int32_of_isInt32 hlen]
  have htmp := tmpLoop_eq isUppercase hbase hbase' (magnitude_lt val isUnsigned)
  unfold printInt intText fillText
  dsimp only
  rw [if_neg h0, ite_putLoop, putLoop_append h0]
  generalize putLoop (if negated val isUnsigned then [0x2d] else []) ⟨o, buf, buflen⟩ = p₁
  by_cases h1 : p₁.maxLen = 0
  · rw [if_pos h1, if_pos h1, h1, hall]
  rw [if_neg h1, if_neg h1, htmp, Exec.ok_bind, ite_putLoop, putLoop_append h1, List.length_reverse,
    List.reverse_reverse]
  generalize putLoop (if padding > 0 then _ else []) p₁ = p₂
  by_cases h2 : p₂.maxLen = 0
  · rw [if_pos h2, if_pos h2, h2, hall]
  rw [if_neg h2, if_neg h2, putLoop_append h2]
  generalize putLoop (numeral (letter isUppercase) base (magnitude val isUnsigned)) p₂ = p₃
  by_cases h3 : p₃.maxLen = 0
  · rw [if_pos h3, if_pos h3, h3, hall]
  rw [if_neg h3, if_neg h3, ite_putLoop]
  generalize putLoop _ p₃ = p₄
  by_cases h4 : p₄.maxLen = 0
  · rw [if_pos h4, h4, hall]
  · rw [if_neg h4]

/-- **`print_int`**, with room: the text is stored as far as there is room,
and the number of bytes stored is returned. -/
theorem printInt_spec (o : Stores) (buf val : ℤ) (isUnsigned : Bool) (padding : ℤ)
    (padChar : UInt8) (isUppercase : Bool) (hbase : 2 ≤ base) (hbase' : base ≤ 16)
    (hpos : 0 < buflen) (hmax : buflen < 2 ^ 31) :
    ∃ o', printInt o buf buflen val base isUnsigned padding padChar isUppercase =
        .ok (o', ((intText val base isUnsigned padding padChar isUppercase).take
          buflen.toNat).length) ∧
      Puts o o' buf
        ((intText val base isUnsigned padding padChar isUppercase).take buflen.toNat) := by
  obtain ⟨hputs, hleft⟩ := putLoop_spec
    (intText val base isUnsigned padding padChar isUppercase) ⟨o, buf, buflen⟩ hpos hmax
  dsimp only at hputs hleft
  refine ⟨_, ?_, hputs⟩
  have htake := List.length_take_le buflen.toNat
    (intText val base isUnsigned padding padChar isUppercase)
  rw [printInt_eq hbase hbase' hpos.ne' ⟨by omega, hmax⟩]
  dsimp only
  rw [hleft, sub_sub_cancel, int32_natCast (by omega)]

/-! ### The reference

Numerals and padding as one would define them without the routine at hand.
The two agree for padding with zeros, which is all that `os_vsnprintf` asks
for. -/

/-- A number as it should be printed: the sign first, then zeros up to the
width, the sign counted, then the digits. -/
def padded (negative : Bool) (ds : List UInt8) (width : ℕ) : List UInt8 :=
  (if negative then [0x2d] else []) ++
    (List.replicate (width - ((if negative then 1 else 0) + ds.length)) 0x30 ++ ds)

/-- The digits of a number, at least one, so that zero is printed as well. -/
def digitsOf (a : UInt8) (base n : ℕ) : List UInt8 := if n = 0 then [0x30] else numeral a base n

theorem padded_length (negative : Bool) (ds : List UInt8) (width : ℕ) :
    (padded negative ds width).length = max width ((if negative then 1 else 0) + ds.length) := by
  unfold padded
  cases negative <;>
    simp only [List.length_append, List.length_replicate, List.length_singleton, List.length_nil,
      if_true, Bool.false_eq_true, if_false] <;> omega

theorem digitsOf_length_le (a : UInt8) {n : ℕ} (hbase : 2 ≤ base) (h : n < 2 ^ 64) :
    (digitsOf a base n).length ≤ 64 := by
  unfold digitsOf
  split
  · exact Nat.succ_le_succ (Nat.zero_le _)
  · exact numeral_length_le hbase h

theorem digitsOf_ne_nil (a : UInt8) (base n : ℕ) : digitsOf a base n ≠ [] := by
  unfold digitsOf
  split
  · exact List.cons_ne_nil _ _
  · exact numeral_ne_nil ‹_›

theorem padded_ne_nil {ds : List UInt8} (h : ds ≠ []) (negative : Bool) (width : ℕ) :
    padded negative ds width ≠ [] := by
  unfold padded
  exact List.append_ne_nil_of_right_ne_nil _ (List.append_ne_nil_of_right_ne_nil _ h)

/-- Nothing is printed as minus zero. -/
theorem not_negated_of_magnitude (hval : IsInt32 val) (h : magnitude val isUnsigned = 0) :
    negated val isUnsigned = false := by
  cases hneg : negated val isUnsigned with
  | false => rfl
  | true =>
      have hlt : val < 0 := (of_decide_eq_true hneg).1
      unfold magnitude int32 at h
      rw [hneg, if_pos rfl] at h
      unfold IsInt32 at hval
      omega

theorem fillText_eq {ds : List UInt8} (hds : ds.length ≤ 64) (negative : Bool)
    (hpad : IsInt32 padding) (hchar : 0 < padding → padChar = 0x30) :
    fillText ds negative padding padChar =
      List.replicate (padding.toNat - ((if negative then 1 else 0) + ds.length)) 0x30 := by
  obtain ⟨hlo, hhi⟩ := hpad
  unfold fillText
  by_cases hpos : 0 < padding
  · rw [if_pos hpos, hchar hpos]
    congr 1
    cases negative with
    | false =>
        rw [if_neg Bool.false_ne_true, if_neg Bool.false_ne_true,
          int32_of_isInt32 ⟨by omega, by omega⟩]
        omega
    | true =>
        rw [if_pos rfl, if_pos rfl, int32_of_isInt32 ⟨by omega, by omega⟩]
        omega
  · rw [if_neg hpos, Int.toNat_of_nonpos (by omega), Nat.zero_sub, List.replicate_zero]

/-- Padded with zeros, the text is the reference.  Padding with other
characters is not, since the sign comes in front of it. -/
theorem intText_eq (isUnsigned isUppercase : Bool) (hbase : 2 ≤ base) (hval : IsInt32 val)
    (hpad : IsInt32 padding) (hchar : 0 < padding → padChar = 0x30) :
    intText val base isUnsigned padding padChar isUppercase =
      padded (negated val isUnsigned)
        (digitsOf (letter isUppercase) base (magnitude val isUnsigned)) padding.toNat := by
  have hlength : (numeral (letter isUppercase) base (magnitude val isUnsigned)).length ≤ 64 :=
    numeral_length_le hbase (magnitude_lt val isUnsigned)
  unfold intText padded digitsOf
  dsimp only
  rw [fillText_eq hlength _ hpad hchar]
  congr 1
  by_cases h0 : magnitude val isUnsigned = 0
  · rw [h0, not_negated_of_magnitude hval h0, numeral_zero, if_pos rfl, if_neg Bool.false_ne_true,
      List.length_nil, List.length_singleton, List.nil_append]
    by_cases hpos : 0 < padding
    · -- the padding includes the zero
      obtain ⟨k, hk⟩ : ∃ k, padding.toNat = k + 1 := ⟨padding.toNat - 1, by omega⟩
      rw [if_neg (fun h => absurd h.2 (by omega)), hk, List.append_nil]
      exact List.replicate_succ'
    · rw [if_pos ⟨rfl, by omega⟩, Int.toNat_of_nonpos (by omega)]
  · have hne := List.length_pos_of_ne_nil (numeral_ne_nil (a := letter isUppercase) (b := base) h0)
    have hlone : ¬((numeral (letter isUppercase) base (magnitude val isUnsigned)).length = 0 ∧
        padding ≤ 0) := fun h => hne.ne' h.1
    rw [if_neg h0, if_neg hlone, List.append_nil]

end CourseOs
