import CourseOs.Klibc.PrintfExact
import CourseOs.Klibc.Strtol

/-!
# Printed integers are read back

What `print_int` and `os_vsnprintf` print for an integer is a sign, zeros and
the decimal numeral of the magnitude, and `kstrtol` gives the integer back
(`kstrtol_reads_back`).  This holds for every `int`, every width, and whatever
comes behind the number but a digit; the `endptr` is the first byte behind it.

The magnitude of the least value is no `int`: it is printed from the unsigned
value, and read with wrap-around, so that the sign brings it back.  Zeros in
front do not matter to the reader, which is what makes the widths harmless
(`value_zeros_append`).

The two routines have been described independently: the printer by the text it
stores, the reader by the value of the digits it is given.  `decimalText` is
where they meet.
-/

namespace CourseOs

open Numerals

/-- The `n` bytes from `p` on, as a string to be read. -/
def bytesAt (m : ByteMemory) (p : ℤ) (n : ℕ) : List UInt8 :=
  (List.range n).map fun i : ℕ => m (address (p + i))

/-- A signed integer in decimal, with zeros up to the width, the sign counted. -/
def decimalText (v : ℤ) (width : ℕ) : List UInt8 :=
  padded (v < 0) (digitsOf 0x61 10 v.natAbs) width

variable {v : ℤ} {c : UInt8} {suffix bs : List UInt8} {o o' : Stores} {buflen p : ℤ}

theorem bytesAt_of_puts (h : Puts o o' p bs) : bytesAt o'.mem p bs.length = bs := by
  refine List.ext_getElem ?_ fun i h₁ h₂ => ?_
  · rw [bytesAt, List.length_map, List.length_range]
  · rw [← h.bytes i h₂]
    simp only [bytesAt, List.getElem_map, List.getElem_range]

theorem isDigit_of_mem_digitsOf {a : UInt8} {n : ℕ} (h : c ∈ digitsOf a 10 n) : IsDigit c := by
  unfold digitsOf at h
  split at h
  · rw [List.mem_singleton.mp h]
    decide
  · exact isDigit_of_mem_numeral h

theorem value_digitsOf (a : UInt8) (n : ℕ) : value (digitsOf a 10 n) = n := by
  unfold digitsOf
  split
  · rename_i h
    rw [h]
    rfl
  · exact value_numeral a n

/-- **`kstrtol` reads decimal text back**, whatever comes behind it but a
digit.  The zeros of the padding add nothing, the digits add up to the
absolute value, and the sign is read before them. -/
theorem kstrtol_decimalText (hv : IsInt32 v) (width : ℕ) (hc : ¬IsDigit c) :
    kstrtol (some (decimalText v width ++ c :: suffix)) =
      .ok (v, some (decimalText v width).length) := by
  have htext : decimalText v width = signedDigits (v < 0) (List.replicate (width -
      ((if decide (v < 0) then 1 else 0) + (digitsOf 0x61 10 v.natAbs).length)) 0x30 ++
      digitsOf 0x61 10 v.natAbs) := rfl
  have hdigits : ∀ d ∈ List.replicate (width -
      ((if decide (v < 0) then 1 else 0) + (digitsOf 0x61 10 v.natAbs).length)) 0x30 ++
      digitsOf 0x61 10 v.natAbs, IsDigit d := by
    intro d hd
    rcases List.mem_append.mp hd with hd | hd
    · rw [List.eq_of_mem_replicate hd]
      decide
    · exact isDigit_of_mem_digitsOf hd
  have hne := List.append_ne_nil_of_right_ne_nil (List.replicate (width -
      ((if decide (v < 0) then 1 else 0) + (digitsOf 0x61 10 v.natAbs).length)) 0x30)
      (digitsOf_ne_nil 0x61 10 v.natAbs)
  rw [htext, kstrtol_eq _ hdigits hne hc, value_zeros_append, value_digitsOf]
  have hsign : (if decide (v < 0) then -1 else 1) * (v.natAbs : ℤ) = v := by
    by_cases hneg : v < 0
    · rw [if_pos (decide_eq_true hneg)]
      omega
    · rw [if_neg (fun h => hneg (of_decide_eq_true h))]
      omega
  rw [hsign, int32_of_isInt32 hv]

/-- What `print_int` prints in decimal, into a buffer that holds all of it. -/
theorem printInt_decimal (o : Stores) (buf : ℤ) (hv : IsInt32 v) {padding : ℤ}
    (hpad : IsInt32 padding)
    (hfit : (decimalText v padding.toNat).length ≤ buflen) (hmax : buflen < 2 ^ 31) :
    ∃ o', printInt o buf buflen v 10 false padding 0x30 false =
        .ok (o', (decimalText v padding.toNat).length) ∧
      Puts o o' buf (decimalText v padding.toNat) := by
  have htext : intText v 10 false padding 0x30 false = decimalText v padding.toNat := by
    rw [intText_eq false false (by decide) hv hpad fun _ => rfl, negated_signed,
      magnitude_signed hv]
    rfl
  have hne : 0 < (decimalText v padding.toNat).length :=
    List.length_pos_of_ne_nil (padded_ne_nil (digitsOf_ne_nil _ _ _) _ _)
  obtain ⟨o', hrun, hputs⟩ := printInt_spec o buf v false padding 0x30 false
    (show 2 ≤ 10 by decide) (by decide) (by omega) hmax
  rw [htext, List.take_of_length_le (by omega)] at hrun hputs
  exact ⟨o', hrun, hputs⟩

/-- The format "%d", or "%0" with the digits of a width and "d". -/
def decimalFormat (width : Option (List UInt8)) : Piece := .directive width 0x64

theorem decimalFormat_wellFormed {width : Option (List UInt8)} (hwidth : Digits width) :
    (decimalFormat width).WellFormed := by
  refine ⟨?_, show (0x64 : UInt8) ≠ 0 by decide⟩
  cases width with
  | none => exact show (0x64 : UInt8) ≠ 0x30 by decide
  | some ds => exact ⟨by decide, hwidth ds rfl⟩

/-- What `os_vsnprintf` prints in decimal, with or without a width, and behind
it the terminator. -/
theorem osVsnprintf_decimal (m : ByteMemory) (buf : ℤ) {width : Option (List UInt8)}
    (hwidth : Digits width)
    {args : ℕ → Argument} (hfit : (decimalText (args 0).word
      (sourceWidth (decimalFormat width))).length < buflen) (hmax : buflen < 2 ^ 31) :
    ∃ o', osVsnprintf ⟨m, []⟩ buf buflen (textOf [decimalFormat width] ++ [0]) args =
        .ok (o', (decimalText (args 0).word (sourceWidth (decimalFormat width))).length + 1) ∧
      bytesAt o'.mem buf (decimalText (args 0).word (sourceWidth (decimalFormat width))).length =
        decimalText (args 0).word (sourceWidth (decimalFormat width)) := by
  have hrender : rendering sourceWidth [decimalFormat width] args =
      decimalText (args 0).word (sourceWidth (decimalFormat width)) := List.append_nil _
  have hps : ∀ p ∈ [decimalFormat width], p.WellFormed := by
    intro p hp
    rw [List.mem_singleton.mp hp]
    exact decimalFormat_wellFormed hwidth
  have hshown : (decimalFormat width).shown (args 0) =
      decimalText (args 0).word (sourceWidth (decimalFormat width)) := rfl
  have hshort : Short [decimalFormat width] args (buflen - 1) :=
    ⟨by rw [hshown]; omega, fun _ => trivial⟩
  obtain ⟨o', r, hrun, hformats⟩ :=
    formats_of_short m buf (by omega) hmax hps fun _ => hshort
  rw [hrender] at hformats
  generalize decimalText (args 0).word (sourceWidth (decimalFormat width)) = text at hformats hfit ⊢
  have hstored : stored text buflen = text ++ [0] := by
    rw [stored, if_neg (by omega), List.take_of_length_le (by omega)]
  have hlength : (stored text buflen).length = text.length + 1 := by
    rw [hstored, List.length_append, List.length_singleton]
  refine ⟨o', ?_, ?_⟩
  · rw [hrun, hformats.count, hlength]
    push_cast
    rfl
  · refine List.ext_getElem ?_ fun i h₁ h₂ => ?_
    · rw [bytesAt, List.length_map, List.length_range]
    · have hbyte := hformats.bytes i (by omega)
      simp only [hstored, List.getElem_append_left h₂] at hbyte
      rw [← hbyte]
      simp only [bytesAt, List.getElem_map, List.getElem_range]

/-- **Printing and reading are inverse**: what `print_int` prints in decimal,
and what `os_vsnprintf` prints for "%d" and for "%0" with a width, is read
back by `kstrtol`, and `endptr` is the first byte behind it.  The buffer must
have room for the text. -/
theorem kstrtol_reads_back {v : ℤ} (hv : IsInt32 v) {c : UInt8} (hc : ¬IsDigit c)
    (suffix : List UInt8) (m : ByteMemory) (buf : ℤ) {buflen : ℤ} (hmax : buflen < 2 ^ 31) :
    (∀ padding, IsInt32 padding → (decimalText v padding.toNat).length ≤ buflen →
      ∃ o' n, printInt ⟨m, []⟩ buf buflen v 10 false padding 0x30 false = .ok (o', (n : ℕ)) ∧
        kstrtol (some (bytesAt o'.mem buf n ++ c :: suffix)) = .ok (v, some n)) ∧
    ∀ width args, Digits width → (args 0).word = v →
      (decimalText v (sourceWidth (decimalFormat width))).length < buflen →
      ∃ o' n, osVsnprintf ⟨m, []⟩ buf buflen (textOf [decimalFormat width] ++ [0]) args =
          .ok (o', ((n + 1 : ℕ) : ℤ)) ∧
        kstrtol (some (bytesAt o'.mem buf n ++ c :: suffix)) = .ok (v, some n) := by
  constructor
  · intro padding hpad hfit
    obtain ⟨o', hrun, hputs⟩ := printInt_decimal ⟨m, []⟩ buf hv hpad hfit hmax
    refine ⟨o', _, hrun, ?_⟩
    rw [bytesAt_of_puts hputs]
    exact kstrtol_decimalText hv _ hc
  · rintro width args hwidth rfl hfit
    obtain ⟨o', hrun, hbytes⟩ := osVsnprintf_decimal m buf hwidth hfit hmax
    refine ⟨o', (decimalText (args 0).word (sourceWidth (decimalFormat width))).length, ?_, ?_⟩
    · rw [hrun]
      push_cast
      rfl
    · rw [hbytes]
      exact kstrtol_decimalText hv _ hc

/-- The least integer, before a blank.  It has no negative, so that it shows
whether the arithmetic of the two routines fits together. -/
theorem kstrtol_reads_back_least :
    (∀ padding, IsInt32 padding → (decimalText (-2 ^ 31) padding.toNat).length ≤ (64 : ℤ) →
      ∃ o' n, printInt ⟨⟨fun _ => 0⟩, []⟩ 0x8000 64 (-2 ^ 31) 10 false padding 0x30 false =
          .ok (o', (n : ℕ)) ∧
        kstrtol (some (bytesAt o'.mem 0x8000 n ++ 0x20 :: [0])) = .ok (-2 ^ 31, some n)) ∧
    ∀ width args, Digits width → (args 0).word = -2 ^ 31 →
      (decimalText (-2 ^ 31) (sourceWidth (decimalFormat width))).length < (64 : ℤ) →
      ∃ o' n, osVsnprintf ⟨⟨fun _ => 0⟩, []⟩ 0x8000 64 (textOf [decimalFormat width] ++ [0]) args =
          .ok (o', ((n + 1 : ℕ) : ℤ)) ∧
        kstrtol (some (bytesAt o'.mem 0x8000 n ++ 0x20 :: [0])) = .ok (-2 ^ 31, some n) :=
  kstrtol_reads_back (by decide) (by decide) [0] ⟨fun _ => 0⟩ 0x8000 (by decide)

end CourseOs
