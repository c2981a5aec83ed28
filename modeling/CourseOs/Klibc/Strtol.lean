import CourseOs.Klibc.Strncpy
import CourseOs.Lib.Numerals
import CourseOs.Lib.StepLoop

/-!
# Reading integers

`katoi`, `katol` and `kstrtol` of `klibc/klibc.c`.  A string is a block with
its terminator; an `endptr` is the offset of the byte it points to.

## Main results

* `katoi_exact` — the loop of `katoi` does not move on: at a digit it adds the
  digit to its number and looks at the same digit again, for ever.  So `katoi`
  and `katol` do what is asked of them exactly where no digit comes first
  behind the sign.  The loop is a `StepLoop`, because with any amount of fuel
  there would be nothing to say about a loop that does not end.
* `kstrtol_eq` — `kstrtol` has the step that `katoi` lacks, and reads the
  digits it is given in 32-bit arithmetic.

`ParsesDecimal` is what is asked of the two: the routine ends, a number that
fits is read, and anything else gives 0.  `long` has 32 bits on the board, so
`katol` is `katoi`.
-/

namespace CourseOs

open Numerals

/-- The sign in front of a number: what to multiply by, and the rest. -/
def readSign (string : List UInt8) : Exec (ℤ × List UInt8) := do
  let c ← deref string
  if c = 0x2d then .ok (-1, string.tail)
  else if c = 0x2b then .ok (1, string.tail)
  else .ok (1, string)

/-- The loop of `katoi`, on the pointer and the number so far.  The pointer is
the same after each pass. -/
def katoiLoop (sign : ℤ) : List UInt8 × ℤ → (List UInt8 × ℤ) ⊕ Exec ℤ
  | (string, integer) =>
      match deref string with
      | .error e => .inr (.error e)
      | .ok c =>
          if c ≠ 0 then
            if IsDigit c then .inl (string, addDigit integer c) else .inr (.ok 0)
          else .inr (.ok (int32 (sign * integer)))

/-- `katoi`, for at most `n` passes through its loop.  `none` is a loop that
has not ended by then. -/
def katoi (n : ℕ) : Option (List UInt8) → Option (Exec ℤ)
  | none => some (.ok 0)
  | some string =>
      match readSign string with
      | .error e => some (.error e)
      | .ok (sign, string) => StepLoop.run (katoiLoop sign) n (string, 0)

/-- `katol`: a `long int` has 32 bits, so that it is `katoi` under another
name. -/
def katol (n : ℕ) (string : Option (List UInt8)) : Option (Exec ℤ) := katoi n string

/-- The loop of `kstrtol`: the number and the offset of the first byte that is
no digit.  The number is one of 32 bits in every pass. -/
def kstrtolLoop : List UInt8 → ℤ → ℕ → Exec (ℤ × ℕ)
  | [], _, _ => .error .outOfBounds
  | c :: string, integer, i =>
      if IsDigit c then kstrtolLoop string (addDigit integer c) (i + 1) else .ok (integer, i)

/-- `kstrtol`: the result and, where it is set, `endptr`.  A null pointer
gives 0, and leaves it unset. -/
def kstrtol : Option (List UInt8) → Exec (ℤ × Option ℕ)
  | none => .ok (0, none)
  | some string => do
      let (sign, digits) ← readSign string
      let (integer, i) ← kstrtolLoop digits 0 (string.length - digits.length)
      .ok (int32 (sign * integer), some i)

/-! ### The sign

Each routine starts by reading a sign, and goes on with what is left.  One
character is read as a sign at most. -/

/-- The sign a string begins with, as a factor. -/
def signOf : List UInt8 → ℤ
  | c :: _ => if c = 0x2d then -1 else 1
  | [] => 1

/-- The string without its sign, which may be a plus as well. -/
def unsigned : List UInt8 → List UInt8
  | c :: s => if c = 0x2d ∨ c = 0x2b then s else c :: s
  | [] => []

variable {s ds suffix : List UInt8} {c : UInt8}

theorem readSign_eq (s : List UInt8) :
    readSign (s ++ [0]) = .ok (signOf s, unsigned s ++ [0]) := by
  cases s with
  | nil => rfl
  | cons c s =>
      show (if c = 0x2d then _ else if c = 0x2b then _ else _) =
        Except.ok (if c = 0x2d then -1 else 1, (if c = 0x2d ∨ c = 0x2b then s else c :: s) ++ [0])
      by_cases hminus : c = 0x2d
      · rw [if_pos hminus, if_pos hminus, if_pos (.inl hminus)]
        rfl
      · by_cases hplus : c = 0x2b
        · rw [if_neg hminus, if_pos hplus, if_neg hminus, if_pos (.inr hplus)]
          rfl
        · rw [if_neg hminus, if_neg hplus, if_neg hminus, if_neg (not_or.mpr ⟨hminus, hplus⟩)]

theorem mem_of_mem_unsigned (h : c ∈ unsigned s) : c ∈ s := by
  cases s with
  | nil => exact h
  | cons d s =>
      change c ∈ (if d = 0x2d ∨ d = 0x2b then s else d :: s) at h
      split at h
      · exact List.mem_cons_of_mem d h
      · exact h

/-! ### A loop that does not move on

What is asked of `katoi` is stated without regard to how it works.  Its loop
passes no digit, so that the strings it reads rightly are those in which no
digit comes first behind the sign, and what they give is zero. -/

/-- What is asked of a routine that reads decimal integers: it ends; a sign
and digits that fit give their value, and any other character gives 0. -/
def ParsesDecimal (f : ℕ → Option (List UInt8) → Option (Exec ℤ)) (s : List UInt8) : Prop :=
  ∃ n r, f n (some (s ++ [0])) = some (.ok r) ∧
    ((∀ c ∈ unsigned s, IsDigit c) → IsInt32 (signOf s * value (unsigned s)) →
      r = signOf s * value (unsigned s)) ∧
    ((∃ c ∈ unsigned s, ¬IsDigit c) → r = 0)

theorem katoi_eq (n : ℕ) (s : List UInt8) :
    katoi n (some (s ++ [0])) = StepLoop.run (katoiLoop (signOf s)) n (unsigned s ++ [0], 0) := by
  show (match readSign (s ++ [0]) with | .error e => _ | .ok (sign, string) => _) = _
  rw [readSign_eq]

/-- At a digit the loop stays. -/
theorem katoiLoop_stays {sign : ℤ} (hc : IsDigit c) (hne : c ≠ 0) {r : Exec ℤ} {integer : ℤ} :
    ¬StepLoop.Returns (katoiLoop sign) (c :: s, integer) r := by
  refine StepLoop.not_returns_of_invariant (I := fun x => x.1 = c :: s) ?_ rfl
  rintro ⟨_, x⟩ rfl
  refine ⟨(c :: s, addDigit x c), ?_, rfl⟩
  show (if c ≠ 0 then if IsDigit c then _ else _ else _) = _
  rw [if_pos hne, if_pos hc]

/-- Behind the sign comes no digit. -/
theorem parsesDecimal_katoi (h : ∀ c, (unsigned s).head? = some c → ¬IsDigit c)
    (hs : (0 : UInt8) ∉ s) : ParsesDecimal katoi s := by
  refine ⟨1, 0, ?_, ?_, fun _ => rfl⟩
  · rw [katoi_eq]
    cases hun : unsigned s with
    | nil =>
        show some (Except.ok (int32 (signOf s * 0))) = _
        rw [mul_zero, int32_zero]
    | cons c rest =>
        have hmem : c ∈ s := mem_of_mem_unsigned (hun ▸ List.mem_cons_self)
        have hne : c ≠ 0 := fun hc => hs (hc ▸ hmem)
        have hno : ¬IsDigit c := h c (by rw [hun]; rfl)
        refine StepLoop.run_succ_of_done ?_ 0
        show (if c ≠ 0 then if IsDigit c then _ else _ else _) = _
        rw [if_pos hne, if_neg hno]
  · intro hall _
    cases hun : unsigned s with
    | nil => exact (mul_zero _).symm
    | cons c rest =>
        exact absurd (hall c (hun ▸ List.mem_cons_self)) (h c (by rw [hun]; rfl))

/-- **`katoi`** and `katol` read what they should exactly where no digit comes
first, behind the sign; on a digit they do not end. -/
theorem katoi_exact {s : List UInt8} (hs : (0 : UInt8) ∉ s) :
    ParsesDecimal katoi s ∧ ParsesDecimal katol s ↔
      ∀ c, (unsigned s).head? = some c → ¬IsDigit c := by
  constructor
  · rintro ⟨⟨n, r, hrun, -⟩, -⟩ c hc hdigit
    obtain ⟨rest, hun⟩ : ∃ rest, unsigned s = c :: rest := ⟨_, List.eq_cons_of_mem_head? hc⟩
    have hmem : c ∈ s := mem_of_mem_unsigned (hun ▸ List.mem_cons_self)
    rw [katoi_eq, hun] at hrun
    exact katoiLoop_stays hdigit (fun h => hs (h ▸ hmem)) ⟨n, hrun⟩
  · intro h
    exact ⟨parsesDecimal_katoi h hs, parsesDecimal_katoi h hs⟩

/-- A sign without digits. -/
theorem katoi_exact_plus :
    ParsesDecimal katoi [0x2b] ∧ ParsesDecimal katol [0x2b] ↔
      ∀ c, (unsigned [0x2b]).head? = some c → ¬IsDigit c := katoi_exact (by decide)

/-- "7" is not read. -/
theorem katoi_stays_at_digit : ¬(ParsesDecimal katoi [0x37] ∧ ParsesDecimal katol [0x37]) := by
  rintro ⟨⟨n, r, hrun, -⟩, -⟩
  exact katoiLoop_stays (s := [0]) (c := 0x37) (by decide) (by decide) ⟨n, hrun⟩

/-! ### Reading digits

The loop of `kstrtol` does move on.  Its number is formed in 32 bits, which is
exact for every numeral that an `int` prints as, and the end pointer is where
the digits end. -/

theorem kstrtolLoop_eq (hds : ∀ c ∈ ds, IsDigit c) (hc : ¬IsDigit c) (x : ℤ) (i : ℕ) :
    kstrtolLoop (ds ++ c :: suffix) x i = .ok (ds.foldl addDigit x, i + ds.length) := by
  induction ds generalizing x i with
  | nil => exact if_neg hc
  | cons d ds ih =>
      have hd : IsDigit d := hds d List.mem_cons_self
      rw [List.cons_append, kstrtolLoop, if_pos hd,
        ih (fun e he => hds e (List.mem_cons_of_mem d he)), List.foldl_cons, List.length_cons]
      congr 2
      omega

/-- A number as it is written: the sign where it is negative, and digits. -/
def signedDigits (negative : Bool) (ds : List UInt8) : List UInt8 :=
  (if negative then [0x2d] else []) ++ ds

theorem readSign_signedDigits (negative : Bool) (hds : ∀ c ∈ ds, IsDigit c) (hne : ds ≠ []) :
    readSign (signedDigits negative ds ++ suffix) =
      .ok (if negative then -1 else 1, ds ++ suffix) := by
  cases negative with
  | true => rfl
  | false =>
      obtain ⟨d, ds, rfl⟩ := List.exists_cons_of_ne_nil hne
      have hd : IsDigit d := hds d List.mem_cons_self
      have hminus : d ≠ 0x2d := by
        rintro rfl
        revert hd
        decide
      have hplus : d ≠ 0x2b := by
        rintro rfl
        revert hd
        decide
      show (if d = 0x2d then _ else if d = 0x2b then _ else _) = _
      rw [if_neg hminus, if_neg hplus]
      rfl

/-- **`kstrtol`** gives the value of the digits with their sign, in 32-bit
arithmetic, and points behind them.  The text may go on with anything but a
digit. -/
theorem kstrtol_eq (negative : Bool) (hds : ∀ c ∈ ds, IsDigit c) (hne : ds ≠ [])
    (hc : ¬IsDigit c) :
    kstrtol (some (signedDigits negative ds ++ c :: suffix)) =
      .ok (int32 ((if negative then -1 else 1) * value ds),
        some (signedDigits negative ds).length) := by
  have hoffset : (signedDigits negative ds ++ c :: suffix).length - (ds ++ c :: suffix).length +
      ds.length = (signedDigits negative ds).length := by
    unfold signedDigits
    simp only [List.length_append]
    omega
  have hfold : ds.foldl addDigit 0 = int32 (value ds) := foldl_addDigit 0 ds
  unfold kstrtol
  dsimp only
  rw [readSign_signedDigits negative hds hne, Exec.ok_bind]
  dsimp only
  rw [kstrtolLoop_eq hds hc, Exec.ok_bind]
  dsimp only
  rw [hoffset, hfold, int32_mul_int32]

end CourseOs
