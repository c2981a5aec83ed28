import CourseOs.Klibc.Printf

/-!
# Formats and what they render to

A format is a list of pieces (`Piece`): literal characters, and directives
with or without a width.  Every string without a terminator inside is the text
of some pieces, or of some pieces and a directive that the string ends in
(`exists_pieces`), so nothing is lost by speaking about pieces.

`Piece.render` is the reference: what a piece stands for, given its argument.
One round of `os_vsnprintf` stores the rendering of one piece, as far as there
is room.

## Main definitions

* `Piece`, `Piece.text`, `Piece.WellFormed` — a piece, its characters, and
  that the characters are read as that piece.
* `Conversion.render`, `Piece.render` — the text a piece stands for.
* `Piece.shown` — the same with the width as the source reads it, in 32-bit
  arithmetic.

## Main results

* `exists_pieces` — every string is a format.
* `Printf.convert_spec` — one conversion prints what it stands for.
* `Printf.round_piece`, `Printf.loop_piece` — one round, and the loop at a
  piece.

`Prints s text out n` is the form in which the cases of the `switch` meet:
what is printed is `text`, up to the room, and it is counted by `n`, the
length as an `int` or the room.  The count is wrong for a text of 2³¹ bytes or
more while the stores are not, and `Prints` keeps the two apart, so that the
cases can be proved before anything is assumed about lengths.
-/

namespace CourseOs

open Numerals

/-- A piece of a format: a character that stands for itself, or a directive.
A format is the text of its pieces, one behind the other. -/
inductive Piece
  | literal (c : UInt8)
  /-- The digits of the width, behind its leading zero, and the conversion. -/
  | directive (width : Option (List UInt8)) (c : UInt8)
  deriving DecidableEq, Repr

/-- What a directive begins with: a percent sign, and for a width a zero and
its digits. -/
def opening : Option (List UInt8) → List UInt8
  | none => [0x25]
  | some ds => 0x25 :: 0x30 :: ds

namespace Conversion

/-- A conversion takes an argument.  A percent sign and an unknown character
take none. -/
def takes : Conversion → Bool
  | percent => false
  | unknown => false
  | _ => true

/-- The text that is printed for the argument `a` at the width `w`.  This is
what a reader of the format expects; the routine itself does not come into it. -/
def render (w : ℕ) (a : Argument) : Conversion → List UInt8
  | upperHex => padded false (digitsOf 0x41 16 (a.word % 2 ^ 32).toNat) w
  | lowerHex => padded false (digitsOf 0x61 16 (a.word % 2 ^ 32).toNat) w
  | signed => padded (a.word < 0) (digitsOf 0x61 10 a.word.natAbs) w
  | unsigned => padded false (digitsOf 0x61 10 (a.word % 2 ^ 32).toNat) w
  | char => [UInt8.ofInt a.word]
  | string => a.string
  | percent => [0x25]
  | unknown => []

/-- The arguments a conversion leaves: all but the first if it takes one. -/
def later (k : Conversion) (args : ℕ → Argument) : ℕ → Argument :=
  if k.takes then fun i => args (i + 1) else args

end Conversion

namespace Piece

/-- The first character, by which a round tells a directive from a literal. -/
def first : Piece → UInt8
  | literal c => c
  | directive _ _ => 0x25

/-- The last character, which is the conversion of a directive. -/
def last : Piece → UInt8
  | literal c => c
  | directive _ c => c

/-- The characters of a piece, as they stand in the format. -/
def text : Piece → List UInt8
  | literal c => [c]
  | directive width c => opening width ++ [c]

/-- The characters are read as that piece: a literal does not begin a
directive, a width is made of digits, and the conversion does not belong to
it. -/
def Readable : Piece → Prop
  | literal c => c ≠ 0x25
  | directive none c => c ≠ 0x30
  | directive (some ds) c => ¬IsDigit c ∧ ∀ d ∈ ds, IsDigit d

/-- A readable piece without a terminator.  Formats of such pieces end where
their text does. -/
structure WellFormed (p : Piece) : Prop where
  readable : p.Readable
  finished : p.last ≠ 0

/-- The width that is asked for, as a number of any size; 0 if there is none. -/
def width : Piece → ℕ
  | directive (some ds) _ => (value ds).toNat
  | _ => 0

/-- The width as the source reads it, in 32-bit arithmetic; -1 is none. -/
def padding : Piece → ℤ
  | directive (some ds) _ => int32 (value ds)
  | _ => -1

/-- The arguments a piece leaves.  A literal takes none. -/
def later (args : ℕ → Argument) : Piece → ℕ → Argument
  | literal _ => args
  | directive _ c => (conversion c).later args

/-- What a piece stands for: the text printed at the width `w`. -/
def render (w : ℕ) (a : Argument) : Piece → List UInt8
  | literal c => [c]
  | directive _ c => (conversion c).render w a

/-- What the source makes of a piece: its rendering at the width that the
source has read. -/
def shown (p : Piece) (a : Argument) : List UInt8 := p.render p.padding.toNat a

end Piece

/-- The text of some pieces, one behind the other. -/
def textOf (ps : List Piece) : List UInt8 := ps.flatMap Piece.text

/-! ### Every string is a format

Cutting a string into pieces is unambiguous up to directives that end with the
string.  That every string can be cut is what makes a statement about pieces
one about all formats. -/

variable {p : Piece} {ps : List Piece} {s s' : Printf} {ds rest : List UInt8} {c : UInt8}
  {width : Option (List UInt8)}

/-- The digits of an unfinished width, behind which the format ends. -/
def Digits (width : Option (List UInt8)) : Prop := ∀ ds, width = some ds → ∀ d ∈ ds, IsDigit d

theorem exists_span (s : List UInt8) :
    ∃ ds rest, s = ds ++ rest ∧ (∀ d ∈ ds, IsDigit d) ∧ ∀ c, rest.head? = some c → ¬IsDigit c := by
  induction s with
  | nil => exact ⟨[], [], rfl, fun _ h => absurd h List.not_mem_nil, fun _ h => nomatch h⟩
  | cons c s ih =>
      by_cases hc : IsDigit c
      · obtain ⟨ds, rest, hs, hds, hrest⟩ := ih
        refine ⟨c :: ds, rest, congrArg (c :: ·) hs, ?_, hrest⟩
        exact List.forall_mem_cons.mpr ⟨hc, hds⟩
      · refine ⟨[], c :: s, rfl, fun _ h => absurd h List.not_mem_nil, ?_⟩
        rintro _ ⟨⟩
        exact hc

/-- `s` is the text of some pieces, or ends inside a directive behind them. -/
def Splits (s : List UInt8) : Prop :=
  ∃ ps : List Piece, (∀ p ∈ ps, p.WellFormed) ∧
    (s = textOf ps ∨ ∃ width, Digits width ∧ s = textOf ps ++ opening width)

theorem Splits.cons {s : List UInt8} (hp : p.WellFormed) (h : Splits s) : Splits (p.text ++ s) := by
  obtain ⟨ps, hps, hs⟩ := h
  refine ⟨p :: ps, List.forall_mem_cons.mpr ⟨hp, hps⟩, ?_⟩
  have htext : textOf (p :: ps) = p.text ++ textOf ps := List.flatMap_cons
  rw [htext]
  rcases hs with hs | ⟨width, hwidth, hs⟩
  · exact .inl (by rw [hs])
  · exact .inr ⟨width, hwidth, by rw [hs, List.append_assoc]⟩

/-- **Every string splits into pieces**, with at most an unfinished directive
behind them. -/
theorem exists_pieces (s : List UInt8) (h0 : (0 : UInt8) ∉ s) : Splits s := by
  induction hn : s.length using Nat.strong_induction_on generalizing s with
  | _ n ih =>
      subst hn
      cases s with
      | nil => exact ⟨[], fun _ h => absurd h List.not_mem_nil, .inl rfl⟩
      | cons c s =>
          obtain ⟨hc, hs⟩ := List.ne_and_not_mem_of_not_mem_cons h0
          by_cases hpercent : c = 0x25
          swap
          · exact Splits.cons (p := .literal c) ⟨hpercent, hc.symm⟩
              (ih s.length (Nat.lt_succ_self _) s hs rfl)
          subst hpercent
          cases s with
          | nil => exact ⟨[], fun _ h => absurd h List.not_mem_nil, .inr ⟨none, nofun, rfl⟩⟩
          | cons d s =>
              obtain ⟨hd, htail⟩ := List.ne_and_not_mem_of_not_mem_cons hs
              by_cases hzero : d = 0x30
              swap
              · exact Splits.cons (p := .directive none d) ⟨hzero, hd.symm⟩
                  (ih s.length (by simp only [List.length_cons]; omega) s htail rfl)
              subst hzero
              -- the digits of the width, and what comes behind them
              obtain ⟨ds, rest, rfl, hds, hrest⟩ := exists_span s
              cases rest with
              | nil =>
                  refine ⟨[], fun _ h => absurd h List.not_mem_nil, .inr ⟨some ds, ?_, ?_⟩⟩
                  · rintro _ ⟨⟩
                    exact hds
                  · rw [List.append_nil]
                    rfl
              | cons e rest =>
                  have hmem : (0 : UInt8) ∉ e :: rest := fun h => htail (List.mem_append_right ds h)
                  obtain ⟨he, hrest0⟩ := List.ne_and_not_mem_of_not_mem_cons hmem
                  have hlen : rest.length < (0x25 :: 0x30 :: (ds ++ e :: rest)).length := by
                    simp only [List.length_cons, List.length_append]
                    omega
                  have hsplit := Splits.cons (p := .directive (some ds) e)
                    ⟨⟨hrest e rfl, hds⟩, he.symm⟩ (ih rest.length hlen rest hrest0 rfl)
                  have heq : (0x25 : UInt8) :: 0x30 :: (ds ++ e :: rest) =
                      (Piece.directive (some ds) e).text ++ rest := by
                    simp [Piece.text, opening]
                  rw [heq]
                  exact hsplit

/-! ### A width

The digits behind a zero are the width, in 32-bit arithmetic; the source keeps
it as a signed integer and takes -1 for no width.  What a conversion prints is
then a text of its own, stored as far as there is room. -/

theorem widthLoop_eq (hds : ∀ d ∈ ds, IsDigit d) (hc : ¬IsDigit c) (x : ℤ) :
    widthLoop (ds ++ c :: rest) x = .ok (ds.foldl addDigit x, c :: rest) := by
  induction ds generalizing x with
  | nil => exact if_neg hc
  | cons d ds ih =>
      rw [List.cons_append, widthLoop, if_pos (hds d List.mem_cons_self),
        ih fun e he => hds e (List.mem_cons_of_mem d he)]
      rfl

/-- A zero and the digits behind it give the number the digits stand for. -/
theorem widthLoop_zero (hds : ∀ d ∈ ds, IsDigit d) (hc : ¬IsDigit c) :
    widthLoop (0x30 :: (ds ++ c :: rest)) 0 = .ok (int32 (value ds), c :: rest) := by
  have h0 : addDigit 0 0x30 = int32 0 := rfl
  rw [widthLoop, if_pos (by decide), widthLoop_eq hds hc, h0, foldl_addDigit]
  rfl

namespace Printf

/-- A state that an integer may be printed from: padding is with zeros. -/
structure Padded (s : Printf) : Prop where
  isInt32 : IsInt32 s.padding
  zeros : 0 < s.padding → s.padChar = 0x30

/-- What is printed is one text, as far as there is room, and it is counted.
The count is the length of the text as an `int`. -/
structure Prints (s : Printf) (text : List UInt8) (out : Stores) (n : ℤ) : Prop where
  puts : Puts s.out out s.buf (text.take s.buflen.toNat)
  count : n = min (int32 text.length) s.buflen

theorem Prints.of_puts {text : List UInt8} {out : Stores} (hpos : 0 < s.buflen)
    (hlen : text.length < 2 ^ 31) (h : Puts s.out out s.buf (text.take s.buflen.toNat)) :
    Prints s text out (text.take s.buflen.toNat).length where
  puts := h
  count := by
    rw [int32_natCast hlen, List.length_take]
    omega

/-- A case that stores one byte. -/
theorem Prints.store (hpos : 0 < s.buflen) (c : UInt8) :
    Prints s [c] (s.out.store s.buf c) 1 := by
  have htake : [c].take s.buflen.toNat = [c] := List.take_of_length_le (by
    rw [List.length_singleton]
    omega)
  have h : Prints s [c] (s.out.store s.buf c) ([c].take s.buflen.toNat).length := by
    refine Prints.of_puts hpos (by rw [List.length_singleton]; norm_num) ?_
    rw [htake]
    exact Puts.store s.out s.buf c
  rw [htake] at h
  exact h

theorem printArg_spec (hpad : s.Padded) (hpos : 0 < s.buflen) (hmax : s.buflen < 2 ^ 31) {base : ℕ}
    (hbase : 2 ≤ base) (hbase' : base ≤ 16) (isUnsigned isUppercase : Bool) :
    ∃ out n, s.printArg base isUnsigned isUppercase =
        .ok ({ s with out := out, args := s.later }, n) ∧
      Prints s (padded (negated (s.args 0).word isUnsigned)
        (digitsOf (letter isUppercase) base (magnitude (s.args 0).word isUnsigned))
        s.padding.toNat) out n := by
  obtain ⟨out, hrun, hputs⟩ := printInt_spec s.out s.buf (s.args 0).word isUnsigned s.padding
    s.padChar isUppercase hbase hbase' hpos hmax
  have htext := intText_eq isUnsigned isUppercase hbase (s.args 0).isInt32 hpad.isInt32 hpad.zeros
  rw [htext] at hrun hputs
  refine ⟨out, _, ?_, Prints.of_puts hpos ?_ hputs⟩
  · unfold printArg
    rw [hrun]
    rfl
  · have hdigits := digitsOf_length_le (letter isUppercase) hbase
      (magnitude_lt (s.args 0).word isUnsigned)
    have hwidth := hpad.isInt32.2
    rw [padded_length]
    split <;> omega

theorem printString_spec (hpos : 0 < s.buflen) (hmax : s.buflen < 2 ^ 31) :
    ∃ out n, s.printString = .ok ({ s with out := out, args := s.later }, n) ∧
      Prints s (s.args 0).string out n := by
  have hroom : (s.buflen % 2 ^ 32).toNat = s.buflen.toNat := by omega
  obtain ⟨out, hcopy, hputs, -⟩ := strncpyLoop_spec (o := s.out) (d := s.buf) (s.args 0).terminated
    (n := s.buflen.toNat) (by omega)
  have hlen := strlen_eq (s.args 0).terminated (s.args 0).fits
  have hmin : (if int32 (s.args 0).string.length > s.buflen then s.buflen
      else int32 (s.args 0).string.length) = min (int32 (s.args 0).string.length) s.buflen := by
    split <;> omega
  refine ⟨out, min (int32 (s.args 0).string.length) s.buflen, ?_, hputs, rfl⟩
  unfold printString strncpy
  dsimp only
  rw [hroom, hcopy, Exec.ok_bind, Exec.ok_bind, hlen, Exec.ok_bind]
  dsimp only
  rw [hmin]

/-- **One conversion** prints what it stands for, with the width that has been
read.  The four for numbers are one routine with a base, a sign and a table of
digits. -/
theorem convert_spec (hpad : s.Padded) (hpos : 0 < s.buflen) (hmax : s.buflen < 2 ^ 31)
    (k : Conversion) :
    ∃ out n, s.convert k = .ok ({ s with out := out, args := k.later s.args }, n) ∧
      Prints s (k.render s.padding.toNat (s.args 0)) out n := by
  have hint := fun base (h : 2 ≤ base) (h' : base ≤ 16) => printArg_spec hpad hpos hmax h h'
  cases k with
  | upperHex =>
      obtain ⟨out, n, hrun, hprints⟩ := hint 16 (by decide) (by decide) true true
      rw [negated_unsigned, magnitude_unsigned] at hprints
      exact ⟨out, n, hrun, hprints⟩
  | lowerHex =>
      obtain ⟨out, n, hrun, hprints⟩ := hint 16 (by decide) (by decide) true false
      rw [negated_unsigned, magnitude_unsigned] at hprints
      exact ⟨out, n, hrun, hprints⟩
  | signed =>
      obtain ⟨out, n, hrun, hprints⟩ := hint 10 (by decide) (by decide) false false
      rw [negated_signed, magnitude_signed (s.args 0).isInt32] at hprints
      exact ⟨out, n, hrun, hprints⟩
  | unsigned =>
      obtain ⟨out, n, hrun, hprints⟩ := hint 10 (by decide) (by decide) true false
      rw [negated_unsigned, magnitude_unsigned] at hprints
      exact ⟨out, n, hrun, hprints⟩
  | char => exact ⟨_, 1, rfl, Prints.store hpos _⟩
  | string => exact printString_spec hpos hmax
  | percent => exact ⟨_, 1, rfl, Prints.store hpos _⟩
  | unknown =>
      refine ⟨s.out, 0, rfl, ?_, ?_⟩
      · show Puts s.out s.out s.buf (List.take _ [])
        rw [List.take_nil]
        exact Puts.nil _ _
      · show 0 = min (int32 (0 : ℕ)) s.buflen
        rw [Nat.cast_zero, int32_zero]
        omega

/-! ### One round

A round of the main loop begins at the first character of a piece and ends at
its last.  A directive is read in one or two goes of the `switch`: the case of
the zero reads the width and goes back to the `switch` for the conversion. -/

/-- A state between two rounds: there is room left, and no width has been read
yet. -/
structure Ready (s : Printf) : Prop where
  pos : 0 < s.buflen
  max : s.buflen < 2 ^ 31
  noWidth : s.padding = -1

theorem padding_isInt32 (p : Piece) : IsInt32 p.padding := by
  have hnone : IsInt32 (-1) := by decide
  cases p with
  | literal c => exact hnone
  | directive width c =>
      cases width with
      | none => exact hnone
      | some ds => exact isInt32_int32 _

/-- The options of a directive.  They are its width, and a padding with zeros
if that is more than 0. -/
theorem readOptions_directive (hp : (Piece.directive width c).Readable) (hready : s.Ready)
    (hstr : s.strBuf = (opening width).tail ++ c :: rest) :
    ∃ padChar : UInt8, (0 < (Piece.directive width c).padding → padChar = 0x30) ∧
      readOptions s = .ok { s with padding := (Piece.directive width c).padding,
                                   padChar := padChar, strBuf := c :: rest } := by
  cases width with
  | none =>
      have hpad := hready.noWidth
      have hstr' : s.strBuf = c :: rest := hstr
      have hhead : deref s.strBuf = .ok c := by
        rw [hstr']
        rfl
      have hnone : ¬(0 : ℤ) < -1 := by decide
      refine ⟨s.padChar, fun h => absurd h hnone, ?_⟩
      unfold readOptions
      rw [hhead, Exec.ok_bind, if_neg hp, ← hstr']
      show _ = Except.ok { s with padding := -1 }
      rw [← hpad]
  | some ds =>
      have hstr' : s.strBuf = 0x30 :: (ds ++ c :: rest) := hstr
      have hhead : deref s.strBuf = .ok 0x30 := by
        rw [hstr']
        rfl
      refine ⟨0x30, fun _ => rfl, ?_⟩
      unfold readOptions
      rw [hhead, Exec.ok_bind, if_pos rfl, hstr', widthLoop_zero hp.2 hp.1, Exec.ok_bind]
      rfl

/-- What a round does with the piece it is at: it prints, and comes to the
last character of the piece. -/
structure Rounded (p : Piece) (s t : Printf) (n : ℤ) (rest : List UInt8) : Prop where
  prints : Prints s (p.shown (s.args 0)) t.out n
  strBuf : t.strBuf = p.last :: rest
  buf : t.buf = s.buf
  buflen : t.buflen = s.buflen
  args : t.args = p.later s.args
  nwritten : t.nwritten = s.nwritten
  noWidth : t.padding = -1

theorem round_directive (hp : (Piece.directive width c).Readable) (hready : s.Ready)
    (hstr : s.strBuf = opening width ++ c :: rest) :
    ∃ t n, s.round 0x25 = .ok (t, n) ∧ Rounded (.directive width c) s t n rest := by
  have htail : s.strBuf.tail = (opening width).tail ++ c :: rest := by
    rw [hstr]
    cases width <;> rfl
  obtain ⟨padChar, hzeros, hoptions⟩ := readOptions_directive
    (s := { s with strBuf := s.strBuf.tail }) hp ⟨hready.pos, hready.max, hready.noWidth⟩ htail
  obtain ⟨out, n, hconvert, hprints⟩ := convert_spec (s := { s with
    padding := (Piece.directive width c).padding, padChar := padChar, strBuf := c :: rest })
    ⟨padding_isInt32 _, hzeros⟩ hready.pos hready.max (conversion c)
  refine ⟨{ s with
      out := out, args := (conversion c).later s.args, padding := -1, padChar := padChar,
      strBuf := c :: rest }, n, ?_, ⟨hprints.puts, hprints.count⟩, rfl, rfl, rfl, rfl, rfl, rfl⟩
  unfold round
  rw [if_pos rfl, hoptions, Exec.ok_bind]
  show (Printf.convert _ (conversion c) >>= _) = _
  rw [hconvert]
  rfl

/-- **One round** stores the rendering of one piece. -/
theorem round_piece (hp : p.Readable) (hready : s.Ready) (hstr : s.strBuf = p.text ++ rest) :
    ∃ t n, s.round p.first = .ok (t, n) ∧ Rounded p s t n rest := by
  cases p with
  | literal c =>
      refine ⟨{ s with out := s.out.store s.buf c }, 1, if_neg hp, ?_, hstr, rfl, rfl, rfl, rfl,
        hready.noWidth⟩
      exact Prints.store hready.pos c
  | directive width c =>
      refine round_directive hp hready ?_
      rw [hstr, Piece.text, List.append_assoc]
      rfl

/-- From one round to the next: the rendering is stored, and `buf`, `buflen`
and `nwritten` are moved by its length as a signed integer. -/
structure Passed (p : Piece) (s s' : Printf) : Prop where
  puts : Puts s.out s'.out s.buf ((p.shown (s.args 0)).take s.buflen.toNat)
  buf : s'.buf = s.buf + min (int32 (p.shown (s.args 0)).length) s.buflen
  buflen : s'.buflen = int32 (s.buflen - min (int32 (p.shown (s.args 0)).length) s.buflen)
  nwritten : s'.nwritten = int32 (s.nwritten + min (int32 (p.shown (s.args 0)).length) s.buflen)
  args : s'.args = p.later s.args
  noWidth : s'.padding = -1

theorem Passed.ready (h : Passed p s s') (hpos : 0 < s'.buflen) : s'.Ready where
  pos := hpos
  max := by
    rw [h.buflen]
    exact (isInt32_int32 _).2
  noWidth := h.noWidth

/-- **The loop at a piece** passes it, and ends where there is no room left.
The fuel goes down by one, whatever the piece. -/
theorem loop_piece (hp : p.Readable) (hfirst : p.first ≠ 0) (hready : s.Ready)
    (hstr : s.strBuf = p.text ++ rest) :
    ∃ s', Passed p s s' ∧ s'.strBuf = rest ∧ ∀ fuel, loop (fuel + 1) s =
      if s'.buflen ≤ 0 then .ok { s' with strBuf := p.last :: rest } else loop fuel s' := by
  obtain ⟨t, n, hround, ht⟩ := round_piece hp hready hstr
  have hn := ht.prints.count
  have hhead : deref s.strBuf = .ok p.first := by
    rw [hstr]
    cases p with
    | literal c => rfl
    | directive width c => cases width <;> rfl
  refine ⟨{ t.advance n with strBuf := rest }, ⟨ht.prints.puts, ?_, ?_, ?_, ht.args, ht.noWidth⟩,
    rfl, fun fuel => ?_⟩
  · show t.buf + n = _
    rw [ht.buf, hn]
  · show int32 (t.buflen - n) = _
    rw [ht.buflen, hn]
  · show int32 (t.nwritten + n) = _
    rw [ht.nwritten, hn]
  · have hlast : (t.advance n).strBuf = p.last :: rest := ht.strBuf
    rw [loop, hhead, Exec.ok_bind, if_neg hfirst, hround, Exec.ok_bind]
    dsimp only
    split
    · rw [← hlast]
    · rw [hlast]
      rfl

end Printf

end CourseOs
