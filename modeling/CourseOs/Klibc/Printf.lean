import CourseOs.Klibc.PrintInt
import CourseOs.Klibc.Strncpy

/-!
# Formatted printing

`os_vsnprintf` of `klibc/printf.c`.  The format is a block of its own that
ends with its terminator, and `strBuf` is what is left of it: a read behind
the terminator stops the run.  The arguments are read as they are asked for,
each as a word or as the string it points to (`Argument`).

The main loop handles one character of the format, or one directive, in a
round.  The case `'0'` of the `switch` reads a width and goes back to the
`switch` with the character behind it.  The width takes all digits, so that it
is another case the second time, and the model has `'0'` as a step before the
`switch` (`Printf.readOptions`).

Lengths are of type `int`.  A round moves `buf` by `n`, takes it off `buflen`
and adds it to `nwritten`, and `n` is what the case says, reduced to an `int`:
for a string it is `n = strlen(str_arg)`, which for a long string is negative.
The model keeps the reduction where the source has it (`Printf.printString`),
and what follows from it is in the modules on the runs of the formatter.
-/

namespace CourseOs

open Numerals

/-- An argument: its word and, where it is read as a pointer, the string
there.  A string has no terminator inside and fits the address space. -/
structure Argument where
  word : ℤ
  string : List UInt8
  isInt32 : IsInt32 word
  terminated : (0 : UInt8) ∉ string
  fits : string.length < 2 ^ 32

/-- The variables of `os_vsnprintf`, with the memory.  `padding` is the width,
-1 for none. -/
structure Printf where
  out : Stores
  buf : ℤ
  buflen : ℤ
  strBuf : List UInt8
  args : ℕ → Argument
  nwritten : ℤ
  padding : ℤ
  padChar : UInt8

/-- The cases of the `switch`.  A character that is no conversion has a case
of its own, in which nothing is printed. -/
inductive Conversion
  | upperHex
  | lowerHex
  | signed
  | unsigned
  | char
  | string
  | percent
  /-- No case: the directive prints nothing. -/
  | unknown
  deriving DecidableEq, Repr

/-- The case of a conversion character.  `d` and `i` are one case, and all
characters that the source does not name are one as well. -/
def conversion (c : UInt8) : Conversion :=
  match Char.ofNat c.toNat with
  | 'X' => .upperHex
  | 'x' => .lowerHex
  | 'd' => .signed
  | 'i' => .signed
  | 'u' => .unsigned
  | 'c' => .char
  | 's' => .string
  | '%' => .percent
  | _ => .unknown

/-- The loop that reads a width.  It goes on over all digits, and stops the
run at the end of the block. -/
def widthLoop : List UInt8 → ℤ → Exec (ℤ × List UInt8)
  | [], _ => .error .outOfBounds
  | c :: strBuf, padding =>
      if IsDigit c then widthLoop strBuf (addDigit padding c) else .ok (padding, c :: strBuf)

namespace Printf

/-- The case `'0'` of the `switch`.  The width takes all digits, so that the
second time round another case is reached. -/
def readOptions (s : Printf) : Exec Printf := do
  let c ← deref s.strBuf
  if c = 0x30 then
    let (padding, strBuf) ← widthLoop s.strBuf 0
    .ok { s with padding := padding, padChar := 0x30, strBuf := strBuf }
  else .ok s

/-- `va_arg`: the arguments behind the first.  There is always a next
argument, as the model knows no end of them. -/
def later (s : Printf) : ℕ → Argument := fun i => s.args (i + 1)

/-- A case that prints an integer: `print_int` with the room that is left, on
the next argument. -/
def printArg (s : Printf) (base : ℕ) (isUnsigned isUppercase : Bool) : Exec (Printf × ℤ) := do
  let (out, n) ← printInt s.out s.buf s.buflen (s.args 0).word base isUnsigned s.padding s.padChar
    isUppercase
  .ok ({ s with out := out, args := s.later }, n)

/-- The case `'s'`.  The string is copied with the room as its bound, and `n`
is its length as an `int`, or the room when it is longer. -/
def printString (s : Printf) : Exec (Printf × ℤ) := do
  let strArg := (s.args 0).string ++ [0]
  let (out, _) ← strncpy s.out s.buf strArg (s.buflen % 2 ^ 32).toNat
  let len ← strlen strArg
  let n := int32 len
  .ok ({ s with out := out, args := s.later }, if n > s.buflen then s.buflen else n)

/-- The `switch`: the new state and `n`.  The argument is used up by the
conversions that print one. -/
def convert (s : Printf) : Conversion → Exec (Printf × ℤ)
  | .upperHex => s.printArg 16 true true
  | .lowerHex => s.printArg 16 true false
  | .signed => s.printArg 10 false false
  | .unsigned => s.printArg 10 true false
  | .char =>
      .ok ({ s with out := s.out.store s.buf (UInt8.ofInt (s.args 0).word), args := s.later }, 1)
  | .string => s.printString
  | .percent => .ok ({ s with out := s.out.store s.buf 0x25 }, 1)
  | .unknown => .ok (s, 0)

/-- One round of the main loop, at the byte `c` of the format, up to where `n`
is known. -/
def round (s : Printf) (c : UInt8) : Exec (Printf × ℤ) :=
  if c = 0x25 then do
    let s ← readOptions { s with strBuf := s.strBuf.tail }
    let c ← deref s.strBuf
    let (s, n) ← s.convert (conversion c)
    .ok ({ s with padding := -1 }, n)
  else .ok ({ s with out := s.out.store s.buf c }, 1)

/-- The end of a round: the three variables are moved by `n`, which is signed. -/
def advance (s : Printf) (n : ℤ) : Printf :=
  { s with buf := s.buf + n, buflen := int32 (s.buflen - n), nwritten := int32 (s.nwritten + n) }

/-- The variables at the start of the main loop.  No width has been read, and
the padding is -1. -/
def start (o : Stores) (buf buflen : ℤ) (strBuf : List UInt8) (args : ℕ → Argument) : Printf where
  out := o
  buf := buf
  buflen := buflen
  strBuf := strBuf
  args := args
  nwritten := 0
  padding := -1
  padChar := 0

/-- The main loop.  A round takes at least one byte of the format, so as many
rounds as the format has bytes are enough. -/
def loop : ℕ → Printf → Exec Printf
  | 0, _ => .error .diverged
  | fuel + 1, s => do
      let c ← deref s.strBuf
      if c = 0 then .ok s
      else do
        let (s, n) ← s.round c
        let s := s.advance n
        if s.buflen ≤ 0 then .ok s else loop fuel { s with strBuf := s.strBuf.tail }

end Printf

/-- `os_vsnprintf`: the memory and the number of bytes written. -/
def osVsnprintf (o : Stores) (buf buflen : ℤ) (strBuf : List UInt8) (args : ℕ → Argument) :
    Exec (Stores × ℤ) :=
  if buflen = 0 then .ok (o, 0)
  else
    let buflen := int32 (buflen - 1)
    if buflen = 0 then .ok (o.store buf 0, 1)
    else do
      let s ← Printf.loop strBuf.length (Printf.start o buf buflen strBuf args)
      .ok (s.out.store s.buf 0, int32 (s.nwritten + 1))

end CourseOs
