import CourseOs.Klibc.PrintfFormat
import Mathlib.Tactic.Ring

/-!
# Runs of the formatter

The pieces of a format are passed one after the other, and each lowers the
room by the length of its rendering, as an `int`.  This module has what
follows for a whole format.

## Main definitions

* `rendering w ps args` — the renderings of the pieces, one behind the other.
* `roomAfter ps args room` — the room that some pieces leave, which is all
  that decides whether the pieces behind them are reached.
* `Short ps args room` — the pieces that are reached have renderings shorter
  than 2³¹ bytes.

## Main results

* `osVsnprintf_reads_inside` — the formatter ends, and reads no byte behind
  the terminator of its format, exactly where the format does not end inside a
  directive, or where the pieces before that directive leave no room.  At such
  a directive the terminator is taken for its conversion, the pointer goes
  past it, and what lies behind is taken for the rest of the format.
* `Printf.loop_short` — while the renderings are short, their concatenation is
  stored as far as there is room.

The first is stated without any assumption on lengths: it is about the room
and not about what is printed, and a string that is too long changes the room
in a way that `roomAfter` follows as well.
-/

namespace CourseOs

open Numerals

/-- The arguments some pieces leave, each having taken its own. -/
def laterAll : List Piece → (ℕ → Argument) → ℕ → Argument
  | [], args => args
  | p :: ps, args => laterAll ps (p.later args)

/-- The rendering of some pieces, at the widths `w`, each with the first of
the arguments that the pieces before it leave. -/
def rendering (w : Piece → ℕ) : List Piece → (ℕ → Argument) → List UInt8
  | [], _ => []
  | p :: ps, args => p.render (w p) (args 0) ++ rendering w ps (p.later args)

/-- The room that some pieces leave of `room` bytes: each takes the length of
its rendering, as a signed integer, until there is no more.  A length that is
negative as an `int` adds room. -/
def roomAfter : List Piece → (ℕ → Argument) → ℤ → ℤ
  | [], _, room => room
  | p :: ps, args, room =>
      if room ≤ 0 then room
      else
        roomAfter ps (p.later args)
          (int32 (room - min (int32 (p.shown (args 0)).length) room))

variable {p : Piece} {ps qs : List Piece} {s s' t : Printf} {rest bs cs : List UInt8}
  {args : ℕ → Argument} {room : ℤ}

theorem roomAfter_of_nonpos (h : room ≤ 0) : roomAfter ps args room = room := by
  cases ps with
  | nil => rfl
  | cons p ps => exact if_pos h

theorem textOf_cons (p : Piece) (ps : List Piece) : textOf (p :: ps) = p.text ++ textOf ps :=
  List.flatMap_cons

theorem length_le_textOf (ps : List Piece) : ps.length ≤ (textOf ps).length := by
  induction ps with
  | nil => exact Nat.zero_le _
  | cons p ps ih =>
      have hp : 0 < p.text.length := by
        cases p with
        | literal c => exact Nat.zero_lt_one
        | directive width c =>
            rw [Piece.text, List.length_append, List.length_singleton]
            exact Nat.succ_pos _
      rw [textOf_cons, List.length_append, List.length_cons]
      omega

/-- Each piece takes one round, so there are rounds left for what comes behind
the pieces. -/
theorem exists_rounds (ps : List Piece) {l : List UInt8} {n : ℕ} (hn : n ≤ l.length) :
    ∃ k, (textOf ps ++ l).length = k + n + ps.length := by
  have hle := length_le_textOf ps
  refine ⟨(textOf ps ++ l).length - n - ps.length, ?_⟩
  rw [List.length_append]
  omega

theorem Piece.WellFormed.first_ne_zero (h : p.WellFormed) : p.first ≠ 0 := by
  cases p with
  | literal c => exact h.finished
  | directive width c =>
      show (0x25 : UInt8) ≠ 0
      decide

/-- The terminator is the character of no conversion. -/
theorem shown_terminator (width : Option (List UInt8)) (a : Argument) :
    (Piece.directive width 0).shown a = [] := rfl

namespace Printf

/-! ### The room

Which pieces are reached depends on the room the earlier ones leave, and on
nothing else about them.  The main loop is described by cutting the format at
the piece at which the room is used up. -/

/-- Pieces that leave no room end the loop; others are passed, and the loop
goes on behind them. -/
theorem loop_room (hps : ∀ p ∈ ps, p.WellFormed) (hready : s.Ready)
    (hstr : s.strBuf = textOf ps ++ rest) :
    (roomAfter ps s.args s.buflen ≤ 0 → ∀ fuel, ∃ t, loop (fuel + ps.length) s = .ok t) ∧
      (0 < roomAfter ps s.args s.buflen → ∃ s', s'.Ready ∧ s'.strBuf = rest ∧
        ∀ fuel, loop (fuel + ps.length) s = loop fuel s') := by
  induction ps generalizing s with
  | nil =>
      refine ⟨fun h => absurd hready.pos (not_lt.mpr h), fun _ => ?_⟩
      exact ⟨s, hready, hstr, fun _ => rfl⟩
  | cons p ps ih =>
      obtain ⟨hp, hps⟩ := List.forall_mem_cons.mp hps
      rw [textOf_cons, List.append_assoc] at hstr
      obtain ⟨s₁, hpassed, hrest, hloop⟩ :=
        loop_piece hp.readable hp.first_ne_zero hready hstr
      have hroom : roomAfter (p :: ps) s.args s.buflen = roomAfter ps s₁.args s₁.buflen := by
        rw [hpassed.args, hpassed.buflen]
        exact if_neg (not_le.mpr hready.pos)
      rw [hroom]
      by_cases hfull : s₁.buflen ≤ 0
      · rw [roomAfter_of_nonpos hfull]
        exact ⟨fun _ fuel => ⟨_, (hloop _).trans (if_pos hfull)⟩,
          fun h => absurd h (not_lt.mpr hfull)⟩
      · obtain ⟨hend, hpass⟩ := ih hps (hpassed.ready (not_le.mp hfull)) hrest
        have hnext : ∀ fuel, loop (fuel + (p :: ps).length) s = loop (fuel + ps.length) s₁ :=
          fun fuel => (hloop _).trans (if_neg hfull)
        refine ⟨fun h fuel => ?_, fun h => ?_⟩
        · rw [hnext]
          exact hend h fuel
        · obtain ⟨s', hready', hstr', hrun⟩ := hpass h
          exact ⟨s', hready', hstr', fun fuel => (hnext fuel).trans (hrun fuel)⟩

/-- At a directive the format ends in, the terminator is taken for its
conversion, and what comes behind the terminator is read. -/
theorem loop_unfinished {width : Option (List UInt8)} (hwidth : Digits width) (hready : s.Ready)
    (hstr : s.strBuf = opening width ++ [0]) (fuel : ℕ) :
    loop (fuel + 2) s = .error .outOfBounds := by
  have hreadable : (Piece.directive width 0).Readable := by
    cases width with
    | none =>
        show (0 : UInt8) ≠ 0x30
        decide
    | some ds => exact ⟨by decide, hwidth ds rfl⟩
  have hfirst : (0x25 : UInt8) ≠ 0 := by decide
  have hstr' : s.strBuf = (Piece.directive width 0).text ++ [] := by
    rw [hstr, List.append_nil]
    rfl
  obtain ⟨s₁, hpassed, hrest, hloop⟩ := loop_piece hreadable hfirst hready hstr'
  have hroom : s₁.buflen = s.buflen := by
    have hpos := hready.pos
    rw [hpassed.buflen, shown_terminator, List.length_nil, Nat.cast_zero, int32_zero,
      min_eq_left hpos.le, sub_zero, int32_of_isInt32 ⟨by omega, hready.max⟩]
  have hbehind : loop (fuel + 1) s₁ = .error .outOfBounds := by
    rw [loop, hrest]
    rfl
  rw [hloop, if_neg (by rw [hroom]; exact not_le.mpr hready.pos), hbehind]

/-- At the terminator the loop is left. -/
theorem loop_at_end (hstr : s.strBuf = [0]) (fuel : ℕ) : loop (fuel + 1) s = .ok s := by
  rw [loop, hstr]
  rfl

theorem ready_start {buflen : ℤ} (hlong : 1 < buflen) (hmax : buflen < 2 ^ 31) (o : Stores)
    (buf : ℤ) (strBuf : List UInt8) (args : ℕ → Argument) :
    (start o buf (buflen - 1) strBuf args).Ready :=
  ⟨sub_pos.mpr hlong, (sub_one_lt buflen).trans hmax, rfl⟩

end Printf

/-- With room for a byte and a terminator the main loop is entered, and the
terminator is stored where it ends. -/
theorem osVsnprintf_of_long {buflen : ℤ} (hlong : 1 < buflen) (hmax : buflen < 2 ^ 31) (o : Stores)
    (buf : ℤ) (strBuf : List UInt8) (args : ℕ → Argument) :
    osVsnprintf o buf buflen strBuf args =
      Printf.loop strBuf.length (Printf.start o buf (buflen - 1) strBuf args) >>= fun s =>
        .ok (s.out.store s.buf 0, int32 (s.nwritten + 1)) := by
  have hless : int32 (buflen - 1) = buflen - 1 := int32_of_isInt32 ⟨by omega, by omega⟩
  unfold osVsnprintf
  dsimp only
  rw [if_neg (by omega), hless, if_neg (by omega)]

/-! ### Staying inside the format

Every round reads up to the last character of its piece, and the terminator is
read by the round that finds the format at its end.  There is one way to pass
the terminator: a directive that has begun and not ended, for which the
terminator counts as the conversion. -/

/-- The routine returns where its main loop is left, since nothing behind the
loop can stop it. -/
theorem osVsnprintf_returns_iff {buflen : ℤ} (hlong : 1 < buflen) (hmax : buflen < 2 ^ 31)
    (o : Stores) (buf : ℤ) (strBuf : List UInt8) (args : ℕ → Argument) :
    (∃ r, osVsnprintf o buf buflen strBuf args = .ok r) ↔
      ∃ t, Printf.loop strBuf.length (Printf.start o buf (buflen - 1) strBuf args) = .ok t := by
  rw [osVsnprintf_of_long hlong hmax]
  constructor
  · rintro ⟨r, hr⟩
    obtain ⟨t, ht, -⟩ := Exec.bind_eq_ok.mp hr
    exact ⟨t, ht⟩
  · rintro ⟨t, ht⟩
    exact ⟨_, by rw [ht]; rfl⟩

/-- **`os_vsnprintf`** ends, and reads no byte behind the format's terminator,
exactly where the format does not end inside a directive or the pieces before
it leave no room. -/
theorem osVsnprintf_reads_inside (o : Stores) (buf : ℤ) {buflen : ℤ} (h0 : 0 ≤ buflen)
    (hmax : buflen < 2 ^ 31) {fmt : List UInt8} (hfmt : (0 : UInt8) ∉ fmt)
    (args : ℕ → Argument) :
    (∃ r, osVsnprintf o buf buflen (fmt ++ [0]) args = .ok r) ↔
      ∀ ps width, (∀ p ∈ ps, p.WellFormed) → Digits width → fmt = textOf ps ++ opening width →
        roomAfter ps args (buflen - 1) ≤ 0 := by
  by_cases hlong : 1 < buflen
  swap
  · -- nothing of the format is read
    refine iff_of_true ?_ fun ps _ _ _ _ => ?_
    · by_cases hzero : buflen = 0
      · exact ⟨_, if_pos hzero⟩
      · obtain rfl : buflen = 1 := by omega
        exact ⟨_, rfl⟩
    · rw [roomAfter_of_nonpos (by omega)]
      omega
  have hready := Printf.ready_start hlong hmax o buf (fmt ++ [0]) args
  rw [osVsnprintf_returns_iff hlong hmax]
  constructor
  · rintro ⟨t, ht⟩ ps width hps hwidth rfl
    by_contra hroom
    have hstr : textOf ps ++ opening width ++ [0] = textOf ps ++ (opening width ++ [0]) :=
      List.append_assoc ..
    obtain ⟨s', hready', hstr', hrun⟩ := (Printf.loop_room hps hready hstr).2 (not_le.mp hroom)
    have hopening : 2 ≤ (opening width ++ [0]).length := by
      have hpos : 0 < (opening width).length := by cases width <;> exact Nat.succ_pos _
      rw [List.length_append, List.length_singleton]
      omega
    obtain ⟨k, hk⟩ := exists_rounds ps hopening
    rw [hstr, hk, ← hstr, hrun, Printf.loop_unfinished hwidth hready' hstr'] at ht
    cases ht
  · intro hroom
    obtain ⟨ps, hps, hsplit⟩ := exists_pieces fmt hfmt
    rcases hsplit with rfl | ⟨width, hwidth, rfl⟩
    · obtain ⟨k, hk⟩ := exists_rounds ps (l := [0]) le_rfl
      obtain ⟨hend, hpass⟩ := Printf.loop_room hps hready rfl
      rw [hk]
      by_cases hleft : 0 < roomAfter ps args (buflen - 1)
      · obtain ⟨s', -, hstr', hrun⟩ := hpass hleft
        exact ⟨s', (hrun _).trans (Printf.loop_at_end hstr' k)⟩
      · exact hend (not_lt.mp hleft) _
    · have hstr : textOf ps ++ opening width ++ [0] = textOf ps ++ (opening width ++ [0]) :=
        List.append_assoc ..
      obtain ⟨k, hk⟩ := exists_rounds ps (l := opening width ++ [0]) (Nat.zero_le _)
      have hend := (Printf.loop_room hps hready hstr).1 (hroom ps width hps hwidth rfl) k
      rwa [hstr, hk, ← hstr]

/-- An argument that is read as 0 or as the empty string. -/
def noArgument : Argument where
  word := 0
  string := []
  isInt32 := by decide
  terminated := List.not_mem_nil
  fits := by decide

/-- "%d" into 16 bytes: there is no way to cut the format so that it ends in
an open directive. -/
theorem osVsnprintf_reads_inside_d :
    (∃ r, osVsnprintf ⟨⟨fun _ => 0⟩, []⟩ 0x8000 16 ([0x25, 0x64] ++ [0]) (fun _ => noArgument) =
        .ok r) ↔
      ∀ ps width, (∀ p ∈ ps, p.WellFormed) → Digits width →
        [0x25, 0x64] = textOf ps ++ opening width →
        roomAfter ps (fun _ => noArgument) (16 - 1) ≤ 0 :=
  osVsnprintf_reads_inside _ _ (by decide) (by decide) (by decide) _

/-- A lone "%", and a width without a conversion: what lies behind the
terminator is read, because the terminator is taken for the conversion. -/
theorem osVsnprintf_runs_off :
    osVsnprintf ⟨⟨fun _ => 0⟩, []⟩ 0x8000 16 ([0x25] ++ [0]) (fun _ => noArgument) =
        .error .outOfBounds ∧
      osVsnprintf ⟨⟨fun _ => 0⟩, []⟩ 0x8000 16 ([0x25, 0x30, 0x35] ++ [0]) (fun _ => noArgument) =
        .error .outOfBounds := ⟨rfl, rfl⟩

/-! ### Short renderings

With renderings whose lengths are no problem, what a sequence of pieces prints
is the sequence of what they stand for, cut off where the room ends. -/

/-- The bytes `bs` were printed, and counted.  The room is not part of it, as
it may have ended before they did. -/
structure Printf.Wrote (s t : Printf) (bs : List UInt8) : Prop where
  puts : Puts s.out t.out s.buf bs
  buf : t.buf = s.buf + bs.length
  nwritten : t.nwritten = s.nwritten + bs.length

/-- The pieces that are reached have renderings whose length is an `int`.
Nothing is asked of the pieces for which there is no room left. -/
def Short : List Piece → (ℕ → Argument) → ℤ → Prop
  | [], _, _ => True
  | p :: ps, args, room =>
      (p.shown (args 0)).length < 2 ^ 31 ∧
        ((p.shown (args 0)).length < room →
          Short ps (p.later args) (room - (p.shown (args 0)).length))

/-- The width the source reads, by which -1 becomes 0. -/
def sourceWidth (p : Piece) : ℕ := p.padding.toNat

namespace Printf

theorem Wrote.trans (h : Wrote s s' bs) (h' : Wrote s' t cs)
    (hfit : bs.length + cs.length < 2 ^ 32) : Wrote s t (bs ++ cs) where
  puts := by
    have hputs := h'.puts
    rw [h.buf] at hputs
    exact h.puts.append hputs hfit
  buf := by
    rw [h'.buf, h.buf, List.length_append]
    push_cast
    ring
  nwritten := by
    rw [h'.nwritten, h.nwritten, List.length_append]
    push_cast
    ring

/-- A piece with a short rendering: what is printed is as much of it as there
is room for, and is taken off the room. -/
theorem Passed.wrote (h : Passed p s s') (hready : s.Ready) (hn : 0 ≤ s.nwritten)
    (hsum : s.nwritten + s.buflen < 2 ^ 31) (hlen : (p.shown (s.args 0)).length < 2 ^ 31) :
    Wrote s s' ((p.shown (s.args 0)).take s.buflen.toNat) ∧
      s'.buflen = s.buflen - ((p.shown (s.args 0)).take s.buflen.toNat).length := by
  have hpos := hready.pos
  have hcount : min (int32 (p.shown (s.args 0)).length) s.buflen =
      ((p.shown (s.args 0)).take s.buflen.toNat).length := by
    rw [int32_natCast hlen, List.length_take]
    omega
  have htake : (((p.shown (s.args 0)).take s.buflen.toNat).length : ℤ) ≤ s.buflen := by
    rw [List.length_take]
    omega
  refine ⟨⟨h.puts, by rw [h.buf, hcount], ?_⟩, ?_⟩
  · rw [h.nwritten, hcount, int32_of_isInt32 ⟨by omega, by omega⟩]
  · have hmax := hready.max
    rw [h.buflen, hcount, int32_of_isInt32 ⟨by omega, by omega⟩]

/-- **Pieces with short renderings** print them, one behind the other: until
there is no room left, or all of them. -/
theorem loop_short (hps : ∀ p ∈ ps, p.WellFormed) (hready : s.Ready) (hn : 0 ≤ s.nwritten)
    (hsum : s.nwritten + s.buflen < 2 ^ 31) (hshort : Short ps s.args s.buflen)
    (hstr : s.strBuf = textOf ps ++ rest) :
    (s.buflen ≤ (rendering sourceWidth ps s.args).length → ∀ fuel, ∃ t,
      loop (fuel + ps.length) s = .ok t ∧
        Wrote s t ((rendering sourceWidth ps s.args).take s.buflen.toNat)) ∧
    ((rendering sourceWidth ps s.args).length < s.buflen → ∃ s', s'.Ready ∧ s'.strBuf = rest ∧
      s'.args = laterAll ps s.args ∧
      s'.buflen = s.buflen - (rendering sourceWidth ps s.args).length ∧
      Wrote s s' (rendering sourceWidth ps s.args) ∧
      ∀ fuel, loop (fuel + ps.length) s = loop fuel s') := by
  induction ps generalizing s with
  | nil =>
      refine ⟨fun h => absurd hready.pos (not_lt.mpr h), fun _ => ?_⟩
      exact ⟨s, hready, hstr, rfl, (sub_zero _).symm,
        ⟨Puts.nil _ _, (add_zero _).symm, (add_zero _).symm⟩, fun _ => rfl⟩
  | cons p ps ih =>
      obtain ⟨hp, hps⟩ := List.forall_mem_cons.mp hps
      obtain ⟨hlen, hshort⟩ := hshort
      rw [textOf_cons, List.append_assoc] at hstr
      obtain ⟨s₁, hpassed, hrest, hloop⟩ :=
        loop_piece hp.readable hp.first_ne_zero hready hstr
      obtain ⟨hwrote, hroom⟩ := hpassed.wrote hready hn hsum hlen
      have hpos := hready.pos
      have hmax := hready.max
      have hrender : rendering sourceWidth (p :: ps) s.args =
          p.shown (s.args 0) ++ rendering sourceWidth ps s₁.args := by
        rw [hpassed.args]
        rfl
      rw [hrender, List.length_append]
      by_cases hfull : s.buflen ≤ (p.shown (s.args 0)).length
      · -- the piece takes all the room there is
        have htake : ((p.shown (s.args 0)).take s.buflen.toNat).length = s.buflen.toNat := by
          rw [List.length_take]
          omega
        rw [htake] at hroom
        have hnone : s₁.buflen ≤ 0 := by omega
        refine ⟨fun _ fuel => ?_, fun h => absurd h (by push_cast; omega)⟩
        rw [List.take_append_of_le_length (by omega)]
        exact ⟨_, (hloop _).trans (if_pos hnone), hwrote.puts, hwrote.buf, hwrote.nwritten⟩
      · have htake : (p.shown (s.args 0)).take s.buflen.toNat = p.shown (s.args 0) :=
          List.take_of_length_le (by omega)
        rw [htake] at hwrote hroom
        have hsome : 0 < s₁.buflen := by omega
        have hready₁ := hpassed.ready hsome
        have hn₁ := hwrote.nwritten
        have hshort₁ : Short ps s₁.args s₁.buflen := by
          rw [hroom, hpassed.args]
          exact hshort (not_le.mp hfull)
        obtain ⟨hend, hpass⟩ := ih hps hready₁ (by omega) (by omega) hshort₁ hrest
        have hnext : ∀ fuel, loop (fuel + (p :: ps).length) s = loop (fuel + ps.length) s₁ :=
          fun fuel => (hloop _).trans (if_neg (not_le.mpr hsome))
        refine ⟨fun h fuel => ?_, fun h => ?_⟩
        · push_cast at h
          obtain ⟨t, hrun, ht⟩ := hend (by omega) fuel
          have hleft : s.buflen.toNat - (p.shown (s.args 0)).length = s₁.buflen.toNat := by omega
          refine ⟨t, (hnext fuel).trans hrun, ?_⟩
          rw [List.take_append, htake, hleft]
          refine hwrote.trans ht ?_
          have := List.length_take_le s₁.buflen.toNat (rendering sourceWidth ps s₁.args)
          omega
        · push_cast at h
          obtain ⟨s', hready', hstr', hargs, hroom', hwrote', hrun⟩ := hpass (by omega)
          refine ⟨s', hready', hstr', ?_, ?_, hwrote.trans hwrote' (by omega),
            fun fuel => (hnext fuel).trans (hrun fuel)⟩
          · rw [hargs, hpassed.args]
            rfl
          · rw [hroom', hroom]
            push_cast
            ring

end Printf

end CourseOs
