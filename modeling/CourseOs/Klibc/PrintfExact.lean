import CourseOs.Klibc.PrintfRun

/-!
# The formatter against its reference

`Formats` is what is asked of `os_vsnprintf`: the reference rendering, cut off
where the buffer ends, with a terminator, no store outside the buffer, and the
number of bytes as the result.

## Main results

* `formats_of_short` — it is met while the renderings that are reached are
  shorter than 2³¹ bytes.
* `not_formats_of_long` — only a string can be longer, and one that is reached
  moves the formatter out of its buffer.
* `osVsnprintf_exact` — so the condition is exact.

## Why a long string is not merely cut off

The case `'s'` copies with the room as its bound, so the copy itself stays in
the buffer.  But `n`, the length as an `int`, is negative, the test `n >
buflen` does not catch it, and `buf` moves back by what is missing to 2³².
Wherever it is then, something is stored there, if only the terminator
(`Printf.loop_stores`), and that place is below the buffer.

The strings and the buffer lie in one address space, which is the hypothesis
`hspace`: it is what makes a place below the buffer different from every place
inside of it.
-/

namespace CourseOs

open Numerals

variable {p : Piece} {ps qs rs : List Piece} {s s' t : Printf} {rest bs : List UInt8}
  {args : ℕ → Argument} {room buf buflen r : ℤ} {m : ByteMemory} {o' : Stores} {a : Argument}

/-- The bytes that a text should come to in a buffer: as many as fit with a
terminator, and none in a buffer without room. -/
def stored (text : List UInt8) (buflen : ℤ) : List UInt8 :=
  if buflen = 0 then [] else text.take (buflen - 1).toNat ++ [0]

/-- What is asked of a run from the memory `m`: the text is in the buffer as
far as it fits, with a terminator; the rest of the memory is as it was; all
stores were in the buffer; and the number of bytes, the terminator counted, is
returned. -/
structure Formats (m : ByteMemory) (o' : Stores) (buf buflen : ℤ) (text : List UInt8) (r : ℤ) :
    Prop where
  count : r = (stored text buflen).length
  bytes : ∀ i (h : i < (stored text buflen).length),
    o'.mem (address (buf + i)) = (stored text buflen)[i]
  unchanged : ∀ a, (∀ i < (stored text buflen).length, a ≠ address (buf + i)) → o'.mem a = m a
  inside : ∀ a ∈ o'.written, ∃ i : ℕ, i < buflen ∧ a = address (buf + i)

/-- The bytes before the terminator, and the terminator, where there is room
for it: one less than the length of the buffer, and the byte behind these. -/
theorem Formats.of_puts {o : Stores} {text : List UInt8} (hlong : 0 < buflen)
    (hmax : buflen < 2 ^ 31) (h : Puts ⟨m, []⟩ o buf (text.take (buflen - 1).toNat)) :
    Formats m (o.store (buf + (text.take (buflen - 1).toNat).length) 0) buf buflen text
      ((text.take (buflen - 1).toNat).length + 1) := by
  have hstored : stored text buflen = text.take (buflen - 1).toNat ++ [0] := if_neg hlong.ne'
  have htake := List.length_take_le (buflen - 1).toNat text
  generalize text.take (buflen - 1).toNat = bs at h hstored htake ⊢
  have hlength : (stored text buflen).length = bs.length + 1 := by
    rw [hstored, List.length_append, List.length_singleton]
  constructor
  · rw [hlength]
    push_cast
    rfl
  · intro i hi
    simp only [hstored]
    by_cases hib : i < bs.length
    · rw [List.getElem_append_left hib, ← h.bytes i hib]
      refine ByteMemory.writeByte_apply_of_ne ?_
      rw [ne_eq, address_inj (by omega) (by omega)]
      exact hib.ne
    · obtain rfl : i = bs.length := by omega
      rw [List.getElem_concat_length rfl]
      exact Stores.store_apply_self _ _ _
  · intro a ha
    rw [hlength] at ha
    have hlast : a ≠ address (buf + bs.length) := ha _ (Nat.lt_succ_self _)
    have hsame : (o.store (buf + bs.length) 0).mem a = o.mem a :=
      ByteMemory.writeByte_apply_of_ne hlast
    rw [hsame]
    exact h.frame a fun i hi => ha i (Nat.lt_succ_of_le hi)
  · intro a ha
    obtain ⟨l, hl, hinside, -⟩ := h.stored
    rcases List.mem_append.mp ha with ha | ha
    · rw [hl] at ha
      obtain ⟨i, hi, heq⟩ := hinside a ha
      exact ⟨i, by omega, heq⟩
    · exact ⟨bs.length, by omega, List.mem_singleton.mp ha⟩

/-! ### Short renderings

As long as the length of a rendering is an `int`, the three variables that
count bytes agree with each other: `buf` has moved by what was printed, and
`buflen` is what is left.  The room may be used up in the middle of a piece,
and then no further piece is reached. -/

theorem short_of_forall (hroom : 0 < room)
    (h : ∀ qs p rs, ps = qs ++ p :: rs → (rendering sourceWidth qs args).length < room →
      (p.shown (laterAll qs args 0)).length < 2 ^ 31) : Short ps args room := by
  induction ps generalizing args room with
  | nil => trivial
  | cons p ps ih =>
      refine ⟨h [] p ps rfl hroom, fun hlen => ih (sub_pos.mpr hlen) ?_⟩
      rintro qs q rs rfl hqs
      refine h (p :: qs) q rs rfl ?_
      have hrender : rendering sourceWidth (p :: qs) args =
          p.shown (args 0) ++ rendering sourceWidth qs (p.later args) := rfl
      rw [hrender, List.length_append]
      push_cast
      omega

/-- Pieces that fit have short renderings, all of them. -/
theorem short_of_fits (hroom : room < 2 ^ 31)
    (h : (rendering sourceWidth ps args).length < room) : Short ps args room := by
  induction ps generalizing args room with
  | nil => trivial
  | cons p ps ih =>
      have hrender : rendering sourceWidth (p :: ps) args =
          p.shown (args 0) ++ rendering sourceWidth ps (p.later args) := rfl
      rw [hrender, List.length_append] at h
      push_cast at h
      exact ⟨by omega, fun _ => ih (by omega) (by omega)⟩

/-- The main loop prints short renderings, as far as there is room.  By
induction on the pieces, with a round for each. -/
theorem loop_formats (m : ByteMemory) (buf : ℤ) (hlong : 1 < buflen) (hmax : buflen < 2 ^ 31)
    (hps : ∀ p ∈ ps, p.WellFormed) (hshort : Short ps args (buflen - 1)) :
    ∃ t, Printf.loop (textOf ps ++ [0]).length
        (Printf.start ⟨m, []⟩ buf (buflen - 1) (textOf ps ++ [0]) args) = .ok t ∧
      Printf.Wrote (Printf.start ⟨m, []⟩ buf (buflen - 1) (textOf ps ++ [0]) args) t
        ((rendering sourceWidth ps args).take (buflen - 1).toNat) := by
  obtain ⟨k, hk⟩ := exists_rounds ps (l := [0]) le_rfl
  have hsum : (0 : ℤ) + (buflen - 1) < 2 ^ 31 := by omega
  obtain ⟨hend, hpass⟩ := Printf.loop_short hps
    (Printf.ready_start hlong hmax ⟨m, []⟩ buf (textOf ps ++ [0]) args) le_rfl hsum hshort rfl
  rw [hk]
  by_cases hfull : buflen - 1 ≤ (rendering sourceWidth ps args).length
  · exact hend hfull _
  · obtain ⟨s', -, hstr', -, -, hwrote, hrun⟩ := hpass (not_le.mp hfull)
    refine ⟨s', (hrun _).trans (Printf.loop_at_end hstr' k), ?_⟩
    rw [List.take_of_length_le (by omega)]
    exact hwrote

/-- **Short renderings are printed** as they should, for any size of the
buffer.  With a size of 1 only the terminator is stored, and with 0 nothing. -/
theorem formats_of_short (m : ByteMemory) (buf : ℤ) (h0 : 0 ≤ buflen) (hmax : buflen < 2 ^ 31)
    (hps : ∀ p ∈ ps, p.WellFormed) (hshort : 1 < buflen → Short ps args (buflen - 1)) :
    ∃ o' r, osVsnprintf ⟨m, []⟩ buf buflen (textOf ps ++ [0]) args = .ok (o', r) ∧
      Formats m o' buf buflen (rendering sourceWidth ps args) r := by
  by_cases hlong : 1 < buflen
  · obtain ⟨t, hrun, hwrote⟩ := loop_formats m buf hlong hmax hps (hshort hlong)
    have htake := List.length_take_le (buflen - 1).toNat (rendering sourceWidth ps args)
    have hcount : int32 (t.nwritten + 1) =
        ((rendering sourceWidth ps args).take (buflen - 1).toNat).length + 1 := by
      have hn : t.nwritten = 0 + _ := hwrote.nwritten
      rw [hn, zero_add, int32_of_isInt32 ⟨by omega, by omega⟩]
    have hbuf : t.buf = buf + _ := hwrote.buf
    refine ⟨_, _, ?_, Formats.of_puts (by omega) hmax hwrote.puts⟩
    rw [osVsnprintf_of_long hlong hmax, hrun, ← hcount]
    show Except.ok (t.out.store t.buf 0, _) = _
    rw [hbuf]
  · by_cases hzero : buflen = 0
    · subst hzero
      exact ⟨_, 0, rfl, rfl, fun i hi => absurd hi (Nat.not_lt_zero i), fun _ _ => rfl,
        fun a ha => absurd ha List.not_mem_nil⟩
    · obtain rfl : buflen = 1 := by omega
      have hformats : Formats m (Stores.store ⟨m, []⟩ (buf + (0 : ℕ)) 0) buf 1
          (rendering sourceWidth ps args) ((0 : ℕ) + 1) :=
        Formats.of_puts one_pos (by norm_num) (Puts.nil _ _)
      rw [Nat.cast_zero, add_zero, zero_add] at hformats
      exact ⟨_, 1, rfl, hformats⟩

/-! ### Strings whose length is no `int`

`n` is negative for such a string, so that `buf` moves backward and `buflen`
grows.  One stray store is enough to miss what is asked for, and there is
always one: of the next byte of the text, or of the terminator. -/

/-- A piece with an empty rendering moves nothing. -/
theorem Printf.Passed.still (h : Printf.Passed p s s') (hready : s.Ready)
    (hnil : p.shown (s.args 0) = []) : s'.buf = s.buf ∧ s'.buflen = s.buflen := by
  have hpos := hready.pos
  have hmax := hready.max
  have hzero : min (int32 (p.shown (s.args 0)).length) s.buflen = 0 := by
    rw [hnil, List.length_nil, Nat.cast_zero, int32_zero, min_eq_left hpos.le]
  refine ⟨?_, ?_⟩
  · rw [h.buf, hzero, add_zero]
  · rw [h.buflen, hzero, sub_zero, int32_of_isInt32 ⟨by omega, hmax⟩]

/-- Wherever `buf` is between two rounds, something is stored there: the next
byte of the text, or the terminator at the end. -/
theorem Printf.loop_stores (hps : ∀ p ∈ ps, p.WellFormed) (hready : s.Ready)
    (hstr : s.strBuf = textOf ps ++ [0]) {fuel : ℕ} (hrun : Printf.loop fuel s = .ok t) :
    address s.buf ∈ (t.out.store t.buf 0).written ∧ ∀ a ∈ s.out.written, a ∈ t.out.written := by
  induction ps generalizing s fuel with
  | nil =>
      cases fuel with
      | zero => cases hrun
      | succ fuel =>
          rw [Printf.loop_at_end hstr] at hrun
          cases hrun
          exact ⟨Stores.mem_written_store _ _ _, fun _ ha => ha⟩
  | cons p ps ih =>
      cases fuel with
      | zero => cases hrun
      | succ fuel =>
          obtain ⟨hp, hps⟩ := List.forall_mem_cons.mp hps
          rw [textOf_cons, List.append_assoc] at hstr
          obtain ⟨s₁, hpassed, hrest, hloop⟩ :=
            Printf.loop_piece hp.readable hp.first_ne_zero hready hstr
          rw [hloop] at hrun
          have hkept : ∀ a ∈ s₁.out.written, a ∈ t.out.written := by
            by_cases hfull : s₁.buflen ≤ 0
            · rw [if_pos hfull] at hrun
              cases hrun
              exact fun _ ha => ha
            · rw [if_neg hfull] at hrun
              exact (ih hps (hpassed.ready (not_le.mp hfull)) hrest hrun).2
          refine ⟨?_, fun a ha => hkept a (hpassed.puts.written_subset ha)⟩
          by_cases hnil : p.shown (s.args 0) = []
          · obtain ⟨hbuf, hbuflen⟩ := hpassed.still hready hnil
            have hsome : 0 < s₁.buflen := by
              rw [hbuflen]
              exact hready.pos
            rw [if_neg (not_le.mpr hsome)] at hrun
            rw [← hbuf]
            exact (ih hps (hpassed.ready hsome) hrest hrun).1
          · have hpos := hready.pos
            have hne : (p.shown (s.args 0)).take s.buflen.toNat ≠ [] := by
              rw [ne_eq, List.take_eq_nil_iff]
              rintro (h | h)
              · omega
              · exact hnil h
            exact List.mem_append_left _ (hkept _ (hpassed.puts.mem_written hne))

theorem textOf_append (ps qs : List Piece) : textOf (ps ++ qs) = textOf ps ++ textOf qs :=
  List.flatMap_append

/-- **A string of 2³¹ bytes or more** that is reached moves `buf` out of the
buffer, and what comes next is stored there. -/
theorem not_formats_of_long {text : List UInt8} (hmax : buflen < 2 ^ 31)
    (hps : ∀ q ∈ qs ++ p :: rs, q.WellFormed)
    (hreached : (rendering sourceWidth qs args).length < buflen - 1)
    (hlong : 2 ^ 31 ≤ (p.shown (laterAll qs args 0)).length)
    (hspace : (p.shown (laterAll qs args 0)).length + 1 + buflen ≤ 2 ^ 32) :
    ¬∃ o' r, osVsnprintf ⟨m, []⟩ buf buflen (textOf (qs ++ p :: rs) ++ [0]) args = .ok (o', r) ∧
      Formats m o' buf buflen text r := by
  have hroom : 1 < buflen := by omega
  have hneg := int32_natCast_of_le hlong (by omega)
  rintro ⟨o', r, hrun, hformats⟩
  obtain ⟨hqs, hrest⟩ := List.forall_mem_append.mp hps
  obtain ⟨hp, hrs⟩ := List.forall_mem_cons.mp hrest
  have htext : textOf (qs ++ p :: rs) ++ [0] = textOf qs ++ (p.text ++ (textOf rs ++ [0])) := by
    rw [textOf_append, textOf_cons, List.append_assoc, List.append_assoc]
  rw [htext, osVsnprintf_of_long hroom hmax] at hrun
  obtain ⟨t, hloop, hret⟩ := Exec.bind_eq_ok.mp hrun
  cases hret
  -- the pieces before the string are printed
  have hsum : (0 : ℤ) + (buflen - 1) < 2 ^ 31 := by omega
  have hshort : Short qs args (buflen - 1) := short_of_fits (by omega) hreached
  obtain ⟨s', hready, hstr, hargs, -, hwrote, hpass⟩ := (Printf.loop_short hqs
    (Printf.ready_start hroom hmax ⟨m, []⟩ buf (textOf qs ++ (p.text ++ (textOf rs ++ [0]))) args)
    le_rfl hsum hshort rfl).2 hreached
  change s'.args = laterAll qs args at hargs
  obtain ⟨s₁, hpassed, hend, hstep⟩ :=
    Printf.loop_piece hp.readable hp.first_ne_zero hready hstr
  have hbehind : 1 ≤ (p.text ++ (textOf rs ++ [0])).length :=
    List.length_pos_of_ne_nil (List.append_ne_nil_of_right_ne_nil _
      (List.append_ne_nil_of_right_ne_nil _ (List.cons_ne_nil _ _)))
  obtain ⟨k, hk⟩ := exists_rounds qs hbehind
  rw [hk, hpass, hstep] at hloop
  have hstored : address s₁.buf ∈ (t.out.store t.buf 0).written := by
    by_cases hfull : s₁.buflen ≤ 0
    · rw [if_pos hfull] at hloop
      cases hloop
      exact Stores.mem_written_store _ _ _
    · rw [if_neg hfull] at hloop
      exact (Printf.loop_stores hrs (hpassed.ready (not_le.mp hfull)) hend hloop).1
  obtain ⟨i, hi, heq⟩ := hformats.inside _ hstored
  -- where the next byte goes
  have hbuf : s₁.buf = buf + (rendering sourceWidth qs args).length +
      ((p.shown (laterAll qs args 0)).length - 2 ^ 32) := by
    have hs' : s'.buf = buf + _ := hwrote.buf
    have hpos := hready.pos
    rw [hpassed.buf, hargs, hneg, min_eq_left (by omega), hs']
    rfl
  rw [hbuf] at heq
  unfold address at heq
  omega

/-! ### The reference

The condition so far is about the widths and renderings the source computes.
Here it is brought into the terms of the reference: only a string argument can
have a rendering that long, and a width below 2³¹ is read as it is. -/

/-- A width below 2³¹ is read as it is. -/
theorem sourceWidth_eq (hp : p.Readable) (hwidth : p.width < 2 ^ 31) : sourceWidth p = p.width := by
  have hnone : ((-1 : ℤ)).toNat = 0 := rfl
  cases p with
  | literal c => exact hnone
  | directive width c =>
      cases width with
      | none => exact hnone
      | some ds =>
          have hvalue : 0 ≤ value ds := readFrom_nonneg le_rfl hp.2
          change (value ds).toNat < 2 ^ 31 at hwidth
          show (int32 (value ds)).toNat = (value ds).toNat
          rw [int32_of_isInt32 ⟨by omega, by omega⟩]

theorem rendering_congr {w w' : Piece → ℕ} (h : ∀ p ∈ ps, w p = w' p)
    (args : ℕ → Argument) :
    rendering w ps args = rendering w' ps args := by
  induction ps generalizing args with
  | nil => rfl
  | cons p ps ih =>
      obtain ⟨hp, hps⟩ := List.forall_mem_cons.mp h
      rw [rendering, rendering, hp, ih hps _]

/-- The arguments some pieces leave are the later ones. -/
theorem exists_laterAll (ps : List Piece) (args : ℕ → Argument) :
    ∃ i, laterAll ps args 0 = args i := by
  suffices h : ∃ k, ∀ i, laterAll ps args i = args (i + k) from
    h.elim fun k hk => ⟨0 + k, hk 0⟩
  induction ps generalizing args with
  | nil => exact ⟨0, fun _ => rfl⟩
  | cons p ps ih =>
      obtain ⟨k, hk⟩ := ih (p.later args)
      have hnext : ∃ j, ∀ i, p.later args i = args (i + j) := by
        cases p with
        | literal c => exact ⟨0, fun _ => rfl⟩
        | directive width c =>
            show ∃ j, ∀ i, (if (conversion c).takes then fun i => args (i + 1) else args) i = _
            split
            · exact ⟨1, fun _ => rfl⟩
            · exact ⟨0, fun _ => rfl⟩
      obtain ⟨j, hj⟩ := hnext
      exact ⟨k + j, fun i => (hk i).trans ((hj _).trans (by rw [add_assoc]))⟩

/-- Only a string is as long as that.  A number has the digits of a word at
most, padded to a width below 2^31, and everything else is one byte. -/
theorem render_short_or_string {w : ℕ} (hw : w < 2 ^ 31) (p : Piece) (a : Argument) :
    (p.render w a).length < 2 ^ 31 ∨ p.render w a = a.string := by
  have hpadded : ∀ (negative : Bool) (x : UInt8) (base n : ℕ), 2 ≤ base → n < 2 ^ 64 →
      (padded negative (digitsOf x base n) w).length < 2 ^ 31 := by
    intro negative x base n hbase hn
    have hdigits := digitsOf_length_le x hbase hn
    rw [padded_length]
    split <;> omega
  have hword : (a.word % 2 ^ 32).toNat < 2 ^ 64 := by omega
  have habs : a.word.natAbs < 2 ^ 64 := by
    have := a.isInt32
    unfold IsInt32 at this
    omega
  cases p with
  | literal c => exact .inl (by norm_num [Piece.render])
  | directive width c =>
      show ((conversion c).render w a).length < 2 ^ 31 ∨ (conversion c).render w a = a.string
      cases conversion c with
      | upperHex => exact .inl (hpadded _ _ _ _ (by decide) hword)
      | lowerHex => exact .inl (hpadded _ _ _ _ (by decide) hword)
      | signed => exact .inl (hpadded _ _ _ _ (by decide) habs)
      | unsigned => exact .inl (hpadded _ _ _ _ (by decide) hword)
      | char => exact .inl (by norm_num [Conversion.render])
      | string => exact .inr rfl
      | percent => exact .inl (by norm_num [Conversion.render])
      | unknown => exact .inl (by norm_num [Conversion.render])

/-- **`os_vsnprintf`** does what is asked of it exactly where every piece that
is reached before the buffer is full has a rendering of fewer than 2³¹ bytes.
The strings and the buffer lie in one address space. -/
theorem osVsnprintf_exact (m : ByteMemory) (buf : ℤ) {buflen : ℤ} (h0 : 0 ≤ buflen)
    (hmax : buflen < 2 ^ 31) {ps : List Piece} (hps : ∀ p ∈ ps, p.WellFormed)
    (hwidth : ∀ p ∈ ps, p.width < 2 ^ 31) {args : ℕ → Argument}
    (hspace : ∀ i, (args i).string.length + 1 + buflen ≤ 2 ^ 32) :
    (∃ o' r, osVsnprintf ⟨m, []⟩ buf buflen (textOf ps ++ [0]) args = .ok (o', r) ∧
        Formats m o' buf buflen (rendering Piece.width ps args) r) ↔
      ∀ qs p rs, ps = qs ++ p :: rs → (rendering Piece.width qs args).length < buflen - 1 →
        (p.render p.width (laterAll qs args 0)).length < 2 ^ 31 := by
  have hsource : ∀ p ∈ ps, sourceWidth p = p.width :=
    fun p hp => sourceWidth_eq (hps p hp).readable (hwidth p hp)
  have hsplit : ∀ qs p rs, ps = qs ++ p :: rs →
      rendering Piece.width qs args = rendering sourceWidth qs args ∧
        p.render p.width (laterAll qs args 0) = p.shown (laterAll qs args 0) := by
    rintro qs p rs rfl
    have hqs := rendering_congr (fun q hq => hsource q (List.mem_append_left _ hq)) args
    have hp := hsource p (List.mem_append_right _ List.mem_cons_self)
    exact ⟨hqs.symm, by rw [← hp]; rfl⟩
  constructor
  · intro hformats qs p rs heq hreached
    by_contra hlong
    obtain ⟨hqs, hp⟩ := hsplit qs p rs heq
    have hwidthp := hwidth p (heq ▸ List.mem_append_right _ List.mem_cons_self)
    have hstring := (render_short_or_string hwidthp p (laterAll qs args 0)).resolve_left hlong
    obtain ⟨i, hi⟩ := exists_laterAll qs args
    have hspacep := hspace i
    subst heq
    refine not_formats_of_long hmax hps (by rw [← hqs]; exact hreached) ?_ ?_ hformats
    · rw [← hp]
      exact not_lt.mp hlong
    · rw [← hp, hstring, hi]
      exact hspacep
  · intro hshort
    rw [← rendering_congr hsource args]
    refine formats_of_short m buf h0 hmax hps fun hlong => short_of_forall (by omega) ?_
    intro qs p rs heq hreached
    obtain ⟨hqs, hp⟩ := hsplit qs p rs heq
    rw [← hp]
    exact hshort qs p rs heq (by rw [hqs]; exact hreached)

/-- "a%05d" into 16 bytes.  The condition is that no piece that comes into the
buffer is 2³¹ bytes long. -/
theorem osVsnprintf_exact_d :
    (∃ o' r, osVsnprintf ⟨⟨fun _ => 0⟩, []⟩ 0x8000 16
        (textOf [.literal 0x61, .directive (some [0x35]) 0x64] ++ [0]) (fun _ => noArgument) =
          .ok (o', r) ∧
        Formats ⟨fun _ => 0⟩ o' 0x8000 16 (rendering Piece.width
          [.literal 0x61, .directive (some [0x35]) 0x64] fun _ => noArgument) r) ↔
      ∀ qs p rs, [.literal 0x61, .directive (some [0x35]) 0x64] = qs ++ p :: rs →
        (rendering Piece.width qs fun _ => noArgument).length < (16 : ℤ) - 1 →
        (p.render p.width (laterAll qs (fun _ => noArgument) 0)).length < 2 ^ 31 := by
  have hspace : ((noArgument.string.length : ℕ) : ℤ) + 1 + 16 ≤ 2 ^ 32 := by norm_num [noArgument]
  refine osVsnprintf_exact _ _ (by norm_num) (by norm_num) ?_ ?_ fun _ => hspace
  · rintro p (_ | ⟨_, _ | ⟨_, hp⟩⟩)
    · exact ⟨show (0x61 : UInt8) ≠ 0x25 by decide, by decide⟩
    · exact ⟨⟨by decide, List.forall_mem_singleton.mpr (by decide)⟩,
        show (0x64 : UInt8) ≠ 0 by decide⟩
    · cases hp
  · decide

/-- A string of 2³¹ + 16 bytes.  It fits in the address space, and its length
taken as an `int` is negative. -/
def longArgument : Argument where
  word := 0
  string := List.replicate (2 ^ 31 + 16) 0x61
  isInt32 := noArgument.isInt32
  terminated h := absurd (List.eq_of_mem_replicate h) (by decide)
  fits := by
    rw [List.length_replicate]
    norm_num

/-- "%s" for a string whose length is no `int`.  The routine takes it for a
negative one, and the terminator comes to lie in front of the buffer. -/
theorem string_strays (m : ByteMemory) (buf : ℤ) (hroom : 1 < buflen) (hmax : buflen < 2 ^ 31)
    (hlong : 2 ^ 31 ≤ a.string.length) (hspace : a.string.length + 1 + buflen ≤ 2 ^ 32) :
    ¬∃ o' r, osVsnprintf ⟨m, []⟩ buf buflen (textOf [.directive none 0x73] ++ [0])
        (fun _ => a) = .ok (o', r) ∧
      Formats m o' buf buflen (rendering Piece.width [.directive none 0x73] fun _ => a) r := by
  have hps : ∀ q ∈ [] ++ Piece.directive none 0x73 :: [], q.WellFormed := by
    intro q hq
    obtain rfl := List.mem_singleton.mp hq
    exact ⟨show (0x73 : UInt8) ≠ 0x30 by decide, by decide⟩
  have hreached : ((rendering sourceWidth [] fun _ => a).length : ℤ) < buflen - 1 := by
    show ((0 : ℕ) : ℤ) < buflen - 1
    omega
  exact not_formats_of_long hmax hps hreached hlong hspace

/-- "%s" into 16 bytes, for 2³¹ + 16 of them, which fit in the address space
beside the buffer. -/
theorem osVsnprintf_strays :
    ¬∃ o' r, osVsnprintf ⟨⟨fun _ => 0⟩, []⟩ 0x8000 16 (textOf [.directive none 0x73] ++ [0])
        (fun _ => longArgument) = .ok (o', r) ∧
      Formats ⟨fun _ => 0⟩ o' 0x8000 16
        (rendering Piece.width [.directive none 0x73] fun _ => longArgument) r := by
  have hlength : longArgument.string.length = 2 ^ 31 + 16 := List.length_replicate
  refine string_strays ⟨fun _ => 0⟩ 0x8000 (by norm_num) (by norm_num) ?_ ?_
  · rw [hlength]
    norm_num
  · rw [hlength]
    norm_num

end CourseOs
