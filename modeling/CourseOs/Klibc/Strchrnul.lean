import CourseOs.Lib.CString
import CourseOs.Lib.Scan
import CourseOs.Lib.Swar
import CourseOs.Machine

/-!
# Searching a string by words

`__strchrnul` of `klibc/klibc.c`.  Up to the first aligned address the string
is searched byte by byte, from there on by words of four bytes, with
`HASZERO`, and in the word that has the byte again by bytes.  A search is a
`Scan` of memory, so that its reads can be told.

## Main results

* `haszero_eq`, `haszero_getWord`, `haszero_getWord_xor` — the macro is the
  test of `Swar.hasZero` for four bytes, and says of a word of memory whether
  a byte of it is the terminator, or the byte searched for.
* `Stops.alignScan`, `Stops.wordScan`, `Stops.byteScan` — the three loops,
  each for a search that is to end at `e`.
* `strchrnul_exact` — the result is that of the search by bytes, and nothing
  is read in front of the string or behind the word in which the search ends.

The last word may reach behind the string's terminator.  An aligned word lies
in one page, so that this is harmless on the board, and the theorem bounds the
reads by exactly that word instead of by the string.

A string does not wrap around the end of the address space, and neither do the
pointers into it; the loops have more rounds than there are words or bytes to
look at, so running out of them does not happen (`hfuel` in each of the
three).
-/

namespace CourseOs

/-- `ONES`: a word with 1 in every byte. -/
def ones : ℕ := (2 ^ 32 - 1) / 0xff

/-- `HIGHS`: a word with the top bit of every byte. -/
def highs : ℕ := ones * (0xff / 2 + 1)

/-- `HASZERO`, of a word: not zero when one of its bytes is. -/
def haszero (x : ℕ) : ℕ := sub32 x ones &&& (2 ^ 32 - 1 - x) &&& highs

/-- `*w`: four bytes are read, the least significant first. -/
def getWord (w : ℕ) : Scan UInt8 ℕ := do
  let bytes ← Scan.getRange w 4
  pure (Swar.ofBytes bytes)

/-- The loop up to an aligned address: where it found the byte or the
terminator, or the aligned address. -/
def alignScan (c : UInt8) : ℕ → ℕ → Scan UInt8 (ℕ ⊕ ℕ)
  | 0, s => pure (.inr s)
  | fuel + 1, s =>
      if s % 4 = 0 then pure (.inr s)
      else do
        let b ← Scan.get s
        if b = 0 then pure (.inl s)
        else do
          let b ← Scan.get s
          if b = c then pure (.inl s) else alignScan c fuel (s + 1)

/-- The loop over words.  A word is read twice in a turn, once for the
terminator and once for the byte. -/
def wordScan (k : ℕ) : ℕ → ℕ → Scan UInt8 (Option ℕ)
  | 0, _ => pure none
  | fuel + 1, w => do
      let x ← getWord w
      if haszero x ≠ 0 then pure (some w)
      else do
        let x ← getWord w
        if haszero (x ^^^ k) ≠ 0 then pure (some w) else wordScan k fuel (w + 4)

/-- The loop over the bytes of the last word, which has the byte or the
terminator. -/
def byteScan (c : UInt8) : ℕ → ℕ → Scan UInt8 (Option ℕ)
  | 0, _ => pure none
  | fuel + 1, s => do
      let b ← Scan.get s
      if b = 0 then pure (some s)
      else do
        let b ← Scan.get s
        if b = c then pure (some s) else byteScan c fuel (s + 1)

/-- `strlen`, of a string in memory.  It is used where the byte searched for
is the terminator. -/
def strlenScan (str : ℕ) : ℕ → ℕ → Scan UInt8 (Option ℕ)
  | 0, _ => pure none
  | fuel + 1, i => do
      let b ← Scan.get (str + i)
      if b = 0 then pure (some i) else strlenScan str fuel (i + 1)

/-- `__strchrnul`.  For the terminator it is `strlen`; otherwise three loops
follow one another, each of which may be the last. -/
def strchrnul (s : ℕ) (c : UInt8) : Scan UInt8 (Option ℕ) :=
  if c = 0 then do
    let n ← strlenScan s (2 ^ 32) 0
    pure (n.map (s + ·))
  else do
    let found ← alignScan c 4 s
    match found with
    | .inl s => pure (some s)
    | .inr s => do
        let k := ones * c.toNat % 2 ^ 32
        let w ← wordScan k (2 ^ 30) s
        match w with
        | none => pure none
        | some w => byteScan c (2 ^ 32) w

variable {m : ℕ → UInt8} {s e w fuel i : ℕ} {b c : UInt8} {text : List UInt8} {R : ℕ → Prop}

/-! ### Words

`HASZERO` of a word and of its difference with a repeated byte, as facts about
the four bytes of a word.  The arithmetic of the macro is in the library; here
it is applied to what `getWord` reads. -/

theorem haszero_eq (x : ℕ) : haszero x = Swar.hasZero 4 x := rfl

theorem run_getWord (w : ℕ) :
    (getWord w).run m = Swar.ofBytes [m w, m (w + 1), m (w + 2), m (w + 3)] := by
  unfold getWord
  rw [Scan.run_bind, Scan.run_pure, Scan.run_getRange]
  rfl

theorem reads_getWord (w : ℕ) : (getWord w).reads m = [w, w + 1, w + 2, w + 3] := by
  unfold getWord
  rw [Scan.reads_bind, Scan.reads_pure, Scan.reads_getRange, List.append_nil]
  rfl

theorem mem_word : b ∈ [m w, m (w + 1), m (w + 2), m (w + 3)] ↔
    ∃ x, w ≤ x ∧ x < w + 4 ∧ m x = b := by
  simp only [List.mem_cons, List.not_mem_nil, or_false]
  constructor
  · rintro (rfl | rfl | rfl | rfl)
    · exact ⟨w, by omega, by omega, rfl⟩
    · exact ⟨w + 1, by omega, by omega, rfl⟩
    · exact ⟨w + 2, by omega, by omega, rfl⟩
    · exact ⟨w + 3, by omega, by omega, rfl⟩
  · rintro ⟨x, hlo, hhi, rfl⟩
    obtain rfl | rfl | rfl | rfl : x = w ∨ x = w + 1 ∨ x = w + 2 ∨ x = w + 3 := by omega
    · exact .inl rfl
    · exact .inr (.inl rfl)
    · exact .inr (.inr (.inl rfl))
    · exact .inr (.inr (.inr rfl))

/-- The word has a terminator. -/
theorem haszero_getWord : haszero ((getWord w).run m) ≠ 0 ↔
    ∃ x, w ≤ x ∧ x < w + 4 ∧ m x = 0 := by
  rw [run_getWord, haszero_eq, ← mem_word]
  exact Swar.hasZero_iff [m w, m (w + 1), m (w + 2), m (w + 3)]

/-- The word has a byte `c`. -/
theorem haszero_getWord_xor : haszero ((getWord w).run m ^^^ ones * c.toNat % 2 ^ 32) ≠ 0 ↔
    ∃ x, w ≤ x ∧ x < w + 4 ∧ m x = c := by
  have hc := c.toNat_lt
  have hones : ones * c.toNat % 2 ^ 32 = Swar.ones 4 * c.toNat := by
    show 16843009 * c.toNat % 2 ^ 32 = 16843009 * c.toNat
    omega
  rw [run_getWord, haszero_eq, hones, ← mem_word]
  exact Swar.hasZero_xor_iff [m w, m (w + 1), m (w + 2), m (w + 3)] c

theorem within_getWord (h : ∀ x, w ≤ x → x < w + 4 → R x) : (getWord w).Within R m := by
  intro x hx
  rw [reads_getWord] at hx
  simp only [List.mem_cons, List.not_mem_nil, or_false] at hx
  exact h x (by omega) (by omega)

/-! ### The loops

Each loop is given the place at which the search has to end, and is shown to
come to it, or to stop before it at an address from which the next loop goes
on.  What is read is part of each statement. -/

/-- The first byte from `s` on that is `c` or a terminator is at `e`.  The
three loops of the search are stated for the place where it is to end. -/
structure Stops (m : ℕ → UInt8) (c : UInt8) (s e : ℕ) : Prop where
  le : s ≤ e
  passed : ∀ x, s ≤ x → x < e → m x ≠ 0 ∧ m x ≠ c
  found : m e = 0 ∨ m e = c

namespace Stops

theorem of_le (h : Stops m c s e) (hs : s ≤ i) (hi : i ≤ e) : Stops m c i e where
  le := hi
  passed x hx := h.passed x (hs.trans hx)
  found := h.found

theorem eq_of_stop (h : Stops m c s e) (hs : m s = 0 ∨ m s = c) : s = e := by
  by_contra hne
  obtain ⟨h0, hc⟩ := h.passed s (Nat.le_refl s) (lt_of_le_of_ne h.le hne)
  exact hs.elim h0 hc

theorem succ_le (h : Stops m c s e) (h0 : m s ≠ 0) (hc : m s ≠ c) : s + 1 ≤ e := by
  refine lt_of_le_of_ne h.le ?_
  rintro rfl
  exact h.found.elim h0 hc

/-- The loop to the first aligned address: it has found the end, or it is at a
multiple of 4 and has passed nothing.  It reads no further than the end. -/
theorem alignScan (h : Stops m c s e) (hfuel : (4 - s % 4) % 4 < fuel) :
    ((alignScan c fuel s).run m = .inl e ∨
      ∃ i, (alignScan c fuel s).run m = .inr i ∧ i % 4 = 0 ∧ s ≤ i ∧ i ≤ e) ∧
    (alignScan c fuel s).Within (fun x => s ≤ x ∧ x ≤ e) m := by
  induction fuel generalizing s with
  | zero => exact absurd hfuel (Nat.not_lt_zero _)
  | succ fuel ih =>
      rw [CourseOs.alignScan]
      by_cases halign : s % 4 = 0
      · rw [if_pos halign]
        exact ⟨.inr ⟨s, rfl, halign, Nat.le_refl s, h.le⟩, Scan.within_pure _⟩
      rw [if_neg halign]
      have hself : s ≤ s ∧ s ≤ e := ⟨Nat.le_refl s, h.le⟩
      rw [Scan.run_bind, Scan.within_bind, Scan.within_get, Scan.run_get]
      by_cases h0 : m s = 0
      · rw [if_pos h0]
        exact ⟨.inl (congrArg Sum.inl (h.eq_of_stop (.inl h0))), hself, Scan.within_pure _⟩
      rw [if_neg h0, Scan.run_bind, Scan.within_bind, Scan.within_get, Scan.run_get]
      by_cases hc : m s = c
      · rw [if_pos hc]
        exact ⟨.inl (congrArg Sum.inl (h.eq_of_stop (.inr hc))), hself, hself, Scan.within_pure _⟩
      rw [if_neg hc]
      obtain ⟨hrun, hreads⟩ := ih (h.of_le (Nat.le_succ s) (h.succ_le h0 hc))
        (show (4 - (s + 1) % 4) % 4 < fuel by omega)
      refine ⟨hrun.imp_right ?_, hself, hself, fun x hx => ?_⟩
      · rintro ⟨i, hi, hmod, hle, hle'⟩
        exact ⟨i, hi, hmod, by omega, hle'⟩
      · have := hreads x hx
        exact ⟨by omega, this.2⟩

/-- **The loop over words** ends at the word that has the byte or the
terminator.  It reads whole words, and none behind that one. -/
theorem wordScan (h : Stops m c w e) (halign : w % 4 = 0) (hfuel : e / 4 < w / 4 + fuel) :
    (wordScan (ones * c.toNat % 2 ^ 32) fuel w).run m = some (4 * (e / 4)) ∧
    (wordScan (ones * c.toNat % 2 ^ 32) fuel w).Within
      (fun x => w ≤ x ∧ x < 4 * (e / 4) + 4) m := by
  induction fuel generalizing w with
  | zero =>
      have := h.le
      omega
  | succ fuel ih =>
      have hle := h.le
      have hword : (getWord w).Within (fun x => w ≤ x ∧ x < 4 * (e / 4) + 4) m :=
        within_getWord fun x hx hx' => ⟨hx, by omega⟩
      -- a stop in this word is the one at `e`
      have hhere : ∀ x, w ≤ x → x < w + 4 → m x = 0 ∨ m x = c → w = 4 * (e / 4) := by
        intro x hx hx' hstop
        by_contra hne
        obtain ⟨h0, hc⟩ := h.passed x hx (by omega)
        exact hstop.elim h0 hc
      rw [CourseOs.wordScan, Scan.run_bind, Scan.within_bind]
      by_cases h0 : haszero ((getWord w).run m) ≠ 0
      · obtain ⟨x, hx, hx', hzero⟩ := haszero_getWord.mp h0
        rw [if_pos h0, ← hhere x hx hx' (.inl hzero)]
        exact ⟨rfl, by rwa [← hhere x hx hx' (.inl hzero)] at hword, Scan.within_pure _⟩
      rw [if_neg h0, Scan.run_bind, Scan.within_bind]
      by_cases hc : haszero ((getWord w).run m ^^^ ones * c.toNat % 2 ^ 32) ≠ 0
      · obtain ⟨x, hx, hx', hbyte⟩ := haszero_getWord_xor.mp hc
        rw [if_pos hc, ← hhere x hx hx' (.inr hbyte)]
        rw [← hhere x hx hx' (.inr hbyte)] at hword
        exact ⟨rfl, hword, hword, Scan.within_pure _⟩
      rw [if_neg hc]
      have hnext : w + 4 ≤ e := by
        by_contra hlt
        rcases h.found with hzero | hbyte
        · exact h0 (haszero_getWord.mpr ⟨e, hle, by omega, hzero⟩)
        · exact hc (haszero_getWord_xor.mpr ⟨e, hle, by omega, hbyte⟩)
      obtain ⟨hrun, hreads⟩ := ih (h.of_le (Nat.le_add_right w 4) hnext) (by omega) (by omega)
      refine ⟨hrun, hword, hword, fun x hx => ?_⟩
      have := hreads x hx
      exact ⟨by omega, this.2⟩

theorem byteScan (h : Stops m c s e) (hfuel : e < s + fuel) :
    (byteScan c fuel s).run m = some e ∧
    (byteScan c fuel s).Within (fun x => s ≤ x ∧ x ≤ e) m := by
  induction fuel generalizing s with
  | zero =>
      have := h.le
      omega
  | succ fuel ih =>
      have hself : s ≤ s ∧ s ≤ e := ⟨Nat.le_refl s, h.le⟩
      rw [CourseOs.byteScan, Scan.run_bind, Scan.within_bind, Scan.within_get, Scan.run_get]
      by_cases h0 : m s = 0
      · rw [if_pos h0]
        exact ⟨congrArg some (h.eq_of_stop (.inl h0)), hself, Scan.within_pure _⟩
      rw [if_neg h0, Scan.run_bind, Scan.within_bind, Scan.within_get, Scan.run_get]
      by_cases hc : m s = c
      · rw [if_pos hc]
        exact ⟨congrArg some (h.eq_of_stop (.inr hc)), hself, hself, Scan.within_pure _⟩
      rw [if_neg hc]
      obtain ⟨hrun, hreads⟩ := ih (h.of_le (Nat.le_succ s) (h.succ_le h0 hc)) (by omega)
      refine ⟨hrun, hself, hself, fun x hx => ?_⟩
      have := hreads x hx
      exact ⟨by omega, this.2⟩

theorem strlenScan (h : Stops m 0 (s + i) e) (hfuel : e < s + i + fuel) :
    (strlenScan s fuel i).run m = some (e - s) ∧
    (strlenScan s fuel i).Within (fun x => s ≤ x ∧ x ≤ e) m := by
  induction fuel generalizing i with
  | zero =>
      have := h.le
      omega
  | succ fuel ih =>
      have hle := h.le
      have hself : s ≤ s + i ∧ s + i ≤ e := ⟨Nat.le_add_right s i, hle⟩
      rw [CourseOs.strlenScan, Scan.run_bind, Scan.within_bind, Scan.within_get, Scan.run_get]
      by_cases h0 : m (s + i) = 0
      · rw [if_pos h0]
        refine ⟨congrArg some ?_, hself, Scan.within_pure _⟩
        rw [← h.eq_of_stop (.inl h0), Nat.add_sub_cancel_left]
      rw [if_neg h0]
      have hnext : Stops m 0 (s + (i + 1)) e := h.of_le (Nat.le_succ _) (h.succ_le h0 h0)
      obtain ⟨hrun, hreads⟩ := ih hnext (by omega)
      exact ⟨hrun, hself, hreads⟩

end Stops

/-! ### The search

The three loops together, and a special case for the terminator, where the
search is `strlen`.  The words read are aligned, so that the bytes behind the
result that are read lie in its own word. -/

/-- Where the search of a string is to end. -/
theorem Stops.of_cString (h : CString m s text) (c : UInt8) :
    Stops m c s (s + text.findIdx (· == c)) where
  le := Nat.le_add_right _ _
  passed x hx hx' := by
    obtain ⟨i, rfl⟩ := Nat.exists_eq_add_of_le hx
    have hi : i < text.findIdx (· == c) := by omega
    have hlt : i < text.length := hi.trans_le List.findIdx_le_length
    rw [h.bytes i hlt]
    refine ⟨fun hzero => h.null_notMem (hzero ▸ List.getElem_mem hlt), fun hc => ?_⟩
    have := List.not_of_lt_findIdx hi
    rw [hc, beq_self_eq_true] at this
    cases this
  found := by
    by_cases hlt : text.findIdx (· == c) < text.length
    · right
      rw [h.bytes _ hlt]
      exact beq_iff_eq.mp (List.findIdx_getElem (w := hlt))
    · left
      rw [Nat.le_antisymm List.findIdx_le_length (not_lt.mp hlt)]
      exact h.terminated

/-- **`__strchrnul`** finds the first `c` of a string, or its terminator where
there is none, and reads nothing in front of the string or behind the aligned
word the result is in.  The string may start at any address. -/
theorem strchrnul_exact (h : CString m s text) (hfit : s + text.length < 2 ^ 32) (c : UInt8) :
    (strchrnul s c).run m = some (s + text.findIdx (· == c)) ∧
      ∀ x ∈ (strchrnul s c).reads m,
        s ≤ x ∧ x < 4 * ((s + text.findIdx (· == c)) / 4) + 4 := by
  have hstops := Stops.of_cString h c
  have hlt : s + text.findIdx (· == c) < 2 ^ 32 :=
    (Nat.add_le_add_left List.findIdx_le_length s).trans_lt hfit
  generalize s + text.findIdx (· == c) = e at hstops hlt
  show (strchrnul s c).run m = some e ∧
    (strchrnul s c).Within (fun x => s ≤ x ∧ x < 4 * (e / 4) + 4) m
  have hmono : ∀ {α : Type} {x : Scan UInt8 α} {i : ℕ}, s ≤ i →
      x.Within (fun x => i ≤ x ∧ x ≤ e) m → x.Within (fun x => s ≤ x ∧ x < 4 * (e / 4) + 4) m := by
    intro α x i hi hx y hy
    have := hx y hy
    exact ⟨by omega, by omega⟩
  unfold strchrnul
  by_cases hc : c = 0
  · subst hc
    have h0 : Stops m 0 (s + 0) e := hstops
    have hfuel : e < s + 0 + 2 ^ 32 := by omega
    obtain ⟨hrun, hreads⟩ := h0.strlenScan hfuel
    rw [if_pos rfl, Scan.run_bind, Scan.within_bind, hrun]
    refine ⟨?_, hmono (Nat.le_refl s) hreads, Scan.within_pure _⟩
    rw [Scan.run_pure, Option.map_some, Nat.add_sub_cancel' hstops.le]
  · have hfuel : (4 - s % 4) % 4 < 4 := Nat.mod_lt _ (by decide)
    obtain ⟨hrun, hreads⟩ := hstops.alignScan hfuel
    rw [if_neg hc, Scan.run_bind, Scan.within_bind]
    rcases hrun with hrun | ⟨i, hrun, halign, hsi, hie⟩
    · rw [hrun]
      exact ⟨rfl, hmono (Nat.le_refl s) hreads, Scan.within_pure _⟩
    · rw [hrun]
      dsimp only
      have hwords : e / 4 < i / 4 + 2 ^ 30 := by omega
      obtain ⟨hword, hwreads⟩ := (hstops.of_le hsi hie).wordScan halign hwords
      have hlast : Stops m c (4 * (e / 4)) e := hstops.of_le (by omega) (Nat.mul_div_le e 4)
      have hbytes : e < 4 * (e / 4) + 2 ^ 32 := by omega
      obtain ⟨hbyte, hbreads⟩ := hlast.byteScan hbytes
      rw [Scan.run_bind, Scan.within_bind, hword]
      refine ⟨hbyte, hmono (Nat.le_refl s) hreads, fun x hx => ?_, hmono (by omega) hbreads⟩
      have := hwreads x hx
      exact ⟨by omega, this.2⟩

/-- `c` in the string `abc` at the address 2. -/
theorem strchrnul_exact_abc :
    (strchrnul 2 99).run (fun x => if x = 2 then 97 else if x = 3 then 98 else
      if x = 4 then 99 else 0) = some 4 := by
  have h : CString (fun x => if x = 2 then 97 else if x = 3 then 98 else
      if x = 4 then 99 else 0) 2 [97, 98, 99] := by
    refine ⟨fun i hi => ?_, rfl, by decide⟩
    obtain rfl | rfl | rfl : i = 0 ∨ i = 1 ∨ i = 2 := by
      rw [List.length_cons, List.length_cons, List.length_singleton] at hi
      omega
    · rfl
    · rfl
    · rfl
  exact (strchrnul_exact h (by decide) 99).1

end CourseOs
