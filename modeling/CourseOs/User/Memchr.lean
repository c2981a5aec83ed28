import CourseOs.Klibc.Strchrnul

/-!
# Searching memory by words

`memchr` of the user library, `string/memchr.c`.  It searches `n` bytes, not a
string: by bytes up to an aligned address, by words while a whole one is left,
and by bytes to the end.

The result is that of a search by bytes.  Unlike `__strchrnul`, which shares
the test for a word, it never reads a word that it may not read all of: the
loop over words asks for four bytes that are left, so that the words stay
inside the `n` bytes.  Both are said by `memchr_exact`, for every address,
byte and length, the length 0 and unaligned addresses included.

The three loops keep one invariant, `Searched`: the search has come to `s`
with `n` bytes left and has not passed a byte `c`.  A word without the byte
moves it by four (`Searched.memchrWords`), which is where
`Swar.hasZero_xor_iff` comes in; the loop over words does not look at the byte
it stops at, and the last loop finds it again.
-/

namespace CourseOs

/-- The loop up to an aligned address: the pointer and the count it leaves.
It also stops at the byte searched for. -/
def memchrAlign (c : UInt8) : ℕ → ℕ → Scan UInt8 (ℕ × ℕ)
  | s, 0 => pure (s, 0)
  | s, n + 1 =>
      if s % 4 ≠ 0 then do
        let b ← Scan.get s
        if b ≠ c then memchrAlign c (s + 1) n else pure (s, n + 1)
      else pure (s, n + 1)

/-- The loop over words, the first argument being no less than the count.  A
word is read only while all its bytes are left. -/
def memchrWords (k : ℕ) : ℕ → ℕ → ℕ → Scan UInt8 (ℕ × ℕ)
  | 0, w, n => pure (w, n)
  | fuel + 1, w, n =>
      if 4 ≤ n then do
        let x ← getWord w
        if haszero (x ^^^ k) = 0 then memchrWords k fuel (w + 4) (n - 4) else pure (w, n)
      else pure (w, n)

/-- The loop over the last bytes.  It ends at the byte, with the bytes that
are left from it on. -/
def memchrBytes (c : UInt8) : ℕ → ℕ → Scan UInt8 (ℕ × ℕ)
  | s, 0 => pure (s, 0)
  | s, n + 1 => do
      let b ← Scan.get s
      if b ≠ c then memchrBytes c (s + 1) n else pure (s, n + 1)

/-- The part behind the first loop: nothing is left, or the byte is found, or
the search goes on by words and then by bytes. -/
def memchrRest (c : UInt8) (s n : ℕ) : Scan UInt8 (ℕ × ℕ) :=
  if n ≠ 0 then do
    let b ← Scan.get s
    if b ≠ c then do
      let k := ones * c.toNat % 2 ^ 32
      let (w, n) ← memchrWords k n s n
      memchrBytes c w n
    else pure (s, n)
  else pure (s, n)

/-- `memchr`; 0 is the null pointer.  The three loops hand on a pointer and
the count that is left, and the byte has been found if the count is not zero. -/
def memchr (src : ℕ) (c : UInt8) (n : ℕ) : Scan UInt8 ℕ := do
  let (s, n) ← memchrAlign c src n
  let (s, n) ← memchrRest c s n
  pure (if n ≠ 0 then s else 0)

variable {m : ℕ → UInt8} {s n e fuel lo hi : ℕ} {c : UInt8}

/-- The search from `lo` on has come to `s`, with `n` bytes left up to `hi`,
and has not passed a byte `c`. -/
structure Searched (m : ℕ → UInt8) (c : UInt8) (lo hi s n : ℕ) : Prop where
  le : lo ≤ s
  left : s + n = hi
  passed : ∀ x, lo ≤ x → x < s → m x ≠ c

/-- What a part of the search does: it keeps `Searched`, and all its reads are
inside the bytes to be searched. -/
structure Searches (m : ℕ → UInt8) (c : UInt8) (lo hi : ℕ) (x : Scan UInt8 (ℕ × ℕ)) : Prop where
  searched : Searched m c lo hi (x.run m).1 (x.run m).2
  within : x.Within (fun a => lo ≤ a ∧ a < hi) m

namespace Searched

theorem done (h : Searched m c lo hi s n) : Searches m c lo hi (pure (s, n)) :=
  ⟨h, Scan.within_pure _⟩

theorem next (h : Searched m c lo hi s (n + 1)) (hne : m s ≠ c) :
    Searched m c lo hi (s + 1) n where
  le := h.le.trans (Nat.le_succ s)
  left := by
    have := h.left
    omega
  passed x hx hx' := by
    rcases Nat.lt_succ_iff_lt_or_eq.mp hx' with hlt | rfl
    · exact h.passed x hx hlt
    · exact hne

theorem within_get (h : Searched m c lo hi s (n + 1)) :
    (Scan.get s).Within (fun a => lo ≤ a ∧ a < hi) m := by
  have := h.left
  exact Scan.within_get.mpr ⟨h.le, by omega⟩

theorem memchrAlign (h : Searched m c lo hi s n) :
    Searches m c lo hi (memchrAlign c s n) := by
  induction n generalizing s with
  | zero => exact h.done
  | succ n ih =>
      rw [CourseOs.memchrAlign]
      by_cases halign : s % 4 ≠ 0
      · rw [if_pos halign]
        by_cases hc : m s ≠ c
        · have hrest := ih (h.next hc)
          refine ⟨?_, ?_⟩
          · rw [Scan.run_bind, Scan.run_get, if_pos hc]
            exact hrest.searched
          · rw [Scan.within_bind, Scan.run_get, if_pos hc]
            exact ⟨h.within_get, hrest.within⟩
        · refine ⟨?_, ?_⟩
          · rw [Scan.run_bind, Scan.run_get, if_neg hc]
            exact h
          · rw [Scan.within_bind, Scan.run_get, if_neg hc]
            exact ⟨h.within_get, Scan.within_pure _⟩
      · rw [if_neg halign]
        exact h.done

theorem memchrBytes (h : Searched m c lo hi s n) :
    Searches m c lo hi (memchrBytes c s n) ∧
      (((memchrBytes c s n).run m).2 = 0 ∨ m ((memchrBytes c s n).run m).1 = c) := by
  induction n generalizing s with
  | zero => exact ⟨h.done, .inl rfl⟩
  | succ n ih =>
      rw [CourseOs.memchrBytes]
      by_cases hc : m s ≠ c
      · obtain ⟨hrest, hend⟩ := ih (h.next hc)
        rw [Scan.run_bind, Scan.run_get, if_pos hc]
        refine ⟨⟨?_, ?_⟩, hend⟩
        · rw [Scan.run_bind, Scan.run_get, if_pos hc]
          exact hrest.searched
        · rw [Scan.within_bind, Scan.run_get, if_pos hc]
          exact ⟨h.within_get, hrest.within⟩
      · rw [Scan.run_bind, Scan.run_get, if_neg hc]
        refine ⟨⟨?_, ?_⟩, .inr (not_not.mp hc)⟩
        · rw [Scan.run_bind, Scan.run_get, if_neg hc]
          exact h
        · rw [Scan.within_bind, Scan.run_get, if_neg hc]
          exact ⟨h.within_get, Scan.within_pure _⟩

/-- **The loop over words** passes only words without the byte, four bytes at
a time.  It may stop at a word with the byte, and the loop over bytes goes on
from there. -/
theorem memchrWords (h : Searched m c lo hi s n) :
    Searches m c lo hi (memchrWords (ones * c.toNat % 2 ^ 32) fuel s n) := by
  induction fuel generalizing s n with
  | zero => exact h.done
  | succ fuel ih =>
      rw [CourseOs.memchrWords]
      by_cases hn : 4 ≤ n
      · rw [if_pos hn]
        have hleft := h.left
        have hle := h.le
        have hword : (getWord s).Within (fun a => lo ≤ a ∧ a < hi) m :=
          within_getWord fun x hx hx' => ⟨by omega, by omega⟩
        by_cases hzero : haszero ((getWord s).run m ^^^ ones * c.toNat % 2 ^ 32) = 0
        · have hnext : Searched m c lo hi (s + 4) (n - 4) := by
            refine ⟨by omega, by omega, fun x hx hx' => ?_⟩
            by_cases hlt : x < s
            · exact h.passed x hx hlt
            · intro hc
              exact haszero_getWord_xor.mpr ⟨x, not_lt.mp hlt, hx', hc⟩ hzero
          have hrest := ih hnext
          refine ⟨?_, ?_⟩
          · rw [Scan.run_bind, if_pos hzero]
            exact hrest.searched
          · rw [Scan.within_bind, if_pos hzero]
            exact ⟨hword, hrest.within⟩
        · refine ⟨?_, ?_⟩
          · rw [Scan.run_bind, if_neg hzero]
            exact h
          · rw [Scan.within_bind, if_neg hzero]
            exact ⟨hword, Scan.within_pure _⟩
      · rw [if_neg hn]
        exact h.done

/-- The part behind the first loop: what it passes has not the byte in it, and
it stops at the byte or with nothing left. -/
theorem memchrRest (h : Searched m c lo hi s n) :
    Searches m c lo hi (memchrRest c s n) ∧
      (((memchrRest c s n).run m).2 = 0 ∨ m ((memchrRest c s n).run m).1 = c) := by
  unfold CourseOs.memchrRest
  cases n with
  | zero => exact ⟨h.done, .inl rfl⟩
  | succ n =>
      rw [if_pos (Nat.succ_ne_zero n)]
      by_cases hc : m s ≠ c
      · have hwords : Searches m c lo hi
            (CourseOs.memchrWords (ones * c.toNat % 2 ^ 32) (n + 1) s (n + 1)) := h.memchrWords
        obtain ⟨hbytes, hend⟩ := hwords.searched.memchrBytes
        rw [Scan.run_bind, Scan.run_get, if_pos hc, Scan.run_bind]
        refine ⟨⟨?_, ?_⟩, hend⟩
        · rw [Scan.run_bind, Scan.run_get, if_pos hc, Scan.run_bind]
          exact hbytes.searched
        · rw [Scan.within_bind, Scan.run_get, if_pos hc, Scan.within_bind]
          exact ⟨h.within_get, hwords.within, hbytes.within⟩
      · rw [Scan.run_bind, Scan.run_get, if_neg hc]
        refine ⟨⟨?_, ?_⟩, .inr (not_not.mp hc)⟩
        · rw [Scan.run_bind, Scan.run_get, if_neg hc]
          exact h
        · rw [Scan.within_bind, Scan.run_get, if_neg hc]
          exact ⟨h.within_get, Scan.within_pure _⟩

end Searched

/-- **`memchr`** returns where the first `c` of the `n` bytes is, or null if
none is, and reads none but those bytes.  There is no condition on the
address, the length or the contents. -/
theorem memchr_exact (m : ℕ → UInt8) (src : ℕ) (c : UInt8) (n : ℕ) :
    ((∀ i < n, m (src + i) ≠ c) ∧ (memchr src c n).run m = 0 ∨
      ∃ i < n, m (src + i) = c ∧ (∀ j < i, m (src + j) ≠ c) ∧ (memchr src c n).run m = src + i) ∧
      ∀ x ∈ (memchr src c n).reads m, src ≤ x ∧ x < src + n := by
  have hstart : Searched m c src (src + n) src n := by
    refine ⟨Nat.le_refl src, rfl, fun x hx hx' => ?_⟩
    exact absurd hx' (not_lt.mpr hx)
  have halign := hstart.memchrAlign
  obtain ⟨hrest, hend⟩ := halign.searched.memchrRest
  have hle := hrest.searched.le
  have hleft := hrest.searched.left
  have hrun : (memchr src c n).run m =
      if ((memchrRest c ((memchrAlign c src n).run m).1
        ((memchrAlign c src n).run m).2).run m).2 ≠ 0
      then ((memchrRest c ((memchrAlign c src n).run m).1 ((memchrAlign c src n).run m).2).run m).1
      else 0 := by
    unfold memchr
    rw [Scan.run_bind, Scan.run_bind, Scan.run_pure]
  have hpassed := hrest.searched.passed
  rw [hrun]
  refine ⟨?_, ?_⟩
  · generalize ((memchrRest c ((memchrAlign c src n).run m).1
      ((memchrAlign c src n).run m).2).run m) = r at hend hle hleft hpassed
    by_cases hr : r.2 = 0
    · rw [if_neg (not_not.mpr hr)]
      exact .inl ⟨fun i hi => hpassed _ (Nat.le_add_right _ _) (by omega), rfl⟩
    · rw [if_pos hr]
      have hat : m (src + (r.1 - src)) = c := by
        rw [Nat.add_sub_cancel' hle]
        exact hend.resolve_left hr
      exact .inr ⟨r.1 - src, by omega, hat,
        fun j hj => hpassed _ (Nat.le_add_right _ _) (by omega), (Nat.add_sub_cancel' hle).symm⟩
  · unfold memchr
    show Scan.Within (fun a => src ≤ a ∧ a < src + n) m _
    rw [Scan.within_bind]
    refine ⟨halign.within, ?_⟩
    rw [Scan.within_bind]
    exact ⟨hrest.within, Scan.within_pure _⟩

end CourseOs
