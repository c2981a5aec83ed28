import Mathlib.Data.List.Basic
import Mathlib.Data.Nat.Notation

/-!
# Strings in memory

`CString m s text`: at the address `s` of the memory `m` there are the bytes
of `text`, none of which is 0, and a 0 behind them.  The predicate is what a
routine on C strings can assume of its argument, and what it promises of the
string it leaves behind.

A string that starts further on in a string is the rest of its text
(`CString.drop`), and the string is not changed by anything that happens
outside its bytes and its terminator (`CString.congr`).  A terminator written
into a string cuts it short (`CString.take`).  These are the three facts that
a loop over a string uses: one to go on, one for the frame, and one for a
routine that takes a string apart.
-/

/-- The string at `s` reads `text`: its bytes, none of them the terminator,
and the terminator directly behind. -/
structure CString (m : ℕ → UInt8) (s : ℕ) (text : List UInt8) : Prop where
  bytes : ∀ i (h : i < text.length), m (s + i) = text[i]
  terminated : m (s + text.length) = 0
  null_notMem : (0 : UInt8) ∉ text

namespace CString

variable {m m' : ℕ → UInt8} {s n : ℕ} {c : UInt8} {text pre post : List UInt8}

theorem head (h : CString m s (c :: text)) : m s = c := h.bytes 0 (Nat.zero_lt_succ _)

theorem head_ne (h : CString m s (c :: text)) : m s ≠ 0 := by
  intro hzero
  exact h.null_notMem (h.head.symm.trans hzero ▸ List.mem_cons_self)

theorem head_nil (h : CString m s []) : m s = 0 := h.terminated

/-- The rest of a string is a string. -/
theorem drop (h : CString m s (pre ++ post)) : CString m (s + pre.length) post where
  bytes i hi := by
    have hlt : pre.length + i < (pre ++ post).length := by
      rw [List.length_append]
      exact Nat.add_lt_add_left hi _
    have hb := h.bytes (pre.length + i) hlt
    rw [List.getElem_append_right (Nat.le_add_right _ _)] at hb
    rw [Nat.add_assoc, hb]
    simp only [Nat.add_sub_cancel_left]
  terminated := by
    rw [Nat.add_assoc, ← List.length_append]
    exact h.terminated
  null_notMem := fun hpost => h.null_notMem (List.mem_append_right pre hpost)

theorem tail (h : CString m s (c :: text)) : CString m (s + 1) text := by
  have h' : CString m s ([c] ++ text) := h
  exact h'.drop

/-- The string lies within its bytes and its terminator, and does not depend
on any others. -/
theorem congr (h : CString m s text) (heq : ∀ x, s ≤ x → x ≤ s + text.length → m' x = m x) :
    CString m' s text where
  bytes i hi := (heq _ (Nat.le_add_right _ _) (Nat.add_le_add_left (Nat.le_of_lt hi) s)).trans
    (h.bytes i hi)
  terminated := (heq _ (Nat.le_add_right _ _) (Nat.le_refl _)).trans h.terminated
  null_notMem := h.null_notMem

/-- Cut short by a terminator. -/
theorem take (h : CString m s (pre ++ post)) (heq : ∀ x, s ≤ x → x < s + pre.length → m' x = m x)
    (hcut : m' (s + pre.length) = 0) : CString m' s pre where
  bytes i hi := by
    have hb := h.bytes i (by rw [List.length_append]; omega)
    rw [List.getElem_append_left hi] at hb
    rw [heq _ (Nat.le_add_right _ _) (Nat.add_lt_add_left hi s), hb]
  terminated := hcut
  null_notMem := fun hpre => h.null_notMem (List.mem_append_left post hpre)

end CString
