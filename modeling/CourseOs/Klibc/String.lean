import CourseOs.Machine
import Mathlib.Data.List.Infix

/-!
# C strings

`strncmp` of `klibc/string.c`, as path lookups use it.  The first string is a
block with its terminator; the second is read where it lies in a larger array
and need not be terminated.  A read behind the terminator of the first string
stops the model.

`strncmp` with a bound does not compare two strings.  With the length of the
second for a bound, it finds no difference exactly when the first string
begins with the second (`strncmp_eq`), so that `a` is found where `ab` is:
this is what a lookup by name inherits.  `Begins` states it with its one other
case, in which the terminator of the first string is itself met as a byte of
the second.
-/

namespace CourseOs

/-- `strncmp`, as the unsigned difference of the bytes it stops at.  The
second string is a function from offsets to bytes, and only the bytes reached
are asked for. -/
def strncmp : List UInt8 → (ℕ → UInt8) → ℕ → Exec ℕ
  | _, _, 0 => .ok 0
  | [], _, _ + 1 => .error .outOfBounds
  | c :: s1, s2, n + 1 =>
      if c ≠ 0 ∧ c = s2 0 then strncmp s1 (fun k => s2 (k + 1)) n
      else .ok (sub32 c.toNat (s2 0).toNat)

/-- What `strncmp` with a bound tests: `name` begins with `c`, or `c` with
`name` and a terminator. -/
def Begins (c name : List UInt8) : Prop := c <+: name ∨ name ++ [0] <+: c

instance (c name : List UInt8) : Decidable (Begins c name) :=
  inferInstanceAs (Decidable (_ ∨ _))

theorem sub32_eq_zero {a b : UInt8} : sub32 a.toNat b.toNat = 0 ↔ a = b := by
  have ha := a.toNat_lt
  have hb := b.toNat_lt
  rw [← UInt8.toNat_inj]
  unfold sub32
  omega

theorem begins_nil (name : List UInt8) : Begins [] name := .inl (List.nil_prefix)

/-- Equal first bytes do not matter. -/
theorem begins_cons {a : UInt8} {c name : List UInt8} :
    Begins (a :: c) (a :: name) ↔ Begins c name := by
  unfold Begins
  rw [List.cons_append, List.cons_prefix_cons, List.cons_prefix_cons]
  simp only [true_and]

/-- **`strncmp`** of a name with the `c.length` bytes at `s2` finds no
difference exactly when the name begins with them.  The comparison stays
inside the block of the name. -/
theorem strncmp_eq {name : List UInt8} (hname : (0 : UInt8) ∉ name) {c : List UInt8}
    {s2 : ℕ → UInt8} (hs2 : ∀ j (h : j < c.length), s2 j = (c)[j]) :
    ∃ r, strncmp (name ++ [0]) s2 c.length = .ok r ∧ (r = 0 ↔ Begins c name) := by
  induction c generalizing name s2 with
  | nil => exact ⟨0, by cases name <;> rfl, iff_of_true rfl (begins_nil name)⟩
  | cons a c ih =>
      have h0 : s2 0 = a := hs2 0 (Nat.zero_lt_succ _)
      cases name with
      | nil =>
          refine ⟨sub32 0 a.toNat, ?_, ?_⟩
          · show (if (0 : UInt8) ≠ 0 ∧ _ then _ else Except.ok _) = _
            rw [if_neg (fun h => h.1 rfl), h0]
            rfl
          · show sub32 (0 : UInt8).toNat a.toNat = 0 ↔ _
            rw [sub32_eq_zero]
            constructor
            · rintro rfl
              exact .inr ⟨c, rfl⟩
            · rintro (⟨t, ht⟩ | ⟨t, ht⟩)
              · cases ht
              · exact (List.cons.inj ht).1
      | cons b name =>
          have hb : b ≠ 0 := fun h => hname (h ▸ List.mem_cons_self)
          by_cases hab : b = a
          · have hrest : (0 : UInt8) ∉ name := fun h => hname (List.mem_cons_of_mem b h)
            have hs2' : ∀ j (h : j < c.length), (fun k => s2 (k + 1)) j = (c)[j] :=
              fun j h => hs2 (j + 1) (Nat.succ_lt_succ h)
            obtain ⟨r, hr, hiff⟩ := ih hrest hs2'
            refine ⟨r, ?_, ?_⟩
            · show (if b ≠ 0 ∧ b = s2 0 then _ else _) = _
              rw [if_pos ⟨hb, h0.symm ▸ hab⟩]
              exact hr
            · rw [hiff, hab, begins_cons]
          · refine ⟨sub32 b.toNat a.toNat, ?_, ?_⟩
            · show (if b ≠ 0 ∧ b = s2 0 then _ else _) = _
              rw [if_neg (fun h => hab (h.2.trans h0)), h0]
            · rw [sub32_eq_zero]
              refine iff_of_false hab ?_
              rintro (⟨t, ht⟩ | ⟨t, ht⟩)
              · exact hab (List.cons.inj ht).1.symm
              · exact hab (List.cons.inj ht).1

end CourseOs
