import Mathlib.Data.List.Basic
import Mathlib.Logic.Function.Basic

/-!
# Files shared by handles

The meaning of a byte file with several handles open on it: one array of
bytes, and a position for each handle.  A read moves its handle; a write
replaces bytes from the handle's position on, leaves every other byte as it
is, and moves its handle.  The file grows when a write reaches past its end
and never shrinks.

## Main definitions

* `List.splice l p buf` — `l` with the bytes from index `p` on replaced by
  `buf`.
* `SharedFile` — the bytes, and where the handles stand.
* `Bounded` — no handle stands past the end, which all operations keep.

The file of an implementation usually has one length, one capacity and one
block; none of these are here, so that a statement about the implementation
says what its clients can see.
-/

/-- `l` with the bytes from index `p` on replaced by `buf`. -/
def List.splice {α : Type*} (l : List α) (p : ℕ) (buf : List α) : List α :=
  l.take p ++ buf ++ l.drop (p + buf.length)

section Splice

variable {α : Type*} {l buf : List α} {p : ℕ}

theorem List.length_splice (hp : p ≤ l.length) :
    (l.splice p buf).length = max l.length (p + buf.length) := by
  unfold List.splice
  rw [List.length_append, List.length_append, List.length_take, List.length_drop,
    Nat.min_eq_left hp]
  omega

/-- A write that reaches the end of the file leaves nothing after it. -/
theorem List.splice_of_le (h : l.length ≤ p + buf.length) : l.splice p buf = l.take p ++ buf := by
  unfold List.splice
  rw [List.drop_eq_nil_of_le h, List.append_nil]

end Splice

/-- The bytes of a file and where the handles open on it stand.  A handle
without a position is not open. -/
@[ext]
structure SharedFile (κ α : Type*) where
  contents : List α
  position : κ → Option ℕ

namespace SharedFile

variable {κ α : Type*} [DecidableEq κ] {A : SharedFile κ α} {h : κ} {p : ℕ}

/-- No handle stands past the end of the file. -/
def Bounded (A : SharedFile κ α) : Prop :=
  ∀ h p, A.position h = some p → p ≤ A.contents.length

/-- Handle `h` moves to position `q`; the bytes and the other handles stay. -/
def moveTo (A : SharedFile κ α) (h : κ) (q : ℕ) : SharedFile κ α :=
  { A with position := Function.update A.position h (some q) }

/-- Handle `h` is closed: it has no position any more. -/
def close (A : SharedFile κ α) (h : κ) : SharedFile κ α :=
  { A with position := Function.update A.position h none }

/-- The bytes read by `h`, which stands at `p`, when it asks for `n`. -/
def bytesAt (A : SharedFile κ α) (p n : ℕ) : List α := (A.contents.drop p).take n

/-- `h`, which stands at `p`, reads `n` bytes. -/
def read (A : SharedFile κ α) (h : κ) (p n : ℕ) : SharedFile κ α :=
  A.moveTo h (p + (A.bytesAt p n).length)

/-- `h`, which stands at `p`, writes `buf`: over the bytes that are there, and
on behind the end of the file. -/
def write (A : SharedFile κ α) (h : κ) (p : ℕ) (buf : List α) : SharedFile κ α :=
  { A.moveTo h (p + buf.length) with contents := A.contents.splice p buf }

@[simp] theorem moveTo_contents (q : ℕ) : (A.moveTo h q).contents = A.contents := rfl

@[simp] theorem moveTo_position (q : ℕ) :
    (A.moveTo h q).position = Function.update A.position h (some q) := rfl

@[simp] theorem close_contents : (A.close h).contents = A.contents := rfl

@[simp] theorem close_position : (A.close h).position = Function.update A.position h none := rfl

omit [DecidableEq κ] in
theorem length_bytesAt (n : ℕ) : (A.bytesAt p n).length = min n (A.contents.length - p) := by
  unfold bytesAt
  rw [List.length_take, List.length_drop]

/-- A write never shortens the file. -/
theorem length_write (hp : p ≤ A.contents.length) (buf : List α) :
    (A.write h p buf).contents.length = max A.contents.length (p + buf.length) :=
  List.length_splice hp

/-- A handle that moves within a file that has not become shorter leaves all
handles within it. -/
theorem Bounded.of_update (hA : A.Bounded) {B : SharedFile κ α} {q : ℕ}
    (hposition : B.position = Function.update A.position h (some q))
    (hlen : A.contents.length ≤ B.contents.length) (hq : q ≤ B.contents.length) :
    B.Bounded := by
  intro k r hk
  rw [hposition] at hk
  by_cases hkh : k = h
  · rw [hkh, Function.update_self, Option.some.injEq] at hk
    rwa [← hk]
  · rw [Function.update_of_ne hkh] at hk
    exact Nat.le_trans (hA k r hk) hlen

theorem Bounded.moveTo (hA : A.Bounded) {q : ℕ} (hq : q ≤ A.contents.length) :
    (A.moveTo h q).Bounded :=
  hA.of_update rfl (Nat.le_refl _) hq

theorem Bounded.close (hA : A.Bounded) : (A.close h).Bounded := by
  intro k r hk
  rw [close_position] at hk
  by_cases hkh : k = h
  · rw [hkh, Function.update_self] at hk
    cases hk
  · rw [Function.update_of_ne hkh] at hk
    exact hA k r hk

theorem Bounded.write (hA : A.Bounded) (hp : p ≤ A.contents.length) (buf : List α) :
    (A.write h p buf).Bounded := by
  have hlen := length_write (h := h) hp buf
  apply hA.of_update rfl
  · rw [hlen]
    exact Nat.le_max_left _ _
  · rw [hlen]
    exact Nat.le_max_right _ _

end SharedFile
