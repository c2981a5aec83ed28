import CourseOs.Machine
import Mathlib.Data.List.Infix
import Mathlib.Data.Set.Function
import Mathlib.Logic.Function.Basic

/-!
# Strings that carry their hash

`Qstr` of `ds/qstr.c`: a string with its length and a hash of its bytes, which
is 0 until a comparison has stored it.  Every comparison stores the hash of
its left string, `qstr_eq` of equal strings that of its right one too, and
`qstr_eq` refuses strings whose stored hashes differ.  The strings are reached
by pointer, so that both arguments may be one string.

A stored hash can make the answer of a later comparison wrong only if it is
not the hash of the bytes.  That it is, after every history of calls on any
family of strings, is `qstrRun_faithful`, and so `qstr_eq` is equality.  The
loop of `__eq` reads a string up to its terminator and no further, which the
same theorem states: a read past a block stops the call.

`qstr_eq_null_terminated` shares the loop, which the left string alone drives,
but not the test of the lengths: it is the prefix relation
(`qstrEqNullTerminated_eq`), and equality on the pairs where the two agree
(`qstrEqNullTerminated_exact`).
-/

namespace CourseOs.Fs

/-- `Qstr`: the bytes with their terminator, how many there are, and the hash,
or 0 where none has been computed. -/
structure Qstr where
  /-- The block `data` points to, with the terminator. -/
  data : List UInt8
  length : ℕ
  hash : ℕ
  deriving DecidableEq, Repr

/-- `qstr_from_null_terminated_string`, of the bytes before the terminator. -/
def qstrFromNullTerminatedString (arr : List UInt8) : Qstr := ⟨arr ++ [0], arr.length, 0⟩

/-- `qstr_from_length_string`, of the bytes from `arr` on. -/
def qstrFromLengthString (arr : List UInt8) (length : ℕ) : Exec Qstr :=
  if length ≤ arr.length then .ok ⟨arr.take length ++ [0], length, 0⟩ else .error .outOfBounds

/-- The loop of `__eq`: whether the strings agree so far, and the hash of the
left.  It runs to the end of the left string; the right one is read only as
long as they agree. -/
def qstrEqLoop : List UInt8 → List UInt8 → ℕ → Bool → Exec (Bool × ℕ)
  | [], _, _, _ => .error .outOfBounds
  | c :: left, right, hash, equal =>
      if c = 0 then .ok (equal, hash)
      else
        let hash := (hash * 33 + c.toNat) % 2 ^ 32
        if equal then
          match right with
          | [] => .error .outOfBounds
          | r :: right => qstrEqLoop left right hash (c == r)
        else qstrEqLoop left right hash false

/-- `qstr_eq_null_terminated`, with the left string and its hash. -/
def qstrEqNullTerminated (left : Qstr) (right : List UInt8) : Exec (Bool × Qstr) := do
  let (equal, hash) ← qstrEqLoop left.data right 5381 true
  .ok (equal, { left with hash := if hash = 0 then 42 else hash })

/-- `qstr_hash`: a comparison with the empty string, for the hash it stores. -/
def qstrHash (q : Qstr) : Exec Qstr := do
  let (_, q) ← qstrEqNullTerminated q [0]
  .ok q

section Store

variable {ι : Type} [DecidableEq ι]

/-- `qstr_eq`, of the strings that `left` and `right` point to.  Different
stored hashes or different lengths are answered without a look at the bytes. -/
def qstrEq (s : ι → Qstr) (left right : ι) : Exec (Bool × (ι → Qstr)) :=
  if (s left).hash ≠ 0 ∧ (s right).hash ≠ 0 ∧ (s left).hash ≠ (s right).hash then
    .ok (false, s)
  else if (s left).length ≠ (s right).length then .ok (false, s)
  else do
    let (equal, hash) ← qstrEqLoop (s left).data (s right).data 5381 true
    let hash := if hash = 0 then 42 else hash
    let s := Function.update s left { s left with hash }
    .ok (equal, if equal then Function.update s right { s right with hash } else s)

/-- A call of the module on a family of strings.  The same string may be both
arguments. -/
inductive QstrOp (ι : Type)
  | eq (left right : ι)
  | hash (q : ι)
  /-- `qstr_eq_null_terminated`, of the bytes from `right` on. -/
  | eqNullTerminated (left : ι) (right : List UInt8)

/-- One call, with what it returns.  Computing a hash stores it in the string,
so that the family changes too. -/
def qstrStep (s : ι → Qstr) : QstrOp ι → Exec (Option Bool × (ι → Qstr))
  | .eq left right => do
      let (equal, s) ← qstrEq s left right
      .ok (some equal, s)
  | .hash p => do
      let q ← qstrHash (s p)
      .ok (none, Function.update s p q)
  | .eqNullTerminated left right => do
      let (equal, q) ← qstrEqNullTerminated (s left) right
      .ok (some equal, Function.update s left q)

/-- A history of calls, with all the answers. -/
def qstrRun : (ι → Qstr) → List (QstrOp ι) → Exec (List (Option Bool) × (ι → Qstr))
  | s, [] => .ok ([], s)
  | s, op :: ops => do
      let (answer, s) ← qstrStep s op
      let (answers, s) ← qstrRun s ops
      .ok (answer :: answers, s)

end Store

/-! ### The loop

One loop computes the hash of the left string and compares at the same time.
It ends with the left string, and so it tells whether that is a prefix of the
right one. -/

/-- One turn of the hash, in 32 bits. -/
def djb2 (hash : ℕ) (c : UInt8) : ℕ := (hash * 33 + c.toNat) % 2 ^ 32

/-- The hash of a string.  A hash that comes out as 0 is replaced by 42,
because 0 stands for no hash. -/
def qstrHashOf (bytes : List UInt8) : ℕ :=
  if bytes.foldl djb2 5381 = 0 then 42 else bytes.foldl djb2 5381

theorem qstrHashOf_ne_zero (bytes : List UInt8) : qstrHashOf bytes ≠ 0 := by
  unfold qstrHashOf
  split
  · decide
  · assumption

variable {bytes left right rest : List UInt8} {hash : ℕ}

/-- After a difference the right string is not read. -/
theorem qstrEqLoop_false (hleft : (0 : UInt8) ∉ left) :
    qstrEqLoop (left ++ [0]) right hash false = .ok (false, left.foldl djb2 hash) := by
  induction left generalizing hash with
  | nil => rfl
  | cons c left ih =>
      have hc : c ≠ 0 := fun h => hleft (h ▸ List.mem_cons_self)
      show (if c = 0 then _ else qstrEqLoop (left ++ [0]) right (djb2 hash c) false) = _
      rw [if_neg hc]
      exact ih fun h => hleft (List.mem_cons_of_mem c h)

/-- **The loop of `__eq`** returns, without reading past either terminator,
whether the left string begins the right one. -/
theorem qstrEqLoop_eq (hleft : (0 : UInt8) ∉ left) :
    qstrEqLoop (left ++ [0]) (right ++ 0 :: rest) hash true
      = .ok (left.isPrefixOf right, left.foldl djb2 hash) := by
  induction left generalizing right hash with
  | nil => cases right <;> rfl
  | cons c left ih =>
      have hc : c ≠ 0 := fun h => hleft (h ▸ List.mem_cons_self)
      have hrest : (0 : UInt8) ∉ left := fun h => hleft (List.mem_cons_of_mem c h)
      cases right with
      | nil =>
          -- the terminator of the right string differs from every byte of the left one
          show (if c = 0 then _ else qstrEqLoop (left ++ [0]) rest (djb2 hash c) (c == 0)) = _
          rw [if_neg hc, beq_false_of_ne hc, qstrEqLoop_false hrest]
          rfl
      | cons r right =>
          show (if c = 0 then _
            else qstrEqLoop (left ++ [0]) (right ++ 0 :: rest) (djb2 hash c) (c == r)) = _
          rw [if_neg hc, List.isPrefixOf_cons_cons]
          cases c == r with
          | true => exact ih hrest
          | false => exact qstrEqLoop_false hrest

/-! ### What a string keeps

The hash of a string is 0 until it is computed, and the hash computed is never
0, so that a stored hash is always that of the bytes.  This invariant is what
makes the early answer of `qstr_eq` right: two strings with different hashes
stored are different. -/

/-- `q` is a string of these bytes: they are in its block with a terminator
after them, and none of them is a terminator. -/
structure Qstr.Holds (q : Qstr) (bytes : List UInt8) : Prop where
  data : q.data = bytes ++ [0]
  length : q.length = bytes.length
  nulFree : (0 : UInt8) ∉ bytes

/-- The hash of `q`, where one is stored, is that of the bytes. -/
def Qstr.Cached (q : Qstr) (bytes : List UInt8) : Prop := q.hash = 0 ∨ q.hash = qstrHashOf bytes

/-- `q` is what one of the constructors returns for these bytes.  The bytes of
the second are the first `length` of the array. -/
inductive Qstr.Built : Qstr → List UInt8 → Prop
  | nullTerminated {bytes : List UInt8} (h : (0 : UInt8) ∉ bytes) :
      Qstr.Built (qstrFromNullTerminatedString bytes) bytes
  | lengthString {q : Qstr} {arr : List UInt8} {length : ℕ} (h : (0 : UInt8) ∉ arr.take length)
      (hq : qstrFromLengthString arr length = .ok q) : Qstr.Built q (arr.take length)

namespace Qstr

variable {q : Qstr}

theorem Built.holds (h : q.Built bytes) : q.Holds bytes ∧ q.Cached bytes := by
  cases h with
  | nullTerminated h => exact ⟨⟨rfl, rfl, h⟩, .inl rfl⟩
  | lengthString h hq =>
      unfold qstrFromLengthString at hq
      split at hq
      case isTrue hlength =>
        cases hq
        exact ⟨⟨rfl, (List.length_take_of_le hlength).symm, h⟩, .inl rfl⟩
      case isFalse => cases hq

/-- What is stored in `hash` is not part of the string. -/
theorem Holds.withHash (h : q.Holds bytes) (hash : ℕ) : { q with hash }.Holds bytes :=
  ⟨h.data, h.length, h.nulFree⟩

end Qstr

/-- **`qstr_eq_null_terminated`** tells whether the left string begins the
right one. -/
theorem qstrEqNullTerminated_eq {q : Qstr} (h : q.Holds bytes) :
    qstrEqNullTerminated q (right ++ 0 :: rest)
      = .ok (bytes.isPrefixOf right, { q with hash := qstrHashOf bytes }) := by
  unfold qstrEqNullTerminated
  rw [h.data, qstrEqLoop_eq h.nulFree]
  rfl

theorem qstrHash_eq {q : Qstr} (h : q.Holds bytes) :
    qstrHash q = .ok { q with hash := qstrHashOf bytes } := by
  have hempty : qstrEqNullTerminated q ([] ++ 0 :: []) = _ := qstrEqNullTerminated_eq h
  unfold qstrHash
  rw [show [0] = ([] ++ 0 :: [] : List UInt8) from rfl, hempty]
  rfl

/-- A string of the length of another that it begins is that string. -/
theorem isPrefixOf_eq_decide (h : left.length = right.length) :
    left.isPrefixOf right = decide (left = right) := by
  rw [Bool.eq_iff_iff, List.isPrefixOf_iff_prefix, decide_eq_true_iff]
  exact ⟨fun hp => hp.eq_of_length h, fun he => he ▸ List.prefix_refl _⟩

section Store

variable {ι : Type} [DecidableEq ι] {s : ι → Qstr} {strings : ι → List UInt8} {i j : ι}

/-- Every string has its bytes, and no wrong hash.  This is the invariant of a
history of calls. -/
structure QstrStore (s : ι → Qstr) (strings : ι → List UInt8) : Prop where
  holds : ∀ i, (s i).Holds (strings i)
  cached : ∀ i, (s i).Cached (strings i)

/-- Storing the right hash. -/
theorem QstrStore.update (h : QstrStore s strings) (i : ι) :
    QstrStore (Function.update s i { s i with hash := qstrHashOf (strings i) }) strings where
  holds := by
    intro k
    by_cases hk : k = i
    · subst hk
      rw [Function.update_self]
      exact (h.holds k).withHash _
    · rw [Function.update_of_ne hk]
      exact h.holds k
  cached := by
    intro k
    by_cases hk : k = i
    · subst hk
      rw [Function.update_self]
      exact .inr rfl
    · rw [Function.update_of_ne hk]
      exact h.cached k

/-- **`qstr_eq`** is equality unless equal strings have different hashes
stored, and stores nothing but the hash of its left string. -/
theorem qstrEq_eq {left right : List UInt8} (hi : (s i).Holds left) (hj : (s j).Holds right)
    (hhash : left = right → (s i).hash ≠ 0 → (s j).hash ≠ 0 → (s i).hash = (s j).hash) :
    ∃ s', qstrEq s i j = .ok (decide (left = right), s') ∧
      (s' = s ∨ s' = Function.update s i { s i with hash := qstrHashOf left } ∨
        left = right ∧
        s' = Function.update (Function.update s i { s i with hash := qstrHashOf left }) j
          { (Function.update s i { s i with hash := qstrHashOf left }) j with
            hash := qstrHashOf left }) := by
  unfold qstrEq
  split
  case isTrue hdiffer =>
    obtain ⟨hi0, hj0, hne⟩ := hdiffer
    rw [decide_eq_false fun heq => hne (hhash heq hi0 hj0)]
    exact ⟨s, rfl, .inl rfl⟩
  case isFalse =>
    rw [hi.length, hj.length, hi.data, hj.data]
    split
    case isTrue hlength =>
      rw [decide_eq_false fun heq => hlength (congrArg List.length heq)]
      exact ⟨s, rfl, .inl rfl⟩
    case isFalse hlength =>
      rw [qstrEqLoop_eq hi.nulFree, isPrefixOf_eq_decide (not_not.mp hlength)]
      by_cases heq : left = right
      · rw [decide_eq_true heq]
        exact ⟨_, rfl, .inr (.inr ⟨heq, rfl⟩)⟩
      · rw [decide_eq_false heq]
        exact ⟨_, rfl, .inr (.inl rfl)⟩

/-- `qstr_eq` of two strings of the store, which may be one string. -/
theorem QstrStore.eq (h : QstrStore s strings) (i j : ι) :
    ∃ s', qstrEq s i j = .ok (decide (strings i = strings j), s') ∧ QstrStore s' strings := by
  -- stored hashes are those of the bytes, so they differ only where the bytes do
  have hhash : strings i = strings j → (s i).hash ≠ 0 → (s j).hash ≠ 0 →
      (s i).hash = (s j).hash := by
    intro heq hi hj
    rw [(h.cached i).resolve_left hi, (h.cached j).resolve_left hj, heq]
  obtain ⟨s', hs', rfl | rfl | ⟨heq, rfl⟩⟩ := qstrEq_eq (h.holds i) (h.holds j) hhash
  · exact ⟨_, hs', h⟩
  · exact ⟨_, hs', h.update i⟩
  · refine ⟨_, hs', ?_⟩
    have h' := (h.update i).update j
    rw [← heq] at h'
    exact h'

/-- What `qstr_eq_null_terminated` is given is a string with a terminator. -/
def QstrOp.Terminated : QstrOp ι → Prop
  | .eqNullTerminated _ right => ∃ str, (0 : UInt8) ∉ str ∧ right = str ++ [0]
  | _ => True

/-- `qstr_eq` answers as equality of the bytes does; nothing is asked of the
other calls. -/
def QstrOp.Answered (strings : ι → List UInt8) : QstrOp ι → Option Bool → Prop
  | .eq left right, answer => answer = some (decide (strings left = strings right))
  | _, _ => True

/-- One call keeps the strings and their hashes right, and answers as equality
does. -/
theorem qstrStep_spec (h : QstrStore s strings) {op : QstrOp ι} (hop : op.Terminated) :
    ∃ answer s', qstrStep s op = .ok (answer, s') ∧ op.Answered strings answer
      ∧ QstrStore s' strings := by
  cases op with
  | eq left right =>
      obtain ⟨s', hs', hstore⟩ := h.eq left right
      refine ⟨_, s', ?_, rfl, hstore⟩
      show (qstrEq s left right >>= _) = _
      rw [hs']
      rfl
  | hash p =>
      refine ⟨none, _, ?_, trivial, h.update p⟩
      show (qstrHash (s p) >>= _) = _
      rw [qstrHash_eq (h.holds p)]
      rfl
  | eqNullTerminated left right =>
      obtain ⟨str, -, rfl⟩ := hop
      refine ⟨some ((strings left).isPrefixOf str), _, ?_, trivial, h.update left⟩
      show (qstrEqNullTerminated (s left) (str ++ [0]) >>= _) = _
      rw [qstrEqNullTerminated_eq (h.holds left)]
      rfl

/-- **Over any history of calls** `qstr_eq` is equality of the strings, every
stored hash is that of the bytes, and no byte past a terminator is read.  The
strings are what the constructors return, of any number. -/
theorem qstrRun_faithful (hbuilt : ∀ i, (s i).Built (strings i)) (ops : List (QstrOp ι))
    (hops : ∀ op ∈ ops, op.Terminated) :
    ∃ answers s', qstrRun s ops = .ok (answers, s')
      ∧ List.Forall₂ (QstrOp.Answered strings) ops answers
      ∧ ∀ i, (s' i).Holds (strings i)
        ∧ ((s' i).hash = 0 ∨ (s' i).hash = qstrHashOf (strings i) ∧ (s' i).hash ≠ 0) := by
  have h : QstrStore s strings := ⟨fun i => (hbuilt i).holds.1, fun i => (hbuilt i).holds.2⟩
  clear hbuilt
  induction ops generalizing s with
  | nil =>
      refine ⟨[], s, rfl, .nil, fun i => ⟨h.holds i, (h.cached i).imp_right fun hi => ⟨hi, ?_⟩⟩⟩
      rw [hi]
      exact qstrHashOf_ne_zero _
  | cons op ops ih =>
      have hmem : ∀ op ∈ ops, op.Terminated := fun o ho => hops o (List.mem_cons_of_mem op ho)
      obtain ⟨answer, s₁, hs₁, hanswer, h₁⟩ := qstrStep_spec h (hops op List.mem_cons_self)
      obtain ⟨answers, s₂, hs₂, hanswers, h₂⟩ := ih hmem h₁
      refine ⟨answer :: answers, s₂, ?_, .cons hanswer hanswers, h₂⟩
      show (qstrStep s op >>= _) = _
      rw [hs₁, Exec.ok_bind]
      show (qstrRun s₁ ops >>= _) = _
      rw [hs₂]
      rfl

/-- The run theorem, of the strings `"ab"` and `"ab"` taken from `"abc"`.
They are found equal although one has a hash by then and the other has not. -/
theorem qstrRun_faithful_equal :
    ∃ answers s', qstrRun (fun _ : Bool => ⟨[97, 98, 0], 2, 0⟩)
        [.hash true, .eq true false, .eqNullTerminated false [97, 0], .eq false false]
          = .ok (answers, s')
      ∧ List.Forall₂ (QstrOp.Answered fun _ => [97, 98])
        [.hash true, .eq true false, .eqNullTerminated false [97, 0], .eq false false] answers
      ∧ ∀ i, (s' i).Holds [97, 98]
        ∧ ((s' i).hash = 0 ∨ (s' i).hash = qstrHashOf [97, 98] ∧ (s' i).hash ≠ 0) := by
  refine qstrRun_faithful (fun b => ?_) _ ?_
  · cases b with
    | true => exact Qstr.Built.nullTerminated (show (0 : UInt8) ∉ [97, 98] by decide)
    | false =>
        exact Qstr.Built.lengthString (show (0 : UInt8) ∉ [97, 98, 99].take 2 by decide) rfl
  · simp only [List.mem_cons, List.not_mem_nil, or_false]
    rintro op (rfl | rfl | rfl | rfl)
    · trivial
    · trivial
    · exact ⟨[97], by decide, rfl⟩
    · trivial

/-! ### The comparison with a C string

`qstr_eq` compares the lengths before it compares the bytes, and
`qstr_eq_null_terminated` does not, since the length of a C string is not at
hand.  A prefix then counts as equal. -/

/-- **`qstr_eq_null_terminated`** is equality, and agrees with `qstr_eq` of a
`Qstr` made of the other string, exactly when the left string is not a proper
prefix of the right one. -/
theorem qstrEqNullTerminated_exact {str : List UInt8} (hij : i ≠ j) (hq : (s i).Holds bytes)
    (hstr : (0 : UInt8) ∉ str) :
    ∃ equal q agrees s', qstrEqNullTerminated (s i) (str ++ 0 :: rest) = .ok (equal, q)
      ∧ qstrEq (Function.update s j (qstrFromNullTerminatedString str)) i j = .ok (agrees, s')
      ∧ (((equal = true ↔ bytes = str) ∧ equal = agrees) ↔ ¬(bytes <+: str ∧ bytes ≠ str)) := by
  set fresh := Function.update s j (qstrFromNullTerminatedString str) with hfresh
  have hj : fresh j = qstrFromNullTerminatedString str := Function.update_self ..
  have hi : fresh i = s i := Function.update_of_ne hij _ _
  have hholds : (fresh j).Holds str := hj ▸ ⟨rfl, rfl, hstr⟩
  -- nothing is stored in the new string yet
  have hhash : bytes = str → (fresh i).hash ≠ 0 → (fresh j).hash ≠ 0 →
      (fresh i).hash = (fresh j).hash := fun _ _ h => absurd (by rw [hj]; rfl) h
  obtain ⟨s', hs', -⟩ := qstrEq_eq (hi.symm ▸ hq) hholds hhash
  refine ⟨_, _, _, s', qstrEqNullTerminated_eq hq, hs', ?_⟩
  have hagree : bytes.isPrefixOf str = decide (bytes = str)
      ↔ (bytes.isPrefixOf str = true ↔ bytes = str) := by
    rw [Bool.eq_iff_iff, decide_eq_true_iff]
  rw [hagree, and_self_iff, List.isPrefixOf_iff_prefix]
  constructor
  · rintro h ⟨hp, hne⟩
    exact hne (h.mp hp)
  · intro h
    exact ⟨fun hp => not_not.mp fun hne => h ⟨hp, hne⟩, fun he => he ▸ List.prefix_refl _⟩

/-- The exact theorem, of `"a"` and `"b"`, neither of which begins with the
other. -/
theorem qstrEqNullTerminated_exact_differ :
    ∃ equal q agrees s',
      qstrEqNullTerminated ⟨[97, 0], 1, 0⟩ ([98] ++ 0 :: []) = .ok (equal, q)
      ∧ qstrEq (Function.update (fun _ : Bool => ⟨[97, 0], 1, 0⟩) true
        (qstrFromNullTerminatedString [98])) false true = .ok (agrees, s')
      ∧ (((equal = true ↔ ([97] : List UInt8) = [98]) ∧ equal = agrees)
        ↔ ¬(([97] : List UInt8) <+: [98] ∧ ([97] : List UInt8) ≠ [98])) :=
  have hstr : (0 : UInt8) ∉ ([98] : List UInt8) := by decide
  have hq : Qstr.Holds ⟨[97, 0], 1, 0⟩ [97] := ⟨rfl, rfl, by decide⟩
  qstrEqNullTerminated_exact (s := fun _ => ⟨[97, 0], 1, 0⟩) Bool.false_ne_true hq hstr

/-- The different strings `"a"` and `"ab"` are found equal by the one
comparison and not by the other. -/
theorem qstrEqNullTerminated_prefix :
    ∃ q s', qstrEqNullTerminated (qstrFromNullTerminatedString [97]) [97, 98, 0] = .ok (true, q)
      ∧ ([97] : List UInt8) ≠ [97, 98]
      ∧ qstrEq (fun b : Bool => if b then qstrFromNullTerminatedString [97, 98]
        else qstrFromNullTerminatedString [97]) false true = .ok (false, s') :=
  ⟨_, _, rfl, by decide, rfl⟩

end Store

end CourseOs.Fs
