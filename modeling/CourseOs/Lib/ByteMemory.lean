import Mathlib.Algebra.GroupWithZero.Nat

/-!
# Byte-addressed memory with little-endian words

A memory has a byte at every address.  Words are four bytes long, least
significant byte first, and may start at any address: nothing here assumes
alignment, so a program that reads a word across two others gets what the
bytes say and not what was meant.

## Main definitions

* `readWord` / `writeWord` — one 32-bit word at an address;
* `writeByte` — one byte;
* `fill` — the same byte over a range (`memset`);
* `Agree` — two memories coincide on a half-open range;
* `RangesDisjoint` — two objects, given by address and size, have no byte in
  common.

## Main results

The laws are the usual frame laws: a read sees the last write to exactly its
address (`readWord_writeWord_self`), and no write outside the four bytes it
reads (`readWord_writeWord_of_disjoint`).  `readWord_congr` is the form in
which a frame condition is used: whatever a routine does, a word on which the
two memories agree is read alike.  Values are natural numbers; `writeWord`
keeps the low 32 bits, and `readWord_lt` says that nothing else ever comes
back.
-/

/-- A memory: one byte at every address.  Addresses are unbounded here; a
machine with 32-bit addresses reduces a pointer before it uses it. -/
@[ext]
structure ByteMemory where
  byte : ℕ → UInt8

instance : CoeFun ByteMemory fun _ => ℕ → UInt8 := ⟨ByteMemory.byte⟩

/-- `[a, a + n)` and `[b, b + m)` have no byte in common. -/
def RangesDisjoint (a n b m : ℕ) : Prop := a + n ≤ b ∨ b + m ≤ a

namespace ByteMemory

variable {m m' m'' : ByteMemory} {a b lo hi n v : ℕ}

/-- The little-endian word at `a`. -/
def readWord (m : ByteMemory) (a : ℕ) : ℕ :=
  (m a).toNat + 256 * (m (a + 1)).toNat + 65536 * (m (a + 2)).toNat +
    16777216 * (m (a + 3)).toNat

/-- Store the low 32 bits of `v` at `a`, least significant byte first. -/
def writeWord (m : ByteMemory) (a v : ℕ) : ByteMemory where
  byte x := if a ≤ x ∧ x < a + 4 then UInt8.ofNat (v / 256 ^ (x - a)) else m x

/-- Store the byte `b` at `a`. -/
def writeByte (m : ByteMemory) (a : ℕ) (b : UInt8) : ByteMemory where
  byte x := if x = a then b else m x

/-- Store the byte `b` in each of the `n` bytes from `a`. -/
def fill (m : ByteMemory) (a n : ℕ) (b : UInt8) : ByteMemory where
  byte x := if a ≤ x ∧ x < a + n then b else m x

/-- The two memories coincide on `[lo, hi)`; nothing is said of the other
bytes. -/
def Agree (m m' : ByteMemory) (lo hi : ℕ) : Prop :=
  ∀ x, lo ≤ x → x < hi → m' x = m x

theorem readWord_lt (m : ByteMemory) (a : ℕ) : readWord m a < 2 ^ 32 := by
  have h0 := (m a).toNat_lt
  have h1 := (m (a + 1)).toNat_lt
  have h2 := (m (a + 2)).toNat_lt
  have h3 := (m (a + 3)).toNat_lt
  unfold readWord
  omega

/-! ### Frame laws

What a write leaves alone.  They are stated for single bytes and for ranges,
as a frame is used in either form. -/

theorem writeWord_apply_of_notMem {x : ℕ} (h : x < a ∨ a + 4 ≤ x) :
    writeWord m a v x = m x := by
  show (if a ≤ x ∧ x < a + 4 then _ else _) = _
  rw [if_neg (by omega)]

theorem writeByte_apply_of_ne {x : ℕ} {c : UInt8} (h : x ≠ a) : writeByte m a c x = m x :=
  if_neg h

theorem fill_apply_of_notMem {x : ℕ} {c : UInt8} (h : x < a ∨ a + n ≤ x) :
    fill m a n c x = m x := by
  show (if a ≤ x ∧ x < a + n then _ else _) = _
  rw [if_neg (by omega)]

theorem fill_apply_of_mem {x : ℕ} {c : UInt8} (h : a ≤ x) (h' : x < a + n) :
    fill m a n c x = c := by
  show (if a ≤ x ∧ x < a + n then _ else _) = _
  rw [if_pos ⟨h, h'⟩]

theorem Agree.trans (h : Agree m m' lo hi) (h' : Agree m' m'' lo hi) :
    Agree m m'' lo hi :=
  fun x hlo hhi => (h' x hlo hhi).trans (h x hlo hhi)

theorem agree_writeWord (h : a + 4 ≤ lo ∨ hi ≤ a) :
    Agree m (writeWord m a v) lo hi :=
  fun x hx hx' => writeWord_apply_of_notMem (by omega)

/-- A word only depends on its own four bytes: what a frame condition is used
for. -/
theorem readWord_congr (h : Agree m m' a (a + 4)) : readWord m' a = readWord m a := by
  unfold readWord
  rw [h a (by omega) (by omega), h (a + 1) (by omega) (by omega),
    h (a + 2) (by omega) (by omega), h (a + 3) (by omega) (by omega)]

/-! ### Reading back what was written

A word that is read at the address it was written to, or away from it.  Reads
that overlap a write in part are left open. -/

@[simp] theorem readWord_writeWord_self (m : ByteMemory) (a v : ℕ) :
    readWord (writeWord m a v) a = v % 2 ^ 32 := by
  have e0 : writeWord m a v a = UInt8.ofNat v := by simp [writeWord]
  have e1 : writeWord m a v (a + 1) = UInt8.ofNat (v / 256) := by simp [writeWord]
  have e2 : writeWord m a v (a + 2) = UInt8.ofNat (v / 65536) := by simp [writeWord]
  have e3 : writeWord m a v (a + 3) = UInt8.ofNat (v / 16777216) := by simp [writeWord]
  unfold readWord
  rw [e0, e1, e2, e3]
  simp only [UInt8.toNat_ofNat']
  omega

theorem readWord_writeWord_of_disjoint (h : a + 4 ≤ b ∨ b + 4 ≤ a) :
    readWord (writeWord m a v) b = readWord m b :=
  readWord_congr (agree_writeWord (by omega))

/-- A read of a word that is the one written or does not meet it. -/
theorem readWord_writeWord (h : b = a ∨ a + 4 ≤ b ∨ b + 4 ≤ a) :
    readWord (writeWord m a v) b = if b = a then v % 2 ^ 32 else readWord m b := by
  by_cases hab : b = a
  · rw [if_pos hab, hab]
    exact readWord_writeWord_self m a v
  · rw [if_neg hab]
    exact readWord_writeWord_of_disjoint (by omega)

/-- A word all of whose bytes are zero is zero. -/
theorem readWord_eq_zero (h : ∀ x, a ≤ x → x < a + 4 → m x = 0) : readWord m a = 0 := by
  unfold readWord
  rw [h a (by omega) (by omega), h (a + 1) (by omega) (by omega),
    h (a + 2) (by omega) (by omega), h (a + 3) (by omega) (by omega)]
  rfl

end ByteMemory
