import CourseOs.Lib.LinkedList
import CourseOs.Vm.Pmm
import Mathlib.Logic.Function.Basic

/-!
# The four lists of slice records

The records of the managed slices are `record 0, …, record (n - 1)`: pairwise
disjoint blocks of 16 bytes.  `Linked record n s lists` says that the four
head fields of the manager reach four disjoint doubly linked lists, and that
list `l` runs through the records of the slices `lists l`, in this order.

`push_to_ll`, `pop_from_ll` and `remove_element_ll` each keep this
(`Linked.push`, `Linked.pop`, `Linked.remove`) and touch nothing but the
`next` and `prev` words of records (`LinksFrame`).  `push_to_ll` does not
write the new head's own `prev`: `Linked.push` therefore asks that it is
already null, and `Linked.pop` and `Linked.remove` say that they leave it
null.

For each of the three there is first what it does to the `next` and `prev`
word of every record, and from that the list it leaves; `Linked.update` is the
step between the two.  Where the record lies is a parameter, so nothing here
depends on how slices and records are laid out.
-/

namespace CourseOs.Pmm

open ByteMemory LinkedList

variable {m m' m'' : ByteMemory} {r r' v n k x : ℕ} {f f' : Field} {record : ℕ → ℕ}
  {s : PmmState} {lists : PmmList → List ℕ} {l l' : PmmList}

/-! ### Reading one record after writing another

The words of two records, and the fields of one word.  Each lemma says that
writing here is not seen there. -/

/-- Two record addresses coincide or the records do not overlap. -/
def Apart (r r' : ℕ) : Prop := r = r' ∨ r + 16 ≤ r' ∨ r' + 16 ≤ r

theorem Field.offset_le (f : Field) : f.offset + 4 ≤ 16 := by
  cases f <;> decide

theorem Field.offset_apart (h : f ≠ f') :
    f.offset + 4 ≤ f'.offset ∨ f'.offset + 4 ≤ f.offset := by
  cases f <;> cases f' <;> first | exact absurd rfl h | decide

theorem info_lt (m : ByteMemory) (r : ℕ) (f : Field) : info m r f < 2 ^ 32 :=
  readWord_lt m _

theorem info_setInfo (h : Apart r r') :
    info (setInfo m r f v) r' f' = if r' = r ∧ f' = f then v % 2 ^ 32 else info m r' f' := by
  have hf := f.offset_le
  have hf' := f'.offset_le
  by_cases heq : r' = r ∧ f' = f
  · rw [if_pos heq, heq.1, heq.2]
    exact readWord_writeWord_self m _ v
  · rw [if_neg heq]
    refine readWord_writeWord_of_disjoint ?_
    by_cases hr : r' = r
    · have hoff := Field.offset_apart fun h => heq ⟨hr, h⟩
      omega
    · unfold Apart at h
      omega

theorem setInfo_apply_of_notMem (h : x < r ∨ r + 16 ≤ x) : setInfo m r f v x = m x := by
  have hf := f.offset_le
  exact writeWord_apply_of_notMem (by omega)

theorem MemoryType.code_lt (t : MemoryType) : t.code < 4 := by
  cases t <;> decide

@[simp] theorem infoFilled_setFilled_self (m : ByteMemory) (r : ℕ) (b : BitVec 8) :
    infoFilled (setFilled m r b) r = b := by
  have hb := b.isLt
  have hw := info_lt m r .entry
  unfold infoFilled setFilled
  rw [info_setInfo (Or.inl rfl), if_pos ⟨rfl, rfl⟩]
  apply BitVec.eq_of_toNat_eq
  rw [BitVec.toNat_ofNat]
  omega

theorem infoReserved_setFilled_self (m : ByteMemory) (r : ℕ) (b : BitVec 8) :
    infoReserved (setFilled m r b) r = infoReserved m r := by
  have hb := b.isLt
  have hw := info_lt m r .entry
  unfold infoReserved setFilled
  rw [info_setInfo (Or.inl rfl), if_pos ⟨rfl, rfl⟩]
  omega

theorem infoFilled_setType_self (m : ByteMemory) (r : ℕ) (t : MemoryType) :
    infoFilled (setType m r t) r = infoFilled m r := by
  have ht := t.code_lt
  have hw := info_lt m r .entry
  unfold infoFilled setType
  rw [info_setInfo (Or.inl rfl), if_pos ⟨rfl, rfl⟩]
  congr 1
  omega

theorem infoReserved_setType_self (m : ByteMemory) (r : ℕ) (t : MemoryType) :
    infoReserved (setType m r t) r = infoReserved m r := by
  have ht := t.code_lt
  have hw := info_lt m r .entry
  unfold infoReserved setType
  rw [info_setInfo (Or.inl rfl), if_pos ⟨rfl, rfl⟩]
  omega

theorem infoType_setType_self (m : ByteMemory) (r : ℕ) (t : MemoryType) :
    infoType (setType m r t) r = t.code := by
  have ht := t.code_lt
  have hw := info_lt m r .entry
  unfold infoType setType
  rw [info_setInfo (Or.inl rfl), if_pos ⟨rfl, rfl⟩]
  omega

theorem infoType_setFilled_self (m : ByteMemory) (r : ℕ) (b : BitVec 8) :
    infoType (setFilled m r b) r = infoType m r := by
  have hb := b.isLt
  have hw := info_lt m r .entry
  unfold infoType setFilled
  rw [info_setInfo (Or.inl rfl), if_pos ⟨rfl, rfl⟩]
  omega

theorem infoType_setReserved_self (m : ByteMemory) (r : ℕ) :
    infoType (setReserved m r) r = infoType m r := by
  have hw := info_lt m r .entry
  unfold infoType setReserved
  rw [info_setInfo (Or.inl rfl), if_pos ⟨rfl, rfl⟩]
  omega

theorem infoFilled_setReserved_self (m : ByteMemory) (r : ℕ) :
    infoFilled (setReserved m r) r = infoFilled m r := by
  have hw := info_lt m r .entry
  unfold infoFilled setReserved
  rw [info_setInfo (Or.inl rfl), if_pos ⟨rfl, rfl⟩]
  apply BitVec.eq_of_toNat_eq
  rw [BitVec.toNat_ofNat, BitVec.toNat_ofNat]
  omega

theorem infoReserved_setReserved_self (m : ByteMemory) (r : ℕ) :
    infoReserved (setReserved m r) r = 1 := by
  have hw := info_lt m r .entry
  unfold infoReserved setReserved
  rw [info_setInfo (Or.inl rfl), if_pos ⟨rfl, rfl⟩]
  omega

/-- Only the first word of record `r`, if anything, differs between `m` and
`m'`. -/
structure EntryFrame (r : ℕ) (m m' : ByteMemory) : Prop where
  other : ∀ r' f', Apart r r' → (r' ≠ r ∨ f' ≠ .entry) → info m' r' f' = info m r' f'
  outside : ∀ x, x < r ∨ r + 16 ≤ x → m' x = m x

theorem entryFrame_setInfo (m : ByteMemory) (r v : ℕ) :
    EntryFrame r m (setInfo m r .entry v) where
  other r' f' h hne := by
    rw [info_setInfo h, if_neg fun h' => hne.elim (fun h => h h'.1) fun h => h h'.2]
  outside x h := setInfo_apply_of_notMem h

theorem EntryFrame.trans (h : EntryFrame r m m') (h' : EntryFrame r m' m'') :
    EntryFrame r m m'' where
  other r' f' ha hne := (h'.other r' f' ha hne).trans (h.other r' f' ha hne)
  outside x hx := (h'.outside x hx).trans (h.outside x hx)

theorem entryFrame_setFilled (m : ByteMemory) (r : ℕ) (b : BitVec 8) :
    EntryFrame r m (setFilled m r b) :=
  entryFrame_setInfo m r _

theorem entryFrame_setType (m : ByteMemory) (r : ℕ) (t : MemoryType) :
    EntryFrame r m (setType m r t) :=
  entryFrame_setInfo m r _

/-! ### A family of records

The records of the managed slices, pairwise apart.  Writes to links go to some
record of the family, or nowhere, whichever list they belong to; that is all
that is needed to frame them. -/

/-- The records of the slices below `n` are pairwise disjoint and lie in the
address space. -/
structure RecordsApart (record : ℕ → ℕ) (n : ℕ) : Prop where
  disjoint : ∀ i < n, ∀ j < n, i ≠ j → record i + 16 ≤ record j ∨ record j + 16 ≤ record i
  bounded : ∀ i < n, record i + 16 ≤ 2 ^ 32

namespace RecordsApart

variable {i j : ℕ}

theorem apart (h : RecordsApart record n) (hi : i < n) (hj : j < n) :
    Apart (record i) (record j) := by
  by_cases heq : i = j
  · exact Or.inl (congrArg record heq)
  · exact Or.inr (h.disjoint i hi j hj heq)

theorem inj (h : RecordsApart record n) (hi : i < n) (hj : j < n) :
    record i = record j ↔ i = j := by
  constructor
  · intro heq
    by_contra hne
    have := h.disjoint i hi j hj hne
    omega
  · exact congrArg record

/-- `info_setInfo` for two records of the family. -/
theorem info_setInfo (h : RecordsApart record n) (hk : k < n) (hi : i < n) :
    info (setInfo m (record k) f v) (record i) f' =
      if i = k ∧ f' = f then v % 2 ^ 32 else info m (record i) f' := by
  rw [Pmm.info_setInfo (h.apart hk hi)]
  simp only [h.inj hi hk]

end RecordsApart

/-- What the `next` and `prev` words of records hold: null or the address of a
record.  A write through such a word is a write to a record, or none. -/
def IsLink (record : ℕ → ℕ) (n p : ℕ) : Prop := p = 0 ∨ ∃ j < n, p = record j

/-- Nothing changed between `m` and `m'` except `next` and `prev` words of
records, which only the lists read. -/
structure LinksFrame (record : ℕ → ℕ) (n : ℕ) (m m' : ByteMemory) : Prop where
  entry : ∀ i < n, info m' (record i) .entry = info m (record i) .entry
  slice : ∀ i < n, info m' (record i) .slice = info m (record i) .slice
  outside : ∀ x, (∀ i < n, x < record i ∨ record i + 16 ≤ x) → m' x = m x

namespace LinksFrame

theorem refl (record : ℕ → ℕ) (n : ℕ) (m : ByteMemory) : LinksFrame record n m m :=
  ⟨fun _ _ => rfl, fun _ _ => rfl, fun _ _ => rfl⟩

theorem trans (h : LinksFrame record n m m') (h' : LinksFrame record n m' m'') :
    LinksFrame record n m m'' where
  entry i hi := (h'.entry i hi).trans (h.entry i hi)
  slice i hi := (h'.slice i hi).trans (h.slice i hi)
  outside x hx := (h'.outside x hx).trans (h.outside x hx)

theorem setInfo (hr : RecordsApart record n) (hk : k < n) (hf : f = .next ∨ f = .prev) :
    LinksFrame record n m (setInfo m (record k) f v) where
  entry i hi := by
    rw [hr.info_setInfo hk hi, if_neg]
    rintro ⟨-, rfl⟩
    simp at hf
  slice i hi := by
    rw [hr.info_setInfo hk hi, if_neg]
    rintro ⟨-, rfl⟩
    simp at hf
  outside x hx := setInfo_apply_of_notMem (hx k hk)

/-- A write through a link, unless it is null. -/
theorem setLink {p : ℕ} (hr : RecordsApart record n) (hp : IsLink record n p)
    (hf : f = .next ∨ f = .prev) :
    LinksFrame record n m (if p ≠ 0 then Pmm.setInfo m p f v else m) := by
  by_cases h0 : p = 0
  · rw [if_neg (not_not.mpr h0)]
    exact refl record n m
  · obtain ⟨j, hj, rfl⟩ := hp.resolve_left h0
    rw [if_pos h0]
    exact setInfo hr hj hf

theorem filled {i : ℕ} (h : LinksFrame record n m m') (hi : i < n) :
    infoFilled m' (record i) = infoFilled m (record i) := by
  unfold infoFilled
  rw [h.entry i hi]

theorem reserved {i : ℕ} (h : LinksFrame record n m m') (hi : i < n) :
    infoReserved m' (record i) = infoReserved m (record i) := by
  unfold infoReserved
  rw [h.entry i hi]

theorem type {i : ℕ} (h : LinksFrame record n m m') (hi : i < n) :
    infoType m' (record i) = infoType m (record i) := by
  unfold infoType
  rw [h.entry i hi]

end LinksFrame

/-! ### The lists

The four lists are disjoint, and run through records of the family.  A list
operation is a change of one of them, for which `update` asks what the new
links are and that no others have changed. -/

/-- The head fields reach disjoint doubly linked lists through the records of
the slices `lists l`.  A record at address 0 would be the null pointer, and is
on no list. -/
structure Linked (record : ℕ → ℕ) (n : ℕ) (s : PmmState) (lists : PmmList → List ℕ) : Prop where
  apart : RecordsApart record n
  lt : ∀ l, ∀ k ∈ lists l, k < n
  nodup : ∀ l, (lists l).Nodup
  disjoint : ∀ l l' k, k ∈ lists l → k ∈ lists l' → l = l'
  dlist : ∀ l, DList (info s.mem · .next) (info s.mem · .prev) (s.head l) ((lists l).map record)

namespace Linked

theorem map_nodup (h : Linked record n s lists) (l : PmmList) :
    ((lists l).map record).Nodup := by
  refine (List.nodup_map_iff_inj_on (h.nodup l)).mpr fun i hi j hj heq => ?_
  exact (h.apart.inj (h.lt l i hi) (h.lt l j hj)).mp heq

theorem record_ne_zero (h : Linked record n s lists) (hk : k ∈ lists l) : record k ≠ 0 :=
  (h.dlist l).ne_zero (List.mem_map_of_mem hk)

/-- A head field is null or the record of the first slice of its list. -/
theorem head_cases (h : Linked record n s lists) (l : PmmList) :
    (s.head l = 0 ∧ lists l = []) ∨
      ∃ k rest, lists l = k :: rest ∧ s.head l = record k ∧ record k ≠ 0 ∧ k < n := by
  have hd := (h.dlist l).chain
  cases hl : lists l with
  | nil =>
      rw [hl] at hd
      exact Or.inl ⟨hd, rfl⟩
  | cons k rest =>
      rw [hl] at hd
      exact Or.inr ⟨k, rest, rfl, hd.1, hd.2.1, h.lt l k (hl ▸ List.mem_cons_self)⟩

theorem head_link (h : Linked record n s lists) (l : PmmList) : IsLink record n (s.head l) := by
  rcases h.head_cases l with ⟨h0, -⟩ | ⟨j, -, -, hj, -, hjn⟩
  · exact Or.inl h0
  · exact Or.inr ⟨j, hjn, hj⟩

theorem isLink_of_mem (h : Linked record n s lists) {p : ℕ}
    (hp : p = 0 ∨ p ∈ (lists l).map record) : IsLink record n p := by
  rcases hp with h0 | hmem
  · exact Or.inl h0
  · obtain ⟨j, hj, rfl⟩ := List.mem_map.mp hmem
    exact Or.inr ⟨j, h.lt l j hj, rfl⟩

/-- The successor of a record on a list. -/
theorem next_link (h : Linked record n s lists) (hk : k ∈ lists l) :
    IsLink record n (info s.mem (record k) .next) :=
  h.isLink_of_mem ((h.dlist l).next_mem (List.mem_map_of_mem hk))

/-- The predecessor of a record on a list. -/
theorem prev_link (h : Linked record n s lists) (hk : k ∈ lists l) :
    IsLink record n (info s.mem (record k) .prev) :=
  h.isLink_of_mem ((h.dlist l).prev_mem (List.mem_map_of_mem hk))

/-- The lists survive a change of memory that keeps the links and the heads. -/
theorem of_info_eq {s' : PmmState} (h : Linked record n s lists)
    (hhead : ∀ l, s'.head l = s.head l)
    (hn : ∀ i < n, info s'.mem (record i) .next = info s.mem (record i) .next)
    (hp : ∀ i < n, info s'.mem (record i) .prev = info s.mem (record i) .prev) :
    Linked record n s' lists where
  apart := h.apart
  lt := h.lt
  nodup := h.nodup
  disjoint := h.disjoint
  dlist l := by
    rw [hhead]
    refine (h.dlist l).congr ?_ ?_
    · intro y hy
      obtain ⟨i, hi, rfl⟩ := List.mem_map.mp hy
      exact hn i (h.lt l i hi)
    · intro y hy
      obtain ⟨i, hi, rfl⟩ := List.mem_map.mp hy
      exact hp i (h.lt l i hi)

/-- The bookkeeping half of a list update: one list is replaced, and the links
of the other lists are as before. -/
theorem update {s' : PmmState} {xs : List ℕ} (h : Linked record n s lists)
    (hlt : ∀ k ∈ xs, k < n) (hnd : xs.Nodup)
    (hdis : ∀ l', l' ≠ l → ∀ k ∈ xs, k ∉ lists l')
    (hhead : ∀ l', l' ≠ l → s'.head l' = s.head l')
    (hdl : DList (info s'.mem · .next) (info s'.mem · .prev) (s'.head l) (xs.map record))
    (hn : ∀ l', l' ≠ l → ∀ i ∈ lists l', info s'.mem (record i) .next = info s.mem (record i) .next)
    (hp : ∀ l', l' ≠ l → ∀ i ∈ lists l',
      info s'.mem (record i) .prev = info s.mem (record i) .prev) :
    Linked record n s' (Function.update lists l xs) where
  apart := h.apart
  lt l' k hk := by
    by_cases hl : l' = l
    · subst hl
      exact hlt k (by simpa using hk)
    · exact h.lt l' k (by simpa [hl] using hk)
  nodup l' := by
    by_cases hl : l' = l
    · subst hl
      simpa using hnd
    · simpa [hl] using h.nodup l'
  disjoint l₁ l₂ k h₁ h₂ := by
    by_cases hl₁ : l₁ = l <;> by_cases hl₂ : l₂ = l
    · rw [hl₁, hl₂]
    · subst hl₁
      exact absurd (by simpa [hl₂] using h₂) (hdis l₂ hl₂ k (by simpa using h₁))
    · subst hl₂
      exact absurd (by simpa [hl₁] using h₁) (hdis l₁ hl₁ k (by simpa using h₂))
    · exact h.disjoint l₁ l₂ k (by simpa [hl₁] using h₁) (by simpa [hl₂] using h₂)
  dlist l' := by
    by_cases hl : l' = l
    · subst hl
      simpa using hdl
    · rw [Function.update_of_ne hl, hhead l' hl]
      refine (h.dlist l').congr ?_ ?_
      · intro y hy
        obtain ⟨i, hi, rfl⟩ := List.mem_map.mp hy
        exact hn l' hl i hi
      · intro y hy
        obtain ⟨i, hi, rfl⟩ := List.mem_map.mp hy
        exact hp l' hl i hi

end Linked

/-! ### `push_to_ll`

The entry goes to the front.  Its own `prev` is not written, and has to be
null already. -/

@[simp] theorem pushToLl_head (s : PmmState) (l l' : PmmList) (e : ℕ) :
    (pushToLl s l e).head l' = if l' = l then e else s.head l' := by
  simp [pushToLl, PmmState.head_setHead]

@[simp] theorem pushToLl_start (s : PmmState) (l : PmmList) (e : ℕ) :
    (pushToLl s l e).manager.start = s.manager.start := by
  simp [pushToLl]

@[simp] theorem pushToLl_endAddress (s : PmmState) (l : PmmList) (e : ℕ) :
    (pushToLl s l e).manager.endAddress = s.manager.endAddress := by
  simp [pushToLl]

theorem pushToLl_mem (s : PmmState) (l : PmmList) (e : ℕ) :
    (pushToLl s l e).mem =
      setInfo (if s.head l ≠ 0 then setInfo s.mem (s.head l) .prev e else s.mem)
        e .next (s.head l) := by
  simp [pushToLl]

theorem pushToLl_frame (hr : RecordsApart record n) (hk : k < n)
    (hhead : IsLink record n (s.head l)) :
    LinksFrame record n s.mem (pushToLl s l (record k)).mem := by
  rw [pushToLl_mem]
  exact (LinksFrame.setLink hr hhead (Or.inr rfl)).trans
    (LinksFrame.setInfo hr hk (Or.inl rfl))

namespace Linked

theorem push_frame (h : Linked record n s lists) (hk : k < n) :
    LinksFrame record n s.mem (pushToLl s l (record k)).mem :=
  pushToLl_frame h.apart hk (h.head_link l)

theorem push_next (h : Linked record n s lists) (hk : k < n) {i : ℕ} (hi : i < n) :
    info (pushToLl s l (record k)).mem (record i) .next =
      if i = k then s.head l else info s.mem (record i) .next := by
  have hlt : s.head l < 2 ^ 32 := by
    rcases h.head_cases l with ⟨h0, -⟩ | ⟨j, rest, -, hj, -, hjn⟩
    · omega
    · have := h.apart.bounded j hjn
      omega
  rw [pushToLl_mem, h.apart.info_setInfo hk hi, Nat.mod_eq_of_lt hlt]
  by_cases hik : i = k
  · simp [hik]
  · rw [if_neg fun heq => hik heq.1, if_neg hik]
    rcases h.head_cases l with ⟨h0, -⟩ | ⟨j, rest, -, hj, hj0, hjn⟩
    · rw [if_neg (by simp [h0])]
    · rw [if_pos (by rw [hj]; exact hj0), hj, h.apart.info_setInfo hjn hi]
      simp

theorem push_prev (h : Linked record n s lists) (hk : k < n) {i : ℕ} (hi : i < n) :
    info (pushToLl s l (record k)).mem (record i) .prev =
      if s.head l ≠ 0 ∧ record i = s.head l then record k
      else info s.mem (record i) .prev := by
  have hlt : record k < 2 ^ 32 := by
    have := h.apart.bounded k hk
    omega
  rw [pushToLl_mem, h.apart.info_setInfo hk hi, if_neg (by simp)]
  rcases h.head_cases l with ⟨h0, -⟩ | ⟨j, rest, -, hj, hj0, hjn⟩
  · simp [h0]
  · have hne : s.head l ≠ 0 := hj ▸ hj0
    rw [if_pos hne, hj, h.apart.info_setInfo hjn hi, Nat.mod_eq_of_lt hlt]
    simp [hj0, h.apart.inj hi hjn]

/-- Pushing the record of a slice that is on no list, and whose `prev` is
null.  The old head is the only other record that is written to, and the other
lists do not have it. -/
theorem push (h : Linked record n s lists) (hk : k < n) (hnew : ∀ l, k ∉ lists l)
    (h0 : record k ≠ 0) (hprev : info s.mem (record k) .prev = 0) :
    Linked record n (pushToLl s l (record k)) (Function.update lists l (k :: lists l)) := by
  have hmem : ∀ l' i, i ∈ lists l' → i < n ∧ i ≠ k := by
    intro l' i hi
    exact ⟨h.lt l' i hi, fun heq => hnew l' (heq ▸ hi)⟩
  have hhead_prev : ∀ l', l' ≠ l → ∀ i ∈ lists l', ¬(s.head l ≠ 0 ∧ record i = s.head l) := by
    rintro l' hl' i hi ⟨hne, heq⟩
    rcases h.head_cases l with ⟨h0, -⟩ | ⟨j, rest, hjl, hj, -, hjn⟩
    · exact hne h0
    · have hij : i = j := (h.apart.inj (hmem l' i hi).1 hjn).mp (heq.trans hj)
      exact hl' (h.disjoint l' l i hi (by rw [hij, hjl]; exact List.mem_cons_self))
  refine h.update ?_ ?_ ?_ ?_ ?_ ?_ ?_
  · intro i hi
    rcases List.mem_cons.mp hi with rfl | hi
    · exact hk
    · exact h.lt l i hi
  · exact List.nodup_cons.mpr ⟨hnew l, h.nodup l⟩
  · intro l' hl' i hi
    rcases List.mem_cons.mp hi with rfl | hi
    · exact hnew l'
    · exact fun hi' => hl' (h.disjoint l' l i hi' hi)
  · intro l' hl'
    rw [pushToLl_head, if_neg hl']
  · rw [pushToLl_head, if_pos rfl, List.map_cons]
    refine (h.dlist l).push (h.map_nodup l) h0 ?_ ?_ ?_ ?_
    · simpa using h.push_next hk hk
    · rw [h.push_prev hk hk, hprev, if_neg]
      rintro ⟨hne, heq⟩
      rcases h.head_cases l with ⟨h0, -⟩ | ⟨j, rest, hjl, hj, -, hjn⟩
      · exact hne h0
      · have hkj : k = j := (h.apart.inj hk hjn).mp (heq.trans hj)
        exact hnew l (by rw [hkj, hjl]; exact List.mem_cons_self)
    · intro y hy
      obtain ⟨i, hi, rfl⟩ := List.mem_map.mp hy
      rw [h.push_next hk (hmem l i hi).1, if_neg (hmem l i hi).2]
    · intro y hy
      obtain ⟨i, hi, rfl⟩ := List.mem_map.mp hy
      rw [h.push_prev hk (hmem l i hi).1]
      have hi0 := h.record_ne_zero hi
      by_cases heq : record i = s.head l
      · rw [if_pos ⟨heq ▸ hi0, heq⟩, if_pos heq]
      · rw [if_neg fun h => heq h.2, if_neg heq]
  · intro l' hl' i hi
    rw [h.push_next hk (hmem l' i hi).1, if_neg (hmem l' i hi).2]
  · intro l' hl' i hi
    rw [h.push_prev hk (hmem l' i hi).1, if_neg (hhead_prev l' hl' i hi)]

end Linked

/-! ### `pop_from_ll`

The first record is taken off, and the `prev` of the next one cleared. -/

/-- The memory `pop_from_ll` leaves when `top` is the head. -/
def popMem (m : ByteMemory) (top : ℕ) : ByteMemory :=
  setInfo (setInfo
    (if info m top .next ≠ 0 then setInfo m (info m top .next) .prev 0 else m)
      top .next 0) top .prev 0

theorem popFromLl_eq (h : s.head l ≠ 0) :
    popFromLl s l =
      .ok ((s.withMem (popMem s.mem (s.head l))).setHead l (info s.mem (s.head l) .next),
        s.head l) := by
  unfold popFromLl popMem
  rw [if_neg h]

theorem popMem_frame (hr : RecordsApart record n) (hk : k < n)
    (hnext : IsLink record n (info m (record k) .next)) :
    LinksFrame record n m (popMem m (record k)) :=
  ((LinksFrame.setLink hr hnext (Or.inr rfl)).trans
    (LinksFrame.setInfo hr hk (Or.inl rfl))).trans (LinksFrame.setInfo hr hk (Or.inr rfl))

namespace Linked

/-- The successor of the first record is the record of the second slice, if
any. -/
theorem next_of_cons (h : Linked record n s lists) {rest : List ℕ} (hl : lists l = k :: rest) :
    info s.mem (record k) .next = (rest.map record).headD 0 := by
  have hd := (h.dlist l).chain
  rw [hl] at hd
  exact Chain.head_eq hd.2.2

theorem popMem_frame (h : Linked record n s lists) {rest : List ℕ} (hl : lists l = k :: rest) :
    LinksFrame record n s.mem (popMem s.mem (record k)) := by
  have hkl : k ∈ lists l := hl ▸ List.mem_cons_self
  exact Pmm.popMem_frame h.apart (h.lt l k hkl) (h.next_link hkl)

theorem popMem_next (h : Linked record n s lists) {rest : List ℕ} (hl : lists l = k :: rest)
    {i : ℕ} (hi : i < n) :
    info (popMem s.mem (record k)) (record i) .next =
      if i = k then 0 else info s.mem (record i) .next := by
  have hk : k < n := h.lt l k (hl ▸ List.mem_cons_self)
  unfold popMem
  rw [h.apart.info_setInfo hk hi, if_neg (by simp), h.apart.info_setInfo hk hi]
  by_cases hik : i = k
  · simp [hik]
  · rw [if_neg fun heq => hik heq.1, if_neg hik, h.next_of_cons hl]
    cases hr : rest with
    | nil => simp
    | cons j rest' =>
        have hj : j ∈ lists l := by rw [hl, hr]; simp
        rw [if_pos (by simpa using h.record_ne_zero hj)]
        show info (setInfo s.mem (record j) .prev 0) (record i) .next = _
        rw [h.apart.info_setInfo (h.lt l j hj) hi]
        simp

theorem popMem_prev (h : Linked record n s lists) {rest : List ℕ} (hl : lists l = k :: rest)
    {i : ℕ} (hi : i < n) :
    info (popMem s.mem (record k)) (record i) .prev =
      if i = k ∨ (rest ≠ [] ∧ record i = info s.mem (record k) .next) then 0
      else info s.mem (record i) .prev := by
  have hk : k < n := h.lt l k (hl ▸ List.mem_cons_self)
  unfold popMem
  rw [h.apart.info_setInfo hk hi]
  by_cases hik : i = k
  · simp [hik]
  · rw [if_neg fun heq => hik heq.1, h.apart.info_setInfo hk hi, if_neg (by simp),
      h.next_of_cons hl]
    cases hr : rest with
    | nil => simp [hik]
    | cons j rest' =>
        have hj : j ∈ lists l := by rw [hl, hr]; simp
        rw [if_pos (by simpa using h.record_ne_zero hj)]
        show info (setInfo s.mem (record j) .prev 0) (record i) .prev = _
        rw [h.apart.info_setInfo (h.lt l j hj) hi]
        simp [hik, h.apart.inj hi (h.lt l j hj)]

/-- Popping a list that is not empty: its first record, whose `prev` is null
then.  The other lists keep their heads. -/
theorem pop (h : Linked record n s lists) {rest : List ℕ} (hl : lists l = k :: rest) :
    ∃ s', popFromLl s l = .ok (s', record k) ∧
      Linked record n s' (Function.update lists l rest) ∧
      LinksFrame record n s.mem s'.mem ∧
      info s'.mem (record k) .prev = 0 ∧
      (∀ l', l' ≠ l → s'.head l' = s.head l') ∧
      s'.manager.start = s.manager.start ∧ s'.manager.endAddress = s.manager.endAddress := by
  have hkl : k ∈ lists l := hl ▸ List.mem_cons_self
  have hk : k < n := h.lt l k hkl
  have hd := h.dlist l
  rw [hl] at hd
  have hhead : s.head l = record k := hd.chain.1
  have hrest : ∀ i ∈ rest, i ∈ lists l := fun i hi => by rw [hl]; exact List.mem_cons_of_mem k hi
  have hnd : k ∉ rest ∧ rest.Nodup := List.nodup_cons.mp (hl ▸ h.nodup l)
  have hrest_ne : ∀ i ∈ rest, i ≠ k := fun i hi heq => hnd.1 (heq ▸ hi)
  have hother : ∀ l', l' ≠ l → ∀ i ∈ lists l', i < n ∧ i ≠ k := by
    intro l' hl' i hi
    exact ⟨h.lt l' i hi, fun heq => hl' (h.disjoint l' l i hi (heq ▸ hkl))⟩
  refine ⟨_, hhead ▸ popFromLl_eq (hhead ▸ h.record_ne_zero hkl), ?_, ?_, ?_, ?_, ?_, ?_⟩
  · refine h.update (fun i hi => h.lt l i (hrest i hi)) hnd.2 ?_ ?_ ?_ ?_ ?_
    · intro l' hl' i hi hi'
      exact hl' (h.disjoint l' l i hi' (hrest i hi))
    · intro l' hl'
      rw [PmmState.head_setHead, if_neg hl', PmmState.head_withMem]
    · rw [PmmState.head_setHead, if_pos rfl, PmmState.setHead_mem, PmmState.withMem_mem]
      refine hd.pop (List.nodup_cons.mp (hl ▸ h.map_nodup l)).2 ?_ ?_
      · intro y hy
        obtain ⟨i, hi, rfl⟩ := List.mem_map.mp hy
        rw [h.popMem_next hl (h.lt l i (hrest i hi)), if_neg (hrest_ne i hi)]
      · intro y hy
        obtain ⟨i, hi, rfl⟩ := List.mem_map.mp hy
        rw [h.popMem_prev hl (h.lt l i (hrest i hi))]
        have hne : rest ≠ [] := List.ne_nil_of_mem hi
        simp only [hrest_ne i hi, hne, false_or, ne_eq, not_false_eq_true, true_and]
    · intro l' hl' i hi
      rw [PmmState.setHead_mem, PmmState.withMem_mem, h.popMem_next hl (hother l' hl' i hi).1,
        if_neg (hother l' hl' i hi).2]
    · intro l' hl' i hi
      rw [PmmState.setHead_mem, PmmState.withMem_mem, h.popMem_prev hl (hother l' hl' i hi).1,
        if_neg]
      rintro (heq | ⟨hne, heq⟩)
      · exact (hother l' hl' i hi).2 heq
      · rw [h.next_of_cons hl] at heq
        cases hr : rest with
        | nil => exact hne hr
        | cons j rest' =>
            have hj : j ∈ lists l := hrest j (by rw [hr]; exact List.mem_cons_self)
            have hij : i = j :=
              (h.apart.inj (h.lt l' i hi) (h.lt l j hj)).mp (by rw [heq, hr]; rfl)
            exact hl' (h.disjoint l' l i hi (hij ▸ hj))
  · rw [PmmState.setHead_mem]
    exact h.popMem_frame hl
  · rw [PmmState.setHead_mem, PmmState.withMem_mem, h.popMem_prev hl hk, if_pos (Or.inl rfl)]
  · intro l' hl'
    rw [PmmState.head_setHead, if_neg hl', PmmState.head_withMem]
  · rw [PmmState.setHead_start, PmmState.withMem_manager]
  · rw [PmmState.setHead_endAddress, PmmState.withMem_manager]

end Linked

/-! ### `remove_element_ll`

Four cases, by whether the record has a neighbour on either side; the lemmas
go by the neighbours, each of which is null or another record of the list. -/

theorem unlinkNext_mem (s : PmmState) (l : PmmList) (e : ℕ) :
    (unlinkNext s l e).mem =
      if info s.mem e .prev ≠ 0 then setInfo s.mem (info s.mem e .prev) .next (info s.mem e .next)
      else s.mem := by
  unfold unlinkNext
  split <;> simp

theorem unlinkNext_head (s : PmmState) (l l' : PmmList) (e : ℕ) :
    (unlinkNext s l e).head l' =
      if l' = l ∧ info s.mem e .prev = 0 then info s.mem e .next else s.head l' := by
  unfold unlinkNext
  by_cases h : info s.mem e .prev = 0
  · simp [h, PmmState.head_setHead]
  · simp [h]

theorem removeElementLl_mem (s : PmmState) (l : PmmList) (e : ℕ) :
    (removeElementLl s l e).mem =
      setInfo (setInfo (unlinkNext (s.withMem (unlinkPrev s.mem e)) l e).mem e .next 0)
        e .prev 0 := rfl

theorem removeElementLl_head (s : PmmState) (l l' : PmmList) (e : ℕ) :
    (removeElementLl s l e).head l' =
      if l' = l ∧ info (unlinkPrev s.mem e) e .prev = 0 then info (unlinkPrev s.mem e) e .next
      else s.head l' := by
  unfold removeElementLl
  rw [PmmState.head_withMem, unlinkNext_head, PmmState.withMem_mem, PmmState.head_withMem]

@[simp] theorem removeElementLl_start (s : PmmState) (l : PmmList) (e : ℕ) :
    (removeElementLl s l e).manager.start = s.manager.start := by
  unfold removeElementLl unlinkNext
  dsimp only
  split <;> simp

@[simp] theorem removeElementLl_endAddress (s : PmmState) (l : PmmList) (e : ℕ) :
    (removeElementLl s l e).manager.endAddress = s.manager.endAddress := by
  unfold removeElementLl unlinkNext
  dsimp only
  split <;> simp

namespace Linked

/-- The neighbours of a record are null or records of other slices of the same
list, so that unlinking it writes to no other list. -/
theorem neighbours (h : Linked record n s lists) (hk : k ∈ lists l) :
    (info s.mem (record k) .next = 0 ∨
      ∃ j ∈ lists l, j ≠ k ∧ info s.mem (record k) .next = record j) ∧
    (info s.mem (record k) .prev = 0 ∨
      ∃ j ∈ lists l, j ≠ k ∧ info s.mem (record k) .prev = record j) := by
  obtain ⟨a, b, hab⟩ := List.append_of_mem hk
  have hd := h.dlist l
  rw [hab, List.map_append, List.map_cons] at hd
  have hmid := hd.middle
  have hnd := h.nodup l
  rw [hab] at hnd
  have hnodup := List.nodup_append.mp hnd
  constructor
  · rw [hmid.1]
    cases b with
    | nil => exact Or.inl rfl
    | cons j b =>
        refine Or.inr ⟨j, by rw [hab]; simp, ?_, rfl⟩
        rintro rfl
        exact (List.nodup_cons.mp hnodup.2.1).1 List.mem_cons_self
  · rw [hmid.2]
    rcases List.eq_nil_or_concat' a with rfl | ⟨a, j, rfl⟩
    · exact Or.inl rfl
    · refine Or.inr ⟨j, by rw [hab]; simp, ?_, by simp⟩
      rintro rfl
      exact hnodup.2.2 j (by simp) j (by simp) rfl

theorem map_erase (h : Linked record n s lists) (hk : k ∈ lists l) :
    ((lists l).erase k).map record = ((lists l).map record).erase (record k) := by
  obtain ⟨a, b, hab⟩ := List.append_of_mem hk
  have hnd := List.nodup_append.mp (hab ▸ h.nodup l)
  have hka : k ∉ a := fun hka => hnd.2.2 k hka k List.mem_cons_self rfl
  have hra : record k ∉ a.map record := by
    intro hmem
    obtain ⟨i, hi, heq⟩ := List.mem_map.mp hmem
    have hil : i ∈ lists l := by rw [hab]; simp [hi]
    exact hka ((h.apart.inj (h.lt l i hil) (h.lt l k hk)).mp heq ▸ hi)
  rw [hab, List.erase_append_right _ hka, List.erase_cons_head, List.map_append, List.map_append,
    List.map_cons, List.erase_append_right _ hra, List.erase_cons_head]

/-- What the record of `k` and the other records say after `unlinkPrev`: only
the `prev` of the next one has changed. -/
theorem unlinkPrev_info (h : Linked record n s lists) (hk : k ∈ lists l) {i : ℕ} (hi : i < n) :
    info (unlinkPrev s.mem (record k)) (record i) f =
      if f = .prev ∧ info s.mem (record k) .next ≠ 0 ∧ record i = info s.mem (record k) .next
      then info s.mem (record k) .prev else info s.mem (record i) f := by
  have hlt := info_lt s.mem (record k) .prev
  unfold unlinkPrev
  rcases (h.neighbours hk).1 with h0 | ⟨j, hj, -, hnext⟩
  · simp [h0]
  · have hj0 := h.record_ne_zero hj
    rw [hnext, if_pos hj0, h.apart.info_setInfo (h.lt l j hj) hi, Nat.mod_eq_of_lt hlt]
    simp [hj0, h.apart.inj hi (h.lt l j hj), and_comm]

theorem unlinkPrev_self (h : Linked record n s lists) (hk : k ∈ lists l) :
    info (unlinkPrev s.mem (record k)) (record k) f = info s.mem (record k) f := by
  rw [h.unlinkPrev_info hk (h.lt l k hk), if_neg]
  rintro ⟨-, hne, heq⟩
  rcases (h.neighbours hk).1 with h0 | ⟨j, hj, hjk, hnext⟩
  · exact hne h0
  · exact hjk ((h.apart.inj (h.lt l k hk) (h.lt l j hj)).mp (heq.trans hnext)).symm

theorem remove_info (h : Linked record n s lists) (hk : k ∈ lists l) {i : ℕ} (hi : i < n)
    (hik : i ≠ k) :
    info (removeElementLl s l (record k)).mem (record i) f =
      if f = .next ∧ info s.mem (record k) .prev ≠ 0 ∧ record i = info s.mem (record k) .prev
      then info s.mem (record k) .next
      else if f = .prev ∧ info s.mem (record k) .next ≠ 0 ∧
        record i = info s.mem (record k) .next
      then info s.mem (record k) .prev
      else info s.mem (record i) f := by
  have hkn := h.lt l k hk
  have hlt := info_lt s.mem (record k) .next
  rw [removeElementLl_mem, h.apart.info_setInfo hkn hi, if_neg fun h => hik h.1,
    h.apart.info_setInfo hkn hi, if_neg fun h => hik h.1]
  rw [unlinkNext_mem, PmmState.withMem_mem, h.unlinkPrev_self hk, h.unlinkPrev_self hk]
  rcases (h.neighbours hk).2 with h0 | ⟨j, hj, -, hprev⟩
  · simp [h0, h.unlinkPrev_info hk hi]
  · have hj0 := h.record_ne_zero hj
    rw [hprev, if_pos hj0, h.apart.info_setInfo (h.lt l j hj) hi, Nat.mod_eq_of_lt hlt,
      h.unlinkPrev_info hk hi, hprev]
    simp [hj0, h.apart.inj hi (h.lt l j hj), and_comm]

theorem remove_frame (h : Linked record n s lists) (hk : k ∈ lists l) :
    LinksFrame record n s.mem (removeElementLl s l (record k)).mem := by
  have hkn := h.lt l k hk
  rw [removeElementLl_mem, unlinkNext_mem, PmmState.withMem_mem, h.unlinkPrev_self hk,
    h.unlinkPrev_self hk]
  have hprev : LinksFrame record n s.mem (unlinkPrev s.mem (record k)) :=
    LinksFrame.setLink h.apart (h.next_link hk) (Or.inr rfl)
  exact ((hprev.trans (LinksFrame.setLink h.apart (h.prev_link hk) (Or.inl rfl))).trans
    (LinksFrame.setInfo h.apart hkn (Or.inl rfl))).trans
    (LinksFrame.setInfo h.apart hkn (Or.inr rfl))

/-- Unlinking the record of a slice that is on list `l`, wherever it is in the
list.  The head of the list is written if it was the first. -/
theorem remove (h : Linked record n s lists) (hk : k ∈ lists l) :
    Linked record n (removeElementLl s l (record k))
        (Function.update lists l ((lists l).erase k)) ∧
      info (removeElementLl s l (record k)).mem (record k) .prev = 0 := by
  have hkn := h.lt l k hk
  have hmem : ∀ l' i, i ∈ lists l' → i < n := fun l' i hi => h.lt l' i hi
  have hnext_ne : ∀ i ∈ lists l, record i ≠ 0 := fun i hi => h.record_ne_zero hi
  -- neither neighbour of `k` is on another list
  have hneigh : ∀ l', l' ≠ l → ∀ i ∈ lists l', i ≠ k ∧
      ¬(info s.mem (record k) .next ≠ 0 ∧ record i = info s.mem (record k) .next) ∧
      ¬(info s.mem (record k) .prev ≠ 0 ∧ record i = info s.mem (record k) .prev) := by
    intro l' hl' i hi
    refine ⟨fun heq => hl' (h.disjoint l' l i hi (heq ▸ hk)), ?_, ?_⟩
    · rintro ⟨hne, heq⟩
      rcases (h.neighbours hk).1 with h0 | ⟨j, hj, -, hnext⟩
      · exact hne h0
      · have hij := (h.apart.inj (hmem l' i hi) (hmem l j hj)).mp (heq.trans hnext)
        exact hl' (h.disjoint l' l i hi (hij ▸ hj))
    · rintro ⟨hne, heq⟩
      rcases (h.neighbours hk).2 with h0 | ⟨j, hj, -, hprev⟩
      · exact hne h0
      · have hij := (h.apart.inj (hmem l' i hi) (hmem l j hj)).mp (heq.trans hprev)
        exact hl' (h.disjoint l' l i hi (hij ▸ hj))
  have hself : info (removeElementLl s l (record k)).mem (record k) .prev = 0 := by
    rw [removeElementLl_mem, h.apart.info_setInfo hkn hkn, if_pos ⟨rfl, rfl⟩, Nat.zero_mod]
  refine ⟨h.update ?_ ((h.nodup l).erase k) ?_ ?_ ?_ ?_ ?_, hself⟩
  · intro i hi
    exact hmem l i (List.mem_of_mem_erase hi)
  · intro l' hl' i hi hi'
    exact hl' (h.disjoint l' l i hi' (List.mem_of_mem_erase hi))
  · intro l' hl'
    rw [removeElementLl_head, if_neg fun heq => hl' heq.1]
  · rw [h.map_erase hk, removeElementLl_head, h.unlinkPrev_self hk, h.unlinkPrev_self hk]
    simp only [true_and]
    refine (h.dlist l).remove (h.map_nodup l) (List.mem_map_of_mem hk) ?_ ?_
    · intro y hy hne
      obtain ⟨i, hi, rfl⟩ := List.mem_map.mp hy
      have hik : i ≠ k := fun heq => hne (congrArg record heq)
      have hi0 := hnext_ne i hi
      rw [h.remove_info hk (hmem l i hi) hik]
      by_cases heq : record i = info s.mem (record k) .prev
      · simp [← heq, hi0]
      · simp [heq]
    · intro y hy hne
      obtain ⟨i, hi, rfl⟩ := List.mem_map.mp hy
      have hik : i ≠ k := fun heq => hne (congrArg record heq)
      have hi0 := hnext_ne i hi
      rw [h.remove_info hk (hmem l i hi) hik]
      by_cases heq : record i = info s.mem (record k) .next
      · simp [← heq, hi0]
      · simp [heq]
  · intro l' hl' i hi
    obtain ⟨hik, -, hprev⟩ := hneigh l' hl' i hi
    rw [h.remove_info hk (hmem l' i hi) hik, if_neg fun heq => hprev heq.2, if_neg (by simp)]
  · intro l' hl' i hi
    obtain ⟨hik, hnext, -⟩ := hneigh l' hl' i hi
    rw [h.remove_info hk (hmem l' i hi) hik, if_neg (by simp), if_neg fun heq => hnext heq.2]

end Linked

end CourseOs.Pmm
