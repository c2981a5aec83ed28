import CourseOs.Lib.Ledger
import CourseOs.Vm.PageTables
import CourseOs.Vm.Sections
import CourseOs.Vm.Walk

/-!
# One page at a time

What mapping and freeing a page do to the translations of all the tables there
are.

* `L1Table.pageWord` — the word that the tables hold for a page, 0 where there
  is none;
* `TablesInv` — the L1 tables lie outside the managed range or are held, and
  no two of their coarse entries lead to the same L2 table, which is held;
* `Rewritten` — the word for one page has changed, and for no other page of
  any table;
* `TablesInv.map`, `vm2FreePage_spec` — this is so for both functions.

A coarse entry that leads to the L2 table of another entry would make two
pages one, and an L2 table that is not empty when it is taken would map pages
nobody has asked for.  The manager gives out each object once and zeroes it,
so neither happens.

Pages are numbered across the whole of a table, 256 of them to an entry, so
that a page is a table and a number, and nothing needs to be said of L1 and L2
indices from here on.
-/

namespace CourseOs.Pmm

open ByteMemory

variable {L : Layout} {s s' s₁ : PmmState} {κ κ' κ₁ : ℕ → SliceKind} {T : Set L1Table}
  {t t' : L1Table} {m m' : ByteMemory} {i n v l2 page w : ℕ} {perms : PagePermission}

/-! ### The word for a page

A page of the address space has a word in an L2 table, if the L1 entry for it
is coarse, and none otherwise.  Outside sections the translation is a function
of this word, so that changes to the tables can be followed page by page. -/

/-- The number of the page in which `v` lies. -/
def pageNumber (v : ℕ) : ℕ := v / pageSize

theorem l1ptIndex_eq (v : ℕ) : l1ptIndex v = pageNumber v / 256 := by
  unfold l1ptIndex pageNumber pageSize
  omega

theorem l2ptIndex_eq (v : ℕ) : l2ptIndex v = pageNumber v % 256 := by
  unfold l2ptIndex pageNumber pageSize
  omega

/-- The word that the tables hold for page `n`: that of the L2 table the L1
entry leads to, or 0 where the entry is not coarse. -/
def L1Table.pageWord (t : L1Table) (m : ByteMemory) (n : ℕ) : ℕ :=
  if entryType (t.entry m (n / 256)) = 1 then
    l2Entry m (l2Table (t.entry m (n / 256))) (n % 256)
  else 0

theorem L1Table.pageWord_of_coarse (h : entryType (t.entry m (n / 256)) = 1) :
    t.pageWord m n = l2Entry m (l2Table (t.entry m (n / 256))) (n % 256) :=
  if_pos h

theorem L1Table.pageWord_of_not_coarse (h : entryType (t.entry m (n / 256)) ≠ 1) :
    t.pageWord m n = 0 :=
  if_neg h

/-- A page is mapped only where the L1 entry is coarse. -/
theorem L1Table.coarse_of_pageWord (h : t.pageWord m n ≠ 0) :
    entryType (t.entry m (n / 256)) = 1 := by
  by_contra hno
  exact h (t.pageWord_of_not_coarse hno)

/-- Outside sections the walk goes by the word for the page. -/
theorem walk_of_pageWord (h : entryType (t.entry m (l1ptIndex v)) ≠ 2) :
    walk m t.base v = (smallpage (t.pageWord m (pageNumber v))).map (· + v % 2 ^ 12) := by
  unfold walk
  congr 1
  change walkEntry m (t.entry m (l1ptIndex v)) v = _
  by_cases hcoarse : entryType (t.entry m (l1ptIndex v)) = 1
  · rw [t.pageWord_of_coarse (by rwa [← l1ptIndex_eq]), ← l1ptIndex_eq, ← l2ptIndex_eq]
    unfold walkEntry
    rw [hcoarse]
    rfl
  · rw [t.pageWord_of_not_coarse (by rwa [← l1ptIndex_eq])]
    unfold walkEntry
    split
    · exact absurd ‹_› hcoarse
    · exact absurd ‹_› h
    · rfl

/-! ### The tables

Several L1 tables share a memory.  No two coarse entries lead to one L2 table,
be they of one table or of two, and so the word for a page of one table is
that of no other page. -/

/-- The L1 tables and what they lead to: no two entries share a byte, and no
two coarse entries an L2 table. -/
structure TablesInv (L : Layout) (κ : ℕ → SliceKind) (T : Set L1Table) (s : PmmState) : Prop where
  inv : PmmInv L s κ
  place : ∀ t ∈ T, RangesDisjoint t.base (4 * t.entries) L.start (sliceSize * L.slices) ∨
    ((⟨.l1, t.base⟩ : Object) ∈ held L κ ∧ t.entries = 0x800)
  apart : ∀ t ∈ T, ∀ t' ∈ T, t ≠ t' →
    RangesDisjoint t.base (4 * t.entries) t'.base (4 * t'.entries)
  /-- Empty, coarse or a section. -/
  plain : ∀ t ∈ T, ∀ i < t.entries, entryType (t.entry s.mem i) < 2 ∨
    (entryType (t.entry s.mem i) = 2 ∧ supersection (t.entry s.mem i) = 0)
  coarse : ∀ t ∈ T, ∀ i < t.entries, entryType (t.entry s.mem i) = 1 →
    (⟨.slot .l2, l2Table (t.entry s.mem i)⟩ : Object) ∈ held L κ
  distinct : ∀ t ∈ T, ∀ i < t.entries, ∀ t' ∈ T, ∀ i' < t'.entries,
    entryType (t.entry s.mem i) = 1 → entryType (t'.entry s.mem i') = 1 →
      l2Table (t.entry s.mem i) = l2Table (t'.entry s.mem i') → t = t' ∧ i = i'

/-- The word for page `n` of `t` may have changed, and an empty L1 entry for
it may have become coarse.  No other word for a page has changed. -/
structure Rewritten (T : Set L1Table) (m m' : ByteMemory) (t : L1Table) (n : ℕ) : Prop where
  l1 : ∀ t' ∈ T, ∀ i < t'.entries, t'.entry m' i = t'.entry m i ∨
    (t' = t ∧ i = n / 256 ∧ entryType (t.entry m i) = 0 ∧ entryType (t.entry m' i) = 1)
  words : ∀ t' ∈ T, ∀ n' < 256 * t'.entries, (t', n') ≠ (t, n) →
    t'.pageWord m' n' = t'.pageWord m n'

theorem pageNumber_lt (hv : l1ptIndex v < t.entries) : pageNumber v < 256 * t.entries := by
  rw [l1ptIndex_eq] at hv
  omega

/-- The translation of every other page is as before, in every table. -/
theorem Rewritten.walk_eq (h : Rewritten T m m' t n) (ht : t' ∈ T) (hv : l1ptIndex v < t'.entries)
    (hne : (t', pageNumber v) ≠ (t, n)) : walk m' t'.base v = walk m t'.base v := by
  have hword := h.words t' ht (pageNumber v) (pageNumber_lt hv) hne
  rcases h.l1 t' ht _ hv with hsame | ⟨rfl, -, hempty, hcoarse⟩
  · by_cases hsection : entryType (t'.entry m (l1ptIndex v)) = 2
    · have hsection' : entryType (t'.entry m' (l1ptIndex v)) = 2 := hsame ▸ hsection
      unfold walk
      change (walkEntry m' (t'.entry m' (l1ptIndex v)) v).map _ =
        (walkEntry m (t'.entry m (l1ptIndex v)) v).map _
      unfold walkEntry
      rw [hsame, hsection]
      rfl
    · rw [walk_of_pageWord hsection, walk_of_pageWord (hsame ▸ hsection), hword]
  · have hno : entryType (t'.entry m (l1ptIndex v)) ≠ 2 := by
      rw [hempty]
      decide
    have hno' : entryType (t'.entry m' (l1ptIndex v)) ≠ 2 := by
      rw [hcoarse]
      decide
    rw [walk_of_pageWord hno, walk_of_pageWord hno', hword]

/-- The byte is outside the managed range or in a table that is held.  Clients
do not write to such bytes. -/
def TableByte (L : Layout) (κ : ℕ → SliceKind) (x : ℕ) : Prop :=
  (x < L.start ∨ L.start + sliceSize * L.slices ≤ x) ∨
    ∃ o ∈ held L κ, o.kind ≠ .slot .page ∧ o.addr ≤ x ∧ x < o.addr + o.kind.size

theorem TableByte.owned {x : ℕ} (h : TableByte L κ x) : Owned L κ x := by
  rcases h with h | ⟨o, ho, -, hx⟩
  · exact .inl h
  · exact .inr ⟨o, ho, hx⟩

theorem l2Entry_tableByte {q j : ℕ} (hq : (⟨.slot .l2, q⟩ : Object) ∈ held L κ) (hj : j < 256)
    {x : ℕ} (hx : entryAt q j ≤ x) (hx' : x < entryAt q j + 4) : TableByte L κ x := by
  unfold entryAt at hx hx'
  refine .inr ⟨_, hq, (fun heq => by cases heq), ?_, ?_⟩
  · dsimp only
    omega
  · show x < q + 1024
    omega

namespace TablesInv

theorem slot (h : TablesInv L κ T s) (ht : t ∈ T) (hi : i < t.entries) :
    L1Slot L κ (entryAt t.base i) := by
  rcases h.place t ht with hd | ⟨hheld, hentries⟩
  · unfold RangesDisjoint at hd
    refine .inl ?_
    unfold RangesDisjoint entryAt
    omega
  · refine .inr ⟨t.base, hheld, ?_⟩
    unfold entryAt sliceSize
    omega

theorem slot_tableByte (h : TablesInv L κ T s) (ht : t ∈ T) (hi : i < t.entries) {x : ℕ}
    (hx : entryAt t.base i ≤ x) (hx' : x < entryAt t.base i + 4) : TableByte L κ x := by
  rcases h.slot ht hi with hd | ⟨p, hp, hle, hge⟩
  · unfold RangesDisjoint at hd
    exact .inl (by omega)
  · exact .inr ⟨_, hp, (fun heq => by cases heq), le_trans hle hx, lt_of_lt_of_le hx' hge⟩

/-- Two entries of the tables do not overlap. -/
theorem entries_apart (h : TablesInv L κ T s) (ht : t ∈ T) (hi : i < t.entries) {i' : ℕ}
    (ht' : t' ∈ T) (hi' : i' < t'.entries) (hne : (t, i) ≠ (t', i')) :
    entryAt t.base i + 4 ≤ entryAt t'.base i' ∨ entryAt t'.base i' + 4 ≤ entryAt t.base i := by
  unfold entryAt
  by_cases htt : t = t'
  · subst htt
    have : i ≠ i' := fun heq => hne (by rw [heq])
    omega
  · have hd := h.apart t ht t' ht' htt
    unfold RangesDisjoint at hd
    omega

/-- As long as the L1 entries stay and what they lead to is held.  Pages may
come and go. -/
theorem of_entries (h : TablesInv L κ T s) (hinv : PmmInv L s' κ')
    (hheld : ∀ o ∈ held L κ, o.kind ≠ .slot .page → o ∈ held L κ')
    (hentry : ∀ t ∈ T, ∀ i < t.entries, t.entry s'.mem i = t.entry s.mem i) :
    TablesInv L κ' T s' where
  inv := hinv
  place t ht := (h.place t ht).imp id fun hp => ⟨hheld _ hp.1 (fun heq => by cases heq), hp.2⟩
  apart := h.apart
  plain t ht i hi := by
    rw [hentry t ht i hi]
    exact h.plain t ht i hi
  coarse t ht i hi htype := by
    rw [hentry t ht i hi] at htype ⊢
    exact hheld _ (h.coarse t ht i hi htype) (fun heq => by cases heq)
  distinct t ht i hi t' ht' i' hi' := by
    rw [hentry t ht i hi, hentry t' ht' i' hi']
    exact h.distinct t ht i hi t' ht' i' hi'

/-- The same for some of the tables. -/
theorem subset (h : TablesInv L κ T s) {T' : Set L1Table} (hsub : T' ⊆ T) :
    TablesInv L κ T' s where
  inv := h.inv
  place t ht := h.place t (hsub ht)
  apart t ht t' ht' := h.apart t (hsub ht) t' (hsub ht')
  plain t ht := h.plain t (hsub ht)
  coarse t ht := h.coarse t (hsub ht)
  distinct t ht i hi t' ht' := h.distinct t (hsub ht) i hi t' (hsub ht')

/-- An object is given back that is none of the tables.  No entry of them
leads to it. -/
theorem freed (h : TablesInv L κ T s) {o : Object} (hl1 : ∀ t ∈ T, (⟨.l1, t.base⟩ : Object) ≠ o)
    (hl2 : ∀ t ∈ T, ∀ i < t.entries, entryType (t.entry s.mem i) = 1 →
      (⟨.slot .l2, l2Table (t.entry s.mem i)⟩ : Object) ≠ o)
    (hinv : PmmInv L s' κ') (hheld : held L κ' = held L κ \ {o})
    (hmem : ∀ x, (∀ i < L.slices, x < L.record i ∨ L.record i + 16 ≤ x) → s'.mem x = s.mem x) :
    TablesInv L κ' T s' ∧ ∀ t ∈ T, ∀ i < t.entries, t.entry s'.mem i = t.entry s.mem i := by
  have hentry : ∀ t ∈ T, ∀ i < t.entries, t.entry s'.mem i = t.entry s.mem i := fun t ht i hi =>
    readWord_congr fun x hx hx' => hmem x fun j hj =>
      h.inv.owned_outside ((h.slot ht hi).owned hx hx') hj
  refine ⟨⟨hinv, fun t ht => ?_, h.apart, fun t ht i hi => ?_, fun t ht i hi htype => ?_,
    fun t ht i hi t' ht' i' hi' => ?_⟩, hentry⟩
  · rw [hheld]
    exact (h.place t ht).imp id fun hp => ⟨⟨hp.1, hl1 t ht⟩, hp.2⟩
  · rw [hentry t ht i hi]
    exact h.plain t ht i hi
  · rw [hentry t ht i hi] at htype ⊢
    rw [hheld]
    exact ⟨h.coarse t ht i hi htype, hl2 t ht i hi htype⟩
  · rw [hentry t ht i hi, hentry t' ht' i' hi']
    exact h.distinct t ht i hi t' ht' i' hi'

/-- As long as the tables are held and their bytes stay, nothing changes,
neither entries nor words for pages. -/
theorem congr (h : TablesInv L κ T s) (hinv : PmmInv L s' κ')
    (hheld : ∀ o ∈ held L κ, o.kind ≠ .slot .page → o ∈ held L κ')
    (hmem : ∀ x, TableByte L κ x → s'.mem x = s.mem x) :
    TablesInv L κ' T s' ∧ (∀ t ∈ T, ∀ i < t.entries, t.entry s'.mem i = t.entry s.mem i) ∧
      ∀ t ∈ T, ∀ n < 256 * t.entries, t.pageWord s'.mem n = t.pageWord s.mem n := by
  have hentry : ∀ t ∈ T, ∀ i < t.entries, t.entry s'.mem i = t.entry s.mem i := fun t ht i hi =>
    readWord_congr fun x hx hx' => hmem x (h.slot_tableByte ht hi hx hx')
  refine ⟨h.of_entries hinv hheld hentry, hentry, fun t ht n hn => ?_⟩
  have hi : n / 256 < t.entries := by omega
  unfold L1Table.pageWord
  rw [hentry t ht _ hi]
  split
  · rename_i hcoarse
    have hj : n % 256 < 256 := Nat.mod_lt _ (by decide)
    exact readWord_congr fun x hx hx' =>
      hmem x (l2Entry_tableByte (h.coarse t ht _ hi hcoarse) hj hx hx')
  · rfl

/-- Two entries of L2 tables do not overlap, be they of one table or of two. -/
theorem words_apart (h : TablesInv L κ T s) (ht : t ∈ T) (hn : n < 256 * t.entries)
    (hcoarse : entryType (t.entry s.mem (n / 256)) = 1) {n' : ℕ} (ht' : t' ∈ T)
    (hn' : n' < 256 * t'.entries) (hcoarse' : entryType (t'.entry s.mem (n' / 256)) = 1)
    (hne : (t', n') ≠ (t, n)) :
    RangesDisjoint (entryAt (l2Table (t'.entry s.mem (n' / 256))) (n' % 256)) 4
      (entryAt (l2Table (t.entry s.mem (n / 256))) (n % 256)) 4 := by
  have hi : n / 256 < t.entries := by omega
  have hi' : n' / 256 < t'.entries := by omega
  unfold RangesDisjoint entryAt
  by_cases heq : l2Table (t'.entry s.mem (n' / 256)) = l2Table (t.entry s.mem (n / 256))
  · obtain ⟨rfl, hdiv⟩ := h.distinct t' ht' _ hi' t ht _ hi hcoarse' hcoarse heq
    have hnn : n' ≠ n := fun heq => hne (by rw [heq])
    rw [heq]
    omega
  · have hd := h.inv.held_disjoint (h.coarse t' ht' _ hi' hcoarse') (h.coarse t ht _ hi hcoarse)
      fun hobj => heq (Object.mk.inj hobj).2
    have hsize : (ObjectKind.slot .l2).size = 1024 := rfl
    unfold Object.Disjoint RangesDisjoint at hd
    dsimp only at hd
    omega

/-- A word of an L2 table changes, which the L1 entry for page `n` of `t`
leads to.  No other entry leads to that table, so no other page has the word. -/
theorem setWord (h : TablesInv L κ T s) (ht : t ∈ T) (hn : n < 256 * t.entries)
    (hcoarse : entryType (t.entry s.mem (n / 256)) = 1) (hinv : PmmInv L s' κ')
    (hheld : ∀ o ∈ held L κ, o.kind ≠ .slot .page → o ∈ held L κ')
    (hmem : ∀ x, TableByte L κ x →
      (x < entryAt (l2Table (t.entry s.mem (n / 256))) (n % 256) ∨
        entryAt (l2Table (t.entry s.mem (n / 256))) (n % 256) + 4 ≤ x) → s'.mem x = s.mem x) :
    TablesInv L κ' T s' ∧ (∀ t ∈ T, ∀ i < t.entries, t.entry s'.mem i = t.entry s.mem i) ∧
      ∀ t' ∈ T, ∀ n' < 256 * t'.entries, (t', n') ≠ (t, n) →
        t'.pageWord s'.mem n' = t'.pageWord s.mem n' := by
  have hi : n / 256 < t.entries := by omega
  have hj : ∀ n : ℕ, n % 256 < 256 := fun n => Nat.mod_lt _ (by decide)
  have hentry : ∀ t ∈ T, ∀ i < t.entries, t.entry s'.mem i = t.entry s.mem i := by
    intro t' ht' i' hi'
    have hapart := h.inv.slot_apart (h.slot ht' hi') (h.coarse t ht _ hi hcoarse)
    have hsize : SlotKind.l2.size = 1024 := rfl
    have hjn := hj n
    refine readWord_congr fun x hx hx' => hmem x (h.slot_tableByte ht' hi' hx hx') ?_
    unfold RangesDisjoint at hapart
    unfold entryAt at *
    omega
  refine ⟨h.of_entries hinv hheld hentry, hentry, fun t' ht' n' hn' hne => ?_⟩
  have hi' : n' / 256 < t'.entries := by omega
  unfold L1Table.pageWord
  rw [hentry t' ht' _ hi']
  split
  · rename_i hcoarse'
    have hd := h.words_apart ht hn hcoarse ht' hn' hcoarse' hne
    unfold RangesDisjoint at hd
    refine readWord_congr fun x hx hx' =>
      hmem x (l2Entry_tableByte (h.coarse t' ht' _ hi' hcoarse') (hj n') hx hx') ?_
    omega
  · rfl

/-- An L2 table is taken for an empty entry of `t`: the words for its pages
stay 0, since the table is zeroed, and an empty entry stands for words that
are 0. -/
theorem taken (h : TablesInv L κ T s) (ht : t ∈ T) (hi : i < t.entries)
    (hready : TableReady L s κ (entryAt t.base i) s₁ κ₁ l2)
    (hempty : entryType (t.entry s.mem i) = 0) (hfresh : (⟨.slot .l2, l2⟩ : Object) ∉ held L κ) :
    TablesInv L κ₁ T s₁ ∧
      (∀ t' ∈ T, ∀ i' < t'.entries, (t', i') ≠ (t, i) → t'.entry s₁.mem i' = t'.entry s.mem i') ∧
      ∀ t' ∈ T, ∀ n < 256 * t'.entries, t'.pageWord s₁.mem n = t'.pageWord s.mem n := by
  obtain ⟨hcoarse, htable⟩ : entryType (t.entry s₁.mem i) = 1 ∧ l2Table (t.entry s₁.mem i) = l2 :=
    hready.entry
  have hmem : (⟨.slot .l2, l2⟩ : Object) ∈ held L κ₁ := hready.mem (h.coarse t ht i hi)
  have hother : ∀ t' ∈ T, ∀ i' < t'.entries, (t', i') ≠ (t, i) →
      t'.entry s₁.mem i' = t'.entry s.mem i' := by
    intro t' ht' i' hi' hne
    have hapart := h.entries_apart ht' hi' ht hi hne
    exact readWord_congr fun x hx hx' => hready.owned ((h.slot ht' hi').owned hx hx') (by omega)
  -- no coarse entry led to the new table
  have hnew : ∀ t' ∈ T, ∀ i' < t'.entries, entryType (t'.entry s.mem i') = 1 →
      l2Table (t'.entry s.mem i') ≠ l2 :=
    fun t' ht' i' hi' htype heq => hfresh (heq ▸ h.coarse t' ht' i' hi' htype)
  refine ⟨⟨hready.inv h.inv (h.slot ht hi), fun t' ht' => ?_, h.apart, fun t' ht' i' hi' => ?_,
    fun t' ht' i' hi' htype => ?_, fun t₁ ht₁ i₁ hi₁ t₂ ht₂ i₂ hi₂ htype₁ htype₂ heq => ?_⟩,
    hother, fun t' ht' n hn => ?_⟩
  · exact (h.place t' ht').imp id fun hp => ⟨hready.subset hp.1, hp.2⟩
  · by_cases hself : (t', i') = (t, i)
    · cases hself
      rw [hcoarse]
      exact .inl (by decide)
    · rw [hother t' ht' i' hi' hself]
      exact h.plain t' ht' i' hi'
  · by_cases hself : (t', i') = (t, i)
    · cases hself
      exact htable ▸ hmem
    · rw [hother t' ht' i' hi' hself] at htype ⊢
      exact hready.subset (h.coarse t' ht' i' hi' htype)
  · by_cases hself₁ : (t₁, i₁) = (t, i)
    · cases hself₁
      by_cases hself₂ : (t₂, i₂) = (t, i)
      · cases hself₂
        exact ⟨rfl, rfl⟩
      · rw [hother t₂ ht₂ i₂ hi₂ hself₂] at htype₂ heq
        exact absurd (heq.symm.trans htable) (hnew t₂ ht₂ i₂ hi₂ htype₂)
    · rw [hother t₁ ht₁ i₁ hi₁ hself₁] at htype₁ heq
      by_cases hself₂ : (t₂, i₂) = (t, i)
      · cases hself₂
        exact absurd (heq.trans htable) (hnew t₁ ht₁ i₁ hi₁ htype₁)
      · rw [hother t₂ ht₂ i₂ hi₂ hself₂] at htype₂ heq
        exact h.distinct t₁ ht₁ i₁ hi₁ t₂ ht₂ i₂ hi₂ htype₁ htype₂ heq
  · have hi' : n / 256 < t'.entries := by omega
    have hj : n % 256 < 256 := Nat.mod_lt _ (by decide)
    by_cases hself : (t', n / 256) = (t, i)
    · obtain ⟨rfl, hni⟩ := Prod.mk.inj hself
      subst hni
      have hno : entryType (t'.entry s.mem (n / 256)) ≠ 1 := by
        rw [hempty]
        decide
      rw [t'.pageWord_of_not_coarse hno, t'.pageWord_of_coarse hcoarse, htable]
      have hsize : SlotKind.l2.size = 1024 := rfl
      refine readWord_eq_zero fun x hx hx' => hready.zero (h.slot ht' hi') hempty ?_ ?_
      · unfold entryAt at hx
        omega
      · unfold entryAt at hx'
        omega
    · unfold L1Table.pageWord
      rw [hother t' ht' _ hi' hself]
      split
      · rename_i htype
        exact hready.kept h.inv (h.slot ht hi) (h.coarse t' ht' _ hi' htype) hj
      · rfl

/-- **A page is mapped**: the word for it is the entry that was made, and no
other word has changed. -/
theorem map (h : TablesInv L κ T s) (ht : t ∈ T) (hv : l1ptIndex v < t.entries)
    (hready : TableReady L s κ (entryAt t.base (l1ptIndex v)) s₁ κ₁ l2)
    (hm : PageMapped L s₁ κ₁ l2 v perms s' κ' page) :
    TablesInv L κ' T s' ∧ Rewritten T s.mem s'.mem t (pageNumber v) ∧
      t.pageWord s'.mem (pageNumber v) =
        smallpageEntry perms (l2ptBaseAddress (virt2phys page)) := by
  obtain ⟨hcoarse, htable⟩ :
      entryType (t.entry s₁.mem (l1ptIndex v)) = 1 ∧ l2Table (t.entry s₁.mem (l1ptIndex v)) = l2 :=
    hready.entry
  have hn := pageNumber_lt hv
  -- the L1 entry is coarse once the L2 table is there
  have h₁ : TablesInv L κ₁ T s₁ ∧ (∀ t' ∈ T, ∀ i < t'.entries,
      t'.entry s₁.mem i = t'.entry s.mem i ∨ (t' = t ∧ i = l1ptIndex v ∧
        entryType (t.entry s.mem i) = 0 ∧ entryType (t.entry s₁.mem i) = 1)) ∧
      ∀ t' ∈ T, ∀ n < 256 * t'.entries, t'.pageWord s₁.mem n = t'.pageWord s.mem n := by
    by_cases hempty : entryType (t.entry s.mem (l1ptIndex v)) = 0
    · have hfresh : (⟨.slot .l2, l2⟩ : Object) ∉ held L κ := by
        cases hready with
        | found hfound => exact absurd (hempty.symm.trans hfound) (by decide)
        | taken _ hh => exact hh.fresh
      obtain ⟨htables, hother, hwords⟩ := h.taken ht hv hready hempty hfresh
      refine ⟨htables, fun t' ht' i hi => ?_, hwords⟩
      by_cases hself : (t', i) = (t, l1ptIndex v)
      · cases hself
        exact .inr ⟨rfl, rfl, hempty, hcoarse⟩
      · exact .inl (hother t' ht' i hi hself)
    · cases hready with
      | found => exact ⟨h, fun _ _ _ _ => .inl rfl, fun _ _ _ _ => rfl⟩
      | taken h0 _ => exact absurd h0 hempty
  obtain ⟨htables₁, hentries₁, hwords₁⟩ := h₁
  rw [l1ptIndex_eq] at hcoarse htable
  have hat : entryAt (l2Table (t.entry s₁.mem (pageNumber v / 256))) (pageNumber v % 256) =
      entryAt l2 (l2ptIndex v) := by
    rw [htable, l2ptIndex_eq]
  obtain ⟨htables', hentries', hwords'⟩ := htables₁.setWord ht hn hcoarse hm.inv
    (fun o ho _ => hm.subset ho) fun x hx hx' => hm.owned x hx.owned (by rwa [hat] at hx')
  have hi : pageNumber v / 256 < t.entries := by
    rwa [← l1ptIndex_eq]
  refine ⟨htables', ⟨fun t' ht' i hi => ?_, fun t' ht' n hn hne => ?_⟩, ?_⟩
  · rw [hentries' t' ht' i hi]
    rcases hentries₁ t' ht' i hi with heq | ⟨rfl, rfl, hempty, hc⟩
    · exact .inl heq
    · refine .inr ⟨rfl, l1ptIndex_eq v, hempty, ?_⟩
      rwa [hentries' t' ht' _ hi]
  · exact (hwords' t' ht' n hn hne).trans (hwords₁ t' ht' n hn)
  · have hcoarse' : entryType (t.entry s'.mem (pageNumber v / 256)) = 1 := by
      rw [hentries' t ht _ hi]
      exact hcoarse
    rw [t.pageWord_of_coarse hcoarse', hentries' t ht _ hi, htable]
    unfold l2Entry
    rw [← l2ptIndex_eq]
    exact hm.entry

/-- A table that was handed out shares no byte with those there were. -/
theorem new_apart (h : TablesInv L κ T s) {p : ℕ} (hh : Handed L s κ .l1 s' κ' p) (ht : t ∈ T) :
    RangesDisjoint t.base (4 * t.entries) p (4 * 0x800) := by
  rcases h.place t ht with hd | ⟨hheld, hentries⟩
  · have hb := hh.inv.held_bounds hh.mem
    have hsize : ObjectKind.l1.size = 4 * 0x800 := rfl
    dsimp only at hb
    unfold RangesDisjoint at *
    omega
  · have hd := hh.inv.held_disjoint (hh.subset hheld) hh.mem fun heq => hh.fresh (heq ▸ hheld)
    rw [hentries]
    exact hd

/-- **One more L1 table**: it is empty, and the others are as before.  It is
not one of those there are, since it was not held. -/
theorem insert (h : TablesInv L κ T s) {p : ℕ} (hh : Handed L s κ .l1 s' κ' p) :
    TablesInv L κ' (Insert.insert ⟨p, 0x800⟩ T) s' ∧ ⟨p, 0x800⟩ ∉ T ∧
      (∀ i < 0x800, L1Table.entry ⟨p, 0x800⟩ s'.mem i = 0) ∧
      (∀ t ∈ T, ∀ i < t.entries, t.entry s'.mem i = t.entry s.mem i) ∧
      ∀ t ∈ T, ∀ n < 256 * t.entries, t.pageWord s'.mem n = t.pageWord s.mem n := by
  obtain ⟨htables, hentries, hwords⟩ := h.congr hh.inv (fun o ho _ => hh.subset ho)
    fun x hx => hh.owned x hx.owned
  have hzero : ∀ i < 0x800, L1Table.entry ⟨p, 0x800⟩ s'.mem i = 0 := by
    intro i hi
    have hsize : ObjectKind.l1.size = 4 * 0x800 := rfl
    refine readWord_eq_zero fun x hx hx' => hh.zero x ?_ ?_
    · unfold entryAt at hx
      exact le_trans (Nat.le_add_right _ _) hx
    · unfold entryAt at hx'
      dsimp only at hx'
      omega
  have hnew : (⟨p, 0x800⟩ : L1Table) ∉ T := by
    intro ht
    have hd := h.new_apart hh ht
    unfold RangesDisjoint at hd
    dsimp only at hd
    omega
  refine ⟨⟨hh.inv, ?_, ?_, ?_, ?_, ?_⟩, hnew, hzero, hentries, hwords⟩
  · rintro t (rfl | ht)
    · exact .inr ⟨hh.mem, rfl⟩
    · exact htables.place t ht
  · rintro t (rfl | ht) t' (rfl | ht') hne
    · exact absurd rfl hne
    · exact (h.new_apart hh ht').symm
    · exact h.new_apart hh ht
    · exact h.apart t ht t' ht' hne
  · rintro t (rfl | ht) i hi
    · rw [hzero i hi]
      exact .inl (by decide)
    · exact htables.plain t ht i hi
  · rintro t (rfl | ht) i hi htype
    · rw [hzero i hi] at htype
      cases htype
    · exact htables.coarse t ht i hi htype
  · rintro t (rfl | ht) i hi t' (rfl | ht') i' hi' htype htype' heq
    · rw [hzero i hi] at htype
      cases htype
    · rw [hzero i hi] at htype
      cases htype
    · rw [hzero i' hi'] at htype'
      cases htype'
    · exact htables.distinct t ht i hi t' ht' i' hi' htype htype' heq

end TablesInv

/-- **`vm2_free_page`** on a mapped page returns, gives the page back, and
leaves the word for it empty and every other word as it was. -/
theorem vm2FreePage_spec (h : TablesInv L κ T s) (ht : t ∈ T) (hv : l1ptIndex v < t.entries)
    (hword : t.pageWord s.mem (pageNumber v) =
      smallpageEntry perms (l2ptBaseAddress (virt2phys page)))
    (hpage : (⟨.slot .page, page⟩ : Object) ∈ held L κ) :
    ∃ s' κ', vm2FreePage s t.base v = .ok s' ∧ TablesInv L κ' T s' ∧
      Rewritten T s.mem s'.mem t (pageNumber v) ∧ t.pageWord s'.mem (pageNumber v) = 0 ∧
      SameFixed L κ κ' ∧ held L κ' = held L κ \ {⟨.slot .page, page⟩} ∧
      entryType (t.entry s'.mem (l1ptIndex v)) = 1 := by
  have hn := pageNumber_lt hv
  have hi : pageNumber v / 256 < t.entries := by
    rwa [← l1ptIndex_eq]
  have hcoarse : entryType (t.entry s.mem (pageNumber v / 256)) = 1 := by
    refine t.coarse_of_pageWord ?_
    rw [hword]
    exact smallpageEntry_ne_zero _ _
  rw [t.pageWord_of_coarse hcoarse] at hword
  -- the page that the entry leads to is the page that is held
  have halign : page % 4096 = 0 := h.inv.held_aligned hpage
  have hlt : page < 2 ^ 32 := by
    have := h.inv.held_lt hpage
    dsimp only at this
    omega
  have hback : virt2phys (smallpageAddress (readWord s.mem
      (entryAt (l2Table (readWord s.mem (entryAt t.base (l1ptIndex v)))) (l2ptIndex v)))) =
      page := by
    have hentry : readWord s.mem (entryAt (l2Table (readWord s.mem
        (entryAt t.base (l1ptIndex v)))) (l2ptIndex v)) =
        smallpageEntry perms (l2ptBaseAddress (virt2phys page)) := by
      rw [l1ptIndex_eq, l2ptIndex_eq]
      exact hword
    rw [hentry, smallpageAddress_smallpageEntry halign hlt]
    -- the conversion goes the wrong way round, and comes out right modulo `2 ^ 32`
    exact (virt2phys_eq_phys2virt (Nat.mod_lt _ (by decide))).trans (phys2virt_virt2phys hlt)
  obtain ⟨s₁, κ₁, hfree, hinv₁, hfixed, hheld, hframe⟩ := h.inv.free hpage
  have hsub : ∀ o ∈ held L κ, o.kind ≠ .slot .page → o ∈ held L κ₁ := by
    intro o ho hkind
    rw [hheld]
    exact ⟨ho, fun heq => hkind (by rw [Set.mem_singleton_iff.mp heq])⟩
  obtain ⟨htables₁, hentries₁, hwords₁⟩ := h.congr hinv₁ hsub fun x hx =>
    hframe x fun i hi => h.inv.owned_outside hx.owned hi
  -- the entry is emptied
  have hcoarse₁ : entryType (t.entry s₁.mem (pageNumber v / 256)) = 1 := by
    rw [hentries₁ t ht _ hi]
    exact hcoarse
  have hheld₁ := htables₁.coarse t ht _ hi hcoarse₁
  have hinv' := hinv₁.write (v := 0) (a := entryAt (l2Table (t.entry s₁.mem (pageNumber v / 256)))
    (pageNumber v % 256)) fun x => l2Entry_owned hheld₁ (Nat.mod_lt _ (by decide))
  obtain ⟨htables', hentries', hwords'⟩ := htables₁.setWord ht hn hcoarse₁ hinv'
    (fun o ho _ => ho) fun x _ hx => writeWord_apply_of_notMem hx
  refine ⟨_, κ₁, ?_, htables', ⟨fun t' ht' i hi' => .inl ?_, fun t' ht' n hn' hne => ?_⟩, ?_,
    hfixed, hheld, ?_⟩
  · have hc : entryType (readWord s.mem (entryAt t.base (l1ptIndex v))) = 1 := by
      rw [l1ptIndex_eq]
      exact hcoarse
    unfold vm2FreePage
    dsimp only
    rw [if_pos hc, findL2pt, if_pos hc, Exec.ok_bind, hback]
    replace hfree : pmmFreePage s page = .ok s₁ := hfree
    rw [hfree, Exec.ok_bind, hentries₁ t ht _ hi, ← l1ptIndex_eq, ← l2ptIndex_eq]
    rfl
  · rw [hentries' t' ht' i hi', hentries₁ t' ht' i hi']
  · rw [hwords' t' ht' n hn' hne, hwords₁ t' ht' n hn']
  · have hcoarse' : entryType (t.entry (s₁.withMem (writeWord s₁.mem (entryAt (l2Table
        (t.entry s₁.mem (pageNumber v / 256))) (pageNumber v % 256)) 0)).mem
          (pageNumber v / 256)) = 1 := by
      rw [hentries' t ht _ hi]
      exact hcoarse₁
    rw [t.pageWord_of_coarse hcoarse', hentries' t ht _ hi]
    exact readWord_writeWord_self _ _ _
  · rw [l1ptIndex_eq, hentries' t ht _ hi]
    exact hcoarse₁

end CourseOs.Pmm
