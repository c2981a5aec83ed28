import CourseOs.Fs.PathFilename
import CourseOs.Fs.PathParent

/-!
# Which bytes of a path are read

Four of the operations of `fs/path.c` find out about a path by scanning its
array: `path_is_absolute`, `path_parent`, `path_filename` and the component
scan of `path_get_direntry`.  `path_reads_inside` says for each of them when
it looks at the path's own bytes only; what it finds is then the same wherever
the path is (`Inside.run_eq`).

Each of the four looks past the path in some case.  `path_is_absolute` reads
the first byte of an empty path.  `path_parent` starts one past the path, so
it stays inside only where it does not start: at the empty path and at the
path `.`.  `path_filename` and its loops go on below the array when nothing
stops them before.  The component scan reads the byte it ends at, which behind
the last component is one past the path.

The proofs follow the scans: `Inside` has a rule for each way to put scans
together, and each loop has a lemma that says where it ends.  No memory is
mentioned beyond the cells read, so the statements hold for the path's block
whatever is around it.
-/

namespace CourseOs.Fs

open U8ArrayList Components

variable {path : U8ArrayList} {b : Block UInt8} {cell cell' : ℕ → UInt8}
  {fuel i left start m n N : ℕ} {α : Type} {x : Scan UInt8 α}

/-! ### The scans of the lookup

Two more scans, of the lookup, are written down with their reads; the model of
the lookup is without them, and the lemmas say that it finds the same. -/

/-- The byte that `path_is_absolute` looks at: the first, even of an empty
path. -/
def absoluteScan : Scan UInt8 Bool := do
  let x ← Scan.get 0
  pure (x == 47)

/-- The loop for the next slash, from index `pathpointer` on and over at most
`left` bytes, with the look at the byte it ends at. -/
def componentScan : ℕ → ℕ → Scan UInt8 ℕ
  | 0, pathpointer => do
      let _ ← Scan.get pathpointer
      pure pathpointer
  | left + 1, pathpointer => do
      let x ← Scan.get pathpointer
      if x ≠ 47 then componentScan left (pathpointer + 1) else pure pathpointer

theorem pathIsAbsolute_eq (harray : path.array = some b) :
    pathIsAbsolute path = .ok (absoluteScan.run b.cell) := by
  unfold pathIsAbsolute pathArray
  rw [harray]
  rfl

theorem componentScan_run (cell : ℕ → UInt8) (left start : ℕ) :
    (componentScan left start).run cell = nextSlash cell left start := by
  induction left generalizing start with
  | zero => rfl
  | succ left ih =>
      unfold componentScan nextSlash
      rw [Scan.run_bind, Scan.run_get]
      split
      · exact ih (start + 1)
      · rfl

/-! ### Reads of each scan

A scan is inside a path when it reads no index from the length on.  Each of
the four has an exact condition, by following its reads; for loops the
induction is on the turns, with a case for the turn in which the loop ends. -/

/-- The scan reads the bytes below `n` only: those of a path of that length. -/
def Inside (n : ℕ) (cell : ℕ → UInt8) (x : Scan UInt8 α) : Prop := x.Within (· < n) cell

/-- What such a scan finds depends on these bytes. -/
theorem Inside.run_eq (h : Inside n cell x) (heq : ∀ i < n, cell i = cell' i) :
    x.run cell = x.run cell' := Scan.Within.run_eq h heq

theorem inside_pure (a : α) : Inside n cell (pure a : Scan UInt8 α) := Scan.within_pure a

theorem inside_get : Inside n cell (Scan.get i) ↔ i < n := Scan.within_get

theorem inside_bind {γ : Type} {f : α → Scan UInt8 γ} :
    Inside n cell (x >>= f) ↔ Inside n cell x ∧ Inside n cell (f (x.run cell)) := Scan.within_bind

theorem inside_getRange (h : i + m ≤ n) : Inside n cell (Scan.getRange i m) := by
  intro k hk
  rw [Scan.reads_getRange, List.mem_range'_1] at hk
  exact hk.2.trans_le h

theorem inside_absoluteScan : Inside n cell absoluteScan ↔ 0 < n := by
  unfold absoluteScan
  rw [inside_bind, inside_get]
  exact and_iff_left (inside_pure _)

/-- The component scan looks at the byte it ends at, which is the path's when
it is a slash. -/
theorem inside_componentScan (left start : ℕ) :
    Inside (start + left) cell (componentScan left start) ↔
      ∃ i, start ≤ i ∧ i < start + left ∧ cell i = 47 := by
  induction left generalizing start with
  | zero =>
      unfold componentScan
      rw [inside_bind, inside_get]
      refine iff_of_false (fun h => lt_irrefl start h.1) ?_
      rintro ⟨i, hi, hi', -⟩
      exact absurd hi' (not_lt.mpr hi)
  | succ left ih =>
      unfold componentScan
      rw [inside_bind, inside_get, Scan.run_get, and_iff_right (by omega)]
      by_cases hslash : cell start = 47
      · rw [if_neg (not_not.mpr hslash)]
        exact iff_of_true (inside_pure _) ⟨start, le_rfl, by omega, hslash⟩
      · rw [if_pos hslash, Nat.add_comm left 1, ← Nat.add_assoc, ih]
        constructor
        · rintro ⟨i, hi, hi', hcell⟩
          exact ⟨i, by omega, hi', hcell⟩
        · rintro ⟨i, hi, hi', hcell⟩
          refine ⟨i, Nat.succ_le_of_lt (lt_of_le_of_ne hi ?_), hi', hcell⟩
          rintro rfl
          exact hslash hcell

theorem inside_isDot (hne : n ≠ 0) : Inside n cell (isDot n) := by
  unfold isDot
  split
  · rw [inside_bind, inside_get]
    exact ⟨Nat.pos_of_ne_zero hne, inside_pure _⟩
  · exact inside_pure _

/-- The loop of `path_parent` looks past the path first, and so is never
inside; the test for a lone dot is. -/
theorem inside_parentScan (hne : n ≠ 0) (hlt : n < 2 ^ 31) :
    Inside n cell (parentScan n) ↔ n = 1 ∧ cell 0 = 46 := by
  unfold parentScan
  rw [inside_bind, and_iff_right (inside_isDot hne)]
  by_cases h : n = 1 ∧ cell 0 = 46
  · rw [if_pos ((isDot_run cell n).mpr h)]
    exact iff_of_true (inside_pure _) h
  · rw [if_neg fun hrun => h ((isDot_run cell n).mp hrun), if_pos hlt, inside_bind]
    refine iff_of_false (fun hin => ?_) h
    obtain ⟨m, rfl⟩ := Nat.exists_eq_succ_of_ne_zero hne
    have hfirst := hin.1
    unfold slashScan at hfirst
    rw [inside_bind, inside_get] at hfirst
    exact absurd hfirst.1 (lt_irrefl _)

theorem inside_endsInDots : Inside n cell (endsInDots n) := by
  unfold endsInDots
  by_cases hn : 2 ≤ n
  · rw [if_pos hn, inside_bind, inside_get]
    refine ⟨by omega, ?_⟩
    split
    · rw [inside_bind, inside_get]
      exact ⟨by omega, inside_pure _⟩
    · exact inside_pure _
  · rw [if_neg hn]
    exact inside_pure _

theorem inside_isStripped : Inside n cell (isStripped i) ↔ i < n := by
  unfold isStripped
  rw [inside_bind, inside_get]
  refine and_iff_left_of_imp fun hi => ?_
  split
  · exact inside_pure _
  · rw [inside_bind, inside_get]
    exact ⟨hi, inside_pure _⟩

/-- One turn of the stripping loop: its own read is inside, and so are those
behind it if there are any. -/
theorem inside_stripScan_succ :
    Inside n cell (stripScan (fuel + 1) m) ↔ (m + (2 ^ 32 - 1)) % 2 ^ 32 < n ∧
      (Stripped (cell ((m + (2 ^ 32 - 1)) % 2 ^ 32)) →
        Inside n cell (stripScan fuel ((m + (2 ^ 32 - 1)) % 2 ^ 32))) := by
  show Inside n cell (isStripped _ >>= fun strip =>
    if strip then stripScan fuel _ else pure (some m)) ↔ _
  rw [inside_bind, inside_isStripped]
  refine and_congr_right fun _ => ?_
  by_cases h : Stripped (cell ((m + (2 ^ 32 - 1)) % 2 ^ 32))
  · rw [if_pos ((isStripped_run cell _).mpr h)]
    exact (imp_iff_right h).symm
  · rw [if_neg fun hrun => h ((isStripped_run cell _).mp hrun)]
    exact iff_of_true (inside_pure _) fun h' => absurd h' h

/-- The stripping loop stays inside when a byte of another kind stops it
there, and only then. -/
theorem inside_stripScan (hn : n < 2 ^ 31) (hm : m ≤ n) (hfuel : m < fuel) :
    Inside n cell (stripScan fuel m) ↔ ∃ i < m, ¬Stripped (cell i) := by
  obtain ⟨fuel, rfl⟩ := Nat.exists_eq_succ_of_ne_zero (Nat.ne_zero_of_lt hfuel)
  rw [inside_stripScan_succ]
  induction m generalizing fuel with
  | zero =>
      refine iff_of_false (fun h => absurd h.1 (by omega)) ?_
      rintro ⟨i, hi, -⟩
      exact Nat.not_lt_zero i hi
  | succ m ih =>
      obtain ⟨fuel, rfl⟩ := Nat.exists_eq_succ_of_ne_zero (show fuel ≠ 0 by omega)
      rw [pred_mod (by omega), and_iff_right (by omega), inside_stripScan_succ,
        ih (by omega) fuel (by omega)]
      constructor
      · intro h
        by_cases hcell : Stripped (cell m)
        · obtain ⟨i, hi, hother⟩ := h hcell
          exact ⟨i, by omega, hother⟩
        · exact ⟨m, Nat.lt_succ_self m, hcell⟩
      · rintro ⟨i, hi, hother⟩ hcell
        refine ⟨i, lt_of_le_of_ne (Nat.le_of_lt_succ hi) ?_, hother⟩
        rintro rfl
        exact hother hcell

/-- The loop for the slash before the filename stays inside when there is one.
Otherwise it ends with a read in front of the path. -/
theorem inside_slashBefore (hn : n < 2 ^ 31) (hm : m ≤ n) :
    Inside n cell (slashBefore m) ↔ ∃ i < m, cell i = 47 := by
  induction m with
  | zero =>
      unfold slashBefore
      rw [inside_bind, inside_get]
      refine iff_of_false (fun h => absurd h.1 (by omega)) ?_
      rintro ⟨i, hi, -⟩
      exact Nat.not_lt_zero i hi
  | succ m ih =>
      show Inside n cell (Scan.get m >>= fun x =>
        if x ≠ 47 then slashBefore m else pure (m + 1)) ↔ _
      rw [inside_bind, inside_get, Scan.run_get, and_iff_right (by omega)]
      by_cases hslash : cell m = 47
      · rw [if_neg (not_not.mpr hslash)]
        exact iff_of_true (inside_pure _) ⟨m, Nat.lt_succ_self m, hslash⟩
      · rw [if_pos hslash, ih (by omega)]
        constructor
        · rintro ⟨i, hi, hcell⟩
          exact ⟨i, by omega, hcell⟩
        · rintro ⟨i, hi, hcell⟩
          refine ⟨i, lt_of_le_of_ne (Nat.le_of_lt_succ hi) ?_, hcell⟩
          rintro rfl
          exact hslash hcell

/-- The scan of `path_filename` stays inside after two dots at the end, and
when a slash stands before the bytes that are stripped, at which its last loop
stops. -/
theorem inside_filenameScan (hn : n < 2 ^ 31) :
    Inside n cell (filenameScan n) ↔ [46, 46] <:+ (List.range n).map cell ∨
      47 ∈ trim 47 46 ((List.range n).map cell) := by
  unfold filenameScan
  rw [inside_bind, and_iff_right inside_endsInDots]
  by_cases hdots : [46, 46] <:+ (List.range n).map cell
  · rw [if_pos ((endsInDots_run cell n).mpr hdots)]
    exact iff_of_true (inside_pure _) (Or.inl hdots)
  rw [if_neg fun hrun => hdots ((endsInDots_run cell n).mp hrun), or_iff_right hdots, inside_bind,
    inside_stripScan hn le_rfl (by omega)]
  rcases exists_last_not (fun k => Stripped (cell k)) n with hall | ⟨i, hi, hcell, hrest⟩
  · refine iff_of_false (fun h => ?_) fun h => ?_
    · obtain ⟨i, hi, hcell⟩ := h.1
      exact hcell (hall i hi)
    · rw [trim_eq_nil_iff.mpr] at h
      · exact List.not_mem_nil h
      · intro x hx
        obtain ⟨k, hk, rfl⟩ := List.mem_map.mp hx
        exact hall k (List.mem_range.mp hk)
  · obtain ⟨hstart, -⟩ := slashBefore_run cell (i + 1)
    have hslash : 47 ∈ (List.range (i + 1)).map cell ↔ ∃ k < i + 1, cell k = 47 := by
      simp [List.mem_map]
    rw [and_iff_right ⟨i, hi, hcell⟩, stripScan_stops (by omega) hi hcell hrest (by omega),
      trim_map_range hi hcell hrest, hslash, ← inside_slashBefore hn (Nat.succ_le_of_lt hi)]
    dsimp only
    unfold filenameStart
    rw [if_neg (by omega), inside_bind, inside_bind]
    refine and_iff_left ⟨inside_getRange ?_, inside_pure _⟩
    omega

/-! ### All four

What the scans need of a path, put together, and stated for the memory the
path lies in: with other bytes around the path, a scan that stays inside finds
the same. -/

/-- The memory that the path's array is in, from the array on; without an
array it may be any. -/
def Sees (path : U8ArrayList) (cell : ℕ → UInt8) : Prop :=
  ∀ b, path.array = some b → b.cell = cell

theorem Sees.contents (h : Sees path cell) (hpath : path.Sound) :
    path.contents = (List.range path.length).map cell := by
  cases harray : path.array with
  | none =>
      have hzero : path.length = 0 :=
        Nat.le_zero.mp (hpath.length_le.trans (hpath.capacity_le.trans_eq (room_of_none harray)))
      rw [contents_of_length hzero, hzero, List.range_zero, List.map_nil]
  | some b => rw [contents_of_some harray, h b harray]

/-- The path is a lone dot. -/
theorem contents_eq_dot (hbytes : path.contents = (List.range path.length).map cell) :
    path.contents = [46] ↔ path.length = 1 ∧ cell 0 = 46 := by
  rw [hbytes]
  constructor
  · intro h
    have hone : path.length = 1 := by
      rw [← List.length_range (n := path.length), ← List.length_map (f := cell), h]
      rfl
    rw [hone] at h
    exact ⟨hone, (List.cons.inj h).1⟩
  · rintro ⟨hone, hdot⟩
    rw [hone]
    exact congrArg (fun x => [x]) hdot

theorem mem_drop_map_range :
    47 ∈ ((List.range n).map cell).drop start ↔ ∃ i, start ≤ i ∧ i < n ∧ cell i = 47 := by
  rw [List.mem_drop_iff_getElem]
  constructor
  · rintro ⟨j, hj, hcell⟩
    rw [List.length_map, List.length_range] at hj
    rw [List.getElem_map, List.getElem_range] at hcell
    exact ⟨start + j, Nat.le_add_right _ _, by omega, hcell⟩
  · rintro ⟨i, hi, hi', hcell⟩
    obtain ⟨j, rfl⟩ := Nat.exists_eq_add_of_le hi
    refine ⟨j, ?_, ?_⟩
    · rw [List.length_map, List.length_range]
      omega
    · rw [List.getElem_map, List.getElem_range, hcell]

/-- **When the operations look at the path only**: `path_is_absolute` at a
path that is not empty, `path_parent` at one that is empty or `.`,
`path_filename` at one that ends in `..` or has a slash before the dots and
slashes at its end, and the component scan where a slash comes before the end
of the path.  What they find then depends on the path's bytes alone. -/
theorem path_reads_inside (h : path.Sound) (hcell : Sees path cell) :
    (Inside path.length cell absoluteScan ↔ path.contents ≠ []) ∧
    ((path.length ≠ 0 → Inside path.length cell (parentScan path.length)) ↔
      path.contents = [] ∨ path.contents = [46]) ∧
    (Inside path.length cell (filenameScan path.length) ↔
      [46, 46] <:+ path.contents ∨ 47 ∈ trim 47 46 path.contents) ∧
    (∀ start, Inside path.length cell (componentScan (path.length - start) start) ↔
      47 ∈ path.contents.drop start) ∧
    ∀ (α : Type) (x : Scan UInt8 α) cell', Inside path.length cell x →
      (∀ i < path.length, cell i = cell' i) → x.run cell = x.run cell' := by
  have hbytes := hcell.contents h
  have hempty : path.contents = [] ↔ path.length = 0 := by
    rw [← h.length_contents, List.length_eq_zero_iff]
  refine ⟨?_, ?_, ?_, fun start => ?_, fun α x cell' hin heq => hin.run_eq heq⟩
  · rw [inside_absoluteScan, Nat.pos_iff_ne_zero]
    exact not_congr hempty.symm
  · by_cases hzero : path.length = 0
    · exact iff_of_true (fun hne => absurd hzero hne) (Or.inl (hempty.mpr hzero))
    · rw [imp_iff_right hzero, inside_parentScan hzero h.length_lt, ← contents_eq_dot hbytes]
      exact (or_iff_right fun hnil => hzero (hempty.mp hnil)).symm
  · rw [hbytes]
    exact inside_filenameScan h.length_lt
  · rw [hbytes, mem_drop_map_range]
    by_cases hstart : start ≤ path.length
    · have hscan : Inside (start + (path.length - start)) cell _ ↔ _ :=
        inside_componentScan (path.length - start) start
      rwa [Nat.add_sub_cancel' hstart] at hscan
    · refine iff_of_false (fun hin => ?_) ?_
      · rw [Nat.sub_eq_zero_of_le (le_of_not_ge hstart)] at hin
        unfold componentScan at hin
        rw [inside_bind, inside_get] at hin
        exact hstart hin.1.le
      · rintro ⟨i, hi, hi', -⟩
        omega

theorem sees_pathOf (bytes : List UInt8) : Sees (pathOf bytes) fun i => bytes.getD i 0 := by
  intro b hb
  obtain rfl := Option.some.inj hb
  rfl

/-- The filename of `a/b` is found within it. -/
theorem path_reads_inside_a_b :
    Inside 3 (fun i => [97, 47, 98].getD i 0) (filenameScan 3) := by
  have hsound : (pathOf [97, 47, 98]).Sound := ⟨le_rfl, le_rfl, by decide⟩
  exact (path_reads_inside hsound (sees_pathOf _)).2.2.1.mpr (Or.inr (by decide))

/-- A look at the empty path, at the byte after `/a` by its parent and by a
lookup, and at the byte before `a` by its filename. -/
theorem paths_read_outside :
    0 ∈ absoluteScan.reads (fun i => ([] : List UInt8).getD i 0) ∧
      2 ∈ (parentScan 2).reads (fun i => [47, 97].getD i 0) ∧
      2 ∈ (componentScan 1 1).reads (fun i => [47, 97].getD i 0) ∧
      2 ^ 32 - 1 ∈ (filenameScan 1).reads (fun i => [97].getD i 0) := by
  refine ⟨by decide, by decide, by decide, by decide⟩

end CourseOs.Fs
