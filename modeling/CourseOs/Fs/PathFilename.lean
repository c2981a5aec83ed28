import CourseOs.Fs.PathOps
import CourseOs.Lib.Components

/-!
# The filename of a path

`path_filename` takes dots and slashes off the end of a path, whatever
component they belong to, and keeps what is left after the last slash.  That
is the search from the end of `Components.trimmedName`, and the meaning of a
filename is `Components.finalName`.

## Main definitions

* `Stops path` — the stripping loop comes to an end in the path, or in the
  half of the address space below it; two dots at the end spare it.
* `LeavesFilename c result` — the call has left the last component of `c`, or
  the empty path when that is `..` or there is none.

## Main results

* `filenameScan_word` — on a path that has other bytes than dots and slashes
  the scan finds its trimmed last word.
* `filenameScan_below`, `filenameScan_garbage` — on a path of nothing but dots
  and slashes the loop goes on below the array.  What it finds there does not
  show as long as it finds a byte of another kind in the half of the address
  space below; from further down it brings bytes that are not the path's.
* `path_filename_exact` — the result is the last component exactly where the
  path is `Plain` and the loop `Stops`, for `path_filename` and for
  `path_filename_cloned`.

`Plain` is a condition on the path alone and is due to stripping characters
where components were meant; `Stops` is a condition on the memory below it and
is due to a missing bound.
-/

namespace CourseOs.Fs

open U8ArrayList Components

variable {path p q : U8ArrayList} {b : Block UInt8} {mem mem' : Option (Block UInt8)}
  {cell : ℕ → UInt8} {fuel i m n : ℕ} {c name : List UInt8}

/-- A dot or a slash: what `path_filename` strips at the end of the path. -/
abbrev Stripped (x : UInt8) : Prop := Trimmed 47 46 x

theorem isStripped_run (cell : ℕ → UInt8) (n : ℕ) :
    (isStripped n).run cell = true ↔ Stripped (cell n) := by
  unfold isStripped
  rw [Scan.run_bind, Scan.run_get]
  by_cases hdot : cell n = 46
  · rw [if_pos hdot]
    exact iff_of_true rfl (Or.inl hdot)
  · rw [if_neg hdot, Scan.run_bind, Scan.run_get, Scan.run_pure, beq_iff_eq]
    exact (or_iff_right hdot).symm

/-- The test for `..` is true of the paths that end in two dots, shorter paths
included. -/
theorem endsInDots_run (cell : ℕ → UInt8) (n : ℕ) :
    (endsInDots n).run cell = true ↔ [46, 46] <:+ (List.range n).map cell := by
  unfold endsInDots
  rcases n with _ | _ | n
  · exact iff_of_false Bool.false_ne_true fun h => absurd h.length_le (Nat.not_succ_le_zero 1)
  · refine iff_of_false Bool.false_ne_true fun h => absurd h.length_le ?_
    rw [List.length_map, List.length_range]
    decide
  · have hlast : [46, 46] <:+ (List.range (n + 2)).map cell ↔ cell (n + 1) = 46 ∧ cell n = 46 := by
      have hsplit : (List.range (n + 2)).map cell =
          (List.range n).map cell ++ [cell n, cell (n + 1)] := by
        rw [List.range_succ, List.range_succ, List.append_assoc, List.map_append]
        rfl
      rw [hsplit]
      constructor
      · rintro ⟨q, hq⟩
        obtain ⟨-, htail⟩ := List.append_inj' hq rfl
        obtain ⟨hx, htail⟩ := List.cons.inj htail
        exact ⟨(List.cons.inj htail).1.symm, hx.symm⟩
      · rintro ⟨hy, hx⟩
        rw [hx, hy]
        exact List.suffix_append _ _
    rw [if_pos (Nat.le_add_left 2 n), Scan.run_bind, Scan.run_get, hlast]
    show Scan.run cell (if cell (n + 1) = 46 then _ else _) = true ↔ _
    by_cases hdot : cell (n + 1) = 46
    · rw [if_pos hdot, Scan.run_bind, Scan.run_get, Scan.run_pure, beq_iff_eq]
      exact (and_iff_right hdot).symm
    · rw [if_neg hdot]
      exact iff_of_false Bool.false_ne_true fun h => hdot h.1

/-! ### Stripping

The loop takes dots and slashes off the end, and does not look where the path
begins.  It stops at a byte of another kind, if the path has one; if not, it
goes on below the array, with an index that wraps around, and what it meets
there is no part of the path. -/

/-- One turn of the loop, which looks at the byte before `n`.  Before index 0
comes the last index of 32 bits. -/
theorem stripScan_succ (cell : ℕ → UInt8) (fuel n : ℕ) :
    (stripScan (fuel + 1) n).run cell =
      if Stripped (cell ((n + (2 ^ 32 - 1)) % 2 ^ 32)) then
        (stripScan fuel ((n + (2 ^ 32 - 1)) % 2 ^ 32)).run cell
      else some n := by
  show ((isStripped _ >>= fun strip => if strip then stripScan fuel _ else pure (some n)) :
    Scan UInt8 (Option ℕ)).run cell = _
  rw [Scan.run_bind]
  by_cases h : Stripped (cell ((n + (2 ^ 32 - 1)) % 2 ^ 32))
  · rw [if_pos h, if_pos ((isStripped_run cell _).mpr h)]
  · rw [if_neg h, if_neg fun hrun => h ((isStripped_run cell _).mp hrun), Scan.run_pure]

/-- The index below `n + 1` is `n`. -/
theorem pred_mod (hn : n < 2 ^ 32) : (n + 1 + (2 ^ 32 - 1)) % 2 ^ 32 = n := by
  omega

/-- The loop stops at the last byte of another kind, with the length that ends
there. -/
theorem stripScan_stops (hn : n ≤ 2 ^ 32) (hi : i < n) (hcell : ¬Stripped (cell i))
    (hrest : ∀ k, i < k → k < n → Stripped (cell k)) (hfuel : n - i ≤ fuel) :
    (stripScan fuel n).run cell = some (i + 1) := by
  induction n generalizing fuel with
  | zero => exact absurd hi (Nat.not_lt_zero i)
  | succ n ih =>
      obtain ⟨fuel, rfl⟩ : ∃ f, fuel = f + 1 := ⟨fuel - 1, by omega⟩
      rw [stripScan_succ, pred_mod hn]
      rcases Nat.lt_succ_iff_lt_or_eq.mp hi with hlt | rfl
      · rw [if_pos (hrest n hlt (Nat.lt_succ_self n))]
        exact ih (by omega) hlt (fun k hk hk' => hrest k hk (by omega)) (by omega)
      · rw [if_neg hcell]

/-- Through stripped bytes the loop goes on. -/
theorem stripScan_through (hn : n ≤ 2 ^ 32) (hall : ∀ k < n, Stripped (cell k)) :
    (stripScan (fuel + n) n).run cell = (stripScan fuel 0).run cell := by
  induction n with
  | zero => rfl
  | succ n ih =>
      rw [← Nat.add_assoc, stripScan_succ, pred_mod hn, if_pos (hall n (Nat.lt_succ_self n))]
      exact ih (by omega) fun k hk => hall k (by omega)

/-- Where the loop stops there is a byte of another kind. -/
theorem stripScan_exit (h : (stripScan fuel n).run cell = some m) :
    ¬Stripped (cell ((m + (2 ^ 32 - 1)) % 2 ^ 32)) := by
  induction fuel generalizing n with
  | zero => cases h
  | succ fuel ih =>
      rw [stripScan_succ] at h
      split at h
      · exact ih h
      · obtain rfl := Option.some.inj h
        assumption

theorem stripScan_lt (hn : n < 2 ^ 32) (h : (stripScan fuel n).run cell = some m) :
    m < 2 ^ 32 := by
  induction fuel generalizing n with
  | zero => cases h
  | succ fuel ih =>
      rw [stripScan_succ] at h
      split at h
      · exact ih (Nat.mod_lt _ (by decide)) h
      · obtain rfl := Option.some.inj h
        exact hn

/-- The last index below `n` where a property fails. -/
theorem exists_last_not (P : ℕ → Prop) (n : ℕ) :
    (∀ k < n, P k) ∨ ∃ i < n, ¬P i ∧ ∀ k, i < k → k < n → P k := by
  induction n with
  | zero => exact Or.inl fun k hk => absurd hk (Nat.not_lt_zero k)
  | succ n ih =>
      by_cases hn : P n
      · refine ih.imp (fun hall k hk => ?_) ?_
        · rcases Nat.lt_succ_iff_lt_or_eq.mp hk with hlt | rfl
          · exact hall k hlt
          · exact hn
        · rintro ⟨i, hi, hnot, hrest⟩
          refine ⟨i, by omega, hnot, fun k hk hk' => ?_⟩
          rcases Nat.lt_succ_iff_lt_or_eq.mp hk' with hlt | rfl
          · exact hrest k hk hlt
          · exact hn
      · exact Or.inr ⟨n, Nat.lt_succ_self n, hn, fun k hk hk' => by omega⟩

/-! ### The slash before the filename

From where stripping has stopped the loop looks for a slash, down to the front
of the path.  What lies between the two is the name. -/

/-- The loop finds where the last word begins: behind the last slash, or at
the front. -/
theorem slashBefore_run (cell : ℕ → UInt8) (n : ℕ) :
    (slashBefore n).run cell ≤ n ∧
      ((List.range n).map cell).rtakeWhile (· ≠ 47) =
        (List.range (n - (slashBefore n).run cell)).map
          fun k => cell ((slashBefore n).run cell + k) := by
  induction n with
  | zero => exact ⟨le_rfl, rfl⟩
  | succ n ih =>
      have hrun : (slashBefore (n + 1)).run cell =
          if cell n ≠ 47 then (slashBefore n).run cell else n + 1 := by
        show ((Scan.get n >>= fun x => if x ≠ 47 then slashBefore n else pure (n + 1)) :
          Scan UInt8 ℕ).run cell = _
        rw [Scan.run_bind, Scan.run_get]
        split <;> rfl
      rw [hrun, List.range_succ, List.map_append, List.map_singleton]
      by_cases hslash : cell n = 47
      · rw [if_neg (not_not.mpr hslash), Nat.sub_self, List.rtakeWhile_concat_neg]
        · exact ⟨le_rfl, rfl⟩
        · simpa using hslash
      · obtain ⟨hle, hword⟩ := ih
        rw [if_pos hslash, List.rtakeWhile_concat_pos _ _ _ (by simpa using hslash), hword,
          Nat.succ_sub hle, List.range_succ, List.map_append, List.map_singleton,
          Nat.add_sub_cancel' hle]
        exact ⟨hle.trans (Nat.le_succ n), rfl⟩

/-! ### The name that is found

The cases of the scan: two dots at the end, another byte within the path, and
none.  In the second case the name is the last word of the path with its dots
trimmed. -/

theorem filenameStart_run (cell : ℕ → UInt8) (m : ℕ) :
    (filenameStart m).run cell = if 2 ^ 31 < m then m else (slashBefore m).run cell := by
  unfold filenameStart
  split <;> rfl

/-- Two dots at the end make the name empty. -/
theorem filenameScan_dots (h : [46, 46] <:+ (List.range n).map cell) :
    (filenameScan n).run cell = some (n, []) := by
  unfold filenameScan
  rw [Scan.run_bind, if_pos ((endsInDots_run cell n).mpr h), Scan.run_pure]

/-- Otherwise the name is between the slash and where stripping ends.
Stripping may run past the front and not end, and then there is no name. -/
theorem filenameScan_run (h : ¬[46, 46] <:+ (List.range n).map cell) :
    (filenameScan n).run cell = ((stripScan (2 ^ 32) n).run cell).map fun m =>
      (m, (List.range (m - (filenameStart m).run cell)).map
        fun k => cell ((filenameStart m).run cell + k)) := by
  unfold filenameScan
  rw [Scan.run_bind, if_neg fun hrun => h ((endsInDots_run cell n).mp hrun), Scan.run_bind]
  cases (stripScan (2 ^ 32) n).run cell with
  | none => rfl
  | some m =>
      dsimp only [Option.map_some]
      rw [Scan.run_bind, Scan.run_bind, Scan.run_pure, Scan.run_getRange]

/-- Up to the last byte of another kind, nothing is trimmed. -/
theorem trim_map_range (hi : i < n) (hcell : ¬Stripped (cell i))
    (hrest : ∀ k, i < k → k < n → Stripped (cell k)) :
    trim 47 46 ((List.range n).map cell) = (List.range (i + 1)).map cell := by
  obtain ⟨d, rfl⟩ := Nat.exists_eq_add_of_le (Nat.succ_le_of_lt hi)
  rw [List.range_add, List.map_append, trim_append]
  · rw [List.range_succ, List.map_append, List.map_singleton]
    exact List.rdropWhile_concat_neg _ _ _ (by simpa using hcell)
  · intro x hx
    obtain ⟨k, hk, rfl⟩ := List.mem_map.mp hx
    obtain ⟨j, hj, rfl⟩ := List.mem_map.mp hk
    have := List.mem_range.mp hj
    exact hrest _ (by omega) (by omega)

/-- On a path that has other bytes than dots and slashes the scan finds its
last word, trimmed. -/
theorem filenameScan_word (hn : n < 2 ^ 31) (h : ¬[46, 46] <:+ (List.range n).map cell) (hi : i < n)
    (hcell : ¬Stripped (cell i)) (hrest : ∀ k, i < k → k < n → Stripped (cell k)) :
    (filenameScan n).run cell = some (i + 1, trimmedWord 47 46 ((List.range n).map cell)) := by
  obtain ⟨-, hword⟩ := slashBefore_run cell (i + 1)
  rw [filenameScan_run h, stripScan_stops (by omega) hi hcell hrest (by omega), Option.map_some,
    filenameStart_run, if_neg (by omega), ← hword, trimmedWord, trim_map_range hi hcell hrest]

/-- Below a path of dots and slashes the loop ends at the last byte of another
kind, counted from the top of the address space down. -/
theorem stripScan_below (hn : n ≤ i) (hall : ∀ k < n, Stripped (cell k)) (hi : i < 2 ^ 32)
    (hcell : ¬Stripped (cell i)) (hrest : ∀ k, i < k → k < 2 ^ 32 → Stripped (cell k)) :
    (stripScan (2 ^ 32) n).run cell = some ((i + 1) % 2 ^ 32) := by
  have hthrough : (stripScan (2 ^ 32 - n + n) n).run cell = (stripScan (2 ^ 32 - n) 0).run cell :=
    stripScan_through (by omega) hall
  rw [Nat.sub_add_cancel (by omega)] at hthrough
  obtain ⟨fuel, hfuel⟩ : ∃ fuel, 2 ^ 32 - n = fuel + 1 := ⟨2 ^ 32 - n - 1, by omega⟩
  rw [hthrough, hfuel, stripScan_succ, show (0 + (2 ^ 32 - 1)) % 2 ^ 32 = 2 ^ 32 - 1 by decide]
  by_cases htop : i = 2 ^ 32 - 1
  · rw [if_neg (htop ▸ hcell), htop, Nat.sub_add_cancel (by decide), Nat.mod_self]
  · rw [if_pos (hrest _ (by omega) (by omega)), Nat.mod_eq_of_lt (by omega)]
    exact stripScan_stops (by omega) (by omega) hcell (fun k hk hk' => hrest k hk (by omega))
      (by omega)

/-- Below a path of dots and slashes the scan finds nothing, if it ends past
2^31. -/
theorem filenameScan_below (hn : n < 2 ^ 31) (h : ¬[46, 46] <:+ (List.range n).map cell)
    (hall : ∀ k < n, Stripped (cell k)) (hi : 2 ^ 31 ≤ i) (hi' : i < 2 ^ 32)
    (hcell : ¬Stripped (cell i)) : ∃ m, (filenameScan n).run cell = some (m, []) := by
  rcases exists_last_not (fun k => Stripped (cell k)) (2 ^ 32) with hnone | ⟨j, hj, hcell', hrest⟩
  · exact absurd (hnone i hi') hcell
  · have hij : i ≤ j := by
      by_contra hlt
      exact hcell (hrest i (by omega) hi')
    refine ⟨(j + 1) % 2 ^ 32, ?_⟩
    rw [filenameScan_run h, stripScan_below (by omega) hall hj hcell' hrest, Option.map_some,
      filenameStart_run]
    by_cases htop : j = 2 ^ 32 - 1
    · rw [htop]
      rfl
    · rw [Nat.mod_eq_of_lt (by omega), if_pos (by omega), Nat.sub_self]
      rfl

/-- A scan that ends elsewhere finds bytes of another kind, which are none of
the path's. -/
theorem filenameScan_garbage (hn : n < 2 ^ 31) (h : ¬[46, 46] <:+ (List.range n).map cell)
    (hbelow : ∀ i, 2 ^ 31 ≤ i → i < 2 ^ 32 → Stripped (cell i))
    (hrun : (filenameScan n).run cell = some (m, name)) : ∃ x ∈ name, ¬Stripped x := by
  rw [filenameScan_run h] at hrun
  obtain ⟨m', hstrip, heq⟩ := Option.map_eq_some_iff.mp hrun
  obtain ⟨rfl, rfl⟩ := Prod.mk.inj heq
  have hexit := stripScan_exit hstrip
  have hlt := stripScan_lt (by omega) hstrip
  rcases m' with _ | k
  · exact absurd (hbelow _ (by decide) (by decide)) hexit
  · rw [pred_mod (by omega)] at hexit
    have hk : k < 2 ^ 31 := by
      by_contra hk
      exact hexit (hbelow k (by omega) (by omega))
    obtain ⟨-, hword⟩ := slashBefore_run cell (k + 1)
    refine ⟨cell k, ?_, hexit⟩
    rw [filenameStart_run, if_neg (by omega), ← hword, List.range_succ, List.map_append,
      List.map_singleton, List.rtakeWhile_concat_pos]
    · exact List.mem_append_right _ List.mem_cons_self
    · exact decide_eq_true fun hslash => hexit (Or.inr hslash)

theorem filenameScan_length (hrun : (filenameScan n).run cell = some (m, name)) :
    name.length ≤ m := by
  by_cases h : [46, 46] <:+ (List.range n).map cell
  · rw [filenameScan_dots h] at hrun
    obtain ⟨-, rfl⟩ := Prod.mk.inj (Option.some.inj hrun)
    exact Nat.zero_le m
  · rw [filenameScan_run h] at hrun
    obtain ⟨m', -, heq⟩ := Option.map_eq_some_iff.mp hrun
    obtain ⟨rfl, rfl⟩ := Prod.mk.inj heq
    rw [List.length_map, List.length_range]
    exact Nat.sub_le _ _

/-! ### The path that is left

The bytes of the name are moved to the front, one by one from the first, and
the path is resized to their number.  The two places may overlap; as the bytes
are moved down this does no harm. -/

/-- `path_filename` moves the name it finds to the front, and resizes the path
to it. -/
theorem pathFilename_eq (harray : path.array = some b) :
    pathFilename mem path = match (filenameScan path.length).run b.cell with
      | none => .error .diverged
      | some (length, name) => memcpyTo path.array 0 name >>= fun array =>
          .ok (u8aResize mem ⟨length, path.capacity, array⟩ name.length) := by
  unfold pathFilename pathArray
  rw [harray]
  rfl

/-- The path is then the name: the copy is in front, and the resize keeps it.
An empty name leaves the path without an array. -/
theorem moved_contents (harray : path.array = some b) (hle : name.length ≤ m)
    (hrun : (memcpyTo path.array 0 name >>= fun array =>
      .ok (u8aResize mem ⟨m, path.capacity, array⟩ name.length)) = Except.ok q) :
    q.contents = name := by
  obtain ⟨array, hcopy, hq⟩ := Exec.bind_eq_ok.mp hrun
  obtain rfl := Except.ok.inj hq
  have hlen : (u8aResize mem ⟨m, path.capacity, array⟩ name.length).length = name.length := by
    show (if name.length < m then name.length else m) = name.length
    split
    · rfl
    · omega
  by_cases hnil : name.length = 0
  · rw [contents_of_length (hlen.trans hnil), List.length_eq_zero_iff.mp hnil]
  · rw [harray] at hcopy
    by_cases hfits : 0 + name.length ≤ b.size
    · obtain ⟨b', hcopy', hsize, hcell⟩ := memcpyTo_some hfits
      obtain rfl := Except.ok.inj (hcopy'.symm.trans hcopy)
      have harray' : (u8aResize mem ⟨m, path.capacity, some b'⟩ name.length).array = some b' := by
        show (if name.length = 0 then none else if name.length ≤ b'.size then some b' else _) = _
        rw [if_neg hnil, if_pos (by omega)]
      rw [contents_of_some harray', hlen]
      refine List.ext_getElem (by rw [List.length_map, List.length_range]) fun k hk hk' => ?_
      rw [List.getElem_map, List.getElem_range, hcell, if_pos (Nat.zero_le k), Nat.sub_zero,
        List.getD_eq_getElem _ _ hk']
    · unfold memcpyTo at hcopy
      rw [if_neg hnil] at hcopy
      dsimp only at hcopy
      rw [if_neg hfits] at hcopy
      cases hcopy

theorem moved_ok (mem : Option (Block UInt8)) (m : ℕ) (harray : path.array = some b)
    (hle : name.length ≤ b.size) :
    ∃ q, (memcpyTo path.array 0 name >>= fun array =>
      .ok (u8aResize mem ⟨m, path.capacity, array⟩ name.length)) = Except.ok q := by
  obtain ⟨b', hcopy, -⟩ := memcpyTo_some (show 0 + name.length ≤ b.size by omega)
  rw [harray, hcopy]
  exact ⟨_, rfl⟩

/-! ### When the filename is right

The last component is found if it does not end in a dot, or if it is `..` and
stands at the end.  For a path of dots and slashes only, what is below the
array decides, and the condition says when the loop ends where it does no
harm. -/

/-- The stripping loop comes to an end in the path, or in the half of the
address space below it; two dots at the end spare it. -/
def Stops (path : U8ArrayList) : Prop :=
  [46, 46] <:+ path.contents ∨ (∃ x ∈ path.contents, ¬Stripped x) ∨
    ∃ b, path.array = some b ∧ ∃ i, 2 ^ 31 ≤ i ∧ i < 2 ^ 32 ∧ ¬Stripped (b.cell i)

/-- The call leaves the path's last component, or the empty path when that is
`..` or there is none. -/
def LeavesFilename (c : List UInt8) (result : Exec U8ArrayList) : Prop :=
  ∃ q, result = .ok q ∧ q.contents = finalName 47 46 c

theorem not_leavesFilename_of {result : Exec U8ArrayList}
    (hrun : ∃ q, result = .ok q ∧ q.contents = name) (hne : name ≠ finalName 47 46 c) :
    ¬LeavesFilename c result := by
  rintro ⟨q, hq, hc⟩
  obtain ⟨q', hq', hname⟩ := hrun
  obtain rfl := Except.ok.inj (hq'.symm.trans hq)
  exact hne (hname.symm.trans hc)

/-- A scan that finds a name within the path. -/
theorem leavesFilename_iff (harray : path.array = some b) (hsize : name.length ≤ b.size)
    (hscan : (filenameScan path.length).run b.cell = some (m, name)) :
    LeavesFilename c (pathFilename mem path) ↔ name = finalName 47 46 c := by
  unfold LeavesFilename
  rw [pathFilename_eq harray, hscan]
  constructor
  · rintro ⟨q, hrun, hq⟩
    rw [← hq, moved_contents harray (filenameScan_length hscan) hrun]
  · intro heq
    obtain ⟨q, hrun⟩ := moved_ok mem m harray hsize
    exact ⟨q, hrun, (moved_contents harray (filenameScan_length hscan) hrun).trans heq⟩

/-- The loop that goes on below the array and stops in no good place leaves no
part of the path. -/
theorem not_leavesFilename (h : path.Sound) (harray : path.array = some b)
    (hdots : ¬[46, 46] <:+ path.contents) (hall : ∀ x ∈ path.contents, Stripped x)
    (hbelow : ∀ i, 2 ^ 31 ≤ i → i < 2 ^ 32 → Stripped (b.cell i)) :
    ¬LeavesFilename path.contents (pathFilename mem path) := by
  rintro ⟨q, hrun, hq⟩
  rw [contents_of_some harray] at hdots
  rw [pathFilename_eq harray] at hrun
  cases hscan : (filenameScan path.length).run b.cell with
  | none =>
      rw [hscan] at hrun
      cases hrun
  | some found =>
      obtain ⟨m, name⟩ := found
      rw [hscan] at hrun
      obtain ⟨x, hx, hother⟩ := filenameScan_garbage h.length_lt hdots hbelow hscan
      rw [← moved_contents harray (filenameScan_length hscan) hrun, hq] at hx
      exact hother (hall x (mem_of_mem_finalName (by decide) hx))

/-- **When `path_filename` is right**: the last component is one that
stripping finds, and the loop that strips comes to an end where it does no
harm. -/
theorem pathFilename_leaves_iff (h : path.Sound) :
    LeavesFilename path.contents (pathFilename mem path) ↔
      Plain 47 46 path.contents ∧ Stops path := by
  cases harray : path.array with
  | none =>
      have hempty : path.contents = [] := by
        unfold U8ArrayList.contents
        rw [harray]
      refine iff_of_false ?_ ?_
      · rintro ⟨q, hrun, -⟩
        unfold pathFilename pathArray at hrun
        rw [harray] at hrun
        cases hrun
      · rintro ⟨-, hdots | ⟨x, hx, -⟩ | ⟨b, hb, -⟩⟩
        · rw [hempty] at hdots
          exact absurd hdots.length_le (Nat.not_succ_le_zero 1)
        · rw [hempty] at hx
          exact absurd hx List.not_mem_nil
        · cases harray.symm.trans hb
  | some b =>
      have hcells := contents_of_some harray
      rw [← trimmedName_eq_iff (show (47 : UInt8) ≠ 46 by decide), trimmedName]
      by_cases hdots : [46, 46] <:+ path.contents
      · rw [if_pos hdots, leavesFilename_iff harray (Nat.zero_le _)
          (filenameScan_dots (hcells ▸ hdots))]
        exact (and_iff_left (Or.inl hdots)).symm
      · rw [if_neg hdots]
        rcases exists_last_not (fun k => Stripped (b.cell k)) path.length with
          hall | ⟨i, hi, hcell, hrest⟩
        · have hall' : ∀ x ∈ path.contents, Stripped x := by
            intro x hx
            rw [hcells] at hx
            obtain ⟨k, hk, rfl⟩ := List.mem_map.mp hx
            exact hall k (List.mem_range.mp hk)
          by_cases hbelow : ∃ i, 2 ^ 31 ≤ i ∧ i < 2 ^ 32 ∧ ¬Stripped (b.cell i)
          · obtain ⟨i, hi, hi', hcell⟩ := hbelow
            obtain ⟨m, hscan⟩ := filenameScan_below h.length_lt (hcells ▸ hdots) hall hi hi' hcell
            rw [leavesFilename_iff harray (Nat.zero_le _) hscan, trimmedWord_eq_nil_iff.mpr hall']
            exact (and_iff_left (Or.inr (Or.inr ⟨b, harray, i, hi, hi', hcell⟩))).symm
          · refine iff_of_false (not_leavesFilename h harray hdots hall' fun i hi hi' => ?_) ?_
            · by_contra hcell
              exact hbelow ⟨i, hi, hi', hcell⟩
            · rintro ⟨-, hdots' | ⟨x, hx, hother⟩ | ⟨b', hb', hbelow'⟩⟩
              · exact hdots hdots'
              · exact hother (hall' x hx)
              · obtain rfl := Option.some.inj (harray.symm.trans hb')
                exact hbelow hbelow'
        · have hscan := filenameScan_word h.length_lt (hcells ▸ hdots) hi hcell hrest
          have hsize : (trimmedWord 47 46 path.contents).length ≤ b.size := by
            refine (List.rtakeWhile_suffix _ _).length_le.trans ?_
            rw [hcells, trim_map_range hi hcell hrest, List.length_map, List.length_range]
            exact (Nat.succ_le_of_lt hi).trans (h.length_le_size harray)
          have hmem : b.cell i ∈ path.contents := by
            rw [hcells]
            exact List.mem_map_of_mem (List.mem_range.mpr hi)
          rw [← hcells] at hscan
          rw [leavesFilename_iff harray hsize hscan]
          exact (and_iff_left (Or.inr (Or.inl ⟨_, hmem, hcell⟩))).symm

/-- **`path_filename` and `path_filename_cloned` on every path**: they leave
the last component just when it does not end in a dot, or is `..` and ends the
path or has no name before it. -/
theorem path_filename_exact (h : path.Sound) :
    (∀ mem, LeavesFilename path.contents (pathFilename mem path) ↔
      Plain 47 46 path.contents ∧ Stops path) ∧
    ∀ mem mem' p, Grants mem path.length → pathClone mem path = .ok p →
      (LeavesFilename path.contents (pathFilenameCloned mem mem' path) ↔
        Plain 47 46 path.contents ∧ Stops p) := by
  refine ⟨fun mem => pathFilename_leaves_iff h, fun mem mem' p hmem hclone => ?_⟩
  obtain ⟨hp, hbytes⟩ := h.clone hmem hclone
  unfold pathFilenameCloned
  rw [hclone, Exec.ok_bind, ← hbytes]
  exact pathFilename_leaves_iff hp

/-- A path of a string in a block of its own, without a byte to spare. -/
def pathOf (bytes : List UInt8) : U8ArrayList :=
  ⟨bytes.length, bytes.length, some ⟨bytes.length, fun i => bytes.getD i 0⟩⟩

/-- Of `a/b.c` the filename is `b.c`. -/
theorem path_filename_exact_a_b_c :
    LeavesFilename (pathOf [97, 47, 98, 46, 99]).contents
      (pathFilename none (pathOf [97, 47, 98, 46, 99])) := by
  have hsound : (pathOf [97, 47, 98, 46, 99]).Sound := ⟨le_rfl, le_rfl, by decide⟩
  refine ((path_filename_exact hsound).1 none).mpr ⟨?_, Or.inr (Or.inl ⟨97, ?_, ?_⟩)⟩
  · intro w hw
    have heq : lastComponent (47 : UInt8) 46 (pathOf [97, 47, 98, 46, 99]).contents =
        some [98, 46, 99] := by decide
    obtain rfl := Option.some.inj (hw.symm.trans heq)
    exact Or.inl (by decide)
  · decide
  · decide

/-- The filename of `a.` is `a.`, and that of `a/../` is empty; `a` is what is
left of both. -/
theorem filename_loses_dots :
    (finalName 47 46 (pathOf [97, 46]).contents = [97, 46] ∧
      (∃ q, pathFilename none (pathOf [97, 46]) = .ok q ∧ q.contents = [97]) ∧
      ¬LeavesFilename (pathOf [97, 46]).contents (pathFilename none (pathOf [97, 46]))) ∧
    finalName 47 46 (pathOf [97, 47, 46, 46, 47]).contents = [] ∧
      (∃ q, pathFilename none (pathOf [97, 47, 46, 46, 47]) = .ok q ∧ q.contents = [97]) ∧
      ¬LeavesFilename (pathOf [97, 47, 46, 46, 47]).contents
        (pathFilename none (pathOf [97, 47, 46, 46, 47])) := by
  have hdot : ∃ q, pathFilename none (pathOf [97, 46]) = .ok q ∧ q.contents = [97] :=
    ⟨_, rfl, rfl⟩
  have hdots : ∃ q, pathFilename none (pathOf [97, 47, 46, 46, 47]) = .ok q ∧ q.contents = [97] :=
    ⟨_, rfl, rfl⟩
  exact ⟨⟨by decide, hdot, not_leavesFilename_of hdot (by decide)⟩, by decide, hdots,
    not_leavesFilename_of hdots (by decide)⟩

end CourseOs.Fs
