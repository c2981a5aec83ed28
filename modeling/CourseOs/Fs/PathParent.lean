import CourseOs.Fs.PathLookup
import CourseOs.Fs.PathOps
import CourseOs.Lib.Components
import CourseOs.Lib.Runs

/-!
# The parent of a path

`path_parent` looks for the last slash from index `length` on, one past the
path.  It cuts a path by lowering its length only, so the slash it cut at is
still there, one past the path, and stops the next call at once: of an
absolute path one call takes the last component, and every further call leaves
it as it is.

## Main definitions

* `parentOf c` — the path without its last element: the bytes before the last
  slash, a slash when there are none, a dot when there is no slash.
* `ClearAfter path` — the byte one past the path is no slash.
* `Leaves mem c` — a call has left a path of the bytes `c`, or has stopped for
  want of memory.
* `Reached path` — the paths that `path_from_string` and operations after it
  lead to, with any changes to the memory around them.

## Main results

* `pathParent_leaves_iff` — one call is right exactly when there is no slash
  one past the path, or when the path is its own parent.
* `pathParents_iff` — after `k` calls on an absolute path `k` components are
  gone just when there was no slash one past it and one call is all it takes.
* `path_parent_exact` — both, and a call after `path_append`, on every path
  that the operations lead to.

What lies one past a path is not determined by the path: it is left over from
an earlier call, from the allocator, or from whatever the block was used for
before.  `PathOp.around` stands for all of that, and makes the results
independent of how the block is used.
-/

namespace CourseOs.Fs

open Relation U8ArrayList

variable {path p q : U8ArrayList} {b : Block UInt8} {mem mem' : Option (Block UInt8)}
  {cell : ℕ → UInt8} {n : ℕ} {a c t elem : List UInt8} {cs : List (List UInt8)}

/-- The path without its last element: the bytes before the last slash, a
slash when there are none, and a dot when there is no slash. -/
def parentOf (c : List UInt8) : List UInt8 :=
  if 47 ∈ c then
    if (c.rdropWhile (· ≠ 47)).dropLast = [] then [47] else (c.rdropWhile (· ≠ 47)).dropLast
  else [46]

theorem parentOf_of_notMem (h : (47 : UInt8) ∉ c) : parentOf c = [46] := if_neg h

theorem parentOf_append (ht : (47 : UInt8) ∉ t) :
    parentOf (a ++ 47 :: t) = if a = [] then [47] else a := by
  have hdrop : (a ++ 47 :: t).rdropWhile (· ≠ 47) = a ++ [47] := by
    rw [List.append_cons, List.rdropWhile, List.reverse_append, List.dropWhile_append_of_pos]
    · exact List.rdropWhile_concat_neg _ _ _ (by decide)
    · intro x hx
      exact decide_eq_true fun heq => ht (heq ▸ List.mem_reverse.mp hx)
  unfold parentOf
  rw [if_pos (List.mem_append_right a List.mem_cons_self), hdrop, List.dropLast_concat]

/-- Only a dot and a slash are their own parents. -/
theorem parentOf_ne (hdot : c ≠ [46]) (hslash : c ≠ [47]) : parentOf c ≠ c := by
  by_cases hmem : (47 : UInt8) ∈ c
  · obtain ⟨a, t, rfl, ht⟩ := Components.exists_last hmem
    rw [parentOf_append ht]
    split
    · intro heq
      exact hslash heq.symm
    · intro heq
      replace heq := congrArg List.length heq
      rw [List.length_append, List.length_cons] at heq
      omega
  · rw [parentOf_of_notMem hmem]
    exact Ne.symm hdot

/-! ### What the scan finds

The loop in terms of the bytes it looks at, which are those of the path and
the one behind it. -/

/-- The loop finds the last slash up to where it starts, the byte at the start
included. -/
theorem slashScan_run (cell : ℕ → UInt8) (i : ℕ) :
    (∃ j ≤ i, (slashScan i).run cell = some j ∧ cell j = 47 ∧
      ∀ k, j < k → k ≤ i → cell k ≠ 47) ∨
      ((slashScan i).run cell = none ∧ ∀ k ≤ i, cell k ≠ 47) := by
  induction i with
  | zero =>
      unfold slashScan
      rw [Scan.run_bind, Scan.run_get]
      by_cases h : cell 0 = 47
      · rw [if_pos h]
        exact Or.inl ⟨0, le_rfl, rfl, h, fun k hk hk' => absurd hk' (not_le.mpr hk)⟩
      · rw [if_neg h]
        refine Or.inr ⟨rfl, fun k hk => ?_⟩
        rwa [Nat.le_zero.mp hk]
  | succ i ih =>
      unfold slashScan
      rw [Scan.run_bind, Scan.run_get]
      by_cases h : cell (i + 1) = 47
      · rw [if_pos h]
        exact Or.inl ⟨i + 1, le_rfl, rfl, h, fun k hk hk' => absurd hk' (not_le.mpr hk)⟩
      · rw [if_neg h]
        refine ih.imp ?_ ?_
        · rintro ⟨j, hj, hrun, hslash, hlast⟩
          refine ⟨j, hj.trans (Nat.le_succ i), hrun, hslash, fun k hk hk' => ?_⟩
          rcases Nat.le_succ_iff.mp hk' with hle | rfl
          · exact hlast k hk hle
          · exact h
        · rintro ⟨hrun, hnone⟩
          refine ⟨hrun, fun k hk => ?_⟩
          rcases Nat.le_succ_iff.mp hk with hle | rfl
          · exact hnone k hle
          · exact h

theorem isDot_run (cell : ℕ → UInt8) (n : ℕ) :
    (isDot n).run cell = true ↔ n = 1 ∧ cell 0 = 46 := by
  unfold isDot
  by_cases hone : n = 1
  · rw [if_pos hone, Scan.run_bind, Scan.run_get, Scan.run_pure, beq_iff_eq]
    exact (and_iff_right hone).symm
  · rw [if_neg hone, Scan.run_pure]
    exact iff_of_false Bool.false_ne_true fun h => hone h.1

/-- A lone dot is left. -/
theorem parentScan_dot (hdot : n = 1 ∧ cell 0 = 46) : (parentScan n).run cell = some n := by
  unfold parentScan
  rw [Scan.run_bind, if_pos ((isDot_run cell n).mpr hdot), Scan.run_pure]

/-- Past the test for a lone dot the loop decides. -/
theorem parentScan_run (hlt : n < 2 ^ 31) (hdot : ¬(n = 1 ∧ cell 0 = 46)) :
    (parentScan n).run cell = ((slashScan n).run cell).map fun i => if i = 0 then 1 else i := by
  unfold parentScan
  rw [Scan.run_bind, if_neg fun h => hdot ((isDot_run cell n).mp h), if_pos hlt, Scan.run_bind,
    Scan.run_pure]

/-! ### The three outcomes

A slash behind the path stops the loop before it has begun; otherwise the last
slash of the path is where it is cut, and a path without a slash becomes a
dot.  The first of these is the odd one, as it depends on what was in the
block before. -/

/-- The byte one past the path is no slash.  Whether it is depends on what was
in the block before, and not on the path. -/
def ClearAfter (path : U8ArrayList) : Prop :=
  ∀ b, path.array = some b → b.cell path.length ≠ 47

/-- A path of fewer bytes in the same block. -/
theorem contents_take (harray : path.array = some b) (hn : n ≤ path.length) :
    U8ArrayList.contents { path with length := n } = path.contents.take n := by
  rw [contents_of_some harray, ← List.map_take, List.take_range, Nat.min_eq_left hn]
  exact contents_of_some harray

theorem pathParent_eq (harray : path.array = some b) (hne : path.length ≠ 0) :
    pathParent mem path = match (parentScan path.length).run b.cell with
      | some length => .ok { path with length := length }
      | none => u8aPush mem { path with length := 0 } 46 := by
  unfold pathParent pathArray
  rw [if_neg hne, harray]
  rfl

/-- The path `.` stays as it is. -/
theorem pathParent_dot (hpath : path.contents = [46]) : pathParent mem path = .ok path := by
  obtain ⟨b, harray, hlen, hcell⟩ := contents_getElem (by decide) hpath
  have hone : path.length = 1 := hlen
  rw [pathParent_eq harray (by omega), parentScan_dot ⟨hone, hcell 0 (by decide)⟩]

/-- A slash one past the path stops the scan, and the path stays as it is. -/
theorem pathParent_stuck (h : path.Sound) (hne : path.length ≠ 0) (harray : path.array = some b)
    (hafter : b.cell path.length = 47) : pathParent mem path = .ok path := by
  rw [pathParent_eq harray hne]
  by_cases hdot : path.length = 1 ∧ b.cell 0 = 46
  · rw [parentScan_dot hdot]
  · rw [parentScan_run h.length_lt hdot]
    rcases slashScan_run b.cell path.length with ⟨j, hj, hrun, -, hlast⟩ | ⟨-, hnone⟩
    · obtain rfl : j = path.length := by
        by_contra hj'
        exact hlast _ (lt_of_le_of_ne hj hj') le_rfl hafter
      rw [hrun, Option.map_some, if_neg hne]
    · exact absurd hafter (hnone _ le_rfl)

/-- Without one the path is cut at its last slash, which is then the byte one
past it. -/
theorem pathParent_cut (h : path.Sound) (hafter : ClearAfter path)
    (hpath : path.contents = a ++ 47 :: t) (ht : (47 : UInt8) ∉ t) :
    pathParent mem path = .ok { path with length := if a = [] then 1 else a.length } := by
  obtain ⟨b, harray, hlen, hcell⟩ := contents_getElem (by simp) hpath
  rw [List.length_append, List.length_cons] at hlen
  have hslash : b.cell a.length = 47 := by
    rw [hcell a.length (by simp)]
    simp
  have hrest : ∀ k, a.length < k → k ≤ path.length → b.cell k ≠ 47 := by
    intro k hk hk'
    rcases hk'.lt_or_eq with hlt | rfl
    · obtain ⟨m, rfl⟩ := Nat.exists_eq_add_of_lt hk
      rw [hcell _ (by rw [List.length_append, List.length_cons]; omega)]
      intro heq
      refine ht (heq ▸ ?_)
      simp [Nat.add_assoc]
    · exact hafter b harray
  have hdot : ¬(path.length = 1 ∧ b.cell 0 = 46) := by
    rintro ⟨hone, hzero⟩
    rw [show a.length = 0 by omega, hzero] at hslash
    exact absurd hslash (by decide)
  rw [pathParent_eq harray (by omega), parentScan_run h.length_lt hdot]
  rcases slashScan_run b.cell path.length with ⟨j, hj, hrun, hj47, hlast⟩ | ⟨-, hnone⟩
  · obtain rfl : j = a.length := by
      rcases lt_trichotomy j a.length with hlt | heq | hlt
      · exact absurd hslash (hlast _ hlt (by omega))
      · exact heq
      · exact absurd hj47 (hrest j hlt hj)
    rw [hrun, Option.map_some]
    simp only [List.length_eq_zero_iff]
  · exact absurd hslash (hnone _ (by omega))

/-- The path `/` stays as it is. -/
theorem pathParent_root (h : path.Sound) (hpath : path.contents = [47]) :
    pathParent mem path = .ok path := by
  obtain ⟨b, harray, hlen, -⟩ := contents_getElem (by decide) hpath
  replace hlen : path.length = 1 := hlen
  by_cases hb : b.cell path.length = 47
  · exact pathParent_stuck h (by omega) harray hb
  · have hafter : ClearAfter path := fun b' hb' => by
      obtain rfl := Option.some.inj (harray.symm.trans hb')
      exact hb
    refine (pathParent_cut (a := []) (t := []) h hafter hpath List.not_mem_nil).trans ?_
    rw [if_pos rfl, ← hlen]

/-- A path without slashes becomes a dot. -/
theorem pathParent_noSlash (h : path.Sound) (hafter : ClearAfter path) (hne : path.contents ≠ [])
    (hdot : path.contents ≠ [46]) (hpath : (47 : UInt8) ∉ path.contents) :
    pathParent mem path = u8aPush mem { path with length := 0 } 46 := by
  obtain ⟨b, harray, hlen, hcell⟩ := contents_getElem hne rfl
  have hpos := List.length_pos_of_ne_nil hne
  have hdot' : ¬(path.length = 1 ∧ b.cell 0 = 46) := by
    rintro ⟨hone, hzero⟩
    refine hdot (List.ext_getElem (hlen.symm.trans hone) fun i hi hi' => ?_)
    obtain rfl : i = 0 := Nat.lt_one_iff.mp hi'
    rw [← hcell 0 hi, hzero]
    rfl
  rw [pathParent_eq harray (by omega), parentScan_run h.length_lt hdot']
  rcases slashScan_run b.cell path.length with ⟨j, hj, -, hslash, -⟩ | ⟨hrun, -⟩
  · rcases hj.lt_or_eq with hlt | rfl
    · refine absurd (List.getElem_mem (hlen ▸ hlt)) ?_
      rw [← hcell j (hlen ▸ hlt), hslash]
      exact hpath
    · exact absurd hslash (hafter b harray)
  · rw [hrun]
    rfl

/-! ### When the parent is right

One call does what it should, unless there is a slash behind the path.  The
paths that are their own parents, `/` and `.`, come out right even then. -/

/-- A call has left a path of the bytes `c`, or has stopped for want of
memory. -/
def Leaves (mem : Option (Block UInt8)) (c : List UInt8) : Exec U8ArrayList → Prop
  | .ok path => path.contents = c
  | .error trap => trap = .nullDereference ∧ mem = none

/-- **`path_parent`** without a slash one past the path.  The path `.` stays,
a path with a slash is cut at the last one, and any other becomes `.`, for
which there has to be memory. -/
theorem pathParent_leaves (h : path.Sound) (hne : path.contents ≠ []) (hafter : ClearAfter path)
    (hmem : Grants mem (grown path.capacity)) :
    Leaves mem (parentOf path.contents) (pathParent mem path) := by
  by_cases hdot : path.contents = [46]
  · rw [pathParent_dot hdot, hdot]
    exact hdot
  by_cases hslash : (47 : UInt8) ∈ path.contents
  · obtain ⟨a, t, hpath, ht⟩ := Components.exists_last hslash
    obtain ⟨b, harray, hlen, -⟩ := contents_getElem hne rfl
    rw [pathParent_cut h hafter hpath ht]
    show U8ArrayList.contents { path with length := _ } = _
    rw [contents_take harray, hpath, parentOf_append ht]
    · split
      · rw [‹a = []›]
        rfl
      · exact List.take_left
    · rw [hlen, hpath, List.length_append, List.length_cons]
      split <;> omega
  · rw [pathParent_noSlash h hafter hne hdot hslash, parentOf_of_notMem hslash]
    have hsound : U8ArrayList.Sound { path with length := 0 } :=
      ⟨Nat.zero_le _, h.capacity_le, h.room_lt⟩
    rcases hsound.push hmem 46 with ⟨path', hrun, -, hcontents⟩ | ⟨hrun, hnone⟩
    · rw [hrun]
      exact hcontents.trans (congrArg (· ++ [46]) (contents_of_length rfl))
    · rw [hrun]
      exact ⟨rfl, hnone⟩

/-- **When `path_parent` is right**: when there is no slash one past the path,
and for the paths that are their own parents, which a call leaves as they are
in any case. -/
theorem pathParent_leaves_iff (h : path.Sound) (hne : path.contents ≠ [])
    (hmem : Grants mem (grown path.capacity)) :
    Leaves mem (parentOf path.contents) (pathParent mem path) ↔
      ClearAfter path ∨ path.contents = [46] ∨ path.contents = [47] := by
  constructor
  · intro hleaves
    by_contra hnot
    rw [not_or, not_or] at hnot
    obtain ⟨hafter, hdot, hslash⟩ := hnot
    unfold ClearAfter at hafter
    push Not at hafter
    obtain ⟨b, harray, hb⟩ := hafter
    have hlen : path.length ≠ 0 := fun hzero => hne (contents_of_length hzero)
    rw [pathParent_stuck h hlen harray hb] at hleaves
    exact parentOf_ne hdot hslash hleaves.symm
  · rintro (hafter | hdot | hslash)
    · exact pathParent_leaves h hne hafter hmem
    · rw [pathParent_dot hdot, hdot]
      exact hdot
    · rw [pathParent_root h hslash, hslash]
      exact hslash

/-! ### Parents of parents

Cutting a path leaves the slash it was cut at, right behind the path that is
left.  So a call that has cut a path makes sure that the next one does
nothing. -/

/-- `k` calls of `path_parent` on one path, each on what the one before it
left. -/
def pathParents (mem : Option (Block UInt8)) : ℕ → U8ArrayList → Exec U8ArrayList
  | 0, path => .ok path
  | k + 1, path => do
      let path ← pathParent mem path
      pathParents mem k path

theorem pathParents_fixed (h : pathParent mem path = .ok path) (k : ℕ) :
    pathParents mem k path = .ok path := by
  induction k with
  | zero => rfl
  | succ k ih =>
      unfold pathParents
      rw [h, Exec.ok_bind, ih]

/-- The slash that a path was cut at stops the next call. -/
theorem pathParent_twice (h : path.Sound) (hafter : ClearAfter path)
    (hpath : path.contents = a ++ 47 :: t) (ht : (47 : UInt8) ∉ t) (ha : a ≠ []) :
    ∃ q, pathParent mem path = .ok q ∧ q.contents = a ∧ pathParent mem q = .ok q := by
  obtain ⟨b, harray, hlen, hcell⟩ := contents_getElem (by simp) hpath
  rw [List.length_append, List.length_cons] at hlen
  have hle : a.length ≤ path.length := by omega
  refine ⟨{ path with length := a.length }, ?_, ?_, ?_⟩
  · rw [pathParent_cut h hafter hpath ht, if_neg ha]
  · rw [contents_take harray hle, hpath, List.take_left]
  · refine pathParent_stuck ⟨hle.trans h.length_le, h.capacity_le, h.room_lt⟩ ?_ harray ?_
    · exact fun hzero => ha (List.length_eq_zero_iff.mp hzero)
    · show b.cell a.length = 47
      rw [hcell a.length (by simp)]
      simp

theorem pathBytes_concat (cs : List (List UInt8)) (c : List UInt8) :
    pathBytes (cs ++ [c]) = cs.flatMap (47 :: ·) ++ 47 :: c := by
  cases cs with
  | nil => exact congrArg (47 :: ·) (List.append_nil c)
  | cons c' cs =>
      show 47 :: pathTail c' (cs ++ [c]) = _
      simp [pathTail]

theorem pathBytes_of_ne (h : cs ≠ []) : pathBytes cs = cs.flatMap (47 :: ·) := by
  cases cs with
  | nil => exact absurd rfl h
  | cons c cs => rfl

/-- Fewer components make a shorter path. -/
theorem length_pathBytes_take (hcs : ∀ c ∈ cs, c ≠ []) (hn : n < cs.length) :
    (pathBytes (cs.take n)).length < (pathBytes cs).length := by
  have hne : cs ≠ [] := fun hnil => absurd hn (by rw [hnil]; exact Nat.not_lt_zero n)
  have hrest : 1 < ((cs.drop n).flatMap (47 :: ·)).length := by
    cases hdrop : cs.drop n with
    | nil => exact absurd (List.drop_eq_nil_iff.mp hdrop) (not_le.mpr hn)
    | cons c rest =>
        have hmem : c ∈ cs := List.mem_of_mem_drop (hdrop ▸ List.mem_cons_self)
        have hpos := List.length_pos_of_ne_nil (hcs c hmem)
        rw [List.flatMap_cons, List.length_append, List.length_cons]
        omega
  have hsplit : (pathBytes cs).length =
      ((cs.take n).flatMap (47 :: ·)).length + ((cs.drop n).flatMap (47 :: ·)).length := by
    rw [pathBytes_of_ne hne, ← List.length_append, ← List.flatMap_append, List.take_append_drop]
  by_cases hzero : cs.take n = []
  · rw [hzero, hsplit]
    exact hrest.trans_le (Nat.le_add_left _ _)
  · rw [pathBytes_of_ne hzero, hsplit]
    omega

/-- What a fixed path holds after `k` calls. -/
theorem pathParents_fixed_iff (h : pathParent mem path = .ok path) (k : ℕ) :
    (∃ q, pathParents mem k path = .ok q ∧ q.contents = c) ↔ path.contents = c := by
  rw [pathParents_fixed h]
  constructor
  · rintro ⟨q, hq, hc⟩
    obtain rfl := Except.ok.inj hq
    exact hc
  · exact fun hc => ⟨path, rfl, hc⟩

/-- Of an absolute path, one call takes the last component, and the next
leaves the rest: its slash is still there. -/
theorem pathParent_pathBytes (h : path.Sound) (hafter : ClearAfter path)
    (hpath : path.contents = pathBytes (cs ++ [c])) (hc : (47 : UInt8) ∉ c) :
    ∃ q, pathParent mem path = .ok q ∧ q.contents = pathBytes cs ∧ pathParent mem q = .ok q := by
  rw [pathBytes_concat] at hpath
  by_cases hnil : cs = []
  · subst hnil
    obtain ⟨b, harray, hlen, -⟩ := contents_getElem (by simp) hpath
    have hone : 1 ≤ path.length := by
      rw [hlen, List.length_append, List.length_cons]
      omega
    have hroot : U8ArrayList.contents { path with length := 1 } = [47] := by
      rw [contents_take harray hone, hpath]
      rfl
    refine ⟨{ path with length := 1 }, pathParent_cut h hafter hpath hc, hroot, ?_⟩
    exact pathParent_root ⟨hone.trans h.length_le, h.capacity_le, h.room_lt⟩ hroot
  · rw [pathBytes_of_ne hnil]
    refine pathParent_twice h hafter hpath hc ?_
    rw [← pathBytes_of_ne hnil]
    cases cs with
    | nil => exact absurd rfl hnil
    | cons c' cs => exact List.cons_ne_nil _ _

/-- **Parents of an absolute path**: after `k` calls `k` components are gone
just when there was no slash one past the path and one call is all it takes. -/
theorem pathParents_iff (h : path.Sound) (hpath : path.contents = pathBytes cs)
    (hcs : ∀ c ∈ cs, c ≠ [] ∧ (47 : UInt8) ∉ c) (k : ℕ) :
    (∃ q, pathParents mem k path = .ok q ∧ q.contents = pathBytes (cs.take (cs.length - k))) ↔
      k = 0 ∨ cs = [] ∨ (ClearAfter path ∧ (k = 1 ∨ cs.length = 1)) := by
  have hshort : ∀ m < cs.length, pathBytes cs ≠ pathBytes (cs.take m) := fun m hm heq =>
    (length_pathBytes_take (fun c hc => (hcs c hc).1) hm).ne (congrArg List.length heq).symm
  rcases List.eq_nil_or_concat' cs with rfl | ⟨cs', c, rfl⟩
  · rw [pathParents_fixed_iff (pathParent_root h hpath), List.take_nil]
    exact iff_of_true hpath (Or.inr (Or.inl rfl))
  cases k with
  | zero =>
      refine iff_of_true ⟨path, rfl, ?_⟩ (Or.inl rfl)
      rw [hpath, Nat.sub_zero, List.take_length]
  | succ k =>
      have hlast : (47 : UInt8) ∉ c := (hcs c (List.mem_append_right cs' List.mem_cons_self)).2
      have hpath' := hpath.trans (pathBytes_concat cs' c)
      have hlen : (cs' ++ [c]).length = cs'.length + 1 := List.length_append
      by_cases hafter : ClearAfter path
      · have htake : (cs' ++ [c]).take ((cs' ++ [c]).length - (k + 1)) =
            cs'.take (cs'.length - k) := by
          rw [hlen, Nat.add_sub_add_right, List.take_append_of_le_length (Nat.sub_le _ _)]
        obtain ⟨q, hq, hbytes, hfixed⟩ := pathParent_pathBytes h hafter hpath hlast
        rw [htake, pathParents, hq, Exec.ok_bind, pathParents_fixed_iff hfixed, hbytes]
        constructor
        · intro heq
          by_contra hnot
          refine (length_pathBytes_take (n := cs'.length - k) (fun c hc =>
            (hcs c (List.mem_append_left _ hc)).1) ?_).ne (congrArg List.length heq).symm
          have hboth : k ≠ 0 ∧ cs'.length ≠ 0 := by
            constructor
            · exact fun hk => hnot (Or.inr (Or.inr ⟨hafter, Or.inl (by rw [hk])⟩))
            · exact fun hl => hnot (Or.inr (Or.inr ⟨hafter, Or.inr (by rw [hlen, hl])⟩))
          omega
        · rintro (hk | hnil | ⟨-, hk | hk⟩)
          · exact absurd hk (Nat.succ_ne_zero k)
          · exact absurd hnil (List.append_ne_nil_of_right_ne_nil cs' (List.cons_ne_nil c []))
          · rw [Nat.succ.inj hk, Nat.sub_zero, List.take_length]
          · rw [hlen] at hk
            rw [List.length_eq_zero_iff.mp (Nat.succ.inj hk), List.take_nil]
      · have hstuck : pathParent mem path = .ok path := by
          unfold ClearAfter at hafter
          push Not at hafter
          obtain ⟨b, harray, hb⟩ := hafter
          refine pathParent_stuck h (fun hzero => ?_) harray hb
          have hempty := (contents_of_length hzero).symm.trans hpath'
          exact List.append_ne_nil_of_right_ne_nil _ (List.cons_ne_nil _ _) hempty.symm
        rw [pathParents_fixed_iff hstuck, hpath]
        refine iff_of_false (hshort _ (by omega)) ?_
        rintro (hk | hnil | ⟨hclear, -⟩)
        · exact absurd hk (Nat.succ_ne_zero k)
        · exact List.append_ne_nil_of_right_ne_nil cs' (List.cons_ne_nil c []) hnil
        · exact hafter hclear

/-! ### The paths that the operations lead to

Claims about paths are about those that the operations can make: from a
string, and by appending, cutting and taking filenames in any order.  Memory
around a path may change at any time. -/

/-- An operation, or a change of the memory around the path, by whoever uses
it.  The latter matters because the scan reads the byte behind the path. -/
inductive PathOp
  | append (mem mem' : Option (Block UInt8)) (elem : List UInt8)
  | parent (mem : Option (Block UInt8))
  | clone (mem : Option (Block UInt8))
  | around (cell : ℕ → UInt8)

namespace PathOp

/-- What the operation makes of the path.  `around` changes what lies behind
the path's block, and nothing in it. -/
def run : PathOp → U8ArrayList → Exec U8ArrayList
  | append mem mem' elem, path => pathAppend mem mem' path elem
  | parent mem, path => pathParent mem path
  | clone mem, path => pathClone mem path
  | around cell, path => .ok { path with array := path.array.map fun b =>
      { b with cell := fun i => if i < b.size then b.cell i else cell i } }

/-- What `kmalloc` returns is what was asked for, or the null pointer. -/
def Granted : PathOp → U8ArrayList → Prop
  | append mem mem' elem, path => Grants mem (grown path.capacity) ∧
      Grants mem' ((path.length + 1 + elem.length) % 2 ^ 32)
  | parent mem, path => Grants mem (grown path.capacity)
  | clone mem, path => Grants mem path.length
  | around _, _ => True

end PathOp

/-- An operation that returns, on memory that was granted to it. -/
def PathStep (path path' : U8ArrayList) : Prop :=
  ∃ op : PathOp, op.Granted path ∧ op.run path = .ok path'

/-- The paths that `path_from_string` and operations after it lead to. -/
def Reached (path : U8ArrayList) : Prop :=
  ∃ mem mem' str start, Grants mem 1 ∧ Grants mem' (str.length % 2 ^ 32) ∧
    pathFromString mem mem' str = .ok start ∧ ReflTransGen PathStep start path

/-- A new path holds its string. -/
theorem pathFromString_spec {str : List UInt8} (hmem : Grants mem 1)
    (hmem' : Grants mem' (str.length % 2 ^ 32)) (hrun : pathFromString mem mem' str = .ok path) :
    path.Sound ∧ path.contents = str := by
  have hempty : (u8aCreate mem 1).contents = [] := contents_of_length rfl
  cases hm : mem with
  | none =>
      -- `u8a_resize` does not look at the capacity
      subst hm
      have hrun' : u8aPushString mem' ⟨0, 0, none⟩ str = .ok path := hrun
      have hsound : U8ArrayList.Sound ⟨0, 0, none⟩ := ⟨le_rfl, le_rfl, show 0 < 2 ^ 31 by decide⟩
      exact hsound.pushString (by rwa [Nat.zero_add]) hrun'
  | some b =>
      obtain ⟨hle, hlt⟩ := hmem b hm
      have hsound : (u8aCreate mem 1).Sound := by
        rw [hm]
        exact ⟨Nat.zero_le 1, hle, hlt⟩
      obtain ⟨hpath, hcontents⟩ := hsound.pushString
        (show Grants mem' ((0 + str.length) % 2 ^ 32) by rwa [Nat.zero_add]) hrun
      exact ⟨hpath, hcontents.trans (congrArg (· ++ str) hempty)⟩

/-- A path with an element appended, a slash between the two. -/
theorem pathAppend_spec (h : path.Sound) (hmem : Grants mem (grown path.capacity))
    (hmem' : Grants mem' ((path.length + 1 + elem.length) % 2 ^ 32))
    (hrun : pathAppend mem mem' path elem = .ok q) :
    q.Sound ∧ q.contents = path.contents ++ 47 :: elem := by
  obtain ⟨p, hpush, hstring⟩ := Exec.bind_eq_ok.mp hrun
  rcases h.push hmem 47 with ⟨p', hpush', hsound, hcontents⟩ | ⟨herr, -⟩
  · obtain rfl := Except.ok.inj (hpush.symm.trans hpush')
    have hlen : p.length = path.length + 1 := by
      rw [← hsound.length_contents, hcontents, List.length_append, h.length_contents]
      rfl
    obtain ⟨hq, hbytes⟩ := hsound.pushString (hlen.symm ▸ hmem') hstring
    refine ⟨hq, ?_⟩
    rw [hbytes, hcontents, List.append_assoc]
    rfl
  · cases hpush.symm.trans herr

/-- A path is cut to no more than its length. -/
theorem parentScan_le (hn : n ≠ 0) (hlt : n < 2 ^ 31) {m : ℕ}
    (hrun : (parentScan n).run cell = some m) : m ≤ n := by
  by_cases hdot : n = 1 ∧ cell 0 = 46
  · rw [parentScan_dot hdot] at hrun
    exact (Option.some.inj hrun).ge
  · rw [parentScan_run hlt hdot] at hrun
    obtain ⟨i, hi, rfl⟩ := Option.map_eq_some_iff.mp hrun
    rcases slashScan_run cell n with ⟨j, hj, hj', -⟩ | ⟨hnone, -⟩
    · obtain rfl := Option.some.inj (hi.symm.trans hj')
      split <;> omega
    · cases hi.symm.trans hnone

theorem pathParent_sound (h : path.Sound) (hmem : Grants mem (grown path.capacity))
    (hrun : pathParent mem path = .ok q) : q.Sound := by
  have hpush : ∀ p : U8ArrayList, p.Sound → p.capacity = path.capacity →
      u8aPush mem p 46 = .ok q → q.Sound := by
    intro p hp hcap hrun
    rcases hp.push (hcap ▸ hmem) 46 with ⟨p', hrun', hsound, -⟩ | ⟨herr, -⟩
    · obtain rfl := Except.ok.inj (hrun.symm.trans hrun')
      exact hsound
    · cases hrun.symm.trans herr
  by_cases hne : path.length = 0
  · unfold pathParent at hrun
    rw [if_pos hne] at hrun
    exact hpush path h rfl hrun
  · obtain ⟨b, harray⟩ := h.exists_block hne
    rw [pathParent_eq harray hne] at hrun
    cases hscan : (parentScan path.length).run b.cell with
    | none =>
        rw [hscan] at hrun
        exact hpush { path with length := 0 } ⟨Nat.zero_le _, h.capacity_le, h.room_lt⟩ rfl hrun
    | some m =>
        rw [hscan] at hrun
        obtain rfl := Except.ok.inj hrun
        exact ⟨(parentScan_le hne h.length_lt hscan).trans h.length_le, h.capacity_le, h.room_lt⟩

/-- Each operation leaves a sound path: one whose length, capacity and block
fit together. -/
theorem PathStep.sound (hstep : PathStep path q) (h : path.Sound) : q.Sound := by
  obtain ⟨op, hgrant, hrun⟩ := hstep
  cases op with
  | append mem mem' elem => exact (pathAppend_spec h hgrant.1 hgrant.2 hrun).1
  | parent mem => exact pathParent_sound h hgrant hrun
  | clone mem => exact (h.clone hgrant hrun).1
  | around cell =>
      obtain rfl := Except.ok.inj hrun
      have hroom : U8ArrayList.room { path with array := path.array.map fun b =>
          { b with cell := fun i => if i < b.size then b.cell i else cell i } } = path.room := by
        unfold U8ArrayList.room
        cases path.array <;> rfl
      exact ⟨h.length_le, h.capacity_le.trans_eq hroom.symm, hroom.trans_lt h.room_lt⟩

theorem Reached.sound (h : Reached path) : path.Sound := by
  obtain ⟨mem, mem', str, start, hmem, hmem', hstart, hsteps⟩ := h
  exact Runs.invariant (fun _ _ hs hstep => PathStep.sound hstep hs) hsteps
    (pathFromString_spec hmem hmem' hstart).1

/-- **`path_parent` on every path** that the operations lead to: one call, `k`
calls on an absolute path, and a call after `path_append` are right just when
no slash stands one past the path before the call, and, of `k` calls, one is
all it takes. -/
theorem path_parent_exact (h : Reached path) :
    (path.contents ≠ [] → ∀ mem, Grants mem (grown path.capacity) →
      (Leaves mem (parentOf path.contents) (pathParent mem path) ↔
        ClearAfter path ∨ path.contents = [46] ∨ path.contents = [47])) ∧
    (∀ cs, path.contents = pathBytes cs → (∀ c ∈ cs, c ≠ [] ∧ (47 : UInt8) ∉ c) → ∀ mem k,
      ((∃ q, pathParents mem k path = .ok q ∧ q.contents = pathBytes (cs.take (cs.length - k))) ↔
        k = 0 ∨ cs = [] ∨ (ClearAfter path ∧ (k = 1 ∨ cs.length = 1)))) ∧
    (path.contents ≠ [] → ∀ mem mem' elem q, Grants mem (grown path.capacity) →
      Grants mem' ((path.length + 1 + elem.length) % 2 ^ 32) → (47 : UInt8) ∉ elem →
      pathAppend mem mem' path elem = .ok q → ∀ mem, Grants mem (grown q.capacity) →
        (Leaves mem path.contents (pathParent mem q) ↔ ClearAfter q)) := by
  have hsound := h.sound
  refine ⟨fun hne mem hmem => pathParent_leaves_iff hsound hne hmem,
    fun cs hpath hcs mem k => pathParents_iff hsound hpath hcs k,
    fun hne mem mem' elem q hmem hmem' helem hrun mem'' hmem'' => ?_⟩
  obtain ⟨hq, hbytes⟩ := pathAppend_spec hsound hmem hmem' hrun
  have hlong : q.contents.length = path.contents.length + 1 + elem.length := by
    rw [hbytes, List.length_append, List.length_cons, Nat.add_assoc, Nat.add_comm 1]
  have hpos := List.length_pos_of_ne_nil hne
  have hiff := pathParent_leaves_iff hq (by rw [hbytes]; simp) hmem''
  rw [hbytes, parentOf_append helem, if_neg hne, ← hbytes] at hiff
  refine hiff.trans (or_iff_left ?_)
  rintro (hdot | hslash)
  · rw [hdot] at hlong
    simp at hlong
    omega
  · rw [hslash] at hlong
    simp at hlong
    omega

/-- A block of zeros. -/
def zeros (size : ℕ) : Block UInt8 := ⟨size, fun _ => 0⟩

theorem grants_zeros (h : n < 2 ^ 31) : Grants (some (zeros n)) n := by
  intro b hb
  obtain rfl := Option.some.inj hb
  exact ⟨le_rfl, h⟩

theorem grants_none (n : ℕ) : Grants none n := fun _ hb => nomatch hb

/-- Of `/a/b` the parent is `/a`, for a path with a zero after it. -/
theorem path_parent_exact_a_b :
    ∃ path p, pathFromString (some (zeros 1)) (some (zeros 4)) [47, 97, 47, 98] = .ok path ∧
      pathParent none path = .ok p ∧ p.contents = [47, 97] := by
  refine ⟨_, _, rfl, rfl, ?_⟩
  have hreached : Reached _ := ⟨some (zeros 1), some (zeros 4), [47, 97, 47, 98], _,
    grants_zeros (by decide), grants_zeros (by decide), rfl, .refl⟩
  refine ((path_parent_exact hreached).1 (by decide) none (grants_none _)).mpr (Or.inl ?_)
  intro b hb
  obtain rfl := Option.some.inj hb
  decide

/-- After `/a/b/c` and one call the path is `/a/b`, and it stays that: behind
it comes the slash that the path had before. -/
theorem second_parent_stays :
    ∃ path p q, Reached p ∧
      pathFromString (some (zeros 1)) (some (zeros 6)) [47, 97, 47, 98, 47, 99] = .ok path ∧
      pathParent none path = .ok p ∧ p.contents = [47, 97, 47, 98] ∧
      parentOf p.contents = [47, 97] ∧
      pathParent none p = .ok q ∧ q.contents = [47, 97, 47, 98] := by
  refine ⟨_, _, _, ⟨some (zeros 1), some (zeros 6), [47, 97, 47, 98, 47, 99], _,
    grants_zeros (by decide), grants_zeros (by decide), rfl,
    .single ⟨.parent none, grants_none _, rfl⟩⟩, rfl, rfl, rfl, ?_, rfl, rfl⟩
  exact parentOf_append (a := [47, 97]) (t := [98]) (by decide)

end CourseOs.Fs
