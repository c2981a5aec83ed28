import Mathlib.Data.List.Basic

/-!
# Programs that read an array

A `Scan` reads cells of an array one after another and goes on as they say.
`run` is what it returns on an array, `reads` the indices it looks at on the
way, in order.

A search that is written as a function of the array says what is found, and
not how far was looked.  Written as a `Scan` it says both, and the indices
depend on the contents, as they do in a loop that stops at a terminator.

## Main results

* `run_bind`, `reads_bind` — a sequence of two programs.
* `within_bind` — the rule for `Within R`, that all reads satisfy `R`.
* `run_congr` — what is returned, and what is read, depends on the cells that
  are read alone; a scan that stays below an index gives the same for all
  arrays that agree below it (`Within.run_eq`).
-/

universe u

/-- A program that reads an array of `β`: it returns, or reads a cell and goes
on with what is in it. -/
inductive Scan (β α : Type) : Type
  | ret (a : α)
  | read (i : ℕ) (next : β → Scan β α)

namespace Scan

variable {β α γ : Type} {cell cell' : ℕ → β} {R : ℕ → Prop}

/-- Go on with what the first part returns, on the same cells. -/
def andThen (f : α → Scan β γ) : Scan β α → Scan β γ
  | ret a => f a
  | read i next => read i fun b => andThen f (next b)

instance : Monad (Scan β) where
  pure := ret
  bind x f := x.andThen f

/-- The cell at index `i`, which is one read. -/
def get (i : ℕ) : Scan β β := read i ret

/-- The cells at the indices from `i` on, read one after the other. -/
def getRange : ℕ → ℕ → Scan β (List β)
  | _, 0 => pure []
  | i, count + 1 => do
      let b ← get i
      let bs ← getRange (i + 1) count
      pure (b :: bs)

/-- What the program returns, where the cells are these. -/
def run (cell : ℕ → β) : Scan β α → α
  | ret a => a
  | read i next => run cell (next (cell i))

/-- The indices the program reads, in order. -/
def reads (cell : ℕ → β) : Scan β α → List ℕ
  | ret _ => []
  | read i next => i :: reads cell (next (cell i))

@[simp] theorem run_pure (a : α) : (pure a : Scan β α).run cell = a := rfl

@[simp] theorem run_get (i : ℕ) : (get i : Scan β β).run cell = cell i := rfl

@[simp] theorem run_bind (x : Scan β α) (f : α → Scan β γ) :
    (x >>= f).run cell = (f (x.run cell)).run cell := by
  induction x with
  | ret a => rfl
  | read i next ih => exact ih (cell i)

@[simp] theorem reads_pure (a : α) : (pure a : Scan β α).reads cell = [] := rfl

@[simp] theorem reads_get (i : ℕ) : (get i : Scan β β).reads cell = [i] := rfl

@[simp] theorem reads_bind (x : Scan β α) (f : α → Scan β γ) :
    (x >>= f).reads cell = x.reads cell ++ (f (x.run cell)).reads cell := by
  induction x with
  | ret a => rfl
  | read i next ih => exact congrArg (i :: ·) (ih (cell i))

theorem run_getRange (i count : ℕ) :
    (getRange i count : Scan β (List β)).run cell =
      (List.range count).map fun k => cell (i + k) := by
  induction count generalizing i with
  | zero => rfl
  | succ count ih =>
      rw [getRange, run_bind, run_bind, run_pure, run_get, ih, List.range_succ_eq_map,
        List.map_cons, List.map_map]
      refine congrArg (cell i :: ·) (List.map_congr_left fun k _ => ?_)
      show cell (i + 1 + k) = cell (i + (k + 1))
      rw [Nat.add_assoc, Nat.add_comm 1 k]

theorem reads_getRange (i count : ℕ) :
    (getRange i count : Scan β (List β)).reads cell = List.range' i count := by
  induction count generalizing i with
  | zero => rfl
  | succ count ih =>
      rw [getRange, reads_bind, reads_bind, reads_pure, reads_get, ih, List.append_nil]
      rfl

/-- All reads satisfy `R`, on these cells; on others the program may read
elsewhere. -/
def Within (R : ℕ → Prop) (cell : ℕ → β) (x : Scan β α) : Prop := ∀ i ∈ x.reads cell, R i

theorem within_pure (a : α) : Within R cell (pure a : Scan β α) :=
  fun _ h => absurd h List.not_mem_nil

theorem within_get {i : ℕ} : Within R cell (get i : Scan β β) ↔ R i := by
  unfold Within
  rw [reads_get, List.forall_mem_singleton]

theorem within_bind {x : Scan β α} {f : α → Scan β γ} :
    Within R cell (x >>= f) ↔ Within R cell x ∧ Within R cell (f (x.run cell)) := by
  unfold Within
  rw [reads_bind, List.forall_mem_append]

/-- **What a program returns** depends on the cells it reads alone, and so
does which cells these are. -/
theorem run_congr (x : Scan β α) (h : ∀ i ∈ x.reads cell, cell i = cell' i) :
    x.run cell = x.run cell' ∧ x.reads cell = x.reads cell' := by
  induction x with
  | ret a => exact ⟨rfl, rfl⟩
  | read i next ih =>
      obtain ⟨hi, hnext⟩ := List.forall_mem_cons.mp h
      obtain ⟨hrun, hreads⟩ := ih (cell i) hnext
      unfold run reads
      rw [← hi]
      exact ⟨hrun, congrArg (i :: ·) hreads⟩

/-- A program that stays within `R` does the same on arrays that agree there. -/
theorem Within.run_eq {x : Scan β α} (h : Within R cell x) (heq : ∀ i, R i → cell i = cell' i) :
    x.run cell = x.run cell' := (run_congr x fun i hi => heq i (h i hi)).1

end Scan
