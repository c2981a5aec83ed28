import CourseOs.Lib.ByteMemory

/-!
# Runs that record their memory accesses

A model that threads a memory through pure functions forgets which addresses
were read: a read whose value is not used leaves no trace in the result, and
neither does a read outside the memory that happens to return something
harmless.  Statements such as "nothing outside this block is touched" need
those reads.

A routine is therefore written a second time over `Logged`, with every access
to a word of memory made through `Logged.readWord` and `Logged.writeWord`.
Its `result` is then proved to be that of the routine, and what can be said of
its `log` is a statement about the words the routine reads and writes: also
about a read whose value does not matter, and about the accesses made before
the routine fails.

## Main definitions

* `Logged ε α` — a result (or an error), and the addresses of the words
  accessed, in order.
* `Logged.Within R x` — every access of the run satisfies `R`.
* `Logged.Alike g x x'` — the same accesses, and the same result up to `g`.

## Main results

`Within` is proved along the routine with one rule for each way to put
routines together; `Within.bind` asks about the second part only where it is
reached, which is what a guard of the routine is for.  `Alike` has the same
rules, and is how the second writing of a routine is connected with the first:
it cannot be a statement about results alone, because the log is what the
first writing does not have.
-/

/-- What a run returns and the addresses of the words it accessed, in order.
The log is kept when the run fails, so the accesses that lead up to a failure
count as well. -/
structure Logged (ε α : Type) where
  result : Except ε α
  log : List ℕ

namespace Logged

variable {ε α β : Type} {x : Logged ε α} {f : α → Logged ε β} {R : ℕ → Prop} {a : α}
  {m : ByteMemory} {n v c : ℕ}

/-- Return a value, without an access. -/
def ret (a : α) : Logged ε α := ⟨.ok a, []⟩

/-- Fail, without an access. -/
def fail (e : ε) : Logged ε α := ⟨.error e, []⟩

/-- Go on with what the first part returns.  The accesses of a part that
failed are kept. -/
def andThen (x : Logged ε α) (f : α → Logged ε β) : Logged ε β where
  result := x.result >>= fun a => (f a).result
  log := x.log ++ match x.result with
    | .ok a => (f a).log
    | .error _ => []

instance : Monad (Logged ε) where
  pure := ret
  bind := andThen

/-- A part without accesses, whatever its result is. -/
def quiet (r : Except ε α) : Logged ε α := ⟨r, []⟩

/-- An access at `n`, with what comes of it. -/
def access (r : Except ε α) (n : ℕ) : Logged ε α := ⟨r, [n]⟩

/-- Read the word at `n`. -/
def readWord (m : ByteMemory) (n : ℕ) : Logged ε ℕ := ⟨.ok (m.readWord n), [n]⟩

/-- Write the word at `n`. -/
def writeWord (m : ByteMemory) (n v : ℕ) : Logged ε ByteMemory := ⟨.ok (m.writeWord n v), [n]⟩

/-! ### Results

The result of a run is that of the routine without its log.  With these laws a
routine that is written with its accesses is shown to compute what it should. -/

@[simp] theorem result_bind : (x >>= f).result = x.result >>= fun a => (f a).result := rfl

@[simp] theorem result_pure : (pure a : Logged ε α).result = .ok a := rfl

@[simp] theorem result_fail {e : ε} : (fail e : Logged ε α).result = .error e := rfl

@[simp] theorem result_quiet {r : Except ε α} : (quiet r).result = r := rfl

@[simp] theorem result_access {r : Except ε α} : (access r n).result = r := rfl

@[simp] theorem result_readWord : (readWord m n : Logged ε ℕ).result = .ok (m.readWord n) := rfl

@[simp] theorem result_writeWord :
    (writeWord m n v : Logged ε ByteMemory).result = .ok (m.writeWord n v) := rfl

@[simp] theorem result_ite {p : Prop} [Decidable p] {y : Logged ε α} :
    (if p then x else y).result = if p then x.result else y.result := by
  split <;> rfl

/-! ### Accesses

The log of a sequence is that of its parts, as far as they are reached.
`Within` is closed under the same constructors, so that a bound on the
accesses of a routine is proved along its body. -/

theorem log_bind_of_ok (h : x.result = .ok a) : (x >>= f).log = x.log ++ (f a).log := by
  show x.log ++ (match x.result with | .ok a => (f a).log | .error _ => []) = _
  rw [h]

theorem log_bind_of_error {e : ε} (h : x.result = .error e) : (x >>= f).log = x.log := by
  show x.log ++ (match x.result with | .ok a => (f a).log | .error _ => []) = _
  rw [h, List.append_nil]

/-- All accesses satisfy `R`: an address of the run's log that does not is an
access outside of what the routine may touch. -/
def Within (R : ℕ → Prop) (x : Logged ε α) : Prop := ∀ c ∈ x.log, R c

theorem Within.pure : Within R (pure a : Logged ε α) := fun _ h => absurd h List.not_mem_nil

theorem Within.fail {e : ε} : Within R (fail e : Logged ε α) := fun _ h => absurd h List.not_mem_nil

theorem Within.quiet {r : Except ε α} : Within R (quiet r) := fun _ h => absurd h List.not_mem_nil

theorem Within.access {r : Except ε α} (h : R n) : Within R (access r n) := by
  intro c hc
  rw [List.mem_singleton.mp hc]
  exact h

theorem Within.readWord (h : R n) : Within R (readWord m n : Logged ε ℕ) := by
  intro c hc
  rw [List.mem_singleton.mp hc]
  exact h

theorem Within.writeWord (h : R n) : Within R (writeWord m n v : Logged ε ByteMemory) := by
  intro c hc
  rw [List.mem_singleton.mp hc]
  exact h

/-- A sequence of two routines, of which the second only counts where it is
reached: it is looked at for the values that the first part really returns. -/
theorem Within.bind (h : Within R x) (hf : ∀ a, x.result = .ok a → Within R (f a)) :
    Within R (x >>= f) := by
  intro c hc
  cases hx : x.result with
  | ok a =>
      rw [log_bind_of_ok hx] at hc
      exact (List.mem_append.mp hc).elim (h c) (hf a hx c)
  | error e =>
      rw [log_bind_of_error hx] at hc
      exact h c hc

theorem Within.ite {p : Prop} [Decidable p] {y : Logged ε α} (hx : p → Within R x)
    (hy : ¬p → Within R y) : Within R (if p then x else y) := by
  split
  · exact hx ‹_›
  · exact hy ‹_›

/-- What the first part accesses is accessed. -/
theorem mem_log_bind_left (hc : c ∈ x.log) : c ∈ (x >>= f).log := List.mem_append_left _ hc

variable {α' β' : Type} {g : α → α'} {k : β → β'} {x' : Logged ε α'}

/-- The same accesses, and the same result up to `g`.  This is how two
writings of a routine that return different things are compared. -/
structure Alike (g : α → α') (x : Logged ε α) (x' : Logged ε α') : Prop where
  result : x'.result = x.result.map g
  log : x'.log = x.log

theorem Alike.pure {a' : α'} (h : a' = g a) :
    Alike g (pure a : Logged ε α) (pure a' : Logged ε α') := by
  rw [h]
  exact ⟨rfl, rfl⟩

theorem Alike.fail {e : ε} : Alike g (fail e : Logged ε α) (fail e) := ⟨rfl, rfl⟩

theorem Alike.bind {f' : α' → Logged ε β'} (h : Alike g x x')
    (hf : ∀ a, Alike k (f a) (f' (g a))) : Alike k (x >>= f) (x' >>= f') := by
  cases hx : x.result with
  | error e =>
      have hx' : x'.result = .error e := h.result.trans (by rw [hx]; rfl)
      refine ⟨?_, ?_⟩
      · rw [result_bind, result_bind, hx, hx']
        rfl
      · rw [log_bind_of_error hx, log_bind_of_error hx', h.log]
  | ok a =>
      have hx' : x'.result = .ok (g a) := h.result.trans (by rw [hx]; rfl)
      refine ⟨?_, ?_⟩
      · rw [result_bind, result_bind, hx, hx']
        exact (hf a).result
      · rw [log_bind_of_ok hx, log_bind_of_ok hx', h.log, (hf a).log]

/-- Both start with the same access. -/
theorem Alike.bind_same {f' : α → Logged ε β'} (hf : ∀ a, Alike k (f a) (f' a)) :
    Alike k (x >>= f) (x >>= f') := by
  have h : Alike (fun a => a) x x := by
    obtain ⟨result, log⟩ := x
    cases result <;> exact ⟨rfl, rfl⟩
  exact h.bind hf

theorem Alike.ite {p : Prop} [Decidable p] {y : Logged ε α} {y' : Logged ε α'}
    (hx : Alike g x x') (hy : Alike g y y') :
    Alike g (if p then x else y) (if p then x' else y') := by
  split
  · exact hx
  · exact hy

end Logged
