import Mathlib.Data.List.TakeWhile

/-!
# Tokens

The tokens of a list are its longest parts without separators, those that are
not empty, in order: what a tokenizer returns in call after call.  Several
separators in a row count as one, and separators at either end give no empty
token.

`tokens` is defined by splitting at every separator and leaving out what is
empty, which is short and says nothing about the order of work.
`tokens_append`, `tokens_cons` and `tokens_last` take the first token off the
front, as a tokenizer does: it passes over the separators in front, and cuts
the token off at the next one (`exists_split`).
-/

namespace Tokens

variable {α : Type*} {p : α → Bool} {pre t rest l : List α} {c : α}

/-- The tokens of `l`, where `p` says what a separator is. -/
def tokens (p : α → Bool) (l : List α) : List (List α) :=
  (l.splitOnP p).filter fun t => !t.isEmpty

/-- Separators in front do not matter. -/
theorem tokens_append (hpre : ∀ x ∈ pre, p x = true) : tokens p (pre ++ l) = tokens p l := by
  induction pre with
  | nil => rfl
  | cons x pre ih =>
      have hx : p x = true := hpre x List.mem_cons_self
      rw [← ih fun y hy => hpre y (List.mem_cons_of_mem x hy)]
      unfold tokens
      rw [List.cons_append, List.splitOnP_cons_eq_if_modifyHead, if_pos hx]
      rfl

theorem filter_token (ht : t ≠ []) (ts : List (List α)) :
    ((t :: ts).filter fun t => !t.isEmpty) = t :: ts.filter fun t => !t.isEmpty := by
  cases t with
  | nil => exact absurd rfl ht
  | cons x t => rfl

/-- The first token, up to a separator. -/
theorem tokens_cons (ht : t ≠ []) (hfree : ∀ x ∈ t, p x = false) (hc : p c = true) :
    tokens p (t ++ c :: rest) = t :: tokens p rest := by
  unfold tokens
  rw [List.splitOnP_append_cons_of_forall_mem hfree c hc, filter_token ht]

/-- The only token. -/
theorem tokens_last (ht : t ≠ []) (hfree : ∀ x ∈ t, p x = false) : tokens p t = [t] := by
  unfold tokens
  rw [List.splitOnP_eq_singleton hfree, filter_token ht]
  rfl

/-- A list is some separators, some of what is none, and what comes from the
next separator on: the two scans of one call of a tokenizer. -/
theorem exists_split (p : α → Bool) (l : List α) : ∃ pre t rest, l = pre ++ (t ++ rest) ∧
    (∀ x ∈ pre, p x = true) ∧ (∀ x ∈ t, p x = false) ∧ (t = [] → rest = []) ∧
    ∀ x ∈ rest.head?, p x = true := by
  refine ⟨l.takeWhile p, (l.dropWhile p).takeWhile fun x => !p x,
    (l.dropWhile p).dropWhile fun x => !p x, ?_, ?_, ?_, ?_, ?_⟩
  · rw [List.takeWhile_append_dropWhile, List.takeWhile_append_dropWhile]
  · exact fun x hx => List.mem_takeWhile_imp hx
  · intro x hx
    have := List.mem_takeWhile_imp hx
    rwa [Bool.not_eq_true'] at this
  · intro h
    cases hd : l.dropWhile p with
    | nil => rfl
    | cons x xs =>
        -- the first element left is no separator
        have hx := List.head?_dropWhile_not p l
        rw [hd] at h hx
        change p x = false at hx
        rw [List.takeWhile_cons, if_pos (by rw [hx]; rfl)] at h
        cases h
  · intro x hx
    have hlast := List.head?_dropWhile_not (fun x => !p x) (l.dropWhile p)
    rw [Option.mem_def.mp hx] at hlast
    simpa using hlast

end Tokens
