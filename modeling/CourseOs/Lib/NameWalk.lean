import Mathlib.Data.List.Induction

/-!
# Walks along names

`Walk R p cs r`: from `p`, one step of `R` for each name of `cs` leads to `r`.
`R p c q` is read as "`q` is found in `p` under the name `c`", and is a
relation because a place may have several entries that answer to one name.

## Main definitions

* `Walk R p cs r` — a walk along the names `cs`.
* `Stuck R p cs r` — the place where a walk comes to a name for which there is
  no step.

## Main results

* `Walk.inf` — two relations under which a place is entered from one other
  place only (the places form a tree) have the same places along any two walks
  that end together.  This is how a search that follows one relation is
  compared with a search that follows another: if they find the same place,
  they have agreed on the way there.
* `Walk.add_leaf` — one more place, entered by one step: the walks are the old
  ones, and those that end with the new step.
* `Walk.unique`, `Stuck.unique`, `Stuck.not_walk` — where a name leads to one
  place only, a list of names leads to one place, or is stuck at one place,
  and not both.
-/

/-- From the first place along the names to the last.  `R p c q` is that the
name `c` leads from `p` to `q`. -/
inductive Walk {κ ν : Type*} (R : κ → ν → κ → Prop) : κ → List ν → κ → Prop
  | nil (p : κ) : Walk R p [] p
  | cons {p q r : κ} {c : ν} {cs : List ν} (hstep : R p c q) (hwalk : Walk R q cs r) :
      Walk R p (c :: cs) r

namespace Walk

variable {κ ν : Type*} {R S : κ → ν → κ → Prop} {p p' q r : κ} {c : ν} {cs cs' : List ν}

@[simp] theorem nil_iff : Walk R p [] r ↔ p = r := by
  constructor
  · rintro ⟨⟩
    rfl
  · rintro rfl
    exact nil p

theorem cons_iff : Walk R p (c :: cs) r ↔ ∃ q, R p c q ∧ Walk R q cs r := by
  constructor
  · rintro ⟨⟩
    exact ⟨_, ‹_›, ‹_›⟩
  · rintro ⟨q, hstep, hwalk⟩
    exact cons hstep hwalk

theorem mono (h : ∀ p c q, R p c q → S p c q) (hwalk : Walk R p cs r) : Walk S p cs r := by
  induction hwalk with
  | nil p => exact nil p
  | cons hstep _ ih => exact cons (h _ _ _ hstep) ih

/-- A walk ends where it starts or at the end of a step. -/
theorem eq_or_step (h : Walk R p cs r) : p = r ∨ ∃ q c, R q c r := by
  induction h with
  | nil p => exact .inl rfl
  | cons hstep _ ih =>
      rcases ih with rfl | hlast
      · exact .inr ⟨_, _, hstep⟩
      · exact .inr hlast

/-- Where each place is entered from one place only, walks of one length that
end together start together.  The induction is on the end of the walks. -/
theorem start_unique (hback : ∀ p p' c c' q, R p c q → S p' c' q → p = p')
    (h : Walk R p cs r) (h' : Walk S p' cs' r) (hlen : cs.length = cs'.length) : p = p' := by
  induction h generalizing p' cs' with
  | nil p =>
      obtain rfl := List.length_eq_zero_iff.mp hlen.symm
      exact (nil_iff.mp h').symm
  | cons hstep _ ih =>
      cases h' with
      | nil => cases hlen
      | cons hstep' hwalk' =>
          obtain rfl := ih hwalk' (Nat.succ.inj hlen)
          exact hback _ _ _ _ _ hstep hstep'

/-- Two walks that end together are one walk: every step of one is a step of
the other. -/
theorem inf (hback : ∀ p p' c c' q, R p c q → S p' c' q → p = p') (h : Walk R p cs r)
    (h' : Walk S p cs r) : Walk (fun p c q => R p c q ∧ S p c q) p cs r := by
  induction h with
  | nil p => exact nil p
  | cons hstep hwalk ih =>
      obtain ⟨q', hstep', hwalk'⟩ := cons_iff.mp h'
      obtain rfl := start_unique hback hwalk hwalk' rfl
      exact cons ⟨hstep, hstep'⟩ (ih hwalk')

theorem append_iff : Walk R p (cs ++ cs') r ↔ ∃ q, Walk R p cs q ∧ Walk R q cs' r := by
  induction cs generalizing p with
  | nil => simp only [List.nil_append, nil_iff, exists_eq_left']
  | cons c cs ih =>
      rw [List.cons_append, cons_iff]
      constructor
      · rintro ⟨q, hstep, hrest⟩
        obtain ⟨q', hwalk, hlast⟩ := ih.mp hrest
        exact ⟨q', cons hstep hwalk, hlast⟩
      · rintro ⟨q', hwalk, hlast⟩
        obtain ⟨q, hstep, hrest⟩ := cons_iff.mp hwalk
        exact ⟨q, hstep, ih.mpr ⟨q', hrest, hlast⟩⟩

theorem concat_iff : Walk R p (cs ++ [c]) r ↔ ∃ q, Walk R p cs q ∧ R q c r := by
  simp only [append_iff, cons_iff, nil_iff, exists_eq_right]

/-- **One more leaf** `b` below `a`: the walks are the old ones, and those
that end with the new step. -/
theorem add_leaf {a b : κ} {n : ν} (hS : ∀ p c q, S p c q ↔ R p c q ∨ p = a ∧ c = n ∧ q = b)
    (hin : ∀ p c, ¬R p c b) (hout : ∀ c q, ¬R b c q) (hab : a ≠ b) (hpb : p ≠ b) :
    Walk S p cs r ↔ Walk R p cs r ∨ ∃ cs', cs = cs' ++ [n] ∧ Walk R p cs' a ∧ r = b := by
  induction cs using List.reverseRecOn generalizing r with
  | nil =>
      rw [nil_iff, nil_iff]
      refine ⟨.inl, ?_⟩
      rintro (rfl | ⟨cs', hcs, -⟩)
      · rfl
      · exact absurd hcs.symm (List.append_ne_nil_of_right_ne_nil cs' (List.cons_ne_nil n []))
  | append_singleton cs c ih =>
      rw [concat_iff, concat_iff]
      constructor
      · rintro ⟨q, hwalk, hstep⟩
        rcases ih.mp hwalk with hold | ⟨-, -, -, rfl⟩
        · rcases (hS q c r).mp hstep with hstep | ⟨rfl, rfl, rfl⟩
          · exact .inl ⟨q, hold, hstep⟩
          · exact .inr ⟨cs, rfl, hold, rfl⟩
        · -- nothing leads on from the leaf
          rcases (hS _ c r).mp hstep with hstep | ⟨hba, -⟩
          · exact absurd hstep (hout c r)
          · exact absurd hba.symm hab
      · rintro (⟨q, hwalk, hstep⟩ | ⟨cs', hcs, hwalk, rfl⟩)
        · exact ⟨q, ih.mpr (.inl hwalk), (hS q c r).mpr (.inl hstep)⟩
        · obtain ⟨rfl, hc⟩ := List.append_inj' hcs rfl
          obtain rfl := List.singleton_inj.mp hc
          exact ⟨a, ih.mpr (.inl hwalk), (hS a c r).mpr (.inr ⟨rfl, rfl, rfl⟩)⟩

theorem unique (hfun : ∀ p c q q', R p c q → R p c q' → q = q') {r' : κ} (h : Walk R p cs r)
    (h' : Walk R p cs r') : r = r' := by
  induction h with
  | nil p => exact nil_iff.mp h'
  | cons hstep _ ih =>
      obtain ⟨q', hstep', hwalk'⟩ := cons_iff.mp h'
      obtain rfl := hfun _ _ _ _ hstep hstep'
      exact ih hwalk'

end Walk

/-- From the first place along the names to one that has no step for the next
name. -/
inductive Stuck {κ ν : Type*} (R : κ → ν → κ → Prop) : κ → List ν → κ → Prop
  | here {p : κ} {c : ν} {cs : List ν} (hstop : ∀ q, ¬R p c q) : Stuck R p (c :: cs) p
  | cons {p q r : κ} {c : ν} {cs : List ν} (hstep : R p c q) (hstuck : Stuck R q cs r) :
      Stuck R p (c :: cs) r

namespace Stuck

variable {κ ν : Type*} {R : κ → ν → κ → Prop} {p q r : κ} {c : ν} {cs : List ν}

theorem of_walk (h : Walk R p cs r) (hstop : ∀ q, ¬R r c q) (cs' : List ν) :
    Stuck R p (cs ++ c :: cs') r := by
  induction h with
  | nil p => exact here hstop
  | cons hstep _ ih => exact cons hstep (ih hstop)

theorem not_walk (hfun : ∀ p c q q', R p c q → R p c q' → q = q') (h : Stuck R p cs r) :
    ¬Walk R p cs q := by
  induction h with
  | here hstop =>
      intro hwalk
      obtain ⟨q', hstep, -⟩ := Walk.cons_iff.mp hwalk
      exact hstop q' hstep
  | cons hstep _ ih =>
      intro hwalk
      obtain ⟨q', hstep', hwalk'⟩ := Walk.cons_iff.mp hwalk
      obtain rfl := hfun _ _ _ _ hstep hstep'
      exact ih hwalk'

theorem unique (hfun : ∀ p c q q', R p c q → R p c q' → q = q') {r' : κ} (h : Stuck R p cs r)
    (h' : Stuck R p cs r') : r = r' := by
  induction h with
  | here hstop =>
      cases h' with
      | here => rfl
      | cons hstep => exact absurd hstep (hstop _)
  | cons hstep _ ih =>
      cases h' with
      | here hstop => exact absurd hstep (hstop _)
      | cons hstep' hstuck =>
          obtain rfl := hfun _ _ _ _ hstep hstep'
          exact ih hstuck

end Stuck
