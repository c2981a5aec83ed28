import Mathlib.Data.List.DropRight
import Mathlib.Tactic.Common

/-!
# Words separated by a character

A list over an alphabet with a separator `sep` and a filler `dot`.  Its
`components` are the words between separators, without the empty words and
those that are one `dot`; `finalName` is the last of them, unless that is two
dots.

`trimmedName` looks for the same word another way: it takes all fillers and
separators off the end, and then what is left after the last separator.  That
is one pass from the end of the list instead of one over all of it, and it is
not the same: words that end in fillers are cut short, and two dots are not
seen before a separator.

## Main definitions

* `components`, `lastComponent`, `finalName` — the words, the last one, the
  last one when it is a name.
* `trim`, `trimmedWord`, `trimmedName` — the search from the end.
* `Plain sep dot l` — the last component does not end in a filler, or it is
  two dots and either ends the list or has no name before it.

## Main results

* `lastComponent_spec` — where the last component stands in the list.
* `trimmedName_eq_iff` — the two agree exactly on the lists that are `Plain`.

The proof of the second goes by the first: a list is cut into what comes
before its last component, the component, and the separators and fillers
behind it, and then both searches are computed on the three parts.
-/

namespace Components

/-! ### The last word

Lists are taken apart at their last separator.  This is also the induction by
which both searches are compared: each looks at the end of the list first. -/

section LastWord

variable {α : Type*} {sep dot : α} {l pre w : List α}

/-- A list that has separators has a last one. -/
theorem exists_last (h : sep ∈ l) : ∃ pre t, l = pre ++ sep :: t ∧ sep ∉ t := by
  obtain ⟨s, t, hl, hs⟩ := List.eq_append_cons_of_mem (List.mem_reverse.mpr h)
  refine ⟨t.reverse, s.reverse, ?_, fun hmem => hs (List.mem_reverse.mp hmem)⟩
  rw [← List.reverse_reverse l, hl, List.reverse_append, List.reverse_cons, List.append_assoc]
  rfl

/-- Induction on the words of a list, from its first word on. -/
theorem last_word_induction {P : List α → Prop} (sep : α) (hword : ∀ w, sep ∉ w → P w)
    (hcut : ∀ pre w, sep ∉ w → P pre → P (pre ++ sep :: w)) (l : List α) : P l := by
  induction hn : l.length using Nat.strong_induction_on generalizing l with
  | _ n ih =>
      by_cases hmem : sep ∈ l
      · obtain ⟨pre, w, rfl, hw⟩ := exists_last hmem
        refine hcut pre w hw (ih pre.length ?_ pre rfl)
        rw [← hn, List.length_append, List.length_cons]
        omega
      · exact hword l hmem

/-- After a separator, one filler at most is no two dots. -/
theorem not_dots_suffix (hsep : sep ≠ dot) (hw : w = [] ∨ w = [dot]) :
    ¬[dot, dot] <:+ pre ++ sep :: w := by
  rintro ⟨q, hq⟩
  replace hq := congrArg List.reverse hq
  rcases hw with rfl | rfl
  · rw [List.reverse_append, List.reverse_append] at hq
    exact hsep (List.cons.inj hq).1.symm
  · rw [List.reverse_append, List.reverse_append] at hq
    exact hsep (List.cons.inj (List.cons.inj hq).2).1.symm

/-- A list that ends in two dots ends in a word that ends in one. -/
theorem getLast?_of_dots_suffix (hne : w ≠ []) (h : [dot, dot] <:+ pre ++ w) :
    w.getLast? = some dot := by
  obtain ⟨q, hq⟩ := h
  replace hq := congrArg List.getLast? hq
  rw [List.getLast?_append, List.getLast?_append, List.getLast?_eq_some_getLast hne] at hq
  rw [List.getLast?_eq_some_getLast hne]
  exact hq.symm

end LastWord

variable {α : Type*} [DecidableEq α] {sep dot : α} {l pre post w : List α}

/-- The words of a list that count: those between separators that are neither
empty nor a single filler. -/
def components (sep dot : α) (l : List α) : List (List α) :=
  (l.splitOn sep).filter fun w => w ≠ [] ∧ w ≠ [dot]

/-- The last of them, if there is one. -/
def lastComponent (sep dot : α) (l : List α) : Option (List α) := (components sep dot l).getLast?

/-- The last of them, when there is one and it is not two dots. -/
def finalName (sep dot : α) (l : List α) : List α :=
  match lastComponent sep dot l with
  | none => []
  | some w => if w = [dot, dot] then [] else w

/-- A filler or a separator: what is cut off at the end. -/
def Trimmed (sep dot x : α) : Prop := x = dot ∨ x = sep

instance (x : α) : Decidable (Trimmed sep dot x) := inferInstanceAs (Decidable (_ ∨ _))

/-- The list without the fillers and separators at its end. -/
def trim (sep dot : α) (l : List α) : List α := l.rdropWhile fun x => Trimmed sep dot x

/-- What is left of the last word of the trimmed list. -/
def trimmedWord (sep dot : α) (l : List α) : List α := (trim sep dot l).rtakeWhile (· ≠ sep)

/-- The same, where two dots at the end are seen first. -/
def trimmedName (sep dot : α) (l : List α) : List α :=
  if [dot, dot] <:+ l then [] else trimmedWord sep dot l

/-- The last component does not end in a filler, or it is two dots and either
ends the list or has no name before it.  In the second case both searches find
no name. -/
def Plain (sep dot : α) (l : List α) : Prop :=
  ∀ w, lastComponent sep dot l = some w → w.getLast? ≠ some dot ∨
    (w = [dot, dot] ∧ ([dot, dot] <:+ l ∨ ∀ x ∈ l, Trimmed sep dot x))

/-! ### The last component

The last component is a word of the list behind which only separators and
single fillers come. -/

theorem lastComponent_word (h : sep ∉ w) :
    lastComponent sep dot w = if w ≠ [] ∧ w ≠ [dot] then some w else none := by
  unfold lastComponent components
  rw [List.splitOn_eq_singleton h]
  by_cases hw : w ≠ [] ∧ w ≠ [dot]
  · rw [if_pos hw, List.filter_cons_of_pos (by simpa using hw)]
    rfl
  · rw [if_neg hw, List.filter_cons_of_neg (by simpa using hw)]
    rfl

theorem lastComponent_append (h : sep ∉ w) :
    lastComponent sep dot (pre ++ sep :: w) =
      if w ≠ [] ∧ w ≠ [dot] then some w else lastComponent sep dot pre := by
  unfold lastComponent components
  rw [List.splitOn_append_cons_self, List.filter_append, List.splitOn_eq_singleton h]
  by_cases hw : w ≠ [] ∧ w ≠ [dot]
  · rw [if_pos hw, List.filter_cons_of_pos (by simpa using hw)]
    exact List.getLast?_concat
  · rw [if_neg hw, List.filter_cons_of_neg (by simpa using hw), List.filter_nil, List.append_nil]

/-- **Where the last component stands**: between a separator, or the start of
the list, and separators and single fillers. -/
theorem lastComponent_spec (hsep : sep ≠ dot) (l : List α) :
    (lastComponent sep dot l = none ∧ (∀ x ∈ l, Trimmed sep dot x)) ∨
      ∃ pre w post, l = pre ++ w ++ post ∧ lastComponent sep dot l = some w ∧
        (pre = [] ∨ ∃ q, pre = q ++ [sep]) ∧ sep ∉ w ∧ w ≠ [] ∧
        (∀ x ∈ post, Trimmed sep dot x) ∧ (post = [] ∨ ¬[dot, dot] <:+ l) := by
  have hsmall : ∀ w : List α, ¬(w ≠ [] ∧ w ≠ [dot]) → w = [] ∨ w = [dot] := by
    intro w hw
    rwa [not_and_or, not_not, not_not] at hw
  have htrim : ∀ w : List α, w = [] ∨ w = [dot] → ∀ x ∈ w, Trimmed sep dot x := by
    rintro w (rfl | rfl) x hx
    · exact absurd hx List.not_mem_nil
    · exact Or.inl (List.mem_singleton.mp hx)
  induction l using last_word_induction sep with
  | hword w hw =>
      rw [lastComponent_word hw]
      by_cases hcount : w ≠ [] ∧ w ≠ [dot]
      · rw [if_pos hcount]
        exact Or.inr ⟨[], w, [], (List.append_nil _).symm, rfl, Or.inl rfl, hw, hcount.1,
          fun x hx => absurd hx List.not_mem_nil, Or.inl rfl⟩
      · rw [if_neg hcount]
        exact Or.inl ⟨rfl, htrim w (hsmall w hcount)⟩
  | hcut pre w hw ih =>
      rw [lastComponent_append hw]
      by_cases hcount : w ≠ [] ∧ w ≠ [dot]
      · rw [if_pos hcount]
        exact Or.inr ⟨pre ++ [sep], w, [], by simp, rfl, Or.inr ⟨pre, rfl⟩, hw, hcount.1,
          fun x hx => absurd hx List.not_mem_nil, Or.inl rfl⟩
      · rw [if_neg hcount]
        have htail : ∀ x ∈ sep :: w, Trimmed sep dot x :=
          List.forall_mem_cons.mpr ⟨Or.inr rfl, htrim w (hsmall w hcount)⟩
        rcases ih with ⟨hnone, hall⟩ | ⟨q, v, post, rfl, hsome, hq, hv, hne, hpost, -⟩
        · exact Or.inl ⟨hnone, List.forall_mem_append.mpr ⟨hall, htail⟩⟩
        · exact Or.inr ⟨q, v, post ++ sep :: w, List.append_assoc .., hsome, hq, hv, hne,
            List.forall_mem_append.mpr ⟨hpost, htail⟩,
            Or.inr (not_dots_suffix hsep (hsmall w hcount))⟩

theorem mem_of_mem_finalName (hsep : sep ≠ dot) {x : α} (hx : x ∈ finalName sep dot l) : x ∈ l := by
  unfold finalName at hx
  rcases lastComponent_spec hsep l with ⟨hnone, -⟩ | ⟨pre, w, post, hl, hsome, -⟩
  · rw [hnone] at hx
    exact absurd hx List.not_mem_nil
  · rw [hsome] at hx
    dsimp only at hx
    split at hx
    · exact absurd hx List.not_mem_nil
    · rw [hl]
      exact List.mem_append_left post (List.mem_append_right pre hx)

/-! ### Trimming

Trimming looks at characters and not at words, so it also takes fillers that
belong to a name. -/

theorem trim_append (h : ∀ x ∈ post, Trimmed sep dot x) :
    trim sep dot (l ++ post) = trim sep dot l := by
  unfold trim List.rdropWhile
  rw [List.reverse_append, List.dropWhile_append_of_pos]
  intro x hx
  exact decide_eq_true (h x (List.mem_reverse.mp hx))

theorem trim_eq_nil_iff : trim sep dot l = [] ↔ ∀ x ∈ l, Trimmed sep dot x := by
  unfold trim
  rw [List.rdropWhile_eq_nil_iff]
  exact forall₂_congr fun x _ => decide_eq_true_iff

/-- Nothing is left of a list of separators and fillers, and of no other. -/
theorem trimmedWord_eq_nil_iff : trimmedWord sep dot l = [] ↔ ∀ x ∈ l, Trimmed sep dot x := by
  unfold trimmedWord
  rw [List.rtakeWhile_eq_nil_iff]
  constructor
  · intro h
    by_contra hall
    have hne : trim sep dot l ≠ [] := fun hnil => hall (trim_eq_nil_iff.mp hnil)
    have hlast := List.rdropWhile_last_not _ _ hne
    refine h hne (decide_eq_true fun heq => hlast (decide_eq_true ?_))
    exact Or.inr heq
  · exact fun h hne => absurd (trim_eq_nil_iff.mpr h) hne

/-- What is left does not end in a filler. -/
theorem getLast?_trimmedWord : (trimmedWord sep dot l).getLast? ≠ some dot := by
  intro hlast
  obtain ⟨q, hq⟩ : trimmedWord sep dot l <:+ trim sep dot l := List.rtakeWhile_suffix _ _
  have htrim : (trim sep dot l).getLast? = some dot := by
    rw [← hq, List.getLast?_append, hlast]
    rfl
  have hne : trim sep dot l ≠ [] := by
    intro hnil
    rw [hnil] at htrim
    cases htrim
  rw [List.getLast?_eq_some_getLast hne, Option.some.injEq] at htrim
  exact List.rdropWhile_last_not _ _ hne (decide_eq_true (Or.inl htrim))

/-- A last word that does not end in a filler is left as it is. -/
theorem trimmedWord_append (hpre : pre = [] ∨ ∃ q, pre = q ++ [sep]) (hw : sep ∉ w) (hne : w ≠ [])
    (hlast : w.getLast? ≠ some dot) (hpost : ∀ x ∈ post, Trimmed sep dot x) :
    trimmedWord sep dot (pre ++ w ++ post) = w := by
  have hself : trim sep dot (pre ++ w) = pre ++ w := by
    rw [trim, List.rdropWhile_eq_self_iff]
    intro hl htrim
    rw [List.getLast_append_of_ne_nil hl hne] at htrim
    rcases of_decide_eq_true htrim with hdot | hsep
    · exact hlast (by rw [List.getLast?_eq_some_getLast hne, hdot])
    · exact hw (hsep ▸ List.getLast_mem hne)
  have hword : pre.reverse.takeWhile (· ≠ sep) = [] := by
    rcases hpre with rfl | ⟨q, rfl⟩
    · rfl
    · rw [List.reverse_append]
      exact List.takeWhile_cons_of_neg (by simp)
  unfold trimmedWord
  rw [trim_append hpost, hself, List.rtakeWhile, List.reverse_append, List.takeWhile_append_of_pos,
    hword, List.append_nil, List.reverse_reverse]
  intro x hx
  exact decide_eq_true fun heq => hw (heq ▸ List.mem_reverse.mp hx)

/-! ### When trimming finds the last component

A name that ends in a filler is cut short by trimming; two fillers are no
name, and are seen only at the end of the list.  In all other cases the two
searches agree. -/

/-- **The trimmed name is the last component** just when the list is `Plain`.
The cases are those of the last component: there is none, it is not followed
by dots, or the dots belong to it. -/
theorem trimmedName_eq_iff (hsep : sep ≠ dot) :
    trimmedName sep dot l = finalName sep dot l ↔ Plain sep dot l := by
  unfold trimmedName finalName Plain
  rcases lastComponent_spec hsep l with
    ⟨hnone, hall⟩ | ⟨pre, w, post, hl, hsome, hpre, hw, hne, hpost, hdots⟩
  · rw [hnone, trimmedWord_eq_nil_iff.mpr hall, ite_self]
    exact iff_of_true rfl fun w h => nomatch h
  · rw [hsome]
    simp only [Option.some.injEq, forall_eq']
    by_cases hdd : [dot, dot] <:+ l
    · rw [if_pos hdd]
      by_cases hww : w = [dot, dot]
      · rw [if_pos hww]
        exact iff_of_true rfl (Or.inr ⟨hww, Or.inl hdd⟩)
      · rw [if_neg hww]
        refine iff_of_false (fun h => hne h.symm) ?_
        obtain rfl := hdots.resolve_right (not_not.mpr hdd)
        rw [List.append_nil] at hl
        rintro (hlast | ⟨hww', -⟩)
        · exact hlast (getLast?_of_dots_suffix hne (hl ▸ hdd))
        · exact hww hww'
    · rw [if_neg hdd]
      by_cases hww : w = [dot, dot]
      · rw [if_pos hww, trimmedWord_eq_nil_iff]
        constructor
        · exact fun hall => Or.inr ⟨hww, Or.inr hall⟩
        · rintro (hlast | ⟨-, hdd' | hall⟩)
          · exact absurd (hww ▸ rfl) hlast
          · exact absurd hdd' hdd
          · exact hall
      · rw [if_neg hww]
        constructor
        · intro h
          refine Or.inl ?_
          rw [← h]
          exact getLast?_trimmedWord
        · rintro (hlast | ⟨hww', -⟩)
          · rw [hl]
            exact trimmedWord_append hpre hw hne hlast hpost
          · exact absurd hww' hww

end Components
