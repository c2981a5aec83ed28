import CourseOs.Drivers.Timetable

/-!
# The firings of one interrupt

`Firings now A log A'` is a run of firings with its log, the handle and the
deadline of each.  When nothing that is due is left, each timer has fired once
for each deadline up to `now` (`Firings.log_of`).

Whether that point is reached, and in order of deadline, depends on the
priorities: `InTurn` compares, for two timers, each firing of the one that is
due with each place the other takes in the queue.  If the earlier deadline
always goes with the smaller priority, the run ends with nothing due and its
log is sorted (`InTurn.noneDue`, `InTurn.sorted`); conversely a sorted log
with nothing due left needs the priorities not to be the other way round
(`Firings.inTurn`).  Between equal priorities the queue chooses, and the
timetable does not say which it takes; this is the whole difference between
the two directions.

The proofs follow a run firing by firing.  A timer that fires moves one place
ahead, and the places it is still to take are those it had to take before,
less the first (`Timetable.Head.before`, `Timetable.Head.after`).  So what
`InTurn` says of a timetable it says of every timetable the run comes to
(`InTurn.firings`).
-/

namespace CourseOs.Timer

open Relation

variable {now i j p q d : ℕ} {e e' : Entry} {A A' : Timetable} {log : List (ℕ × ℕ)}
  {r : ℤ → ℤ → Prop}

/-- A run of firings, with the handle and deadline of each.  Every timer that
fires is at the head of the timetable as it is then, and due. -/
inductive Firings (now : ℕ) : Timetable → List (ℕ × ℕ) → Timetable → Prop
  | nil (A : Timetable) : Firings now A [] A
  | cons {A A' : Timetable} {p : ℕ} {e : Entry} {log : List (ℕ × ℕ)} (hhead : A.Head p e)
      (hdue : e.deadline ≤ now) (hrest : Firings now (A.fire p e) log A') :
      Firings now A ((p, e.deadline) :: log) A'

/-- No queued timer is due.  This is what an interrupt should leave behind. -/
def NoneDue (now : ℕ) (A : Timetable) : Prop := ∀ p e, A p = some e → now < e.deadline

/-- The deadlines up to `now` at which the timer fires, in order. -/
def Entry.dues (e : Entry) (now : ℕ) : List ℕ :=
  (List.range (e.firings now)).map fun k => e.deadline + k * e.period

/-- The deadlines at which `p` fires in a log, in the order in which it fires. -/
def logOf (p : ℕ) (log : List (ℕ × ℕ)) : List ℕ := (log.filter fun x => x.1 = p).map Prod.snd

/-- `j` firings bring the timer to a place it takes in the queue, due or not:
it is there before each firing up to `now`, and after the last one if it is
periodic. -/
def Entry.Reaches (e : Entry) (now j : ℕ) : Prop :=
  j < e.firings now ∨ j = e.firings now ∧ e.Stays now

/-- Of a firing that is due and a place of another timer with a later
deadline, the firing has the priority that `r` puts first.  With `<` this is
what makes the order right, and with `≤` what a right order shows. -/
def InTurn (r : ℤ → ℤ → Prop) (now : ℕ) (A : Timetable) : Prop :=
  ∀ p q e e' i j, p ≠ q → A p = some e → A q = some e' → i < e.firings now → e'.Reaches now j →
    (Entry.fire^[i] e).deadline < (Entry.fire^[j] e').deadline →
    r (Entry.fire^[i] e).priority (Entry.fire^[j] e').priority

/-! ### One firing

What a firing does to the counts of one timer: one firing less is left up to
`now`, the first of its deadlines is gone, and whether it stays in the queue
in the end is as before.  The one-shot timer has its period 0 for a special
case throughout, since the quotient that counts the firings is then no count. -/

theorem Entry.firings_of_lt (h : now < e.deadline) : e.firings now = 0 := if_pos h

theorem Entry.firings_pos (h : e.deadline ≤ now) : 0 < e.firings now := by
  unfold Entry.firings
  rw [if_neg (not_lt.mpr h)]
  exact Nat.succ_pos _

theorem Entry.due_of_firings (h : 0 < e.firings now) : e.deadline ≤ now := by
  by_contra hlt
  rw [Entry.firings_of_lt (not_le.mp hlt)] at h
  exact absurd h (Nat.lt_irrefl 0)

theorem Entry.firings_oneShot (h : e.deadline ≤ now) (hp : e.period = 0) : e.firings now = 1 := by
  unfold Entry.firings
  rw [if_neg (not_lt.mpr h), hp, Nat.div_zero]

/-- A firing uses up one. -/
theorem Entry.firings_fire (h : e.deadline ≤ now) (hp : e.period ≠ 0) :
    e.firings now = e.fire.firings now + 1 := by
  have hpos : 0 < e.period := Nat.pos_of_ne_zero hp
  unfold Entry.firings
  rw [if_neg (not_lt.mpr h)]
  show _ = (if now < e.deadline + e.period then 0
    else (now - (e.deadline + e.period)) / e.period + 1) + 1
  by_cases hlt : now < e.deadline + e.period
  · rw [if_pos hlt, Nat.div_eq_of_lt (by omega)]
  · rw [if_neg hlt, Nat.sub_add_eq, ← Nat.div_eq_sub_div hpos (by omega)]

theorem Entry.stays_fire (hp : e.period ≠ 0) : e.fire.Stays now := .inl hp

theorem Entry.reaches_fire (h : e.deadline ≤ now) (hp : e.period ≠ 0) :
    e.Reaches now (j + 1) ↔ e.fire.Reaches now j := by
  unfold Entry.Reaches
  rw [Entry.firings_fire h hp, Nat.add_lt_add_iff_right, Nat.add_right_cancel_iff]
  exact or_congr_right (and_congr_right fun _ => iff_of_true (.inl hp) (Entry.stays_fire hp))

theorem Entry.dues_of_lt (h : now < e.deadline) : e.dues now = [] := by
  unfold Entry.dues
  rw [Entry.firings_of_lt h]
  rfl

theorem Entry.dues_oneShot (h : e.deadline ≤ now) (hp : e.period = 0) :
    e.dues now = [e.deadline] := by
  unfold Entry.dues
  rw [Entry.firings_oneShot h hp, List.range_one, List.map_singleton, Nat.zero_mul, Nat.add_zero]

theorem Entry.dues_fire (h : e.deadline ≤ now) (hp : e.period ≠ 0) :
    e.dues now = e.deadline :: e.fire.dues now := by
  unfold Entry.dues
  rw [Entry.firings_fire h hp, List.range_succ_eq_map, List.map_cons, List.map_map, Nat.zero_mul,
    Nat.add_zero]
  congr 1
  apply List.map_congr_left
  intro k _
  show e.deadline + (k + 1) * e.period = e.deadline + e.period + k * e.period
  ring

theorem Timetable.fire_of_ne (h : q ≠ p) : A.fire p e q = A q := Function.update_of_ne h _ _

theorem Timetable.fire_oneShot (hp : e.period = 0) : A.fire p e p = none :=
  (Function.update_self ..).trans (if_pos hp)

theorem Timetable.fire_periodic (hp : e.period ≠ 0) : A.fire p e p = some e.fire :=
  (Function.update_self ..).trans (if_neg hp)

theorem Timetable.Head.fires (h : A.Head p e) (hdue : e.deadline ≤ now) :
    Fires now A (A.fire p e) := ⟨p, e, h, hdue, rfl⟩

/-! ### The log

A run that leaves nothing due has been through all deadlines.  For each timer
the log is compared with the list of its deadlines, which decreases from the
front as the run goes on, so that the induction is on the run and the case
split on whose firing it starts with. -/

theorem Firings.fires (h : Firings now A log A') : ReflTransGen (Fires now) A A' := by
  induction h with
  | nil A => exact .refl
  | cons hhead hdue _ ih => exact .head (hhead.fires hdue) ih

theorem logOf_cons_self : logOf p ((p, d) :: log) = d :: logOf p log := by
  unfold logOf
  rw [List.filter_cons_of_pos (by exact decide_eq_true rfl), List.map_cons]

theorem logOf_cons_of_ne (h : q ≠ p) : logOf p ((q, d) :: log) = logOf p log := by
  unfold logOf
  rw [List.filter_cons_of_neg (by exact fun hq => h (of_decide_eq_true hq))]

/-- A timer that is not queued does not fire. -/
theorem Firings.log_of_none (h : Firings now A log A') (hp : A p = none) : logOf p log = [] := by
  induction h with
  | nil A => rfl
  | @cons A A' x e log hhead hdue _ ih =>
      have hx : x ≠ p := by
        rintro rfl
        cases hp.symm.trans hhead.1
      rw [logOf_cons_of_ne hx, ih ((Timetable.fire_of_ne hx.symm).trans hp)]

/-- **Each timer** fires once for each of its deadlines, when none is due at
the end.  By induction on the run: a firing takes the first deadline of its
timer and none of another. -/
theorem Firings.log_of (h : Firings now A log A') (hend : NoneDue now A') (hp : A p = some e) :
    logOf p log = e.dues now := by
  induction h generalizing e with
  | nil A =>
      rw [Entry.dues_of_lt (hend p e hp)]
      rfl
  | @cons A A' x e₁ log hhead hdue hrest ih =>
      by_cases hx : x = p
      · subst hx
        obtain rfl := Option.some.inj (hp.symm.trans hhead.1)
        rw [logOf_cons_self]
        by_cases hperiod : e.period = 0
        · rw [Entry.dues_oneShot hdue hperiod,
            hrest.log_of_none (Timetable.fire_oneShot hperiod)]
        · rw [Entry.dues_fire hdue hperiod, ih hend (Timetable.fire_periodic hperiod)]
      · rw [logOf_cons_of_ne hx, ih hend ((Timetable.fire_of_ne (Ne.symm hx)).trans hp)]

/-- What is in the log was due. -/
theorem Firings.of_mem (h : Firings now A log A') (hmem : (p, d) ∈ log) :
    ∃ e j, A p = some e ∧ j < e.firings now ∧ d = (Entry.fire^[j] e).deadline := by
  induction h with
  | nil A => cases hmem
  | @cons A A' x e₁ log hhead hdue _ ih =>
      rcases List.mem_cons.mp hmem with heq | hmem
      · cases heq
        exact ⟨e₁, 0, hhead.1, Entry.firings_pos hdue, rfl⟩
      · obtain ⟨e, j, he, hj, hd⟩ := ih hmem
        by_cases hx : p = x
        · subst hx
          by_cases hperiod : e₁.period = 0
          · cases (Timetable.fire_oneShot hperiod).symm.trans he
          · obtain rfl := Option.some.inj ((Timetable.fire_periodic hperiod).symm.trans he)
            refine ⟨e₁, j + 1, hhead.1, ?_, hd⟩
            rw [Entry.firings_fire hdue hperiod]
            exact Nat.succ_lt_succ hj
        · exact ⟨e, j, (Timetable.fire_of_ne hx).symm.trans he, hj, hd⟩

/-- The deadlines of a timer, one-shot or periodic. -/
theorem Entry.mem_dues : d ∈ e.dues now ↔ d ≤ now ∧ ∃ k, d = e.deadline + k * e.period := by
  unfold Entry.dues
  rw [List.mem_map]
  constructor
  · rintro ⟨k, hk, rfl⟩
    refine ⟨?_, k, rfl⟩
    rw [← Entry.deadline_iterate]
    exact Entry.due_of_lt (List.mem_range.mp hk)
  · rintro ⟨hle, k, rfl⟩
    have hdue : e.deadline ≤ now := (Nat.le_add_right _ _).trans hle
    rcases Nat.eq_zero_or_pos e.period with hperiod | hpos
    · refine ⟨0, List.mem_range.mpr (Entry.firings_pos hdue), ?_⟩
      rw [hperiod, Nat.mul_zero, Nat.mul_zero]
    · refine ⟨k, List.mem_range.mpr ?_, rfl⟩
      unfold Entry.firings
      rw [if_neg (not_lt.mpr hdue)]
      exact Nat.lt_succ_of_le ((Nat.le_div_iff_mul_le hpos).mpr (Nat.le_sub_of_add_le' hle))

theorem Entry.nodup_dues : (e.dues now).Nodup := by
  rcases Nat.eq_zero_or_pos e.period with hperiod | hpos
  · rcases Nat.lt_or_ge now e.deadline with hlt | hdue
    · rw [Entry.dues_of_lt hlt]
      exact List.nodup_nil
    · rw [Entry.dues_oneShot hdue hperiod]
      exact List.nodup_singleton _
  · refine List.nodup_range.map fun k l hkl => ?_
    exact Nat.eq_of_mul_eq_mul_right hpos (Nat.add_left_cancel hkl)

/-! ### Completeness and order

Both follow from the order of priorities alone.  A timer that is due and not
at the head has a priority no smaller than the head's; so where a later
deadline never goes before an earlier one, the head is due as long as anything
is, and what fires is the earliest deadline of all. -/

/-- What is due in a timetable after a firing was due in the one before, one
firing earlier for the timer that fired. -/
theorem Timetable.Head.before (hhead : A.Head p e) (hdue : e.deadline ≤ now)
    (hq : A.fire p e q = some e') :
    ∃ e₀ k, A q = some e₀ ∧ (q ≠ p → k = 0) ∧ (q = p → k = 1) ∧
      (∀ j, Entry.fire^[j] e' = Entry.fire^[j + k] e₀) ∧
      (∀ j, j < e'.firings now → j + k < e₀.firings now) ∧
      ∀ j, e'.Reaches now j → e₀.Reaches now (j + k) := by
  by_cases hqp : q = p
  · subst hqp
    by_cases hperiod : e.period = 0
    · cases (Timetable.fire_oneShot hperiod).symm.trans hq
    · obtain rfl := Option.some.inj ((Timetable.fire_periodic hperiod).symm.trans hq)
      refine ⟨e, 1, hhead.1, fun h => absurd rfl h, fun _ => rfl, fun _ => rfl, fun j hj => ?_,
        fun j hj => (Entry.reaches_fire hdue hperiod).mpr hj⟩
      rw [Entry.firings_fire hdue hperiod]
      exact Nat.succ_lt_succ hj
  · rw [Timetable.fire_of_ne hqp] at hq
    exact ⟨e', 0, hq, fun _ => rfl, fun h => absurd h hqp, fun _ => rfl, fun _ => id, fun _ => id⟩

/-- A place a timer takes is still ahead of it after a firing, unless it was
that one.  So a timer goes through all places up to its last due one. -/
theorem Timetable.Head.after (hhead : A.Head p e) (hdue : e.deadline ≤ now) (hq : A q = some e')
    (hj : e'.Reaches now j) : (q = p ∧ j = 0) ∨ ∃ e'' l, A.fire p e q = some e'' ∧
      Entry.fire^[l] e'' = Entry.fire^[j] e' ∧ e''.Reaches now l ∧
      (j < e'.firings now → l < e''.firings now) := by
  by_cases hqp : q = p
  · subst hqp
    obtain rfl := Option.some.inj (hq.symm.trans hhead.1)
    cases j with
    | zero => exact .inl ⟨rfl, rfl⟩
    | succ j =>
        have hperiod : e'.period ≠ 0 := by
          intro hperiod
          have hone := Entry.firings_oneShot hdue hperiod
          rcases hj with hj | ⟨-, hstay⟩
          · omega
          · exact hstay.elim (fun h => h hperiod) (not_lt.mpr hdue)
        refine .inr ⟨e'.fire, j, Timetable.fire_periodic hperiod, rfl,
          (Entry.reaches_fire hdue hperiod).mp hj, fun hlt => ?_⟩
        rw [Entry.firings_fire hdue hperiod] at hlt
        exact Nat.lt_of_succ_lt_succ hlt
  · exact .inr ⟨e', j, (Timetable.fire_of_ne hqp).trans hq, rfl, hj, id⟩

theorem InTurn.fire (h : InTurn r now A) (hhead : A.Head p e) (hdue : e.deadline ≤ now) :
    InTurn r now (A.fire p e) := by
  intro x y e₁ e₂ i j hxy hx hy hi hj hlt
  obtain ⟨e₁', k, hx', -, -, hfire₁, hlt₁, -⟩ := hhead.before hdue hx
  obtain ⟨e₂', l, hy', -, -, hfire₂, -, hreach₂⟩ := hhead.before hdue hy
  rw [hfire₁, hfire₂] at hlt ⊢
  exact h x y e₁' e₂' (i + k) (j + l) hxy hx' hy' (hlt₁ i hi) (hreach₂ j hj) hlt

theorem InTurn.firings (h : InTurn r now A) (hrun : Firings now A log A') : InTurn r now A' := by
  induction hrun with
  | nil A => exact h
  | cons hhead hdue _ ih => exact ih (h.fire hhead hdue)

theorem Lagging.priority_le (h : Lagging A) (hp : A p = some e) (j : ℕ) :
    e.priority ≤ (Entry.fire^[j] e).priority :=
  Entry.priority_mono (h p e hp) (Nat.zero_le j)

/-- **Completeness**: in turn, nothing is due once the timer at the head is
not, for a timer that is due would stand before it. -/
theorem InTurn.noneDue (h : InTurn (· < ·) now A) (hp : A.Head p e) (hnot : now < e.deadline) :
    NoneDue now A := by
  intro q e' hq
  by_contra hdue
  have hqp : q ≠ p := by
    rintro rfl
    rw [Option.some.inj (hq.symm.trans hp.1)] at hdue
    exact hdue hnot
  have hlt := h q p e' e 0 0 hqp hq hp.1 (Entry.firings_pos (not_lt.mp hdue))
    (.inr ⟨(Entry.firings_of_lt hnot).symm, .inr hnot⟩) ((not_lt.mp hdue).trans_lt hnot)
  exact absurd (hp.2 q e' hq) (not_le.mpr hlt)

/-- **Order**: in turn, timers fire in order of deadline.  Two firings of one
timer are in order anyway, and of two timers the earlier one has the smaller
priority. -/
theorem InTurn.sorted (h : InTurn (· < ·) now A) (hlag : Lagging A) (hrun : Firings now A log A') :
    (log.map Prod.snd).Pairwise (· ≤ ·) := by
  induction hrun with
  | nil A => exact List.Pairwise.nil
  | @cons A A' x e log hhead hdue hrest ih =>
      refine List.Pairwise.cons ?_ (ih (h.fire hhead hdue) (hlag.fires (hhead.fires hdue)))
      intro d hd
      obtain ⟨⟨q, _⟩, hmem, rfl⟩ := List.mem_map.mp hd
      obtain ⟨e', j, hq, hj, rfl⟩ := hrest.of_mem hmem
      obtain ⟨e₀, k, hq₀, -, hself, hfire, hlt, -⟩ := hhead.before hdue hq
      show e.deadline ≤ (Entry.fire^[j] e').deadline
      rw [hfire]
      by_contra hless
      by_cases hqx : q = x
      · subst hqx
        obtain rfl := Option.some.inj (hq₀.symm.trans hhead.1)
        rw [Entry.deadline_iterate] at hless
        omega
      · have hkey := h q x e₀ e (j + k) 0 hqx hq₀ hhead.1 (hlt j hj)
          (.inl (Entry.firings_pos hdue)) (not_le.mp hless)
        exact absurd ((hhead.2 q e₀ hq₀).trans (hlag.priority_le hq₀ (j + k)))
          (not_le.mpr hkey)

/-- **The condition is needed**, but for equal priorities: if the log is
sorted and nothing due is left, no later deadline went before an earlier one. -/
theorem Firings.inTurn (hrun : Firings now A log A') (hlag : Lagging A) (hend : NoneDue now A')
    (hsorted : (log.map Prod.snd).Pairwise (· ≤ ·)) : InTurn (· ≤ ·) now A := by
  induction hrun with
  | nil A =>
      intro p q e e' i j _ hp _ hi
      exact absurd (Entry.due_of_firings (Nat.zero_lt_of_lt hi)) (not_le.mpr (hend p e hp))
  | @cons A A' x e₁ log hhead hdue hrest ih =>
      rw [List.map_cons, List.pairwise_cons] at hsorted
      obtain ⟨hfirst, hsorted⟩ := hsorted
      have hlater := ih (hlag.fires (hhead.fires hdue)) hend hsorted
      intro p q e e' i j hpq hp hq hi hj hlt
      rcases hhead.after hdue hp (.inl hi) with ⟨rfl, rfl⟩ | ⟨e₂, k, hp₂, hfire₂, -, hk⟩
      · -- the firing is the first of all
        obtain rfl := Option.some.inj (hp.symm.trans hhead.1)
        exact (hhead.2 q e' hq).trans (hlag.priority_le hq j)
      rcases hhead.after hdue hq hj with ⟨rfl, rfl⟩ | ⟨e₃, l, hq₃, hfire₃, hl, -⟩
      · -- the later deadline went first of all, against the order of the log
        obtain rfl := Option.some.inj (hq.symm.trans hhead.1)
        have hmem : (Entry.fire^[i] e).deadline ∈ log.map Prod.snd := by
          have hdues : (Entry.fire^[i] e).deadline ∈ logOf p log := by
            rw [hrest.log_of hend ((Timetable.fire_of_ne hpq).trans hp), Entry.deadline_iterate]
            exact List.mem_map_of_mem (List.mem_range.mpr hi)
          obtain ⟨x, hx, hd⟩ := List.mem_map.mp hdues
          rw [← hd]
          exact List.mem_map_of_mem (List.mem_of_mem_filter hx)
        exact absurd (hfirst _ hmem) (not_le.mpr hlt)
      · rw [← hfire₂, ← hfire₃] at hlt ⊢
        exact hlater p q e₂ e₃ k l hpq hp₂ hq₃ (hk hi) hl hlt

end CourseOs.Timer
